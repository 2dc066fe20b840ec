import Kos.DiskProgressProofs
import Kos.StoreStepsProofs

/-! # The file system refines the store

    The processes make requests, fork and exit, and the machine is started
    again.

    * A start reads back what is on the disk (`restart_served`), and a new file
      system is the first store (`boot_stands`);
    * so every trace of the file system, with all replies, is one of the store
      (`store_refined`). -/

namespace KosStoreRuns

open FlatMemory (Byte)
open Overlay
open RefCount
open TraceRefinement
open KosFs
open KosMkfs
open KosInitFs (initFs initFs_formatted superAt newEntries entryBytes freeEntry)
open KosReadWrite
open KosOpenFile
open KosRequests
open KosRefusals (numberOf)
open KosSectorMap (mapSize)
open KosTables
open KosFresh
open KosBounds (blankFs)
open KosMkfsImage (inUse_iff)
open KosRequestCounts
open KosReferenceCounts
open KosDiskImage
open KosDiskSteps
open KosDiskRequests
open KosNewImage
open KosFileMaps
open KosMapRuns (Inv)
open KosDiskProgress
open KosDirectoryMap
open KosFileStore
open KosOpenFiles
open KosStoreContents
open KosStoreSteps (serve allowed StandsFor standsFor_disk openedAt_gaveUp
  numberOf_store request_served)

/-! ## Forks and exits -/

section Processes

variable {sb : SuperBlock} {m : Image} {live : Finset Nat} {s t : Fs} {a : Store}
  {p : Pid} {u : Unit}

/-- Other counts, and slots, are nothing to the image. -/
theorem loaded_counts (hs : Loaded m live s)
    (hinode : ∀ i, ∃ c, t.inodeTable i = { s.inodeTable i with cnt := c } ∧
      (c ≠ 0 → (s.inodeTable i).cnt ≠ 0))
    (hroot : t.rootInode = s.rootInode)
    (hdesc : ∀ d, (t.fileDescTable d).inode ≠ none →
      (s.fileDescTable d).inode ≠ none ∧
        (t.fileDescTable d).pos = (s.fileDescTable d).pos) : Loaded m live t := by
  refine ⟨fun i hcnt => ?_, ?_, fun d hd => ?_⟩
  · obtain ⟨c, hi, hused⟩ := hinode i
    rw [hi] at hcnt ⊢
    obtain ⟨hdev, n, hn, hnr, hstored⟩ := hs.entry i (hused hcnt)
    exact ⟨hdev, n, hn, hnr, hstored⟩
  · obtain ⟨c, hi, -⟩ := hinode s.rootInode
    rw [hroot, hi]
    exact hs.root
  · obtain ⟨hsome, hpos⟩ := hdesc d hd
    rw [hpos]
    exact hs.pos d hsome

/-- **ONE SLOT** is given up. -/
theorem inv_gaveUp {slot : Fin NR_FILES} {d : Fin NR_FILE_DESC}
    {i : Fin NR_INODE} (h : Inv sb live s) (hslot : (refs s).slot (p, slot) = some d)
    (hd : (refs s).target d = some i) : Inv sb live (gaveUp p.val slot d i s) := by
  have hused := exact_used h.counted.exact (atRoot_nonneg s) hd
  refine ⟨h.super, counted_gaveUp h.counted hslot hd, h.files.maps, h.files.listed,
    loaded_counts h.files.loaded (fun j => ?_) rfl fun e he => ?_⟩
  · have htable : (gaveUp p.val slot d i s).inodeTable j =
        if j = i then { s.inodeTable i with cnt := (s.inodeTable i).cnt - 1 }
          else s.inodeTable j := Function.update_apply ..
    rw [htable]
    split
    · rename_i hj
      rw [hj]
      refine ⟨_, rfl, fun _ => ?_⟩
      have hcnt : 0 < (s.inodeTable i).cnt := hused
      omega
    · exact ⟨_, rfl, id⟩
  · have htable : (gaveUp p.val slot d i s).fileDescTable e =
        if e = d then dropDesc (s.fileDescTable d) else s.fileDescTable e :=
      Function.update_apply ..
    rw [htable] at he ⊢
    split at he
    · rename_i hed
      rw [hed, if_pos rfl]
      refine ⟨?_, rfl⟩
      rw [show (s.fileDescTable d).inode = some i from hd]
      exact Option.some_ne_none i
    · rename_i hed
      rw [if_neg hed]
      exact ⟨he, rfl⟩

/-- **`fs_exit`** has the maps and the disk as they are, and what is still open is
    as it was. -/
theorem inv_giveUpSlots : ∀ {l : List (Fin NR_FILES)} {s : Fs}, Inv sb live s →
    l.forM (giveUpSlot p.val) s = .ok u t → Inv sb live t ∧ t.disk = s.disk ∧
      ∀ e, openedAt t e ≠ none → openedAt t e = openedAt s e := by
  intro l
  induction l with
  | nil =>
      intro s hs h
      cases h
      exact ⟨hs, rfl, fun _ _ => rfl⟩
  | cons slot l ih =>
      intro s hs h
      obtain ⟨_, v, hround, h⟩ := run_bind.mp h
      have hv : Inv sb live v ∧ v.disk = s.disk ∧
          ∀ e, openedAt v e ≠ none → openedAt v e = openedAt s e := by
        rcases run_giveUpSlot hround with ⟨-, rfl⟩ | ⟨d, i, hslot, hd, rfl⟩
        · exact ⟨hs, rfl, fun _ _ => rfl⟩
        · exact ⟨inv_gaveUp hs hslot hd, rfl, fun e he => openedAt_gaveUp e he⟩
      obtain ⟨hinv, hdisk, hopened⟩ := hv
      obtain ⟨ht, hdisk', hopened'⟩ := ih hinv h
      refine ⟨ht, hdisk'.trans hdisk, fun e he => ?_⟩
      have hsame := hopened' e he
      rw [hsame] at he ⊢
      exact hopened e he

/-- The descriptors and the inodes have other counts only. -/
structure Shared (s t : Fs) : Prop where
  disk : t.disk = s.disk
  supers : t.superBlockTable = s.superBlockTable
  slots : t.fileDesc = s.fileDesc
  root : t.rootInode = s.rootInode
  inode : ∀ i, ∃ c, t.inodeTable i = { s.inodeTable i with cnt := c } ∧
    (c ≠ 0 → (s.inodeTable i).cnt ≠ 0)
  desc : ∀ d, ∃ c, t.fileDescTable d = { s.fileDescTable d with cnt := c }
  used : ∀ d i, (t.fileDescTable d).inode = some i → 0 < (t.inodeTable i).cnt

theorem shared_slot {v : Fs} {slot : Fin NR_FILES} (hs : Shared s v)
    (h : shareSlot p.val slot v = .ok u t) : Shared s t := by
  rcases run_shareSlot h with ⟨-, rfl⟩ | ⟨d, i, -, hd, rfl⟩
  · exact hs
  have hpos := hs.used d i hd
  have hinode : ∀ j, (shared d i v).inodeTable j =
      if j = i then { v.inodeTable i with cnt := (v.inodeTable i).cnt + 1 }
        else v.inodeTable j := fun j => Function.update_apply ..
  have hdesc : ∀ e, (shared d i v).fileDescTable e =
      if e = d then { v.fileDescTable d with cnt := (v.fileDescTable d).cnt + 1 }
        else v.fileDescTable e := fun e => Function.update_apply ..
  refine ⟨hs.disk, hs.supers, hs.slots, hs.root, fun j => ?_, fun e => ?_,
    fun e j he => ?_⟩
  · obtain ⟨c, hc, hused⟩ := hs.inode j
    rw [hinode]
    split
    · rename_i hj
      subst hj
      rw [hc] at hpos ⊢
      exact ⟨_, rfl, fun _ => hused (by dsimp only at hpos; omega)⟩
    · exact ⟨c, hc, hused⟩
  · obtain ⟨c, hc⟩ := hs.desc e
    rw [hdesc]
    split
    · rename_i he
      subst he
      rw [hc]
      exact ⟨_, rfl⟩
    · exact ⟨c, hc⟩
  · have he' : (v.fileDescTable e).inode = some j := by
      rw [hdesc] at he
      split at he
      · rename_i hed
        rw [hed]
        exact he
      · exact he
    have hj := hs.used e j he'
    rw [hinode]
    split
    · dsimp only
      omega
    · exact hj

/-- **`fs_fork`** changes counts. -/
theorem shared_slots : ∀ {l : List (Fin NR_FILES)} {v : Fs}, Shared s v →
    l.forM (shareSlot p.val) v = .ok u t → Shared s t := by
  intro l
  induction l with
  | nil =>
      intro v hv h
      cases h
      exact hv
  | cons slot l ih =>
      intro v hv h
      obtain ⟨_, w, hround, h⟩ := run_bind.mp h
      exact ih (shared_slot hv hround) h

theorem openedAt_shared (h : Shared s t) : openedAt t = openedAt s := by
  funext d
  obtain ⟨c, hd⟩ := h.desc d
  rw [openedAt, openedAt, hd]
  cases hi : (s.fileDescTable d).inode with
  | none => rfl
  | some i =>
      obtain ⟨c', hi', -⟩ := h.inode i
      rw [Option.map_some, Option.map_some, hi']

/-- The child has the open files of its parent. -/
theorem fork_served {parent child : Pid} {ret : Int} (hs : StandsFor sb s a)
    (hchild : ∀ slot, s.fileDesc child.val slot = none)
    (hrun : fsFork child.val (copied parent child s) = .ok ret t) :
    ∃ b, Serves a (.fork parent child) b ∧ StandsFor sb t b := by
  have hused : KosReferenceCounts.Inv ⟨s, fun q => decide (q ≠ child)⟩ :=
    ⟨hs.inv.counted, fun q hq slot => by
      have hqc : q = child := not_not.mp (of_decide_eq_false hq)
      rw [hqc]
      exact hchild slot⟩
  have hcounted : Counted t :=
    (counted_fork hused (decide_eq_false (not_not.mpr rfl)) hrun).1
  obtain ⟨_, v, hslots, h⟩ := run_bind.mp hrun
  cases h
  have hshared : Shared (copied parent child s) t :=
    shared_slots ⟨rfl, rfl, rfl, rfl, fun _ => ⟨_, rfl, id⟩, fun _ => ⟨_, rfl⟩,
      fun _ _ hd => exact_used hs.inv.counted.exact (atRoot_nonneg s) hd⟩ hslots
  have hopened : openedAt t = openedAt s :=
    (openedAt_shared hshared).trans (openedAt_congr rfl fun _ _ _ => rfl)
  have ht : Inv sb a.live t := by
    have himage : imageIn sb t = imageIn sb s := by
      rw [imageIn, imageIn, hshared.disk]
      rfl
    refine ⟨(superOf_congr hshared.supers).trans hs.inv.super, hcounted, ?_⟩
    rw [himage]
    refine ⟨hs.inv.files.maps, hs.inv.files.listed, loaded_counts hs.inv.files.loaded
      hshared.inode hshared.root fun d hd => ?_⟩
    obtain ⟨c, hc⟩ := hshared.desc d
    rw [hc] at hd ⊢
    exact ⟨hd, rfl⟩
  have hslot : (refs t).slot = fun x =>
      if x.1 = child then a.slots (parent, x.2) else a.slots x := by
    funext x
    obtain ⟨q, slot⟩ := x
    show t.fileDesc q.val slot = _
    rw [hshared.slots, hs.slots]
    show Function.update s.fileDesc child.val (s.fileDesc parent.val) q.val slot = _
    by_cases hq : q = child
    · rw [hq, Function.update_self]
      exact (if_pos rfl).symm
    · have hne : (q.val : Int) ≠ child.val := fun h => hq (Fin.ext (by omega))
      rw [Function.update_of_ne hne]
      exact (if_neg hq).symm
  refine ⟨_, .forks fun slot => ?_, standsFor_disk hs ht hshared.disk rfl rfl rfl rfl
    hslot.symm ?_⟩
  · rw [hs.slots]
    exact hchild slot
  · have hkeep := openedAt_keep (s := s) hcounted fun d _ => congrFun hopened d
    rw [hkeep, hslot, Store.keep, hs.opened]

/-- The slots of the process are given up. -/
theorem exit_served {ret : Int} (hs : StandsFor sb s a)
    (hrun : fsExit p.val s = .ok ret t) :
    ∃ b, Serves a (.exit p) b ∧ StandsFor sb t b := by
  obtain ⟨_, v, hslots, h⟩ := run_bind.mp hrun
  cases h
  obtain ⟨hcounted, hslot⟩ := counted_giveUpSlots hs.inv.counted hslots
  obtain ⟨ht, hdisk, hopened⟩ := inv_giveUpSlots hs.inv hslots
  have hslot' : (refs t).slot = fun x => if x.1 = p then none else a.slots x := by
    funext x
    obtain ⟨q, slot⟩ := x
    rw [hslot, hs.slots]
    exact if_congr (and_iff_left (List.mem_finRange slot)) rfl rfl
  refine ⟨_, .exits, standsFor_disk hs ht hdisk rfl rfl rfl rfl hslot'.symm ?_⟩
  rw [openedAt_keep hcounted hopened, hslot', Store.keep, hs.opened]

end Processes

/-! ## Starts -/

section Starts

variable {sb : SuperBlock} {s t w : Fs} {a : Store} {sectCnt : BitVec 32}

/-- What FS starts with has the right counts, and nothing is open. -/
theorem started_open (hnone : ∀ pid slot, w.fileDesc pid slot = none)
    (hrun : initFs sectCnt w = .ok () t) :
    Counted t ∧ (refs t).slot = (fun _ => none) ∧ openedAt t = fun _ => none := by
  obtain ⟨-, -, -, -, -, -, hdescs, hslots, -, -⟩ := initFs_run hrun
  refine ⟨(inv_boot (s := ⟨t, fun _ => true⟩) ⟨sectCnt, w, hnone, hrun⟩).counted,
    ?_, ?_⟩
  · funext x
    show t.fileDesc x.1.val x.2 = none
    rw [hslots]
    exact hnone _ _
  · funext d
    rw [openedAt, hdescs]
    rfl

/-- **A START** of the machine finds the files on the disk. -/
theorem restart_served (hfits : Fits sb) (hmagic : sb.magic = MAGIC_V1)
    (hs : StandsFor sb s a) (hdisk : w.disk = s.disk)
    (hnone : ∀ pid slot, w.fileDesc pid slot = none)
    (hrun : initFs sectCnt w = .ok () t) :
    ∃ b, Serves a .restart b ∧ StandsFor sb t b := by
  obtain ⟨hcounted, hslots, hopened⟩ := started_open hnone hrun
  obtain ⟨t', ht', hstarted⟩ : ∃ t', initFs sectCnt w = .ok () t' ∧
      KosInitFs.Started w sb t' :=
    initFs_formatted (by rw [hdisk]; exact hs.super) hmagic
      (KosInodeArray.stored_of_made hfits.made (Nat.le_refl 1)
        (show 1 ≤ 4096 by decide))
  rw [hrun] at ht'
  cases ht'
  have hsame : t.disk = s.disk := hstarted.disk.trans hdisk
  have himage : imageIn sb t = imageIn sb s := by
    rw [imageIn, imageIn, hsame]
  have ht : Inv sb a.live t := by
    refine ⟨hstarted.super, hcounted, ?_⟩
    rw [himage]
    refine ⟨hs.inv.files.maps, hs.inv.files.listed, fun i => ?_, ?_, fun d hd => ?_⟩
    · rw [hstarted.inodes, Function.update_apply]
      split
      · rw [hdisk]
        exact entry_self hs.inv.files.maps.root rfl rfl rfl
      · exact fun hcnt => absurd rfl hcnt
    · rw [hstarted.inodes, Function.update_self]
      rfl
    · rw [hstarted.descs] at hd
      exact absurd rfl hd
  have hkeep : (a.keep fun _ => none).opened = fun _ => none := by
    funext d
    rw [Store.keep]
    dsimp only
    rw [if_neg]
    rintro ⟨x, hx⟩
    cases hx
  exact ⟨_, .restarts, standsFor_disk hs ht hsame rfl rfl rfl rfl hslots.symm
    (hkeep.trans hopened.symm)⟩

/-- FS has made a file system on a partition of `sectCnt` sectors, where the rest
    of the root directory had zeros. -/
def Boot (sectCnt : BitVec 32) (s : Fs) : Prop :=
  ∃ s₀, word (s₀.disk ROOT_DEV_NR) 512 ≠ MAGIC_V1 ∧
    (∀ pid slot, s₀.fileDesc pid slot = none) ∧
    (∀ x, 512 ≤ x → x < DIR_BYTES → s₀.disk ROOT_DEV_NR
      (dirByte (superBlock sectCnt ROOT_DEV_NR) + x) = 0) ∧
    initFs sectCnt s₀ = .ok () s

/-- The store with `mkfs`'s files. -/
structure First (a : Store) : Prop where
  live : a.live = firstInodes
  files : a.files = firstFiles
  small : a.Small
  slots : a.slots = fun _ => none
  opened : a.opened = fun _ => none

/-- What `initFs` reads after `mkfs` is what `mkfs` wrote. -/
theorem boot_super {s₀ : Fs} (hold : word (s₀.disk ROOT_DEV_NR) 512 ≠ MAGIC_V1)
    (hrun : initFs sectCnt s₀ = .ok () s) :
    superAt (drop (s.disk ROOT_DEV_NR) 512) ROOT_DEV_NR =
      superBlock sectCnt ROOT_DEV_NR := by
  obtain ⟨u, sb, hmade, hsb, hmagic, -, -, -, hdisk, -⟩ := initFs_run hrun
  obtain ⟨v, -, hmkfs⟩ := hmade hold
  have hword : word (u.disk ROOT_DEV_NR) 512 = MAGIC_V1 := by
    rw [← hmagic, hsb]
    rfl
  rw [hdisk]
  exact (mkfs_image hmkfs hword).1

/-- The sizes of the first files. -/
theorem first_sizes {m : Image} {n : Nat} (h : NewImage sb m)
    (hn : n ∈ firstInodes) : (m.inode n).fileSize.toNat ≤ FILE_BYTES := by
  have hsize : ∀ k (hk : k < (KosInitFs.newInodes sb).length),
      ((KosInitFs.newInodes sb)[k]).fileSize.toNat ≤ FILE_BYTES := by
    have hlist : ∀ q ∈ KosInitFs.newInodes sb, q.fileSize.toNat ≤ FILE_BYTES := by
      intro q hq
      have hcases : q.fileSize = 80 ∨ q.fileSize = 0 ∨ q.fileSize = 1048576 := by
        simp only [KosInitFs.newInodes, List.mem_append, List.mem_cons, List.mem_map,
          List.not_mem_nil, or_false] at hq
        rcases hq with (rfl | ⟨i, -, rfl⟩) | rfl
        · exact Or.inl rfl
        · exact Or.inr (Or.inl rfl)
        · exact Or.inr (Or.inr rfl)
      rcases hcases with hq | hq | hq <;> rw [hq] <;> decide
    exact fun k hk => hlist _ (List.getElem_mem hk)
  have hrange : 1 ≤ n ∧ n ≤ 5 := by
    rw [firstInodes] at hn
    simp only [Finset.mem_insert, Finset.mem_singleton] at hn
    omega
  obtain ⟨k, rfl⟩ : ∃ k, n = k + 1 := ⟨n - 1, by omega⟩
  have hk : k < (KosInitFs.newInodes sb).length := show k < 5 by omega
  rw [h.inode k hk]
  exact hsize k hk

/-- **A NEW FILE SYSTEM** is the first store. -/
theorem boot_stands (hcond : 2048 ≤ sectCnt.toNat ∧ sectCnt.toNat < 124768256)
    (h : Boot sectCnt s) : Fits (superBlock sectCnt ROOT_DEV_NR) ∧
      ∃ a, First a ∧ StandsFor (superBlock sectCnt ROOT_DEV_NR) s a := by
  obtain ⟨s₀, hold, hnone, hzero, hrun⟩ := h
  obtain ⟨hfits, hinv⟩ := KosMapRuns.inv_boot (s := ⟨s, firstInodes⟩) hcond.1 hcond.2
    ⟨rfl, s₀, hold, hnone, hrun⟩
  obtain ⟨-, hslots, hopened⟩ := started_open hnone hrun
  obtain ⟨-, -, himage, -, -, -, hrest⟩ := boot_image hcond.1 hcond.2 hold hrun
  have hsuper := boot_super hold hrun
  obtain ⟨sb, hsb⟩ : ∃ sb, superBlock sectCnt ROOT_DEV_NR = sb := ⟨_, rfl⟩
  rw [hsb] at hzero hfits hinv himage hrest hsuper ⊢
  refine ⟨hfits, ⟨firstInodes, firstFiles, fun n => if n ∈ firstInodes then
    ((imageIn sb s).inode n).fileSize.toNat else 0, fun n x => s.disk ROOT_DEV_NR
      (512 * ((imageIn sb s).inode n).sectStart.toNat + x), fun _ => none,
    fun _ => none⟩, ⟨rfl, rfl, fun n => ?_, rfl, rfl⟩, hinv, hsuper, ?_, ?_,
    hslots.symm, hopened.symm⟩
  · dsimp only
    split
    · rename_i hn
      exact first_sizes himage hn
    · exact Nat.zero_le _
  · refine names_new himage fun x hx => ?_
    by_cases hlt : x < DIR_BYTES
    · by_cases hfirst : x < 512
      · have hblank : ∀ y < 512, 80 ≤ y → entryBytes y = 0 := by decide +kernel
        exact (himage.dir x hfirst).trans (hblank x hfirst hx)
      · refine (dir_byte hlt).trans ?_
        rw [drop, hrest _ (by omega)]
        exact hzero x (by omega) hlt
    · exact if_neg hlt
  · exact ⟨fun n hn _ => (if_pos hn).symm, fun n _ _ x _ => rfl⟩

end Starts

/-! ## Traces -/

/-- What FS does: the requests of the processes, the forks and exits that PM asks
    for, and a start with the disk as it is. -/
def step (sb : SuperBlock) (s : Fs) (l : Label) (t : Fs) : Prop :=
  match l with
  | .request p req reply => allowed sb s p req ∧ succeeded req reply.ret ∧
      serve p req s = .ok reply t
  | .fork parent child => (∀ slot, s.fileDesc child.val slot = none) ∧
      ∃ ret, fsFork child.val (copied parent child s) = .ok ret t
  | .exit p => ∃ ret, fsExit p.val s = .ok ret t
  | .restart => ∃ sectCnt w, w.disk = s.disk ∧
      (∀ pid slot, w.fileDesc pid slot = none) ∧ initFs sectCnt w = .ok () t

/-- The file system, from a new disk on. -/
def fileSystem (sectCnt : BitVec 32) : System Fs Label where
  init := Boot sectCnt
  step := step (superBlock sectCnt ROOT_DEV_NR)

/-- The store that it should be. -/
def store : System Store Label where
  init := First
  step := Serves

section Traces

variable {sb : SuperBlock} {s t : Fs} {a : Store} {l : Label} {sectCnt : BitVec 32}

theorem run_step {ls : List Label} (hr : Run (fileSystem sectCnt) ls s)
    (h : step (superBlock sectCnt ROOT_DEV_NR) s l t) :
    Run (fileSystem sectCnt) (ls ++ [l]) t := .next hr h

/-- **A STEP** of the file system is one of the store. -/
theorem step_served (hfits : Fits sb) (hmagic : sb.magic = MAGIC_V1)
    (hs : StandsFor sb s a) (hsmall : a.Small) (h : step sb s l t) :
    ∃ b, Serves a l b ∧ StandsFor sb t b := by
  cases l with
  | request p req reply =>
      obtain ⟨hallowed, hok, hrun⟩ := h
      exact request_served hfits hs hsmall hallowed hok hrun
  | fork parent child =>
      obtain ⟨hchild, ret, hrun⟩ := h
      exact fork_served hs hchild hrun
  | exit p =>
      obtain ⟨ret, hrun⟩ := h
      exact exit_served hs hrun
  | restart =>
      obtain ⟨cnt, w, hdisk, hnone, hrun⟩ := h
      exact restart_served hfits hmagic hs hdisk hnone hrun

/-- **THE STORE SIMULATES** the file system. -/
theorem store_simulates
    (hcond : 2048 ≤ sectCnt.toNat ∧ sectCnt.toNat < 124768256) :
    Simulates (fileSystem sectCnt) store fun s a =>
      Fits (superBlock sectCnt ROOT_DEV_NR) ∧
        StandsFor (superBlock sectCnt ROOT_DEV_NR) s a ∧ a.Small := by
  constructor
  case init =>
    intro s h
    obtain ⟨hfits, a, hfirst, hs⟩ := boot_stands hcond h
    exact ⟨a, hfirst, hfits, hs, hfirst.small⟩
  case step =>
    rintro s t e a ⟨hfits, hs, hsmall⟩ h
    obtain ⟨b, hserves, ht⟩ := step_served hfits rfl hs hsmall h
    exact ⟨b, hserves, hfits, ht, small_step hserves hsmall⟩

/-- **THE FILE SYSTEM REFINES THE STORE**: every trace of it, of the requests of
    all processes with their replies, forks, exits and starts, is a trace of the
    store, and the state it ends in stands for a store that the trace leads to. -/
theorem store_refined {l : List Label}
    (hcond : 2048 ≤ sectCnt.toNat ∧ sectCnt.toNat < 124768256)
    (h : Run (fileSystem sectCnt) l s) :
    ∃ a, Run store l a ∧ StandsFor (superBlock sectCnt ROOT_DEV_NR) s a := by
  obtain ⟨a, ha, -, hs, -⟩ := run_simulated (store_simulates hcond) h
  exact ⟨a, ha, hs⟩

/-- Nobody has a file open when FS starts. -/
theorem first_idle (hs : StandsFor sb s a) (h : First a) : Idle s := by
  intro d
  have hnone : openedAt s d = none := by
    rw [← hs.opened, h.opened]
  exact openedAt_none.mp hnone

/-- A new file system on a blank disk. -/
theorem boot_blank : ∃ s, Boot 40960 s ∧ NewImage (superBlock 40960 ROOT_DEV_NR)
    (imageIn (superBlock 40960 ROOT_DEV_NR) s) := by
  have hcond : 2048 ≤ (40960 : BitVec 32).toNat ∧
      (40960 : BitVec 32).toNat < 124768256 := by decide
  have hold : word (blankFs.disk ROOT_DEV_NR) 512 ≠ MAGIC_V1 := by decide
  obtain ⟨s, hrun⟩ := initFs_made (by decide) hcond.1 hcond.2 hold
  exact ⟨s, ⟨blankFs, hold, fun _ _ => rfl, fun _ _ _ => rfl, hrun⟩,
    (boot_image hcond.1 hcond.2 hold hrun).2.2.1⟩

/-- A new file system, in which a process makes a file. -/
theorem first_file : ∃ s fd d i v, Boot 40960 s ∧
    step (superBlock 40960 ROOT_DEV_NR) s
      (.request 5 (.open [0x61] (O_RDWR ||| O_CREAT))
        { ret := ((fd : Fin NR_FILES).val : Nat) })
      (connect v 5 fd d i (O_RDWR ||| O_CREAT)) ∧
    ∃ nr start, v.inodeTable i = newInode ROOT_DEV_NR nr start := by
  have hcond : 2048 ≤ (40960 : BitVec 32).toNat ∧
      (40960 : BitVec 32).toNat < 124768256 := by decide
  obtain ⟨s, hboot, himage⟩ := boot_blank
  obtain ⟨hfits, a, hfirst, hs⟩ := boot_stands hcond hboot
  obtain ⟨sb, hsb⟩ : ∃ sb, superBlock 40960 ROOT_DEV_NR = sb := ⟨_, rfl⟩
  have hdata : sb.nr1stDataSect.toNat = 270 ∧ mapSize sb = 45056 := by
    rw [← hsb]
    decide
  -- the file has a number and sectors
  have hpath : ([0x61] : List Byte).takeWhile (· ≠ 0) = [0x61] := by decide
  have hno : numberOf s [0x61] = INVALID_INODE := by
    rw [numberOf_store hfits hs (by decide), Store.numberOf, hfirst.files]
    decide
  have hidle := first_idle hs hfirst
  have hroom : HasRun (superBlock 40960 ROOT_DEV_NR)
      (imageIn (superBlock 40960 ROOT_DEV_NR) s) 2049 := by
    rw [hsb] at himage ⊢
    have huse : ∀ y, (imageIn sb s).sectBit y = true ↔ y < 45056 ∧
        (y < 2049 ∨ 32499 ≤ y ∧ y < 34547) := by
      intro y
      rw [← hdata.2]
      refine (himage.sectBit y).trans (and_congr_right fun _ => ?_)
      rw [inUse_iff (by omega), hdata.1]
    have hsects : NR_FILE_SECTS = 2048 := rfl
    refine ⟨fun y hy => (huse y).mpr (by omega), fun y h₁ h₂ => ?_, by omega⟩
    exact Bool.eq_false_iff.mpr fun hset => by
      have hin := (huse y).mp hset
      omega
  obtain ⟨fd, hfd⟩ := idle_freeFd hs.inv.counted hidle 5
  obtain ⟨d, hd⟩ := idle_freeDesc hidle
  obtain ⟨i, v, hopen, hnew⟩ := open_creates (O_RDWR ||| O_CREAT) hfits hs.inv
    hfd (idle_freeInode hs.inv.counted hidle) hd
    (show ([0x61] : List Byte).length < 128 by decide)
    (by decide) (by decide) (by rw [hpath]; rfl) (by rw [hpath]; exact hno)
    ⟨6, by decide, Bool.eq_false_iff.mpr fun hset =>
      absurd ((himage.inodeBit 6).mp hset) (by decide)⟩ hroom
  refine ⟨s, fd, d, i, v, hboot, ⟨⟨fun _ name hname => ?_, fun _ => by decide⟩, ?_, ?_⟩,
    hnew⟩
  · rw [hpath] at hname
    cases hname
    decide
  · show (fd.val : Int) ≠ -1
    omega
  · exact run_bind.mpr ⟨_, _, hopen, rfl⟩

/-- The run that makes a file, and then starts again. -/
theorem store_refined_created : ∃ (fd : Fin NR_FILES) (s : Fs) (a : Store),
    Run store [.request 5 (.open [0x61] (O_RDWR ||| O_CREAT)) { ret := fd.val },
        .request 5 (.close fd.val) { ret := 0 }, .restart] a ∧
      StandsFor (superBlock 40960 ROOT_DEV_NR) s a := by
  have hcond : 2048 ≤ (40960 : BitVec 32).toNat ∧
      (40960 : BitVec 32).toNat < 124768256 := by decide
  obtain ⟨s, fd, d, i, v, hboot, hopen, _, _, hnew⟩ := first_file
  obtain ⟨u, hclose⟩ := close_ok 5 fd d (O_RDWR ||| O_CREAT) (v := v) (i := i)
    (by rw [hnew]; exact Int.one_pos)
  have hstep : step (superBlock 40960 ROOT_DEV_NR)
      (connect v 5 fd d i (O_RDWR ||| O_CREAT))
      (.request 5 (.close fd.val) { ret := 0 }) u :=
    ⟨trivial, show (0 : Int) ≠ -1 by decide, run_bind.mpr ⟨_, _, hclose, rfl⟩⟩
  have hreach : Run (fileSystem 40960) [.request 5 (.open [0x61]
      (O_RDWR ||| O_CREAT)) { ret := fd.val }, .request 5 (.close fd.val)
        { ret := 0 }] u := .next (.next (.start hboot) hopen) hstep
  -- the machine is started with this disk
  obtain ⟨b, -, hu⟩ := run_simulated (store_simulates hcond) hreach
  obtain ⟨w, hw⟩ : ∃ w, initFs 40960 { blankFs with disk := u.disk } = .ok () w := by
    obtain ⟨w, hw, -⟩ := initFs_formatted (s := { blankFs with disk := u.disk })
      hu.2.1.super rfl (KosInodeArray.stored_of_made hu.1.made (Nat.le_refl 1)
        (show 1 ≤ 4096 by decide))
    exact ⟨w, hw⟩
  have hstart : (fileSystem 40960).step u .restart w :=
    ⟨40960, { blankFs with disk := u.disk }, rfl, fun _ _ => rfl, hw⟩
  obtain ⟨c, hc, hstands⟩ := store_refined hcond (.next hreach hstart)
  exact ⟨fd, w, c, hc, hstands⟩

end Traces

end KosStoreRuns
