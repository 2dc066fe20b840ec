import Kos.DiskImageProofs

/-! # The image of a new file system

    What `mkfs` writes, as an image: the numbers of five inodes, the sectors of
    the root directory and of `cmd.tar`, and five entries.  What else was on
    the disk is not in it. -/

namespace KosNewImage

open FlatMemory (Byte)
open Overlay
open BitMap (bit bit_byte)
open KosFs
open KosMkfs
open KosInodeArray
open KosInodeMap (inodeMap)
open KosSectorMap (mapSize mapOf)
open KosInitFs
open KosFresh
open KosMkfsImage
open KosDiskImage

section Records

variable {α : Type} {g : α → Nat → Byte} {m x k : Nat}

/-- Entries of 32 bytes, one behind the other, do not reach back. -/
theorem foldl_put_of_lt (l : List α) {b : Nat → Byte} (hx : x < 32 * m) :
    (l.zipIdx m).foldl (fun b p => put b (32 * p.2) 16 (g p.1)) b x = b x := by
  induction l generalizing m b with
  | nil => rfl
  | cons a l ih =>
      rw [List.zipIdx_cons, List.foldl_cons, ih (by omega)]
      exact put_of_out (Or.inl hx)

/-- Each entry is in its place. -/
theorem foldl_put_at {l : List α} {j : Nat} (hj : j < l.length) (hk : k < 16)
    {b : Nat → Byte} :
    (l.zipIdx m).foldl (fun b p => put b (32 * p.2) 16 (g p.1)) b
      (32 * (m + j) + k) = g l[j] k := by
  induction l generalizing m b j with
  | nil => exact absurd hj (Nat.not_lt_zero j)
  | cons a l ih =>
      rw [List.zipIdx_cons, List.foldl_cons]
      cases j with
      | zero =>
          rw [foldl_put_of_lt l (by omega), Nat.add_zero]
          exact put_at hk
      | succ j =>
          rw [show m + (j + 1) = m + 1 + j by omega]
          exact ih (Nat.lt_of_succ_lt_succ hj)

end Records

section Image

variable {sb : SuperBlock} {s s₀ : Fs} {f : Nat → Byte} {sectCnt : BitVec 32}

/-- The inodes of `create_inode_array` lie one behind the other. -/
theorem inodeBytes_entry {j k : Nat} (hj : j < (newInodes sb).length)
    (hk : k < 16) :
    inodeBytes sb (32 * j + k) = entryOf (newInodes sb)[j] k := by
  have hfold : inodeBytes sb = (newInodes sb).zipIdx.foldl
      (fun b p => put b (32 * p.2) 16 (entryOf p.1)) fun _ => 0 := by
    rw [inodeBytes]
    simp only [putInodeFields_eq]
  have h := foldl_put_at (m := 0) (g := entryOf) hj hk (b := fun _ => 0)
  rw [Nat.zero_add] at h
  rw [hfold]
  exact h

/-- The image of a new file system. -/
structure NewImage (sb : SuperBlock) (m : Image) : Prop where
  inodeBit : ∀ y, m.inodeBit y = true ↔ y < 6
  sectBit : ∀ y, m.sectBit y = true ↔ y < mapSize sb ∧ InUse sb y
  inode : ∀ n (h : n < (newInodes sb).length),
    m.inode (n + 1) = asStored (n + 1) (newInodes sb)[n]
  dir : ∀ a < 512, m.dir a = entryBytes a

theorem newDisk_image (hm : Made sb) (h : NewDisk sb f) :
    NewImage sb (imageOf sb f) := by
  have hfirst := hm.first
  refine ⟨fun y => ?_, fun y => ?_, fun n hn => ?_, fun a ha => ?_⟩
  · have hbits : ∀ k < 8, (0x3F : Byte).getLsbD k = decide (k < 6) := by decide
    show (decide (y < 4096) && bit (inodeMap f) y) = true ↔ _
    by_cases hy : y < 4096
    · have hbyte : inodeMap f (y / 8) = if y / 8 = 0 then 0x3F else 0 :=
        h.inodeMap _ (by omega)
      rw [decide_eq_true hy, Bool.true_and, bit, hbyte]
      by_cases h0 : y / 8 = 0
      · rw [if_pos h0, hbits _ (Nat.mod_lt _ (by omega)), decide_eq_true_eq]
        omega
      · rw [if_neg h0]
        refine iff_of_false (fun hset => ?_) (by omega)
        have hzero : (0 : Byte).getLsbD (y % 8) = false := BitVec.getLsbD_zero
        rw [hzero] at hset
        cases hset
    · rw [decide_eq_false hy, Bool.false_and]
      exact iff_of_false Bool.false_ne_true (by omega)
  · show (decide (y < mapSize sb) && bit (mapOf sb f) y) = true ↔ _
    rw [Bool.and_eq_true, decide_eq_true_eq]
    exact and_congr_right fun hy => h.sectMap y hy
  · have hlen : (newInodes sb).length = 5 := rfl
    have hbytes : ∀ k < 16, f (entryByte sb (n + 1 : Nat) + k) =
        put (fun _ => 0) (entryByte sb (n + 1 : Nat)) 16
          (entryOf (newInodes sb)[n]) (entryByte sb (n + 1 : Nat) + k) := by
      intro k hk
      rw [put_at hk, ← inodeBytes_entry hn hk, ← h.inodes _ (by omega),
        entryByte_eq hm (by omega) (by omega), arrayByte]
      congr 1
      omega
    obtain ⟨h₁, h₂, h₃, h₄⟩ := @diskInode_put sb (n + 1) (newInodes sb)[n]
      (fun _ => (0 : Byte)) ROOT_DEV_NR
    show (if _ then diskInode f sb ROOT_DEV_NR (n + 1 : Nat) else _) = _
    rw [if_pos (by omega), diskInode_congr hbytes, asStored, ← h₁, ← h₂, ← h₃,
      ← h₄]
    rfl
  · show (if _ then _ else _) = _
    rw [if_pos (by rw [DIR_BYTES, SECTOR_SIZE, NR_FILE_SECTS]; omega)]
    exact h.entries a ha

/-- What `mkfs` has run through has passed the assertion. -/
theorem accepts_of_mkfs {u : Unit} {t : Fs} (h : mkfs sectCnt s = .ok u t) :
    Accepts sectCnt := by
  obtain ⟨sb, s₁, hsuper, h⟩ := run_bind.mp h
  obtain ⟨rfl, -⟩ := createSuperBlock_super hsuper
  obtain ⟨_, s₂, -, h⟩ := run_bind.mp h
  obtain ⟨_, s₃, -, h⟩ := run_bind.mp h
  obtain ⟨_, s₄, htar, -⟩ := run_bind.mp h
  obtain ⟨_, s₅, hcheck, -⟩ := run_bind.mp htar
  exact (run_check.mp hcheck).1

/-- **A NEW FILE SYSTEM**, on a partition where the extents are apart. -/
theorem boot_image (hlog : 2048 ≤ sectCnt.toNat)
    (hfirst : sectCnt.toNat < 124768256)
    (hold : word (s₀.disk ROOT_DEV_NR) 512 ≠ MAGIC_V1)
    (h : initFs sectCnt s₀ = .ok () s) :
    Accepts sectCnt ∧
      s.superOf ROOT_DEV_NR = some (superBlock sectCnt ROOT_DEV_NR) ∧
      NewImage (superBlock sectCnt ROOT_DEV_NR)
        (imageOf (superBlock sectCnt ROOT_DEV_NR) (s.disk ROOT_DEV_NR)) ∧
      s.inodeTable = Function.update (fun _ => freeEntry) s.rootInode
        (rootInodeOf (superBlock sectCnt ROOT_DEV_NR)) ∧
      (s.fileDescTable = fun _ => ⟨0, 0, 0, none⟩) ∧
      s.fileDesc = s₀.fileDesc ∧
      ∀ x, dirByte (superBlock sectCnt ROOT_DEV_NR) + 512 ≤ x →
        s.disk ROOT_DEV_NR x = s₀.disk ROOT_DEV_NR x := by
  obtain ⟨u, sb, hmade, hsb, hmagic, htable, hdescs, hslots, hdisk, hsuper⟩ :=
    initFs_run h
  obtain ⟨v, hv, hmkfs⟩ := hmade hold
  have hword : word (u.disk ROOT_DEV_NR) 512 = MAGIC_V1 := by
    rw [← hmagic, hsb]
    rfl
  obtain ⟨hread, hroot⟩ := mkfs_image hmkfs hword
  rw [hread] at hsb
  have haccept := accepts_of_mkfs hmkfs
  obtain ⟨t, hrun, hnew, -, hsame⟩ := mkfs_run haccept hlog hfirst v
  rw [hmkfs] at hrun
  cases hrun
  rw [hsb] at hsuper htable
  rw [hroot] at htable
  rw [hv] at hsame
  rw [hdisk]
  exact ⟨haccept, hsuper, newDisk_image (superBlock_made sectCnt ROOT_DEV_NR) hnew,
    htable, hdescs, hslots, hsame⟩

/-- What is behind `mkfs` in `init_fs` runs where there is a file system. -/
theorem readBack_run {rest : FsM Unit} (hrest : rest = (do
      readSuperBlock ROOT_DEV_NR
      let sb ← getSuperBlock ROOT_DEV_NR
      check (sb.magic = MAGIC_V1)
      let p ← getFileInode ROOT_DEV_NR ROOT_INODE_NR
      match p with
      | none => throw .fault
      | some i => modify fun s => { s with rootInode := i }))
    (hsupers : ∀ k, (s.superBlockTable k).sbDev = NR_MAJOR_NO_DEV)
    (hinodes : s.inodeTable = fun _ => freeEntry)
    (hsb : superAt (drop (s.disk ROOT_DEV_NR) 512) ROOT_DEV_NR = sb)
    (hmagic : sb.magic = MAGIC_V1) (hroot : Stored sb ROOT_INODE_NR) :
    ∃ t, rest s = .ok () t := by
  have hfree : freeSuper s = some ⟨0, first_super⟩ := by
    have hfirst : List.finRange NR_SUPER_BLOCK =
        ⟨0, first_super⟩ :: (List.finRange NR_SUPER_BLOCK).tail := rfl
    rw [freeSuper, hfirst]
    exact List.find?_cons_of_pos (decide_eq_true (hsupers _))
  have hread := readSuperBlock_run ROOT_DEV_NR hfree rfl
  rw [hsb] at hread
  obtain ⟨u, hu⟩ : ∃ u : Fs, u = { s with
    fsbuf := put s.fsbuf 0 512 (drop (s.disk ROOT_DEV_NR) 512)
    superBlockTable := Function.update s.superBlockTable ⟨0, first_super⟩
      sb } := ⟨_, rfl⟩
  rw [← hu] at hread
  have hsuper : u.superOf ROOT_DEV_NR = some sb := by
    refine superOf_first (by rw [← hsb]; rfl) ?_
    rw [hu]
    dsimp only
    rw [Function.update_self]
  have hcached : u.cached ROOT_DEV_NR ROOT_INODE_NR = none := by
    rw [hu, Fs.cached]
    dsimp only
    rw [hinodes]
    rfl
  have hentry : u.freeInode = some ⟨0, first_entry⟩ := by
    rw [hu, Fs.freeInode]
    dsimp only
    rw [hinodes]
    rfl
  obtain ⟨t, ht⟩ : ∃ t, loadInode ROOT_DEV_NR ROOT_INODE_NR ⟨0, first_entry⟩ u =
      .ok () t := ⟨_, run_loadInode.mpr ⟨sb, hsuper, hroot, rfl⟩⟩
  have hget : getFileInode ROOT_DEV_NR ROOT_INODE_NR u =
      .ok (some ⟨0, first_entry⟩) t := by
    rw [getFileInode, if_neg (by decide), run_get_bind, hcached, hentry]
    dsimp only
    rw [run_bind_of ht]
    rfl
  refine ⟨{ t with rootInode := ⟨0, first_entry⟩ }, ?_⟩
  rw [hrest, run_bind_of hread, run_bind_of (run_getSuperBlock.mpr ⟨hsuper, rfl⟩),
    run_bind_of (run_check_of hmagic), run_bind_of hget]
  rfl

/-- **`init_fs`** makes a file system where there is none, whatever else is on the
    disk. -/
theorem initFs_made (haccept : Accepts sectCnt) (hlog : 2048 ≤ sectCnt.toNat)
    (hfirst : sectCnt.toNat < 124768256)
    (hold : word (s₀.disk ROOT_DEV_NR) 512 ≠ MAGIC_V1) :
    ∃ t, initFs sectCnt s₀ = .ok () t := by
  obtain ⟨v, hv⟩ : ∃ v, v = { clearTables s₀ with
    fsbuf := put s₀.fsbuf 0 512 (drop (s₀.disk ROOT_DEV_NR) 512) } := ⟨_, rfl⟩
  have hclear : (modify clearTables : FsM PUnit) s₀ = .ok () (clearTables s₀) := rfl
  have hrd : rdSects ROOT_DEV_NR 1 1 (clearTables s₀) = .ok () v := by
    rw [hv]
    exact run_rdSects.mpr ⟨by decide, rfl⟩
  have hword : word v.fsbuf 0 = word (s₀.disk ROOT_DEV_NR) 512 := by
    rw [hv]
    refine word_congr fun k hk => ?_
    dsimp only
    rw [put_of_in (by omega), Nat.sub_zero, Nat.zero_add]
    rfl
  obtain ⟨u, hmkfs, -, hread, -⟩ := mkfs_run haccept hlog hfirst v
  have hsame := keeps_mkfs sectCnt _ _ _ hmkfs
  obtain ⟨t, ht⟩ := readBack_run rfl (fun k => by rw [hsame.supers, hv]; rfl)
    (by rw [hsame.inodes, hv]; rfl) hread rfl
    (stored_of_made (superBlock_made sectCnt ROOT_DEV_NR) (Nat.le_refl 1)
      (show 1 ≤ 4096 by decide))
  refine ⟨t, ?_⟩
  rw [initFs, run_bind_of hclear, run_bind_of hrd, run_get_bind,
    if_pos (hword ▸ hold)]
  exact (run_bind_of hmkfs).trans ht

end Image

end KosNewImage
