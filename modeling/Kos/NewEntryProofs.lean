import Kos.RootDirectoryProofs

/-! # A new entry of the root directory

    `make_new_dir_entry` takes the first free slot, or the one behind the end,
    and copies number and name into its sector.

    * The bytes of the directory afterwards are known exactly
      (`newEntry_run`): the NUL behind a name of twelve characters is in the
      next slot;
    * so the other slots are as they were exactly when the name is shorter, or
      that byte is a NUL anyway, or is not in the sector (`newEntry_iff`). -/

namespace KosNewEntry

open FlatMemory (Byte)
open Overlay
open KosFs
open KosMkfs
open KosInodeArray
open KosFileNames
open KosOpenFile
open KosRootDirectory

section Run

variable {sb : SuperBlock} {s : Fs} {r : Inode} {root : Fin NR_INODE}
  {nr : Int} {name : List Byte} {dev : Int}

/-- The entry `k` is free, or the one behind the end. -/
def FreeSlot (f : Nat → Byte) (size k : Nat) : Prop :=
  (k < size / 16 ∧ word f (16 * k) = 0) ∨ k = size / 16

theorem slotSects_ok (dev : Int) (start total : Nat) (entries : Int)
    (haddr : start + total ≤ 4194304) (htotal : 0 < total) :
    ∀ (left i : Nat) (d : Int) (s : Fs), i + left = total →
      ∃ x s', slotSects dev start entries left i d s = .ok x s' := by
  intro left
  induction left with
  | zero =>
      intro i d s hi
      rw [slotSects, if_neg (by omega)]
      exact ⟨_, _, rfl⟩
  | succ left ih =>
      intro i d s hi
      have hrd : rdSects dev ((start : Int) + i) 1 s = .ok () _ :=
        run_rdSects.mpr ⟨⟨by omega, by omega⟩, rfl⟩
      rw [slotSects, run_bind_of hrd, run_get_bind]
      dsimp only
      cases slotEntries entries (put s.fsbuf 0 (512 * 1)
          (drop (s.disk dev) (512 * ((start : Int) + i).toNat))) 32 0 d with
      | free j => exact ⟨_, _, rfl⟩
      | last j => exact ⟨_, _, rfl⟩
      | next d => exact ih _ _ _ (by omega)

/-- The entries of the directory, by sector and in a row. -/
theorem dirEntry_eq (f : Nat → Byte) (start k : Nat) :
    dirEntry f start k = (word (drop f (512 * start)) (16 * k)).toInt := by
  rw [dirEntry, entryNr]
  congr 1
  refine word_congr fun l hl => ?_
  rw [drop, drop]
  congr 1
  omega

theorem toInt_eq_zero {v : BitVec 32} : v.toInt = 0 ↔ v = 0 :=
  ⟨fun h => BitVec.eq_of_toInt_eq h, fun h => h ▸ rfl⟩

/-- The sector with the new entry is the directory with it, up to the end of
    the sector. -/
theorem putEntry_sector {f b : Nat → Byte} {i j y : Nat} (hy : y < 512) :
    putEntry (put b 0 512 (drop f (512 * i))) (16 * j) nr name y =
      putEntry f (16 * (32 * i + j)) nr name (512 * i + y) := by
  have hread : put b 0 512 (drop f (512 * i)) y = f (512 * i + y) := by
    rw [put_of_in (by omega), drop, Nat.sub_zero]
  have hnr : (16 * j ≤ y ∧ y < 16 * j + 4) ↔
      16 * (32 * i + j) ≤ 512 * i + y ∧
        512 * i + y < 16 * (32 * i + j) + 4 := by omega
  have hname : (16 * j + 4 ≤ y ∧ y < 16 * j + 5 + name.length) ↔
      16 * (32 * i + j) + 4 ≤ 512 * i + y ∧
        512 * i + y < 16 * (32 * i + j) + 5 + name.length := by omega
  have hoff : 512 * i + y - 16 * (32 * i + j) = y - 16 * j := by omega
  rw [putEntry_apply, putEntry_apply, hread, hoff]
  simp only [hnr, hname]

/-- The function returns: every sector it asks for has a place on the disk. -/
theorem makeNewDirEntry_ok (name : List Byte) (nr : Int)
    (hroot : s.inodeTable root = r) (hsb : s.superOf r.dev = some sb)
    (hst : Stored sb r.nr) (hr : Placed r) :
    ∃ s', makeNewDirEntry root nr name s = .ok () s' := by
  obtain ⟨hstart, h16, -, h512⟩ := placed_numbers hr
  rw [Placed] at hr
  have htotal : ((r.fileSize.toNat / 16 : Nat) : Int) <
      (32 * ((r.fileSize.toNat + 512) / 512) : Nat) := by omega
  have hpos : 0 < (r.fileSize.toNat + 512) / 512 := by omega
  obtain ⟨x, t, hslot⟩ := slotSects_ok r.dev r.sectStart.toNat _
    (r.fileSize.toNat / 16 : Nat) hr hpos _ 0 0 s (Nat.zero_add _)
  obtain ⟨-, -, -, hx, ⟨b, ht⟩, -⟩ := run_slotSects htotal (Nat.zero_add _)
    (by omega) hslot
  obtain ⟨u, hu⟩ : ∃ u, u = { t.updInode root (grown x.2.2) with
      fsbuf := putEntry t.fsbuf (16 * x.2.1) nr name } := ⟨_, rfl⟩
  obtain ⟨v, hv⟩ : ∃ v, v = { u with
      disk := Function.update u.disk r.dev (put (u.disk r.dev)
        (512 * ((r.sectStart.toNat : Int) + x.1).toNat) (512 * 1) u.fsbuf)
      writes := u.writes ++
        [(r.dev, ((r.sectStart.toNat : Int) + x.1).toNat, 1)] } := ⟨_, rfl⟩
  have hinode : v.inodeTable root = grown x.2.2 r := by
    rw [hv, hu, ht, ← hroot]
    exact updInode_self s (grown x.2.2)
  have hkeep : (grown x.2.2 r).dev = r.dev ∧ (grown x.2.2 r).nr = r.nr := by
    rw [grown]
    split <;> exact ⟨rfl, rfl⟩
  have hsuper : v.superOf r.dev = some sb := by
    rw [← hsb, hv, hu, ht]
    rfl
  have hwrite : writeInode root v = .ok () (v.written root sb) := by
    refine run_writeInode.mpr ⟨sb, ?_, ?_, rfl⟩
    · rw [hinode, hkeep.1]
      exact hsuper
    · rw [hinode, hkeep.2]
      exact hst
  refine ⟨v.written root sb, ?_⟩
  have hgrow : growRoot root x.2.2 t = .ok () (t.updInode root (grown x.2.2)) :=
    run_growRoot.mpr rfl
  have hset : setBuf (fun b => putEntry b (16 * x.2.1) nr name)
      (t.updInode root (grown x.2.2)) = .ok () u := run_setBuf.mpr hu
  have hwr : wrSects r.dev ((r.sectStart.toNat : Int) + x.1) 1 u = .ok () v :=
    run_wrSects.mpr ⟨hx, hv⟩
  rw [makeNewDirEntry, run_get_bind, hroot, hstart, h16, h512,
    Int.toNat_natCast, run_bind_of hslot, run_bind_of hgrow, run_bind_of hset,
    run_bind_of hwr, hwrite]

/-- **THE DIRECTORY** after a new entry in the first slot that is free. -/
theorem newEntry_run (name : List Byte) (nr : Int) (hm : Made sb)
    (hroot : s.inodeTable root = r) (hsb : s.superOf r.dev = some sb)
    (hnr : r.nr = ROOT_INODE_NR) (hr : RootDir sb r) :
    ∃ s' k, makeNewDirEntry root nr name s = .ok () s' ∧
      FreeSlot (dirBytes s r) r.fileSize.toNat k ∧
      (∀ j < k, word (dirBytes s r) (16 * j) ≠ 0) ∧
      ∀ a, dirBytes s' r a = if a / 512 = k / 32 then
        putEntry (dirBytes s r) (16 * k) nr name a else dirBytes s r a := by
  have hplaced := placed_of_rootDir hm hr
  obtain ⟨hstart, h16, -, h512⟩ := placed_numbers hplaced
  have hsize := hr.size
  have hst : Stored sb (1 : Nat) := stored_of_made hm (by omega) (by omega)
  obtain ⟨s', hrun⟩ := makeNewDirEntry_ok name nr hroot hsb
    (by rw [hnr]; exact hst) hplaced
  obtain ⟨i, j, free, b, g, t, hi, hj, -, hslot, hused, ht, hw⟩ :=
    run_makeNewDirEntry hroot h16 h512 (by omega) (by omega) hrun
  rw [hstart] at hslot hused ht
  rw [← Int.natCast_add, Int.toNat_natCast] at ht
  obtain ⟨sb', hsb', -, hs'⟩ := run_writeInode.mp hw
  have hinode : t.inodeTable root = grown free r := by
    rw [ht, ← hroot]
    exact updInode_self s (grown free)
  have hkeep : (grown free r).dev = r.dev ∧ (grown free r).nr = r.nr := by
    rw [grown]
    split <;> exact ⟨rfl, rfl⟩
  have hsame : sb' = sb := by
    have hsuper : t.superOf r.dev = some sb := by
      rw [← hsb, ht]
      rfl
    rw [hinode, hkeep.1, hsuper] at hsb'
    exact (Option.some.inj hsb').symm
  rw [hsame] at hs'
  have hentry := entryByte_eq hm (show 1 ≤ 1 by omega) (show 1 ≤ 4096 by omega)
  have hfirst := hm.first
  have hbyte : 512 * r.sectStart.toNat = dirByte sb := by rw [hr.start]; rfl
  -- the inode of the root is in front of the directory
  have hdisk := written_disk sb hinode
  rw [hkeep.1, hkeep.2, hnr] at hdisk
  have hdir : dirBytes s' r = dirBytes t r := by
    funext a
    rw [dirBytes, dirBytes, drop, drop, hs', hdisk]
    refine put_of_out (Or.inr ?_)
    show entryByte sb (1 : Nat) + 16 ≤ _
    rw [hentry, hbyte, arrayByte, dirByte]
    omega
  refine ⟨s', 32 * i + j, hrun, ?_, fun l hl => ?_, fun a => ?_⟩
  · rw [dirEntry_eq] at hslot
    split at hslot
    · refine Or.inl ⟨?_, toInt_eq_zero.mp hslot.1⟩
      have := hslot.2
      omega
    · refine Or.inr ?_
      omega
  · have h := hused l hl
    rw [dirEntry_eq] at h
    exact fun hz => h (toInt_eq_zero.mpr hz)
  · rw [hdir, show (32 * i + j) / 32 = i by omega]
    have hsect : dirBytes t r a = put (s.disk r.dev)
        (512 * (r.sectStart.toNat + i)) 512 (putEntry (put b 0 512
          (drop (s.disk r.dev) (512 * (r.sectStart.toNat + i)))) (16 * j) nr
            name) (512 * r.sectStart.toNat + a) := by
      rw [dirBytes, drop, ht]
      exact congrFun (Function.update_self ..) _
    have hdrop : drop (s.disk r.dev) (512 * (r.sectStart.toNat + i)) =
        drop (dirBytes s r) (512 * i) := by
      rw [dirBytes, drop_drop]
      congr 1
      omega
    rw [hsect, hdrop]
    by_cases hin : a / 512 = i
    · rw [if_pos hin, put_of_in (by omega), putEntry_sector (by omega)]
      congr 1
      omega
    · rw [if_neg hin, put_of_out (by omega)]
      rfl

end Run

/-! ## The slot of the new entry -/

/-- A new entry as it should be: the number and the name stand in one slot that was
    free or is the first behind the end, and no byte outside it has changed. -/
def EntrySpec (f f' : Nat → Byte) (size : Nat) (nr : Int)
    (name : List Byte) : Prop :=
  ∃ k, FreeSlot f size k ∧ word f' (16 * k) = BitVec.ofInt 32 nr ∧
    entryName f' (16 * k) = name ∧
    ∀ a, a < 16 * k ∨ 16 * (k + 1) ≤ a → f' a = f a

/-- **WHEN IT DOES**: the name has less than twelve characters, or the first
    free slot is the last of its sector, or the slot behind it begins with a
    NUL. -/
def EntryCond (f : Nat → Byte) (size : Nat) (name : List Byte) : Prop :=
  ∀ k, FreeSlot f size k → (∀ j < k, word f (16 * j) ≠ 0) →
    name.length < MAX_FILENAME_LEN ∨ k % 32 = 31 ∨ f (16 * (k + 1)) = 0

section Slot

variable {f f' : Nat → Byte} {size k l : Nat} {nr : Int} {name : List Byte}

/-- The first free slot is one. -/
theorem slot_unique (hk : FreeSlot f size k)
    (hkmin : ∀ j < k, word f (16 * j) ≠ 0) (hl : FreeSlot f size l)
    (hlmin : ∀ j < l, word f (16 * j) ≠ 0) : k = l := by
  rcases Nat.lt_trichotomy k l with hlt | heq | hlt
  · rcases hk with ⟨-, hz⟩ | hend
    · exact absurd hz (hlmin k hlt)
    · rcases hl with ⟨h, -⟩ | h <;> omega
  · exact heq
  · rcases hl with ⟨-, hz⟩ | hend
    · exact absurd hz (hkmin l hlt)
    · rcases hk with ⟨h, -⟩ | h <;> omega

theorem byte_of_word {o : Nat} (h : word f o = 0) : f o = 0 := by
  have hnat := word_toNat f o
  rw [h, show BitVec.toNat (0 : BitVec 32) = 0 from rfl] at hnat
  refine BitVec.eq_of_toNat_eq ?_
  rw [show BitVec.toNat (0 : Byte) = 0 from rfl]
  omega

theorem cString_eq {g : Nat → Byte} {left o : Nat} (hnul : 0 ∉ name)
    (hlen : name.length ≤ left)
    (h : ∀ k ≤ name.length, k < left → g (o + k) = name.getD k 0) :
    cString g left o = name := by
  induction left generalizing o name with
  | zero => exact (List.eq_nil_of_length_eq_zero (by omega)).symm
  | succ left ih =>
      rw [cString]
      cases name with
      | nil =>
          have h0 : g o = 0 := h 0 (Nat.zero_le _) (by omega)
          rw [if_pos h0]
      | cons c rest =>
          have h0 : g o = c := h 0 (Nat.zero_le _) (by omega)
          have hc : c ≠ 0 := fun hz => hnul (hz ▸ List.mem_cons_self ..)
          rw [h0, if_neg hc, ih (fun hz => hnul (List.mem_cons_of_mem _ hz))
            (Nat.le_of_succ_le_succ hlen) fun k hk hlt => ?_]
          rw [Nat.add_assoc, Nat.add_comm 1 k]
          exact h (k + 1) (Nat.succ_le_succ hk) (by omega)

/-- The directory with the new entry is as it should be under the condition
    only. -/
theorem entry_iff (hnul : 0 ∉ name) (hlen : name.length ≤ MAX_FILENAME_LEN)
    (hnr : BitVec.ofInt 32 nr ≠ 0) (hk : FreeSlot f size k)
    (hmin : ∀ j < k, word f (16 * j) ≠ 0)
    (hf' : ∀ a, f' a =
      if a / 512 = k / 32 then putEntry f (16 * k) nr name a else f a) :
    EntrySpec f f' size nr name ↔ EntryCond f size name := by
  have h12 : MAX_FILENAME_LEN = 12 := rfl
  have hword : word f' (16 * k) = BitVec.ofInt 32 nr := by
    rw [← word_bytesOf (BitVec.ofInt 32 nr)]
    refine word_congr fun l hl => ?_
    rw [hf', if_pos (by omega), putEntry_nr hl, Nat.zero_add]
  constructor
  · rintro ⟨m, hm, -, -, hout⟩ k' hk' hmin'
    obtain rfl := slot_unique hk hmin hk' hmin'
    by_contra hno
    obtain ⟨hlong, hin, hbyte⟩ :
        ¬ name.length < 12 ∧ ¬ k % 32 = 31 ∧ ¬ f (16 * (k + 1)) = 0 :=
      ⟨fun h => hno (Or.inl h), fun h => hno (Or.inr (Or.inl h)),
        fun h => hno (Or.inr (Or.inr h))⟩
    -- the NUL has changed the first byte of the next slot
    have hnul' : f' (16 * (k + 1)) = 0 := by
      rw [hf', if_pos (by omega)]
      exact putEntry_nul (by omega)
    have hmk : m = k + 1 := by
      by_contra hne
      have hsame := hout (16 * (k + 1)) (by omega)
      exact hbyte (hsame.symm.trans hnul')
    subst hmk
    rcases hm with ⟨-, hz⟩ | hend
    · exact hbyte (byte_of_word hz)
    · have hz : word f (16 * k) = 0 := by
        rcases hk with ⟨-, hz⟩ | h
        · exact hz
        · omega
      have hsame : word f' (16 * k) = word f (16 * k) :=
        word_congr fun l hl => hout _ (by omega)
      exact hnr (hword.symm.trans (hsame.trans hz))
  · intro hc
    refine ⟨k, hk, hword, cString_eq hnul hlen fun l hl hlt => ?_, fun a ha => ?_⟩
    · rw [hf', if_pos (by omega), putEntry_name hl]
    · rw [hf']
      by_cases hin : a / 512 = k / 32
      · rw [if_pos hin]
        by_cases hpast : a = 16 * k + 4 + name.length
        · rcases hc k hk hmin with hshort | hlast | hz
          · omega
          · omega
          · rw [putEntry_nul hpast.symm, ← hz]
            congr 1
            omega
        · exact putEntry_of_out (by omega)
      · rw [if_neg hin]

/-- **A NEW ENTRY** is all that changes in the directory exactly when the NUL
    behind the name changes nothing. -/
theorem newEntry_iff {s : Fs} {root : Fin NR_INODE} {sectCnt : BitVec 32}
    {path : List Byte}
    (hsb : s.superOf (s.inodeTable root).dev =
      some (superBlock sectCnt (s.inodeTable root).dev))
    (hroot : (s.inodeTable root).nr = ROOT_INODE_NR)
    (hr : RootDir (superBlock sectCnt (s.inodeTable root).dev)
      (s.inodeTable root))
    (hname : getFileName path = some name) (hnul : 0 ∉ path)
    (hnr : BitVec.ofInt 32 nr ≠ 0) :
    (∃ s', makeNewDirEntry root nr name s = .ok () s' ∧
      EntrySpec (dirBytes s (s.inodeTable root))
        (dirBytes s' (s.inodeTable root))
        (s.inodeTable root).fileSize.toNat nr name) ↔
      EntryCond (dirBytes s (s.inodeTable root))
        (s.inodeTable root).fileSize.toNat name := by
  obtain ⟨s', k, hrun, hk, hmin, hdir⟩ := newEntry_run name nr
    (superBlock_made _ _) rfl hsb hroot hr
  have hiff := entry_iff (fun h => hnul (mem_of_name hname h))
    (length_getFileName hname) hnr hk hmin hdir
  rw [← hiff, hrun]
  constructor
  · rintro ⟨t, ht, hspec⟩
    cases ht
    exact hspec
  · intro hspec
    exact ⟨s', rfl, hspec⟩

end Slot

/-- A directory of three entries, of numbers 1, 0 and 7. -/
def holeDir (a : Nat) : Byte :=
  if a = 138240 then 1 else if a = 138272 then 7 else 0

/-- The name "a" goes into the hole. -/
theorem newEntry_iff_short :
    ∃ s', makeNewDirEntry ⟨0, first_entry⟩ 9 [0x61]
        (demoFs holeDir (demoRoot 48)) = .ok () s' ∧
      EntrySpec (dirBytes (demoFs holeDir (demoRoot 48)) (demoRoot 48))
        (dirBytes s' (demoRoot 48)) 48 9 [0x61] := by
  have hname : getFileName [0x61] = some [0x61] := rfl
  have hr : RootDir (superBlock 40960 ROOT_DEV_NR) (demoRoot 48) :=
    demoRoot_dir (by decide)
  exact (newEntry_iff (s := demoFs holeDir (demoRoot 48)) rfl rfl hr hname
    (by decide) (by decide)).mpr fun k _ _ => Or.inl (by decide)

/-- A name of twelve characters in front of the entry of number 7 makes that
    number 0. -/
theorem newEntry_spoils_next :
    ¬ ∀ (s : Fs) (root : Fin NR_INODE) (sectCnt : BitVec 32)
        (path name : List Byte) (nr : Int),
      s.superOf (s.inodeTable root).dev =
        some (superBlock sectCnt (s.inodeTable root).dev) →
      (s.inodeTable root).nr = ROOT_INODE_NR →
      RootDir (superBlock sectCnt (s.inodeTable root).dev)
        (s.inodeTable root) →
      getFileName path = some name → 0 ∉ path → BitVec.ofInt 32 nr ≠ 0 →
      ∃ s', makeNewDirEntry root nr name s = .ok () s' ∧
        EntrySpec (dirBytes s (s.inodeTable root))
          (dirBytes s' (s.inodeTable root))
          (s.inodeTable root).fileSize.toNat nr name := by
  intro hall
  obtain ⟨name, hdef⟩ : ∃ name : List Byte, name = List.replicate 12 0x61 :=
    ⟨_, rfl⟩
  have hname : getFileName name = some name := by
    rw [hdef]
    decide
  have hlen : name.length = 12 := by rw [hdef]; rfl
  have hnul : 0 ∉ name := by
    rw [hdef]
    decide
  have hr : RootDir (superBlock 40960 ROOT_DEV_NR) (demoRoot 48) :=
    demoRoot_dir (by decide)
  obtain ⟨s', hrun, hspec⟩ := hall (demoFs holeDir (demoRoot 48))
    ⟨0, first_entry⟩ 40960 name name 9 rfl rfl hr hname hnul (by decide)
  have hroot : (demoFs holeDir (demoRoot 48)).inodeTable ⟨0, first_entry⟩ =
      demoRoot 48 := rfl
  obtain ⟨t, k, hrun', hk, hmin, hdir⟩ := newEntry_run name 9
    (superBlock_made 40960 ROOT_DEV_NR) hroot rfl rfl hr
  rw [hrun'] at hrun
  cases hrun
  have hcond := (entry_iff hnul (Nat.le_of_eq hlen) (by decide) hk hmin
    hdir).mp hspec
  have hslot : FreeSlot (dirBytes (demoFs holeDir (demoRoot 48)) (demoRoot 48))
      48 1 := Or.inl ⟨by decide, by decide⟩
  have hused : ∀ j < 1, word
      (dirBytes (demoFs holeDir (demoRoot 48)) (demoRoot 48)) (16 * j) ≠ 0 := by
    decide
  have hbyte : dirBytes (demoFs holeDir (demoRoot 48)) (demoRoot 48)
      (16 * (1 + 1)) ≠ 0 := by decide
  rcases hcond 1 hslot hused with h | h | h
  · exact absurd h (by rw [hlen]; decide)
  · exact absurd h (by decide)
  · exact hbyte h

end KosNewEntry
