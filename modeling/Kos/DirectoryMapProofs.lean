import Kos.FileMapsProofs
import Kos.SlotTableProofs

/-! # The root directory as a map

    The entries of the root directory are a table of names and numbers.

    * `Names` is that the entries in front of the end are the slots of a map, and
      that everything else is zeros; then the search looks a name up in the map
      (`search_names`);
    * a new entry, and one that is cleared, are an entry more and one less
      (`names_withFile`, `names_withoutFile`), as long as the new end of the
      directory is behind all the others;
    * whatever the new end is, the search finds the other entries in front of
      its own end and none behind (`search_cleared`). -/

namespace KosDirectoryMap

open FlatMemory (Byte)
open Overlay
open SlotTable
open KosFs
open KosMkfs
open KosFileNames
open KosOpenFile
open KosRootDirectory
open KosInitFs (newEntries entryBytes)
open KosDiskImage
open KosDiskSteps
open KosDiskRequests
open KosNewImage
open KosFileMaps

/-! ## Entries -/

/-- The entry `k`: its name and its number. -/
def slotAt (f : Nat → Byte) (k : Nat) : Option (List Byte × Nat) :=
  if numAt f k = INVALID_INODE then none
  else some (entryName f (16 * k), (numAt f k).toNat)

section Entries

variable {f g : Nat → Byte} {j k n : Nat} {name : List Byte}

/-- A string is read from its bytes. -/
theorem cString_congr {o o' left : Nat}
    (h : ∀ l < left, f (o + l) = g (o' + l)) : cString f left o = cString g left o' := by
  induction left generalizing o o' with
  | zero => rfl
  | succ left ih =>
      have h0 : f o = g o' := h 0 (Nat.succ_pos left)
      rw [cString, cString, h0]
      congr 2
      refine ih fun l hl => ?_
      rw [Nat.add_assoc, Nat.add_assoc, Nat.add_comm 1 l]
      exact h (l + 1) (Nat.succ_lt_succ hl)

/-- An entry is its sixteen bytes. -/
theorem entry_congr (h : ∀ l < 16, f (16 * k + l) = g (16 * k + l)) :
    numAt f k = numAt g k ∧ entryName f (16 * k) = entryName g (16 * k) := by
  constructor
  · exact congrArg BitVec.toInt (word_congr fun l hl => h l (by omega))
  · refine cString_congr fun l hl => ?_
    rw [show MAX_FILENAME_LEN = 12 from rfl] at hl
    rw [Nat.add_assoc]
    exact h (4 + l) (by omega)

/-- An entry is read from its 16 bytes. -/
theorem slotAt_congr (h : ∀ l < 16, f (16 * k + l) = g (16 * k + l)) :
    slotAt f k = slotAt g k := by
  obtain ⟨hnum, hname⟩ := entry_congr h
  rw [slotAt, slotAt, hnum, hname]

/-- So is its comparison with a name. -/
theorem sameAt_congr (h : ∀ l < 16, f (16 * k + l) = g (16 * k + l)) :
    sameAt name f k = sameAt name g k := sameName_congr h

/-- Zeros have no name. -/
theorem entryName_blank (h : ∀ l < 16, f (16 * k + l) = 0) :
    entryName f (16 * k) = [] := by
  rw [entryName, show MAX_FILENAME_LEN = 11 + 1 from rfl, cString,
    if_pos (h 4 (by omega))]

/-- An entry in use has its name and its number. -/
theorem slotAt_some {a : List Byte} (h : slotAt f k = some (a, n)) :
    numAt f k ≠ INVALID_INODE ∧ entryName f (16 * k) = a ∧ (numAt f k).toNat = n := by
  rw [slotAt] at h
  split at h
  · cases h
  · rename_i hused
    cases h
    exact ⟨hused, rfl, rfl⟩

/-- The search reads the entries it looks at. -/
theorem firstNr_congr {p q : Nat → Bool} {num num' : Nat → Int} {a : Nat}
    (h : ∀ i, a ≤ i → i < a + n → p i = q i ∧ num i = num' i) :
    firstNr p num n a = firstNr q num' n a := by
  induction n generalizing a with
  | zero => rfl
  | succ n ih =>
      obtain ⟨hp, hnum⟩ := h a (Nat.le_refl a) (by omega)
      rw [firstNr, firstNr, hp, hnum, ih fun i h₁ h₂ => h i (by omega) (by omega)]

end Entries

/-! ## Names -/

/-- Where there is no entry there are zeros, and behind a name there are NULs. -/
structure Tidy (f : Nat → Byte) (n : Nat) : Prop where
  blank : ∀ k, (k < n → numAt f k = INVALID_INODE) → ∀ l < 16, f (16 * k + l) = 0
  padded : ∀ k < n, numAt f k ≠ INVALID_INODE →
    Padded f (16 * k) (entryName f (16 * k))

/-- **THE NAMES** of the directory and their numbers. -/
structure Names (m : Image) (files : List Byte → Option Nat) : Prop where
  tidy : Tidy m.dir (entries m)
  table : Table (slotAt m.dir) (entries m) files

/-- What `get_file_inode_nr` is to return. -/
def numberIn (o : Option Nat) : Int := o.elim INVALID_INODE fun n => (n : Int)

section Names

variable {m m' : Image} {live : Finset Nat} {files : List Byte → Option Nat}
  {n β k : Nat} {free : Bool} {p r : Inode} {name : List Byte}

/-- An entry that is found is in use, and has the name. -/
theorem slot_of_same (h : Names m files) (hnul : 0 ∉ name) (hne : name ≠ [])
    (hlen : name.length ≤ MAX_FILENAME_LEN) (hs : sameAt name m.dir k = true) :
    k < entries m ∧ slotAt m.dir k = some (name, (numAt m.dir k).toNat) := by
  have hname := ((sameName_iff hnul hlen).mp hs).1
  have hused : ¬ (k < entries m → numAt m.dir k = INVALID_INODE) := by
    intro hfree
    rw [entryName_blank (h.tidy.blank k hfree)] at hname
    exact hne hname.symm
  rw [Classical.not_imp] at hused
  rw [slotAt, if_neg hused.2, hname]
  exact ⟨hused.1, rfl⟩

/-- **THE SEARCH** of the directory looks the name up. -/
theorem search_names (h : Names m files) (hl : Listed m live) (hnul : 0 ∉ name)
    (hne : name ≠ []) (hlen : name.length ≤ MAX_FILENAME_LEN) {size : Nat}
    (hsize : size / 16 = entries m) :
    firstNr (sameAt name m.dir) (numAt m.dir) (looked size) 0 =
      numberIn (files name) := by
  have hlooked := looked_eq size
  cases hfile : files name with
  | none =>
      refine firstNr_none fun j _ _ => Bool.eq_false_iff.mpr fun hs => ?_
      obtain ⟨hj, hslot⟩ := slot_of_same h hnul hne hlen hs
      exact table_absent h.table hfile j hj _ hslot
  | some v =>
      obtain ⟨k, hk, hslot⟩ := (h.table.holds name v).mp hfile
      obtain ⟨hused, hname, hv⟩ := slotAt_some hslot
      obtain ⟨a, -, ha⟩ := hl.live k hk hused
      have hfound : sameAt name m.dir k = true := by
        refine (sameName_iff hnul hlen).mpr ⟨hname, ?_⟩
        have hpadded := h.tidy.padded k hk hused
        rwa [hname] at hpadded
      rw [firstNr_found (Nat.zero_le k) (by omega) hfound fun j _ hj => ?_]
      · show numAt m.dir k = (v : Int)
        omega
      · refine Bool.eq_false_iff.mpr fun hs => ?_
        obtain ⟨hj', hslot'⟩ := slot_of_same h hnul hne hlen hs
        have heq := h.table.once j hj' k hk name _ v hslot' hslot
        omega

/-- The directory of an image with a file more. -/
theorem withFile_dir : (m.withFile n β k name p r).dir =
    putEntry m.dir (16 * k) n name := rfl

/-- The directory of an image with a file less. -/
theorem withoutFile_dir : (m.withoutFile n β k p r).dir =
    put m.dir (16 * k) 16 fun _ => 0 := rfl

/-- The size that is in the inode of the directory. -/
theorem entries_set (h : m'.inode 1 = asStored 1 r) :
    entries m' = r.fileSize.toNat / 16 := by
  rw [entries, h]
  rfl

/-- The new entry has the name, with NULs behind it. -/
theorem entryName_new {f : Nat → Byte} (hnul : 0 ∉ name) (hlen : name.length ≤ 11)
    (hblank : ∀ l < 16, f (16 * k + l) = 0) :
    entryName (putEntry f (16 * k) n name) (16 * k) = name ∧
      Padded (putEntry f (16 * k) n name) (16 * k) name := by
  have hlen' : name.length ≤ MAX_FILENAME_LEN := Nat.le_succ_of_le hlen
  refine (cString_padded hnul hlen').mp fun l hl => ?_
  rw [show MAX_FILENAME_LEN = 12 from rfl] at hl
  by_cases hl' : l ≤ name.length
  · exact (putEntry_name hl').symm
  · rw [putEntry_of_out (by omega), Nat.add_assoc, hblank (4 + l) (by omega),
      List.getD_eq_getElem?_getD, List.getElem?_eq_none (by omega)]
    rfl

/-- The other entries are as they were. -/
theorem putEntry_other {f : Nat → Byte} {j : Nat} (hlen : name.length ≤ 11)
    (hj : j ≠ k) : ∀ l < 16, putEntry f (16 * k) n name (16 * j + l) =
      f (16 * j + l) := fun l hl => putEntry_of_out (by omega)

/-- A cleared entry leaves the others. -/
theorem cleared_other {f : Nat → Byte} {j : Nat} (hj : j ≠ k) :
    ∀ l < 16, put f (16 * k) 16 (fun _ => 0) (16 * j + l) = f (16 * j + l) :=
  fun l hl => put_of_out (by omega)

/-- **THE SLOTS** with a new entry. -/
theorem slotAt_putEntry {f : Nat → Byte} (hn : n ≠ 0 ∧ n < 4096) (hnul : 0 ∉ name)
    (hlen : name.length ≤ 11) (hblank : ∀ l < 16, f (16 * k + l) = 0) :
    slotAt (putEntry f (16 * k) n name) =
      Function.update (slotAt f) k (some (name, n)) := by
  funext j
  by_cases hj : j = k
  · have hn0 : ¬ (n : Int) = INVALID_INODE := by
      rw [show INVALID_INODE = 0 from rfl]
      omega
    rw [hj, Function.update_self, slotAt, numAt_putEntry hlen hn.2, if_pos rfl,
      if_neg hn0, (entryName_new hnul hlen hblank).1, Int.toNat_natCast]
  · rw [Function.update_of_ne hj]
    exact slotAt_congr (putEntry_other hlen hj)

/-- The slots without the entry that was cleared. -/
theorem slotAt_cleared {f : Nat → Byte} : slotAt (put f (16 * k) 16 fun _ => 0) =
    Function.update (slotAt f) k none := by
  funext j
  by_cases hj : j = k
  · have hzero : numAt (put f (16 * k) 16 fun _ => 0) k = 0 := by
      rw [numAt_cleared, if_pos rfl]
    rw [hj, Function.update_self, slotAt, hzero]
    exact if_pos rfl
  · rw [Function.update_of_ne hj]
    exact slotAt_congr (cleared_other hj)

/-- **THE SEARCH** when an entry has been cleared: another name is found if its
    entry is in front of the end of the search. -/
theorem search_cleared (h : Names m files) (hl : Listed m live) (hnul : 0 ∉ name)
    (hne : name ≠ []) (hlen : name.length ≤ MAX_FILENAME_LEN) {j : Nat}
    (hj : j < entries m) (hjk : j ≠ k) (hslot : slotAt m.dir j = some (name, n))
    (size : Nat) :
    firstNr (sameAt name (put m.dir (16 * k) 16 fun _ => 0))
        (numAt (put m.dir (16 * k) 16 fun _ => 0)) size 0 =
      if j < size then (n : Int) else INVALID_INODE := by
  obtain ⟨g, hg⟩ : ∃ g, g = put m.dir (16 * k) 16 fun _ => 0 := ⟨_, rfl⟩
  rw [← hg]
  have hother : ∀ i, i ≠ j → sameAt name g i = false := by
    refine fun i hi => Bool.eq_false_iff.mpr fun hs => ?_
    by_cases hik : i = k
    · have hzero : ∀ l < 16, g (16 * i + l) = 0 := by
        intro l hl
        rw [hg, hik]
        exact put_of_in (by omega)
      have hname := ((sameName_iff hnul hlen).mp hs).1
      rw [entryName_blank hzero] at hname
      exact hne hname.symm
    · rw [hg, sameAt_congr (cleared_other hik)] at hs
      obtain ⟨hi', hslot'⟩ := slot_of_same h hnul hne hlen hs
      exact hi (h.table.once i hi' j hj name _ n hslot' hslot)
  obtain ⟨hused, hname, hn⟩ := slotAt_some hslot
  obtain ⟨a, -, ha⟩ := hl.live j hj hused
  have hnum : numAt g j = n := by
    rw [hg, numAt_cleared, if_neg hjk]
    omega
  have hfound : sameAt name g j = true := by
    rw [hg, sameAt_congr (cleared_other hjk)]
    refine (sameName_iff hnul hlen).mpr ⟨hname, ?_⟩
    have hpadded := h.tidy.padded j hj hused
    rwa [hname] at hpadded
  split
  · rename_i hlt
    rw [firstNr_found (Nat.zero_le j) (by omega) hfound fun i _ hi =>
      hother i (by omega)]
    exact hnum
  · rename_i hge
    exact firstNr_none fun i _ hi => hother i (by omega)

/-- The padding is read from the 16 bytes of the entry. -/
theorem padded_congr {f g : Nat → Byte} (h : ∀ l < 16, f (16 * k + l) = g (16 * k + l))
    (hg : Padded g (16 * k) name) : Padded f (16 * k) name := by
  intro l h₁ h₂
  rw [show MAX_FILENAME_LEN = 12 from rfl] at h₂
  rw [Nat.add_assoc, h (4 + l) (by omega), ← Nat.add_assoc]
  exact hg l h₁ h₂

/-- **A NEW FILE** has its name. -/
theorem names_withFile (h : Names m files) (hn : n ≠ 0 ∧ n < 4096)
    (hnul : 0 ∉ name) (hlen : name.length ≤ 11) (hnew : files name = none)
    (hr : m.inode 1 = asStored 1 r) (hfew : entries m ≤ 4096)
    (hslot : if free = true then k < r.fileSize.toNat / 16 ∧ numAt m.dir k = 0
      else k = r.fileSize.toNat / 16) :
    Names (m.withFile n β k name p (grown free r))
      (Function.update files name (some n)) := by
  have hold := entries_set hr
  have hsize : entries (m.withFile n β k name p (grown free r)) =
      (grown free r).fileSize.toNat / 16 := entries_set (setInode_same ..)
  -- the entry is one of the old ones, or the one behind them
  have hgrown : k < entries (m.withFile n β k name p (grown free r)) ∧
      entries m ≤ entries (m.withFile n β k name p (grown free r)) ∧
      (∀ j < entries (m.withFile n β k name p (grown free r)), j ≠ k →
        j < entries m) ∧ (k < entries m → numAt m.dir k = INVALID_INODE) := by
    rw [hsize, hold]
    cases free with
    | true =>
        rw [if_pos rfl] at hslot
        rw [grown, if_pos rfl]
        exact ⟨hslot.1, Nat.le_refl _, fun j hj _ => hj, fun _ => hslot.2⟩
    | false =>
        rw [if_neg Bool.false_ne_true] at hslot
        have hadd : (grown false r).fileSize.toNat = r.fileSize.toNat + 16 := by
          rw [grown, if_neg Bool.false_ne_true]
          dsimp only
          rw [BitVec.toNat_add, show (16 : BitVec 32).toNat = 16 from rfl]
          omega
        rw [hadd]
        refine ⟨by omega, by omega, fun j hj hjk => by omega, fun hk => by omega⟩
  obtain ⟨hk, hle, hothers, hfree⟩ := hgrown
  obtain ⟨E, hE⟩ : ∃ E, E = entries (m.withFile n β k name p (grown free r)) :=
    ⟨_, rfl⟩
  rw [← hE] at hk hle hothers
  have hnum : ∀ j, numAt (putEntry m.dir (16 * k) n name) j =
      if j = k then (n : Int) else numAt m.dir j := fun j => numAt_putEntry hlen hn.2
  obtain ⟨hname, hpadded⟩ := entryName_new (n := n) hnul hlen (h.tidy.blank k hfree)
  have hn0 : ¬ (n : Int) = INVALID_INODE := by
    rw [show INVALID_INODE = 0 from rfl]
    omega
  constructor
  · rw [← hE, withFile_dir]
    refine ⟨fun j hj l hl => ?_, fun j hj hused => ?_⟩
    · have hjk : j ≠ k := by
        rintro rfl
        have hzero := hj hk
        rw [hnum, if_pos rfl] at hzero
        exact hn0 hzero
      rw [putEntry_other hlen hjk l hl]
      refine h.tidy.blank j (fun hj' => ?_) l hl
      have hzero := hj (Nat.lt_of_lt_of_le hj' hle)
      rwa [hnum, if_neg hjk] at hzero
    · by_cases hjk : j = k
      · rw [hjk, hname]
        exact hpadded
      · rw [hnum, if_neg hjk] at hused
        have hsame := putEntry_other (f := m.dir) (n := n) hlen hjk
        rw [(entry_congr hsame).2]
        exact padded_congr hsame (h.tidy.padded j (hothers j hj hjk) hused)
  · rw [← hE, withFile_dir]
    rw [slotAt_putEntry hn hnul hlen (h.tidy.blank k hfree)]
    refine table_insert h.table hnew hle hk (fun hk' => ?_) hothers
    rw [slotAt, if_pos (hfree hk')]

/-- **A REMOVED FILE** has none any more, if the new end is behind the names of
    the others. -/
theorem names_withoutFile (h : Names m files) (hl : Listed m live)
    (hfile : files name = some n) (hr : m.inode 1 = asStored 1 r)
    (hk : k < entries m) (hnum : numAt m.dir k = n)
    (hcover : k + 1 = entries m → ∀ j < k, numAt m.dir j ≠ INVALID_INODE →
      j < usedBefore m.dir k) :
    Names (m.withoutFile n β k p { r with
      fileSize := sizeWithout m.dir r.fileSize k })
      (Function.update files name none) := by
  have hold := entries_set hr
  have hfew := hl.few
  rw [hold] at hfew
  obtain ⟨E, hE⟩ : ∃ E, E = entries (m.withoutFile n β k p { r with
    fileSize := sizeWithout m.dir r.fileSize k }) := ⟨_, rfl⟩
  have hsize : E = (sizeWithout m.dir r.fileSize k).toNat / 16 := by
    rw [hE]
    exact entries_set (setInode_same ..)
  obtain ⟨hle, hlast⟩ := sizeWithout_entries (f := m.dir) (k := k) hfew
  rw [← hsize, ← hold] at hle hlast
  -- the other names are in front of the new end
  have hkept : ∀ j < entries m, j ≠ k → numAt m.dir j ≠ INVALID_INODE → j < E := by
    intro j hj hjk hused
    by_cases heq : k + 1 = entries m
    · rw [(hlast heq).1]
      exact hcover heq j (by omega) hused
    · rw [hsize, sizeWithout, if_neg (by omega), ← hold]
      exact hj
  -- the entry that was cleared is the one of the name
  obtain ⟨i, hi, hslot⟩ := (h.table.holds name n).mp hfile
  obtain ⟨hused, -, hin⟩ := slotAt_some hslot
  obtain ⟨a, -, ha⟩ := hl.live i hi hused
  have hik : i = k := hl.once i hi k hk (by rw [hnum, ha]; omega) hused
  rw [hik] at hslot
  have hcleared : ∀ j, numAt (put m.dir (16 * k) 16 fun _ => 0) j =
      if j = k then 0 else numAt m.dir j := fun j => numAt_cleared
  constructor
  · rw [← hE, withoutFile_dir]
    refine ⟨fun j hj l hl' => ?_, fun j hj hne => ?_⟩
    · by_cases hjk : j = k
      · rw [hjk]
        exact put_of_in (by omega)
      · rw [cleared_other hjk l hl']
        refine h.tidy.blank j (fun hj' => ?_) l hl'
        by_contra hne
        have hzero := hj (hkept j hj' hjk hne)
        rw [hcleared, if_neg hjk] at hzero
        exact hne hzero
    · have hjk : j ≠ k := by
        rintro rfl
        rw [hcleared, if_pos rfl] at hne
        exact hne rfl
      rw [hcleared, if_neg hjk] at hne
      rw [(entry_congr (cleared_other (f := m.dir) hjk)).2]
      exact padded_congr (cleared_other hjk)
        (h.tidy.padded j (Nat.lt_of_lt_of_le hj hle) hne)
  · rw [← hE, withoutFile_dir]
    rw [slotAt_cleared]
    refine table_erase h.table hk hslot hle fun j hj hjk hne => ?_
    refine hkept j hj hjk fun hzero => hne ?_
    rw [slotAt, if_pos hzero]

end Names

/-! ## A new directory -/

/-- The names that `mkfs` gives, with their numbers. -/
def firstNames : List (List Byte × Nat) :=
  newEntries.map fun e => (e.2, e.1.toNat)

/-- The files that `mkfs` makes. -/
def firstFiles : List Byte → Option Nat := mapOf firstNames

/-- The bytes behind the entries of a new directory are zeros. -/
theorem names_new {sb : SuperBlock} {m : Image} (h : NewImage sb m)
    (hzero : ∀ a, 16 * newEntries.length ≤ a → m.dir a = 0) :
    Names m firstFiles := by
  have hentries := entries_new h
  have hlen : 16 * newEntries.length = 80 := by decide
  have hsame : ∀ k < 5, ∀ l < 16, m.dir (16 * k + l) = entryBytes (16 * k + l) :=
    fun k hk l hl => h.dir _ (by omega)
  have hused : ∀ k < 5, numAt entryBytes k ≠ INVALID_INODE ∧
      ∀ j < MAX_FILENAME_LEN, (entryName entryBytes (16 * k)).length ≤ j →
        entryBytes (16 * k + 4 + j) = 0 := by decide +kernel
  have hslots : ∀ k < 5, slotAt entryBytes k = firstNames[k]? := by decide +kernel
  constructor
  · rw [hentries]
    refine ⟨fun k hk l hl => ?_, fun k hk _ => ?_⟩
    · by_cases hk5 : k < 5
      · have hfree := hk hk5
        rw [(entry_congr (hsame k hk5)).1] at hfree
        exact absurd hfree (hused k hk5).1
      · exact hzero _ (by omega)
    · rw [(entry_congr (hsame k hk)).2]
      exact padded_congr (hsame k hk) fun j h₁ h₂ => (hused k hk).2 j h₂ h₁
  · rw [hentries]
    exact table_congr (table_list (l := firstNames) (by decide)) fun k hk =>
      (slotAt_congr (hsame k hk)).trans (hslots k hk)

end KosDirectoryMap
