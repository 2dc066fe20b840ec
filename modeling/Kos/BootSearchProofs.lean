import Kos.NewEntryProofs

/-! # The search at boot

    The loop of `boot/hdboot.asm` from `compare_file_name` to `loader_found`,
    against the search of the file system for the same name.

    * The loop compares up to the NUL behind the name, which a name of twelve
      characters does not leave room for: that byte is the first of the next
      entry (`compare_iff`);
    * `bx` begins at `LOADER_OFFSET` and is compared with the size of the
      buffer, so the loop ends behind 48 entries (`search_found`,
      `search_none`);
    * the two searches agree under a condition on the first entry the file
      system finds (`boot_agrees_iff`). -/

namespace KosBootSearch

open FlatMemory (Byte)
open Overlay
open KosFs
open KosMkfs
open KosOpenFile
open KosFileNames
open KosRootDirectory

/-! ## `hdboot.asm` -/

/-- "hdloader.bin" -/
def hdloaderBin : List Byte :=
  [0x68, 0x64, 0x6c, 0x6f, 0x61, 0x64, 0x65, 0x72, 0x2e, 0x62, 0x69, 0x6e]

/-- `loader_name`, with its NUL. -/
def loaderName : List Byte := hdloaderBin ++ [0]

/-- Where the loader is read to. -/
def LOADER_OFFSET : Nat := 0x100

/-- `TRANSFER_SECT_NR * 512` -/
def SECT_BUF_SIZE : Nat := 1024

/-- The segment `es` behind `ReadHDSector`: two sectors of the directory at
    `LOADER_OFFSET`. -/
def readHDSector (f : Nat → Byte) (es : BitVec 16 → Byte) : BitVec 16 → Byte :=
  fun bx =>
    if LOADER_OFFSET ≤ bx.toNat ∧ bx.toNat < LOADER_OFFSET + SECT_BUF_SIZE then
      f (bx.toNat - LOADER_OFFSET)
    else es bx

/-- `compare_next_byte` and `compare_null_byte`, from `ds:si` on. -/
def compareNextByte (es : BitVec 16 → Byte) : List Byte → BitVec 16 → Bool
  | [], _ => false
  | al :: si, bx =>
      if al = es bx then
        if al = 0 then true else compareNextByte es si (bx + 1)
      else false

/-- The search, over at most `n` entries: `bx` at `loader_found`, or none at
    `no_loader_found`. -/
def compareFileName (sb : SuperBlock) (es : BitVec 16 → Byte) :
    Nat → BitVec 16 → BitVec 32 → Option (Option (BitVec 16))
  | 0, _, _ => none
  | n + 1, bx, ecx =>
      if compareNextByte es loaderName (bx + sb.dirEntFnameOff.setWidth 16) then
        some (some bx)
      else
        -- `compare_next_file`
        let bx := bx + sb.dirEntSize.setWidth 16
        let ecx := ecx - sb.dirEntSize
        if ecx = 0 then some none
        else if (BitVec.ofNat 16 SECT_BUF_SIZE).sle bx then some none
        else compareFileName sb es n bx ecx

/-- What `ReadINode` is called with. -/
def inodeNr (sb : SuperBlock) (es : BitVec 16 → Byte) (bx : BitVec 16) : Int :=
  let bx := bx + sb.dirEntInodeOff.setWidth 16
  (word (fun k => es (bx + BitVec.ofNat 16 k)) 0).toInt

/-! ## One entry -/

/-- `bx` and `ecx` in front of the entry `k`. -/
def bxAt (k : Nat) : BitVec 16 := BitVec.ofNat 16 (LOADER_OFFSET + 16 * k)

/-- What is left of the directory in front of entry `k`. -/
def ecxAt (size : BitVec 32) (k : Nat) : BitVec 32 :=
  size - BitVec.ofNat 32 (16 * k)

/-- The name with the first byte of the next entry for its NUL. -/
def BootMatch (f : Nat → Byte) (k : Nat) : Prop :=
  sameAt hdloaderBin f k = true ∧ f (16 * (k + 1)) = 0

instance (f : Nat → Byte) (k : Nat) : Decidable (BootMatch f k) :=
  inferInstanceAs (Decidable (_ ∧ _))

section Entry

variable {f : Nat → Byte} {es : BitVec 16 → Byte} {k o : Nat}

/-- A byte of the sector that was read. -/
theorem readHDSector_at (h : o < SECT_BUF_SIZE) :
    readHDSector f es (BitVec.ofNat 16 (LOADER_OFFSET + o)) = f o := by
  have hsize : SECT_BUF_SIZE = 1024 := rfl
  have hoff : LOADER_OFFSET = 256 := rfl
  have hnat : (BitVec.ofNat 16 (LOADER_OFFSET + o)).toNat = LOADER_OFFSET + o := by
    rw [BitVec.toNat_ofNat]
    omega
  rw [readHDSector, hnat, if_pos (by omega), Nat.add_sub_cancel_left]

/-- A byte of the entry at `bx`. -/
theorem bxAt_add (k o : Nat) :
    bxAt k + BitVec.ofNat 16 o =
      BitVec.ofNat 16 (LOADER_OFFSET + (16 * k + o)) := by
  rw [bxAt, ← BitVec.ofNat_add, Nat.add_assoc]

/-- A string is compared with its NUL. -/
theorem compareNextByte_iff {g : Nat → Byte} : ∀ {l : List Byte} {bx : BitVec 16}
    {o : Nat}, 0 ∉ l →
      (∀ i ≤ l.length, es (bx + BitVec.ofNat 16 i) = g (o + i)) →
      (compareNextByte es (l ++ [0]) bx = true ↔
        (∀ i < l.length, l.getD i 0 = g (o + i)) ∧ g (o + l.length) = 0) := by
  intro l
  induction l with
  | nil =>
      intro bx o _ hes
      have h0 : es bx = g o := by
        have h := hes 0 (Nat.le_refl 0)
        rwa [show bx + BitVec.ofNat 16 0 = bx from BitVec.add_zero bx] at h
      rw [List.nil_append, compareNextByte, h0]
      constructor
      · intro h
        split at h
        · rename_i heq
          exact ⟨fun i hi => absurd hi (Nat.not_lt_zero i), heq.symm⟩
        · cases h
      · rintro ⟨-, h⟩
        rw [if_pos (show (0 : Byte) = g o from h.symm), if_pos rfl]
  | cons c l ih =>
      intro bx o hnul hes
      have hc : c ≠ 0 := fun h => hnul (h ▸ List.mem_cons_self)
      have hl : 0 ∉ l := fun h => hnul (List.mem_cons_of_mem c h)
      have h0 : es bx = g o := by
        have h := hes 0 (Nat.zero_le _)
        rwa [show bx + BitVec.ofNat 16 0 = bx from BitVec.add_zero bx] at h
      have hrest := @ih (bx + 1) (o + 1) hl fun i hi => by
        have h := hes (i + 1) (Nat.succ_le_succ hi)
        rw [BitVec.add_assoc, show (1 : BitVec 16) + BitVec.ofNat 16 i =
          BitVec.ofNat 16 (i + 1) by rw [Nat.add_comm, BitVec.ofNat_add]; rfl,
          h]
        congr 1
        omega
      rw [List.cons_append, compareNextByte, h0, List.length_cons]
      by_cases heq : c = g o
      · rw [if_pos heq, if_neg hc, hrest]
        constructor
        · rintro ⟨hall, hend⟩
          refine ⟨fun i hi => ?_, ?_⟩
          · cases i with
            | zero => exact heq
            | succ i =>
                have h := hall i (by omega)
                rwa [Nat.add_assoc, Nat.add_comm 1 i] at h
          · rwa [Nat.add_assoc, Nat.add_comm 1] at hend
        · rintro ⟨hall, hend⟩
          refine ⟨fun i hi => ?_, ?_⟩
          · have h := hall (i + 1) (by omega)
            rwa [Nat.add_assoc, Nat.add_comm 1 i]
          · rwa [Nat.add_assoc, Nat.add_comm 1]
      · rw [if_neg heq]
        constructor
        · intro h
          cases h
        · rintro ⟨hall, -⟩
          exact absurd (hall 0 (by omega)) heq

/-- **ONE ENTRY** that is in the buffer. -/
theorem compare_iff (hk : k < 48) :
    compareNextByte (readHDSector f es) loaderName (bxAt k + 4) = true ↔
      BootMatch f k := by
  have hbytes : ∀ i ≤ hdloaderBin.length,
      readHDSector f es (bxAt k + 4 + BitVec.ofNat 16 i) =
        f (16 * k + 4 + i) := by
    intro i hi
    have hi' : i ≤ 12 := hi
    have hsize : SECT_BUF_SIZE = 1024 := rfl
    rw [BitVec.add_assoc, show (4 : BitVec 16) + BitVec.ofNat 16 i =
      BitVec.ofNat 16 (4 + i) by rw [BitVec.ofNat_add]; rfl, bxAt_add,
      readHDSector_at (by omega)]
    congr 1
    omega
  rw [loaderName, compareNextByte_iff (by decide) hbytes, BootMatch, sameAt,
    sameName, List.all_eq_true]
  constructor
  · rintro ⟨hall, hend⟩
    exact ⟨fun i hi => beq_iff_eq.mpr (hall i (List.mem_range.mp hi)), hend⟩
  · rintro ⟨hall, hend⟩
    exact ⟨fun i hi => beq_iff_eq.mp (hall i (List.mem_range.mpr hi)), hend⟩

end Entry

/-! ## The loop -/

/-- The number of entries the loop looks at: without any `ecx` never comes to
    zero. -/
def scanned (size : Nat) : Nat := if size = 0 then 48 else min (size / 16) 48

section Loop

variable {f : Nat → Byte} {es : BitVec 16 → Byte} {sectCnt : BitVec 32}
  {dev : Int} {size : BitVec 32} {k n a m : Nat}

/-- `bx` moves on by one entry. -/
theorem bxAt_succ (k : Nat) : bxAt k + 16 = bxAt (k + 1) := by
  rw [show (16 : BitVec 16) = BitVec.ofNat 16 16 from rfl, bxAt_add, bxAt]
  congr 1

/-- `ecx` falls by one entry. -/
theorem ecxAt_succ (size : BitVec 32) (k : Nat) :
    ecxAt size k - 16 = ecxAt size (k + 1) := by
  rw [ecxAt, ecxAt, BitVec.sub_sub, show (16 : BitVec 32) = BitVec.ofNat 32 16
    from rfl, ← BitVec.ofNat_add]
  congr 1

/-- `ecx` is zero behind the last entry of a whole number of entries. -/
theorem ecxAt_eq_zero (hk : k ≤ 48) :
    ecxAt size k = 0 ↔ size.toNat = 16 * k := by
  have hnat : (BitVec.ofNat 32 (16 * k)).toNat = 16 * k := by
    rw [BitVec.toNat_ofNat]
    omega
  rw [ecxAt, ← BitVec.toNat_inj, BitVec.toNat_sub, hnat,
    show BitVec.toNat (0 : BitVec 32) = 0 from rfl]
  have hlt := size.isLt
  omega

/-- The test on `bx` is on signed words. -/
theorem bxAt_end (hk : k ≤ 48) :
    (BitVec.ofNat 16 SECT_BUF_SIZE).sle (bxAt k) = true ↔ k = 48 := by
  have hall : ∀ k ≤ 48, (BitVec.ofNat 16 SECT_BUF_SIZE).sle (bxAt k) = true ↔
      k = 48 := by decide
  exact hall k hk

/-- **ONE STEP** past an entry. -/
theorem search_step (hk : k < 48) (hno : ¬ BootMatch f k) :
    compareFileName (superBlock sectCnt dev) (readHDSector f es) (n + 1)
        (bxAt k) (ecxAt size k) =
      if size.toNat = 16 * (k + 1) ∨ k + 1 = 48 then some none
      else compareFileName (superBlock sectCnt dev) (readHDSector f es) n
        (bxAt (k + 1)) (ecxAt size (k + 1)) := by
  have hcompare : ¬ compareNextByte (readHDSector f es) loaderName
      (bxAt k + 4) = true := fun h => hno ((compare_iff hk).mp h)
  have hecx : ecxAt size (k + 1) = 0 ↔ size.toNat = 16 * (k + 1) :=
    ecxAt_eq_zero (by omega)
  have hbx := bxAt_end (show k + 1 ≤ 48 by omega)
  rw [compareFileName]
  show (if compareNextByte (readHDSector f es) loaderName (bxAt k + 4) = true
    then some (some (bxAt k)) else if ecxAt size k - 16 = 0 then some none
    else if (BitVec.ofNat 16 SECT_BUF_SIZE).sle (bxAt k + 16) = true then
      some none
    else compareFileName (superBlock sectCnt dev) (readHDSector f es) n
      (bxAt k + 16) (ecxAt size k - 16)) = _
  rw [if_neg hcompare, bxAt_succ, ecxAt_succ]
  by_cases hleft : size.toNat = 16 * (k + 1)
  · rw [if_pos (hecx.mpr hleft), if_pos (Or.inl hleft)]
  · rw [if_neg fun h => hleft (hecx.mp h)]
    by_cases hend : k + 1 = 48
    · rw [if_pos (hbx.mpr hend), if_pos (Or.inr hend)]
    · rw [if_neg fun h => hend (hbx.mp h), if_neg]
      rintro (h | h)
      · exact hleft h
      · exact hend h

/-- The search stops at an entry that matches. -/
theorem search_match (hk : k < 48) (h : BootMatch f k) :
    compareFileName (superBlock sectCnt dev) (readHDSector f es) (n + 1)
      (bxAt k) (ecxAt size k) = some (some (bxAt k)) := by
  rw [compareFileName]
  exact if_pos ((compare_iff hk).mpr h)

/-- At most 48 entries are looked at. -/
theorem scanned_le (size : Nat) : scanned size ≤ 48 := by
  rw [scanned]
  split <;> omega

/-- Where the loop ends. -/
theorem scanned_iff (hsize : size.toNat % 16 = 0) (hk : k < scanned size.toNat) :
    (size.toNat = 16 * (k + 1) ∨ k + 1 = 48) ↔ k + 1 = scanned size.toNat := by
  rw [scanned] at hk ⊢
  split at hk
  · rename_i h0
    rw [if_pos h0]
    omega
  · rename_i h0
    rw [if_neg h0]
    omega

/-- Entries that do not match are passed over. -/
theorem search_skip (hsize : size.toNat % 16 = 0) : ∀ {m a : Nat},
    a + m < scanned size.toNat →
    (∀ j, a ≤ j → j < a + m → ¬ BootMatch f j) →
    compareFileName (superBlock sectCnt dev) (readHDSector f es) (m + n)
        (bxAt a) (ecxAt size a) =
      compareFileName (superBlock sectCnt dev) (readHDSector f es) n
        (bxAt (a + m)) (ecxAt size (a + m)) := by
  intro m
  induction m with
  | zero =>
      intro a _ _
      rw [Nat.zero_add, Nat.add_zero]
  | succ m ih =>
      intro a hlt hno
      have hle := scanned_le size.toNat
      have hgo := scanned_iff hsize (show a < scanned size.toNat by omega)
      rw [show m + 1 + n = m + n + 1 by omega,
        search_step (by omega) (hno a (Nat.le_refl a) (by omega)),
        if_neg (fun h => absurd (hgo.mp h) (by omega)),
        ih (by omega) fun j h₁ h₂ => hno j (by omega) (by omega),
        show a + 1 + m = a + (m + 1) by omega]

variable (es sectCnt dev) in
/-- The search finds the first match. -/
theorem search_found (hsize : size.toNat % 16 = 0) (hk : k < scanned size.toNat)
    (hmatch : BootMatch f k) (hmin : ∀ j < k, ¬ BootMatch f j) :
    compareFileName (superBlock sectCnt dev) (readHDSector f es) 48 (bxAt 0)
      (ecxAt size 0) = some (some (bxAt k)) := by
  have hle := scanned_le size.toNat
  rw [show 48 = k + (47 - k + 1) by omega,
    search_skip hsize (by omega) fun j _ hj => hmin j (by omega), Nat.zero_add,
    search_match (by omega) hmatch]

variable (es sectCnt dev) in
/-- Without a match the search ends at the size. -/
theorem search_none (hsize : size.toNat % 16 = 0)
    (hno : ∀ j < scanned size.toNat, ¬ BootMatch f j) :
    compareFileName (superBlock sectCnt dev) (readHDSector f es) 48 (bxAt 0)
      (ecxAt size 0) = some none := by
  have hle := scanned_le size.toNat
  have hpos : 0 < scanned size.toNat := by
    rw [scanned]
    split <;> omega
  have hlast := (scanned_iff hsize
    (show scanned size.toNat - 1 < scanned size.toNat by omega)).mpr (by omega)
  rw [show 48 = (scanned size.toNat - 1) + (48 - scanned size.toNat + 1) by
      omega,
    search_skip hsize (by omega) fun j _ hj => hno j (by omega), Nat.zero_add,
    search_step (by omega) (hno _ (by omega)), if_pos hlast]

end Loop

/-! ## The two searches -/

/-- The entry that `get_file_inode_nr` finds. -/
def FirstSame (f : Nat → Byte) (size k : Nat) : Prop :=
  k < looked size ∧ sameAt hdloaderBin f k = true ∧
    ∀ j < k, sameAt hdloaderBin f j = false

/-- The loop finds the same entry of the directory and its number; or there is
    none for either. -/
def SearchesAgree (sb : SuperBlock) (es : BitVec 16 → Byte) (f : Nat → Byte)
    (size : BitVec 32) : Prop :=
  ∃ bx, compareFileName sb (readHDSector f es) 48
      (BitVec.ofNat 16 LOADER_OFFSET) size = some bx ∧
    ((∃ k, FirstSame f size.toNat k ∧ bx = some (bxAt k) ∧
        inodeNr sb (readHDSector f es) (bxAt k) = numAt f k) ∨
      (∀ k, ¬ FirstSame f size.toNat k) ∧ bx = none)

/-- The file system returns the number of an entry, and the loader is searched
    with the same entry and number; or neither finds one. -/
def BootAgrees (sb : SuperBlock) (es : BitVec 16 → Byte) (s : Fs) : Prop :=
  let root := s.inodeTable s.rootInode
  let f := dirBytes s root
  let es := readHDSector f es
  ∃ nr s' bx, getFileInodeNr hdloaderBin s = .ok nr s' ∧
    compareFileName sb es 48 (BitVec.ofNat 16 LOADER_OFFSET) root.fileSize =
      some bx ∧
    ((∃ k, FirstSame f root.fileSize.toNat k ∧ nr = numAt f k ∧
        bx = some (bxAt k) ∧ inodeNr sb es (bxAt k) = nr) ∨
      (∀ k, ¬ FirstSame f root.fileSize.toNat k) ∧ nr = INVALID_INODE ∧
        bx = none)

/-- **WHEN THEY AGREE**: the entry the file system finds is one of the
    directory, and one of the first 48, and a NUL follows it; and a directory
    without entries has none behind its end. -/
structure BootCond (f : Nat → Byte) (size : Nat) : Prop where
  found : ∀ k, FirstSame f size k →
    16 * k < size ∧ k < 48 ∧ f (16 * (k + 1)) = 0
  empty : size = 0 → ∀ k < 48, ¬ BootMatch f k

section Agree

variable {f : Nat → Byte} {es : BitVec 16 → Byte} {sectCnt : BitVec 32}
  {dev : Int} {s : Fs} {k : Nat}

/-- The number at `loader_found` is that of the entry. -/
theorem inodeNr_at (hk : k < 48) :
    inodeNr (superBlock sectCnt dev) (readHDSector f es) (bxAt k) =
      numAt f k := by
  refine congrArg BitVec.toInt (word_congr fun l hl => ?_)
  have hsize : SECT_BUF_SIZE = 1024 := rfl
  show readHDSector f es (bxAt k + 0 + BitVec.ofNat 16 (0 + l)) = _
  rw [show bxAt k + 0 = bxAt k from BitVec.add_zero _, Nat.zero_add, bxAt_add,
    readHDSector_at (by omega)]

/-- The entries have different addresses. -/
theorem bxAt_inj {j : Nat} (hk : k < 64) (hj : j < 64)
    (h : bxAt k = bxAt j) : k = j := by
  have hnat := congrArg BitVec.toNat h
  have hoff : LOADER_OFFSET = 256 := rfl
  rw [bxAt, bxAt, BitVec.toNat_ofNat, BitVec.toNat_ofNat] at hnat
  omega

/-- An entry that FS does not match is not matched at boot. -/
theorem not_bootMatch (h : sameAt hdloaderBin f k = false) :
    ¬ BootMatch f k := by
  rintro ⟨hsame, -⟩
  rw [h] at hsame
  cases hsame

/-- There is one first entry of the name. -/
theorem firstSame_unique {size j : Nat} (hk : FirstSame f size k)
    (hj : FirstSame f size j) : k = j := by
  rcases Nat.lt_trichotomy k j with hlt | heq | hlt
  · exact absurd (hk.2.1.symm.trans (hj.2.2 k hlt)) (by decide)
  · exact heq
  · exact absurd (hj.2.1.symm.trans (hk.2.2 j hlt)) (by decide)

/-- The result of the loop, one way or the other. -/
theorem search_cases {size : BitVec 32} (hsize : size.toNat % 16 = 0)
    (sectCnt : BitVec 32) (dev : Int) (es : BitVec 16 → Byte)
    (f : Nat → Byte) :
    (∃ k, k < scanned size.toNat ∧ BootMatch f k ∧
        (∀ j < k, ¬ BootMatch f j) ∧
        compareFileName (superBlock sectCnt dev) (readHDSector f es) 48
          (bxAt 0) (ecxAt size 0) = some (some (bxAt k))) ∨
      (∀ k < scanned size.toNat, ¬ BootMatch f k) ∧
        compareFileName (superBlock sectCnt dev) (readHDSector f es) 48
          (bxAt 0) (ecxAt size 0) = some none := by
  rcases first_or_none (fun k => decide (BootMatch f k)) 0 (scanned size.toNat)
    with ⟨k, -, hk, hmatch, hmin⟩ | hnone
  · have hk' : k < scanned size.toNat := by omega
    have hmin' : ∀ j < k, ¬ BootMatch f j :=
      fun j hj => of_decide_eq_false (hmin j (Nat.zero_le j) hj)
    exact Or.inl ⟨k, hk', of_decide_eq_true hmatch, hmin',
      search_found es sectCnt dev hsize hk' (of_decide_eq_true hmatch) hmin'⟩
  · have hno : ∀ k < scanned size.toNat, ¬ BootMatch f k :=
      fun k hk => of_decide_eq_false (hnone k (Nat.zero_le k) (by omega))
    exact Or.inr ⟨hno, search_none es sectCnt dev hsize hno⟩

/-- Where the boot sector agrees with FS, so do the searches. -/
theorem searches_of_agrees (h : BootAgrees (superBlock sectCnt dev) es s) :
    SearchesAgree (superBlock sectCnt dev) es
      (dirBytes s (s.inodeTable s.rootInode))
      (s.inodeTable s.rootInode).fileSize := by
  obtain ⟨nr, s', bx, -, hsearch, hagree⟩ := h
  refine ⟨bx, hsearch, ?_⟩
  rcases hagree with ⟨k, hk, rfl, hbx, hnr⟩ | ⟨hno, -, hbx⟩
  · exact Or.inl ⟨k, hk, hbx, hnr⟩
  · exact Or.inr ⟨hno, hbx⟩

/-- The loop on the bytes of a directory. -/
theorem searches_agree_iff {size : BitVec 32} (hsize : size.toNat % 16 = 0)
    (hfit : size.toNat ≤ SECT_BUF_SIZE) :
    SearchesAgree (superBlock sectCnt dev) es f size ↔
      BootCond f size.toNat := by
  have hlooked := looked_eq size.toNat
  have hbuf : SECT_BUF_SIZE = 1024 := rfl
  have hend : looked size.toNat ≤ 64 := by
    rw [hlooked]
    split <;> omega
  have hecx : ecxAt size 0 = size := BitVec.sub_zero _
  have hcases := search_cases hsize sectCnt dev es f
  rw [hecx] at hcases
  rw [SearchesAgree]
  rcases first_or_none (sameAt hdloaderBin f) 0 (looked size.toNat) with
    ⟨k, -, hk, hsame, hmin⟩ | hnone
  · -- the file system finds the entry `k`
    have hfirst : FirstSame f size.toNat k :=
      ⟨by omega, hsame, fun j hj => hmin j (Nat.zero_le j) hj⟩
    have hsome : size.toNat ≠ 0 := by
      intro h0
      rw [h0, show looked 0 = 0 from rfl] at hk
      omega
    have hscan : k < scanned size.toNat ↔ 16 * k < size.toNat ∧ k < 48 := by
      rw [scanned, if_neg hsome]
      omega
    constructor
    · rintro ⟨bx, hsearch, hagree⟩
      refine ⟨fun l hl => ?_, fun h0 => absurd h0 hsome⟩
      obtain rfl := firstSame_unique hfirst hl
      rcases hagree with ⟨l, hl', hbx, -⟩ | ⟨hno, -⟩
      · obtain rfl := firstSame_unique hfirst hl'
        rcases hcases with ⟨j, hj, hmatch, -, hfound⟩ | ⟨-, hfound⟩
        · have heq : bxAt j = bxAt k := by
            have h := hfound.symm.trans hsearch
            rw [hbx] at h
            injection h with h
            injection h
          have hle := scanned_le size.toNat
          obtain rfl := bxAt_inj (by omega) (by omega) heq
          obtain ⟨hin, hlt⟩ := hscan.mp hj
          exact ⟨hin, hlt, hmatch.2⟩
        · have h := hfound.symm.trans hsearch
          rw [hbx] at h
          injection h with h
          cases h
      · exact absurd hfirst (hno k)
    · intro hcond
      obtain ⟨hin, hlt, hnul⟩ := hcond.found k hfirst
      have hmin' : ∀ j < k, ¬ BootMatch f j :=
        fun j hj => not_bootMatch (hmin j (Nat.zero_le j) hj)
      have hfound := search_found es sectCnt dev hsize
        (hscan.mpr ⟨hin, hlt⟩) ⟨hsame, hnul⟩ hmin'
      rw [hecx] at hfound
      exact ⟨_, hfound, Or.inl ⟨k, hfirst, rfl, inodeNr_at hlt⟩⟩
  · have hno : ∀ k, ¬ FirstSame f size.toNat k := by
      rintro k ⟨hk, hsame, -⟩
      rw [hnone k (Nat.zero_le k) (by omega)] at hsame
      cases hsame
    constructor
    · rintro ⟨bx, hsearch, hagree⟩
      refine ⟨fun k hk => absurd hk (hno k), fun h0 => ?_⟩
      rcases hagree with ⟨k, hk, -⟩ | ⟨-, hbx⟩
      · exact absurd hk (hno k)
      · rcases hcases with ⟨j, -, -, -, hfound⟩ | ⟨hmiss, -⟩
        · have h := hfound.symm.trans hsearch
          rw [hbx] at h
          injection h with h
          cases h
        · rw [scanned, if_pos h0] at hmiss
          exact hmiss
    · intro hcond
      have hmiss : ∀ k < scanned size.toNat, ¬ BootMatch f k := by
        intro k hk
        rw [scanned] at hk
        split at hk
        · rename_i h0
          exact hcond.empty h0 k hk
        · refine not_bootMatch (hnone k (Nat.zero_le k) ?_)
          omega
      have hfound := search_none es sectCnt dev hsize hmiss
      rw [hecx] at hfound
      exact ⟨_, hfound, Or.inr ⟨hno, rfl⟩⟩

/-- **THE SEARCH AT BOOT** finds what the file system finds exactly when a NUL
    follows the entry. -/
theorem boot_agrees_iff
    (hr : RootDir (superBlock sectCnt dev) (s.inodeTable s.rootInode))
    (hsize : (s.inodeTable s.rootInode).fileSize.toNat % 16 = 0)
    (hfit : (s.inodeTable s.rootInode).fileSize.toNat ≤ SECT_BUF_SIZE) :
    BootAgrees (superBlock sectCnt dev) es s ↔
      BootCond (dirBytes s (s.inodeTable s.rootInode))
        (s.inodeTable s.rootInode).fileSize.toNat := by
  obtain ⟨g, hget⟩ := getFileInodeNr_run (s := s)
    (placed_of_rootDir (superBlock_made sectCnt dev) hr)
    (show getFileName hdloaderBin = some hdloaderBin by decide) (by decide)
  have hiff : SearchesAgree (superBlock sectCnt dev) es
      (dirBytes s (s.inodeTable s.rootInode))
      (s.inodeTable s.rootInode).fileSize ↔ _ := searches_agree_iff hsize hfit
  constructor
  · intro h
    exact hiff.mp (searches_of_agrees h)
  · intro hcond
    obtain ⟨bx, hsearch, hagree⟩ := hiff.mpr hcond
    rcases hagree with ⟨k, hk, hbx, hnr⟩ | ⟨hno, hbx⟩
    · have hlt : k < 0 + looked (s.inodeTable s.rootInode).fileSize.toNat := by
        rw [Nat.zero_add]
        exact hk.1
      rw [firstNr_found (Nat.zero_le k) hlt hk.2.1 fun j _ hj => hk.2.2 j hj]
        at hget
      exact ⟨_, _, bx, hget, hsearch, Or.inl ⟨k, hk, rfl, hbx, hnr⟩⟩
    · rcases first_or_none (sameAt hdloaderBin
          (dirBytes s (s.inodeTable s.rootInode))) 0
          (looked (s.inodeTable s.rootInode).fileSize.toNat) with
        ⟨k, -, hk, hsame, hmin⟩ | hnone
      · exact absurd ⟨by omega, hsame,
          fun j hj => hmin j (Nat.zero_le j) hj⟩ (hno k)
      · rw [firstNr_none hnone] at hget
        exact ⟨_, _, bx, hget, hsearch, Or.inr ⟨hno, rfl, hbx⟩⟩

end Agree

/-! ## Directories made by `make_new_dir_entry` -/

/-- A root directory that `make_new_dir_entry` has filled, no further than the
    buffer of the loader reaches. -/
inductive Written (sectCnt : BitVec 32) (dev : Int) : Fs → Prop
  | empty {s : Fs}
      (hroot : RootDir (superBlock sectCnt dev) (s.inodeTable s.rootInode))
      (hsize : (s.inodeTable s.rootInode).fileSize = 0) : Written sectCnt dev s
  | entry {s s' : Fs} {path name : List Byte} {nr : Int}
      (h : Written sectCnt dev s) (hname : getFileName path = some name)
      (hnul : 0 ∉ path) (hne : name ≠ []) (hnr : BitVec.ofInt 32 nr ≠ 0)
      (hrun : makeNewDirEntry s.rootInode nr name s = .ok () s')
      (hfit : (s'.inodeTable s.rootInode).fileSize.toNat ≤ SECT_BUF_SIZE) :
      Written sectCnt dev s'

section Made

variable {sectCnt : BitVec 32} {dev : Int} {s s' : Fs} {root : Fin NR_INODE}
  {nr : Int} {name : List Byte}

/-- A new entry leaves the root directory where it is, and makes it longer by
    one entry at most. -/
theorem root_newEntry (hr : Placed (s.inodeTable root))
    (hrun : makeNewDirEntry root nr name s = .ok () s') :
    s'.rootInode = s.rootInode ∧
      ∃ free, s'.inodeTable root = grown free (s.inodeTable root) := by
  obtain ⟨-, h16, -, h512⟩ := placed_numbers hr
  rw [Placed] at hr
  obtain ⟨i, j, free, b, g, t, -, -, -, -, -, ht, hw⟩ :=
    run_makeNewDirEntry rfl h16 h512 (by omega) (by omega) hrun
  obtain ⟨sb, -, -, hs'⟩ := run_writeInode.mp hw
  rw [hs', ht]
  exact ⟨rfl, free, updInode_self s (grown free)⟩

/-- What is asked of a directory in `boot_agrees_iff`. -/
theorem written_dir (h : Written sectCnt dev s) :
    RootDir (superBlock sectCnt dev) (s.inodeTable s.rootInode) ∧
      (s.inodeTable s.rootInode).fileSize.toNat % 16 = 0 ∧
      (s.inodeTable s.rootInode).fileSize.toNat ≤ SECT_BUF_SIZE := by
  induction h with
  | empty hroot hsize =>
      rw [hsize]
      exact ⟨hroot, rfl, Nat.zero_le _⟩
  | entry h hname hnul hne hnr hrun hfit ih =>
      rename_i s s' path name nr
      obtain ⟨hdir, hsize, hle⟩ := ih
      obtain ⟨hsame, free, hroot⟩ := root_newEntry
        (placed_of_rootDir (superBlock_made sectCnt dev) hdir) hrun
      have hbuf : SECT_BUF_SIZE = 1024 := rfl
      rw [hsame]
      refine ⟨?_, ?_, hfit⟩
      · cases free with
        | true =>
            rw [hroot]
            exact hdir
        | false =>
            exact ⟨by rw [hroot]; exact hdir.start,
              by rw [hroot]; exact hdir.sects, by omega⟩
      · rw [hroot]
        cases free with
        | true => exact hsize
        | false =>
            show ((s.inodeTable s.rootInode).fileSize + 16).toNat % 16 = 0
            rw [BitVec.toNat_add, show BitVec.toNat (16 : BitVec 32) = 16
              from rfl]
            omega

end Made

/-- The state behind a call of `make_new_dir_entry`. -/
def newEntry (nr : Int) (name : List Byte) (s : Fs) : Fs :=
  match makeNewDirEntry s.rootInode nr name s with
  | .ok _ t => t
  | .error _ t => t

/-- A root directory without entries. -/
def emptyDir : Fs := demoFs (fun _ => 0) (demoRoot 0)

/-- A directory with the loader in it, and nothing else. -/
def loaderOnly : Fs := newEntry 2 hdloaderBin emptyDir

/-- The same directory with a file "a" behind the loader. -/
def loaderFirst : Fs := newEntry 3 [0x61] loaderOnly

/-- A directory with the loader alone. -/
theorem written_loaderOnly : Written 40960 ROOT_DEV_NR loaderOnly := by
  refine @Written.entry 40960 ROOT_DEV_NR emptyDir loaderOnly hdloaderBin
    hdloaderBin 2 (.empty ?_ rfl) rfl (by decide) (by decide) (by decide) rfl
    (by decide)
  exact demoRoot_dir (by decide)

/-- A directory with the loader in front. -/
theorem written_loaderFirst : Written 40960 ROOT_DEV_NR loaderFirst :=
  @Written.entry 40960 ROOT_DEV_NR loaderOnly loaderFirst [0x61] [0x61] 3
    written_loaderOnly rfl (by decide) (by decide) (by decide) rfl (by decide)

/-- The loader is found, as long as it is the last entry. -/
theorem boot_agrees_iff_only :
    BootAgrees (superBlock 40960 ROOT_DEV_NR) (fun _ => 0) loaderOnly := by
  obtain ⟨hdir, hsize, hfit⟩ := written_dir written_loaderOnly
  refine (boot_agrees_iff hdir hsize hfit).mpr ⟨fun k hk => ?_, fun h => ?_⟩
  · have hfirst : FirstSame (dirBytes loaderOnly
        (loaderOnly.inodeTable loaderOnly.rootInode)) 16 0 :=
      ⟨by decide, by decide, fun j hj => absurd hj (Nat.not_lt_zero j)⟩
    obtain rfl := firstSame_unique hfirst hk
    exact ⟨by decide, by decide, by decide⟩
  · exact absurd h (by decide)

/-- The first byte of the number of the file behind it hides the loader. -/
theorem boot_misses_loader : ¬ ∀ (sectCnt : BitVec 32) (dev : Int)
    (es : BitVec 16 → Byte) (s : Fs), Written sectCnt dev s →
      BootAgrees (superBlock sectCnt dev) es s := by
  intro hall
  have hsearches := searches_of_agrees
    (hall 40960 ROOT_DEV_NR (fun _ => 0) loaderFirst written_loaderFirst)
  obtain ⟨-, hsize, hfit⟩ := written_dir written_loaderFirst
  have hcond := (searches_agree_iff hsize hfit).mp hsearches
  have hfirst : FirstSame (dirBytes loaderFirst
      (loaderFirst.inodeTable loaderFirst.rootInode))
      (loaderFirst.inodeTable loaderFirst.rootInode).fileSize.toNat 0 :=
    ⟨by decide, by decide, fun j hj => absurd hj (Nat.not_lt_zero j)⟩
  exact absurd (hcond.found 0 hfirst).2.2 (by decide)

end KosBootSearch
