import Kos.FileNamesProofs
import Kos.ReadWriteProofs
import Kos.SectorMapProofs

/-! # Opening and creating files

    `do_open` of `task/fs/open_close.c` and what it calls: the allocation of
    an inode number and of sectors, the new inode and the new entry of the
    root directory.

    * Characters of a path come from memory and end at the first NUL;
    * every function is described by what a run that ends has done
      (`run_allocInodeMapBit`, `run_makeNewInode`, …). -/

namespace KosOpenFile

open Overlay
open KosFs
open KosFileNames
open KosReadWrite (O_RDWR fdSlot)
open BitMap
open KosSectorMap (allocSectMapBit lowestClear byte_cases)

/-- The flags of an open. -/
def O_CREAT : BitVec 32 := 1
def O_TRUNC : BitVec 32 := 4

/-! ## Allocation of an inode number -/

/-- The first byte of the buffer that is not `0xFF`, with `left` to look at. -/
def openByte (b : Nat → Byte) : Nat → Nat → Option Nat
  | 0, _ => none
  | left + 1, j => if b j = 0xFF then openByte b left (j + 1) else some j

/-- `alloc_inode_map_bit`.  The `return` is in the loop over the sectors: only
    the first is looked at. -/
def allocInodeMapBit (dev : Int) : FsM Int := do
  let sb ← getSuperBlock dev
  if sb.nrInodeMapSects = 0 then throw .panic
  else do
    rdSects dev 2 1
    let s ← get
    match openByte s.fsbuf 512 0 with
    | none => pure 0
    | some j => do
        let k := lowestClear (s.fsbuf j) 8 0
        setBuf fun b => Function.update b j (b j ||| (1 : Byte) <<< k)
        wrSects dev 2 1
        pure ((j * 8 + k : Nat) : Int)

/-! ## The new inode -/

/-- An empty file. -/
def newInode (dev nr start : Int) : Inode where
  fileType := TYPE_REGULAR
  fileSize := 0
  sectStart := BitVec.ofInt 32 start
  nrSects := BitVec.ofNat 32 NR_FILE_SECTS
  dev := dev
  cnt := 1
  nr := nr

/-- `make_new_inode`; the inode number 0 has no inode. -/
def makeNewInode (dev nr start : Int) : FsM (Fin NR_INODE) := do
  let p ← getFileInode dev nr
  match p with
  | none => throw .fault
  | some i => do
      modify fun s => s.updInode i fun _ => newInode dev nr start
      writeInode i
      pure i

/-! ## The new directory entry -/

/-- Where the loops over the entries stop: at a free entry of the directory or
    at the first behind it, or they go on in the next sector. -/
inductive Slot where
  | free (j : Nat)
  | last (j : Nat)
  | next (deIdx : Int)

/-- The loop on `j`, with `left` entries of the sector left. -/
def slotEntries (nrDirEntries : Int) (b : Nat → Byte) :
    Nat → Nat → Int → Slot
  | 0, _, deIdx => .next deIdx
  | left + 1, j, deIdx =>
      if nrDirEntries < deIdx + 1 then .last j
      else if word b (16 * j) = 0 then .free j
      else slotEntries nrDirEntries b left (j + 1) (deIdx + 1)

/-- The loop on `sect_idx`, with `left` sectors left: the sector, the entry in
    the buffer, and whether it is a free one.  Without a sector there is no
    entry. -/
def slotSects (dev sect0 nrDirEntries : Int) :
    Nat → Nat → Int → FsM (Nat × Nat × Bool)
  | 0, i, _ => if i = 0 then throw .fault else pure (i, 32, false)
  | left + 1, i, deIdx => do
      rdSects dev (sect0 + i) 1
      let s ← get
      match slotEntries nrDirEntries s.fsbuf 32 0 deIdx with
      | .free j => pure (i, j, true)
      | .last j => pure (i, j, false)
      | .next deIdx => slotSects dev sect0 nrDirEntries left (i + 1) deIdx

/-- The number, and the name by `strcpy` with its NUL. -/
def putEntry (b : Nat → Byte) (o : Nat) (nr : Int) (name : List Byte) :
    Nat → Byte :=
  put (putWord b o (BitVec.ofInt 32 nr)) (o + 4) (name.length + 1)
    fun k => name.getD k 0

/-- A new entry makes the root directory longer, unless it is a free one. -/
def growRoot (root : Fin NR_INODE) (free : Bool) : FsM Unit :=
  if free then pure ()
  else
    modify fun s => s.updInode root fun p => { p with
      fileSize := p.fileSize + 16 }

/-- `make_new_dir_entry`. -/
def makeNewDirEntry (root : Fin NR_INODE) (nr : Int) (name : List Byte) :
    FsM Unit := do
  let s ← get
  let p := s.inodeTable root
  let sect0 := p.sectStart.toInt
  let nrRootDirSects := ((p.fileSize + 512) / 512).toInt
  let r ← slotSects p.dev sect0 (p.fileSize / 16).toInt nrRootDirSects.toNat 0 0
  growRoot root r.2.2
  setBuf fun b => putEntry b (16 * r.2.1) nr name
  wrSects p.dev (sect0 + r.1) 1
  writeInode root

/-- `create_file`; `none` is the null pointer. -/
def createFile (path : List Byte) : FsM (Option (Fin NR_INODE)) :=
  match getFileName path with
  | none => pure none
  | some name => do
      let s ← get
      let root := s.rootInode
      let dev := (s.inodeTable root).dev
      let nr ← allocInodeMapBit dev
      let start ← allocSectMapBit dev NR_FILE_SECTS
      let i ← makeNewInode dev nr start
      let s ← get
      makeNewDirEntry root (s.inodeTable i).nr name
      pure (some i)

/-! ## Opening -/

/-- The part of `do_open` that finds or makes the inode; `none` where it
    returns -1. -/
def findInode (path : List Byte) (flags : BitVec 32) :
    FsM (Option (Option (Fin NR_INODE))) := do
  let nr ← getFileInodeNr path
  if nr = INVALID_INODE then
    if flags &&& O_CREAT ≠ 0 then some <$> createFile path
    else pure none
  else if flags &&& O_RDWR ≠ 0 then
    if flags &&& O_CREAT ≠ 0 ∧ flags &&& O_TRUNC = 0 then do
      check (flags = O_RDWR ||| O_CREAT)
      pure none
    else do
      check (flags = O_RDWR ∨ flags = O_RDWR ||| O_TRUNC ∨
        flags = O_RDWR ||| O_TRUNC ||| O_CREAT)
      match getFileName path with
      | none => pure none
      | some _ => do
          let s ← get
          some <$> getFileInode (s.inodeTable s.rootInode).dev nr
  else pure none

/-- `if (flags & O_TRUNC)`. -/
def truncInode (flags : BitVec 32) (p : Option (Fin NR_INODE)) : FsM Unit :=
  if flags &&& O_TRUNC = 0 then pure ()
  else
    match p with
    | none => throw .assertionFailure
    | some i => do
        modify fun s => s.updInode i fun p => { p with fileSize := 0 }
        writeInode i

/-- The checks on the type of the inode; DEV_OPEN goes to TTY. -/
def checkType (i : Fin NR_INODE) : FsM Unit := do
  let s ← get
  let p := s.inodeTable i
  if p.fileType &&& TYPE_MASK = TYPE_SPECIAL_CHAR then
    check (p.sectStart >>> 8 &&& 0xFF = 4)
  else if p.fileType &&& TYPE_MASK = TYPE_DIRECTORY then
    check (p.nr = ROOT_INODE_NR)
  else check (p.fileType = TYPE_REGULAR)

/-- The first free entry of `file_desc` of the process. -/
def freeFd (s : Fs) (pid : Int) : Option (Fin NR_FILES) :=
  (List.finRange NR_FILES).find? fun k => (s.fileDesc pid k).isNone

/-- The first free entry of `file_desc_table`. -/
def freeDesc (s : Fs) : Option (Fin NR_FILE_DESC) :=
  (List.finRange NR_FILE_DESC).find? fun d => (s.fileDescTable d).inode.isNone

/-- The descriptor `fd` of the process gets the inode. -/
def connect (s : Fs) (pid : Int) (fd : Fin NR_FILES) (d : Fin NR_FILE_DESC)
    (i : Fin NR_INODE) (flags : BitVec 32) : Fs :=
  { s with
    fileDescTable := Function.update s.fileDescTable d
      { mode := flags, pos := 0, cnt := 1, inode := some i }
    fileDesc := Function.update s.fileDesc pid
      (Function.update (s.fileDesc pid) fd (some d)) }

/-- The part of `do_open` behind the inode. -/
def openInode (pid : Int) (fd : Fin NR_FILES) (flags : BitVec 32)
    (p : Option (Fin NR_INODE)) : FsM Int := do
  truncInode flags p
  let s ← get
  match freeDesc s with
  | none => throw .panic
  | some d =>
      match p with
      | none => pure (-1)
      | some i => do
          modify fun s => connect s pid fd d i flags
          checkType i
          pure (fd.val : Int)

/-- `do_open`, with the characters that were copied from PATHNAME. -/
def doOpen (pid : Int) (pathname : List Byte) (flags : BitVec 32) :
    FsM Int := do
  check (pathname.length < MAX_PATH)
  let path := pathname.takeWhile (· ≠ 0)
  let s ← get
  match freeFd s pid with
  | none => throw .panic
  | some fd => do
      let r ← findInode path flags
      match r with
      | none => pure (-1)
      | some p => openInode pid fd flags p

/-! ## Runs that end -/

section Runs

variable {s s' : Fs} {dev nr start : Int} {i root : Fin NR_INODE}

theorem openByte_none {b : Nat → Byte} : ∀ {left j : Nat},
    openByte b left j = none → AllSet b (8 * j) (8 * (j + left)) := by
  intro left
  induction left with
  | zero => intro j _ y h₁ h₂; omega
  | succ left ih =>
      intro j h
      rw [openByte] at h
      split at h
      · rename_i hfull
        rcases byte_cases b j with ⟨-, hset⟩ | ⟨hne, -⟩
        · rw [allSet_skip hset (by omega)]
          have hrest := ih h
          rwa [show j + 1 + left = j + (left + 1) by omega] at hrest
        · exact absurd hfull hne
      · cases h

theorem openByte_some {b : Nat → Byte} {k : Nat} : ∀ {left j : Nat},
    openByte b left j = some k →
    j ≤ k ∧ k < j + left ∧ lowestClear (b k) 8 0 < 8 ∧
      FirstClear b (8 * j) (8 * (j + left))
        (8 * k + lowestClear (b k) 8 0) := by
  intro left
  induction left with
  | zero => intro j h; cases h
  | succ left ih =>
      intro j h
      rw [openByte] at h
      split at h
      · rename_i hfull
        obtain ⟨h₁, h₂, hlt, hfirst⟩ := ih h
        rcases byte_cases b j with ⟨-, hset⟩ | ⟨hne, -⟩
        · rw [show j + 1 + left = j + (left + 1) by omega] at hfirst
          exact ⟨by omega, by omega, hlt,
            (firstClear_skip hset (by omega)).mpr hfirst⟩
        · exact absurd hfull hne
      · rename_i hne
        cases h
        rcases byte_cases b k with ⟨hfull, -⟩ | ⟨-, h₁, h₂, h₃, h₄⟩
        · exact absurd hfull hne
        · exact ⟨Nat.le_refl _, by omega, by omega, h₁, by omega, h₃, h₄⟩

/-- **THE FIRST CLEAR BIT** of the first sector of the inode map is set and
    returned; with none the result is 0. -/
theorem run_allocInodeMapBit (h : allocInodeMapBit dev s = .ok nr s') :
    (nr = 0 ∧ AllSet (drop (s.disk dev) 1024) 0 4096 ∧
      ∃ g, s' = { s with fsbuf := g }) ∨
    ∃ b f' g, FirstClear (drop (s.disk dev) 1024) 0 4096 b ∧ nr = (b : Nat) ∧
      Marks (s.disk dev) f' (8 * 1024 + b) 1 ∧
      s' = { s with
        disk := Function.update s.disk dev f'
        writes := s.writes ++ [(dev, 2, 1)]
        fsbuf := g } := by
  simp only [allocInodeMapBit, run_bind, run_getSuperBlock] at h
  obtain ⟨sb, _, ⟨-, rfl⟩, h⟩ := h
  split at h
  · cases h
  · simp only [run_bind, run_rdSects, run_get] at h
    obtain ⟨-, _, ⟨-, rfl⟩, _, _, ⟨rfl, rfl⟩, h⟩ := h
    have hread : ∀ y, 0 ≤ y → y < 4096 →
        bit (put s.fsbuf 0 (512 * 1) (drop (s.disk dev) (512 * (2 : Int).toNat)))
          y = bit (drop (s.disk dev) 1024) y := by
      intro y _ hy
      rw [bit, put_of_in (by omega), bit, Nat.sub_zero]
      rfl
    cases hopen : openByte (put s.fsbuf 0 (512 * 1)
        (drop (s.disk dev) (512 * (2 : Int).toNat))) 512 0 with
    | none =>
        rw [hopen] at h
        cases h
        refine Or.inl ⟨rfl, fun y h₁ h₂ => ?_, _, rfl⟩
        rw [← hread y h₁ h₂]
        exact openByte_none hopen y h₁ h₂
    | some j =>
        rw [hopen] at h
        simp only [run_bind, run_setBuf, run_wrSects, run_pure,
          EStateM.Result.ok.injEq] at h
        obtain ⟨-, _, rfl, -, _, ⟨-, rfl⟩, rfl, rfl⟩ := h
        obtain ⟨h₀, hj, hlt, h₁, h₂, h₃, h₄⟩ := openByte_some hopen
        generalize hB : put s.fsbuf 0 (512 * 1)
          (drop (s.disk dev) (512 * (2 : Int).toNat)) = B at *
        generalize hk : lowestClear (B j) 8 0 = k at *
        have hmark := marks_block (f := s.disk dev) (a := 1024) (m := 512)
          (fun y hy => (hread y (Nat.zero_le _) hy).trans (bit_drop ..))
          (marks_one (f := B) (j := j) hlt) (by omega)
        have hfirst : FirstClear (drop (s.disk dev) 1024) 0 4096 (8 * j + k) := by
          refine ⟨by omega, by omega, ?_, fun y h₅ h₆ => ?_⟩
          · rw [← hread _ (by omega) (by omega), h₃]
          · rw [← hread _ h₅ (by omega)]
            exact h₄ y (by omega) h₆
        exact Or.inr ⟨8 * j + k, _, _, hfirst, by omega, hmark, rfl⟩

theorem run_makeNewInode (h : makeNewInode dev nr start s = .ok i s') :
    nr ≠ 0 ∧ ∃ t sb, getFileInode dev nr s = .ok (some i) t ∧
      t.superOf dev = some sb ∧ Stored sb nr ∧
      s' = (t.updInode i fun _ => newInode dev nr start).written i sb := by
  obtain ⟨p, t, hget, h⟩ := run_bind.mp h
  cases p with
  | none => cases h
  | some j =>
      obtain ⟨_, _, hmod, h⟩ := run_bind.mp h
      obtain rfl := run_modify.mp hmod
      obtain ⟨_, u, hw, h⟩ := run_bind.mp h
      cases h
      obtain ⟨sb, hsb, hst, rfl⟩ := run_writeInode.mp hw
      rw [updInode_self] at hsb hst
      refine ⟨?_, t, sb, hget, hsb, hst, rfl⟩
      rintro rfl
      rw [getFileInode, if_pos rfl] at hget
      cases hget

/-! ### The slot of a new entry -/

/-- What the loop over the entries of a sector has seen, when it starts at
    entry `j` of the sector with `de_idx` entries behind it. -/
theorem slotEntries_cases {entries : Int} {b : Nat → Byte} :
    ∀ (left : Nat) {j : Nat} {deIdx : Int}, deIdx ≤ entries →
      match slotEntries entries b left j deIdx with
      | .free k => j ≤ k ∧ k < j + left ∧ deIdx + (k - j : Nat) < entries ∧
          word b (16 * k) = 0 ∧ ∀ l, j ≤ l → l < k → word b (16 * l) ≠ 0
      | .last k => j ≤ k ∧ k < j + left ∧ deIdx + (k - j : Nat) = entries ∧
          ∀ l, j ≤ l → l < k → word b (16 * l) ≠ 0
      | .next d => d = deIdx + left ∧ d ≤ entries ∧
          ∀ l, j ≤ l → l < j + left → word b (16 * l) ≠ 0 := by
  intro left
  induction left with
  | zero =>
      intro j deIdx hle
      exact ⟨by omega, hle, fun l h₁ h₂ => by omega⟩
  | succ left ih =>
      intro j deIdx hle
      rw [slotEntries]
      by_cases hlast : entries < deIdx + 1
      · rw [if_pos hlast]
        exact ⟨Nat.le_refl _, by omega, by omega, fun l h₁ h₂ => by omega⟩
      · rw [if_neg hlast]
        by_cases hfree : word b (16 * j) = 0
        · rw [if_pos hfree]
          exact ⟨Nat.le_refl _, by omega, by omega, hfree,
            fun l h₁ h₂ => by omega⟩
        · rw [if_neg hfree]
          have hused : ∀ l k, (∀ l, j + 1 ≤ l → l < k → word b (16 * l) ≠ 0) →
              j ≤ l → l < k → word b (16 * l) ≠ 0 := by
            intro l k hk h₁ h₂
            rcases Nat.lt_or_eq_of_le h₁ with hlt | rfl
            · exact hk l hlt h₂
            · exact hfree
          have hrest := ih (j := j + 1) (show deIdx + 1 ≤ entries by omega)
          cases hs : slotEntries entries b left (j + 1) (deIdx + 1) with
          | free k =>
              rw [hs] at hrest
              obtain ⟨h₁, h₂, h₃, h₄, h₅⟩ := hrest
              exact ⟨by omega, by omega, by omega, h₄,
                fun l h₆ h₇ => hused l k h₅ h₆ h₇⟩
          | last k =>
              rw [hs] at hrest
              obtain ⟨h₁, h₂, h₃, h₅⟩ := hrest
              exact ⟨by omega, by omega, by omega,
                fun l h₆ h₇ => hused l k h₅ h₆ h₇⟩
          | next d =>
              rw [hs] at hrest
              obtain ⟨h₁, h₂, h₅⟩ := hrest
              refine ⟨by omega, h₂, fun l h₆ h₇ => ?_⟩
              exact hused l (j + 1 + left) h₅ h₆ (by omega)

/-- **THE SLOT** of a new entry: the first free entry, or else the one behind
    the end, as long as the sectors that are looked at reach behind it. -/
theorem run_slotSects {sect0 entries : Int} {total : Nat} {r : Nat × Nat × Bool}
    (htotal : entries < (32 * total : Nat)) :
    ∀ {left i : Nat} {s : Fs}, i + left = total → ((32 * i : Nat) : Int) ≤ entries →
      slotSects dev sect0 entries left i (32 * i : Nat) s = .ok r s' →
      i ≤ r.1 ∧ r.1 < total ∧ r.2.1 < 32 ∧ Addressed (sect0 + r.1) ∧
        (∃ b, s' = { s with
          fsbuf := put b 0 512
            (drop (s.disk dev) (512 * (sect0 + r.1).toNat)) }) ∧
        (if r.2.2 then dirEntry (s.disk dev) sect0 (32 * r.1 + r.2.1) = 0 ∧
            ((32 * r.1 + r.2.1 : Nat) : Int) < entries
          else ((32 * r.1 + r.2.1 : Nat) : Int) = entries) ∧
        ∀ k, 32 * i ≤ k → k < 32 * r.1 + r.2.1 →
          dirEntry (s.disk dev) sect0 k ≠ 0 := by
  intro left
  induction left with
  | zero =>
      intro i s hi hle
      omega
  | succ left ih =>
      intro i s hi hle h
      simp only [slotSects, run_bind, run_rdSects, run_get] at h
      obtain ⟨-, _, ⟨haddr, rfl⟩, _, _, ⟨rfl, rfl⟩, h⟩ := h
      generalize hB : put s.fsbuf 0 (512 * 1)
        (drop (s.disk dev) (512 * (sect0 + i).toNat)) = B at h
      have hentry : ∀ j < 32, (word B (16 * j)).toInt =
          dirEntry (s.disk dev) sect0 (32 * i + j) := by
        intro j hj
        rw [dirEntry, entryNr, show (32 * i + j) / 32 = i by omega,
          show (32 * i + j) % 32 = j by omega]
        congr 1
        refine word_congr fun k hk => ?_
        rw [← hB, put_of_in (by omega), Nat.sub_zero]
      have hused : ∀ j, j ≤ 32 → (∀ l, 0 ≤ l → l < j → word B (16 * l) ≠ 0) →
          ∀ k, 32 * i ≤ k → k < 32 * i + j →
            dirEntry (s.disk dev) sect0 k ≠ 0 := by
        intro j hj hall k h₁ h₂ hz
        refine hall (k - 32 * i) (Nat.zero_le _) (by omega) ?_
        refine BitVec.eq_of_toInt_eq ?_
        rw [hentry _ (by omega), show 32 * i + (k - 32 * i) = k by omega, hz]
        rfl
      have hcases := slotEntries_cases (b := B) 32 (j := 0) hle
      -- a free entry in this sector, the end of the directory in it, or 32
      -- used entries and the next sector
      cases hs : slotEntries entries B 32 0 (32 * i : Nat) with
      | free k =>
          rw [hs] at h hcases
          obtain ⟨-, hk, hlt, hz, hall⟩ := hcases
          cases h
          refine ⟨Nat.le_refl _, by omega, by omega, haddr,
            ⟨s.fsbuf, by rw [← hB]⟩, ?_, ?_⟩
          · rw [if_pos rfl]
            dsimp only
            rw [← hentry k (by omega), hz]
            exact ⟨rfl, by omega⟩
          · exact hused k (by omega) hall
      | last k =>
          rw [hs] at h hcases
          obtain ⟨-, hk, heq, hall⟩ := hcases
          cases h
          refine ⟨Nat.le_refl _, by omega, by omega, haddr,
            ⟨s.fsbuf, by rw [← hB]⟩, ?_, ?_⟩
          · rw [if_neg (fun h => Bool.noConfusion h)]
            dsimp only
            omega
          · exact hused k (by omega) hall
      | next d =>
          rw [hs] at h hcases
          obtain ⟨hd, hle', hall⟩ := hcases
          rw [hd, show ((32 * i : Nat) : Int) + (32 : Nat) =
            ((32 * (i + 1) : Nat) : Int) by omega] at h
          obtain ⟨h₁, h₂, h₃, h₄, ⟨b, hb⟩, h₅, h₆⟩ :=
            ih (by omega) (by omega) h
          refine ⟨by omega, h₂, h₃, h₄, ⟨b, hb⟩, h₅, fun k h₇ h₈ => ?_⟩
          rcases Nat.lt_or_ge k (32 * (i + 1)) with hlt | hge
          · exact hused 32 (Nat.le_refl _) hall k h₇ (by omega)
          · exact h₆ k hge h₈

section Entry

variable {b : Nat → Byte} {o y k : Nat} {n : Int} {name : List Byte}

/-- The new entry has no bytes but those of the number, the name and a NUL. -/
theorem putEntry_of_out (h : y < o ∨ o + 5 + name.length ≤ y) :
    putEntry b o n name y = b y := by
  rw [putEntry, put_of_out (by omega), putWord, put_of_out (by omega)]

theorem putEntry_nr (hk : k < 4) :
    putEntry b o n name (o + k) = bytesOf (BitVec.ofInt 32 n) k := by
  rw [putEntry, put_of_out (by omega), putWord, put_at hk]

theorem putEntry_name (hk : k ≤ name.length) :
    putEntry b o n name (o + 4 + k) = name.getD k 0 := by
  rw [putEntry, put_at (by omega)]

theorem putEntry_nul (h : o + 4 + name.length = y) :
    putEntry b o n name y = 0 := by
  rw [← h, putEntry_name (Nat.le_refl _), List.getD_eq_getElem?_getD,
    List.getElem?_eq_none (Nat.le_refl _)]
  rfl

theorem putEntry_apply : putEntry b o n name y =
    if o ≤ y ∧ y < o + 4 then bytesOf (BitVec.ofInt 32 n) (y - o)
    else if o + 4 ≤ y ∧ y < o + 5 + name.length then name.getD (y - o - 4) 0
    else b y := by
  by_cases hnr : o ≤ y ∧ y < o + 4
  · obtain ⟨k, rfl⟩ := Nat.exists_eq_add_of_le hnr.1
    rw [if_pos hnr, putEntry_nr (by omega), Nat.add_sub_cancel_left]
  · rw [if_neg hnr]
    by_cases hname : o + 4 ≤ y ∧ y < o + 5 + name.length
    · obtain ⟨k, rfl⟩ := Nat.exists_eq_add_of_le hname.1
      rw [if_pos hname, putEntry_name (by omega), Nat.sub_sub,
        Nat.add_sub_cancel_left]
    · rw [if_neg hname, putEntry_of_out (by omega)]

end Entry

/-- The root directory with one entry more, unless that was a free one. -/
def grown (free : Bool) (p : Inode) : Inode :=
  if free then p else { p with fileSize := p.fileSize + 16 }

theorem run_growRoot {free : Bool} {u : Unit} :
    growRoot root free s = .ok u s' ↔ s' = s.updInode root (grown free) := by
  cases free with
  | false =>
      rw [growRoot, if_neg (fun h => Bool.noConfusion h), run_modify]
      rfl
  | true =>
      rw [growRoot, if_pos rfl, run_pure]
      have hsame : s.updInode root (grown true) = s := by
        rw [Fs.updInode, grown, if_pos rfl, Function.update_eq_self]
      rw [hsame]
      constructor
      · intro h; cases h; rfl
      · rintro rfl; rfl

/-- **THE NEW ENTRY**: the sector of the slot is written with the entry in it,
    and then the inode of the root directory. -/
theorem run_makeNewDirEntry {name : List Byte} {u : Unit} {p : Inode}
    {entries : Int} {total : Nat} (hp : s.inodeTable root = p)
    (hentries : (p.fileSize / 16).toInt = entries)
    (htotal : ((p.fileSize + 512) / 512).toInt = total) (h0 : 0 ≤ entries)
    (hlt : entries < (32 * total : Nat))
    (h : makeNewDirEntry root nr name s = .ok u s') :
    ∃ i j free b g t, i < total ∧ j < 32 ∧ Addressed (p.sectStart.toInt + i) ∧
      (if free = true then
          dirEntry (s.disk p.dev) p.sectStart.toInt (32 * i + j) = 0 ∧
            ((32 * i + j : Nat) : Int) < entries
        else ((32 * i + j : Nat) : Int) = entries) ∧
      (∀ k, k < 32 * i + j →
        dirEntry (s.disk p.dev) p.sectStart.toInt k ≠ 0) ∧
      t = { s.updInode root (grown free) with
        disk := Function.update s.disk p.dev
          (put (s.disk p.dev) (512 * (p.sectStart.toInt + i).toNat) 512
            (putEntry (put b 0 512 (drop (s.disk p.dev)
              (512 * (p.sectStart.toInt + i).toNat))) (16 * j) nr name))
        writes := s.writes ++ [(p.dev, (p.sectStart.toInt + i).toNat, 1)]
        fsbuf := g } ∧
      writeInode root t = .ok () s' := by
  subst hp hentries
  simp only [makeNewDirEntry, run_bind, run_get, run_growRoot, run_setBuf,
    run_wrSects] at h
  obtain ⟨_, _, ⟨rfl, rfl⟩, r, _, hslot, -, _, rfl, -, _, rfl, -, _,
    ⟨haddr, rfl⟩, hw⟩ := h
  rw [htotal, Int.toNat_natCast] at hslot
  obtain ⟨-, h₁, h₂, h₃, ⟨b, rfl⟩, h₄, h₅⟩ := run_slotSects hlt
    (Nat.zero_add _) (by omega) hslot
  exact ⟨r.1, r.2.1, r.2.2, b, _, _, h₁, h₂, h₃, h₄,
    fun k hk => h₅ k (Nat.zero_le _) hk, rfl, hw⟩

end Runs

end KosOpenFile
