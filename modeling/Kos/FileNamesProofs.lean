import Kos.FileSystemProofs

/-! # File names

    `task/fs/misc.c`: the name in a path, and the search of the root directory
    for it.

    * The name is the first twelve characters of the path, and no more of it
      are looked at (`getFileName_spec`);
    * the search leaves everything as it was but `fsbuf`, and what it returns
      stands in an entry of the directory's sectors (`run_getFileInodeNr`). -/

namespace KosFileNames

open FlatMemory (Byte)
open Overlay
open KosFs

/-- The bytes of a path and of a name. -/
def MAX_PATH : Nat := 128
def MAX_FILENAME_LEN : Nat := 12

/-- The character that parts names. -/
def slash : Byte := 0x2F

/-! ## The functions -/

/-- The loop of `get_file_name`, with room for `left` more characters; `none`
    is the return value -1. -/
def copyName : Nat → List Byte → Option (List Byte)
  | 0, _ => some []
  | _ + 1, [] => some []
  | left + 1, c :: s =>
      if c = slash then none else (c :: ·) <$> copyName left s

/-- `get_file_name`, of the characters of a path. -/
def getFileName (path : List Byte) : Option (List Byte) :=
  copyName MAX_FILENAME_LEN
    (if path.head? = some slash then path.tail else path)

/-- `memcmp(file_name, p_de->name, MAX_FILENAME_LEN) == 0`, for the entry at
    offset `o`. -/
def sameName (name : List Byte) (b : Nat → Byte) (o : Nat) : Bool :=
  (List.range MAX_FILENAME_LEN).all fun k => name.getD k 0 == b (o + 4 + k)

/-- `p_de->inode_nr`. -/
def entryNr (b : Nat → Byte) (o : Nat) : Int := (word b o).toInt

/-- The loop on `j`, with `left` entries of the sector left: the number that
    was found, or `de_idx`. -/
def searchEntries (name : List Byte) (nrDirEntries : Int) (b : Nat → Byte) :
    Nat → Nat → Int → Int ⊕ Int
  | 0, _, deIdx => .inr deIdx
  | left + 1, j, deIdx =>
      if sameName name b (16 * j) then .inl (entryNr b (16 * j))
      else if nrDirEntries < deIdx + 1 then .inr (deIdx + 1)
      else searchEntries name nrDirEntries b left (j + 1) (deIdx + 1)

/-- The loop on `i`, with `left` sectors of the directory left. -/
def searchSects (name : List Byte) (dev sect0 nrDirEntries : Int) :
    Nat → Nat → Int → FsM Int
  | 0, _, _ => pure INVALID_INODE
  | left + 1, i, deIdx => do
      rdSects dev (sect0 + i) 1
      let s ← get
      match searchEntries name nrDirEntries s.fsbuf 32 0 deIdx with
      | .inl nr => pure nr
      | .inr deIdx =>
          if nrDirEntries < deIdx then pure INVALID_INODE
          else searchSects name dev sect0 nrDirEntries left (i + 1) deIdx

/-- `get_file_inode_nr`. -/
def getFileInodeNr (path : List Byte) : FsM Int :=
  match getFileName path with
  | none => pure INVALID_INODE
  | some name => do
      let s ← get
      let root := s.inodeTable s.rootInode
      let nrRootDirSects := ((root.fileSize + 511) / 512).toInt
      let nrDirEntries := (root.fileSize / 16).toInt
      if name.getD 0 0 = 0 then pure root.nr
      else
        searchSects name root.dev root.sectStart.toInt nrDirEntries
          nrRootDirSects.toNat 0 0

/-! ## The names of paths -/

/-- The path without its leading slash. -/
def stem (path : List Byte) : List Byte :=
  if path.head? = some slash then path.tail else path

section Names

variable {path name : List Byte}

theorem copyName_eq (left : Nat) (s : List Byte) :
    copyName left s = if slash ∈ s.take left then none else some (s.take left) := by
  induction left generalizing s with
  | zero => rfl
  | succ left ih =>
      cases s with
      | nil => rfl
      | cons c s =>
          rw [copyName, ih, List.take_succ_cons]
          by_cases hc : c = slash
          · rw [if_pos hc, if_pos (by rw [hc]; exact List.mem_cons_self ..)]
          · rw [if_neg hc]
            by_cases hs : slash ∈ s.take left
            · rw [if_pos hs, if_pos (List.mem_cons_of_mem _ hs)]
              rfl
            · have hno : slash ∉ c :: s.take left := by
                rw [List.mem_cons, not_or]
                exact ⟨fun h => hc h.symm, hs⟩
              rw [if_neg hs, if_neg hno]
              rfl

/-- The name is the first twelve characters, if there is no slash in them. -/
theorem getFileName_eq (path : List Byte) :
    getFileName path = if slash ∈ (stem path).take MAX_FILENAME_LEN then none
      else some ((stem path).take MAX_FILENAME_LEN) :=
  copyName_eq MAX_FILENAME_LEN (stem path)

theorem getFileName_some : getFileName path = some name ↔
    slash ∉ (stem path).take MAX_FILENAME_LEN ∧
      (stem path).take MAX_FILENAME_LEN = name := by
  rw [getFileName_eq]
  by_cases h : slash ∈ (stem path).take MAX_FILENAME_LEN
  · rw [if_pos h]
    constructor
    · intro hr; cases hr
    · rintro ⟨hn, -⟩; exact absurd h hn
  · rw [if_neg h, Option.some.injEq]
    constructor
    · intro hr; exact ⟨h, hr⟩
    · rintro ⟨-, hr⟩; exact hr

theorem length_getFileName (h : getFileName path = some name) :
    name.length ≤ MAX_FILENAME_LEN := by
  obtain ⟨-, rfl⟩ := getFileName_some.mp h
  exact List.length_take_le ..

/-- The characters of the name are some of the path. -/
theorem mem_of_name {c : Byte} (h : getFileName path = some name)
    (hc : c ∈ name) : c ∈ path := by
  obtain ⟨-, rfl⟩ := getFileName_some.mp h
  have hstem := List.mem_of_mem_take hc
  rw [stem] at hstem
  split at hstem
  · exact List.mem_of_mem_tail hstem
  · exact hstem

/-- What `get_file_name` makes of a path and of two paths: the first twelve
    characters decide whether it is accepted and are the name, so that two
    names alias exactly when they begin with the same twelve, and none of at
    most twelve characters does. -/
structure PathSpec (p q : List Byte) : Prop where
  accepted : (getFileName p).isSome = true ↔
    slash ∉ (stem p).take MAX_FILENAME_LEN
  name : ∀ n, getFileName p = some n → n = (stem p).take MAX_FILENAME_LEN
  same : ∀ n, getFileName p = some n → (getFileName q = some n ↔
    (stem q).take MAX_FILENAME_LEN = (stem p).take MAX_FILENAME_LEN)
  distinct : ∀ n, getFileName p = some n → getFileName q = some n →
    (stem p).length ≤ MAX_FILENAME_LEN → (stem q).length ≤ MAX_FILENAME_LEN →
    stem p = stem q

/-- **PATHS** are what their first twelve characters are. -/
theorem getFileName_spec (p q : List Byte) : PathSpec p q := by
  refine ⟨?_, fun n hn => (getFileName_some.mp hn).2.symm, fun n hn => ?_,
    fun n hp hq hlp hlq => ?_⟩
  · rw [Option.isSome_iff_exists]
    constructor
    · rintro ⟨n, hn⟩
      exact (getFileName_some.mp hn).1
    · intro h
      exact ⟨_, getFileName_some.mpr ⟨h, rfl⟩⟩
  · obtain ⟨hno, rfl⟩ := getFileName_some.mp hn
    constructor
    · intro hq
      exact (getFileName_some.mp hq).2
    · intro heq
      refine getFileName_some.mpr ⟨?_, heq⟩
      rw [heq]
      exact hno
  · obtain ⟨-, rfl⟩ := getFileName_some.mp hp
    obtain ⟨-, heq⟩ := getFileName_some.mp hq
    rw [List.take_of_length_le hlp, List.take_of_length_le hlq] at heq
    exact heq.symm

/-- The thirteenth character is not looked at: it can be a slash, and two names
    that differ there are one. -/
theorem getFileName_truncates :
    ¬ ∀ p q : List Byte, p.length < MAX_PATH → q.length < MAX_PATH →
      0 ∉ p → 0 ∉ q →
      ((getFileName p).isSome = true ↔ slash ∉ stem p) ∧
        ∀ n, getFileName p = some n → getFileName q = some n →
          stem p = stem q := by
  intro hall
  have hp := hall (List.replicate 12 0x61 ++ [slash])
    (List.replicate 12 0x61 ++ [slash]) (by decide) (by decide) (by decide)
    (by decide)
  have hpq := hall (List.replicate 13 0x61) (List.replicate 12 0x61 ++ [0x62])
    (by decide) (by decide) (by decide) (by decide)
  have hslash := hp.1.mp (by decide)
  have hsame := hpq.2 (List.replicate 12 0x61) (by decide) (by decide)
  exact absurd hsame (by decide)

end Names

/-! ## The search -/

section Search

variable {s s' : Fs} {name path : List Byte} {dev sect0 entries nr : Int}

theorem searchEntries_inl {b : Nat → Byte} : ∀ {left j : Nat} {deIdx : Int},
    searchEntries name entries b left j deIdx = .inl nr →
    ∃ k, j ≤ k ∧ k < j + left ∧ nr = entryNr b (16 * k) := by
  intro left
  induction left with
  | zero => intro j deIdx h; cases h
  | succ left ih =>
      intro j deIdx h
      rw [searchEntries] at h
      split at h
      · cases h
        exact ⟨j, Nat.le_refl _, by omega, rfl⟩
      · split at h
        · cases h
        · obtain ⟨k, h₁, h₂, hk⟩ := ih h
          exact ⟨k, by omega, by omega, hk⟩

/-- The entry `k` of a directory. -/
def dirEntry (f : Nat → Byte) (sect0 : Int) (k : Nat) : Int :=
  entryNr (drop f (512 * (sect0 + (k / 32 : Nat)).toNat)) (16 * (k % 32))

/-- The search only reads; what it finds is the number in some entry. -/
theorem run_searchSects : ∀ {left i : Nat} {deIdx : Int} {s : Fs},
    searchSects name dev sect0 entries left i deIdx s = .ok nr s' →
    (∃ g, s' = { s with fsbuf := g }) ∧ (nr = INVALID_INODE ∨
      ∃ k, k < 32 * (i + left) ∧ nr = dirEntry (s.disk dev) sect0 k) := by
  intro left
  induction left with
  | zero =>
      intro i deIdx s h
      rw [searchSects, run_pure] at h
      cases h
      exact ⟨⟨s'.fsbuf, rfl⟩, Or.inl rfl⟩
  | succ left ih =>
      intro i deIdx s h
      simp only [searchSects, run_bind, run_rdSects, run_get] at h
      obtain ⟨-, _, ⟨-, rfl⟩, _, _, ⟨rfl, rfl⟩, h⟩ := h
      cases hsearch : searchEntries name entries (put s.fsbuf 0 (512 * 1)
          (drop (s.disk dev) (512 * (sect0 + i).toNat))) 32 0 deIdx with
      | inl found =>
          rw [hsearch] at h
          cases h
          refine ⟨⟨_, rfl⟩, Or.inr ?_⟩
          obtain ⟨j, -, hj, rfl⟩ := searchEntries_inl hsearch
          refine ⟨32 * i + j, by omega, ?_⟩
          rw [dirEntry, show (32 * i + j) / 32 = i by omega,
            show (32 * i + j) % 32 = j by omega, entryNr, entryNr]
          exact congrArg BitVec.toInt (word_congr fun k hk => by
            rw [put_of_in (by omega), Nat.sub_zero])
      | inr d =>
          rw [hsearch] at h
          dsimp only at h
          split at h
          · cases h
            exact ⟨⟨_, rfl⟩, Or.inl rfl⟩
          · obtain ⟨⟨g, rfl⟩, hnr⟩ := ih h
            refine ⟨⟨g, rfl⟩, ?_⟩
            rcases hnr with hnr | ⟨k, hk, hnr⟩
            · exact Or.inl hnr
            · exact Or.inr ⟨k, by omega, hnr⟩

/-- **THE SEARCH** finds nothing, the root directory itself, or the number in
    an entry of one of its sectors. -/
theorem run_getFileInodeNr (h : getFileInodeNr path s = .ok nr s') :
    (∃ g, s' = { s with fsbuf := g }) ∧ (nr = INVALID_INODE ∨
      nr = (s.inodeTable s.rootInode).nr ∨ ∃ k,
        k < 32 * (((s.inodeTable s.rootInode).fileSize + 511) / 512
          ).toInt.toNat ∧
        nr = dirEntry (s.disk (s.inodeTable s.rootInode).dev)
          (s.inodeTable s.rootInode).sectStart.toInt k) := by
  rw [getFileInodeNr] at h
  cases hname : getFileName path with
  | none =>
      rw [hname] at h
      cases h
      exact ⟨⟨s.fsbuf, rfl⟩, Or.inl rfl⟩
  | some name =>
      rw [hname] at h
      dsimp only at h
      rw [run_get_bind] at h
      split at h
      · cases h
        exact ⟨⟨s.fsbuf, rfl⟩, Or.inr (Or.inl rfl)⟩
      · obtain ⟨hs, hnr⟩ := run_searchSects h
        rw [Nat.zero_add] at hnr
        exact ⟨hs, hnr.imp_right Or.inr⟩

end Search

end KosFileNames
