import Kos.InodeArrayProofs
import Kos.OpenFileProofs

/-! # The root directory

    The search of the directory for a name, and the new entry, on a partition
    that `mkfs` has made.

    * `firstNr` is the search in general: the number of the first entry that
      will do;
    * the loops of `get_file_inode_nr` look at the entry behind the end too,
      unless the sectors end there, and at all the bytes of a name
      (`getFileInodeNr_run`); the condition under which this changes nothing is
      exact (`lookup_iff`). -/

namespace KosRootDirectory

open FlatMemory (Byte)
open Overlay
open KosFs
open KosMkfs
open KosInodeArray
open KosFileNames

/-! ## Searching in order -/

/-- The number of the first of `left` entries from `k` on that will do. -/
def firstNr (p : Nat → Bool) (num : Nat → Int) : Nat → Nat → Int
  | 0, _ => INVALID_INODE
  | left + 1, k => if p k then num k else firstNr p num left (k + 1)

section First

variable {p : Nat → Bool} {num : Nat → Int} {a m n rest k : Nat}

/-- Entries that do not match are passed over. -/
theorem firstNr_skip (h : ∀ j, a ≤ j → j < a + m → p j = false) :
    firstNr p num (m + rest) a = firstNr p num rest (a + m) := by
  induction m generalizing a with
  | zero => rw [Nat.zero_add, Nat.add_zero]
  | succ m ih =>
      have ha : p a = false := h a (Nat.le_refl _) (by omega)
      rw [show m + 1 + rest = m + rest + 1 by omega, firstNr, ha,
        if_neg (fun h => Bool.noConfusion h),
        ih fun j h₁ h₂ => h j (by omega) (by omega),
        show a + 1 + m = a + (m + 1) by omega]

/-- The first match is the answer. -/
theorem firstNr_found (hk : a ≤ k) (hn : k < a + n) (hp : p k = true)
    (hmin : ∀ j, a ≤ j → j < k → p j = false) :
    firstNr p num n a = num k := by
  have hsplit : n = k - a + (n - (k - a)) := by omega
  rw [hsplit, firstNr_skip fun j h₁ h₂ => hmin j h₁ (by omega),
    show a + (k - a) = k by omega,
    show n - (k - a) = n - (k - a) - 1 + 1 by omega, firstNr, if_pos hp]

/-- Without a match the answer is `INVALID_INODE`. -/
theorem firstNr_none (h : ∀ j, a ≤ j → j < a + n → p j = false) :
    firstNr p num n a = INVALID_INODE := by
  have hskip : firstNr p num (n + 0) a = firstNr p num 0 (a + n) :=
    firstNr_skip h
  rw [Nat.add_zero] at hskip
  rw [hskip]
  rfl

variable (p) in
/-- Some entry is the first that will do, or none does. -/
theorem first_or_none (a n : Nat) :
    (∃ k, a ≤ k ∧ k < a + n ∧ p k = true ∧ ∀ j, a ≤ j → j < k → p j = false) ∨
      ∀ j, a ≤ j → j < a + n → p j = false := by
  induction n with
  | zero =>
      refine Or.inr fun j h₁ h₂ => ?_
      omega
  | succ n ih =>
      rcases ih with ⟨k, hk, hn, hfirst⟩ | hnone
      · exact Or.inl ⟨k, hk, by omega, hfirst⟩
      · cases hn : p (a + n) with
        | true => exact Or.inl ⟨a + n, by omega, by omega, hn, hnone⟩
        | false =>
            refine Or.inr fun j h₁ h₂ => ?_
            rcases Nat.lt_or_ge j (a + n) with hlt | hge
            · exact hnone j h₁ hlt
            · rwa [show j = a + n by omega]

/-- The first entry that will do has the number `c`; without one it is that of
    no inode. -/
def FirstIs (p : Nat → Bool) (num : Nat → Int) (n a : Nat) (c : Int) : Prop :=
  (∃ k, a ≤ k ∧ k < a + n ∧ p k = true ∧ (∀ j, a ≤ j → j < k → p j = false) ∧
      num k = c) ∨
    ((∀ j, a ≤ j → j < a + n → p j = false) ∧ c = INVALID_INODE)

/-- The search by its first match. -/
theorem firstNr_iff {c : Int} : firstNr p num n a = c ↔ FirstIs p num n a c := by
  rcases first_or_none p a n with ⟨k, hk, hn, hp, hmin⟩ | hnone
  · rw [firstNr_found hk hn hp hmin]
    constructor
    · intro h
      exact Or.inl ⟨k, hk, hn, hp, hmin, h⟩
    · rintro (⟨m, hm, -, hpm, hminm, h⟩ | ⟨hno, -⟩)
      · have heq : k = m := by
          rcases Nat.lt_trichotomy k m with hlt | heq | hlt
          · exact absurd (hp.symm.trans (hminm k hk hlt)) (by decide)
          · exact heq
          · exact absurd (hpm.symm.trans (hmin m hm hlt)) (by decide)
        rw [heq]
        exact h
      · exact absurd (hp.symm.trans (hno k hk hn)) (by decide)
  · rw [firstNr_none hnone]
    constructor
    · intro h
      exact Or.inr ⟨hnone, h.symm⟩
    · rintro (⟨m, hm, hlt, hpm, -⟩ | ⟨-, h⟩)
      · exact absurd (hpm.symm.trans (hnone m hm hlt)) (by decide)
      · exact h.symm

end First

/-! ## Names in the directory -/

/-- The string of at most `left` characters at `o`. -/
def cString (g : Nat → Byte) : Nat → Nat → List Byte
  | 0, _ => []
  | left + 1, o => if g o = 0 then [] else g o :: cString g left (o + 1)

/-- The name of the entry at offset `o`. -/
def entryName (g : Nat → Byte) (o : Nat) : List Byte :=
  cString g MAX_FILENAME_LEN (o + 4)

/-- The number of the entry `k` of a directory, and what its bytes are
    compared with. -/
def numAt (f : Nat → Byte) (k : Nat) : Int := entryNr f (16 * k)

/-- The comparison with the name in entry `k`. -/
def sameAt (name : List Byte) (f : Nat → Byte) (k : Nat) : Bool :=
  sameName name f (16 * k)

/-- The bytes of the name's field behind the name are NULs. -/
def Padded (g : Nat → Byte) (o : Nat) (name : List Byte) : Prop :=
  ∀ j, name.length ≤ j → j < MAX_FILENAME_LEN → g (o + 4 + j) = 0

section Strings

variable {g : Nat → Byte} {name : List Byte} {o left : Nat}

/-- A string that is followed by NULs, against a name filled up with them. -/
theorem cString_padded (hnul : 0 ∉ name) (hlen : name.length ≤ left) :
    (∀ k < left, name.getD k 0 = g (o + k)) ↔
      cString g left o = name ∧
        ∀ j, name.length ≤ j → j < left → g (o + j) = 0 := by
  induction left generalizing o name with
  | zero =>
      have hnil : name = [] := List.eq_nil_of_length_eq_zero (by omega)
      subst hnil
      constructor
      · intro _
        exact ⟨rfl, fun j _ hj => by omega⟩
      · intro _ k hk
        omega
  | succ left ih =>
      have hcons : ∀ c s, name = c :: s → ((∀ k < left + 1,
          name.getD k 0 = g (o + k)) ↔ c = g o ∧ ∀ k < left,
            s.getD k 0 = g (o + 1 + k)) := by
        rintro c s rfl
        constructor
        · intro h
          refine ⟨h 0 (by omega), fun k hk => ?_⟩
          rw [Nat.add_assoc, Nat.add_comm 1 k]
          exact h (k + 1) (by omega)
        · rintro ⟨h0, h⟩ k hk
          cases k with
          | zero => exact h0
          | succ k =>
              have := h k (by omega)
              rwa [Nat.add_assoc, Nat.add_comm 1 k] at this
      cases name with
      | nil =>
          constructor
          · intro h
            refine ⟨?_, fun j _ hj => (h j hj).symm⟩
            rw [cString, if_pos]
            exact (h 0 (by omega)).symm
          · rintro ⟨-, h⟩ k hk
            exact (h k (Nat.zero_le _) hk).symm
      | cons c s =>
          have hc : c ≠ 0 := fun h => hnul (h ▸ List.mem_cons_self ..)
          have hs : 0 ∉ s := fun h => hnul (List.mem_cons_of_mem _ h)
          rw [hcons c s rfl, ih hs (Nat.le_of_succ_le_succ hlen)]
          constructor
          · rintro ⟨rfl, hstr, hpad⟩
            refine ⟨?_, fun j h₁ h₂ => ?_⟩
            · rw [cString, if_neg hc, hstr]
            · rw [List.length_cons] at h₁
              have := hpad (j - 1) (by omega) (by omega)
              rwa [Nat.add_assoc, show 1 + (j - 1) = j by omega] at this
          · rintro ⟨hstr, hpad⟩
            rw [cString] at hstr
            split at hstr
            · cases hstr
            · injection hstr with h₁ h₂
              refine ⟨h₁.symm, h₂, fun j h₃ h₄ => ?_⟩
              have := hpad (j + 1) (by rw [List.length_cons]; omega) (by omega)
              rwa [Nat.add_assoc, Nat.add_comm 1 j]

/-- When the comparison of `memcmp` is that of the names. -/
theorem sameName_iff (hnul : 0 ∉ name)
    (hlen : name.length ≤ MAX_FILENAME_LEN) :
    sameName name g o = true ↔ entryName g o = name ∧ Padded g o name := by
  rw [entryName, Padded, ← cString_padded hnul hlen, sameName,
    List.all_eq_true]
  constructor
  · intro h k hk
    exact eq_of_beq (h k (List.mem_range.mpr hk))
  · intro h k hk
    rw [h k (List.mem_range.mp hk)]
    exact beq_self_eq_true _

end Strings

/-! ## The search of the directory -/

/-- The root directory where `mkfs` has put it, with no more bytes than its
    sectors hold. -/
structure RootDir (sb : SuperBlock) (p : Inode) : Prop where
  start : p.sectStart = sb.nr1stDataSect
  sects : p.nrSects = 2048
  size : p.fileSize.toNat ≤ 2048 * 512

/-- The bytes of the directory. -/
def dirBytes (s : Fs) (p : Inode) : Nat → Byte :=
  drop (s.disk p.dev) (512 * p.sectStart.toNat)

/-- The number of entries the search looks at: those of the directory, and one
    behind them if there is one in the last sector. -/
def looked (size : Nat) : Nat :=
  min (size / 16 + 1) (32 * ((size + 511) / 512))

section Search

variable {sb : SuperBlock} {s : Fs} {name : List Byte} {p : Nat → Bool}
  {num : Nat → Int}

variable (name p num) in
/-- The search through one sector. -/
theorem searchEntries_spec (b : Nat → Byte) (E base : Nat)
    (hp : ∀ l < 32, sameName name b (16 * l) = p (base + l))
    (hnum : ∀ l < 32, entryNr b (16 * l) = num (base + l)) :
    ∀ left j : Nat, j + left = 32 → base + j ≤ E →
      match searchEntries name E b left j (base + j : Nat) with
      | .inl nr => ∀ rest, firstNr p num
          (min left (E + 1 - (base + j)) + rest) (base + j) = nr
      | .inr d => d = (base + j + min left (E + 1 - (base + j)) : Nat) ∧
          ∀ rest, firstNr p num
            (min left (E + 1 - (base + j)) + rest) (base + j) =
              firstNr p num rest (base + j + min left (E + 1 - (base + j))) := by
  intro left
  induction left with
  | zero =>
      intro j hj hle
      rw [searchEntries, Nat.zero_min]
      exact ⟨rfl, fun rest => by rw [Nat.zero_add, Nat.add_zero]⟩
  | succ left ih =>
      intro j hj hle
      have hmin : min (left + 1) (E + 1 - (base + j)) =
          1 + min left (E + 1 - (base + (j + 1))) := by omega
      -- an entry that does not match is passed over
      have hone : ∀ m rest, p (base + j) = false →
          firstNr p num (1 + m + rest) (base + j) =
            firstNr p num (m + rest) (base + (j + 1)) := by
        intro m rest hfalse
        rw [show 1 + m + rest = m + rest + 1 by omega, firstNr, hfalse,
          if_neg (fun h => Bool.noConfusion h), Nat.add_assoc]
      rw [searchEntries, hp j (by omega), hnum j (by omega), hmin]
      by_cases hfound : p (base + j) = true
      · rw [if_pos hfound]
        intro rest
        rw [show 1 + min left (E + 1 - (base + (j + 1))) + rest =
          min left (E + 1 - (base + (j + 1))) + rest + 1 by omega, firstNr,
          if_pos hfound]
      · have hfalse := Bool.eq_false_iff.mpr hfound
        rw [if_neg hfound]
        by_cases hlast : (E : Int) < (base + j : Nat) + 1
        · rw [if_pos hlast, show min left (E + 1 - (base + (j + 1))) = 0 by
            omega]
          refine ⟨by omega, fun rest => ?_⟩
          rw [hone 0 rest hfalse, Nat.zero_add]
          rfl
        · rw [if_neg hlast, show ((base + j : Nat) : Int) + 1 =
            (base + (j + 1) : Nat) by omega]
          have hrest := ih (j + 1) (by omega) (by omega)
          cases hs : searchEntries name E b left (j + 1)
              (base + (j + 1) : Nat) with
          | inl nr =>
              rw [hs] at hrest
              exact fun rest => (hone _ rest hfalse).trans (hrest rest)
          | inr d =>
              rw [hs] at hrest
              obtain ⟨hd, hgo⟩ := hrest
              refine ⟨by omega, fun rest => ?_⟩
              rw [hone _ rest hfalse, hgo rest]
              congr 1
              omega

/-- The entries of a sector that was read are those of the directory. -/
theorem sector_entry {f b : Nat → Byte} {start i l o : Nat} (hl : l < 32)
    (ho : o < 16) :
    put b 0 512 (drop f (512 * (start + i))) (16 * l + o) =
      drop f (512 * start) (16 * (32 * i + l) + o) := by
  rw [put_of_in (by omega), drop, drop, Nat.sub_zero]
  congr 1
  omega

/-- The comparison reads the 16 bytes of the entry. -/
theorem sameName_congr {b b' : Nat → Byte} {o o' : Nat}
    (h : ∀ k < 16, b (o + k) = b' (o' + k)) :
    sameName name b o = sameName name b' o' := by
  rw [sameName, sameName, Bool.eq_iff_iff, List.all_eq_true, List.all_eq_true]
  have hbyte : ∀ k ∈ List.range MAX_FILENAME_LEN,
      b (o + 4 + k) = b' (o' + 4 + k) := by
    intro k hk
    have hlt : k < 12 := List.mem_range.mp hk
    rw [Nat.add_assoc, Nat.add_assoc]
    exact h (4 + k) (by omega)
  constructor
  · intro hall k hk
    rw [← hbyte k hk]
    exact hall k hk
  · intro hall k hk
    rw [hbyte k hk]
    exact hall k hk

/-- **THE LOOPS** return the number of the first entry with these bytes, unless
    a sector has no address. -/
theorem searchSects_cases (name : List Byte) (dev : Int) (start E total : Nat) :
    ∀ {left i : Nat} {s : Fs}, i + left = total → 32 * i ≤ E →
      (∃ g, searchSects name dev start E left i (32 * i : Nat) s =
        .ok (firstNr (sameAt name (drop (s.disk dev) (512 * start)))
          (numAt (drop (s.disk dev) (512 * start)))
          (min (E + 1) (32 * total) - 32 * i) (32 * i))
          { s with fsbuf := g }) ∨
      4194304 < start + total ∧ ∃ t,
        searchSects name dev start E left i (32 * i : Nat) s =
          .error .fault t := by
  intro left
  induction left with
  | zero =>
      intro i s hi hle
      rw [searchSects, show min (E + 1) (32 * total) - 32 * i = 0 by omega]
      exact Or.inl ⟨s.fsbuf, rfl⟩
  | succ left ih =>
      intro i s hi hle
      by_cases haddr : Addressed ((start : Int) + i)
      case neg =>
        refine Or.inr ⟨?_, s, ?_⟩
        · rw [Addressed] at haddr
          omega
        · rw [searchSects, run_bind_error (rdSects_fault haddr)]
      have hnat : ((start : Int) + i).toNat = start + i := by omega
      have hrd : rdSects dev ((start : Int) + i) 1 s = .ok () { s with
          fsbuf := put s.fsbuf 0 512 (drop (s.disk dev) (512 * (start + i))) } :=
        run_rdSects.mpr ⟨haddr, by rw [hnat]⟩
      obtain ⟨b, hb⟩ : ∃ b, b = put s.fsbuf 0 512
        (drop (s.disk dev) (512 * (start + i))) := ⟨_, rfl⟩
      rw [← hb] at hrd
      have hsame : ∀ l < 32, sameName name b (16 * l) =
          sameAt name (drop (s.disk dev) (512 * start)) (32 * i + l) :=
        fun l hl => sameName_congr fun k hk => by rw [hb, sector_entry hl hk]
      have hnum : ∀ l < 32, entryNr b (16 * l) =
          numAt (drop (s.disk dev) (512 * start)) (32 * i + l) :=
        fun l hl => congrArg BitVec.toInt (word_congr fun k hk => by
          rw [hb, sector_entry hl (by omega)])
      have hspec := searchEntries_spec name _ _ b E (32 * i) hsame hnum 32 0
        rfl (by omega)
      rw [Nat.add_zero] at hspec
      rw [searchSects, run_bind_of hrd, run_get_bind]
      dsimp only
      -- the entries of this sector come first, then the other sectors
      have hsplit : min (E + 1) (32 * total) - 32 * i =
          min 32 (E + 1 - 32 * i) +
            (min (E + 1) (32 * total) - 32 * i - min 32 (E + 1 - 32 * i)) := by
        omega
      cases hs : searchEntries name E b 32 0 (32 * i : Nat) with
      | inl nr =>
          rw [hs] at hspec
          rw [hsplit, hspec]
          exact Or.inl ⟨b, rfl⟩
      | inr d =>
          rw [hs] at hspec
          obtain ⟨hd, hgo⟩ := hspec
          rw [hsplit, hgo]
          dsimp only
          -- the inner loop stopped at the last entry, or went through the
          -- sector
          by_cases hend : (E : Int) < d
          · rw [if_pos hend, show min (E + 1) (32 * total) - 32 * i -
              min 32 (E + 1 - 32 * i) = 0 by omega]
            exact Or.inl ⟨b, rfl⟩
          · have hgo := ih (i := i + 1) (s := { s with fsbuf := b })
              (by omega) (by omega)
            rw [if_neg hend, show d = (32 * (i + 1) : Nat) by omega,
              show min (E + 1) (32 * total) - 32 * i -
                min 32 (E + 1 - 32 * i) =
              min (E + 1) (32 * total) - 32 * (i + 1) by omega,
              show 32 * i + min 32 (E + 1 - 32 * i) = 32 * (i + 1) by omega]
            exact hgo

/-- The search through the sectors of the directory. -/
theorem searchSects_run (name : List Byte) (dev : Int) (start E total : Nat)
    (haddr : start + total ≤ 4194304) {s : Fs} :
    ∃ g, searchSects name dev start E total 0 (0 : Nat) s =
      .ok (firstNr (sameAt name (drop (s.disk dev) (512 * start)))
        (numAt (drop (s.disk dev) (512 * start))) (min (E + 1) (32 * total)) 0)
        { s with fsbuf := g } :=
  (searchSects_cases name dev start E total (Nat.zero_add _)
    (Nat.zero_le _)).resolve_right fun h => by omega

/-- The sectors of the directory, and the one behind an end at the end of a
    sector, have places on the disk. -/
def Placed (p : Inode) : Prop :=
  p.sectStart.toNat + (p.fileSize.toNat + 512) / 512 ≤ 4194304

instance (p : Inode) : Decidable (Placed p) :=
  inferInstanceAs (Decidable (_ ≤ _))

/-- The numbers the loops compute are those of the directory. -/
theorem placed_numbers {r : Inode} (hr : Placed r) :
    r.sectStart.toInt = (r.sectStart.toNat : Nat) ∧
      (r.fileSize / 16).toInt = (r.fileSize.toNat / 16 : Nat) ∧
      ((r.fileSize + 511) / 512).toInt = ((r.fileSize.toNat + 511) / 512 : Nat) ∧
      ((r.fileSize + 512) / 512).toInt =
        ((r.fileSize.toNat + 512) / 512 : Nat) := by
  rw [Placed] at hr
  have hdiv : ∀ (c d : BitVec 32), c.toNat ≤ 512 →
      ((r.fileSize + c) / d).toNat = (r.fileSize.toNat + c.toNat) / d.toNat := by
    intro c d hc
    rw [BitVec.toNat_udiv, BitVec.toNat_add, Nat.mod_eq_of_lt (by omega)]
  have h16 : (r.fileSize / 16).toNat = r.fileSize.toNat / 16 :=
    BitVec.toNat_udiv
  have h511 := hdiv 511 512 (by decide)
  have h512 := hdiv 512 512 (by decide)
  rw [show BitVec.toNat (511 : BitVec 32) = 511 from rfl,
    show BitVec.toNat (512 : BitVec 32) = 512 from rfl] at h511
  rw [show BitVec.toNat (512 : BitVec 32) = 512 from rfl] at h512
  refine ⟨?_, ?_, ?_, ?_⟩
  · rw [BitVec.toInt_eq_toNat_of_lt (by omega)]
  · rw [BitVec.toInt_eq_toNat_of_lt (by omega), h16]
  · rw [BitVec.toInt_eq_toNat_of_lt (by omega), h511]
  · rw [BitVec.toInt_eq_toNat_of_lt (by omega), h512]

/-- The root directory lies where the driver can read it. -/
theorem placed_of_rootDir {r : Inode} (hm : Made sb) (hr : RootDir sb r) :
    Placed r := by
  have hsmap := hm.smap
  have hfirst := hm.first
  have hsize := hr.size
  rw [Placed, hr.start]
  omega

/-- The number `get_file_inode_nr` returns for a name. -/
theorem getFileInodeNr_run {path : List Byte}
    (hr : Placed (s.inodeTable s.rootInode))
    (hname : getFileName path = some name) (hne : name.getD 0 0 ≠ 0) :
    ∃ g, getFileInodeNr path s = .ok
      (firstNr (sameAt name (dirBytes s (s.inodeTable s.rootInode)))
        (numAt (dirBytes s (s.inodeTable s.rootInode)))
        (looked (s.inodeTable s.rootInode).fileSize.toNat) 0)
      { s with fsbuf := g } := by
  obtain ⟨hstart, h16, h511, -⟩ := placed_numbers hr
  rw [Placed] at hr
  obtain ⟨g, hg⟩ := searchSects_run name (s.inodeTable s.rootInode).dev
    (s.inodeTable s.rootInode).sectStart.toNat
    ((s.inodeTable s.rootInode).fileSize.toNat / 16)
    (((s.inodeTable s.rootInode).fileSize.toNat + 511) / 512)
    (by omega) (s := s)
  refine ⟨g, ?_⟩
  rw [getFileInodeNr, hname]
  dsimp only
  rw [run_get_bind, if_neg hne, hstart, h16, h511, Int.toNat_natCast]
  exact hg

end Search

/-! ## The number that the search finds -/

/-- What the search should find: the number of the first entry of the directory
    with the name. -/
def lookup (f : Nat → Byte) (size : Nat) (name : List Byte) : Int :=
  firstNr (fun k => decide (entryName f (16 * k) = name)) (numAt f)
    (size / 16) 0

/-- **WHEN IT IS FOUND**: the first entry with the name has NULs behind it up
    to the end of its field, or an entry behind it that has them has the same
    number; and where no entry has the name, the bytes behind the end of the
    directory are not looked at, or hold another name or the number 0. -/
structure LookupCond (f : Nat → Byte) (size : Nat) (name : List Byte) :
    Prop where
  clean : ∀ k < size / 16, entryName f (16 * k) = name →
    (∀ j < k, entryName f (16 * j) ≠ name) →
    Padded f (16 * k) name ∨
      FirstIs (sameAt name f) (numAt f) (looked size - (k + 1)) (k + 1)
        (numAt f k)
  behind : (∀ k < size / 16, entryName f (16 * k) ≠ name) →
    size % 512 = 0 ∨ sameAt name f (size / 16) = false ∨
      numAt f (size / 16) = INVALID_INODE

section FirstEntry

variable {sb : SuperBlock} {s : Fs} {f : Nat → Byte} {name path : List Byte}
  {size : Nat}

/-- The entries looked at, counted. -/
theorem looked_eq (size : Nat) :
    looked size = size / 16 + if size % 512 = 0 then 0 else 1 := by
  rw [looked]
  split <;> omega

/-- The raw search and the search for the name agree under the condition. -/
theorem search_iff (hnul : 0 ∉ name) (hlen : name.length ≤ MAX_FILENAME_LEN) :
    firstNr (sameAt name f) (numAt f) (looked size) 0 = lookup f size name ↔
      LookupCond f size name := by
  have hlooked := looked_eq size
  have hother : ∀ k, entryName f (16 * k) ≠ name → sameAt name f k = false := by
    intro k hk
    rw [← Bool.not_eq_true, sameAt, sameName_iff hnul hlen]
    exact fun h => hk h.1
  rcases first_or_none (fun k => decide (entryName f (16 * k) = name)) 0
    (size / 16) with ⟨k, -, hk', hnamed, hmin⟩ | hnone
  · -- an entry has the name
    have hk : k < size / 16 := by omega
    have hnamed' := of_decide_eq_true hnamed
    have hmin' : ∀ j < k, entryName f (16 * j) ≠ name :=
      fun j hj => of_decide_eq_false (hmin j (Nat.zero_le _) hj)
    have hlook : lookup f size name = numAt f k :=
      firstNr_found (Nat.zero_le _) (by omega) hnamed hmin
    have hsplit : looked size = k + (looked size - k) := by omega
    have hskip : firstNr (sameAt name f) (numAt f) (k + (looked size - k)) 0 =
        firstNr (sameAt name f) (numAt f) (looked size - k) (0 + k) :=
      firstNr_skip fun j _ hj => hother j (hmin' j (by omega))
    rw [← hsplit, Nat.zero_add,
      show looked size - k = looked size - (k + 1) + 1 by omega, firstNr] at hskip
    rw [hlook, hskip]
    by_cases hpad : Padded f (16 * k) name
    · have hsame : sameAt name f k = true :=
        (sameName_iff hnul hlen).mpr ⟨hnamed', hpad⟩
      rw [if_pos hsame]
      refine ⟨fun _ => ⟨fun j hj hj' hjmin => ?_, fun hno => ?_⟩, fun _ => rfl⟩
      · have hjk : j = k := by
          rcases Nat.lt_trichotomy j k with h | h | h
          · exact absurd hj' (hmin' j h)
          · exact h
          · exact absurd hnamed' (hjmin k h)
        rw [hjk]
        exact Or.inl hpad
      · exact absurd hnamed' (hno k hk)
    · have hsame : sameAt name f k = false := by
        rw [← Bool.not_eq_true, sameAt, sameName_iff hnul hlen]
        exact fun h => hpad h.2
      rw [if_neg (Bool.eq_false_iff.mp hsame), firstNr_iff]
      constructor
      · intro heq
        refine ⟨fun j hj hj' hjmin => ?_, fun hno => ?_⟩
        · have hjk : j = k := by
            rcases Nat.lt_trichotomy j k with h | h | h
            · exact absurd hj' (hmin' j h)
            · exact h
            · exact absurd hnamed' (hjmin k h)
          rw [hjk]
          exact Or.inr heq
        · exact absurd hnamed' (hno k hk)
      · intro hc
        rcases hc.clean k hk hnamed' hmin' with h | h
        · exact absurd h hpad
        · exact h
  · -- no entry has it
    have hnone' : ∀ k < size / 16, entryName f (16 * k) ≠ name :=
      fun k hk => of_decide_eq_false (hnone k (Nat.zero_le _) (by omega))
    have hlook : lookup f size name = INVALID_INODE := firstNr_none hnone
    have hskip : firstNr (sameAt name f) (numAt f)
          (size / 16 + if size % 512 = 0 then 0 else 1) 0 =
        firstNr (sameAt name f) (numAt f) (if size % 512 = 0 then 0 else 1)
          (0 + size / 16) :=
      firstNr_skip fun j _ hj => hother j (hnone' j (by omega))
    rw [← hlooked, Nat.zero_add] at hskip
    have hcond : LookupCond f size name ↔ (size % 512 = 0 ∨
        sameAt name f (size / 16) = false ∨
          numAt f (size / 16) = INVALID_INODE) :=
      ⟨fun hc => hc.behind hnone',
        fun h => ⟨fun k hk hk' => absurd hk' (hnone' k hk), fun _ => h⟩⟩
    rw [hlook, hskip, hcond]
    by_cases hfull : size % 512 = 0
    · rw [if_pos hfull]
      exact ⟨fun _ => Or.inl hfull, fun _ => rfl⟩
    · rw [if_neg hfull, firstNr]
      cases hsame : sameAt name f (size / 16) with
      | false => exact ⟨fun _ => Or.inr (Or.inl rfl), fun _ => rfl⟩
      | true =>
          rw [if_pos rfl]
          constructor
          · exact fun h => Or.inr (Or.inr h)
          · rintro (h | h | h)
            · exact absurd h hfull
            · exact Bool.noConfusion h
            · exact h

/-- **THE SEARCH** returns the number of the first entry of the directory with
    the name exactly when that entry is filled up with NULs and no entry behind
    the end is taken for one of the directory. -/
theorem lookup_iff {sectCnt : BitVec 32} {dev : Int}
    (hr : RootDir (superBlock sectCnt dev) (s.inodeTable s.rootInode))
    (hname : getFileName path = some name) (hnul : 0 ∉ path) (hne : name ≠ []) :
    (∃ s', getFileInodeNr path s = .ok
      (lookup (dirBytes s (s.inodeTable s.rootInode))
        (s.inodeTable s.rootInode).fileSize.toNat name) s') ↔
      LookupCond (dirBytes s (s.inodeTable s.rootInode))
        (s.inodeTable s.rootInode).fileSize.toNat name := by
  have hnul' : 0 ∉ name := fun h => hnul (mem_of_name hname h)
  have hfirst : name.getD 0 0 ≠ 0 := by
    cases name with
    | nil => exact absurd rfl hne
    | cons c rest => exact fun h => hnul' (h ▸ List.mem_cons_self ..)
  obtain ⟨g, hg⟩ := getFileInodeNr_run
    (placed_of_rootDir (superBlock_made sectCnt dev) hr) hname hfirst
  rw [hg, ← search_iff hnul' (length_getFileName hname)]
  constructor
  · rintro ⟨s', h⟩
    injection h
  · intro h
    exact ⟨_, by rw [h]⟩

end FirstEntry

/-- A directory of five entries without names; the bytes behind them are those
    of an entry "a" of number 9. -/
def demoDir (a : Nat) : Byte :=
  if a = 138320 then 9 else if a = 138324 then 0x61 else 0

/-- The root directory of the examples. -/
theorem demoRoot_dir {size : BitVec 32} (h : size.toNat ≤ 2048 * 512) :
    RootDir (superBlock 40960 ROOT_DEV_NR) (demoRoot size) :=
  ⟨rfl, rfl, h⟩

/-- The name "b" is nowhere. -/
theorem lookup_iff_absent :
    ∃ s', getFileInodeNr [0x62] (demoFs demoDir (demoRoot 80)) =
      .ok (lookup (dirBytes (demoFs demoDir (demoRoot 80)) (demoRoot 80)) 80
        [0x62]) s' := by
  have hno : ∀ k < 5, entryName
      (dirBytes (demoFs demoDir (demoRoot 80)) (demoRoot 80)) (16 * k) ≠
        [0x62] := by decide
  have hcond : LookupCond
      (dirBytes (demoFs demoDir (demoRoot 80)) (demoRoot 80)) 80 [0x62] :=
    ⟨fun k hk hnamed => absurd hnamed (hno k hk),
      fun _ => Or.inr (Or.inl (by decide))⟩
  exact (lookup_iff (demoRoot_dir (by decide)) rfl (by decide)
    (by decide)).mpr hcond

/-- The name "a" is found behind the end of the directory. -/
theorem lookup_reads_behind :
    ¬ ∀ (sectCnt : BitVec 32) (dev : Int) (s : Fs) (path name : List Byte),
      RootDir (superBlock sectCnt dev) (s.inodeTable s.rootInode) →
      getFileName path = some name → 0 ∉ path → name ≠ [] →
      ∃ s', getFileInodeNr path s = .ok
        (lookup (dirBytes s (s.inodeTable s.rootInode))
          (s.inodeTable s.rootInode).fileSize.toNat name) s' := by
  intro hall
  have hdir : RootDir (superBlock 40960 ROOT_DEV_NR) (demoRoot 80) :=
    demoRoot_dir (by decide)
  obtain ⟨s', hrun⟩ := hall 40960 ROOT_DEV_NR (demoFs demoDir (demoRoot 80))
    [0x61] [0x61] hdir rfl (by decide) (by decide)
  have hname : getFileName [0x61] = some [0x61] := rfl
  obtain ⟨g, hg⟩ := getFileInodeNr_run (s := demoFs demoDir (demoRoot 80))
    (placed_of_rootDir (superBlock_made 40960 ROOT_DEV_NR) hdir) hname
    (by decide)
  have hfound : firstNr
      (sameAt [0x61] (dirBytes (demoFs demoDir (demoRoot 80)) (demoRoot 80)))
      (numAt (dirBytes (demoFs demoDir (demoRoot 80)) (demoRoot 80)))
      (looked 80) 0 = 9 := by decide
  have hlook : lookup (dirBytes (demoFs demoDir (demoRoot 80)) (demoRoot 80)) 80
      [0x61] = 0 := by decide
  have heq := hrun.symm.trans hg
  injection heq with hnr
  have : (0 : Int) = 9 := hlook.symm.trans (hnr.trans hfound)
  exact absurd this (by decide)

end KosRootDirectory
