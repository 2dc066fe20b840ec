import Kos.FlatMemoryProofs
import Mathlib.Algebra.GroupWithZero.Nat
import Mathlib.Data.List.TakeWhile

/-! # `vsprintf`

    `lib/misc/vsprintf.c`: the characters that `vsprintf` puts into its buffer,
    as a walk along the format.

    * An int has no more digits than its size asks for (`i2a_length`);
    * none of them is the NUL (`i2a_ne_zero`). -/

namespace KosVsprintf

open FlatMemory (Byte)

/-- An argument: an `int`, or the characters of a string. -/
inductive Arg where
  | int (v : BitVec 32)
  | str (s : List Byte)

/-- A character as a byte. -/
def ch (c : Char) : Byte := BitVec.ofNat 8 c.toNat

/-- `(m < 10) ? (m + '0') : (m - 10 + 'A')`. -/
def digit (m : Int) : Byte :=
  BitVec.ofInt 8 (if m < 10 then m + 48 else m - 10 + 65)

/-- `i2a`, in at most `n` calls. -/
def i2a (base : Int) : Nat → Int → List Byte
  | 0, _ => []
  | n + 1, val =>
      let m := val.tmod base
      let q := val.tdiv base
      (if q ≠ 0 then i2a base n q else []) ++ [digit m]

/-- The characters of one conversion. -/
def convert (c : Char) : Option Arg → List Byte
  | some (.int v) =>
      if c = 'c' then [v.setWidth 8]
      else if c = 'x' then i2a 16 10 v.toInt
      else if c = 'd' then
        if v.toInt < 0 then ch '-' :: i2a 10 10 (v * -1).toInt
        else i2a 10 10 v.toInt
      else []
  | some (.str s) => if c = 's' then s else []
  | none => []

/-- The rest of the arguments behind a conversion. -/
def restArgs (c : Char) (args : List Arg) : List Arg :=
  if c = 'c' ∨ c = 'x' ∨ c = 'd' ∨ c = 's' then args.tail else args

/-- `align_nr` characters at least, filled up with `cs`; `inner_buf` ends with
    its first NUL. -/
def pad (cs : Char) (alignNr : Nat) (s : List Byte) : List Byte :=
  let innerBuf := s.takeWhile (· ≠ 0)
  List.replicate (alignNr - innerBuf.length) (ch cs) ++ innerBuf

/-- Where the walk along the format is: in its text, behind a `%`, or in the
    digits of a width. -/
inductive Mode where
  | text
  | percent
  | width (cs : Char) (alignNr : Int)

/-- One more digit of a width, in an `int`. -/
def nextAlign (alignNr : Int) (c : Char) : Int :=
  (BitVec.ofInt 32 (alignNr * 10 + (c.toNat - 48 : Nat))).toInt

/-- The loop of `vsprintf`. -/
def format : Mode → List Char → List Arg → List Byte
  | _, [], _ => []
  | .text, c :: fmt, args =>
      if c = '%' then format .percent fmt args
      else ch c :: format .text fmt args
  | .percent, c :: fmt, args =>
      if c = '%' then ch c :: format .text fmt args
      else if c = '0' then format (.width '0' 0) fmt args
      else if c.isDigit then format (.width ' ' (nextAlign 0 c)) fmt args
      else pad ' ' 0 (convert c args.head?) ++
        format .text fmt (restArgs c args)
  | .width cs alignNr, c :: fmt, args =>
      if c.isDigit then
        format (.width cs (nextAlign alignNr c)) fmt args
      else pad cs alignNr.toNat (convert c args.head?) ++
        format .text fmt (restArgs c args)

/-- `vsprintf`: the characters in front of the NUL. -/
def vsprintf (fmt : String) (args : List Arg) : List Byte :=
  format .text fmt.toList args

/-! ## Digits -/

section Digits

variable {base val : Int} {n k : Nat}

theorem tdiv_lt (hbase : 1 < base) (h : val.natAbs < base.toNat ^ (n + 1)) :
    (val.tdiv base).natAbs < base.toNat ^ n := by
  rw [Int.natAbs_tdiv]
  have hnat : base.natAbs = base.toNat := by omega
  rw [hnat]
  refine Nat.div_lt_of_lt_mul ?_
  rw [Nat.mul_comm, ← Nat.pow_succ]
  exact h

/-- A number below `base ^ n` has at most `n` digits. -/
theorem i2a_length (hbase : 1 < base) (k : Nat) : ∀ {n : Nat} {val : Int},
    val.natAbs < base.toNat ^ (n + 1) →
      (i2a base k val).length ≤ n + 1 := by
  induction k with
  | zero => exact fun _ => Nat.zero_le _
  | succ k ih =>
      intro n val h
      rw [i2a, List.length_append, List.length_singleton]
      split
      · rename_i hq
        have hlt := tdiv_lt hbase h
        cases n with
        | zero =>
            rw [Nat.pow_zero] at hlt
            exact absurd (by omega) hq
        | succ n =>
            have hrest := ih hlt
            omega
      · exact Nat.succ_le_succ (Nat.zero_le _)

/-- The digits of a number that is not negative are characters. -/
theorem i2a_ne_zero (h0 : 0 < base) (hbase : base ≤ 16) : ∀ {n : Nat}
    {val : Int}, 0 ≤ val → ∀ b ∈ i2a base n val, b ≠ 0 := by
  intro n
  induction n with
  | zero =>
      intro val _ b hb
      cases hb
  | succ n ih =>
      intro val hval b hb
      rw [i2a, List.mem_append] at hb
      rcases hb with hb | hb
      · split at hb
        · exact ih (Int.tdiv_nonneg hval (by omega)) b hb
        · cases hb
      · obtain rfl := List.mem_singleton.mp hb
        have hlo : 0 ≤ val.tmod base := Int.tmod_nonneg base hval
        have hhi : val.tmod base < 16 := by
          have hlt := Int.tmod_lt_of_pos val h0
          omega
        obtain ⟨m, hm⟩ := Int.eq_ofNat_of_zero_le hlo
        rw [hm] at hhi ⊢
        have hm16 : m < 16 := by omega
        have hall : ∀ m < 16, digit (m : Nat) ≠ 0 := by decide
        exact hall m hm16

end Digits

/-- The characters of a string are not cut. -/
theorem pad_eq {s : List Byte} (h : ∀ b ∈ s, b ≠ 0) (cs : Char) :
    pad cs 0 s = s := by
  have htake : s.takeWhile (· ≠ 0) = s :=
    List.takeWhile_eq_self_iff.mpr fun b hb => by simpa using h b hb
  rw [pad, htake, Nat.zero_sub, List.replicate_zero, List.nil_append]

theorem pad_length_le (cs : Char) (alignNr : Nat) (s : List Byte) :
    (pad cs alignNr s).length ≤ max alignNr s.length := by
  have hle : (s.takeWhile (· ≠ 0)).length ≤ s.length :=
    (List.takeWhile_sublist _).length_le
  rw [pad, List.length_append, List.length_replicate]
  omega

example : vsprintf "%s_%d" [.str [ch 'I'], .int 12] =
    [ch 'I', ch '_', ch '1', ch '2'] := by decide

example : vsprintf "%02d:%4d" [.int 7, .int (-3)] =
    [ch '0', ch '7', ch ':', ch ' ', ch ' ', ch '-', ch '3'] := by decide

end KosVsprintf
