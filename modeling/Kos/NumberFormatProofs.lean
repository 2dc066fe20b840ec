import Kos.VsprintfProofs

/-! # Numbers in print

    The two converters of the kernel, `i2a` under `vsprintf` and `itoa`, against
    the digits of a number.

    * `itoa` is exact (`itoa_eq`);
    * `%d` is exact but for the least `int`, whose negation is itself, and `%x`
      is exact for the numbers without the top bit only, the rest being divided
      as negative numbers (`number_formatting`);
    * a width from `2 ^ 31` on does not fit into `align_nr`. -/

namespace KosVsprintf

open FlatMemory (Byte)

/-! ## The digits of a number -/

/-- The digits of a number, in upper case. -/
def numeral (base n : Nat) : List Byte :=
  (Nat.toDigits base n).map fun c => ch c.toUpper

/-- A number as people write it. -/
def decimal (m : Int) : List Byte :=
  (if m < 0 then [ch '-'] else []) ++ numeral 10 m.natAbs

/-- A word in base 16, with capitals. -/
def hexadecimal (m : BitVec 32) : List Byte := numeral 16 m.toNat

/-- At least `w` characters. -/
def fill (cs : Char) (w : Nat) (s : List Byte) : List Byte :=
  List.replicate (w - s.length) (ch cs) ++ s

/-- The value of a digit. -/
def digitValue (b : Byte) : Nat :=
  if b ≤ ch '9' then b.toNat - (ch '0').toNat else b.toNat - (ch 'A').toNat + 10

/-- The number that a numeral stands for. -/
def value (base : Nat) (s : List Byte) : Nat :=
  s.foldl (fun n b => n * base + digitValue b) 0

/-- The number that is read back from behind the filling. -/
def readBack (base : Nat) (cs : Char) (s : List Byte) : Int :=
  match s.dropWhile (· = ch cs) with
  | [] => 0
  | b :: rest => if b = ch '-' then -(value base rest : Int)
      else value base (b :: rest)

section Numerals

variable {base n d : Nat}

/-- A digit as the library writes it. -/
theorem digit_eq (h : d < 16) : digit d = ch (Nat.digitChar d).toUpper := by
  have hall : ∀ d < 16, digit (d : Nat) = ch (Nat.digitChar d).toUpper := by
    decide
  exact hall d h

/-- A number below the base has one digit. -/
theorem numeral_lt (h : n < base) (hbase : base ≤ 16) :
    numeral base n = [digit n] := by
  rw [numeral, Nat.toDigits_of_lt_base h, digit_eq (by omega)]
  rfl

/-- A numeral with its last digit split off. -/
theorem numeral_ge (h1 : 1 < base) (hbase : base ≤ 16) (h : base ≤ n) :
    numeral base n = numeral base (n / base) ++ [digit (n % base : Nat)] := by
  have hmod := Nat.mod_lt n (show 0 < base by omega)
  rw [numeral, Nat.toDigits_of_base_le h1 h, List.map_append,
    digit_eq (by omega)]
  rfl

/-- A numeral is not empty. -/
theorem numeral_length_pos : 0 < (numeral base n).length := by
  rw [numeral, List.length_map]
  exact Nat.length_toDigits_pos

/-- **`i2a`** gives the digits of a number that is not negative. -/
theorem i2a_eq_numeral (h1 : 1 < base) (hbase : base ≤ 16) : ∀ {k n : Nat},
    n < base ^ (k + 1) → i2a base (k + 1) n = numeral base n := by
  intro k
  induction k with
  | zero =>
      intro n h
      rw [Nat.zero_add, Nat.pow_one] at h
      rw [numeral_lt h hbase, i2a]
      have hdiv : (n : Int).tdiv base = 0 := by
        rw [Int.tdiv_eq_ediv_of_nonneg (Int.natCast_nonneg n)]
        exact_mod_cast Nat.div_eq_of_lt h
      have hmod : (n : Int).tmod base = n := by
        rw [Int.tmod_eq_emod_of_nonneg (Int.natCast_nonneg n)]
        exact_mod_cast Nat.mod_eq_of_lt h
      rw [hdiv, hmod]
      rfl
  | succ k ih =>
      intro n h
      have hdiv : (n : Int).tdiv base = (n / base : Nat) := by
        rw [Int.tdiv_eq_ediv_of_nonneg (Int.natCast_nonneg n)]
        rfl
      have hmod : (n : Int).tmod base = (n % base : Nat) := by
        rw [Int.tmod_eq_emod_of_nonneg (Int.natCast_nonneg n)]
        rfl
      rw [i2a, hdiv, hmod]
      by_cases hlt : n < base
      · rw [numeral_lt hlt hbase, Nat.div_eq_of_lt hlt, Nat.mod_eq_of_lt hlt,
          if_neg (by decide)]
        rfl
      · have hq : 0 < n / base := Nat.div_pos (by omega) (by omega)
        rw [numeral_ge h1 hbase (by omega), if_pos (by omega), ih]
        exact Nat.div_lt_of_lt_mul (by rwa [Nat.mul_comm, ← Nat.pow_succ])

/-- A number above zero begins with a digit above `'0'`. -/
theorem numeral_head (h1 : 1 < base) (hbase : base ≤ 16) : ∀ {n : Nat},
    0 < n → ∃ b rest, numeral base n = b :: rest ∧ ch '0' < b := by
  intro n
  induction n using Nat.strongRecOn with
  | ind n ih =>
      intro hn
      by_cases hlt : n < base
      · have hall : ∀ d < 16, 0 < d → ch '0' < digit (d : Nat) := by decide
        exact ⟨digit n, [], numeral_lt hlt hbase, hall n (by omega) hn⟩
      · have hq : 0 < n / base := Nat.div_pos (by omega) (by omega)
        obtain ⟨b, rest, hrest, hb⟩ := ih (n / base)
          (Nat.div_lt_self hn h1) hq
        refine ⟨b, rest ++ [digit (n % base : Nat)], ?_, hb⟩
        rw [numeral_ge h1 hbase (by omega), hrest, List.cons_append]

/-- The value of one digit more. -/
theorem value_append (s : List Byte) (b : Byte) :
    value base (s ++ [b]) = value base s * base + digitValue b := by
  rw [value, List.foldl_append]
  rfl

/-- A digit is read back. -/
theorem digitValue_digit (h : d < 16) : digitValue (digit d) = d := by
  have hall : ∀ d < 16, digitValue (digit (d : Nat)) = d := by decide
  exact hall d h

/-- The digits read back. -/
theorem value_numeral (h1 : 1 < base) (hbase : base ≤ 16) : ∀ n : Nat,
    value base (numeral base n) = n := by
  intro n
  induction n using Nat.strongRecOn with
  | ind n ih =>
      by_cases hlt : n < base
      · rw [numeral_lt hlt hbase, ← List.nil_append [digit n], value_append,
          digitValue_digit (by omega), show value base [] = 0 from rfl,
          Nat.zero_mul, Nat.zero_add]
      · have hmod := Nat.mod_lt n (show 0 < base by omega)
        rw [numeral_ge h1 hbase (by omega), value_append,
          ih _ (Nat.div_lt_self (by omega) h1), digitValue_digit (by omega),
          Nat.mul_comm]
        exact Nat.div_add_mod n base

end Numerals

/-! ## `itoa` -/

/-- The loop over the four bits from `28` down; `flag` after the first digit. -/
def itoaLoop (num : BitVec 32) : Nat → Bool → List Byte
  | 0, _ => []
  | k + 1, flag =>
      let c : Byte := (num.sshiftRight (4 * k) &&& 0xF).setWidth 8
      if flag ∨ 0 < c.toInt then
        let c := c + ch '0'
        (if c.toInt > (ch '9').toInt then c + 7 else c) :: itoaLoop num k true
      else itoaLoop num k flag

/-- `itoa`: `0x` and the digits without the zeros in front. -/
def itoa (num : BitVec 32) : List Byte :=
  ch '0' :: ch 'x' :: (if num = 0 then [ch '0'] else itoaLoop num 8 false)

/-- The last `k` digits, from the first on. -/
def places (base : Nat) : Nat → Nat → List Nat
  | 0, _ => []
  | k + 1, n => n / base ^ k % base :: places base k n

section Itoa

variable {base k n : Nat} {num : BitVec 32}

/-- The digits of a number, from the last place. -/
theorem places_succ : ∀ {k : Nat},
    places base (k + 1) n = places base k (n / base) ++ [n % base] := by
  intro k
  induction k with
  | zero => simp [places]
  | succ k ih =>
      rw [places, ih, places, List.cons_append, Nat.div_div_eq_div_mul,
        Nat.pow_succ, Nat.mul_comm (base ^ k)]

/-- The places of zero are zero. -/
theorem places_zero : ∀ d ∈ places base k 0, d = 0 := by
  induction k with
  | zero =>
      intro d hd
      cases hd
  | succ k ih =>
      intro d hd
      rw [places, Nat.zero_div, Nat.zero_mod] at hd
      rcases List.mem_cons.mp hd with rfl | hd
      · rfl
      · exact ih d hd

/-- The digits are the places behind the leading zeros. -/
theorem numeral_places (h1 : 1 < base) (hbase : base ≤ 16) :
    ∀ {k n : Nat}, 0 < n → n < base ^ k →
      ((places base k n).dropWhile (· = 0)).map (fun d : Nat => digit d) =
        numeral base n := by
  intro k
  induction k with
  | zero =>
      intro n hn h
      rw [Nat.pow_zero] at h
      omega
  | succ k ih =>
      intro n hn h
      rw [places_succ, List.dropWhile_append]
      by_cases hlt : n < base
      · have hzeros : (places base k (n / base)).dropWhile (· = 0) = [] := by
          rw [Nat.div_eq_of_lt hlt, List.dropWhile_eq_nil_iff]
          intro d hd
          exact decide_eq_true (places_zero d hd)
        rw [hzeros, Nat.mod_eq_of_lt hlt, numeral_lt hlt hbase]
        have hne : ¬ n = 0 := by omega
        simp [hne]
      · have hq : 0 < n / base := Nat.div_pos (by omega) (by omega)
        have hrest := ih hq
          (Nat.div_lt_of_lt_mul (by rwa [Nat.mul_comm, ← Nat.pow_succ]))
        have hne : ((places base k (n / base)).dropWhile (· = 0)).isEmpty =
            false := by
          rw [List.isEmpty_eq_false_iff]
          intro hnil
          rw [hnil] at hrest
          have hpos : 0 < (numeral base (n / base)).length :=
            numeral_length_pos
          rw [← hrest] at hpos
          exact absurd hpos (by decide)
        rw [hne, numeral_ge h1 hbase (by omega), ← hrest, if_neg (by decide),
          List.map_append]
        rfl

/-- Four bits of the number are one of its digits. -/
theorem nibble_eq (h : k < 8) :
    (num.sshiftRight (4 * k) &&& 0xF).setWidth 8 =
      BitVec.ofNat 8 (num.toNat / 16 ^ k % 16) := by
  refine BitVec.eq_of_getLsbD_eq fun i hi => ?_
  rw [show (16 : Nat) ^ k = 2 ^ (4 * k) by rw [Nat.pow_mul],
    show (16 : Nat) = 2 ^ 4 from rfl, BitVec.getLsbD_ofNat,
    Nat.testBit_mod_two_pow, Nat.testBit_div_two_pow, BitVec.getLsbD_setWidth,
    BitVec.getLsbD_and, BitVec.getLsbD_sshiftRight]
  by_cases hlow : i < 4
  · have hmask : (0xF : BitVec 32).getLsbD i = true := by
      have hall : ∀ i < 4, (0xF : BitVec 32).getLsbD i = true := by decide
      exact hall i hlow
    have hin : 4 * k + i < 32 := by omega
    have hout : ¬ 32 ≤ i := by omega
    rw [hmask, if_pos hin]
    simp [hlow, hout, hi, BitVec.getLsbD, Nat.add_comm i]
  · have hmask : (0xF : BitVec 32).getLsbD i = false := by
      have hall : ∀ i < 8, 4 ≤ i → (0xF : BitVec 32).getLsbD i = false := by
        decide
      exact hall i hi (by omega)
    rw [hmask]
    simp [hlow]

/-- A digit is printed as it is for a conversion. -/
theorem itoa_digit (h : n < 16) (hc : BitVec.ofNat 8 n = c) :
    (if (c + ch '0').toInt > (ch '9').toInt then c + ch '0' + 7
      else c + ch '0') = digit n ∧ (0 < c.toInt ↔ n ≠ 0) := by
  have hall : ∀ n < 16, (if (BitVec.ofNat 8 n + ch '0').toInt > (ch '9').toInt
        then BitVec.ofNat 8 n + ch '0' + 7 else BitVec.ofNat 8 n + ch '0') =
      digit (n : Nat) ∧ (0 < (BitVec.ofNat 8 n).toInt ↔ n ≠ 0) := by decide
  rw [← hc]
  exact hall n h

/-- The loop prints the places, and skips the leading zeros until `flag`. -/
theorem itoaLoop_eq : ∀ {k : Nat}, k ≤ 8 →
    itoaLoop num k true =
        (places 16 k num.toNat).map (fun d : Nat => digit d) ∧
      itoaLoop num k false =
        ((places 16 k num.toNat).dropWhile (· = 0)).map
          (fun d : Nat => digit d) := by
  intro k
  induction k with
  | zero => exact fun _ => ⟨rfl, rfl⟩
  | succ k ih =>
      intro hk
      obtain ⟨htrue, hfalse⟩ := ih (by omega)
      have hd : num.toNat / 16 ^ k % 16 < 16 := Nat.mod_lt _ (by decide)
      obtain ⟨hprint, hzero⟩ := itoa_digit hd (nibble_eq (by omega)).symm
      rw [itoaLoop, itoaLoop, places, List.map_cons, List.dropWhile_cons]
      dsimp only
      rw [hprint, htrue]
      refine ⟨if_pos (Or.inl rfl), ?_⟩
      by_cases h0 : num.toNat / 16 ^ k % 16 = 0
      · have hskip : ¬ (false = true ∨ 0 < ((num.sshiftRight (4 * k) &&&
            0xF).setWidth 8).toInt) := by
          rintro (hflag | hpos)
          · cases hflag
          · exact hzero.mp hpos h0
        rw [if_neg hskip, if_pos (by simp [h0]), hfalse]
      · rw [if_pos (Or.inr (hzero.mpr h0)), if_neg (by simp [h0]),
          List.map_cons]

/-- **`itoa`** prints the digits of the number. -/
theorem itoa_eq (num : BitVec 32) :
    itoa num = ch '0' :: ch 'x' :: hexadecimal num := by
  rw [itoa, hexadecimal]
  by_cases h0 : num = 0
  · rw [if_pos h0, h0]
    rfl
  · have hpos : 0 < num.toNat := by
      refine Nat.pos_of_ne_zero fun h => h0 ?_
      exact BitVec.eq_of_toNat_eq h
    rw [if_neg h0, (itoaLoop_eq (Nat.le_refl 8)).2]
    exact congrArg (ch '0' :: ch 'x' :: ·)
      (numeral_places (k := 8) (by decide) (by decide) hpos num.isLt)

end Itoa

/-! ## The width -/

/-- What a field is filled with. -/
def fillChar (zero : Bool) : Char := if zero then '0' else ' '

/-- `%`, the flag, the width if there is one, and the conversion. -/
def conversion (zero : Bool) (w : Nat) (c : Char) : String :=
  String.ofList ('%' :: (if zero then ['0'] else []) ++
    (if w = 0 then [] else Nat.toDigits 10 w) ++ [c])

/-- What is left of a width in `align_nr`. -/
def align (w : Nat) : Nat := (BitVec.ofNat 32 w).toInt.toNat

section Width

variable {w : Nat} {cs c : Char} {args : List Arg} {a : Int}

/-- A width in range is its own alignment. -/
theorem align_eq (h : w < 2 ^ 31) : align w = w := by
  have hnat : (BitVec.ofNat 32 w).toNat = w := by
    rw [BitVec.toNat_ofNat]
    exact Nat.mod_eq_of_lt (by omega)
  rw [align, BitVec.toInt_eq_toNat_of_lt (by omega), hnat, Int.toNat_natCast]

/-- The alignment is a nonnegative `int`. -/
theorem align_lt (w : Nat) : align w < 2 ^ 31 := by
  have h := BitVec.toInt_lt (x := BitVec.ofNat 32 w)
  rw [align]
  omega

/-- The digits of a width are taken up one after the other. -/
theorem format_digits (hc : ¬ c.isDigit) : ∀ {ds : List Char} {a : Int},
    (∀ d ∈ ds, d.isDigit) → format (.width cs a) (ds ++ [c]) args =
      pad cs (ds.foldl nextAlign a).toNat (convert c args.head?) := by
  intro ds
  induction ds with
  | nil =>
      intro a _
      rw [List.nil_append, format, if_neg hc, format, List.append_nil]
      rfl
  | cons d ds ih =>
      intro a h
      rw [List.cons_append, format, if_pos (h d List.mem_cons_self),
        ih fun e he => h e (List.mem_cons_of_mem d he)]
      rfl

/-- The character of a decimal digit. -/
theorem digitChar_toNat (h : w < 10) : (Nat.digitChar w).toNat - 48 = w := by
  have hall : ∀ w < 10, (Nat.digitChar w).toNat - 48 = w := by decide
  exact hall w h

/-- Taken up in an `int`, they give the width modulo `2 ^ 32`. -/
theorem foldl_nextAlign : ∀ w : Nat,
    (Nat.toDigits 10 w).foldl nextAlign 0 = (BitVec.ofNat 32 w).toInt := by
  intro w
  induction w using Nat.strongRecOn with
  | ind w ih =>
      by_cases hlt : w < 10
      · rw [Nat.toDigits_of_lt_base hlt, List.foldl_cons, List.foldl_nil,
          nextAlign, digitChar_toNat hlt, Int.zero_mul, Int.zero_add]
        rfl
      · have hmod : w % 10 < 10 := Nat.mod_lt w (by decide)
        rw [Nat.toDigits_of_base_le (by decide) (by omega), List.foldl_append,
          ih (w / 10) (by omega), List.foldl_cons, List.foldl_nil, nextAlign,
          digitChar_toNat hmod]
        refine congrArg BitVec.toInt ?_
        rw [BitVec.ofInt_add, BitVec.ofInt_mul, BitVec.ofInt_toInt,
          BitVec.ofInt_natCast]
        refine BitVec.eq_of_toNat_eq ?_
        rw [BitVec.toNat_add, BitVec.toNat_mul, BitVec.toNat_ofNat,
          BitVec.toNat_ofNat, BitVec.toNat_ofNat,
          show (BitVec.ofInt 32 10).toNat = 10 from rfl]
        omega

/-- The first digit of a width is no `'0'`. -/
theorem toDigits_head : ∀ {w : Nat}, w ≠ 0 →
    ∃ d ds, Nat.toDigits 10 w = d :: ds ∧ d ≠ '0' ∧ d ≠ '%' := by
  intro w
  induction w using Nat.strongRecOn with
  | ind w ih =>
      intro hw
      by_cases hlt : w < 10
      · have hall : ∀ w < 10, w ≠ 0 →
            Nat.digitChar w ≠ '0' ∧ Nat.digitChar w ≠ '%' := by decide
        exact ⟨Nat.digitChar w, [], Nat.toDigits_of_lt_base hlt,
          hall w hlt hw⟩
      · obtain ⟨d, ds, hds, hd⟩ := ih (w / 10) (by omega) (by omega)
        refine ⟨d, ds ++ [Nat.digitChar (w % 10)], ?_, hd⟩
        rw [Nat.toDigits_of_base_le (by decide) (by omega), hds,
          List.cons_append]

/-- One conversion with its flag and its width. -/
theorem vsprintf_conversion (hc : c = 'd' ∨ c = 'x') (zero : Bool) (w : Nat)
    (args : List Arg) : vsprintf (conversion zero w c) args =
      pad (fillChar zero) (align w) (convert c args.head?) := by
  have hdigit : ¬ c.isDigit := by
    rcases hc with rfl | rfl <;> decide
  have h0 : c ≠ '0' ∧ c ≠ '%' := by
    rcases hc with rfl | rfl <;> decide
  have hdigits : ∀ d ∈ Nat.toDigits 10 w, d.isDigit := fun d hd =>
    Nat.isDigit_of_mem_toDigits (by decide) (by decide) hd
  rw [vsprintf, conversion, String.toList_ofList, List.append_assoc,
    List.cons_append, format, if_pos rfl]
  cases zero with
  | true =>
      rw [if_pos rfl, List.cons_append, List.nil_append, format,
        if_neg (by decide), if_pos rfl]
      by_cases hw : w = 0
      · rw [if_pos hw, format_digits hdigit (by simp), hw]
        rfl
      · rw [if_neg hw, format_digits hdigit hdigits, foldl_nextAlign]
        rfl
  | false =>
      rw [if_neg (by decide), List.nil_append]
      by_cases hw : w = 0
      · rw [if_pos hw, List.nil_append, format, if_neg h0.2, if_neg h0.1,
          if_neg hdigit, format, List.append_nil, hw]
        rfl
      · obtain ⟨d, ds, hds, hd0, hdp⟩ := toDigits_head hw
        rw [hds] at hdigits
        rw [if_neg hw, hds, List.cons_append, format, if_neg hdp, if_neg hd0,
          if_pos (hdigits d List.mem_cons_self), format_digits hdigit
            fun e he => hdigits e (List.mem_cons_of_mem d he),
          ← List.foldl_cons, ← hds, foldl_nextAlign]
        rfl

end Width

/-! ## What is printed -/

section Printed

variable {base n a w : Nat} {cs : Char} {val : Int} {s t : List Byte}

/-- Filling brings a string to the width. -/
theorem fill_length : (fill cs w s).length = max w s.length := by
  rw [fill, List.length_append, List.length_replicate]
  omega

/-- `pad` fills a string without NUL. -/
theorem pad_eq_fill (h : ∀ b ∈ s, b ≠ 0) : pad cs w s = fill cs w s := by
  have htake : s.takeWhile (· ≠ 0) = s :=
    List.takeWhile_eq_self_iff.mpr fun b hb => by simpa using h b hb
  rw [pad, htake]
  rfl

/-- The quotients and remainders of a number below zero are not positive, and
    such remainders are printed up to `'0'` only. -/
theorem i2a_neg (hpos : 0 < base) (hbase : base ≤ 16) : ∀ {k n : Nat},
    ∀ b ∈ i2a base k (-n), b ≠ 0 ∧ b ≤ ch '0' := by
  intro k
  induction k with
  | zero =>
      intro n b hb
      cases hb
  | succ k ih =>
      intro n b hb
      have hdiv : (-n : Int).tdiv base = -(n / base : Nat) := by
        rw [Int.neg_tdiv, Int.tdiv_eq_ediv_of_nonneg (Int.natCast_nonneg n)]
        rfl
      have hmod : (-n : Int).tmod base = -(n % base : Nat) := by
        rw [Int.neg_tmod, Int.tmod_eq_emod_of_nonneg (Int.natCast_nonneg n)]
        rfl
      rw [i2a, hdiv, hmod, List.mem_append] at hb
      rcases hb with hb | hb
      · split at hb
        · exact ih b hb
        · cases hb
      · obtain rfl := List.mem_singleton.mp hb
        have hlt := Nat.mod_lt n hpos
        have hall : ∀ d < 16, digit (-(d : Nat)) ≠ 0 ∧
            digit (-(d : Nat)) ≤ ch '0' := by decide
        exact hall _ (by omega)

/-- Filled or not, text up to `'0'` shows no digit above it. -/
theorem fill_ne (hcs : ch cs ≤ ch '0') (hs : ∀ b ∈ s, b ≤ ch '0')
    (ht : ∃ b ∈ t, ch '0' < b) : fill cs a s ≠ fill cs w t := by
  intro h
  obtain ⟨b, hb, hlt⟩ := ht
  have hmem : b ∈ fill cs a s := by
    rw [h, fill]
    exact List.mem_append_right _ hb
  rw [fill, List.mem_append] at hmem
  have hle : b ≤ ch '0' := by
    rcases hmem with hmem | hmem
    · rw [List.eq_of_mem_replicate hmem]
      exact hcs
    · exact hs b hmem
  exact absurd hlt (BitVec.not_lt.mpr hle)

/-- A width is kept up to `2 ^ 31`. -/
theorem fill_align_iff (hs : s.length < 2 ^ 31) :
    fill cs (align w) s = fill cs w s ↔ w < 2 ^ 31 := by
  constructor
  · intro h
    by_contra hw
    have hlen := congrArg List.length h
    rw [fill_length, fill_length] at hlen
    have hlt := align_lt w
    omega
  · intro hw
    rw [align_eq hw]

/-- A number below a power has at most as many digits. -/
theorem numeral_length (h1 : 1 < base) (h : n < base ^ (a + 1)) :
    (numeral base n).length ≤ a + 1 := by
  rw [numeral, List.length_map]
  exact (Nat.length_toDigits_le_iff h1 (Nat.succ_pos a)).mpr h

/-- A numeral has no NUL. -/
theorem numeral_ne_zero (h1 : 1 < base) (hbase : base ≤ 16) :
    ∀ b ∈ numeral base n, b ≠ 0 := by
  have hlt : n < base ^ (n + 1) :=
    Nat.lt_trans (Nat.lt_pow_self h1) (Nat.pow_lt_pow_succ h1)
  rw [← i2a_eq_numeral h1 hbase hlt]
  exact i2a_ne_zero (by omega) (by omega) (Int.natCast_nonneg n)

/-- Reading stops at the first character that is no filling. -/
theorem readBack_fill : readBack base cs (fill cs w s) = readBack base cs s := by
  have hdrop : (fill cs w s).dropWhile (· = ch cs) =
      s.dropWhile (· = ch cs) := by
    rw [fill]
    induction w - s.length with
    | zero => rfl
    | succ k ih =>
        rw [List.replicate_succ, List.cons_append, List.dropWhile_cons,
          if_pos (decide_eq_true rfl), ih]
  rw [readBack, readBack, hdrop]

/-- A numeral is read back. -/
theorem readBack_numeral (h1 : 1 < base) (hbase : base ≤ 16)
    (hcs : ch cs ≤ ch '0') : readBack base cs (numeral base n) = n := by
  by_cases hn : n = 0
  · rw [hn, numeral_lt (by omega) hbase, readBack, List.dropWhile_cons]
    by_cases hfill : digit (0 : Nat) = ch cs
    · rw [if_pos (decide_eq_true hfill)]
      rfl
    · have hvalue := value_numeral h1 hbase 0
      rw [numeral_lt (by omega) hbase] at hvalue
      have hminus : digit (0 : Nat) ≠ ch '-' := by decide
      rw [if_neg fun h => hfill (of_decide_eq_true h)]
      dsimp only
      rw [if_neg hminus, hvalue]
  · obtain ⟨b, rest, hrest, hb⟩ := numeral_head h1 hbase (Nat.pos_of_ne_zero hn)
    have hne : b ≠ ch cs := by
      rintro rfl
      exact absurd hb (BitVec.not_lt.mpr hcs)
    have hminus : b ≠ ch '-' := by
      rintro rfl
      exact absurd hb (by decide)
    have hvalue := value_numeral h1 hbase n
    rw [hrest] at hvalue
    rw [readBack, hrest, List.dropWhile_cons,
      if_neg (fun h => hne (of_decide_eq_true h))]
    dsimp only
    rw [if_neg hminus, hvalue]

/-- So is a signed one. -/
theorem readBack_decimal (hcs : ch cs ≤ ch '0') (hminus : ch '-' ≠ ch cs)
    (m : Int) : readBack 10 cs (decimal m) = m := by
  rw [decimal]
  by_cases hm : m < 0
  · rw [if_pos hm, List.singleton_append, readBack, List.dropWhile_cons,
      if_neg (fun h => hminus (of_decide_eq_true h))]
    dsimp only
    rw [if_pos rfl, value_numeral (by decide) (by decide)]
    omega
  · rw [if_neg hm, List.nil_append,
      readBack_numeral (by decide) (by decide) hcs]
    omega

/-- The ten calls are enough for an `int`. -/
theorem i2a_int (h : n < 2 ^ 32) :
    i2a 10 10 n = numeral 10 n ∧ i2a 16 10 n = numeral 16 n := by
  constructor
  · exact @i2a_eq_numeral 10 (by decide) (by decide) 9 n
      (Nat.lt_of_lt_of_le h (by decide))
  · exact @i2a_eq_numeral 16 (by decide) (by decide) 9 n
      (Nat.lt_of_lt_of_le h (by decide))

/-- `%d` of every `int` but the least one. -/
theorem convert_decimal {m : BitVec 32} (h : m ≠ BitVec.intMin 32) :
    convert 'd' (some (.int m)) = decimal m.toInt := by
  have hlo := BitVec.le_toInt (x := m)
  have hhi := BitVec.toInt_lt (x := m)
  rw [convert, if_neg (by decide), if_neg (by decide), if_pos rfl, decimal]
  by_cases hm : m.toInt < 0
  · have hneg : (m * -1).toInt = m.toInt.natAbs := by
      have hmul : m * -1 = -m := by
        rw [BitVec.mul_neg]
        exact congrArg _ (BitVec.mul_one m)
      rw [hmul, BitVec.toInt_neg_of_ne_intMin h]
      omega
    rw [if_pos hm, if_pos hm, hneg, (i2a_int (by omega)).1]
    rfl
  · have hnat : m.toInt = m.toInt.natAbs := by omega
    rw [if_neg hm, if_neg hm, List.nil_append, hnat,
      (i2a_int (by omega)).1, Int.natAbs_natCast]

/-- `%x` of an `int` that is not negative. -/
theorem convert_hexadecimal {m : BitVec 32} (h : m.msb = false) :
    convert 'x' (some (.int m)) = hexadecimal m := by
  rw [convert, if_neg (by decide), if_pos rfl,
    BitVec.toInt_eq_toNat_of_msb h, (i2a_int m.isLt).2]
  rfl

/-- The least `int` is its own negative, and `%d` prints nothing above `'0'`;
    neither does `%x` of any negative number. -/
theorem convert_low {m : BitVec 32} :
    (∀ b ∈ convert 'd' (some (.int (BitVec.intMin 32))), b ≠ 0 ∧ b ≤ ch '0') ∧
      (m.msb = true → ∀ b ∈ convert 'x' (some (.int m)),
        b ≠ 0 ∧ b ≤ ch '0') := by
  constructor
  · decide
  · intro hm b hb
    rw [convert, if_neg (by decide), if_pos rfl] at hb
    have hneg : m.toInt = -(m.toInt.natAbs : Int) := by
      have hlt := BitVec.toInt_neg_of_msb_true hm
      omega
    rw [hneg] at hb
    exact @i2a_neg 16 (by decide) (by decide) 10 _ b hb

end Printed

/-! ## The two formats -/

/-- One conversion prints these digits, filled up to the width, and they read
    back as the number. -/
def Exact (c : Char) (base : Nat) (digits : List Byte) (number : Int)
    (m : BitVec 32) (w : Nat) (zero : Bool) : Prop :=
  vsprintf (conversion zero w c) [.int m] = fill (fillChar zero) w digits ∧
    readBack base (fillChar zero) (vsprintf (conversion zero w c) [.int m]) =
      number

section Formats

variable {c : Char} {base w : Nat} {digits : List Byte} {number : Int}
  {m : BitVec 32} {zero : Bool}

/-- The two characters that fill are no digits but `0`, and not the sign. -/
theorem fillChar_le (zero : Bool) :
    ch (fillChar zero) ≤ ch '0' ∧ ch '-' ≠ ch (fillChar zero) := by
  cases zero <;> decide

/-- Where the digits are right, the width decides. -/
theorem exact_iff_width (hc : c = 'd' ∨ c = 'x')
    (hconv : convert c (some (.int m)) = digits) (h0 : ∀ b ∈ digits, b ≠ 0)
    (hlen : digits.length < 2 ^ 31)
    (hread : readBack base (fillChar zero) digits = number) :
    Exact c base digits number m w zero ↔ w < 2 ^ 31 := by
  rw [Exact, vsprintf_conversion hc, List.head?_cons, hconv, pad_eq_fill h0,
    readBack_fill, fill_align_iff hlen]
  exact and_iff_left hread

/-- Where they are not, no width helps. -/
theorem not_exact (hc : c = 'd' ∨ c = 'x')
    (hlow : ∀ b ∈ convert c (some (.int m)), b ≠ 0 ∧ b ≤ ch '0')
    (hdigits : ∃ b ∈ digits, ch '0' < b) :
    ¬ Exact c base digits number m w zero := by
  rintro ⟨h, -⟩
  rw [vsprintf_conversion hc, List.head?_cons,
    pad_eq_fill fun b hb => (hlow b hb).1] at h
  exact fill_ne (fillChar_le zero).1 (fun b hb => (hlow b hb).2) hdigits h

end Formats

/-- **NUMBERS**: `itoa` prints every number, `%d` every number but the least
    `int`, `%x` those without the top bit, each up to the width that `align_nr`
    holds. -/
theorem number_formatting (m : BitVec 32) (w : Nat) (zero : Bool) :
    itoa m = ch '0' :: ch 'x' :: hexadecimal m ∧
      (Exact 'd' 10 (decimal m.toInt) m.toInt m w zero ↔
        m ≠ BitVec.intMin 32 ∧ w < 2 ^ 31) ∧
      (Exact 'x' 16 (hexadecimal m) m.toNat m w zero ↔
        m.msb = false ∧ w < 2 ^ 31) := by
  obtain ⟨hfill, hminus⟩ := fillChar_le zero
  refine ⟨itoa_eq m, ?_, ?_⟩
  · by_cases hm : m = BitVec.intMin 32
    · have hbad : ¬ Exact 'd' 10 (decimal m.toInt) m.toInt m w zero := by
        refine not_exact (Or.inl rfl) ?_ ?_
        · rw [hm]
          exact (convert_low (m := m)).1
        · rw [hm]
          exact ⟨ch '8', by decide, by decide⟩
      exact ⟨fun h => absurd h hbad, fun h => absurd hm h.1⟩
    · have habs : m.toInt.natAbs < 10 ^ (9 + 1) := by
        have hlo := BitVec.le_toInt (x := m)
        have hhi := BitVec.toInt_lt (x := m)
        omega
      have hnum := numeral_length (by decide) habs
      rw [exact_iff_width (Or.inl rfl) (convert_decimal hm) ?_ ?_
        (readBack_decimal hfill hminus m.toInt)]
      · exact (and_iff_right hm).symm
      · intro b hb
        rw [decimal, List.mem_append] at hb
        rcases hb with hb | hb
        · split at hb
          · rw [List.mem_singleton.mp hb]
            decide
          · cases hb
        · exact numeral_ne_zero (by decide) (by decide) b hb
      · rw [decimal, List.length_append]
        split
        · rw [List.length_singleton]
          omega
        · rw [List.length_nil]
          omega
  · by_cases hm : m.msb = false
    · rw [exact_iff_width (Or.inr rfl) (convert_hexadecimal hm)
        (numeral_ne_zero (by decide) (by decide)) ?_
        (readBack_numeral (by decide) (by decide) hfill)]
      · exact (and_iff_right hm).symm
      · have hlt : m.toNat < 16 ^ (7 + 1) := m.isLt
        have hnum := numeral_length (by decide) hlt
        rw [hexadecimal]
        omega
    · have htop : m.msb = true := by
        cases h : m.msb with
        | true => rfl
        | false => exact absurd h hm
      have hpos : 0 < m.toNat := by
        refine Nat.pos_of_ne_zero fun h => hm ?_
        rw [BitVec.eq_of_toNat_eq (y := 0) h]
        rfl
      have hdigits : ∃ b ∈ hexadecimal m, ch '0' < b := by
        obtain ⟨b, rest, hrest, hb⟩ := @numeral_head 16 (by decide) (by decide)
          m.toNat hpos
        refine ⟨b, ?_, hb⟩
        rw [show hexadecimal m = b :: rest from hrest]
        exact List.mem_cons_self
      have hbad : ¬ Exact 'x' 16 (hexadecimal m) m.toNat m w zero :=
        not_exact (Or.inr rfl) (convert_low.2 htop) hdigits
      exact ⟨fun h => absurd h hbad, fun h => absurd h.1 hm⟩

/-- `%x` of `-1` prints one character, and no digit. -/
theorem minus_one_not_exact : ¬ (∀ (m : BitVec 32) (w : Nat) (zero : Bool),
    Exact 'd' 10 (decimal m.toInt) m.toInt m w zero ∧
      Exact 'x' 16 (hexadecimal m) m.toNat m w zero) := by
  intro h
  have hprinted := (h (-1) 0 false).2.1
  exact absurd hprinted (by decide)

end KosVsprintf
