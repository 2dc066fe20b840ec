import Kos.CStringProofs
import Kos.VsprintfProofs
import Kos.WhileLoopProofs

/-! # The scan of a format

    The loop of `vsprintf` along the bytes of its format, and behind them.

    * A round takes one byte (`round_eq`), and puts out what the walk along
      the list of characters does (`scan_ends`);
    * what is put out has no NUL, so `buf` holds a string as long as the value
      returned (`scan_result`);
    * a format that ends in a directive is read behind its NUL: the directive
      takes the NUL for its conversion (`scan_overruns`). -/

namespace KosFormatScan

open FlatMemory (Byte)
open CString
open KosVsprintf
open WhileLoop (Ends Visits visits_of_not)

/-- The length that `vsprintf` asserts. -/
def STR_BUFFER_LEN : Nat := 1024

/-! ## The loop -/

/-- `vsprintf` in front of a byte of the format: `fmt`, `p_next_arg`, and what
    is in `buf` in front of `p`. -/
structure Scan where
  mode : Mode
  pos  : Nat
  args : List Arg
  out  : List Byte

/-- A byte of the format as a character. -/
def chr (b : Byte) : Char := Char.ofNat b.toNat

/-- The argument is one for the conversion: an `int`, or a string that fits
    into `inner_buf`. -/
def takes (c : Char) : Option Arg → Bool
  | some (.int _) => c ≠ 's'
  | some (.str s) => c ≠ 'c' ∧ c ≠ 'x' ∧ c ≠ 'd' ∧
      (c = 's' → s.length < STR_BUFFER_LEN ∧ 0 ∉ s)
  | none => c ≠ 'c' ∧ c ≠ 'x' ∧ c ≠ 'd' ∧ c ≠ 's'

/-- A byte of a width, or else the `switch` and the two loops behind it; none
    where the argument is not one for the conversion. -/
def directive (cs : Char) (alignNr : Int) (c : Char) (w : Scan) : Option Scan :=
  if c.isDigit then
    some { w with mode := .width cs (nextAlign alignNr c), pos := w.pos + 1 }
  else if takes c w.args.head? then
    some { mode := .text, pos := w.pos + 1, args := restArgs c w.args,
           out := w.out ++ pad cs alignNr.toNat (convert c w.args.head?) }
  else none

/-- One byte of the format. -/
def round (fmt : Nat → Byte) (w : Scan) : Option Scan :=
  let c := chr (fmt w.pos)
  match w.mode with
  | .text =>
      if c ≠ '%' then
        some { w with pos := w.pos + 1, out := w.out ++ [fmt w.pos] }
      else some { w with mode := .percent, pos := w.pos + 1 }
  | .percent =>
      if c = '%' then
        some { w with mode := .text, pos := w.pos + 1,
                      out := w.out ++ [fmt w.pos] }
      else if c = '0' then
        some { w with mode := .width '0' 0, pos := w.pos + 1 }
      else directive ' ' 0 c w
  | .width cs alignNr => directive cs alignNr c w

/-- Only the loop itself looks for the NUL. -/
def scanning (fmt : Nat → Byte) : Option Scan → Prop
  | some ⟨.text, pos, _, _⟩ => fmt pos ≠ 0
  | some _ => True
  | none => False

/-- A round, where there is still something to do. -/
def scan (fmt : Nat → Byte) (w : Option Scan) : Option Scan := w.bind (round fmt)

/-- In front of the first character. -/
def start (args : List Arg) : Option Scan := some ⟨.text, 0, args, []⟩

/-! ## One byte -/

/-- The byte is the conversion of a directive. -/
def converts : Mode → Char → Bool
  | .text, _ => false
  | .percent, c => c ≠ '%' && !c.isDigit
  | .width _ _, c => !c.isDigit

/-- What the next character is part of. -/
def nextMode : Mode → Char → Mode
  | .text, c => if c = '%' then .percent else .text
  | .percent, c =>
      if c = '%' then .text
      else if c = '0' then .width '0' 0
      else if c.isDigit then .width ' ' (nextAlign 0 c)
      else .text
  | .width cs alignNr, c =>
      if c.isDigit then .width cs (nextAlign alignNr c) else .text

/-- The arguments that are left behind a character. -/
def nextArgs (m : Mode) (c : Char) (args : List Arg) : List Arg :=
  if converts m c then restArgs c args else args

/-- What a byte puts out. -/
def emits (m : Mode) (b : Byte) (args : List Arg) : List Byte :=
  match m with
  | .text => if chr b = '%' then [] else [b]
  | .percent =>
      if chr b = '%' then [b]
      else if (chr b).isDigit then []
      else pad ' ' 0 (convert (chr b) args.head?)
  | .width cs alignNr =>
      if (chr b).isDigit then []
      else pad cs alignNr.toNat (convert (chr b) args.head?)

/-- The scan behind a byte. -/
def pass (w : Scan) (b : Byte) : Scan where
  mode := nextMode w.mode (chr b)
  pos  := w.pos + 1
  args := nextArgs w.mode (chr b) w.args
  out  := w.out ++ emits w.mode b w.args

/-- The arguments match the conversions of a format. -/
def Matches : Mode → List Byte → List Arg → Prop
  | _, [], _ => True
  | m, b :: f, args => (converts m (chr b) = true → takes (chr b) args.head? = true)
      ∧ Matches (nextMode m (chr b)) f (nextArgs m (chr b) args)

/-- The format ends outside of a directive. -/
def complete : Mode → List Byte → Bool
  | .text, [] => true
  | .percent, [] => false
  | .width _ _, [] => false
  | m, b :: f => complete (nextMode m (chr b)) f

section Byte

variable {fmt : Nat → Byte} {w : Scan} {b : Byte} {m : Mode} {args : List Arg}
  {f : List Byte}

/-- **ONE ROUND**. -/
theorem round_eq (hb : fmt w.pos = b)
    (h : converts w.mode (chr b) = true → takes (chr b) w.args.head? = true) :
    round fmt w = some (pass w b) := by
  obtain ⟨m, pos, args, out⟩ := w
  dsimp only [pass] at hb h ⊢
  cases m with
  | text =>
      simp only [round, nextMode, nextArgs, converts, emits, hb]
      by_cases hp : chr b = '%'
      · simp [hp]
      · simp [hp]
  | percent =>
      simp only [converts] at h
      simp only [round, nextMode, nextArgs, converts, emits, hb, directive]
      by_cases hp : chr b = '%'
      · simp [hp]
      · by_cases h0 : chr b = '0'
        · simp [h0]
        · by_cases hd : (chr b).isDigit = true
          · simp [hp, h0, hd]
          · have ht := h (by simp [hp, hd])
            simp [hp, h0, hd, ht]
  | width cs alignNr =>
      simp only [converts] at h
      simp only [round, nextMode, nextArgs, converts, emits, hb, directive]
      by_cases hd : (chr b).isDigit = true
      · simp [hd]
      · have ht := h (by simp [hd])
        simp [hd, ht]

/-- The walk along the list of characters puts out the same. -/
theorem format_cons (hb : ch (chr b) = b) :
    format m (chr b :: f.map chr) args =
      emits m b args ++
        format (nextMode m (chr b)) (f.map chr) (nextArgs m (chr b) args) := by
  cases m with
  | text =>
      simp only [format, emits, nextMode, nextArgs, converts, hb]
      by_cases hp : chr b = '%'
      · simp [hp]
      · simp [hp]
  | percent =>
      simp only [format, emits, nextMode, nextArgs, converts, hb]
      by_cases hp : chr b = '%'
      · simp [hp]
      · by_cases h0 : chr b = '0'
        · simp [h0]
        · by_cases hd : (chr b).isDigit = true
          · simp [hp, h0, hd]
          · simp [hp, h0, hd]
  | width cs alignNr =>
      simp only [format, emits, nextMode, nextArgs, converts]
      by_cases hd : (chr b).isDigit = true
      · simp [hd]
      · simp [hd]

theorem ch_chr (b : Byte) : ch (chr b) = b := by
  have hlt := b.isLt
  have hvalid : b.toNat.isValidChar := Or.inl (by omega)
  have hnat : (Char.ofNat b.toNat).toNat = b.toNat := by
    rw [Char.ofNat, dif_pos hvalid]
    rfl
  rw [ch, chr, hnat, BitVec.ofNat_toNat, BitVec.setWidth_eq]

/-- The filling is not the NUL. -/
def FillOk : Mode → Prop
  | .width cs _ => ch cs ≠ 0
  | _ => True

theorem fillOk_next (h : FillOk m) (c : Char) : FillOk (nextMode m c) := by
  cases m with
  | text =>
      rw [nextMode]
      split <;> trivial
  | percent =>
      rw [nextMode]
      split
      · trivial
      · split
        · show ch '0' ≠ 0
          decide
        · split
          · show ch ' ' ≠ 0
            decide
          · trivial
  | width cs alignNr =>
      rw [nextMode]
      split
      · exact h
      · trivial

theorem pad_noNul {cs : Char} (hcs : ch cs ≠ 0) (n : Nat) (l : List Byte) :
    ∀ c ∈ pad cs n l, c ≠ 0 := by
  intro c hc
  rw [pad, List.mem_append] at hc
  rcases hc with hc | hc
  · rw [List.eq_of_mem_replicate hc]
    exact hcs
  · have h := List.mem_takeWhile_imp hc
    simpa using h

/-- **NO NUL** is put out. -/
theorem emits_noNul (hm : FillOk m) (hb : m = .text → b ≠ 0) :
    ∀ c ∈ emits m b args, c ≠ 0 := by
  intro c hc
  cases m with
  | text =>
      rw [emits] at hc
      split at hc
      · cases hc
      · obtain rfl := List.mem_singleton.mp hc
        exact hb rfl
  | percent =>
      rw [emits] at hc
      split at hc
      · rename_i hp
        obtain rfl := List.mem_singleton.mp hc
        rw [← ch_chr c, hp]
        decide
      · split at hc
        · cases hc
        · exact pad_noNul (by decide) _ _ c hc
  | width cs alignNr =>
      rw [emits] at hc
      split at hc
      · cases hc
      · exact pad_noNul hm _ _ c hc

/-- The NUL is a conversion that takes no argument. -/
theorem takes_nul (a : Option Arg) : takes (chr 0) a = true := by
  rcases a with _ | v | s
  · decide
  · rfl
  · rw [takes, decide_eq_true_iff]
    exact ⟨by decide, by decide, by decide, fun h => absurd h (by decide)⟩

end Byte

/-- The characters of a conversion fit into `inner_buf`. -/
theorem convert_fits {c : Char} {a : Option Arg} (h : takes c a = true) :
    (convert c a).length < STR_BUFFER_LEN := by
  have hlen : STR_BUFFER_LEN = 1024 := rfl
  have hdigits : ∀ base : Int, 10 ≤ base → ∀ v : BitVec 32,
      (i2a base 10 v.toInt).length ≤ 10 := by
    intro base hbase v
    refine i2a_length (by omega) 10 (Nat.lt_of_lt_of_le ?_
      (Nat.pow_le_pow_left (show 10 ≤ base.toNat by omega) 10))
    have hlt := v.toInt_lt
    have hle := v.le_toInt
    omega
  rcases a with _ | v | s
  · exact Nat.lt_of_lt_of_eq (Nat.succ_pos _) hlen.symm
  · have h10 := hdigits 10 (by omega) v
    have h16 := hdigits 16 (by omega) v
    have hneg := hdigits 10 (by omega) (v * -1)
    rw [convert]
    split
    · exact hlen ▸ (by decide : 1 < 1024)
    · split
      · omega
      · split
        · split
          · rw [List.length_cons]
            omega
          · omega
        · exact hlen ▸ Nat.succ_pos _
  · rw [takes, decide_eq_true_iff] at h
    rw [convert]
    split
    · rename_i hs
      exact (h.2.2.2 hs).1
    · exact hlen ▸ Nat.succ_pos _

/-! ## The whole format -/

section Runs

variable {fmt : Nat → Byte}

theorem scanning_iff {w : Scan} :
    scanning fmt (some w) ↔ (w.mode = .text → fmt w.pos ≠ 0) := by
  obtain ⟨m, pos, args, out⟩ := w
  cases m with
  | text => exact ⟨fun h _ => h, fun h => h rfl⟩
  | percent => exact iff_of_true trivial fun h => Mode.noConfusion h
  | width cs alignNr => exact iff_of_true trivial fun h => Mode.noConfusion h

/-- **ONE BYTE** in front of the NUL. -/
theorem scan_byte {w : Scan} {b : Byte} {f : List Byte}
    (hstr : StrAt fmt w.pos (b :: f)) (hargs : Matches w.mode (b :: f) w.args) :
    scanning fmt (some w) ∧ scan fmt (some w) = some (pass w b) ∧
      StrAt fmt (pass w b).pos f ∧ Matches (pass w b).mode f (pass w b).args := by
  obtain ⟨hb, hne, hrest⟩ := strAt_cons.mp hstr
  exact ⟨scanning_iff.mpr fun _ => hb ▸ hne, round_eq hb hargs.1, hrest,
    hargs.2⟩

theorem complete_cons {w : Scan} {b : Byte} {f : List Byte} :
    complete w.mode (b :: f) = complete (pass w b).mode f := by
  obtain ⟨m, pos, args, out⟩ := w
  cases m <;> rfl

theorem complete_nil {w : Scan} : complete w.mode [] = true ↔ w.mode = .text := by
  obtain ⟨m, pos, args, out⟩ := w
  cases m with
  | text => exact iff_of_true rfl rfl
  | percent => exact iff_of_false Bool.false_ne_true Mode.noConfusion
  | width cs alignNr => exact iff_of_false Bool.false_ne_true Mode.noConfusion

/-- **A COMPLETE FORMAT** is scanned to its NUL, and puts out what the walk
    along its characters does. -/
theorem scan_ends : ∀ {f : List Byte} {w : Scan}, StrAt fmt w.pos f →
    Matches w.mode f w.args → complete w.mode f = true →
    ∃ v, Ends (scanning fmt) (scan fmt) (some w) (some v) ∧
      v.out = w.out ++ format w.mode (f.map chr) w.args := by
  intro f
  induction f with
  | nil =>
      intro w hstr _ hc
      have hm := complete_nil.mp hc
      refine ⟨w, .stop fun h => scanning_iff.mp h hm (strAt_nil.mp hstr), ?_⟩
      rw [List.map_nil, hm, format, List.append_nil]
  | cons b f ih =>
      intro w hstr hargs hc
      obtain ⟨hgo, hscan, hrest, hargs'⟩ := scan_byte hstr hargs
      obtain ⟨v, hends, hout⟩ := ih hrest hargs' (complete_cons ▸ hc)
      refine ⟨v, .round hgo (hscan ▸ hends), ?_⟩
      rw [hout, List.map_cons, format_cons (ch_chr b), pass, List.append_assoc]

/-- **IN BOUNDS**: nothing behind the NUL is looked at. -/
theorem scan_bounded {v : Scan} : ∀ {f : List Byte} {w : Scan},
    StrAt fmt w.pos f → Matches w.mode f w.args → complete w.mode f = true →
    Visits (scanning fmt) (scan fmt) (some w) (some v) →
    v.pos ≤ w.pos + f.length := by
  intro f
  induction f with
  | nil =>
      intro w hstr _ hc hv
      have hnot : ¬ scanning fmt (some w) := fun h =>
        scanning_iff.mp h (complete_nil.mp hc) (strAt_nil.mp hstr)
      rw [Option.some.inj (visits_of_not hv hnot)]
      exact Nat.le_refl _
  | cons b f ih =>
      intro w hstr hargs hc hv
      obtain ⟨-, hscan, hrest, hargs'⟩ := scan_byte hstr hargs
      have hpos : (pass w b).pos = w.pos + 1 := rfl
      rw [List.length_cons]
      cases hv with
      | start => omega
      | round _ hv =>
          rw [hscan] at hv
          have hle := ih hrest hargs' (complete_cons ▸ hc) hv
          omega

/-- **OUT OF BOUNDS**: a format that ends in a directive is left behind its
    NUL. -/
theorem scan_overruns : ∀ {f : List Byte} {w : Scan}, StrAt fmt w.pos f →
    Matches w.mode f w.args → complete w.mode f = false →
    ∃ v, Visits (scanning fmt) (scan fmt) (some w) (some v) ∧
      v.pos = w.pos + f.length + 1 := by
  intro f
  induction f with
  | nil =>
      intro w hstr _ hc
      have hm : w.mode ≠ .text := fun h =>
        Bool.false_ne_true (hc.symm.trans (complete_nil.mpr h))
      have hround := round_eq (strAt_nil.mp hstr) fun _ => takes_nul w.args.head?
      refine ⟨pass w 0, .round (scanning_iff.mpr fun h => absurd h hm) ?_, rfl⟩
      rw [show scan fmt (some w) = some (pass w 0) from hround]
      exact .start
  | cons b f ih =>
      intro w hstr hargs hc
      obtain ⟨hgo, hscan, hrest, hargs'⟩ := scan_byte hstr hargs
      obtain ⟨v, hv, hpos⟩ := ih hrest hargs' (complete_cons ▸ hc)
      refine ⟨v, .round hgo (hscan ▸ hv), ?_⟩
      rw [hpos, List.length_cons, show (pass w b).pos = w.pos + 1 from rfl]
      omega

/-- What a format puts out has no NUL. -/
theorem format_noNul : ∀ {f : List Byte} {m : Mode} {args : List Arg},
    FillOk m → (∀ b ∈ f, b ≠ 0) →
    ∀ c ∈ format m (f.map chr) args, c ≠ 0 := by
  intro f
  induction f with
  | nil =>
      intro m args _ _ c hc
      rw [List.map_nil] at hc
      cases m <;> cases hc
  | cons b f ih =>
      intro m args hm hf c hc
      rw [List.map_cons, format_cons (ch_chr b), List.mem_append] at hc
      rcases hc with hc | hc
      · exact emits_noNul hm (fun _ => hf b List.mem_cons_self) c hc
      · exact ih (fillOk_next hm _)
          (fun b hb => hf b (List.mem_cons_of_mem _ hb)) c hc

end Runs

/-! ## What is read and returned -/

/-- `vsprintf` returns `r`, with `buf'` in the place of `buf`. -/
def Vsprintf (fmt buf : Nat → Byte) (args : List Arg) (buf' : Nat → Byte)
    (r : BitVec 32) : Prop :=
  ∃ w, Ends (scanning fmt) (scan fmt) (start args) (some w) ∧
    buf' = strcpy buf 0 w.out ∧ r = BitVec.ofNat 32 w.out.length

/-- The bytes of `fmt` that `vsprintf` reads. -/
def ReadsAt (fmt : Nat → Byte) (args : List Arg) (i : Nat) : Prop :=
  ∃ w, Visits (scanning fmt) (scan fmt) (start args) (some w) ∧ w.pos = i

/-- The length of a string, as a word. -/
def strlen (s : List Byte) : BitVec 32 := BitVec.ofNat 32 s.length

/-- No byte behind the NUL is read, and `vsprintf` returns, with the length of
    the string it leaves in `buf`. -/
structure Safe (fmt : Nat → Byte) (f : List Byte) (args : List Arg) : Prop where
  bounded : ∀ i, ReadsAt fmt args i → i ≤ f.length
  returns : ∀ buf, ∃ buf' r s, Vsprintf fmt buf args buf' r ∧ StrAt buf' 0 s ∧
    r = strlen s

section Scanning

variable {fmt : Nat → Byte} {f : List Byte} {args : List Arg}

/-- **THE RESULT** is the string that the walk along the characters yields. -/
theorem scan_result (hfmt : StrAt fmt 0 f) (hargs : Matches .text f args)
    (hc : complete .text f = true) (buf : Nat → Byte) :
    let s := format .text (f.map chr) args
    Vsprintf fmt buf args (strcpy buf 0 s) (strlen s) ∧
      StrAt (strcpy buf 0 s) 0 s := by
  obtain ⟨w, hends, hout⟩ := @scan_ends fmt f ⟨.text, 0, args, []⟩ hfmt hargs hc
  rw [List.nil_append] at hout
  refine ⟨⟨w, hends, ?_, ?_⟩, strAt_strcpy (format_noNul trivial hfmt.noNul)⟩
  · rw [hout]
  · rw [hout, strlen]

/-- **THE SCAN IS SAFE** if and only if the format does not end inside a
    directive. -/
theorem safe_iff (hfmt : StrAt fmt 0 f) (hargs : Matches .text f args) :
    Safe fmt f args ↔ complete .text f = true := by
  constructor
  · intro h
    by_contra hc
    obtain ⟨w, hw, hpos⟩ := @scan_overruns fmt f ⟨.text, 0, args, []⟩ hfmt hargs
      (Bool.eq_false_iff.mpr hc)
    have hle := h.bounded w.pos ⟨w, hw, rfl⟩
    omega
  · intro hc
    refine ⟨?_, fun buf => ?_⟩
    · rintro i ⟨w, hw, rfl⟩
      have hle : w.pos ≤ 0 + f.length :=
        @scan_bounded fmt w f ⟨.text, 0, args, []⟩ hfmt hargs hc hw
      omega
    · obtain ⟨hrun, hstr⟩ := scan_result hfmt hargs hc buf
      exact ⟨_, _, _, hrun, hstr, rfl⟩

end Scanning

/-- "%s" -/
theorem safe_iff_string :
    Safe (strcpy (fun _ => 0x25) 0 [0x25, 0x73]) [0x25, 0x73]
      [.str [0x61]] := by
  have hargs : Matches .text [0x25, 0x73] [.str [0x61]] :=
    ⟨fun h => absurd h (by decide), fun _ => by decide, trivial⟩
  exact (safe_iff (strAt_strcpy (by decide)) hargs).mpr (by decide)

/-- "%" -/
theorem percent_overruns : ¬ ∀ (fmt : Nat → Byte) (f : List Byte)
    (args : List Arg), StrAt fmt 0 f → Matches .text f args →
      Safe fmt f args := by
  intro hall
  have hstr : StrAt (strcpy (fun _ => 0x25) 0 [0x25]) 0 [0x25] :=
    strAt_strcpy (by decide)
  have hargs : Matches .text [0x25] [] :=
    ⟨fun h => absurd h (by decide), trivial⟩
  exact absurd ((safe_iff hstr hargs).mp (hall _ _ _ hstr hargs)) (by decide)

end KosFormatScan
