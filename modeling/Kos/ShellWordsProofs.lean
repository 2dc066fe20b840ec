import Kos.CStringProofs
import Kos.MaximalRunsProofs
import Kos.WhileLoopProofs

/-! # The words of a line

    The loop of `shell` that makes `argv` of the line in `rdbuf`.

    * Behind `p` rounds the starts of the words that ended are in `argv`, and
      NULs behind these words (`splitting_round`);
    * the loop ends behind the NUL of the line, with the maximal runs of
      characters that are no spaces (`split_ends`);
    * `read` may fill `rdbuf`, which leaves no room for the NUL, and a line
      without a word leaves `open` without a path (`splits_iff`). -/

namespace KosShellWords

open FlatMemory (Byte)
open CString
open MaximalRuns
open WhileLoop (Ends ends_iterate ends_unique)

/-- The room for a line. -/
def STDIN_LEN : Nat := 128

/-- The length of `argv`. -/
def PROC_STACK_RESERVERD : Nat := 0x400

/-! ## The loop -/

/-- The variables of the loop. Pointers into `rdbuf` are distances from it,
    and the stores into the two arrays are kept track of. -/
structure Split where
  rdbuf : Nat → Byte
  argv  : Nat → Option Nat
  argc  : Nat
  p     : Nat
  s     : Option Nat
  word  : Bool
  ch    : Byte
  rdbufStores : List Nat
  argvStores  : List Nat

/-- A store into the line. -/
def Split.storeRdbuf (y : Split) (k : Nat) (b : Byte) : Split :=
  { y with
    rdbuf := Function.update y.rdbuf k b
    rdbufStores := k :: y.rdbufStores }

/-- A store into `argv`. -/
def Split.storeArgv (y : Split) (k : Nat) (a : Option Nat) : Split :=
  { y with
    argv := Function.update y.argv k a
    argvStores := k :: y.argvStores }

/-- `if (*p != ' ' && *p != 0 && !word)` -/
def startWord (y : Split) : Split :=
  if y.rdbuf y.p ≠ 0x20 ∧ y.rdbuf y.p ≠ 0 ∧ y.word = false then
    { y with
      s := some y.p
      word := true }
  else y

/-- `if ((*p == ' ' || *p == 0) && word)` -/
def endWord (y : Split) : Split :=
  if (y.rdbuf y.p = 0x20 ∨ y.rdbuf y.p = 0) ∧ y.word = true then
    let y := { y with word := false }
    -- `argv[argc++] = s;`
    let y := y.storeArgv y.argc y.s
    let y := { y with argc := y.argc + 1 }
    y.storeRdbuf y.p 0
  else y

/-- The body of the loop. -/
def round (y : Split) : Split :=
  let y := { y with ch := y.rdbuf y.p }
  let y := endWord (startWord y)
  { y with p := y.p + 1 }

/-- The variables in front of the loop; `rdbuf` holds what `read` left there,
    and `argv` and `s` are as they were. -/
def begin (rdbuf : Nat → Byte) (argv : Nat → Option Nat) (s : Option Nat) (r : Nat) :
    Split :=
  Split.storeRdbuf ⟨rdbuf, argv, 0, 0, s, false, 0, [], []⟩ r 0

/-- From `rdbuf[r] = 0` to `argv[argc] = 0`. -/
def SplitLine (rdbuf : Nat → Byte) (argv : Nat → Option Nat) (s : Option Nat)
    (r : Nat) (z : Split) : Prop :=
  ∃ y, Ends (fun y : Split => y.ch ≠ 0) round (round (begin rdbuf argv s r)) y ∧
    z = y.storeArgv y.argc none

/-! ## The words -/

/-- The byte `j` of the line is a character of a word. -/
def Letter (text : List Byte) (j : Nat) : Prop :=
  text.getD j 0 ≠ 0x20 ∧ text.getD j 0 ≠ 0

instance (text : List Byte) (j : Nat) : Decidable (Letter text j) :=
  inferInstanceAs (Decidable (_ ∧ _))

/-- A byte of `rdbuf` behind `p` rounds. -/
def cut (text : List Byte) (p j : Nat) : Byte :=
  if j < p ∧ ¬ Letter text j ∧ Inside (Letter text) j then 0 else text.getD j 0

/-- **THE INVARIANT** of the loop, behind `p` rounds. -/
structure Splitting (text : List Byte) (argv : Nat → Option Nat) (p : Nat)
    (y : Split) : Prop where
  at_p   : y.p = p
  ch     : 0 < p → y.ch = text.getD (p - 1) 0
  rdbuf  : ∀ j ≤ text.length, y.rdbuf j = cut text p j
  word   : y.word = true ↔ Inside (Letter text) p
  start  : Inside (Letter text) p → y.s = some (current (Letter text) p)
  argc   : y.argc = (ended (Letter text) p).length
  argv   : ∀ k, y.argv k =
    if k < y.argc then (ended (Letter text) p)[k]? else argv k
  inRdbuf : ∀ k ∈ y.rdbufStores, k ≤ text.length
  full    : text.length ∈ y.rdbufStores
  inArgv  : ∀ k ∈ y.argvStores, k < y.argc

section Loop

variable {text : List Byte} {rdbuf : Nat → Byte} {argv : Nat → Option Nat}
  {s : Option Nat} {p : Nat} {y : Split}

theorem splitting_begin (h : ∀ k < text.length, rdbuf k = text.getD k 0) :
    Splitting text argv 0 (begin rdbuf argv s text.length) := by
  refine ⟨rfl, fun h0 => absurd h0 (Nat.lt_irrefl 0), fun j hj => ?_,
    iff_of_false Bool.false_ne_true id, fun h0 => absurd h0 id, rfl,
    fun k => rfl, fun k hk => ?_, List.mem_singleton.mpr rfl, fun k hk => ?_⟩
  · rw [cut, if_neg fun h0 => absurd h0.1 (Nat.not_lt_zero j)]
    show Function.update rdbuf text.length 0 j = _
    rcases Nat.eq_or_lt_of_le hj with rfl | hlt
    · rw [Function.update_self, List.getD_eq_default _ _ (Nat.le_refl _)]
    · rw [Function.update_of_ne (Nat.ne_of_lt hlt), h j hlt]
  · exact Nat.le_of_eq (List.mem_singleton.mp hk)
  · cases hk

/-- Where no word ends the bytes stay. -/
theorem cut_succ {j : Nat} (h : ¬ (¬ Letter text p ∧ Inside (Letter text) p)) :
    cut text (p + 1) j = cut text p j := by
  rw [cut, cut]
  refine if_congr ⟨fun h' => ⟨?_, h'.2⟩, fun h' => ⟨Nat.lt_succ_of_lt h'.1, h'.2⟩⟩
    rfl rfl
  rcases Nat.eq_or_lt_of_le (Nat.le_of_lt_succ h'.1) with rfl | hlt
  · exact absurd h'.2 h
  · exact hlt

/-- Where a word ends its end is cut off. -/
theorem cut_end {j : Nat} (h : ¬ Letter text p ∧ Inside (Letter text) p) :
    cut text (p + 1) j = if j = p then 0 else cut text p j := by
  by_cases hj : j = p
  · rw [if_pos hj, cut, if_pos ⟨by omega, hj ▸ h⟩]
  · rw [if_neg hj, cut, cut]
    refine if_congr ⟨fun h' => ⟨by omega, h'.2⟩, fun h' => ⟨by omega, h'.2⟩⟩
      rfl rfl

theorem cut_self : cut text p p = text.getD p 0 :=
  if_neg fun h => absurd h.1 (Nat.lt_irrefl p)

/-- The first character of a word. -/
theorem round_start (h : y.rdbuf y.p ≠ 0x20 ∧ y.rdbuf y.p ≠ 0)
    (hw : y.word = false) :
    round y = { y with
      ch := y.rdbuf y.p
      s := some y.p
      word := true
      p := y.p + 1 } := by
  rw [round, startWord, if_pos ⟨h.1, h.2, hw⟩, endWord,
    if_neg fun h' => h'.1.elim h.1 h.2]

/-- The space or the NUL behind a word. -/
theorem round_end (h : y.rdbuf y.p = 0x20 ∨ y.rdbuf y.p = 0)
    (hw : y.word = true) :
    round y = { y with
      ch := y.rdbuf y.p
      word := false
      argv := Function.update y.argv y.argc y.s
      argvStores := y.argc :: y.argvStores
      argc := y.argc + 1
      rdbuf := Function.update y.rdbuf y.p 0
      rdbufStores := y.p :: y.rdbufStores
      p := y.p + 1 } := by
  rw [round, startWord, if_neg fun h' => h.elim h'.1 h'.2.1, endWord,
    if_pos ⟨h, hw⟩]
  rfl

/-- Another character of a word. -/
theorem round_in (h : y.rdbuf y.p ≠ 0x20 ∧ y.rdbuf y.p ≠ 0)
    (hw : y.word = true) :
    round y = { y with
      ch := y.rdbuf y.p
      p := y.p + 1 } := by
  rw [round, startWord, if_neg fun h' => Bool.false_ne_true
    (h'.2.2.symm.trans hw), endWord, if_neg fun h' => h'.1.elim h.1 h.2]

/-- A space or the NUL outside of the words. -/
theorem round_out (h : y.rdbuf y.p = 0x20 ∨ y.rdbuf y.p = 0)
    (hw : y.word = false) :
    round y = { y with
      ch := y.rdbuf y.p
      p := y.p + 1 } := by
  rw [round, startWord, if_neg fun h' => h.elim h'.1 h'.2.1, endWord,
    if_neg fun h' => Bool.false_ne_true (hw.symm.trans h'.2)]

/-- The round goes on to the next byte and stores nothing. -/
structure Unstored (y z : Split) : Prop where
  next  : z.p = y.p + 1
  ch    : z.ch = y.rdbuf y.p
  rdbuf : z.rdbuf = y.rdbuf
  argv  : z.argv = y.argv
  argc  : z.argc = y.argc
  rdbufStores : z.rdbufStores = y.rdbufStores
  argvStores  : z.argvStores = y.argvStores

theorem byte_eq (h : Splitting text argv p y) (hp : p ≤ text.length) :
    y.rdbuf y.p = text.getD p 0 := by
  rw [h.at_p, h.rdbuf p hp, cut_self]

/-- Where no word ends nothing is stored. -/
theorem splitting_unstored {z : Split} (h : Splitting text argv p y)
    (hp : p ≤ text.length) (hends : ¬ (¬ Letter text p ∧ Inside (Letter text) p))
    (hz : Unstored y z) (hword : z.word = true ↔ Letter text p)
    (hs : Letter text p → z.s = some (current (Letter text) (p + 1))) :
    Splitting text argv (p + 1) z := by
  have hended : ended (Letter text) (p + 1) = ended (Letter text) p :=
    if_neg hends
  refine ⟨?_, fun _ => hz.ch.trans (byte_eq h hp), fun j hj => ?_, hword, hs, ?_,
    fun k => ?_, hz.rdbufStores ▸ h.inRdbuf, hz.rdbufStores ▸ h.full, ?_⟩
  · rw [hz.next, h.at_p]
  · rw [hz.rdbuf, cut_succ hends]
    exact h.rdbuf j hj
  · rw [hz.argc, hended]
    exact h.argc
  · rw [hz.argv, hz.argc, hended]
    exact h.argv k
  · rw [hz.argvStores, hz.argc]
    exact h.inArgv

/-- Where a word ends it is stored, and its end is cut off. -/
theorem splitting_end (h : Splitting text argv p y) (hp : p ≤ text.length)
    (hends : ¬ Letter text p ∧ Inside (Letter text) p)
    (hspace : y.rdbuf y.p = 0x20 ∨ y.rdbuf y.p = 0) :
    Splitting text argv (p + 1) (round y) := by
  have hw : y.word = true := h.word.mpr hends.2
  have hended : ended (Letter text) (p + 1) =
      ended (Letter text) p ++ [current (Letter text) p] := if_pos hends
  rw [round_end hspace hw]
  refine ⟨congrArg (· + 1) h.at_p, fun _ => byte_eq h hp, fun j hj => ?_,
    iff_of_false Bool.false_ne_true hends.1, fun hl => absurd hl hends.1, ?_,
    fun k => ?_, fun k hk => ?_, List.mem_cons_of_mem _ h.full, fun k hk => ?_⟩
  · rw [cut_end hends]
    show Function.update y.rdbuf y.p 0 j = _
    rw [Function.update_apply, h.at_p, h.rdbuf j hj]
  · rw [hended, List.length_append, List.length_singleton, ← h.argc]
  · show Function.update y.argv y.argc y.s k = _
    rw [Function.update_apply, hended]
    by_cases hk : k = y.argc
    · rw [if_pos hk, if_pos (show k < y.argc + 1 by omega), h.start hends.2,
        List.getElem?_append_right (by rw [← h.argc]; omega), ← h.argc, hk,
        Nat.sub_self]
      rfl
    · rw [if_neg hk, h.argv k]
      by_cases hlt : k < y.argc
      · rw [if_pos hlt, if_pos (show k < y.argc + 1 by omega),
          List.getElem?_append_left (by rw [← h.argc]; exact hlt)]
      · rw [if_neg hlt, if_neg (show ¬ k < y.argc + 1 by omega)]
  · rcases List.mem_cons.mp hk with rfl | hk
    · rw [h.at_p]
      exact hp
    · exact h.inRdbuf k hk
  · rcases List.mem_cons.mp hk with rfl | hk
    · exact Nat.lt_succ_self _
    · exact Nat.lt_succ_of_lt (h.inArgv k hk)

/-- **ONE ROUND** keeps the invariant. -/
theorem splitting_round (h : Splitting text argv p y) (hp : p ≤ text.length) :
    Splitting text argv (p + 1) (round y) := by
  have hb := byte_eq h hp
  have hletter : Letter text p → y.rdbuf y.p ≠ 0x20 ∧ y.rdbuf y.p ≠ 0 := by
    rw [hb]
    exact id
  have hspace : ¬ Letter text p → y.rdbuf y.p = 0x20 ∨ y.rdbuf y.p = 0 := by
    rw [hb, Letter, Decidable.not_and_iff_or_not, not_not, not_not]
    exact id
  by_cases hin : Inside (Letter text) p
  · have hw := h.word.mpr hin
    by_cases hl : Letter text p
    · rw [round_in (hletter hl) hw]
      refine splitting_unstored h hp (fun h' => h'.1 hl)
        ⟨rfl, rfl, rfl, rfl, rfl, rfl, rfl⟩ (iff_of_true hw hl) fun _ => ?_
      rw [current, if_neg fun h' => h'.2 hin]
      exact h.start hin
    · exact splitting_end h hp ⟨hl, hin⟩ (hspace hl)
  · have hw : y.word = false := Bool.eq_false_iff.mpr fun h' =>
      hin (h.word.mp h')
    by_cases hl : Letter text p
    · rw [round_start (hletter hl) hw]
      refine splitting_unstored h hp (fun h' => h'.1 hl)
        ⟨rfl, rfl, rfl, rfl, rfl, rfl, rfl⟩ (iff_of_true rfl hl) fun _ => ?_
      rw [current, if_pos ⟨hl, hin⟩]
      exact congrArg some h.at_p
    · rw [round_out (hspace hl) hw]
      exact splitting_unstored h hp (fun h' => hin h'.2)
        ⟨rfl, rfl, rfl, rfl, rfl, rfl, rfl⟩
        (iff_of_false (by rw [hw]; exact Bool.false_ne_true) hl)
        fun h' => absurd h' hl

/-- **ALL ROUNDS**: the loop ends behind the NUL of the line. -/
theorem split_ends (htext : ∀ b ∈ text, b ≠ 0)
    (h : ∀ k < text.length, rdbuf k = text.getD k 0) :
    ∃ y, Ends (fun y : Split => y.ch ≠ 0) round
        (round (begin rdbuf argv s text.length)) y ∧
      Splitting text argv (text.length + 1) y := by
  have hrounds : ∀ k ≤ text.length, Splitting text argv (k + 1)
      (round^[k] (round (begin rdbuf argv s text.length))) := by
    intro k
    induction k with
    | zero => exact fun hk => splitting_round (splitting_begin h) hk
    | succ k ih =>
        intro hk
        rw [Function.iterate_succ_apply']
        exact splitting_round (ih (Nat.le_of_succ_le hk)) hk
  have hch : ∀ k ≤ text.length,
      (round^[k] (round (begin rdbuf argv s text.length))).ch =
        text.getD k 0 := fun k hk => (hrounds k hk).ch (Nat.succ_pos k)
  refine ⟨_, ends_iterate (n := text.length) (fun k hk => ?_) ?_,
    hrounds _ (Nat.le_refl _)⟩
  · rw [hch k (Nat.le_of_lt hk), List.getD_eq_getElem _ _ hk]
    exact htext _ (List.getElem_mem hk)
  · rw [hch _ (Nat.le_refl _), List.getD_eq_default _ _ (Nat.le_refl _)]
    exact fun h => h rfl

end Loop

/-! ## The words of the line -/

/-- The stores are in the arrays, the words are the maximal runs of characters
    in their order, each with its NUL, and behind them and only there `argv`
    is null. -/
structure IsSplit (text : List Byte) (z : Split) : Prop where
  inRdbuf : ∀ k ∈ z.rdbufStores, k < STDIN_LEN
  inArgv  : ∀ k ∈ z.argvStores, k < PROC_STACK_RESERVERD
  each    : ∀ k < z.argc, ∃ a b, z.argv k = some a ∧ Run (Letter text) a b
  all     : ∀ a b, Run (Letter text) a b → ∃ k < z.argc, z.argv k = some a
  order   : ∀ k k' a a', k < k' → k' < z.argc → z.argv k = some a →
    z.argv k' = some a' → a < a'
  strings : ∀ a b, Run (Letter text) a b →
    StrAt z.rdbuf a ((text.drop a).take (b - a))
  last    : z.argv z.argc = none
  path    : z.argv 0 ≠ none

/-- What `shell` makes of the line, whatever the arrays held. -/
def Splits (text : List Byte) : Prop :=
  ∀ (rdbuf : Nat → Byte) (argv : Nat → Option Nat) (s : Option Nat),
    (∀ k < text.length, rdbuf k = text.getD k 0) →
    ∃ z, SplitLine rdbuf argv s text.length z ∧ IsSplit text z

section Words

variable {text : List Byte} {argv : Nat → Option Nat} {y : Split} {a b j : Nat}

theorem letter_lt (h : Letter text j) : j < text.length := by
  by_contra hge
  exact h.2 (List.getD_eq_default _ _ (Nat.not_lt.mp hge))

theorem run_le (h : Run (Letter text) a b) : b ≤ text.length := by
  have hlt := h.lt
  have hlast := letter_lt (h.all (b - 1) (by omega) (by omega))
  omega

theorem letter_exists_iff (htext : ∀ b ∈ text, b ≠ 0) :
    (∃ j, Letter text j) ↔ ∃ c ∈ text, c ≠ 0x20 := by
  constructor
  · rintro ⟨j, hj⟩
    have hlt := letter_lt hj
    refine ⟨text[j], List.getElem_mem hlt, ?_⟩
    rw [← List.getD_eq_getElem _ 0 hlt]
    exact hj.1
  · rintro ⟨c, hc, hne⟩
    obtain ⟨j, hlt, rfl⟩ := List.getElem_of_mem hc
    refine ⟨j, ?_, ?_⟩
    · rwa [List.getD_eq_getElem _ _ hlt]
    · rw [List.getD_eq_getElem _ _ hlt]
      exact htext _ hc

/-- The string of a word. -/
theorem strAt_word (htext : ∀ b ∈ text, b ≠ 0)
    (h : Splitting text argv (text.length + 1) y)
    (hrun : Run (Letter text) a b) :
    StrAt y.rdbuf a ((text.drop a).take (b - a)) := by
  have hlt := hrun.lt
  have hle := run_le hrun
  have hlen : ((text.drop a).take (b - a)).length = b - a := by
    rw [List.length_take, List.length_drop]
    omega
  refine ⟨fun k hk => ?_, ?_, fun c hc => ?_⟩
  · rw [hlen] at hk
    have hl := hrun.all (a + k) (by omega) (by omega)
    rw [h.rdbuf _ (by omega), cut, if_neg fun h' => h'.2.1 hl,
      List.getD_eq_getElem _ _ (by omega),
      List.getD_eq_getElem _ _ (by rw [hlen]; exact hk), List.getElem_take,
      List.getElem_drop]
  · have hin : Inside (Letter text) b := by
      obtain ⟨c, rfl⟩ := Nat.exists_eq_add_of_lt hlt
      exact hrun.all _ (by omega) (by omega)
    rw [hlen, show a + (b - a) = b by omega, h.rdbuf b hle, cut,
      if_pos ⟨by omega, hrun.right, hin⟩]
  · exact htext c (List.mem_of_mem_drop (List.mem_of_mem_take hc))

/-- `argv` in front of `argc`. -/
theorem argv_lt (h : Splitting text argv (text.length + 1) y) {k : Nat}
    (hk : k < y.argc) :
    (y.storeArgv y.argc none).argv k =
      (ended (Letter text) (text.length + 1))[k]? := by
  show Function.update y.argv y.argc none k = _
  rw [Function.update_of_ne (Nat.ne_of_lt hk), h.argv k, if_pos hk]

/-- **BEHIND THE LOOP** the words are in `argv`; the two conditions are the
    ones on the store of the NUL and on the first word. -/
theorem isSplit_iff (htext : ∀ b ∈ text, b ≠ 0) (hr : text.length ≤ STDIN_LEN)
    (h : Splitting text argv (text.length + 1) y) :
    IsSplit text (y.storeArgv y.argc none) ↔
      text.length < STDIN_LEN ∧ ∃ c ∈ text, c ≠ 0x20 := by
  have hargc := h.argc
  have hsize : STDIN_LEN = 128 := rfl
  have hstack : PROC_STACK_RESERVERD = 1024 := rfl
  have hfirst : (y.storeArgv y.argc none).argv 0 ≠ none ↔
      ∃ c ∈ text, c ≠ 0x20 := by
    have hpast : ∀ j, text.length ≤ j → ¬ Letter text j := fun j hj hl =>
      absurd (letter_lt hl) (Nat.not_lt.mpr hj)
    rw [← letter_exists_iff htext, ← ended_ne_nil hpast]
    rcases Nat.eq_zero_or_pos y.argc with h0 | hpos
    · refine iff_of_false (fun hne => hne ?_) (fun hne => hne ?_)
      · show Function.update y.argv y.argc none 0 = none
        rw [h0, Function.update_self]
      · exact List.length_eq_zero_iff.mp (hargc ▸ h0)
    · refine iff_of_true ?_ ?_
      · rw [argv_lt h hpos, List.getElem?_eq_getElem (hargc ▸ hpos)]
        exact Option.some_ne_none _
      · exact List.ne_nil_of_length_pos (hargc ▸ hpos)
  constructor
  · intro hsplit
    exact ⟨hsplit.inRdbuf _ h.full, hfirst.mp hsplit.path⟩
  · rintro ⟨hlt, hword⟩
    have hle : y.argc ≤ text.length + 1 := hargc ▸ ended_length_le
    refine ⟨fun k hk => ?_, fun k hk => ?_, fun k hk => ?_, fun a b hrun => ?_,
      fun k k' a a' hkk hk' ha ha' => ?_, fun a b hrun => ?_,
      Function.update_self .., hfirst.mpr hword⟩
    · exact Nat.lt_of_le_of_lt (h.inRdbuf k hk) hlt
    · rcases List.mem_cons.mp hk with rfl | hk
      · omega
      · have := h.inArgv k hk
        omega
    · have hk' : k < (ended (Letter text) (text.length + 1)).length := hargc ▸ hk
      obtain ⟨b, -, hrun⟩ := mem_ended.mp (List.getElem_mem hk')
      exact ⟨_, b, (argv_lt h hk).trans (List.getElem?_eq_getElem hk'), hrun⟩
    · have hmem : a ∈ ended (Letter text) (text.length + 1) :=
        mem_ended.mpr ⟨b, Nat.lt_succ_of_le (run_le hrun), hrun⟩
      obtain ⟨k, hk, rfl⟩ := List.getElem_of_mem hmem
      have hk' : k < y.argc := hargc ▸ hk
      exact ⟨k, hk', (argv_lt h hk').trans (List.getElem?_eq_getElem hk)⟩
    · have hk'' : k' < y.argc := hk'
      rw [argv_lt h (by omega)] at ha
      rw [argv_lt h hk''] at ha'
      obtain ⟨h₁, rfl⟩ := List.getElem?_eq_some_iff.mp ha
      obtain ⟨h₂, rfl⟩ := List.getElem?_eq_some_iff.mp ha'
      exact List.pairwise_iff_getElem.mp ended_sorted k k' h₁ h₂ hkk
    · show StrAt y.rdbuf a _
      exact strAt_word htext h hrun

/-- **THE LINE IS SPLIT** if and only if it leaves room for its NUL and has a
    word. -/
theorem splits_iff (htext : ∀ b ∈ text, b ≠ 0) (hr : text.length ≤ STDIN_LEN) :
    Splits text ↔ text.length < STDIN_LEN ∧ ∃ c ∈ text, c ≠ 0x20 := by
  constructor
  · intro h
    obtain ⟨z, ⟨y', hends', rfl⟩, hsplit⟩ := h (fun k => text.getD k 0)
      (fun _ => none) none fun k _ => rfl
    obtain ⟨y, hends, hy⟩ := @split_ends text (fun k => text.getD k 0)
      (fun _ => none) none htext fun k _ => rfl
    obtain rfl := ends_unique hends hends'
    exact (isSplit_iff htext hr hy).mp hsplit
  · intro h rdbuf argv s hbuf
    obtain ⟨y, hends, hy⟩ := split_ends htext hbuf
    exact ⟨_, ⟨y, hends, rfl⟩, (isSplit_iff htext hr hy).mpr h⟩

end Words

/-- " ls -l" -/
theorem splits_iff_words : Splits [0x20, 0x6c, 0x73, 0x20, 0x2d, 0x6c] :=
  (splits_iff (by decide) (by decide)).mpr (by decide)

/-- A line without a word, as behind a lone return. -/
theorem empty_line_opens_null : ¬ ∀ text : List Byte, (∀ b ∈ text, b ≠ 0) →
    text.length ≤ STDIN_LEN → Splits text := by
  intro hall
  have h := (splits_iff (by decide) (by decide)).mp
    (hall [] (by decide) (by decide))
  exact absurd h (by decide)

end KosShellWords
