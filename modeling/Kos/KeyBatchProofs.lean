import Kos.ModifierProofs

/-! # Batches of key codes

    One call of `keyboard_read` for several codes, against one call for each.

    * `key` is not reset between the codes of a call, so the codes behind a
      PrintScreen or Pause code are not looked up (`counts_batch`);
    * `make` is not set for a Pause code, which is delivered or not by what
      `make` held before;
    * the batches make no difference exactly when none of this shows
      (`batching_iff`). -/

namespace KosKeyboard

open KosKernel
open FlatMemory (Byte)

/-- A make code, of those that are looked up. -/
def Code.make : Code → Bool
  | .plain b _ | .ext b _ => makeOf b
  | .printScreen make => make
  | .pause => false

/-! ## The keys that are looked up -/

/-- A key that is delivered for a PrintScreen or a Pause code. -/
def isSpecial (key : Key) : Bool :=
  key &&& 0x1FF = PRINTSCREEN ∨ key &&& 0x1FF = PAUSEBREAK

section Delivered

variable {k : Modifiers} {key : Key} {b : Byte}

/-- The modifier bits do not make a key special. -/
theorem isSpecial_numpad {raw : Key} {pad : Bool}
    (h : processNumpadKey k key = raw ||| modBits k pad) :
    isSpecial (processNumpadKey k key) = isSpecial raw := by
  have hbits : modBits k pad &&& 0x1FF = 0 := by
    rw [modBits_and]
    simp [FLAG_SHIFT_L, FLAG_SHIFT_R, FLAG_CTRL_L, FLAG_CTRL_R, FLAG_ALT_L,
      FLAG_ALT_R, FLAG_PAD]
  have hmask : processNumpadKey k key &&& 0x1FF = raw &&& 0x1FF := by
    rw [h, BitVec.and_or_distrib_right, hbits]
    exact BitVec.or_zero
  rw [isSpecial, isSpecial, hmask]

/-- No entry of the key map is special, also not under Num Lock. -/
theorem keyrow_not_special : ∀ row < 128, ∀ column < 3,
    isSpecial (keyrow row column) = false ∧
      ∀ numLock, isSpecial (padKey numLock (keyrow row column)) = false := by
  refine keyrow_forall (P := fun _ _ key => isSpecial key = false ∧
    ∀ numLock, isSpecial (padKey numLock key) = false) ?_
  decide +kernel

/-- A code that is looked up delivers no special key. -/
theorem regular_not_special (e0 : Bool) (b : Byte) (k : Modifiers) :
    isSpecial (processNumpadKey (regular e0 b k).held (regular e0 b k).key) =
      false := by
  obtain ⟨raw, pad, hsplit, hraw, -⟩ := processNumpadKey_split
    (regular e0 b k).held (regular e0 b k).key
  obtain ⟨hkey, hpad⟩ := keyrow_not_special _ (rowOf_spec b).1 _
    (columnOf_lt k e0 (rowOf b)).1
  rw [isSpecial_numpad hsplit]
  rcases hraw with rfl | rfl
  · exact hkey
  · exact hpad _

/-- A special key stays special on its way to TTY. -/
theorem special_is (h : Special key) (k : Modifiers) :
    isSpecial (processNumpadKey k key) = true := by
  obtain ⟨raw, pad, hsplit, -, hraw⟩ := processNumpadKey_split k key
  rw [isSpecial_numpad hsplit]
  rcases h with rfl | rfl
  · rw [hraw (by decide)]
    decide
  · rw [hraw (by decide)]
    decide

end Delivered

/-! ## One code -/

/-- A code of `keymap`. -/
def Code.lookedUp : Code → Bool
  | .plain _ _ | .ext _ _ => true
  | _ => false

section Step

variable {c : Code} {d : Decoder} {k : Modifiers} {make : Bool}

/-- A looked up code behind a special key changes nothing. -/
theorem step_stale (hc : c.lookedUp = true) (hd : Special d.key) :
    c.step d = d := by
  cases c with
  | plain b h => exact if_pos hd
  | ext b h => exact if_pos hd
  | printScreen make => cases hc
  | pause => cases hc

/-- The null key is not special. -/
theorem special_zero : ¬ Special 0 := by decide

/-- A code that is looked up is decoded as if it came alone. -/
theorem step_fresh (hc : c.lookedUp = true) (hd : ¬ Special d.key) :
    ∃ e0 b, c.step d = regular e0 b d.held ∧ c.make = makeOf b ∧
      ∀ make, c.step ⟨0, make, d.held⟩ = regular e0 b d.held := by
  cases c with
  | plain b h =>
      refine ⟨false, b, if_neg hd, rfl, fun make => ?_⟩
      rw [Code.step, if_neg special_zero]
  | ext b h =>
      refine ⟨true, b, if_neg hd, rfl, fun make => ?_⟩
      rw [Code.step, if_neg special_zero]
  | printScreen make => cases hc
  | pause => cases hc

/-- Then the key is not special, and `make` tells which code it was. -/
theorem step_regular (hc : c.lookedUp = true) (hd : ¬ Special d.key) :
    ¬ Special (c.step d).key ∧ (c.step d).make = c.make ∧
      (c.step d).held = c.held d.held ∧
      isSpecial (processNumpadKey (c.step d).held (c.step d).key) = false := by
  obtain ⟨e0, b, hstep, hmake, halone⟩ := step_fresh hc hd
  refine ⟨?_, ?_, ?_, ?_⟩
  · rw [hstep]
    exact (keyrow_plain _ (rowOf_spec b).1 _
      (columnOf_lt d.held e0 (rowOf b)).1).1
  · rw [hstep, hmake]
    rfl
  · rw [hstep, Code.held, halone]
  · rw [hstep]
    exact regular_not_special e0 b d.held

/-- Behind a special code nothing is looked up any more. -/
theorem batch_stale : ∀ {cs : List Code} {d : Decoder}, Special d.key →
    (batch cs d).1.held = d.held := by
  intro cs
  induction cs with
  | nil => exact fun _ => rfl
  | cons c cs ih =>
      intro d hd
      rw [batch]
      dsimp only
      cases c with
      | printScreen make => exact ih (Or.inr rfl)
      | pause => exact ih (Or.inl rfl)
      | plain b h =>
          rw [step_stale rfl hd]
          exact ih hd
      | ext b h =>
          rw [step_stale rfl hd]
          exact ih hd

end Step

/-! ## How many keys there are -/

/-- The codes of a batch that are passed over while `make` is set: they deliver
    the special key again. -/
def extra : Bool → Bool → List Code → Nat
  | _, _, [] => 0
  | _, _, .printScreen make :: cs => extra true make cs
  | _, make, .pause :: cs => extra true make cs
  | stale, make, c :: cs =>
      if stale then (if make then 1 else 0) + extra true make cs
      else extra false c.make cs

/-- The make codes that are passed over while it is not. -/
def missing : Bool → Bool → List Code → Nat
  | _, _, [] => 0
  | _, _, .printScreen make :: cs => missing true make cs
  | _, make, .pause :: cs => missing true make cs
  | stale, make, c :: cs =>
      if stale then (if make = false ∧ c.make = true then 1 else 0) +
        missing true make cs
      else missing false c.make cs

/-- A printscreen key that is pressed. -/
def Code.pressed : Code → Bool
  | .printScreen make => make
  | _ => false

section Counts

variable {cs : List Code} {c : Code} {d : Decoder} {k : Modifiers}
  {junk : Nat → Bool} {i : Nat} {stale make : Bool}

/-- The keys too many, code by code. -/
theorem extra_cons (hc : c.lookedUp = true) : extra stale make (c :: cs) =
    if stale then (if make then 1 else 0) + extra true make cs
    else extra false c.make cs := by
  cases c with
  | plain b h => rfl
  | ext b h => rfl
  | printScreen make => cases hc
  | pause => cases hc

/-- The keys missing, code by code. -/
theorem missing_cons (hc : c.lookedUp = true) : missing stale make (c :: cs) =
    if stale then (if make = false ∧ c.make = true then 1 else 0) +
      missing true make cs
    else missing false c.make cs := by
  cases c with
  | plain b h => rfl
  | ext b h => rfl
  | printScreen make => cases hc
  | pause => cases hc

/-- A looked up code is no pressed special key. -/
theorem pressed_lookedUp (hc : c.lookedUp = true) : c.pressed = false := by
  cases c with
  | plain b h => rfl
  | ext b h => rfl
  | printScreen make => cases hc
  | pause => cases hc

/-- A code is looked up, or is one of the two others. -/
theorem code_cases (c : Code) :
    c.lookedUp = true ∨ (∃ make, c = .printScreen make) ∨ c = .pause := by
  cases c with
  | plain b h => exact Or.inl rfl
  | ext b h => exact Or.inl rfl
  | printScreen make => exact Or.inr (Or.inl ⟨make, rfl⟩)
  | pause => exact Or.inr (Or.inr rfl)

/-- A batch gives one key exactly when it ends in a make. -/
theorem out_length (d : Decoder) :
    d.out.length = if d.make then 1 else 0 := by
  rw [Decoder.out]
  split <;> rfl

/-- The special keys a batch gives. -/
theorem out_special (d : Decoder) : d.out.countP isSpecial =
    if d.make ∧ isSpecial (processNumpadKey d.held d.key) = true then 1
    else 0 := by
  rw [Decoder.out]
  cases d.make with
  | false => rfl
  | true =>
      rw [if_pos rfl, List.countP_singleton]
      simp

/-- **THE KEYS OF A BATCH** without Pause codes, and how many of them are
    special. -/
theorem counts_batch : ∀ {cs : List Code} {d : Decoder}, .pause ∉ cs →
    (batch cs d).2.countP isSpecial = cs.countP Code.pressed +
        extra (decide (Special d.key)) d.make cs ∧
      (batch cs d).2.length + missing (decide (Special d.key)) d.make cs ≤
        cs.countP Code.make + extra (decide (Special d.key)) d.make cs := by
  intro cs
  induction cs with
  | nil => exact fun _ => ⟨rfl, Nat.le_refl 0⟩
  | cons c cs ih =>
      intro d hno
      have hrest : .pause ∉ cs := fun h => hno (List.mem_cons_of_mem c h)
      obtain ⟨hspecial, hlen⟩ := ih (d := c.step d) hrest
      rw [batch]
      dsimp only
      rw [List.countP_append, List.length_append, hspecial, out_special,
        out_length, List.countP_cons, List.countP_cons]
      rcases code_cases c with hc | ⟨m, rfl⟩ | rfl
      · rw [extra_cons hc, missing_cons hc, pressed_lookedUp hc]
        by_cases hd : Special d.key
        · -- passed over: the special key comes again while `make` is set
          rw [step_stale hc hd] at hlen ⊢
          rw [decide_eq_true hd] at hlen ⊢
          rw [special_is hd d.held]
          cases hm : d.make <;> cases hcm : c.make <;> rw [hm] at hlen <;>
            simp <;> omega
        · obtain ⟨hkey, hmake, -, hregular⟩ := step_regular hc hd
          rw [hmake, decide_eq_false hkey] at hlen ⊢
          rw [decide_eq_false hd, hregular]
          cases hm : c.make <;> rw [hm] at hlen <;> simp <;> omega
      · have hkey : Special ((Code.printScreen m).step d).key := Or.inr rfl
        rw [decide_eq_true hkey] at hlen ⊢
        rw [special_is hkey]
        show _ = _ + extra true m cs ∧
          _ + missing true m cs ≤ _ + extra true m cs
        cases m <;> simp [Code.step, Code.pressed, Code.make] at hlen ⊢ <;> omega
      · exact absurd List.mem_cons_self hno

/-- One call for every code, from one to the next. -/
theorem singles_cons (junk : Nat → Bool) (i : Nat) (c : Code) (cs : List Code)
    (k : Modifiers) : (batches junk i (singles (c :: cs)) k).2 =
      (c.step ⟨0, junk i, k⟩).out ++
        (batches junk (i + 1) (singles cs) (c.held k)).2 := by
  rw [singles, List.map_cons, batches]
  show ((c.step ⟨0, junk i, k⟩).out ++ []) ++
    (batches junk (i + 1) (singles cs) (c.step ⟨0, junk i, k⟩).held).2 = _
  rw [List.append_nil, held_step]

/-- What a code delivers alone. -/
def Code.sent (junk : Bool) : Code → Bool
  | .pause => junk
  | c => c.make

/-- What a code alone gives. -/
theorem out_alone (c : Code) (make : Bool) (k : Modifiers) :
    (c.step ⟨0, make, k⟩).make = c.sent make ∧
      (isSpecial (processNumpadKey (c.step ⟨0, make, k⟩).held
        (c.step ⟨0, make, k⟩).key) = !c.lookedUp) := by
  rcases code_cases c with hc | ⟨m, rfl⟩ | rfl
  · obtain ⟨-, hmake, -, hregular⟩ := step_regular (d := ⟨0, make, k⟩) hc
      special_zero
    rw [hmake, hregular, hc]
    refine ⟨?_, rfl⟩
    cases c with
    | plain b h => rfl
    | ext b h => rfl
    | printScreen make => cases hc
    | pause => cases hc
  · exact ⟨rfl, special_is (Or.inr rfl) _⟩
  · exact ⟨rfl, special_is (Or.inl rfl) _⟩

/-- **THE KEYS OF THE SINGLE CALLS**, without Pause codes. -/
theorem counts_singles (junk : Nat → Bool) : ∀ {cs : List Code} {i : Nat}
    {k : Modifiers}, .pause ∉ cs →
    (batches junk i (singles cs) k).2.countP isSpecial =
        cs.countP Code.pressed ∧
      (batches junk i (singles cs) k).2.length = cs.countP Code.make := by
  intro cs
  induction cs with
  | nil => exact fun _ => ⟨rfl, rfl⟩
  | cons c cs ih =>
      intro i k hno
      have hrest : .pause ∉ cs := fun h => hno (List.mem_cons_of_mem c h)
      obtain ⟨hspecial, hlen⟩ := ih (i := i + 1) (k := c.held k) hrest
      obtain ⟨hmake, hkey⟩ := out_alone c (junk i) k
      rw [singles_cons, List.countP_append, List.length_append, hspecial, hlen,
        out_special, out_length, hmake, hkey, List.countP_cons,
        List.countP_cons]
      rcases code_cases c with hc | ⟨m, rfl⟩ | rfl
      · have hsent : c.sent (junk i) = c.make := by
          cases c with
          | plain b h => rfl
          | ext b h => rfl
          | printScreen make => cases hc
          | pause => cases hc
        rw [hc, pressed_lookedUp hc, hsent]
        cases c.make with
        | false => simp
        | true =>
            simp
            omega
      · cases m with
        | false => simp [Code.sent, Code.pressed, Code.make, Code.lookedUp]
        | true =>
            simp [Code.sent, Code.pressed, Code.make, Code.lookedUp]
            omega
      · exact absurd List.mem_cons_self hno

/-- Every Pause code that is alone in its call shows what `make` held. -/
theorem length_singles (junk junk' : Nat → Bool) : ∀ {cs : List Code} {i : Nat}
    {k : Modifiers}, (∀ j, i ≤ j → junk' j = junk j) →
    (batches junk' i (singles cs) k).2.length =
      (batches junk i (singles cs) k).2.length := by
  intro cs
  induction cs with
  | nil => exact fun _ => rfl
  | cons c cs ih =>
      intro i k h
      rw [singles_cons, singles_cons, List.length_append, List.length_append,
        h i (Nat.le_refl i), ih fun j hj => h j (by omega)]

/-- A `make` left over in front of Pause gives one more key. -/
theorem pause_shows : ∀ {pre post : List Code} {i : Nat} {k : Modifiers},
    (batches (fun j => j = i + pre.length) i
        (singles (pre ++ .pause :: post)) k).2.length =
      (batches (fun _ => false) i (singles (pre ++ .pause :: post)) k).2.length +
        1 := by
  intro pre post
  induction pre with
  | nil =>
      intro i k
      have hrest := @length_singles (fun _ => false)
        (fun j => decide (j = i + 0)) post (i + 1) (Code.held .pause k)
        fun j hj => decide_eq_false (by omega)
      rw [List.nil_append, singles_cons, singles_cons, List.length_append,
        List.length_append, out_length, out_length, (out_alone _ _ k).1,
        (out_alone _ _ k).1]
      show (if decide (i = i + 0) = true then 1 else 0) + _ = _
      rw [if_pos (by simp)]
      rw [List.length_nil, hrest]
      show _ = 0 + _ + 1
      omega
  | cons c pre ih =>
      intro i k
      have hrest := ih (i := i + 1) (k := c.held k)
      rw [List.cons_append, singles_cons, singles_cons, List.length_append,
        List.length_append, List.length_cons,
        show i + (pre.length + 1) = i + 1 + pre.length by omega, hrest,
        decide_eq_false (show ¬ i = i + 1 + pre.length by omega)]
      omega

end Counts

/-! ## Batches and single codes -/

/-- A call for every batch delivers the same keys as one for every code, and
    leaves the same modifiers and locks. -/
def Alike (junk : Nat → Bool) (bs : List (List Code)) (k : KeyboardState) :
    Prop :=
  ∃ k₁ k₂ keys, readAll junk 0 bs k = .ok (k₁, keys) ∧
    readAll junk 0 (singles bs.flatten) k = .ok (k₂, keys) ∧
    k₁.toModifiers = k₂.toModifiers

/-- The last code of a batch that is not looked up. -/
inductive Last where
  | none
  | pause
  | printScreen (make : Bool)
  deriving DecidableEq

/-- **WHEN IT DOES**, for the rest of a batch: a Pause code comes `first` in its
    batch, and behind it nothing but PrintScreen codes; and a code behind a
    PrintScreen code is another, or follows the released key and is the break
    code of a key that is no modifier or is not held. -/
def BatchCond : Last → Bool → List Code → Modifiers → Prop
  | _, _, [], _ => True
  | _, first, .pause :: cs, k => first = true ∧ BatchCond .pause false cs k
  | _, _, .printScreen make :: cs, k =>
      BatchCond (.printScreen make) false cs k
  | last, _, c :: cs, k =>
      (last = .none ∨
        last = .printScreen false ∧ c.make = false ∧ c.held k = k) ∧
      BatchCond last false cs (c.held k)

section Batch

variable {cs : List Code} {c : Code} {d : Decoder} {k k' : Modifiers}
  {last : Last} {first make : Bool}

/-- The condition on a batch, code by code. -/
theorem batchCond_cons (hc : c.lookedUp = true) :
    BatchCond last first (c :: cs) k ↔
      (last = .none ∨
        last = .printScreen false ∧ c.make = false ∧ c.held k = k) ∧
      BatchCond last false cs (c.held k) := by
  cases c with
  | plain b h => exact Iff.rfl
  | ext b h => exact Iff.rfl
  | printScreen make => cases hc
  | pause => cases hc

/-- No flag is set, and no lock changed. -/
structure Below (k k' : Modifiers) : Prop where
  flags : ∀ p : ModKey, p.flag k = true → p.flag k' = true
  capsLock : k.capsLock = k'.capsLock
  numLock : k.numLock = k'.numLock
  scrollLock : k.scrollLock = k'.scrollLock

/-- `Below` is transitive. -/
theorem Below.trans {k'' : Modifiers} (h : Below k k') (h' : Below k' k'') :
    Below k k'' :=
  ⟨fun p hp => h'.flags p (h.flags p hp), h.capsLock.trans h'.capsLock,
    h.numLock.trans h'.numLock, h.scrollLock.trans h'.scrollLock⟩

/-- Modifiers below each other are the same. -/
theorem Below.antisymm (h : Below k k') (h' : Below k' k) : k = k' := by
  have hflag : ∀ p : ModKey, p.flag k = p.flag k' := fun p =>
    Bool.eq_iff_iff.mpr ⟨h.flags p, h'.flags p⟩
  have h₁ := hflag .shiftL
  have h₂ := hflag .shiftR
  have h₃ := hflag .altL
  have h₄ := hflag .altR
  have h₅ := hflag .ctrlL
  have h₆ := hflag .ctrlR
  have hcaps := h.capsLock
  have hnum := h.numLock
  have hscroll := h.scrollLock
  cases k
  cases k'
  simp only [ModKey.flag] at h₁ h₂ h₃ h₄ h₅ h₆ hcaps hnum hscroll
  rw [h₁, h₂, h₃, h₄, h₅, h₆, hcaps, hnum, hscroll]

/-- A break code sets nothing. -/
theorem below_break (hmake : c.make = false) (k : Modifiers) :
    Below (c.held k) k := by
  have hkey : ∀ key, Below (switchKey key false k) k := by
    intro key
    refine ⟨fun p hp => ?_, ?_, ?_, ?_⟩
    · rw [flag_switchKey] at hp
      split at hp
      · cases hp
      · exact hp
    · simp only [switchKey, apply_ite Modifiers.capsLock]
      simp
    · simp only [switchKey, apply_ite Modifiers.numLock]
      simp
    · simp only [switchKey, apply_ite Modifiers.scrollLock]
      simp
  have hsame : Below k k := ⟨fun _ h => h, rfl, rfl, rfl⟩
  cases c with
  | plain b h =>
      show Below (switchKey _ (makeOf b) k) k
      rw [show makeOf b = false from hmake]
      exact hkey _
  | ext b h =>
      show Below (switchKey _ (makeOf b) k) k
      rw [show makeOf b = false from hmake]
      exact hkey _
  | printScreen make => exact hsame
  | pause => exact hsame

/-- What `key` and `make` hold behind the last code that was not looked up. -/
def Last.Is : Last → Decoder → Prop
  | .none, d => ¬ Special d.key
  | .pause, d => d.key = PAUSEBREAK
  | .printScreen make, d => d.key = PRINTSCREEN ∧ d.make = make

/-- **ENOUGH**: under the condition a batch delivers the keys of the single
    calls and leaves their state. -/
theorem batch_alike (junk : Nat → Bool) : ∀ {cs : List Code} {d : Decoder}
    {last : Last} {first : Bool} {i : Nat}, last.Is d →
    (first = true → d.make = junk i) → BatchCond last first cs d.held →
    (batch cs d).2 = (batches junk i (singles cs) d.held).2 ∧
      (batch cs d).1.held = heldAfter cs d.held := by
  intro cs
  induction cs with
  | nil => exact fun _ _ _ => ⟨rfl, rfl⟩
  | cons c cs ih =>
      intro d last first i hlast hjunk hcond
      -- the code is decoded as if it came alone, or delivers nothing
      have hstep : ∃ last', last'.Is (c.step d) ∧
          (c.step d).out = (c.step ⟨0, junk i, d.held⟩).out ∧
          (c.step d).held = c.held d.held ∧
          BatchCond last' false cs (c.held d.held) := by
        rcases code_cases c with hc | ⟨m, rfl⟩ | rfl
        · obtain ⟨hthis, hrest⟩ := (batchCond_cons hc).mp hcond
          rcases hthis with rfl | ⟨rfl, hmake, hheld⟩
          · obtain ⟨e0, b, hd, -, halone⟩ := step_fresh hc hlast
            obtain ⟨hkey, -, hheld, -⟩ := step_regular hc hlast
            exact ⟨.none, hkey, by rw [hd, halone], hheld, hrest⟩
          · have hstale := step_stale hc (Or.inr hlast.1)
            have hsent : c.sent (junk i) = c.make := by
              cases c with
              | plain b h => rfl
              | ext b h => rfl
              | printScreen make => cases hc
              | pause => cases hc
            refine ⟨.printScreen false, by rw [hstale]; exact hlast, ?_,
              by rw [hstale, hheld], hrest⟩
            rw [hstale, Decoder.out, hlast.2, Decoder.out, (out_alone _ _ _).1,
              hsent, hmake]
            rfl
        · exact ⟨.printScreen m, ⟨rfl, rfl⟩, rfl, rfl, hcond⟩
        · obtain ⟨hfirst, hrest⟩ := hcond
          refine ⟨.pause, rfl, ?_, rfl, hrest⟩
          rw [Decoder.out, Decoder.out]
          show (if d.make then _ else _) = if junk i then _ else _
          rw [hjunk hfirst]
          rfl
      obtain ⟨last', hlast', hout, hheld, hrest⟩ := hstep
      rw [← hheld] at hrest
      obtain ⟨hkeys, hend⟩ := ih (i := i + 1) hlast'
        (fun h => by cases h) hrest
      rw [batch]
      dsimp only
      rw [singles_cons, hkeys, hend, hout, hheld]
      exact ⟨rfl, rfl⟩

/-- Codes that are passed over are break codes if no key is missing. -/
theorem breaks_of_counts : ∀ {cs : List Code} {make : Bool}, .pause ∉ cs →
    extra true make cs = 0 → missing true make cs = 0 →
    ∀ c ∈ cs, c.lookedUp = true → c.make = false := by
  intro cs
  induction cs with
  | nil =>
      intro make _ _ _ c hc
      cases hc
  | cons e cs ih =>
      intro make hno hextra hmissing c hmem hc
      have hrest : .pause ∉ cs := fun h => hno (List.mem_cons_of_mem e h)
      rcases code_cases e with he | ⟨m, rfl⟩ | rfl
      · rw [extra_cons he, if_pos rfl, Nat.add_eq_zero_iff] at hextra
        rw [missing_cons he, if_pos rfl, Nat.add_eq_zero_iff] at hmissing
        rcases List.mem_cons.mp hmem with rfl | hmem
        · cases make with
          | true => exact absurd hextra.1 (by decide)
          | false =>
              cases hm : c.make with
              | false => rfl
              | true =>
                  rw [if_pos ⟨rfl, hm⟩] at hmissing
                  exact absurd hmissing.1 (by decide)
        · exact ih hrest hextra.2 hmissing.2 c hmem hc
      · rcases List.mem_cons.mp hmem with rfl | hmem
        · cases hc
        · exact ih hrest hextra hmissing c hmem hc
      · exact absurd List.mem_cons_self hno

/-- Break codes only release modifiers. -/
theorem below_after : ∀ {cs : List Code} {k : Modifiers},
    (∀ c ∈ cs, c.lookedUp = true → c.make = false) →
    Below (heldAfter cs k) k := by
  intro cs
  induction cs with
  | nil => exact fun _ => ⟨fun _ h => h, rfl, rfl, rfl⟩
  | cons c cs ih =>
      intro k h
      have hrest := ih (k := c.held k)
        fun e he => h e (List.mem_cons_of_mem c he)
      refine hrest.trans ?_
      rcases code_cases c with hc | ⟨m, rfl⟩ | rfl
      · exact below_break (h c List.mem_cons_self hc) k
      · exact ⟨fun _ h => h, rfl, rfl, rfl⟩
      · exact ⟨fun _ h => h, rfl, rfl, rfl⟩

/-- Behind a PrintScreen code. -/
theorem cond_stale : ∀ {cs : List Code} {make : Bool} {k : Modifiers},
    .pause ∉ cs → extra true make cs = 0 → missing true make cs = 0 →
    heldAfter cs k = k → BatchCond (.printScreen make) false cs k := by
  intro cs
  induction cs with
  | nil => exact fun _ _ _ _ => trivial
  | cons c cs ih =>
      intro make k hno hextra hmissing hheld
      have hrest : .pause ∉ cs := fun h => hno (List.mem_cons_of_mem c h)
      have hbreaks := breaks_of_counts hno hextra hmissing
      rcases code_cases c with hc | ⟨m, rfl⟩ | rfl
      · rw [extra_cons hc, if_pos rfl, Nat.add_eq_zero_iff] at hextra
        rw [missing_cons hc, if_pos rfl, Nat.add_eq_zero_iff] at hmissing
        have hc' := hbreaks c List.mem_cons_self hc
        -- the flags go down only, and they end as they began
        have hsame : c.held k = k := by
          refine (below_break hc' k).antisymm ?_
          have hafter := below_after (k := c.held k) fun e he =>
            hbreaks e (List.mem_cons_of_mem c he)
          rwa [show heldAfter cs (c.held k) = k from hheld] at hafter
        have hmake : make = false := by
          cases make with
          | true => exact absurd hextra.1 (by decide)
          | false => rfl
        refine (batchCond_cons hc).mpr ⟨Or.inr ⟨?_, hc', hsame⟩, ?_⟩
        · rw [hmake]
        · rw [hsame]
          refine ih hrest hextra.2 hmissing.2 ?_
          have h : heldAfter cs (c.held k) = k := hheld
          rwa [hsame] at h
      · exact ih hrest hextra hmissing hheld
      · exact absurd List.mem_cons_self hno

/-- In front of any special code. -/
theorem cond_fresh : ∀ {cs : List Code} {d : Decoder} {first : Bool},
    .pause ∉ cs → ¬ Special d.key → extra false d.make cs = 0 →
    missing false d.make cs = 0 → (batch cs d).1.held = heldAfter cs d.held →
    BatchCond .none first cs d.held := by
  intro cs
  induction cs with
  | nil => exact fun _ _ _ _ _ => trivial
  | cons c cs ih =>
      intro d first hno hd hextra hmissing hheld
      have hrest : .pause ∉ cs := fun h => hno (List.mem_cons_of_mem c h)
      rcases code_cases c with hc | ⟨m, rfl⟩ | rfl
      · obtain ⟨hkey, hmake, hstep, -⟩ := step_regular hc hd
        rw [extra_cons hc, if_neg (by decide), ← hmake] at hextra
        rw [missing_cons hc, if_neg (by decide), ← hmake] at hmissing
        refine (batchCond_cons hc).mpr ⟨Or.inl rfl, ?_⟩
        rw [← hstep]
        refine ih hrest hkey hextra hmissing ?_
        rw [hstep]
        exact hheld
      · refine cond_stale hrest hextra hmissing ?_
        rw [batch] at hheld
        dsimp only at hheld
        rw [batch_stale (show Special ((Code.printScreen m).step d).key from
          Or.inr rfl)] at hheld
        exact hheld.symm
      · exact absurd List.mem_cons_self hno

/-- A Pause code that is not the first of its batch shows what the batch
    cannot know. -/
theorem pause_first {i : Nat} (h : ∀ junk : Nat → Bool,
      (batch cs ⟨0, junk i, k⟩).2 = (batches junk i (singles cs) k).2) :
    ∀ pre post, cs = pre ++ .pause :: post → pre = [] := by
  rintro pre post rfl
  cases pre with
  | nil => rfl
  | cons c pre =>
      have h₀ := h fun _ => false
      have h₁ := h fun j => decide (j = i + (c :: pre).length)
      have hsame : decide (i = i + (c :: pre).length) = false :=
        decide_eq_false (by rw [List.length_cons]; omega)
      have hshow := @pause_shows (c :: pre) post i k
      rw [hsame] at h₁
      rw [← h₁, ← h₀] at hshow
      omega

/-- **ONE BATCH** makes no difference exactly under the condition. -/
theorem batch_iff (cs : List Code) (i : Nat) (k : Modifiers) :
    (∀ junk : Nat → Bool,
      (batch cs ⟨0, junk i, k⟩).2 = (batches junk i (singles cs) k).2 ∧
        (batch cs ⟨0, junk i, k⟩).1.held = heldAfter cs k) ↔
      BatchCond .none true cs k := by
  constructor
  · intro h
    have hpause := pause_first fun junk => (h junk).1
    have hfresh : .pause ∉ cs → BatchCond .none true cs k := by
      intro hno
      obtain ⟨hkeys, hheld⟩ := h fun _ => false
      obtain ⟨hspecial, hlen⟩ := counts_batch (d := ⟨0, false, k⟩) hno
      obtain ⟨hspecial', hlen'⟩ := counts_singles (fun _ => false) (i := i)
        (k := k) hno
      rw [decide_eq_false special_zero, hkeys] at hspecial hlen
      exact cond_fresh (d := ⟨0, false, k⟩) hno special_zero (by omega)
        (by omega) hheld
    cases cs with
    | nil => trivial
    | cons c tail =>
        have hno : .pause ∉ tail := by
          intro hmem
          obtain ⟨pre, post, rfl⟩ := List.append_of_mem hmem
          have hnil := hpause (c :: pre) post rfl
          cases hnil
        rcases code_cases c with hc | ⟨m, rfl⟩ | rfl
        · refine hfresh fun hmem => ?_
          rcases List.mem_cons.mp hmem with rfl | hmem
          · cases hc
          · exact hno hmem
        · exact hfresh (by simpa using hno)
        · -- the first code: `make` is what it held at the call
          obtain ⟨hkeys, hheld⟩ := h fun _ => true
          have hstale : Special (Decoder.key ⟨PAUSEBREAK, true, k⟩) := Or.inl rfl
          rw [batch, singles_cons] at hkeys
          have htail := List.append_cancel_left hkeys
          obtain ⟨hspecial, hlen⟩ := counts_batch (d := ⟨PAUSEBREAK, true, k⟩) hno
          obtain ⟨hspecial', hlen'⟩ := counts_singles (fun _ => true)
            (i := i + 1) (k := k) hno
          rw [decide_eq_true hstale, show (batch tail ⟨PAUSEBREAK, true, k⟩).2 = _
            from htail] at hspecial hlen
          rw [show (Code.held .pause k) = k from rfl] at hspecial hlen
          dsimp only at hspecial hlen
          have hextra : extra true true tail = 0 := by omega
          have hmissing : missing true true tail = 0 := by omega
          have hafter : heldAfter tail k = k :=
            hheld.symm.trans (@batch_stale tail _ hstale)
          refine ⟨rfl, ?_⟩
          cases tail with
          | nil => trivial
          | cons e rest =>
              have hrest : .pause ∉ rest := fun h =>
                hno (List.mem_cons_of_mem e h)
              rcases code_cases e with he | ⟨m, rfl⟩ | rfl
              · rw [extra_cons he, if_pos rfl, if_pos rfl] at hextra
                omega
              · exact cond_stale hrest hextra hmissing hafter
              · exact absurd List.mem_cons_self hno
  · intro hcond junk
    exact @batch_alike junk _ _ .none _ _ special_zero (fun _ => rfl) hcond

end Batch

/-! ## Every way of cutting -/

section Cutting

variable {junk : Nat → Bool} {bs : List (List Code)} {k : KeyboardState}

/-- `Alike` is equality of the keys and of the modifiers held. -/
theorem alike_iff : Alike junk bs k ↔
    (batches junk 0 bs k.toModifiers).2 =
        (batches junk 0 (singles bs.flatten) k.toModifiers).2 ∧
      (batches junk 0 bs k.toModifiers).1 =
        heldAfter bs.flatten k.toModifiers := by
  obtain ⟨k₁, hread₁, hk₁⟩ := readAll_batches junk bs 0 k
  obtain ⟨k₂, hread₂, hk₂⟩ := readAll_batches junk (singles bs.flatten) 0 k
  rw [batches_singles] at hk₂
  rw [Alike, hread₁, hread₂]
  constructor
  · rintro ⟨k₁', k₂', keys, h₁, h₂, hsame⟩
    injection h₁ with h₁
    injection h₂ with h₂
    obtain ⟨rfl, hkeys⟩ := Prod.mk.inj h₁
    obtain ⟨rfl, hkeys'⟩ := Prod.mk.inj h₂
    exact ⟨hkeys.trans hkeys'.symm, by rw [← hk₁, ← hk₂, hsame]⟩
  · rintro ⟨hkeys, hsame⟩
    exact ⟨k₁, k₂, _, rfl, by rw [hkeys], by rw [hk₁, hk₂, hsame]⟩

/-- Batches one after the other. -/
theorem batches_append (junk : Nat → Bool) : ∀ (xs ys : List (List Code))
    (i : Nat) (k : Modifiers), batches junk i (xs ++ ys) k =
      ((batches junk (i + xs.flatten.length) ys (batches junk i xs k).1).1,
        (batches junk i xs k).2 ++
          (batches junk (i + xs.flatten.length) ys (batches junk i xs k).1).2) := by
  intro xs ys
  induction xs with
  | nil => exact fun i k => rfl
  | cons x xs ih =>
      intro i k
      rw [List.cons_append, batches, batches, ih, List.flatten_cons,
        List.length_append, Nat.add_assoc]
      dsimp only
      rw [List.append_assoc]

/-- The codes one by one are the codes. -/
theorem flatten_singles (cs : List Code) : (singles cs).flatten = cs := by
  induction cs with
  | nil => rfl
  | cons c cs ih => exact congrArg (c :: ·) ih

/-- A batch behind others, against its codes behind theirs. -/
theorem alike_append {b : List Code} (h : Alike junk bs k) :
    Alike junk (bs ++ [b]) k ↔
      (batch b ⟨0, junk bs.flatten.length,
          heldAfter bs.flatten k.toModifiers⟩).2 =
        (batches junk bs.flatten.length (singles b)
          (heldAfter bs.flatten k.toModifiers)).2 ∧
      (batch b ⟨0, junk bs.flatten.length,
          heldAfter bs.flatten k.toModifiers⟩).1.held =
        heldAfter b (heldAfter bs.flatten k.toModifiers) := by
  obtain ⟨hkeys, hstate⟩ := alike_iff.mp h
  have hflat : (bs ++ [b]).flatten = bs.flatten ++ b := by simp
  have hsplit : singles (bs.flatten ++ b) = singles bs.flatten ++ singles b :=
    List.map_append
  rw [alike_iff, hflat, hsplit, batches_append, batches_append, hstate,
    batches_singles, flatten_singles, hkeys, Nat.zero_add]
  have hone : ∀ K, batches junk bs.flatten.length [b] K =
      ((batch b ⟨0, junk bs.flatten.length, K⟩).1.held,
        (batch b ⟨0, junk bs.flatten.length, K⟩).2) := by
    intro K
    rw [batches]
    dsimp only [batches]
    rw [List.append_nil]
  have hafter : heldAfter (bs.flatten ++ b) k.toModifiers =
      heldAfter b (heldAfter bs.flatten k.toModifiers) := List.foldl_append
  rw [hone, hafter]
  dsimp only
  rw [List.append_cancel_left_eq, batches_singles]

/-- **BATCHING**: behind every batch the keys and the state are those of the
    single calls exactly when every batch keeps to the condition. -/
theorem batching_iff (bs : List (List Code)) (k : KeyboardState) :
    (∀ junk pre, pre <+: bs → Alike junk pre k) ↔
      ∀ pre b, pre ++ [b] <+: bs →
        BatchCond .none true b (heldAfter pre.flatten k.toModifiers) := by
  constructor
  · intro h pre b hpre
    refine (batch_iff b pre.flatten.length _).mp fun junk => ?_
    exact (alike_append (h junk pre ((List.prefix_append _ _).trans hpre))).mp
      (h junk (pre ++ [b]) hpre)
  · intro h junk pre
    induction pre using List.reverseRecOn with
    | nil => exact fun _ => alike_iff.mpr ⟨rfl, rfl⟩
    | append_singleton pre b ih =>
        intro hpre
        have hbefore := ih ((List.prefix_append _ _).trans hpre)
        exact (alike_append hbefore).mpr
          ((batch_iff b pre.flatten.length _).mpr (h pre b hpre) junk)

end Cutting

/-- Behind PrintScreen the key "a" is not looked up, and PrintScreen is
    delivered again. -/
theorem batching_differs : ¬ ∀ (junk : Nat → Bool) (bs : List (List Code))
    (k : KeyboardState), Alike junk bs k := by
  intro h
  have halike := h (fun _ => false)
    [[.printScreen true, .plain 0x1E (by decide)]] initState
  exact absurd (alike_iff.mp halike).1 (by decide)

end KosKeyboard
