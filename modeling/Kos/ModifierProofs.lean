import Kos.KeyboardProofs
import Mathlib.Data.List.Induction

/-! # The modifiers

    What the six flags of the modifiers hold while the codes of the keys are
    read one at a time.

    * The map leads make and break code of a modifier to the same key, in every
      column that is chosen (`keyrow_modifier`);
    * a code changes the flag of its key, except that the right Alt key changes
      that of the left one (`flag_switchKey`);
    * so flags and delivered keys report what is held down exactly as long as
      the right Alt key is not (`tracks_iff`). -/

namespace KosKeyboard

open KosKernel
open FlatMemory (Byte)

/-! ## The keys -/

/-- The physical keys of the modifiers. -/
inductive ModKey where
  | shiftL
  | shiftR
  | ctrlL
  | ctrlR
  | altL
  | altR
  deriving DecidableEq

namespace ModKey

/-- Its make code, behind `0xE0` or not. -/
def ext : ModKey → Bool
  | .ctrlR | .altR => true
  | _ => false

/-- The code when it is pressed. -/
def makeCode : ModKey → Byte
  | .shiftL => 0x2A
  | .shiftR => 0x36
  | .ctrlL | .ctrlR => 0x1D
  | .altL | .altR => 0x38

/-- The code when it is released. -/
def breakCode (p : ModKey) : Byte := p.makeCode ||| 0x80

/-- The key that `keyboard_read` delivers. -/
def key : ModKey → Key
  | .shiftL => SHIFT_L
  | .shiftR => SHIFT_R
  | .ctrlL => CTRL_L
  | .ctrlR => CTRL_R
  | .altL => ALT_L
  | .altR => ALT_R

/-- Its bit in the keys that are delivered. -/
def bit : ModKey → Key
  | .shiftL => FLAG_SHIFT_L
  | .shiftR => FLAG_SHIFT_R
  | .ctrlL => FLAG_CTRL_L
  | .ctrlR => FLAG_CTRL_R
  | .altL => FLAG_ALT_L
  | .altR => FLAG_ALT_R

/-- Its flag in `kb_state`. -/
def flag : ModKey → Modifiers → Bool
  | .shiftL, k => k.shiftL
  | .shiftR, k => k.shiftR
  | .ctrlL, k => k.ctrlL
  | .ctrlR, k => k.ctrlR
  | .altL, k => k.altL
  | .altR, k => k.altR

end ModKey

/-- The codes that press it. -/
def Code.isMake (p : ModKey) : Code → Bool
  | .plain b _ => !p.ext && b == p.makeCode
  | .ext b _ => p.ext && b == p.makeCode
  | _ => false

/-- The codes that release it. -/
def Code.isBreak (p : ModKey) : Code → Bool
  | .plain b _ => !p.ext && b == p.breakCode
  | .ext b _ => p.ext && b == p.breakCode
  | _ => false

/-- Whether the key is down behind a code, if it was `down` in front of it. -/
def Code.leaves (p : ModKey) (c : Code) (down : Bool) : Bool :=
  if c.isMake p then true else if c.isBreak p then false else down

/-- The last code of the key was its make code. -/
def heldDown (p : ModKey) (cs : List Code) : Bool :=
  cs.foldl (fun down c => c.leaves p down) false

theorem heldDown_append (p : ModKey) (cs : List Code) (c : Code) :
    heldDown p (cs ++ [c]) = c.leaves p (heldDown p cs) := by
  rw [heldDown, List.foldl_append]
  rfl

/-! ## The map -/

section Map

variable {p : ModKey} {k : Modifiers} {key : Key} {make : Bool} {b : Byte}

/-- What holds of the columns of each row holds of every key of the map. -/
theorem keyrow_forall {P : Nat → Nat → Key → Prop}
    (h : ∀ e ∈ keymap.zipIdx, P e.2 0 e.1.1 ∧ P e.2 1 e.1.2.1 ∧ P e.2 2 e.1.2.2) :
    ∀ row < 128, ∀ column < 3, P row column (keyrow row column) := by
  intro row hrow column hcolumn
  have hlen : keymap.length = 128 := rfl
  have hget : keymap[row]? = some (keymap.getD row (0, 0, 0)) := by
    rw [List.getD_eq_getElem?_getD, List.getElem?_eq_getElem (by omega)]
    rfl
  obtain ⟨h₀, h₁, h₂⟩ := h (keymap.getD row (0, 0, 0), row)
    (List.mem_zipIdx_iff_getElem?.mpr hget)
  rcases (by omega : column = 0 ∨ column = 1 ∨ column = 2) with rfl | rfl | rfl
  · exact h₀
  · exact h₁
  · exact h₂

/-- The modifiers stand in their rows, in the first two columns or the third. -/
theorem keyrow_modifier (p : ModKey) : ∀ row < 128, ∀ column < 3,
    (keyrow row column = p.key ↔
      BitVec.ofNat 8 row = p.makeCode ∧ p.ext = decide (column = 2)) := by
  refine keyrow_forall (P := fun row column key => key = p.key ↔
    BitVec.ofNat 8 row = p.makeCode ∧ p.ext = decide (column = 2)) ?_
  cases p <;> decide +kernel

/-- No key of the map is a special one, and none has a bit of a modifier. -/
theorem keyrow_plain : ∀ row < 128, ∀ column < 3,
    ¬ Special (keyrow row column) ∧ keyrow row column &&& 0x7E00 = 0 ∧
      ∀ numLock, padKey numLock (keyrow row column) &&& 0x7E00 = 0 := by
  refine keyrow_forall (P := fun _ _ key => ¬ Special key ∧ key &&& 0x7E00 = 0 ∧
    ∀ numLock, padKey numLock key &&& 0x7E00 = 0) ?_
  decide +kernel

theorem columnOf_lt (k : Modifiers) (e0 : Bool) (row : Nat) :
    columnOf k e0 row < 3 ∧ (decide (columnOf k e0 row = 2) = e0) := by
  rw [columnOf]
  cases e0 with
  | true =>
      rw [if_pos rfl]
      exact ⟨by decide, rfl⟩
  | false =>
      rw [if_neg (by decide)]
      split
      · exact ⟨by decide, rfl⟩
      · exact ⟨by decide, rfl⟩

/-- A byte is make or break code of its row. -/
theorem rowOf_spec : ∀ b : Byte, rowOf b < 128 ∧ ∀ p : ModKey,
    (BitVec.ofNat 8 (rowOf b) = p.makeCode ↔
      b = p.makeCode ∨ b = p.breakCode) ∧
    (b = p.makeCode → makeOf b = true) ∧ (b = p.breakCode → makeOf b = false) := by
  intro b
  have hrow : rowOf b = b.toNat % 128 := by
    rw [rowOf, BitVec.toNat_and]
    exact Nat.and_two_pow_sub_one_eq_mod b.toNat 7
  refine ⟨?_, fun p => ⟨?_, ?_, ?_⟩⟩
  · rw [hrow]
    exact Nat.mod_lt _ (by decide)
  · have hmake : p.makeCode.toNat < 128 := by cases p <;> decide
    have hbreak : p.breakCode.toNat = p.makeCode.toNat + 128 := by
      cases p <;> rfl
    rw [hrow]
    bv_omega
  · rintro rfl
    cases p <;> rfl
  · rintro rfl
    cases p <;> rfl

/-- **THE FLAGS**: a key changes its own, but the right Alt key that of the left
    one. -/
theorem flag_switchKey (p : ModKey) (key : Key) (make : Bool) (k : Modifiers) :
    p.flag (switchKey key make k) =
      if p ≠ .altR ∧ (key = p.key ∨ p = .altL ∧ key = ALT_R) then make
      else p.flag k := by
  by_cases halt : p = .altL ∧ key = ALT_R
  · obtain ⟨rfl, rfl⟩ := halt
    rfl
  · by_cases hkey : key = p.key
    · rw [hkey]
      cases p <;> rfl
    · rw [if_neg (fun h => h.2.elim hkey halt), switchKey]
      cases p with
      | shiftL | shiftR | ctrlL | ctrlR =>
          simp only [ModKey.key] at hkey
          simp only [apply_ite (ModKey.flag _)]
          simp only [ModKey.flag, hkey, if_false, ite_self]
      | altL =>
          have hr : ¬ key = ALT_R := fun h => halt ⟨rfl, h⟩
          simp only [ModKey.key] at hkey
          simp only [apply_ite (ModKey.flag _)]
          simp only [ModKey.flag, hkey, hr, if_false, ite_self]
      | altR =>
          simp only [apply_ite (ModKey.flag _)]
          simp only [ModKey.flag, ite_self]

/-- **A CODE** that is looked up. -/
theorem flag_regular (p : ModKey) (e0 : Bool) (b : Byte) (k : Modifiers) :
    p.flag (regular e0 b k).held =
      if p ≠ .altR ∧ (p.ext = e0 ∧ (b = p.makeCode ∨ b = p.breakCode) ∨
          p = .altL ∧ e0 = true ∧
            (b = ModKey.altR.makeCode ∨ b = ModKey.altR.breakCode)) then
        makeOf b
      else p.flag k := by
  obtain ⟨hrow, hcode⟩ := rowOf_spec b
  obtain ⟨hcol, htwo⟩ := columnOf_lt k e0 (rowOf b)
  have hkey : ∀ q : ModKey, keyrow (rowOf b) (columnOf k e0 (rowOf b)) = q.key ↔
      q.ext = e0 ∧ (b = q.makeCode ∨ b = q.breakCode) := by
    intro q
    rw [keyrow_modifier q _ hrow _ hcol, (hcode q).1, htwo, and_comm]
  rw [regular]
  show p.flag (switchKey _ _ k) = _
  rw [flag_switchKey]
  simp only [hkey p, show (keyrow (rowOf b) (columnOf k e0 (rowOf b)) = ALT_R ↔ _)
    from hkey .altR, show (ModKey.altR.ext = e0) = (e0 = true) from
      propext eq_comm]

end Map

/-! ## One code -/

section Step

variable {p : ModKey} {c : Code} {k : Modifiers} {down : Bool} {b : Byte}

/-- A code that is looked up, and is the key's or not. -/
theorem leaves_regular (e0 : Bool) (b : Byte) (k : Modifiers) (hp : p ≠ .altR)
    (halt : ¬ (p = .altL ∧ e0 = true ∧
      (b = ModKey.altR.makeCode ∨ b = ModKey.altR.breakCode))) :
    p.flag (regular e0 b k).held =
      if (p.ext = e0 ∧ b = p.makeCode) then true
      else if (p.ext = e0 ∧ b = p.breakCode) then false
      else p.flag k := by
  obtain ⟨-, hcode⟩ := rowOf_spec b
  obtain ⟨-, hmake, hbreak⟩ := hcode p
  rw [flag_regular]
  by_cases h₁ : p.ext = e0 ∧ b = p.makeCode
  · rw [if_pos h₁, if_pos ⟨hp, Or.inl ⟨h₁.1, Or.inl h₁.2⟩⟩, hmake h₁.2]
  · rw [if_neg h₁]
    by_cases h₂ : p.ext = e0 ∧ b = p.breakCode
    · rw [if_pos h₂, if_pos ⟨hp, Or.inl ⟨h₂.1, Or.inr h₂.2⟩⟩, hbreak h₂.2]
    · rw [if_neg h₂, if_neg]
      rintro ⟨-, ⟨hext, hb | hb⟩ | h⟩
      · exact h₁ ⟨hext, hb⟩
      · exact h₂ ⟨hext, hb⟩
      · exact halt h

/-- **THE FLAG OF A KEY** follows its codes. -/
theorem flag_held (hp : p ≠ .altR)
    (halt : p = .altL → c.isMake .altR = false ∧ c.isBreak .altR = false) :
    p.flag (c.held k) = c.leaves p (p.flag k) := by
  cases c with
  | plain b hb =>
      have h := leaves_regular false b k hp
        fun h => absurd h.2.1 (by decide)
      show p.flag (regular false b k).held = _
      rw [h, Code.leaves, Code.isMake, Code.isBreak]
      cases p.ext <;> simp
  | ext b hb =>
      have hno : ¬ (p = .altL ∧ true = true ∧
          (b = ModKey.altR.makeCode ∨ b = ModKey.altR.breakCode)) := by
        rintro ⟨rfl, -, hcode⟩
        obtain ⟨h₁, h₂⟩ := halt rfl
        rcases hcode with rfl | rfl
        · exact absurd (show true = false from h₁) (by decide)
        · exact absurd (show true = false from h₂) (by decide)
      show p.flag (regular true b k).held = _
      rw [leaves_regular true b k hp hno, Code.leaves, Code.isMake, Code.isBreak]
      cases p.ext <;> simp
  | printScreen make => rfl
  | pause => rfl

/-- Nothing sets the flag of the right Alt key. -/
theorem altR_held (c : Code) (k : Modifiers) : (c.held k).altR = k.altR := by
  have hflag : ∀ e0 b, ModKey.altR.flag (regular e0 b k).held = k.altR := by
    intro e0 b
    rw [flag_regular, if_neg fun h => h.1 rfl]
    rfl
  cases c with
  | plain b hb => exact hflag false b
  | ext b hb => exact hflag true b
  | printScreen make => rfl
  | pause => rfl

/-- Its break code takes that of the left one away. -/
theorem altL_held (h : c.isBreak .altR = true) : (c.held k).altL = false := by
  cases c with
  | ext b hb =>
      have hb : b = ModKey.altR.breakCode := by
        rw [Code.isBreak, Bool.and_eq_true] at h
        exact eq_of_beq h.2
      obtain ⟨-, hcode⟩ := rowOf_spec b
      show ModKey.altL.flag (regular true b k).held = false
      rw [flag_regular, if_pos ⟨by decide, Or.inr ⟨rfl, rfl, Or.inr hb⟩⟩]
      exact (hcode .altR).2.2 hb
  | plain b hb => cases h
  | printScreen make => cases h
  | pause => cases h

end Step

/-! ## The keys that are delivered -/

/-- The bits of the modifiers in a delivered key. -/
def modBits (k : Modifiers) (pad : Bool) : Key :=
  (if k.shiftL then FLAG_SHIFT_L else 0) |||
    ((if k.shiftR then FLAG_SHIFT_R else 0) |||
    ((if k.ctrlL then FLAG_CTRL_L else 0) |||
    ((if k.ctrlR then FLAG_CTRL_R else 0) |||
    ((if k.altL then FLAG_ALT_L else 0) |||
    ((if k.altR then FLAG_ALT_R else 0) |||
    (if pad then FLAG_PAD else 0))))))

section Keys

variable {p : ModKey} {k : Modifiers} {key : Key} {c : Code}

/-- The bits of the modifiers that a mask leaves. -/
theorem modBits_and (k : Modifiers) (pad : Bool) (mask : Key) :
    modBits k pad &&& mask =
      (if k.shiftL then FLAG_SHIFT_L &&& mask else 0) |||
        ((if k.shiftR then FLAG_SHIFT_R &&& mask else 0) |||
        ((if k.ctrlL then FLAG_CTRL_L &&& mask else 0) |||
        ((if k.ctrlR then FLAG_CTRL_R &&& mask else 0) |||
        ((if k.altL then FLAG_ALT_L &&& mask else 0) |||
        ((if k.altR then FLAG_ALT_R &&& mask else 0) |||
        (if pad then FLAG_PAD &&& mask else 0)))))) := by
  have hflag : ∀ (held : Bool) (bit : Key),
      (if held then bit else 0) &&& mask = if held then bit &&& mask else 0 := by
    intro held bit
    cases held with
    | true => rfl
    | false => exact BitVec.zero_and
  simp only [modBits, BitVec.and_or_distrib_right, hflag]

theorem modBits_bit (p : ModKey) (k : Modifiers) (pad : Bool) :
    modBits k pad &&& p.bit ≠ 0 ↔ p.flag k = true := by
  have hone : modBits k pad &&& p.bit = if p.flag k then p.bit else 0 := by
    rw [modBits_and]
    cases p <;> simp [ModKey.bit, ModKey.flag, FLAG_SHIFT_L, FLAG_SHIFT_R,
      FLAG_CTRL_L, FLAG_CTRL_R, FLAG_ALT_L, FLAG_ALT_R, FLAG_PAD] <;> rfl
  have hbit : p.bit ≠ 0 := by cases p <;> decide
  rw [hone]
  cases p.flag k with
  | true => exact iff_of_true hbit rfl
  | false => exact iff_of_false (fun h => h rfl) (by decide)

/-- A key is delivered as it is, or as that of the number pad, with the bits of
    the modifiers. -/
theorem processNumpadKey_split (k : Modifiers) (key : Key) : ∃ raw pad,
    processNumpadKey k key = raw ||| modBits k pad ∧
      (raw = key ∨ raw = padKey k.numLock key) ∧
      (key < PAD_SLASH → raw = key) := by
  obtain ⟨pad, hpadded⟩ : ∃ pad : Bool,
      pad = decide (PAD_SLASH ≤ key ∧ key ≤ PAD_9) := ⟨_, rfl⟩
  obtain ⟨raw, hraw⟩ : ∃ raw, raw = if pad then padKey k.numLock key else key :=
    ⟨_, rfl⟩
  refine ⟨raw, pad, ?_, ?_, fun hlt => ?_⟩
  · rw [processNumpadKey, ← hpadded, ← hraw, modBits]
    simp only [BitVec.or_assoc]
  · rw [hraw]
    split
    · exact Or.inr rfl
    · exact Or.inl rfl
  · rw [hraw, hpadded, if_neg]
    intro h
    exact absurd hlt (BitVec.not_lt.mpr (of_decide_eq_true h).1)

/-- A key without bits of its own is delivered with those of the modifiers. -/
theorem numpad_bit (hkey : key &&& 0x7E00 = 0)
    (hpad : padKey k.numLock key &&& 0x7E00 = 0) (p : ModKey) :
    processNumpadKey k key &&& p.bit ≠ 0 ↔ p.flag k = true := by
  obtain ⟨raw, pad, hsplit, hraw, -⟩ := processNumpadKey_split k key
  have hlow : raw &&& 0x7E00 = 0 := by
    rcases hraw with rfl | rfl
    · exact hkey
    · exact hpad
  have hzero : raw &&& p.bit = 0 := by
    have hmask : (0x7E00 : Key) &&& p.bit = p.bit := by cases p <;> rfl
    rw [← hmask, ← BitVec.and_assoc, hlow]
    exact BitVec.zero_and
  rw [hsplit, BitVec.and_or_distrib_right, hzero,
    show (0 : Key) ||| (modBits k pad &&& p.bit) = modBits k pad &&& p.bit
      from BitVec.zero_or]
  exact modBits_bit p k pad

/-- What a code delivers carries the bits of the modifiers behind it. -/
theorem out_bit {make : Bool} (h : key ∈ (c.step ⟨0, make, k⟩).out)
    (p : ModKey) : key &&& p.bit ≠ 0 ↔ p.flag (c.held k) = true := by
  have hlow : (c.step ⟨0, make, k⟩).key &&& 0x7E00 = 0 ∧ ∀ numLock,
      padKey numLock (c.step ⟨0, make, k⟩).key &&& 0x7E00 = 0 := by
    have hregular : ∀ e0 b, (regular e0 b k).key &&& 0x7E00 = 0 ∧ ∀ numLock,
        padKey numLock (regular e0 b k).key &&& 0x7E00 = 0 := fun e0 b =>
      (keyrow_plain _ (rowOf_spec b).1 _ (columnOf_lt k e0 (rowOf b)).1).2
    have hspecial : ∀ key, Special key →
        key &&& 0x7E00 = 0 ∧ ∀ numLock, padKey numLock key &&& 0x7E00 = 0 := by
      rintro key (rfl | rfl)
      · decide
      · decide
    cases c with
    | plain b hb => exact hregular false b
    | ext b hb => exact hregular true b
    | printScreen m => exact hspecial PRINTSCREEN (Or.inr rfl)
    | pause => exact hspecial PAUSEBREAK (Or.inl rfl)
  rw [Decoder.out] at h
  split at h
  · obtain rfl := List.mem_singleton.mp h
    rw [numpad_bit hlow.1 (hlow.2 _), held_step]
  · cases h

end Keys

/-! ## Every run -/

/-- `kb_state` behind `init_keyboard`. -/
def initState : KeyboardState := ⟨initKeyboard, false, 0⟩

/-- When the code `c` has been read behind the codes `cs`, each in a call of
    its own, every flag tells whether its key is held down, and so does the key
    that is delivered. -/
def Tracked (junk : Nat → Bool) (cs : List Code) (c : Code) : Prop :=
  ∃ k keys k' out, readAll junk 0 (singles cs) initState = .ok (k, keys) ∧
    keyboardRead (junk cs.length) c.bytes k = .ok (k', out) ∧
    (∀ p : ModKey, p.flag k'.toModifiers = heldDown p (cs ++ [c])) ∧
    ∀ key ∈ out, ∀ p : ModKey,
      key &&& p.bit ≠ 0 ↔ heldDown p (cs ++ [c]) = true

/-- **WHEN THEY DO**: the right Alt key is not pressed, and not released while
    the left one is held down. -/
def AltGuard (cs : List Code) (c : Code) : Prop :=
  c.isMake .altR = false ∧
    (c.isBreak .altR = true → heldDown .altL cs = false)

section Run

variable {junk : Nat → Bool} {cs codes : List Code} {c : Code}

theorem heldAfter_append (cs : List Code) (c : Code) (k : Modifiers) :
    heldAfter (cs ++ [c]) k = c.held (heldAfter cs k) := by
  rw [heldAfter, List.foldl_append]
  rfl

/-- What `Tracked` says, on the modifiers. -/
theorem tracked_iff : Tracked junk cs c ↔
    ∀ p : ModKey, p.flag (heldAfter (cs ++ [c]) initKeyboard) =
      heldDown p (cs ++ [c]) := by
  obtain ⟨k, hread, hk⟩ := readAll_batches junk (singles cs) 0 initState
  rw [batches_singles] at hk
  obtain ⟨k', hlast, hk'⟩ := keyboardRead_codes (junk cs.length) [c] k
  have hbytes : [c].flatMap Code.bytes = c.bytes := List.append_nil _
  have hheld : k'.toModifiers = heldAfter (cs ++ [c]) initKeyboard := by
    rw [hk', heldAfter_append, hk]
    exact held_step c _ _
  rw [hbytes] at hlast
  constructor
  · rintro ⟨k₁, keys, k₁', out, hread₁, hlast₁, hflags, -⟩ p
    rw [hread] at hread₁
    injection hread₁ with hread₁
    obtain ⟨rfl, -⟩ := Prod.mk.inj hread₁
    rw [hlast] at hlast₁
    injection hlast₁ with hlast₁
    obtain ⟨rfl, -⟩ := Prod.mk.inj hlast₁
    rw [← hheld]
    exact hflags p
  · intro hflags
    refine ⟨k, _, k', _, hread, hlast, fun p => ?_, fun key hkey p => ?_⟩
    · rw [hheld]
      exact hflags p
    · rw [batch, batch, List.append_nil] at hkey
      rw [out_bit hkey p, ← hflags p, heldAfter_append, hk]
      rfl

/-- The flag of the right Alt key stays as `init_keyboard` leaves it. -/
theorem altR_after (cs : List Code) :
    (heldAfter cs initKeyboard).altR = false := by
  induction cs using List.reverseRecOn with
  | nil => rfl
  | append_singleton cs c ih => rw [heldAfter_append, altR_held, ih]

/-- The step of the run: the flags are right behind a code that keeps to the
    condition. -/
theorem flags_step (h : ∀ p : ModKey,
      p.flag (heldAfter cs initKeyboard) = heldDown p cs)
    (hguard : AltGuard cs c) (p : ModKey) :
    p.flag (heldAfter (cs ++ [c]) initKeyboard) = heldDown p (cs ++ [c]) := by
  obtain ⟨hmake, hbreak⟩ := hguard
  rw [heldAfter_append, heldDown_append, ← h p]
  by_cases hp : p = .altR
  · -- no code has made it, so its break code finds it up
    rw [hp, Code.leaves, hmake, if_neg (by decide)]
    show (c.held _).altR = if c.isBreak .altR then false else (_ : Bool)
    rw [altR_held, show ModKey.altR.flag _ = _ from altR_after cs, altR_after]
    split <;> rfl
  · by_cases halt : p = .altL ∧ c.isBreak .altR = true
    · obtain ⟨rfl, hb⟩ := halt
      have hup : (heldAfter cs initKeyboard).altL = false := by
        have hL := h .altL
        rw [hbreak hb] at hL
        exact hL
      show (c.held _).altL = c.leaves .altL (heldAfter cs initKeyboard).altL
      rw [altL_held hb, hup]
      cases c with
      | ext b hb' => rfl
      | plain b hb' => cases hb
      | printScreen make => cases hb
      | pause => cases hb
    · refine flag_held hp fun hL => ⟨hmake, ?_⟩
      exact Bool.eq_false_iff.mpr fun hb => halt ⟨hL, hb⟩

/-- **MODIFIER TRACKING**: in a run from `init_keyboard` on the flags and the
    delivered keys tell what is held down behind every code exactly when every
    code keeps to the condition. -/
theorem tracks_iff (junk : Nat → Bool) (codes : List Code) :
    (∀ cs c, cs ++ [c] <+: codes → Tracked junk cs c) ↔
      ∀ cs c, cs ++ [c] <+: codes → AltGuard cs c := by
  constructor
  · intro h cs c hpre
    have hafter := tracked_iff.mp (h cs c hpre)
    constructor
    · by_contra hmake
      have hR := hafter .altR
      rw [heldDown_append, Code.leaves, if_pos (by simpa using hmake)] at hR
      have hno := altR_after (cs ++ [c])
      exact absurd (hR.symm.trans hno) (by decide)
    · intro hbreak
      have hL := hafter .altL
      rw [heldDown_append] at hL
      have hdown : (c.leaves .altL (heldDown .altL cs)) = heldDown .altL cs := by
        cases c with
        | ext b hb => rfl
        | plain b hb => cases hbreak
        | printScreen make => cases hbreak
        | pause => cases hbreak
      rw [← hdown, ← hL, heldAfter_append]
      exact altL_held hbreak
  · intro h cs c hpre
    -- the flags are right behind every part of the run
    have hall : ∀ ds, ds <+: codes → ∀ p : ModKey,
        p.flag (heldAfter ds initKeyboard) = heldDown p ds := by
      intro ds
      induction ds using List.reverseRecOn with
      | nil =>
          intro _ p
          cases p <;> rfl
      | append_singleton ds d ih =>
          intro hds
          exact flags_step (ih ((List.prefix_append ds [d]).trans hds))
            (h ds d hds)
    exact tracked_iff.mpr (hall (cs ++ [c]) hpre)

end Run

/-- Pressing the right Alt key sets the flag of the left one. -/
theorem altR_not_tracked : ¬ ∀ (junk : Nat → Bool) (codes : List Code),
    ∀ cs c, cs ++ [c] <+: codes → Tracked junk cs c := by
  intro h
  have htracked := h (fun _ => false) [.ext 0x38 (by decide)] [] _
    (List.prefix_refl _)
  have hL := tracked_iff.mp htracked .altL
  exact absurd hL (by decide)

end KosKeyboard
