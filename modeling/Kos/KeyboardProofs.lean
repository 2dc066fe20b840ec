import Kos.KernelProofs

/-! # The keyboard

    `keyboard_read` of `device/keyboard.c` with the functions it calls: from the
    scan codes in the buffer to the keys that `tty_process_key` is given.

    * `Code` are the complete codes of the keys; on their bytes `keyboard_read`
      goes from code to code and keeps `key` and `make` between them
      (`keyboardRead_codes`);
    * `readAll` is a call for each of several batches of codes
      (`readAll_batches`). -/

namespace KosKeyboard

open KosKernel
open FlatMemory (Byte)

abbrev Key := BitVec 32

/-! ## Keys -/

def FLAG_BREAK : Key := 0x0080
def FLAG_EXT : Key := 0x0100
def FLAG_SHIFT_L : Key := 0x0200
def FLAG_SHIFT_R : Key := 0x0400
def FLAG_CTRL_L : Key := 0x0800
def FLAG_CTRL_R : Key := 0x1000
def FLAG_ALT_L : Key := 0x2000
def FLAG_ALT_R : Key := 0x4000
def FLAG_PAD : Key := 0x8000

def ESC : Key := 0x01 + FLAG_EXT
def TAB : Key := 0x02 + FLAG_EXT
def ENTER : Key := 0x03 + FLAG_EXT
def BACKSPACE : Key := 0x04 + FLAG_EXT
def GUI_L : Key := 0x05 + FLAG_EXT
def GUI_R : Key := 0x06 + FLAG_EXT
def APPS : Key := 0x07 + FLAG_EXT
def SHIFT_L : Key := 0x08 + FLAG_EXT
def SHIFT_R : Key := 0x09 + FLAG_EXT
def CTRL_L : Key := 0x0A + FLAG_EXT
def CTRL_R : Key := 0x0B + FLAG_EXT
def ALT_L : Key := 0x0C + FLAG_EXT
def ALT_R : Key := 0x0D + FLAG_EXT
def CAPS_LOCK : Key := 0x0E + FLAG_EXT
def NUM_LOCK : Key := 0x0F + FLAG_EXT
def SCROLL_LOCK : Key := 0x10 + FLAG_EXT
def F1 : Key := 0x11 + FLAG_EXT
def F2 : Key := 0x12 + FLAG_EXT
def F3 : Key := 0x13 + FLAG_EXT
def F4 : Key := 0x14 + FLAG_EXT
def F5 : Key := 0x15 + FLAG_EXT
def F6 : Key := 0x16 + FLAG_EXT
def F7 : Key := 0x17 + FLAG_EXT
def F8 : Key := 0x18 + FLAG_EXT
def F9 : Key := 0x19 + FLAG_EXT
def F10 : Key := 0x1A + FLAG_EXT
def F11 : Key := 0x1B + FLAG_EXT
def F12 : Key := 0x1C + FLAG_EXT
def PRINTSCREEN : Key := 0x1D + FLAG_EXT
def PAUSEBREAK : Key := 0x1E + FLAG_EXT
def INSERT : Key := 0x1F + FLAG_EXT
def DELETE : Key := 0x20 + FLAG_EXT
def HOME : Key := 0x21 + FLAG_EXT
def END : Key := 0x22 + FLAG_EXT
def PAGEUP : Key := 0x23 + FLAG_EXT
def PAGEDOWN : Key := 0x24 + FLAG_EXT
def UP : Key := 0x25 + FLAG_EXT
def DOWN : Key := 0x26 + FLAG_EXT
def LEFT : Key := 0x27 + FLAG_EXT
def RIGHT : Key := 0x28 + FLAG_EXT
def PAD_SLASH : Key := 0x2C + FLAG_EXT
def PAD_STAR : Key := 0x2D + FLAG_EXT
def PAD_MINUS : Key := 0x2E + FLAG_EXT
def PAD_PLUS : Key := 0x2F + FLAG_EXT
def PAD_ENTER : Key := 0x30 + FLAG_EXT
def PAD_DOT : Key := 0x31 + FLAG_EXT
def PAD_0 : Key := 0x32 + FLAG_EXT
def PAD_1 : Key := 0x33 + FLAG_EXT
def PAD_2 : Key := 0x34 + FLAG_EXT
def PAD_3 : Key := 0x35 + FLAG_EXT
def PAD_4 : Key := 0x36 + FLAG_EXT
def PAD_5 : Key := 0x37 + FLAG_EXT
def PAD_6 : Key := 0x38 + FLAG_EXT
def PAD_7 : Key := 0x39 + FLAG_EXT
def PAD_8 : Key := 0x3A + FLAG_EXT
def PAD_9 : Key := 0x3B + FLAG_EXT
def PAD_UP : Key := PAD_8
def PAD_DOWN : Key := PAD_2
def PAD_LEFT : Key := PAD_4
def PAD_RIGHT : Key := PAD_6
def PAD_HOME : Key := PAD_7
def PAD_END : Key := PAD_1
def PAD_PAGEUP : Key := PAD_9
def PAD_PAGEDOWN : Key := PAD_3
def PAD_INS : Key := PAD_0
def PAD_MID : Key := PAD_5

def chr (c : Char) : Key := BitVec.ofNat 32 c.toNat

/-- `keymap`: the columns of a scan code. -/
def keymap : List (Key × Key × Key) :=
  [(0, 0, 0), (ESC, ESC, 0), (chr '1', chr '!', 0), (chr '2', chr '@', 0),
   (chr '3', chr '#', 0), (chr '4', chr '$', 0), (chr '5', chr '%', 0),
   (chr '6', chr '^', 0), (chr '7', chr '&', 0), (chr '8', chr '*', 0),
   (chr '9', chr '(', 0), (chr '0', chr ')', 0), (chr '-', chr '_', 0),
   (chr '=', chr '+', 0), (BACKSPACE, BACKSPACE, 0), (TAB, TAB, 0),
   (chr 'q', chr 'Q', 0), (chr 'w', chr 'W', 0), (chr 'e', chr 'E', 0),
   (chr 'r', chr 'R', 0), (chr 't', chr 'T', 0), (chr 'y', chr 'Y', 0),
   (chr 'u', chr 'U', 0), (chr 'i', chr 'I', 0), (chr 'o', chr 'O', 0),
   (chr 'p', chr 'P', 0), (chr '[', 0x7B, 0), (chr ']', 0x7D, 0),
   (ENTER, ENTER, PAD_ENTER), (CTRL_L, CTRL_L, CTRL_R), (chr 'a', chr 'A', 0),
   (chr 's', chr 'S', 0), (chr 'd', chr 'D', 0), (chr 'f', chr 'F', 0),
   (chr 'g', chr 'G', 0), (chr 'h', chr 'H', 0), (chr 'j', chr 'J', 0),
   (chr 'k', chr 'K', 0), (chr 'l', chr 'L', 0), (chr ';', chr ':', 0),
   (0x27, 0x22, 0), (0x60, chr '~', 0), (SHIFT_L, SHIFT_L, 0),
   (0x5C, chr '|', 0), (chr 'z', chr 'Z', 0), (chr 'x', chr 'X', 0),
   (chr 'c', chr 'C', 0), (chr 'v', chr 'V', 0), (chr 'b', chr 'B', 0),
   (chr 'n', chr 'N', 0), (chr 'm', chr 'M', 0), (chr ',', chr '<', 0),
   (chr '.', chr '>', 0), (chr '/', chr '?', PAD_SLASH), (SHIFT_R, SHIFT_R, 0),
   (chr '*', chr '*', 0), (ALT_L, ALT_L, ALT_R), (chr ' ', chr ' ', 0),
   (CAPS_LOCK, CAPS_LOCK, 0), (F1, F1, 0), (F2, F2, 0), (F3, F3, 0),
   (F4, F4, 0), (F5, F5, 0), (F6, F6, 0), (F7, F7, 0), (F8, F8, 0),
   (F9, F9, 0), (F10, F10, 0), (NUM_LOCK, NUM_LOCK, 0),
   (SCROLL_LOCK, SCROLL_LOCK, 0), (PAD_HOME, chr '7', HOME),
   (PAD_UP, chr '8', UP), (PAD_PAGEUP, chr '9', PAGEUP),
   (PAD_MINUS, chr '-', 0), (PAD_LEFT, chr '4', LEFT), (PAD_MID, chr '5', 0),
   (PAD_RIGHT, chr '6', RIGHT), (PAD_PLUS, chr '+', 0),
   (PAD_END, chr '1', END), (PAD_DOWN, chr '2', DOWN),
   (PAD_PAGEDOWN, chr '3', PAGEDOWN), (PAD_INS, chr '0', INSERT),
   (PAD_DOT, chr '.', DELETE), (0, 0, 0), (0, 0, 0), (0, 0, 0), (F11, F11, 0),
   (F12, F12, 0), (0, 0, 0), (0, 0, 0), (0, 0, GUI_L), (0, 0, GUI_R),
   (0, 0, APPS)] ++
    -- nothing on the codes from 0x5E on
    List.replicate 34 (0, 0, 0)

/-- `keymap[code * MAP_COLS + column]`. -/
def keyrow (code column : Nat) : Key :=
  let (unshifted, shifted, ext) := keymap.getD code (0, 0, 0)
  if column = 0 then unshifted else if column = 1 then shifted else ext

/-! ## State -/

/-- The modifiers and locks of `struct KeyboardState`. -/
structure Modifiers where
  shiftL : Bool
  shiftR : Bool
  altL : Bool
  altR : Bool
  ctrlL : Bool
  ctrlR : Bool
  capsLock : Bool
  numLock : Bool
  scrollLock : Bool
  deriving DecidableEq

/-- `kb_state`; its `count` is the length of `kbIn`. -/
structure KeyboardState extends Modifiers where
  codeWithE0 : Bool
  column : Nat

/-- `init_keyboard` -/
def initKeyboard : Modifiers :=
  ⟨false, false, false, false, false, false, false, true, false⟩

/-- The locals of `keyboard_read`, with `kb_state` and the pending bytes of
    `kb_in`. -/
structure Reader where
  kbState : KeyboardState
  kbIn : List Byte
  key : Key
  make : Bool
  scanCode : Byte

/-! ## `keyboard_read` -/

/-- `get_byte_from_kb_buf`: it waits for a byte. -/
def getByteFromKbBuf (r : Reader) : Except Halt (Byte × Reader) :=
  match r.kbIn with
  | [] => .error .spin
  | b :: rest => pure (b, { r with kbIn := rest })

/-- The loop of `handle_pausebreak`, over what is left of the sequence. -/
def pausebreakLoop : List Byte → Reader → Except Halt (Bool × Reader)
  | [], r => pure (true, r)
  | code :: codes, r => do
      let (b, r) ← getByteFromKbBuf r
      if b ≠ code then pure (false, r) else pausebreakLoop codes r

def handlePausebreak (r : Reader) : Except Halt Reader := do
  let (isPausebreak, r) ← pausebreakLoop [0x1D, 0x45, 0xE1, 0x9D, 0xC5] r
  pure (if isPausebreak then { r with key := PAUSEBREAK } else r)

def setE0 (r : Reader) (codeWithE0 : Bool) : Reader :=
  { r with kbState := { r.kbState with codeWithE0 } }

/-- `*scan_code = get_byte_from_kb_buf()` -/
def nextScanCode (r : Reader) : Except Halt Reader := do
  let (b, r) ← getByteFromKbBuf r
  pure { r with scanCode := b }

/-- The two halves of `handle_printscreen`, behind the first byte: `0xE0` and
    `last` make it the key. -/
def printscreenRest (last : Byte) (make : Bool) (r : Reader) :
    Except Halt Reader := do
  let r ← nextScanCode (setE0 r false)
  if r.scanCode = 0xE0 then
    let r ← nextScanCode (setE0 r true)
    if r.scanCode = last then pure { r with key := PRINTSCREEN, make }
    else pure r
  else pure r

def handlePrintscreen (r : Reader) : Except Halt Reader := do
  let r ← nextScanCode (setE0 r true)
  if r.scanCode = 0x2A then printscreenRest 0x37 true r
  else if r.scanCode = 0xB7 then printscreenRest 0xAA false r
  else pure r

/-- The `switch` of `process_regular_key`. -/
def switchKey (key : Key) (make : Bool) (k : Modifiers) : Modifiers :=
  if key = SHIFT_L then { k with shiftL := make }
  else if key = SHIFT_R then { k with shiftR := make }
  else if key = CTRL_L then { k with ctrlL := make }
  else if key = CTRL_R then { k with ctrlR := make }
  else if key = ALT_L then { k with altL := make }
  else if key = ALT_R then { k with altL := make }
  else if key = CAPS_LOCK then
    if make then { k with capsLock := !k.capsLock } else k
  else if key = NUM_LOCK then
    if make then { k with numLock := !k.numLock } else k
  else if key = SCROLL_LOCK then
    if make then { k with scrollLock := !k.scrollLock } else k
  else k

def capsOf (k : Modifiers) (code : Nat) : Bool :=
  let caps := k.shiftL || k.shiftR
  if k.capsLock ∧ chr 'a' ≤ keyrow code 0 ∧ keyrow code 0 ≤ chr 'z' then !caps
  else caps

def columnOf (k : Modifiers) (codeWithE0 : Bool) (code : Nat) : Nat :=
  if codeWithE0 then 2 else if capsOf k code then 1 else 0

/-- `FLAG_BREAK` is not set. -/
def makeOf (scanCode : Byte) : Bool := scanCode &&& 0x80 = 0

def rowOf (scanCode : Byte) : Nat := (scanCode &&& 0x7F).toNat

def processRegularKey (r : Reader) : Reader :=
  if r.key ≠ PAUSEBREAK ∧ r.key ≠ PRINTSCREEN then
    let make := makeOf r.scanCode
    let column := columnOf r.kbState.toModifiers r.kbState.codeWithE0
      (rowOf r.scanCode)
    let key := keyrow (rowOf r.scanCode) column
    { r with
      kbState := { r.kbState with
        toModifiers := switchKey key make r.kbState.toModifiers
        column }
      key
      make }
  else r

/-- The keys of the number pad. -/
def padKey (numLock : Bool) (key : Key) : Key :=
  if key = PAD_SLASH then chr '/'
  else if key = PAD_STAR then chr '*'
  else if key = PAD_MINUS then chr '-'
  else if key = PAD_PLUS then chr '+'
  else if key = PAD_ENTER then ENTER
  else if numLock then
    if PAD_0 ≤ key ∧ key ≤ PAD_9 then key - PAD_0 + chr '0'
    else if key = PAD_DOT then chr '.'
    else key
  else if key = PAD_HOME then HOME
  else if key = PAD_END then END
  else if key = PAD_PAGEUP then PAGEUP
  else if key = PAD_PAGEDOWN then PAGEDOWN
  else if key = PAD_INS then INSERT
  else if key = PAD_UP then UP
  else if key = PAD_DOWN then DOWN
  else if key = PAD_LEFT then LEFT
  else if key = PAD_RIGHT then RIGHT
  else if key = PAD_DOT then DELETE
  else key

/-- What `process_numpad_key` gives to `tty_process_key`. -/
def processNumpadKey (k : Modifiers) (key : Key) : Key :=
  let pad : Bool := PAD_SLASH ≤ key ∧ key ≤ PAD_9
  (if pad then padKey k.numLock key else key) |||
    (if k.shiftL then FLAG_SHIFT_L else 0) |||
    (if k.shiftR then FLAG_SHIFT_R else 0) |||
    (if k.ctrlL then FLAG_CTRL_L else 0) |||
    (if k.ctrlR then FLAG_CTRL_R else 0) |||
    (if k.altL then FLAG_ALT_L else 0) |||
    (if k.altR then FLAG_ALT_R else 0) |||
    (if pad then FLAG_PAD else 0)

/-- The sequences that `0xE1` and `0xE0` begin. -/
def readPrefixed (r : Reader) : Except Halt Reader :=
  if r.scanCode = 0xE1 then handlePausebreak r
  else if r.scanCode = 0xE0 then handlePrintscreen r
  else pure r

/-- The body of the loop of `keyboard_read`, with the keys it delivers. -/
def readCode (r : Reader) : Except Halt (Reader × List Key) := do
  let r ← nextScanCode (setE0 r false)
  let r ← readPrefixed r
  let r := if r.key ≠ PAUSEBREAK ∧ r.key ≠ PRINTSCREEN then
    processRegularKey r else r
  pure (r, if r.make then [processNumpadKey r.kbState.toModifiers r.key]
    else [])

/-- `while (kb_state.count > 0)`, at most `n` times. -/
def readLoop : Nat → Reader → Except Halt (Reader × List Key)
  | 0, r => pure (r, [])
  | n + 1, r =>
      if r.kbIn = [] then pure (r, [])
      else do
        let (r, keys) ← readCode r
        let (r, more) ← readLoop n r
        pure (r, keys ++ more)

/-- `keyboard_read`, with what `make` happens to hold at first: every round
    takes a byte, so the pending ones bound the rounds. -/
def keyboardRead (make : Bool) (kbIn : List Byte) (k : KeyboardState) :
    Except Halt (KeyboardState × List Key) := do
  let (r, keys) ← readLoop kbIn.length ⟨k, kbIn, 0, make, 0⟩
  pure (r.kbState, keys)

/-! ## Complete codes -/

/-- A complete code: one byte, two after `0xE0`, or a sequence. -/
inductive Code where
  | plain (b : Byte) (h : b ≠ 0xE0 ∧ b ≠ 0xE1)
  | ext (b : Byte) (h : b ≠ 0x2A ∧ b ≠ 0xB7)
  | printScreen (make : Bool)
  | pause

def Code.bytes : Code → List Byte
  | .plain b _ => [b]
  | .ext b _ => [0xE0, b]
  | .printScreen make =>
      if make then [0xE0, 0x2A, 0xE0, 0x37] else [0xE0, 0xB7, 0xE0, 0xAA]
  | .pause => [0xE1, 0x1D, 0x45, 0xE1, 0x9D, 0xC5]

/-- What `keyboard_read` keeps from one code to the next. -/
structure Decoder where
  key : Key
  make : Bool
  held : Modifiers

/-- The key is left alone by `process_regular_key`. -/
def Special (key : Key) : Prop := key = PAUSEBREAK ∨ key = PRINTSCREEN

instance (key : Key) : Decidable (Special key) :=
  inferInstanceAs (Decidable (_ ∨ _))

/-- A code that is looked up in the map. -/
def regular (codeWithE0 : Bool) (b : Byte) (k : Modifiers) : Decoder :=
  let key := keyrow (rowOf b) (columnOf k codeWithE0 (rowOf b))
  ⟨key, makeOf b, switchKey key (makeOf b) k⟩

def Code.step : Code → Decoder → Decoder
  | .plain b _, d => if Special d.key then d else regular false b d.held
  | .ext b _, d => if Special d.key then d else regular true b d.held
  | .printScreen make, d => { d with key := PRINTSCREEN, make }
  | .pause, d => { d with key := PAUSEBREAK }

/-- The keys that are delivered behind a code. -/
def Decoder.out (d : Decoder) : List Key :=
  if d.make then [processNumpadKey d.held d.key] else []

/-- The codes of one call. -/
def batch : List Code → Decoder → Decoder × List Key
  | [], d => (d, [])
  | c :: cs, d =>
      ((batch cs (c.step d)).1, (c.step d).out ++ (batch cs (c.step d)).2)

def Reader.decoder (r : Reader) : Decoder :=
  ⟨r.key, r.make, r.kbState.toModifiers⟩

section Codes

variable {r : Reader} {c : Code} {rest : List Byte} {b : Byte}

theorem nextScanCode_cons (h : r.kbIn = b :: rest) :
    nextScanCode r = .ok { r with kbIn := rest, scanCode := b } := by
  rw [nextScanCode, getByteFromKbBuf, h]
  rfl

/-- The end of a round. -/
def lookUp (r : Reader) : Reader :=
  if r.key ≠ PAUSEBREAK ∧ r.key ≠ PRINTSCREEN then processRegularKey r else r

theorem readCode_eq {r₁ r₂ : Reader}
    (h₁ : nextScanCode (setE0 r false) = .ok r₁)
    (h₂ : readPrefixed r₁ = .ok r₂) :
    readCode r = .ok (lookUp r₂, (lookUp r₂).decoder.out) := by
  rw [readCode, h₁]
  dsimp only [bind, Except.bind]
  rw [h₂]
  rfl

/-- `process_regular_key` on the code that was read last. -/
theorem decoder_lookUp (r : Reader) :
    (lookUp r).decoder = (if Special r.key then r.decoder
        else regular r.kbState.codeWithE0 r.scanCode r.kbState.toModifiers) ∧
      (lookUp r).kbIn = r.kbIn := by
  unfold lookUp
  by_cases hs : Special r.key
  · have hne : ¬ (r.key ≠ PAUSEBREAK ∧ r.key ≠ PRINTSCREEN) := by
      rintro ⟨h₁, h₂⟩
      rcases hs with h | h
      · exact h₁ h
      · exact h₂ h
    rw [if_neg hne, if_pos hs]
    exact ⟨rfl, rfl⟩
  · have hne : r.key ≠ PAUSEBREAK ∧ r.key ≠ PRINTSCREEN :=
      ⟨fun h => hs (Or.inl h), fun h => hs (Or.inr h)⟩
    rw [if_pos hne, if_neg hs, processRegularKey, if_pos hne]
    exact ⟨rfl, rfl⟩

/-- **ONE CODE**, in the loop. -/
theorem readCode_code (h : r.kbIn = c.bytes ++ rest) :
    ∃ r', readCode r = .ok (r', (c.step r.decoder).out) ∧
      r'.decoder = c.step r.decoder ∧ r'.kbIn = rest := by
  obtain ⟨⟨k, e0, column⟩, kbIn, key, make, scanCode⟩ := r
  dsimp only at h
  subst h
  -- what is read in front of `process_regular_key`
  have hread : ∃ r₁ r₂, nextScanCode (setE0 ⟨⟨k, e0, column⟩,
        c.bytes ++ rest, key, make, scanCode⟩ false) = .ok r₁ ∧
      readPrefixed r₁ = .ok r₂ ∧
      (lookUp r₂).decoder = c.step ⟨key, make, k⟩ ∧ (lookUp r₂).kbIn = rest := by
    cases c with
    | plain b hb =>
        refine ⟨_, _, nextScanCode_cons rfl, ?_, decoder_lookUp
          ⟨⟨k, false, column⟩, rest, key, make, b⟩⟩
        rw [readPrefixed]
        exact (if_neg hb.2).trans (if_neg hb.1)
    | ext b hb =>
        refine ⟨_, _, nextScanCode_cons rfl, ?_, decoder_lookUp
          ⟨⟨k, true, column⟩, rest, key, make, b⟩⟩
        show handlePrintscreen ⟨⟨k, false, column⟩, b :: rest, key, make,
          0xE0⟩ = _
        rw [handlePrintscreen, nextScanCode_cons rfl]
        exact (if_neg hb.1).trans (if_neg hb.2)
    | printScreen m =>
        cases m with
        | true => exact ⟨_, _, rfl, rfl, rfl, rfl⟩
        | false => exact ⟨_, _, rfl, rfl, rfl, rfl⟩
    | pause => exact ⟨_, _, rfl, rfl, rfl, rfl⟩
  obtain ⟨r₁, r₂, h₁, h₂, hdec, hin⟩ := hread
  exact ⟨lookUp r₂, by rw [readCode_eq h₁ h₂, hdec]; rfl, hdec, hin⟩

theorem bytes_length_pos (c : Code) : 0 < c.bytes.length := by
  cases c with
  | plain b h => exact Nat.succ_pos _
  | ext b h => exact Nat.succ_pos _
  | printScreen make => cases make <;> exact Nat.succ_pos _
  | pause => exact Nat.succ_pos _

/-- The loop goes from code to code. -/
theorem readLoop_codes : ∀ {cs : List Code} {r : Reader} {n : Nat},
    r.kbIn = cs.flatMap Code.bytes → r.kbIn.length ≤ n →
      ∃ r', readLoop n r = .ok (r', (batch cs r.decoder).2) ∧
        r'.decoder = (batch cs r.decoder).1 ∧ r'.kbIn = [] := by
  intro cs
  induction cs with
  | nil =>
      intro r n h _
      refine ⟨r, ?_, rfl, h⟩
      cases n with
      | zero => rfl
      | succ n =>
          exact if_pos h
  | cons c cs ih =>
      intro r n h hn
      rw [List.flatMap_cons] at h
      have hpos := bytes_length_pos c
      rw [h, List.length_append] at hn
      obtain ⟨r₁, hcode, hdec, hin⟩ := readCode_code h
      obtain ⟨m, rfl⟩ : ∃ m, n = m + 1 := ⟨n - 1, by omega⟩
      have hlen : r₁.kbIn.length ≤ m := by
        rw [hin]
        omega
      obtain ⟨r', hloop, hlast, hnil⟩ := ih hin hlen
      have hne : r.kbIn ≠ [] := by
        rw [h]
        intro hnil
        have hlen := congrArg List.length hnil
        rw [List.length_append, List.length_nil] at hlen
        omega
      rw [hdec] at hloop hlast
      refine ⟨r', ?_, hlast, hnil⟩
      rw [readLoop, if_neg hne, hcode]
      dsimp only [bind, Except.bind]
      rw [hloop]
      rfl

/-- **`keyboard_read`** on complete codes. -/
theorem keyboardRead_codes (make : Bool) (cs : List Code) (k : KeyboardState) :
    ∃ k', keyboardRead make (cs.flatMap Code.bytes) k =
        .ok (k', (batch cs ⟨0, make, k.toModifiers⟩).2) ∧
      k'.toModifiers = (batch cs ⟨0, make, k.toModifiers⟩).1.held := by
  obtain ⟨r', hloop, hdec, -⟩ := @readLoop_codes cs
    ⟨k, cs.flatMap Code.bytes, 0, make, 0⟩ _ rfl (Nat.le_refl _)
  refine ⟨r'.kbState, ?_, congrArg Decoder.held hdec⟩
  rw [keyboardRead, hloop]
  rfl

end Codes

/-! ## Calls one after the other -/

/-- A call for every batch of codes; `junk i` is what `make` happens to hold in
    the call that begins with the code `i`. -/
def readAll (junk : Nat → Bool) : Nat → List (List Code) → KeyboardState →
    Except Halt (KeyboardState × List Key)
  | _, [], k => pure (k, [])
  | i, cs :: rest, k => do
      let (k, keys) ← keyboardRead (junk i) (cs.flatMap Code.bytes) k
      let (k, more) ← readAll junk (i + cs.length) rest k
      pure (k, keys ++ more)

/-- The same on the modifiers and locks. -/
def batches (junk : Nat → Bool) : Nat → List (List Code) → Modifiers →
    Modifiers × List Key
  | _, [], k => (k, [])
  | i, cs :: rest, k =>
      let b := batch cs ⟨0, junk i, k⟩
      let r := batches junk (i + cs.length) rest b.1.held
      (r.1, b.2 ++ r.2)

theorem readAll_batches (junk : Nat → Bool) : ∀ (bs : List (List Code)) (i : Nat)
    (k : KeyboardState), ∃ k', readAll junk i bs k =
        .ok (k', (batches junk i bs k.toModifiers).2) ∧
      k'.toModifiers = (batches junk i bs k.toModifiers).1 := by
  intro bs
  induction bs with
  | nil => exact fun i k => ⟨k, rfl, rfl⟩
  | cons cs bs ih =>
      intro i k
      obtain ⟨k₁, hread, hk₁⟩ := keyboardRead_codes (junk i) cs k
      obtain ⟨k₂, hmore, hk₂⟩ := ih (i + cs.length) k₁
      rw [hk₁] at hmore hk₂
      refine ⟨k₂, ?_, hk₂⟩
      rw [readAll, hread]
      dsimp only [bind, Except.bind]
      rw [hmore]
      rfl

/-- One call for every code. -/
def singles (cs : List Code) : List (List Code) := cs.map fun c => [c]

/-- The state behind a code does not depend on what `make` held. -/
def Code.held (c : Code) (k : Modifiers) : Modifiers :=
  (c.step ⟨0, false, k⟩).held

theorem held_step (c : Code) (make : Bool) (k : Modifiers) :
    (c.step ⟨0, make, k⟩).held = c.held k := by
  cases c <;> rfl

def heldAfter (cs : List Code) (k : Modifiers) : Modifiers :=
  cs.foldl (fun k c => c.held k) k

theorem batches_singles (junk : Nat → Bool) : ∀ (cs : List Code) (i : Nat)
    (k : Modifiers), (batches junk i (singles cs) k).1 = heldAfter cs k := by
  intro cs
  induction cs with
  | nil => exact fun _ _ => rfl
  | cons c cs ih =>
      intro i k
      rw [singles, List.map_cons, batches]
      show (batches junk (i + 1) (singles cs) (c.step ⟨0, junk i, k⟩).held).1 = _
      rw [ih, held_step]
      rfl

end KosKeyboard
