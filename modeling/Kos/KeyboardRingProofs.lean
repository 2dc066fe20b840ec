import Kos.FlatMemoryProofs
import Kos.RingProofs

/-! # The keyboard buffer

    `keyboard_handler` and `get_byte_from_kb_buf` of `device/keyboard.c` on the
    bytes of `kb_in` and `kb_state` in memory, behind `init_keyboard`.

    * With both pointers in the buffer the two are the operations of a ring of
      32 bytes (`view_handler`, `view_getByte`);
    * `init_keyboard` does not set the pointers, so the buffer is a bounded
      queue exactly if they pointed to one place of it before (`ring_iff`);
    * they are null, and the first scan code is written to address 0
      (`null_written`). -/

namespace KosKeyboardRing

open FlatMemory
open RingBuffer

/-- The bytes of the ring. -/
def LEN_KB_IN_BUFFER : Nat := 32

/-- Where the two variables are. -/
structure Layout where
  kbIn : Addr
  kbState : Addr
  kbIn_end : kbIn.toNat + 44 ≤ 4294967296
  kbState_end : kbState.toNat + 48 ≤ 4294967296
  apart : kbIn.toNat + 44 ≤ kbState.toNat ∨ kbState.toNat + 48 ≤ kbIn.toNat

namespace Layout

variable (L : Layout)

/-- `&kb_in.p_head` -/
def pHead : Addr := L.kbIn

/-- Where `p_tail` is. -/
def pTail : Addr := L.kbIn + 4

/-- `kb_in.buf` -/
def buf : Addr := L.kbIn + 12

/-- `&kb_state.count` -/
def count : Addr := L.kbState + 4

/-- Where `num_lock` is. -/
def numLock : Addr := L.kbState + 36

end Layout

/-! ## The functions -/

/-- `kb_state = (struct KeyboardState){0}`, and `num_lock`. -/
def initKeyboard (L : Layout) (mem : Mem) : Mem :=
  writeU32 (fill mem L.kbState 0 48) L.numLock 1

/-- A pointer into the buffer is moved on. -/
def advance (L : Layout) (p : Addr) (mem : Mem) : Mem :=
  let mem := writeU32 mem p (readU32 mem p + 1)
  if readU32 mem p = L.buf + BitVec.ofNat 32 LEN_KB_IN_BUFFER then
    writeU32 mem p L.buf
  else mem

/-- `keyboard_handler`, without `key_pressed`. -/
def keyboardHandler (L : Layout) (scanCode : Byte) (mem : Mem) : Mem :=
  if (readU32 mem L.count).toInt < LEN_KB_IN_BUFFER then
    let mem := writeU32 mem L.count (readU32 mem L.count + 1)
    let mem := Function.update mem (readU32 mem L.pHead) scanCode
    advance L L.pHead mem
  else mem

/-- `get_byte_from_kb_buf`, with a byte there. -/
def getByteFromKbBuf (L : Layout) (mem : Mem) : Byte × Mem :=
  let scanCode := mem (readU32 mem L.pTail)
  let mem := advance L L.pTail mem
  (scanCode, writeU32 mem L.count (readU32 mem L.count - 1))

/-! ## Places -/

section Places

variable {L : Layout} {mem : Mem} {a x : Addr} {v : BitVec 32} {n i : Nat}

/-- A block that does not wrap around. -/
theorem inBlock_iff (h : a.toNat + n ≤ 4294967296) :
    InBlock a n x ↔ a.toNat ≤ x.toNat ∧ x.toNat < a.toNat + n := by
  have hx := x.isLt
  rw [InBlock, BitVec.toNat_sub]
  omega

/-- A word is read where nothing was written. -/
theorem readU32_of_agree {mem' : Mem} (h : ∀ x, InBlock a 4 x → mem' x = mem x) :
    readU32 mem' a = readU32 mem a :=
  readU32_congr fun _ hi => readBlock_of_agree (by decide) h hi

/-- Where `p_tail` is. -/
theorem toNat_pTail (L : Layout) : L.pTail.toNat = L.kbIn.toNat + 4 := by
  have h := L.kbIn_end
  rw [Layout.pTail, BitVec.toNat_add]
  exact Nat.mod_eq_of_lt (by show L.kbIn.toNat + 4 < 4294967296; omega)

/-- Where the buffer is. -/
theorem toNat_buf (L : Layout) : L.buf.toNat = L.kbIn.toNat + 12 := by
  have h := L.kbIn_end
  rw [Layout.buf, BitVec.toNat_add]
  exact Nat.mod_eq_of_lt (by show L.kbIn.toNat + 12 < 4294967296; omega)

/-- Where the count is. -/
theorem toNat_count (L : Layout) : L.count.toNat = L.kbState.toNat + 4 := by
  have h := L.kbState_end
  rw [Layout.count, BitVec.toNat_add]
  exact Nat.mod_eq_of_lt (by show L.kbState.toNat + 4 < 4294967296; omega)

/-- The bytes of the four places are different bytes. -/
theorem pHead_apart (h : InBlock L.pHead 4 x) :
    ¬ InBlock L.pTail 4 x ∧ ¬ InBlock L.count 4 x ∧ ¬ InBlock L.buf 32 x := by
  have h1 := L.kbIn_end
  have h2 := L.kbState_end
  have h3 := L.apart
  have htail := toNat_pTail L
  have hbuf := toNat_buf L
  have hcount := toNat_count L
  rw [Layout.pHead, inBlock_iff (by omega)] at h
  rw [inBlock_iff (by omega), inBlock_iff (by omega), inBlock_iff (by omega)]
  omega

/-- `p_tail` is apart from the other variables. -/
theorem pTail_apart (h : InBlock L.pTail 4 x) :
    ¬ InBlock L.pHead 4 x ∧ ¬ InBlock L.count 4 x ∧ ¬ InBlock L.buf 32 x := by
  have h1 := L.kbIn_end
  have h2 := L.kbState_end
  have h3 := L.apart
  have htail := toNat_pTail L
  have hbuf := toNat_buf L
  have hcount := toNat_count L
  rw [inBlock_iff (by omega)] at h
  rw [Layout.pHead, inBlock_iff (by omega), inBlock_iff (by omega),
    inBlock_iff (by omega)]
  omega

/-- So is the count. -/
theorem count_apart (h : InBlock L.count 4 x) :
    ¬ InBlock L.pHead 4 x ∧ ¬ InBlock L.pTail 4 x ∧ ¬ InBlock L.buf 32 x := by
  refine ⟨fun hh => ?_, fun ht => ?_, ?_⟩
  · exact (pHead_apart hh).2.1 h
  · exact (pTail_apart ht).2.1 h
  · have h1 := L.kbIn_end
    have h2 := L.kbState_end
    have h3 := L.apart
    have hbuf := toNat_buf L
    have hcount := toNat_count L
    rw [inBlock_iff (by omega)] at h
    rw [inBlock_iff (by omega)]
    omega

/-- So is the buffer. -/
theorem buf_apart (h : InBlock L.buf 32 x) :
    ¬ InBlock L.pHead 4 x ∧ ¬ InBlock L.pTail 4 x ∧ ¬ InBlock L.count 4 x :=
  ⟨fun hh => (pHead_apart hh).2.2 h, fun ht => (pTail_apart ht).2.2 h,
    fun hc => (count_apart hc).2.2 h⟩

end Places

/-! ## What a step does -/

section Steps

variable {L : Layout} {mem : Mem} {x p : Addr} {scanCode : Byte}

/-- Where a pointer goes. -/
def following (L : Layout) (p : Addr) : Addr :=
  if p + 1 = L.buf + BitVec.ofNat 32 LEN_KB_IN_BUFFER then L.buf else p + 1

/-- The pointer moves on. -/
theorem readU32_advance (L : Layout) (p : Addr) (mem : Mem) :
    readU32 (advance L p mem) p = following L (readU32 mem p) := by
  rw [advance, following, readU32_writeU32]
  split
  · exact readU32_writeU32 _ _ _
  · exact readU32_writeU32 _ _ _

/-- Nothing else changes. -/
theorem advance_out (h : ¬ InBlock p 4 x) : advance L p mem x = mem x := by
  rw [advance]
  split
  · rw [writeU32_out h, writeU32_out h]
  · exact writeU32_out h

/-- There is room for a scan code. -/
def Room (L : Layout) (mem : Mem) : Prop :=
  (readU32 mem L.count).toInt < LEN_KB_IN_BUFFER

instance : Decidable (Room L mem) := inferInstanceAs (Decidable (_ < _))

/-- What `keyboard_handler` does to the four places and to the rest. -/
structure Handled (L : Layout) (mem mem' : Mem) (scanCode : Byte) : Prop where
  pHead : readU32 mem' L.pHead = following L (readU32 mem L.pHead)
  pTail : readU32 mem' L.pTail = readU32 mem L.pTail
  count : readU32 mem' L.count = readU32 mem L.count + 1
  buf : ∀ x, InBlock L.buf 32 x →
    mem' x = if x = readU32 mem L.pHead then scanCode else mem x
  rest : ∀ x, ¬ InBlock L.buf 32 x → ¬ InBlock L.pHead 4 x →
    ¬ InBlock L.count 4 x → mem' x = mem x

/-- The memory when the pointer is moved on. -/
def stored (L : Layout) (scanCode : Byte) (mem : Mem) : Mem :=
  Function.update (writeU32 mem L.count (readU32 mem L.count + 1))
    (readU32 mem L.pHead) scanCode

/-- A code that finds room. -/
theorem keyboardHandler_eq (hroom : Room L mem) :
    keyboardHandler L scanCode mem =
      advance L L.pHead (stored L scanCode mem) := by
  -- the pointer is read behind the write to `count`
  have hpointer : readU32
      (writeU32 mem L.count (readU32 mem L.count + 1)) L.pHead =
        readU32 mem L.pHead :=
    readU32_of_agree fun x hx => writeU32_out (pHead_apart hx).2.1
  rw [keyboardHandler, if_pos (show (readU32 mem L.count).toInt < _ from hroom),
    stored]
  dsimp only
  rw [hpointer]

/-- A code that does not is dropped. -/
theorem keyboardHandler_full (hfull : ¬ Room L mem) :
    keyboardHandler L scanCode mem = mem :=
  if_neg (show ¬ (readU32 mem L.count).toInt < _ from hfull)

/-- The store changes the buffer and the count. -/
theorem stored_out (hhead : InBlock L.buf 32 (readU32 mem L.pHead))
    (hx : ¬ InBlock L.buf 32 x) :
    stored L scanCode mem x =
      writeU32 mem L.count (readU32 mem L.count + 1) x := by
  have hne : x ≠ readU32 mem L.pHead := by
    intro heq
    rw [← heq] at hhead
    exact hx hhead
  exact Function.update_of_ne hne _ _

/-- **ONE INTERRUPT** puts its code at the head. -/
theorem handled (hhead : InBlock L.buf 32 (readU32 mem L.pHead))
    (hroom : Room L mem) (scanCode : Byte) :
    Handled L mem (keyboardHandler L scanCode mem) scanCode := by
  rw [keyboardHandler_eq hroom]
  constructor
  case pHead =>
    have hpointer : readU32 (stored L scanCode mem) L.pHead =
        readU32 mem L.pHead := by
      refine readU32_of_agree fun x hx => ?_
      rw [stored_out hhead (pHead_apart hx).2.2,
        writeU32_out (pHead_apart hx).2.1]
    rw [readU32_advance, hpointer]
  case pTail =>
    refine readU32_of_agree fun x hx => ?_
    rw [advance_out (pTail_apart hx).1,
      stored_out hhead (pTail_apart hx).2.2,
      writeU32_out (pTail_apart hx).2.1]
  case count =>
    rw [← readU32_writeU32 mem L.count (readU32 mem L.count + 1)]
    refine readU32_of_agree fun x hx => ?_
    rw [advance_out (count_apart hx).1,
      stored_out hhead (count_apart hx).2.2]
  case buf =>
    intro x hx
    rw [advance_out (buf_apart hx).1, stored, Function.update_apply,
      writeU32_out (buf_apart hx).2.2]
  case rest =>
    intro x hbuf hp hc
    rw [advance_out hp, stored_out hhead hbuf, writeU32_out hc]

/-- What `get_byte_from_kb_buf` does. -/
structure Got (L : Layout) (mem mem' : Mem) : Prop where
  pHead : readU32 mem' L.pHead = readU32 mem L.pHead
  pTail : readU32 mem' L.pTail = following L (readU32 mem L.pTail)
  count : readU32 mem' L.count = readU32 mem L.count - 1
  rest : ∀ x, ¬ InBlock L.pTail 4 x → ¬ InBlock L.count 4 x → mem' x = mem x

/-- **ONE READING** leaves what `Got` says. -/
theorem got (L : Layout) (mem : Mem) : Got L mem (getByteFromKbBuf L mem).2 := by
  have hcount : readU32 (advance L L.pTail mem) L.count = readU32 mem L.count :=
    readU32_of_agree fun x hx => advance_out (count_apart hx).2.1
  rw [getByteFromKbBuf]
  dsimp only
  rw [hcount]
  constructor
  case pHead =>
    refine readU32_of_agree fun x hx => ?_
    rw [writeU32_out (pHead_apart hx).2.1, advance_out (pHead_apart hx).1]
  case pTail =>
    rw [← readU32_advance]
    exact readU32_of_agree fun x hx => writeU32_out (pTail_apart hx).2.1
  case count => exact readU32_writeU32 _ _ _
  case rest =>
    intro x hp hc
    rw [writeU32_out hc, advance_out hp]

end Steps

/-! ## The ring -/

section Ring

variable {L : Layout} {mem : Mem} {p x : Addr} {scanCode : Byte}

/-- The ring in memory. -/
def view (L : Layout) (mem : Mem) : Buffer Byte where
  cell i := if i < LEN_KB_IN_BUFFER then mem (L.buf + BitVec.ofNat 32 i) else 0
  head := (readU32 mem L.pHead - L.buf).toNat
  tail := (readU32 mem L.pTail - L.buf).toNat
  count := (readU32 mem L.count).toNat

/-- A pointer into the buffer is its distance from the first cell. -/
theorem eq_cell (L : Layout) (p : Addr) :
    p = L.buf + BitVec.ofNat 32 (p - L.buf).toNat := by
  rw [BitVec.ofNat_toNat, BitVec.setWidth_eq, BitVec.add_comm,
    BitVec.sub_add_cancel]

/-- The cells of the buffer. -/
theorem cell_in {i : Nat} (h : i < 32) :
    InBlock L.buf 32 (L.buf + BitVec.ofNat 32 i) :=
  (inBlock_offset (by decide)).mpr ⟨i, h, rfl⟩

/-- Their numbers. -/
theorem cell_sub {i : Nat} (h : i < 32) :
    (L.buf + BitVec.ofNat 32 i - L.buf).toNat = i := by
  rw [BitVec.add_comm, BitVec.add_sub_cancel, BitVec.toNat_ofNat,
    Nat.mod_eq_of_lt (by omega)]

/-- The pointer behind the last cell goes back to the first one. -/
theorem following_eq (h : InBlock L.buf 32 p) :
    following L p = L.buf + BitVec.ofNat 32 (next 32 (p - L.buf).toNat) := by
  have hsucc : p + 1 = L.buf + BitVec.ofNat 32 ((p - L.buf).toNat + 1) := by
    rw [BitVec.ofNat_add, ← BitVec.add_assoc, ← eq_cell]
    rfl
  rw [InBlock] at h
  rw [following, next, hsucc]
  by_cases hlast : (p - L.buf).toNat + 1 = 32
  · rw [if_pos hlast, if_pos (by rw [hlast]; rfl)]
    exact (BitVec.add_zero _).symm
  · rw [if_neg hlast, if_neg fun heq => hlast ?_]
    exact offset_inj (by omega) (by decide) heq

/-- A pointer stays in the buffer. -/
theorem following_in (h : InBlock L.buf 32 p) :
    InBlock L.buf 32 (following L p) := by
  rw [following_eq h]
  exact cell_in (next_lt h)

/-- It goes to the next cell. -/
theorem following_sub (h : InBlock L.buf 32 p) :
    (following L p - L.buf).toNat = next 32 (p - L.buf).toNat := by
  rw [following_eq h]
  exact cell_sub (next_lt h)

/-- There is room while the count is below 32. -/
theorem room_iff (h : (readU32 mem L.count).toNat ≤ 32) :
    Room L mem ↔ (readU32 mem L.count).toNat < 32 := by
  rw [Room, BitVec.toInt_eq_toNat_of_lt (by omega), LEN_KB_IN_BUFFER]
  omega

/-- The handler puts a code into the ring. -/
theorem view_handler (hhead : InBlock L.buf 32 (readU32 mem L.pHead))
    (hroom : Room L mem) (hcount : (readU32 mem L.count).toNat < 32) :
    view L (keyboardHandler L scanCode mem) =
      put 32 (view L mem) scanCode := by
  have hs := handled hhead hroom scanCode
  have hcells : (view L (keyboardHandler L scanCode mem)).cell =
      (put 32 (view L mem) scanCode).cell := by
    funext i
    by_cases hi : i < LEN_KB_IN_BUFFER
    · have hbyte := hs.buf _ (cell_in hi)
      have hplace : L.buf + BitVec.ofNat 32 i = readU32 mem L.pHead ↔
          i = (readU32 mem L.pHead - L.buf).toNat := by
        constructor
        · intro heq
          rw [← heq, cell_sub hi]
        · intro heq
          rw [heq]
          exact (eq_cell L _).symm
      simp only [view, put, Function.update_apply, if_pos hi, hbyte, hplace]
    · have hne : i ≠ (readU32 mem L.pHead - L.buf).toNat := by
        rw [InBlock] at hhead
        rw [LEN_KB_IN_BUFFER] at hi
        omega
      simp only [view, put, Function.update_apply, if_neg hi, if_neg hne]
  have hone : (readU32 mem L.count + 1).toNat =
      (readU32 mem L.count).toNat + 1 := by
    rw [BitVec.toNat_add]
    exact Nat.mod_eq_of_lt (by show _ + 1 < 4294967296; omega)
  rw [Buffer.mk.injEq]
  refine ⟨hcells, ?_, ?_, ?_⟩
  · show (readU32 _ L.pHead - L.buf).toNat = _
    rw [hs.pHead, following_sub hhead]
    rfl
  · show (readU32 _ L.pTail - L.buf).toNat = _
    rw [hs.pTail]
    rfl
  · show (readU32 _ L.count).toNat = _
    rw [hs.count, hone]
    rfl

/-- The reading takes one out. -/
theorem view_getByte (htail : InBlock L.buf 32 (readU32 mem L.pTail))
    (hcount : 0 < (readU32 mem L.count).toNat) :
    (getByteFromKbBuf L mem).1 = (get 32 (view L mem)).1 ∧
      view L (getByteFromKbBuf L mem).2 = (get 32 (view L mem)).2 := by
  have hs := got L mem
  constructor
  · show mem (readU32 mem L.pTail) = (view L mem).cell _
    rw [InBlock] at htail
    rw [eq_cell L (readU32 mem L.pTail)]
    exact (if_pos htail).symm
  · have hcells : (view L (getByteFromKbBuf L mem).2).cell =
        (view L mem).cell := by
      funext i
      by_cases hi : i < LEN_KB_IN_BUFFER
      · have hapart := buf_apart (cell_in (L := L) hi)
        simp only [view, if_pos hi, hs.rest _ hapart.2.1 hapart.2.2]
      · simp only [view, if_neg hi]
    have hone : (readU32 mem L.count - 1).toNat =
        (readU32 mem L.count).toNat - 1 := by
      rw [BitVec.toNat_sub]
      show (4294967296 - 1 + _) % 4294967296 = _
      omega
    rw [Buffer.mk.injEq]
    refine ⟨hcells, ?_, ?_, ?_⟩
    · show (readU32 _ L.pHead - L.buf).toNat = _
      rw [hs.pHead]
      rfl
    · show (readU32 _ L.pTail - L.buf).toNat = _
      rw [hs.pTail, following_sub htail]
      rfl
    · show (readU32 _ L.count).toNat = _
      rw [hs.count, hone]
      rfl

end Ring

/-! ## Runs -/

section Runs

variable {L : Layout} {mem₀ mem : Mem} {codes taken : List Byte} {x : Addr}
  {scanCode : Byte}

/-- The memories after `init_keyboard`, with the scan codes that were let in
    and the bytes that were taken out. -/
inductive Reach (L : Layout) (mem₀ : Mem) : Mem → List Byte → List Byte → Prop
  | init : Reach L mem₀ (initKeyboard L mem₀) [] []
  | handler {mem : Mem} {codes taken : List Byte} (scanCode : Byte)
      (h : Reach L mem₀ mem codes taken) :
      Reach L mem₀ (keyboardHandler L scanCode mem)
        (if Room L mem then codes ++ [scanCode] else codes) taken
  | getByte {mem : Mem} {codes taken : List Byte}
      (hcount : 0 < (readU32 mem L.count).toInt)
      (h : Reach L mem₀ mem codes taken) :
      Reach L mem₀ (getByteFromKbBuf L mem).2 codes
        (taken ++ [(getByteFromKbBuf L mem).1])

/-- A bounded queue inside its array. -/
structure Queue (L : Layout) (mem₀ mem : Mem) (codes taken : List Byte) :
    Prop where
  head_in : InBlock L.buf LEN_KB_IN_BUFFER (readU32 mem L.pHead)
  tail_in : InBlock L.buf LEN_KB_IN_BUFFER (readU32 mem L.pTail)
  head_eq : (readU32 mem L.pHead - L.buf).toNat =
    ((readU32 mem L.pTail - L.buf).toNat + (readU32 mem L.count).toNat) %
      LEN_KB_IN_BUFFER
  pending : codes.length = taken.length + (readU32 mem L.count).toNat
  in_order : taken <+: codes
  dropped : ¬ Room L mem → codes.length = taken.length + LEN_KB_IN_BUFFER
  kept : ∀ x, ¬ InBlock L.buf LEN_KB_IN_BUFFER x → ¬ InBlock L.pHead 4 x →
    ¬ InBlock L.pTail 4 x → ¬ InBlock L.count 4 x →
      mem x = initKeyboard L mem₀ x

/-- What every step keeps: the ring holds the codes not taken yet. -/
structure Inv (L : Layout) (mem₀ mem : Mem) (codes taken : List Byte) :
    Prop where
  head_in : InBlock L.buf 32 (readU32 mem L.pHead)
  holds : ∃ pending, codes = taken ++ pending ∧ Holds 32 (view L mem) pending
  kept : ∀ x, ¬ InBlock L.buf 32 x → ¬ InBlock L.pHead 4 x →
    ¬ InBlock L.pTail 4 x → ¬ InBlock L.count 4 x →
      mem x = initKeyboard L mem₀ x

/-- `p_tail` points into the buffer. -/
theorem Inv.tail_in (h : Inv L mem₀ mem codes taken) :
    InBlock L.buf 32 (readU32 mem L.pTail) := by
  obtain ⟨pending, -, hholds⟩ := h.holds
  exact hholds.tail_lt

/-- The codes of the ring are those that came and were not taken. -/
theorem Inv.queue (h : Inv L mem₀ mem codes taken) :
    Queue L mem₀ mem codes taken := by
  obtain ⟨pending, hcodes, hholds⟩ := h.holds
  have hcount : (readU32 mem L.count).toNat = pending.length := hholds.count_eq
  have hle : (readU32 mem L.count).toNat ≤ 32 := hholds.count_le
  have hlength : codes.length = taken.length + pending.length := by
    rw [hcodes, List.length_append]
  refine ⟨h.head_in, h.tail_in, hholds.head_eq, by omega, ⟨pending, hcodes.symm⟩,
    fun hfull => ?_, h.kept⟩
  rw [room_iff hle] at hfull
  rw [LEN_KB_IN_BUFFER]
  omega

/-! Where `init_keyboard` writes. -/

/-- `num_lock` is part of the state. -/
theorem numLock_in (h : InBlock L.numLock 4 x) : InBlock L.kbState 48 x := by
  have hend := L.kbState_end
  have hnum : L.numLock.toNat = L.kbState.toNat + 36 := by
    rw [Layout.numLock, BitVec.toNat_add]
    exact Nat.mod_eq_of_lt (by show L.kbState.toNat + 36 < 4294967296; omega)
  rw [inBlock_iff (by omega)] at h ⊢
  omega

/-- `init_keyboard` writes the state only. -/
theorem initKeyboard_out (h : ¬ InBlock L.kbState 48 x) :
    initKeyboard L mem₀ x = mem₀ x := by
  rw [initKeyboard, writeU32_out fun hin => h (numLock_in hin), fill_out h]

/-- The ring is apart from the state. -/
theorem kbIn_not_state (h : InBlock L.kbIn 44 x) : ¬ InBlock L.kbState 48 x := by
  have h1 := L.kbIn_end
  have h2 := L.kbState_end
  have h3 := L.apart
  rw [inBlock_iff (by omega)] at h ⊢
  omega

/-- `kb_in` is as it was. -/
theorem init_pHead (L : Layout) (mem₀ : Mem) :
    readU32 (initKeyboard L mem₀) L.pHead = readU32 mem₀ L.pHead := by
  have hend := L.kbIn_end
  refine readU32_of_agree fun x hx => initKeyboard_out (kbIn_not_state ?_)
  rw [Layout.pHead, inBlock_iff (by omega)] at hx
  rw [inBlock_iff (by omega)]
  omega

/-- So `p_tail` is what it was. -/
theorem init_pTail (L : Layout) (mem₀ : Mem) :
    readU32 (initKeyboard L mem₀) L.pTail = readU32 mem₀ L.pTail := by
  have hend := L.kbIn_end
  have htail := toNat_pTail L
  refine readU32_of_agree fun x hx => initKeyboard_out (kbIn_not_state ?_)
  rw [inBlock_iff (by omega)] at hx ⊢
  omega

/-- And the count is 0. -/
theorem init_count (L : Layout) (mem₀ : Mem) :
    readU32 (initKeyboard L mem₀) L.count = 0 := by
  have hend := L.kbState_end
  have hcount := toNat_count L
  have hzero : ∀ x, InBlock L.count 4 x → initKeyboard L mem₀ x = 0 := by
    intro x hx
    have hnum : L.numLock.toNat = L.kbState.toNat + 36 := by
      rw [Layout.numLock, BitVec.toNat_add]
      exact Nat.mod_eq_of_lt (by show L.kbState.toNat + 36 < 4294967296; omega)
    rw [inBlock_iff (by omega)] at hx
    have hother : ¬ InBlock L.numLock 4 x := by
      rw [inBlock_iff (by omega)]
      omega
    have hin : InBlock L.kbState 48 x := by
      rw [inBlock_iff (by omega)]
      omega
    rw [initKeyboard, writeU32_out hother, fill, if_pos hin]
  have hbyte : ∀ i < 4, readBlock (initKeyboard L mem₀) L.count i = 0 :=
    fun i hi => hzero _ ((inBlock_offset (by decide)).mpr ⟨i, hi, rfl⟩)
  rw [readU32, hbyte 0 (by decide), hbyte 1 (by decide), hbyte 2 (by decide),
    hbyte 3 (by decide)]
  rfl

/-- The invariant behind `init_keyboard`. -/
theorem inv_init (heq : readU32 mem₀ L.pHead = readU32 mem₀ L.pTail)
    (hin : InBlock L.buf 32 (readU32 mem₀ L.pTail)) :
    Inv L mem₀ (initKeyboard L mem₀) [] [] where
  head_in := by rwa [init_pHead, heq]
  holds := by
    refine ⟨[], rfl, holds_empty ?_ ?_ ?_⟩
    · show (readU32 _ L.pTail - L.buf).toNat < 32
      rw [init_pTail]
      exact hin
    · show (readU32 _ L.pHead - L.buf).toNat = (readU32 _ L.pTail - L.buf).toNat
      rw [init_pHead, init_pTail, heq]
    · show (readU32 _ L.count).toNat = 0
      rw [init_count]
      rfl
  kept := fun _ _ _ _ _ => rfl

/-- An interrupt keeps it. -/
theorem inv_handler (h : Inv L mem₀ mem codes taken) :
    Inv L mem₀ (keyboardHandler L scanCode mem)
      (if Room L mem then codes ++ [scanCode] else codes) taken := by
  obtain ⟨pending, hcodes, hholds⟩ := h.holds
  by_cases hroom : Room L mem
  · have hlt : (readU32 mem L.count).toNat < 32 :=
      (room_iff hholds.count_le).mp hroom
    have hs := handled h.head_in hroom scanCode
    rw [if_pos hroom]
    constructor
    case head_in =>
      rw [hs.pHead]
      exact following_in h.head_in
    case holds =>
      refine ⟨pending ++ [scanCode], by rw [hcodes, List.append_assoc], ?_⟩
      rw [view_handler h.head_in hroom hlt]
      exact holds_put hholds hlt scanCode
    case kept =>
      intro x hbuf hp ht hc
      rw [hs.rest x hbuf hp hc, h.kept x hbuf hp ht hc]
  · rw [if_neg hroom, keyboardHandler_full hroom]
    exact h

/-- A reading keeps it. -/
theorem inv_getByte (h : Inv L mem₀ mem codes taken)
    (hcount : 0 < (readU32 mem L.count).toInt) :
    Inv L mem₀ (getByteFromKbBuf L mem).2 codes
      (taken ++ [(getByteFromKbBuf L mem).1]) := by
  obtain ⟨pending, hcodes, hholds⟩ := h.holds
  have hle : (readU32 mem L.count).toNat ≤ 32 := hholds.count_le
  have hpos : 0 < (readU32 mem L.count).toNat := by
    rw [BitVec.toInt_eq_toNat_of_lt (by omega)] at hcount
    omega
  obtain ⟨hbyte, hview⟩ := view_getByte h.tail_in hpos
  have hs := got L mem
  cases pending with
  | nil =>
      have hnone : (readU32 mem L.count).toNat = 0 := hholds.count_eq
      omega
  | cons first rest =>
      obtain ⟨hfirst, hrest⟩ := holds_get hholds
      constructor
      case head_in => rw [hs.pHead]; exact h.head_in
      case holds =>
        refine ⟨rest, ?_, by rw [hview]; exact hrest⟩
        rw [hbyte, hfirst, hcodes, List.append_assoc, List.singleton_append]
      case kept =>
        intro x hbuf hp ht hc
        rw [hs.rest x ht hc, h.kept x hbuf hp ht hc]

/-- **THE INVARIANT** in every state that is reached. -/
theorem reach_inv (heq : readU32 mem₀ L.pHead = readU32 mem₀ L.pTail)
    (hin : InBlock L.buf 32 (readU32 mem₀ L.pTail))
    (h : Reach L mem₀ mem codes taken) : Inv L mem₀ mem codes taken := by
  induction h with
  | init => exact inv_init heq hin
  | handler scanCode _ ih => exact inv_handler ih
  | getByte hcount _ ih => exact inv_getByte ih hcount

/-- The buffer is a bounded queue in every run. -/
def Bounded (L : Layout) (mem₀ : Mem) : Prop :=
  ∀ mem codes taken, Reach L mem₀ mem codes taken →
    Queue L mem₀ mem codes taken

/-- **THE KEYBOARD BUFFER**: it is a bounded queue inside its array exactly if
    the two pointers were at one place of the array before `init_keyboard`. -/
theorem ring_iff (L : Layout) (mem₀ : Mem) :
    Bounded L mem₀ ↔ readU32 mem₀ L.pHead = readU32 mem₀ L.pTail ∧
      InBlock L.buf LEN_KB_IN_BUFFER (readU32 mem₀ L.pTail) := by
  constructor
  · intro h
    have hqueue := h _ _ _ Reach.init
    have hhead := hqueue.head_eq
    have hlt : (readU32 mem₀ L.pTail - L.buf).toNat < 32 := by
      rw [← init_pTail]
      exact hqueue.tail_in
    have hzero : (0 : BitVec 32).toNat = 0 := rfl
    rw [init_pHead, init_pTail, init_count, LEN_KB_IN_BUFFER, hzero,
      Nat.add_zero, Nat.mod_eq_of_lt hlt] at hhead
    refine ⟨?_, hlt⟩
    rw [eq_cell L (readU32 mem₀ L.pHead), hhead, ← eq_cell]
  · rintro ⟨heq, hin⟩ mem codes taken hreach
    exact (reach_inv heq hin hreach).queue

/-- A scan code goes where a null pointer points. -/
theorem null_written (hnull : readU32 mem L.pHead = 0) (hroom : Room L mem)
    (hapart : ¬ InBlock L.pHead 4 0) : keyboardHandler L scanCode mem 0 = scanCode := by
  rw [keyboardHandler_eq hroom, advance_out hapart, stored, hnull,
    Function.update_self]

/-- `kb_in` and `kb_state` one behind the other. -/
def adjacent : Layout where
  kbIn := 0x20000
  kbState := 0x2002C
  kbIn_end := by decide
  kbState_end := by decide
  apart := by decide

/-- `kb_in` is zero when the kernel starts; the first scan code is written to
    address 0. -/
theorem zero_not_bounded :
    keyboardHandler adjacent 0x1E (initKeyboard adjacent fun _ => 0) 0 = 0x1E ∧
      ¬ Bounded adjacent fun _ => 0 := by
  have hnull : readU32 (initKeyboard adjacent fun _ => 0) adjacent.pHead = 0 := by
    rw [init_pHead]
    rfl
  constructor
  · refine null_written hnull ?_ (by decide)
    rw [Room, init_count]
    decide
  · intro h
    have hhead := (h _ _ _ Reach.init).head_in
    rw [hnull] at hhead
    exact absurd hhead (by decide)

end Runs

end KosKeyboardRing
