import Kos.ExecLayoutProofs

/-! # The arguments of a new program

    `execv` of `lib/pm/exec.c` puts pointers and strings into one block on the
    caller's stack.  `do_exec` loads the new program first, and then reads the
    block where the caller had it, moves its pointers and writes it to the last
    KB of the segment.

    * the block that `execv` makes has the pointers, a null pointer and the
      strings, one behind the other (`execvBlock_laid`);
    * moving the pointers leaves the rest as it is (`relocate_moves`);
    * so the arguments arrive if loading the program leaves the block alone, and
      PM's answer leaves alone what has been written; as long as the pointers
      are what they were, in no other case (`exec_passes_args`). -/

namespace KosExecArgs

open FlatMemory GuardedRun KosKernel KosProcessManager Overlay CString KosExec
  KosExecLayout
open KosFs (word putWord word_congr word_putWord word_putWord_of_out)

/-! ## `execv` -/

/-- The loop that counts the pointers: `argv_stack_len`. -/
def countArgs : List (List Byte) → Nat → Except Halt Nat
  | [], len => pure len
  | _ :: argv, len => do
      assert (len + 2 * 4 < PROC_STACK_RESERVERD)
      countArgs argv (len + 4)

/-- The loop over the strings, with `argv_stack` at `a`, from pointer `q` on. -/
def copyArgs (a : Addr) : List (List Byte) → Nat → Nat → (Nat → Byte) →
    Except Halt (Nat × (Nat → Byte))
  | [], _, len, b => pure (len, b)
  | s :: argv, q, len, b => do
      let b := putWord b (4 * q) (a + BitVec.ofNat 32 len)
      assert (len + s.length + 1 < PROC_STACK_RESERVERD)
      copyArgs a argv (q + 1) (len + s.length + 1) (strcpy b len s)

/-- `argv_stack_len` and `argv_stack` of **`execv`**. -/
def execvBlock (a : Addr) (argv : List (List Byte)) (junk : Nat → Byte) :
    Except Halt (Nat × (Nat → Byte)) := do
  let len ← countArgs argv 0
  copyArgs a argv 0 (len + 4) (putWord junk len 0)

/-- Pointers from number `q` on, and the strings they point to, one behind the
    other from `off` to `len`. -/
def Laid (a : Addr) (b : Nat → Byte) : List (List Byte) → Nat → Nat → Nat → Prop
  | [], _, off, len => off = len
  | s :: argv, q, off, len =>
      word b (4 * q) = a + BitVec.ofNat 32 off ∧ StrAt b off s ∧
        Laid a b argv (q + 1) (off + s.length + 1) len

section Block

variable {a : Addr} {b b' junk : Nat → Byte} {argv : List (List Byte)}
  {s : List Byte} {i q off len x : Nat}

theorem countArgs_eq_ok : ∀ {argv : List (List Byte)} {len len' : Nat},
    countArgs argv len = .ok len' → len' = len + 4 * argv.length ∧
      (argv ≠ [] → len' + 4 < 0x400) := by
  intro argv
  induction argv with
  | nil =>
      intro len len' h
      obtain rfl := pure_eq_ok.mp h
      exact ⟨rfl, fun hne => absurd rfl hne⟩
  | cons s argv ih =>
      intro len len' h
      simp only [countArgs, bind_eq_ok, assert_eq_ok, exists_const] at h
      obtain ⟨hroom, h⟩ := h
      rw [PROC_STACK_RESERVERD] at hroom
      obtain ⟨hlen, hlast⟩ := ih h
      rw [List.length_cons]
      refine ⟨by omega, fun _ => ?_⟩
      cases argv with
      | nil =>
          rw [List.length_nil] at hlen
          omega
      | cons _ _ => exact hlast (List.cons_ne_nil _ _)

theorem Laid.le : ∀ {argv : List (List Byte)} {q off : Nat},
    Laid a b argv q off len → off ≤ len := by
  intro argv
  induction argv with
  | nil => exact fun h => Nat.le_of_eq h
  | cons s argv ih =>
      rintro q off ⟨-, -, h⟩
      have := ih h
      omega

/-- What lies in the block depends on its pointers and its strings only. -/
theorem Laid.congr : ∀ {argv : List (List Byte)} {q off : Nat},
    Laid a b argv q off len →
    (∀ x, 4 * q ≤ x → x < 4 * (q + argv.length) → b' x = b x) →
    (∀ x, off ≤ x → x < len → b' x = b x) → Laid a b' argv q off len := by
  intro argv
  induction argv with
  | nil => exact fun h _ _ => h
  | cons s argv ih =>
      rintro q off ⟨hword, hstr, h⟩ hptr hbyte
      have hle := h.le
      rw [List.length_cons] at hptr
      refine ⟨?_, strAt_congr hstr fun k hk => hbyte _ (by omega) (by omega), ?_⟩
      · rw [← hword]
        exact word_congr fun k hk => hptr _ (by omega) (by omega)
      · exact ih h (fun x hlo hhi => hptr x (by omega) (by omega))
          fun x hlo hhi => hbyte x (by omega) hhi

/-- **THE STRINGS** are laid behind the pointers, and no other byte changes. -/
theorem copyArgs_laid : ∀ {argv : List (List Byte)} {q off : Nat}
    {b : Nat → Byte}, (∀ s ∈ argv, ∀ c ∈ s, c ≠ 0) →
    4 * (q + argv.length) ≤ off → copyArgs a argv q off b = .ok (len, b') →
    Laid a b' argv q off len ∧ (argv = [] ∨ len < 0x400) ∧
      ∀ x, x < 4 * q ∨ (4 * (q + argv.length) ≤ x ∧ x < off) → b' x = b x := by
  intro argv
  induction argv with
  | nil =>
      intro q off b _ _ h
      obtain ⟨rfl, rfl⟩ := Prod.mk.inj (pure_eq_ok.mp h)
      exact ⟨rfl, Or.inl rfl, fun _ _ => rfl⟩
  | cons s argv ih =>
      intro q off b hstrings hroom h
      rw [List.length_cons] at hroom
      simp only [copyArgs, bind_eq_ok, assert_eq_ok, exists_const] at h
      obtain ⟨hfit, h⟩ := h
      rw [PROC_STACK_RESERVERD] at hfit
      obtain ⟨hlaid, hend, hsame⟩ := ih
        (fun t ht => hstrings t (List.mem_cons_of_mem s ht)) (by omega) h
      have hle := hlaid.le
      refine ⟨⟨?_, ?_, hlaid⟩, Or.inr ?_, fun x hx => ?_⟩
      · -- the pointer lies before all that is written later
        rw [← word_putWord b (4 * q) (a + BitVec.ofNat 32 off)]
        refine word_congr fun k hk => ?_
        rw [hsame _ (Or.inl (by omega)), strcpy_of_out (Or.inl (by omega))]
      · refine strAt_congr (strAt_strcpy (hstrings s List.mem_cons_self))
          fun k hk => hsame _ (Or.inr ⟨by omega, by omega⟩)
      · rcases hend with rfl | hend
        · obtain rfl : off + s.length + 1 = len := hlaid
          exact hfit
        · exact hend
      · rw [List.length_cons] at hx
        rw [hsame x (by omega), strcpy_of_out (by omega)]
        exact put_of_out (by omega)

/-- **`execv`** makes the array of pointers, its end and the strings. -/
theorem execvBlock_laid (hstrings : ∀ s ∈ argv, ∀ c ∈ s, c ≠ 0)
    (h : execvBlock a argv junk = .ok (len, b)) :
    Laid a b argv 0 (4 * argv.length + 4) len ∧
      word b (4 * argv.length) = 0 ∧ len < 0x400 := by
  simp only [execvBlock, bind_eq_ok] at h
  obtain ⟨n, hcount, h⟩ := h
  obtain ⟨hn, hroom⟩ := countArgs_eq_ok hcount
  rw [Nat.zero_add] at hn
  subst hn
  obtain ⟨hlaid, hend, hsame⟩ := copyArgs_laid hstrings (by omega) h
  refine ⟨hlaid, ?_, ?_⟩
  · rw [← word_putWord junk (4 * argv.length) 0]
    exact word_congr fun k hk => hsame _ (Or.inr ⟨by omega, by omega⟩)
  · rcases hend with rfl | hend
    · obtain rfl : 4 * 0 + 4 = len := hlaid
      decide
    · exact hend

/-- The place of a string. -/
theorem Laid.get : ∀ {argv : List (List Byte)} {q off i : Nat},
    Laid a b argv q off len → argv[i]? = some s →
    ∃ o, off ≤ o ∧ o + s.length + 1 ≤ len ∧
      word b (4 * (q + i)) = a + BitVec.ofNat 32 o ∧ StrAt b o s := by
  intro argv
  induction argv with
  | nil =>
      intro q off i _ hi
      cases hi
  | cons t argv ih =>
      rintro q off i ⟨hword, hstr, h⟩ hi
      cases i with
      | zero =>
          obtain rfl : t = s := by simpa using hi
          exact ⟨off, Nat.le_refl off, h.le, hword, hstr⟩
      | succ i =>
          obtain ⟨o, hlo, hhi, hptr, hat⟩ := ih h (by simpa using hi)
          refine ⟨o, by omega, hhi, ?_, hat⟩
          rw [show 4 * (q + (i + 1)) = 4 * (q + 1 + i) by omega]
          exact hptr

/-- Every byte behind the pointers belongs to a string. -/
theorem Laid.cover : ∀ {argv : List (List Byte)} {q off : Nat},
    Laid a b argv q off len → off ≤ x → x < len →
    ∃ i s o, argv[i]? = some s ∧ o ≤ x ∧ x ≤ o + s.length ∧
      word b (4 * (q + i)) = a + BitVec.ofNat 32 o ∧ StrAt b o s := by
  intro argv
  induction argv with
  | nil =>
      intro q off h hlo hhi
      obtain rfl : off = len := h
      omega
  | cons t argv ih =>
      rintro q off ⟨hword, hstr, h⟩ hlo hhi
      by_cases hx : x ≤ off + t.length
      · exact ⟨0, t, off, rfl, hlo, hx, hword, hstr⟩
      · obtain ⟨i, s, o, hi, hin, hlast, hptr, hat⟩ := ih h (by omega) hhi
        refine ⟨i + 1, s, o, by simpa using hi, hin, hlast, ?_, hat⟩
        rw [show 4 * (q + (i + 1)) = 4 * (q + 1 + i) by omega]
        exact hptr

end Block

/-! ## Moving the pointers -/

section Move

variable {b : Nat → Byte} {n q : Nat}

/-- **THE MOVE** of the pointers up to the null pointer. -/
theorem relocate_moves (delta : BitVec 32) : ∀ (fuel : Nat) {q : Nat}
    {b : Nat → Byte},
    (∀ k, q ≤ k → k < n → word b (4 * k) ≠ 0) → word b (4 * n) = 0 → q ≤ n →
    n < q + fuel →
    ∃ b', relocate delta fuel q b = .ok (b', n) ∧
      (∀ k, q ≤ k → k < n → word b' (4 * k) = word b (4 * k) + delta) ∧
      ∀ x, x < 4 * q ∨ 4 * n ≤ x → b' x = b x := by
  intro fuel
  induction fuel with
  | zero => exact fun _ _ _ _ => by omega
  | succ fuel ih =>
      intro q b hptr hnull hq hfuel
      rw [relocate]
      rcases Nat.eq_or_lt_of_le hq with rfl | hlt
      · rw [if_pos hnull]
        exact ⟨b, rfl, fun k hlo hhi => by omega, fun _ _ => rfl⟩
      · rw [if_neg (hptr q (Nat.le_refl q) hlt)]
        obtain ⟨b₁, hb₁⟩ : ∃ b₁, b₁ =
          putWord b (4 * q) (word b (4 * q) + delta) := ⟨_, rfl⟩
        have hother : ∀ k, q < k → word b₁ (4 * k) = word b (4 * k) := by
          intro k hk
          rw [hb₁]
          exact word_putWord_of_out (by omega)
        have hmoved : word b₁ (4 * q) = word b (4 * q) + delta := by
          rw [hb₁, word_putWord]
        rw [← hb₁]
        obtain ⟨b', hrun, hwords, hsame⟩ := ih (q := q + 1) (b := b₁)
          (fun k hlo hhi => by rw [hother k hlo]; exact hptr k (by omega) hhi)
          (by rw [hother n hlt]; exact hnull) hlt (by omega)
        refine ⟨b', hrun, fun k hlo hhi => ?_, fun x hx => ?_⟩
        · rcases Nat.eq_or_lt_of_le hlo with rfl | hk
          · rw [← hmoved]
            exact word_congr fun j hj => hsame _ (Or.inl (by omega))
          · rw [hwords k hk hhi, hother k hk]
        · rw [hsame x (by omega), hb₁]
          exact put_of_out (by omega)

end Move

/-! ## The block in memory -/

/-- `execv` has made the block of `argv` at `BUF`, in an array on the stack. -/
structure Called (base : Addr) (argv : List (List Byte)) (r : ExecRequest)
    (mem : Mem) : Prop where
  strings : ∀ s ∈ argv, ∀ c ∈ s, c ≠ 0
  place : r.buf.toNat + PROC_STACK_RESERVERD ≤ 4294967296
  block : ∃ (len : Nat) (b junk : Nat → Byte),
    execvBlock r.buf argv junk = .ok (len, b) ∧ r.bufLen = len ∧
      ∀ k < len, readBlock mem (base + r.buf) k = b k

/-- The first `n` bytes of the caller's block are what they were. -/
def SameArgs (base : Addr) (r : ExecRequest) (mem mem' : Mem) (n : Nat) : Prop :=
  ∀ k < n, readBlock mem' (base + r.buf) k = readBlock mem (base + r.buf) k

/-- The file has the same bytes wherever it is laid over the first `n`. -/
def KeepsArgs (base : Addr) (r : ExecRequest) (mem : Mem) (n : Nat) : Prop :=
  ∀ k < n, argsRead mem base r k = readBlock mem (base + r.buf) k

/-- No bytes of the file are loaded into the caller's block. -/
structure LoadsElsewhere (base : Addr) (r : ExecRequest) (mem : Mem) : Prop where
  headers : HeadersApart base mem
  fit : ∀ i, Loads mem i → (phdr mem i).pFilesz = 0 ∨
    (phdr mem i).pVaddr.toNat + (phdr mem i).pFilesz.toNat ≤ procSize
  elsewhere : ∀ i x, Loads mem i → Fills mem i x →
    x < r.buf.toNat ∨ r.buf.toNat + r.bufLen.toNat ≤ x

/-- The bytes of a message. -/
def SIZEOF_MESSAGE : Nat := 48

/-- The memory when the new program starts: PM's answer, which is sent after
    `do_exec`, is where the caller asked for it. -/
def answered (image : Image) (base msg : Addr) (reply : Nat → Byte) : Mem :=
  store image.mem (base + msg) SIZEOF_MESSAGE reply

/-- **THE ARGUMENTS ARRIVE**: `ecx` and `eax` are what `_start` pushes for
    `main`. -/
structure Passed (base : Addr) (argv : List (List Byte)) (image : Image)
    (mem : Mem) : Prop where
  argc : image.ecx = BitVec.ofNat 32 argv.length
  array : 0xFFC00 ≤ image.eax.toNat ∧
    image.eax.toNat + (4 * argv.length + 4) ≤ procSize
  null : word (readBlock mem base) (image.eax.toNat + 4 * argv.length) = 0
  strings : ∀ (i : Nat) (s : List Byte), argv[i]? = some s →
    ∃ ptr : Nat, word (readBlock mem base) (image.eax.toNat + 4 * i) =
        BitVec.ofNat 32 ptr ∧
      0xFFC00 ≤ ptr ∧ ptr + s.length < procSize ∧
      StrAt (readBlock mem base) ptr s

section Args

variable {T : Table} {p : Int} {base msg : Addr} {r : ExecRequest}
  {argv : List (List Byte)} {mem mem₁ mem₂ mem' : Mem} {image : Image}
  {junk block reply : Nat → Byte} {name : List Byte} {argc : Nat}
  {copies : List Copied}

/-- The loop leaves the block alone if nothing is loaded into it. -/
theorem loadLoop_keeps (hplace : r.buf.toNat + r.bufLen.toNat ≤ 4294967296)
    (hout : LoadsElsewhere (baseOf T p) r mem) :
    ∀ {fuel i : Nat} {mem₁ : Mem} {copies : List Copied},
      Outside (baseOf T p) mem mem₁ →
      SameArgs (baseOf T p) r mem mem₁ r.bufLen.toNat →
      loadLoop T p fuel i mem₁ = .ok (mem', copies) →
      SameArgs (baseOf T p) r mem mem' r.bufLen.toNat := by
  intro fuel
  induction fuel with
  | zero =>
      intro i mem₁ copies _ hsame hrun
      cases hrun
      exact hsame
  | succ fuel ih =>
      intro i mem₁ copies ho hsame hrun
      obtain ⟨hnum, hhdr⟩ := headers_same hout.headers ho
      rcases loadLoop_eq_ok.mp hrun with ⟨-, rfl, -⟩ | ⟨-, -, hnext⟩ |
        ⟨hi, htype, -, -, -, rest, -, hnext⟩
      · exact hsame
      · exact ih ho hsame hnext
      · rw [hnum] at hi
        rw [hhdr i hi] at htype hnext
        have hload : Loads mem i := ⟨hi, htype⟩
        have hfit := hout.fit i hload
        have hlt := (phdr mem i).pFilesz.isLt
        refine ih (outside_copy ho hfit) (fun k hk => ?_) hnext
        rw [← hsame k hk]
        refine copyLoop_out (by omega) fun hin => ?_
        -- a byte that is written is one of the file's
        obtain ⟨j, hj, heq⟩ := (inBlock_offset (by omega)).mp hin
        have hsum : (r.buf + BitVec.ofNat 32 k).toNat =
            ((phdr mem i).pVaddr + BitVec.ofNat 32 j).toNat := by
          refine congrArg BitVec.toNat
            ((BitVec.add_right_inj (baseOf T p)).mp ?_)
          rw [← BitVec.add_assoc, ← BitVec.add_assoc]
          exact heq
        rw [BitVec.toNat_add, BitVec.toNat_add, BitVec.toNat_ofNat,
          BitVec.toNat_ofNat] at hsum
        have hrange : (phdr mem i).pVaddr.toNat +
            (phdr mem i).pFilesz.toNat ≤ 0x100000 := by
          rcases hfit with hzero | hfit
          · rw [hzero] at hj
            exact absurd hj (Nat.not_lt_zero j)
          · exact hfit
        have hx : r.buf.toNat + k = (phdr mem i).pVaddr.toNat + j := by omega
        have helse := hout.elsewhere i (r.buf.toNat + k) hload
          ⟨by omega, by omega⟩
        omega

/-- **THE POINTERS** are moved, if `do_exec` finds those that `execv` made:
    behind them the block is as it was read. -/
theorem args_relocate (junk : Nat → Byte) (hcall : Called base argv r mem)
    (hsame : SameArgs base r mem mem₁ (4 * argv.length + 4)) :
    ∃ (len : Nat) (b block : Nat → Byte), r.bufLen = len ∧
      len < 0x400 ∧ Laid r.buf b argv 0 (4 * argv.length + 4) len ∧
      (∀ k < len, readBlock mem (base + r.buf) k = b k) ∧
      relocate (stackPointer - r.buf) 256 0
        (put junk 0 len (readBlock mem₁ (base + r.buf))) =
          .ok (block, argv.length) ∧
      (∀ i < argv.length, word block (4 * i) =
        word b (4 * i) + (stackPointer - r.buf)) ∧
      word block (4 * argv.length) = 0 ∧
      ∀ x, 4 * argv.length ≤ x → x < len →
        block x = readBlock mem₁ (base + r.buf) x := by
  obtain ⟨len, b, junk', hexecv, hlen, hread⟩ := hcall.block
  obtain ⟨hlaid, hnull, hmax⟩ := execvBlock_laid hcall.strings hexecv
  have hplace := hcall.place
  rw [PROC_STACK_RESERVERD] at hplace
  have hle := hlaid.le
  obtain ⟨c, hc⟩ : ∃ c, c = put junk 0 len (readBlock mem₁ (base + r.buf)) :=
    ⟨_, rfl⟩
  have hcopy : ∀ x < len, c x = readBlock mem₁ (base + r.buf) x := by
    intro x hx
    rw [hc, put_of_in (by omega), Nat.sub_zero]
  have harray : ∀ x < 4 * argv.length + 4, c x = b x := by
    intro x hx
    rw [hcopy x (by omega), hsame x hx, hread x (by omega)]
  have hwords : ∀ i ≤ argv.length, word c (4 * i) = word b (4 * i) :=
    fun i hi => word_congr fun k hk => harray _ (by omega)
  -- no pointer into the block is null
  have hptr : ∀ i, 0 ≤ i → i < argv.length → word c (4 * i) ≠ 0 := by
    intro i _ hi hzero
    obtain ⟨o, hlo, hhi, hword, -⟩ :=
      hlaid.get (List.getElem?_eq_getElem hi)
    rw [Nat.zero_add] at hword
    rw [hwords i (by omega), hword] at hzero
    have hnat := congrArg BitVec.toNat hzero
    rw [BitVec.toNat_add, BitVec.toNat_ofNat,
      show BitVec.toNat (0 : BitVec 32) = 0 from rfl] at hnat
    omega
  obtain ⟨block, hrun, hmoved, hrest⟩ := relocate_moves
    (stackPointer - r.buf) 256 hptr
    (by rw [hwords _ (Nat.le_refl _)]; exact hnull) (Nat.zero_le _) (by omega)
  rw [hc] at hrun
  refine ⟨len, b, block, hlen, hmax, hlaid, hread, hrun, fun i hi => ?_, ?_,
    fun x hlo hhi => ?_⟩
  · rw [hmoved i (Nat.zero_le i) hi, hwords i (by omega)]
  · rw [← hnull, ← hwords _ (Nat.le_refl _)]
    exact word_congr fun k hk => hrest _ (Or.inr (by omega))
  · rw [hrest x (Or.inr hlo), hcopy x hhi]

/-- The answer is not written into the new argument block. -/
def AnswerElsewhere (r : ExecRequest) (msg : Addr) : Prop :=
  ∀ k < r.bufLen.toNat,
    ¬ InBlock msg SIZEOF_MESSAGE (stackPointer + BitVec.ofNat 32 k)

instance (r : ExecRequest) (msg : Addr) : Decidable (AnswerElsewhere r msg) :=
  inferInstanceAs (Decidable (∀ k < _, ¬ InBlock _ _ _))

/-- The new program finds what `do_exec` has written. -/
theorem readBlock_answered (hlen : r.bufLen ≤ 0x400)
    (hmem : image.mem = store mem₁ (base + stackPointer) r.bufLen.toNat block)
    (hanswer : AnswerElsewhere r msg) {k : Nat} (hk : k < r.bufLen.toNat) :
    readBlock (answered image base msg reply) base (0xFFC00 + k) = block k := by
  have hstack := (readBlock_stack mem₁ block base hlen (x := 0xFFC00 + k)
    (by rw [procSize]; omega)).1 ⟨by omega, by omega⟩
  rw [Nat.add_sub_cancel_left] at hstack
  rw [← hstack, ← hmem]
  refine store_out fun hin => hanswer k hk ?_
  have hdist : base + (stackPointer + BitVec.ofNat 32 k) - (base + msg) =
      stackPointer + BitVec.ofNat 32 k - msg := by grind
  rw [BitVec.ofNat_add, show BitVec.ofNat 32 0xFFC00 = stackPointer from rfl,
    InBlock, hdist] at hin
  exact hin

/-- **THE ARGUMENTS ARRIVE**, if the pointers that `do_exec` finds are those that
    `execv` made, exactly if the strings behind them are. -/
theorem passed_iff_same (hcall : Called (baseOf T r.source) argv r mem)
    (hload : loadImage T r.source mem = .ok (mem₁, copies))
    (hrun : execFile T r junk name mem = .ok image)
    (hanswer : AnswerElsewhere r msg)
    (hsame : SameArgs (baseOf T r.source) r mem mem₁ (4 * argv.length + 4)) :
    Passed (baseOf T r.source) argv image
        (answered image (baseOf T r.source) msg reply) ↔
      SameArgs (baseOf T r.source) r mem mem₁ r.bufLen.toNat := by
  obtain ⟨mem₁', copies', mem₂, block, argc, hload', hstack, himage⟩ :=
    execFile_eq_ok.mp hrun
  obtain ⟨rfl, rfl⟩ := Prod.mk.inj (Except.ok.inj (hload.symm.trans hload'))
  obtain ⟨-, -, hle, hmem, hmove⟩ := setupStack_eq_ok hstack
  obtain ⟨len, b, block', hlen, hmax, hlaid, hread, hrun', hmoved, hnull, hrest⟩ :=
    args_relocate junk hcall hsame
  have hnat : r.bufLen.toNat = len := by rw [hlen, Int.toNat_natCast]
  have hbehind := hlaid.le
  rw [hnat] at hmove
  obtain ⟨rfl, rfl⟩ := Prod.mk.inj
    (Except.ok.inj ((hmove (by omega)).symm.trans hrun'))
  have hecx : image.ecx = BitVec.ofNat 32 argv.length := by rw [himage]
  have heax : image.eax.toNat = 0xFFC00 := by rw [himage]; rfl
  have himageMem : image.mem = mem₂ := by rw [himage]
  obtain ⟨f, hf⟩ : ∃ f, f = readBlock
    (answered image (baseOf T r.source) msg reply) (baseOf T r.source) := ⟨_, rfl⟩
  have hblock : ∀ k < len, f (0xFFC00 + k) = block k := by
    intro k hk
    rw [hf]
    exact readBlock_answered hle (himageMem.trans hmem) hanswer (by omega)
  have hword : ∀ i ≤ argv.length, word f (0xFFC00 + 4 * i) = word block (4 * i) :=
    fun i hi => word_congr fun k hk => by
      rw [Nat.add_assoc]
      exact hblock _ (by omega)
  -- the pointers of the new program
  have hptr : ∀ i < argv.length, ∀ o, word b (4 * i) = r.buf + BitVec.ofNat 32 o →
      word f (0xFFC00 + 4 * i) = BitVec.ofNat 32 (0xFFC00 + o) := by
    intro i hi o hat
    rw [hword i (by omega), hmoved i hi, hat, BitVec.ofNat_add,
      show BitVec.ofNat 32 0xFFC00 = stackPointer from rfl]
    grind
  rw [hnat]
  constructor
  · intro hpassed x hx
    by_cases harray : x < 4 * argv.length + 4
    · exact hsame x harray
    -- a byte of a string, which the program finds as `argv` had it
    obtain ⟨i, s, o, hi, hlo, hhi, hat, hstr⟩ := hlaid.cover (by omega) hx
    rw [Nat.zero_add] at hat
    obtain ⟨ptr, hword', -, hroom, hfound⟩ := hpassed.strings i s hi
    rw [← hf] at hword' hfound
    rw [heax, hptr i (List.getElem?_eq_some_iff.mp hi).1 o hat] at hword'
    have hplace : ptr = 0xFFC00 + o := by
      have hnats := congrArg BitVec.toNat hword'
      rw [BitVec.toNat_ofNat, BitVec.toNat_ofNat] at hnats
      rw [procSize] at hroom
      omega
    have hbyte := hfound.byte (k := x - o) (by omega)
    rw [← hstr.byte (k := x - o) (by omega), hplace, Nat.add_assoc,
      Nat.add_sub_cancel' hlo, hblock x hx, hrest x (by omega) hx] at hbyte
    rw [hbyte, hread x hx]
  · intro hall
    refine ⟨hecx, ⟨by omega, by rw [heax, procSize]; omega⟩, ?_, fun i s hi => ?_⟩
    · rw [← hf, heax, hword _ (Nat.le_refl _), hnull]
    · obtain ⟨o, hlo, hhi, hat, hstr⟩ := hlaid.get hi
      rw [Nat.zero_add] at hat
      rw [← hf, heax]
      refine ⟨0xFFC00 + o, hptr i (List.getElem?_eq_some_iff.mp hi).1 o hat,
        by omega, by rw [procSize]; omega, strAt_move hstr fun k hk => ?_⟩
      rw [Nat.add_assoc, hblock _ (by omega), hrest _ (by omega) (by omega),
        hall _ (by omega), hread _ (by omega)]

/-- **EXEC PASSES THE ARGUMENTS** if loading the program leaves the block of
    `execv` as it is, as it does if nothing is loaded there.  If it leaves the
    pointers as they are, the arguments arrive in no other case.  What a file
    with sound headers leaves of the block can be told before it is loaded. -/
theorem exec_passes_args (hcall : Called (baseOf T r.source) argv r mem)
    (hload : loadImage T r.source mem = .ok (mem₁, copies))
    (hrun : execFile T r junk name mem = .ok image)
    (hanswer : AnswerElsewhere r msg) :
    (LoadsElsewhere (baseOf T r.source) r mem ∨
        SameArgs (baseOf T r.source) r mem mem₁ r.bufLen.toNat →
      Passed (baseOf T r.source) argv image
        (answered image (baseOf T r.source) msg reply)) ∧
    (SameArgs (baseOf T r.source) r mem mem₁ (4 * argv.length + 4) →
      (Passed (baseOf T r.source) argv image
          (answered image (baseOf T r.source) msg reply) ↔
        SameArgs (baseOf T r.source) r mem mem₁ r.bufLen.toNat)) ∧
    ∀ fileSize < PM_BUF_SIZE, SegmentPlace (baseOf T r.source) →
      HeadersApart (baseOf T r.source) mem →
      (∀ i, Loads mem i → (phdr mem i).Sound fileSize) → ∀ n : Nat,
        (SameArgs (baseOf T r.source) r mem mem₁ n ↔
          KeepsArgs (baseOf T r.source) r mem n) := by
  refine ⟨fun h => ?_, passed_iff_same hcall hload hrun hanswer, ?_⟩
  · obtain ⟨len, b, junk', hexecv, hlen, -⟩ := hcall.block
    obtain ⟨hlaid, -, hmax⟩ := execvBlock_laid hcall.strings hexecv
    have hplace := hcall.place
    rw [PROC_STACK_RESERVERD] at hplace
    have hsame : SameArgs (baseOf T r.source) r mem mem₁ r.bufLen.toNat := by
      rcases h with hout | hsame
      · exact loadLoop_keeps (by omega) hout (fun _ _ => rfl) (fun _ _ => rfl)
          hload
      · exact hsame
    refine (passed_iff_same hcall hload hrun hanswer fun k hk =>
      hsame k ?_).mpr hsame
    have hle := hlaid.le
    omega
  · intro fileSize hsize hbase hap hsound n
    refine forall_congr' fun k => forall_congr' fun _ => ?_
    rw [argsRead_loaded hsize hbase hap hsound hload r k]

/-- So a program that `do_exec` loads elsewhere gets the arguments of `execv`. -/
theorem doExec_passes {fs : Files} (hcall : ∀ path size, fs.stat path = some size →
      Called (baseOf T r.source) argv r
        (store mem pmBuf size.toNat (fs.read path)))
    (hout : ∀ path size, fs.stat path = some size →
      LoadsElsewhere (baseOf T r.source) r
        (store mem pmBuf size.toNat (fs.read path)))
    (hrun : doExec fs T r junk mem = .ok (some image))
    (hanswer : AnswerElsewhere r msg) :
    Passed (baseOf T r.source) argv image
      (answered image (baseOf T r.source) msg reply) := by
  obtain ⟨path, size, hstat, -, hfile⟩ := doExec_eq_some hrun
  obtain ⟨mem₁, copies, _, _, _, hload, -⟩ := execFile_eq_ok.mp hfile
  have hcall := hcall path size hstat
  have hplace := hcall.place
  rw [PROC_STACK_RESERVERD] at hplace
  obtain ⟨len, b, junk', hexecv, hlen, -⟩ := hcall.block
  obtain ⟨hlaid, -, hmax⟩ := execvBlock_laid hcall.strings hexecv
  have hle := hlaid.le
  have hsame := loadLoop_keeps (by omega) (hout path size hstat) (fun _ _ => rfl)
    (fun _ _ => rfl) hload
  exact (passed_iff_same hcall hload hfile hanswer fun k hk =>
    hsame k (by omega)).mpr hsame

end Args

/-! ## A program with one argument -/

/-- Process 9 calls `execv` with its array right below the last KB. -/
def argsRequest : ExecRequest := ⟨9, 0, 0, 0xFF800, 10⟩

/-- The string "a". -/
def oneArg : List (List Byte) := [[0x61]]

theorem execv_oneArg : ∃ b, execvBlock 0xFF800 oneArg (fun _ => 0) =
    .ok (10, b) := ⟨_, rfl⟩

/-- The block of the caller in its memory. -/
def callerMem (b : Nat → Byte) : Mem :=
  store (fun _ => 0) (0xA00000 + 0xFF800) 10 b

theorem called_oneArg {b : Nat → Byte} {n : Nat} (h : Phdr)
    (hb : execvBlock 0xFF800 oneArg (fun _ => 0) = .ok (10, b))
    (hn : n ≤ 0x100000) : Called (baseOf forkedPm.table 9) oneArg argsRequest
      (elfMem (callerMem b) n h) := by
  rw [baseOf_forked.1]
  refine ⟨by decide, by decide, 10, b, _, hb, rfl, fun k hk => ?_⟩
  show readBlock (elfMem (callerMem b) n h) (0xA00000 + 0xFF800) k = b k
  rw [readBlock_add, readBlock_elf hn (by
    rw [show BitVec.toNat (0xFF800 : Addr) = 0xFF800 from rfl]
    omega), BitVec.ofNat_add, ← BitVec.add_assoc]
  exact readBlock_store (by decide) hk

/-- A program of 84 bytes at 4 KB leaves the block alone. -/
theorem exec_passes_args_one : ∃ (b : Nat → Byte) (image : Image),
    execvBlock 0xFF800 oneArg (fun _ => 0) = .ok (10, b) ∧
    execFile forkedPm.table argsRequest (fun _ => 0) []
      (elfMem (callerMem b) 84 bssHeader) = .ok image ∧
    Passed (baseOf forkedPm.table 9) oneArg image
      (answered image (baseOf forkedPm.table 9) 0xFF000 fun _ => 0) := by
  obtain ⟨b, hb⟩ := execv_oneArg
  have hcall := called_oneArg bssHeader hb (n := 84) (by decide)
  obtain ⟨hap, hrun⟩ := loadImage_elf (callerMem b) bssHeader (n := 84)
    (T := forkedPm.table) (p := 9) (by decide) (by decide) slotPlace rfl
    (Or.inr (by decide)) (by decide) notNative baseOf_forked.2
  obtain ⟨mem₁, copies, hload⟩ : ∃ mem₁ copies, loadImage forkedPm.table 9
      (elfMem (callerMem b) 84 bssHeader) = .ok (mem₁, copies) := ⟨_, _, hrun⟩
  have hout : LoadsElsewhere (baseOf forkedPm.table 9) argsRequest
      (elfMem (callerMem b) 84 bssHeader) := by
    refine ⟨hap, fun i hi => ?_, fun i x hi hx => Or.inl ?_⟩
    · rw [(loads_elf (by decide) (by decide) hi).2]
      exact Or.inr (by decide)
    · have hlast := hx.2
      rw [(loads_elf (by decide) (by decide) hi).2] at hlast
      exact Nat.lt_trans hlast (by decide)
  have hsame := loadLoop_keeps (by decide) hout (fun _ _ => rfl)
    (fun _ _ => rfl) hload
  obtain ⟨len, b', block, hlen, -, -, -, hmove, -⟩ :=
    args_relocate (fun _ => 0) hcall fun k hk => hsame k (by
      rw [oneArg, List.length_singleton] at hk
      exact Nat.lt_trans hk (by decide))
  obtain rfl : len = 10 := by
    have hten : (10 : Int) = len := hlen
    omega
  have hstack := setupStack_run (T := forkedPm.table) (r := argsRequest)
    (by decide) (by decide) notNative hmove
  obtain ⟨image, hrun⟩ : ∃ image, execFile forkedPm.table argsRequest
      (fun _ => 0) [] (elfMem (callerMem b) 84 bssHeader) = .ok image :=
    ⟨_, execFile_eq_ok.mpr ⟨_, _, _, _, _, hload, hstack, rfl⟩⟩
  exact ⟨b, image, hb, hrun, (exec_passes_args (T := forkedPm.table)
    (r := argsRequest) hcall hload hrun (by decide)).1 (Or.inl hout)⟩

/-- 2304 bytes of the file, laid over the caller's stack. -/
def highHeader : Phdr := ⟨PT_LOAD, 0, 0xFF000, 0x900, 0x900⟩

/-- A program that is loaded over the block gets no arguments. -/
theorem arguments_overwritten : ∃ (b : Nat → Byte) (image : Image),
    execvBlock 0xFF800 oneArg (fun _ => 0) = .ok (10, b) ∧
    Called (baseOf forkedPm.table 9) oneArg argsRequest
      (elfMem (callerMem b) 0x900 highHeader) ∧
    execFile forkedPm.table argsRequest (fun _ => 0) []
      (elfMem (callerMem b) 0x900 highHeader) = .ok image ∧
    ¬ Passed (baseOf forkedPm.table 9) oneArg image
      (answered image (baseOf forkedPm.table 9) 0xFF000 fun _ => 0) := by
  obtain ⟨b, hb⟩ := execv_oneArg
  obtain ⟨-, hload⟩ := loadImage_elf (callerMem b) highHeader (n := 0x900)
    (T := forkedPm.table) (p := 9) (by decide) (by decide) slotPlace rfl
    (Or.inr (by decide)) (by decide) notNative baseOf_forked.2
  obtain ⟨mem₁, hmem₁⟩ : ∃ mem₁, mem₁ =
    copyLoop (elfMem (callerMem b) 0x900 highHeader)
      (baseOf forkedPm.table 9 + highHeader.pVaddr) (pmBuf + highHeader.pOffset)
      highHeader.pFilesz.toNat := ⟨_, rfl⟩
  rw [← hmem₁] at hload
  -- where the first pointer was, the file has zeros
  have hzero : ∀ k < 4, readBlock mem₁
      (baseOf forkedPm.table 9 + argsRequest.buf) k = 0 := by
    intro k hk
    have hbuf : argsRequest.buf.toNat = 0xFF800 := rfl
    have hvaddr : highHeader.pVaddr.toNat = 0xFF000 := rfl
    have hfilesz : highHeader.pFilesz.toNat = 0x900 := rfl
    have hoff : highHeader.pOffset.toNat = 0 := rfl
    rw [readBlock_add, hmem₁, hbuf, readBlock_copied slotPlace (by decide)
      (by decide) (by omega), hvaddr, hfilesz, hoff, put_of_in (by omega),
      elfMem, readBlock_store (by decide) (by omega)]
    simp only [elfBytes]
    repeat rw [KosFs.putWord, put_of_out (by omega)]
  have hmove : relocate (stackPointer - argsRequest.buf) 256 0
      (put (fun _ => 0) 0 10 (readBlock mem₁
        (baseOf forkedPm.table 9 + argsRequest.buf))) =
      .ok (put (fun _ => 0) 0 10 (readBlock mem₁
        (baseOf forkedPm.table 9 + argsRequest.buf)), 0) := by
    have hnull : word (put (fun _ => 0) 0 10 (readBlock mem₁
        (baseOf forkedPm.table 9 + argsRequest.buf))) (4 * 0) = 0 := by
      rw [show (0 : BitVec 32) = word (fun _ => 0) 0 by decide]
      exact word_congr fun k hk => by
        rw [put_of_in (by omega)]
        exact hzero _ (by omega)
    rw [relocate, if_pos hnull]
    rfl
  have hstack := setupStack_run (T := forkedPm.table) (r := argsRequest)
    (by decide) (by decide) notNative hmove
  refine ⟨b, _, hb, called_oneArg highHeader hb (by decide),
    execFile_eq_ok.mpr ⟨_, _, _, _, _, hload, hstack, rfl⟩, fun h => ?_⟩
  have hargc : BitVec.ofNat 32 0 = BitVec.ofNat 32 oneArg.length := h.argc
  exact absurd hargc (by decide)

end KosExecArgs
