import Mathlib.Data.Nat.Find
import Mathlib.Logic.Function.Iterate
import Kos.WhileLoopProofs

/-! # Timed waits

    `m_delay` and `wait_for_status`, which compare two readings of the clock
    in `int` arithmetic.

    * After `e` interrupts the clock that began at `t` shows
      `(t + e) % MAX_TICKS` (`shows_eq`);
    * the condition of the loops is one on that difference times 1000, in 32
      bits (`waiting_iff`);
    * a wait ends on time if and only if the clock is not reset before the end
      and the products fit (`on_time_iff`). -/

namespace KosTimedWait

open WhileLoop (Ends ends_counter_iff)

/-- Ticks a second. -/
def HZ : Nat := 100

/-- Where `sys_ticks` starts again. -/
def MAX_TICKS : Nat := 0x7FFFABCD

/-! ## The clock -/

/-- What `clock_handler` does to `sys_ticks`. -/
def clockHandler (sysTicks : BitVec 32) : BitVec 32 :=
  let sysTicks := sysTicks + 1
  if (BitVec.ofNat 32 MAX_TICKS).sle sysTicks then 0 else sysTicks

/-- The clock behind `e` interrupts. -/
def shows (t e : Nat) : BitVec 32 := clockHandler^[e] (BitVec.ofNat 32 t)

/-- The condition of the loops: `(get_ticks() - t) * 1000 / HZ < timeout`. -/
def waiting (timeout t getTicks : BitVec 32) : Prop :=
  (((getTicks - t) * 1000).sdiv (BitVec.ofNat 32 HZ)).slt timeout = true

instance (timeout t getTicks : BitVec 32) :
    Decidable (waiting timeout t getTicks) :=
  inferInstanceAs (Decidable (_ = true))

section Clock

variable {t e m T : Nat}

theorem max_ticks : MAX_TICKS = 2147462093 := rfl

theorem ofNat_toInt (h : m < 2147483648) :
    (BitVec.ofNat 32 m).toInt = m := by
  have hnat : (BitVec.ofNat 32 m).toNat = m := by
    rw [BitVec.toNat_ofNat]
    omega
  rw [BitVec.toInt_eq_toNat_of_lt (by omega), hnat]

/-- **ONE INTERRUPT**. -/
theorem clockHandler_eq (h : m < MAX_TICKS) :
    clockHandler (BitVec.ofNat 32 m) = BitVec.ofNat 32 ((m + 1) % MAX_TICKS) := by
  have hmax := max_ticks
  have hsucc : BitVec.ofNat 32 m + 1 = BitVec.ofNat 32 (m + 1) :=
    (BitVec.ofNat_add m 1).symm
  have hle : (BitVec.ofNat 32 MAX_TICKS).sle (BitVec.ofNat 32 (m + 1)) = true ↔
      MAX_TICKS ≤ m + 1 := by
    rw [BitVec.sle, decide_eq_true_iff, ofNat_toInt (by omega),
      ofNat_toInt (by omega)]
    omega
  rw [clockHandler, hsucc]
  by_cases hend : m + 1 = MAX_TICKS
  · rw [if_pos (hle.mpr (by omega)), hend, Nat.mod_self]
    rfl
  · rw [if_neg fun h' => hend (by have := hle.mp h'; omega),
      Nat.mod_eq_of_lt (by omega)]

/-- **THE CLOCK** behind `e` interrupts. -/
theorem shows_eq (ht : t < MAX_TICKS) :
    shows t e = BitVec.ofNat 32 ((t + e) % MAX_TICKS) := by
  induction e with
  | zero => rw [Nat.add_zero, Nat.mod_eq_of_lt ht]; rfl
  | succ e ih =>
      have hpos : 0 < MAX_TICKS := by decide
      rw [shows, Function.iterate_succ_apply', ← shows, ih,
        clockHandler_eq (Nat.mod_lt _ hpos), Nat.mod_add_mod, Nat.add_assoc]

/-- The value of the product. -/
def product (t e : Nat) : Int :=
  ((((t + e) % MAX_TICKS : Nat) - t : Int) * 1000).bmod 4294967296

/-- **THE CONDITION** in terms of the product. -/
theorem waiting_iff_tdiv (ht : t < MAX_TICKS) (hT : T < 2147483648) :
    waiting (BitVec.ofNat 32 T) (shows t 0) (shows t e) ↔
      (product t e).tdiv 100 < T := by
  have hmax := max_ticks
  have hmod : (t + e) % MAX_TICKS < MAX_TICKS := Nat.mod_lt _ (by omega)
  have hnow : (shows t e).toInt = ((t + e) % MAX_TICKS : Nat) := by
    rw [shows_eq ht, ofNat_toInt (by omega)]
  have ht0 : (shows t 0).toInt = t := ofNat_toInt (by omega)
  have hdiff : (shows t e - shows t 0).toInt =
      ((t + e) % MAX_TICKS : Nat) - (t : Int) := by
    rw [BitVec.toInt_sub, hnow, ht0]
    exact Int.bmod_eq_of_le_mul_two (by omega) (by omega)
  have hprod : ((shows t e - shows t 0) * 1000).toInt = product t e := by
    rw [BitVec.toInt_mul, hdiff, show BitVec.toInt (1000 : BitVec 32) = 1000
      from rfl]
    rfl
  have hdiv : (((shows t e - shows t 0) * 1000).sdiv
      (BitVec.ofNat 32 HZ)).toInt = (product t e).tdiv 100 := by
    rw [BitVec.toInt_sdiv_of_ne_or_ne _ _ (Or.inr (by decide)), hprod]
    rfl
  rw [waiting, BitVec.slt, decide_eq_true_iff, hdiv, ofNat_toInt hT]

theorem waiting_iff (ht : t < MAX_TICKS) (hpos : 0 < T) (hT : T < 2147483648) :
    waiting (BitVec.ofNat 32 T) (shows t 0) (shows t e) ↔
      product t e < 100 * T := by
  rw [waiting_iff_tdiv ht hT]
  rcases Int.lt_or_le (product t e) 0 with hneg | hnn
  · have hle : (product t e).tdiv 100 ≤ 0 := by
      rw [← Int.neg_neg (product t e), Int.neg_tdiv]
      have := Int.tdiv_nonneg (show 0 ≤ -product t e by omega)
        (show (0 : Int) ≤ 100 by omega)
      omega
    omega
  · rw [Int.tdiv_eq_ediv_of_nonneg hnn]
    omega

/-- Products that fit are the differences times 1000: until the clock is reset
    that of the ticks, from then on that of `MAX_TICKS` ticks less. -/
theorem product_eq (ht : t < MAX_TICKS) (he : e < MAX_TICKS) :
    product t e =
      (if t + e < MAX_TICKS then 1000 * e else 1000 * e + 21555000 : Int).bmod
        4294967296 := by
  have hmax := max_ticks
  rw [product]
  split
  · rename_i hlt
    rw [Nat.mod_eq_of_lt hlt]
    congr 1
    omega
  · rename_i hge
    have hmod : (t + e) % MAX_TICKS = t + e - MAX_TICKS := by
      rw [Nat.mod_eq_sub_mod (by omega), Nat.mod_eq_of_lt (by omega)]
    have hval : (((t + e) % MAX_TICKS : Nat) - t : Int) * 1000 =
        1000 * e + 21555000 - 4294967296 * 500 := by
      rw [hmod]
      omega
    rw [hval]
    exact Int.sub_mul_bmod_self_left _ 4294967296 500

end Clock

/-! ## The loops -/

/-- `m_delay`: `readings` are what its calls of `get_ticks` return, the first
    in front of the loop; it ends at the reading `i`. -/
def MDelay (milliSec : BitVec 32) (readings : Nat → BitVec 32) (i : Nat) :
    Prop :=
  Ends (fun i => waiting milliSec (readings 0) (readings i)) (fun i => i + 1) 1 i

/-- `wait_for_status` between two rounds. -/
structure Wait where
  poll : Nat
  ret  : Option Int

/-- `while (((get_ticks() - t) * 1000 / HZ) < timeout)` -/
def waitGuard (timeout : BitVec 32) (readings : Nat → BitVec 32) (w : Wait) :
    Prop :=
  w.ret = none ∧ waiting timeout (readings 0) (readings w.poll)

/-- A round; `status` is what `in_byte(REG_STATUS)` returns in it. -/
def waitRound (mask val : BitVec 32) (status : Nat → BitVec 32) (w : Wait) :
    Wait :=
  if status w.poll &&& mask = val then { w with ret := some 1 }
  else { w with poll := w.poll + 1 }

/-- `wait_for_status` returns `r` at the reading `i`. -/
def WaitForStatus (mask val timeout : BitVec 32) (readings status : Nat → BitVec 32)
    (i : Nat) (r : Int) : Prop :=
  ∃ ret, Ends (waitGuard timeout readings) (waitRound mask val status)
    ⟨1, none⟩ ⟨i, ret⟩ ∧ ret.getD 0 = r

/-- `wait_for_status` for a status that never comes is `m_delay`. -/
theorem waitForStatus_of_never {mask val timeout : BitVec 32}
    {readings status : Nat → BitVec 32} {i : Nat}
    (hnever : ∀ i, status i &&& mask ≠ val) (hdelay : MDelay timeout readings i) :
    WaitForStatus mask val timeout readings status i 0 := by
  have hrounds : ∀ a i : Nat, Ends (fun i => waiting timeout (readings 0) (readings i))
      (fun i => i + 1) a i →
        Ends (waitGuard timeout readings) (waitRound mask val status) ⟨a, none⟩
          ⟨i, none⟩ := by
    intro a i hends
    clear hdelay
    induction hends with
    | stop hnot => exact .stop fun hw => hnot hw.2
    | round hg _ ih =>
        refine .round ⟨rfl, hg⟩ ?_
        rw [waitRound, if_neg (hnever _)]
        exact ih
  exact ⟨none, hrounds 1 i hdelay, rfl⟩

/-! ## When the wait ends -/

/-- The ticks a wait of `timeout` milliseconds takes. -/
def dueTicks (timeout : Nat) : Nat := (timeout * HZ + 999) / 1000

/-- The number of interrupts in front of each reading: the loop reads the clock
    at every tick, and the clock goes on. -/
structure Polls (e : Nat → Nat) : Prop where
  start  : e 0 = 0
  next   : ∀ i, e i ≤ e (i + 1) ∧ e (i + 1) ≤ e i + 1
  goesOn : ∀ m, ∃ i, m ≤ e i

/-- The reading `i` is the first behind the start with `n` ticks elapsed. -/
def FirstAt (e : Nat → Nat) (n i : Nat) : Prop :=
  1 ≤ i ∧ n ≤ e i ∧ ∀ j, 1 ≤ j → j < i → e j < n

/-- Both waits end at the first reading with the ticks elapsed. -/
def OnTime (t timeout : Nat) : Prop :=
  ∀ e, Polls e → ∃ i, FirstAt e (dueTicks timeout) i ∧
    MDelay (BitVec.ofNat 32 timeout) (fun i => shows t (e i)) i ∧
    ∀ mask val status, (∀ i, status i &&& mask ≠ val) →
      WaitForStatus mask val (BitVec.ofNat 32 timeout)
        (fun i => shows t (e i)) status i 0

section Wait

variable {t T : Nat} {e : Nat → Nat}

theorem dueTicks_eq (T : Nat) : dueTicks T = (T + 9) / 10 := by
  rw [dueTicks, HZ]
  omega

/-- The first reading with `n` ticks elapsed shows just these. -/
theorem firstAt_eq {n i : Nat} (he : Polls e) (hn : 0 < n)
    (h : FirstAt e n i) : e i = n := by
  obtain ⟨hi, hle, hbefore⟩ := h
  obtain ⟨j, rfl⟩ := Nat.exists_eq_add_of_le' hi
  have hnext := (he.next j).2
  rcases Nat.eq_zero_or_pos j with rfl | hj
  · have hstart := he.start
    omega
  · have hlt := hbefore j hj (by omega)
    omega

theorem firstAt_exists (he : Polls e) (n : Nat) : ∃ i, FirstAt e n i := by
  have hex : ∃ i, 1 ≤ i ∧ n ≤ e i := by
    obtain ⟨i, hi⟩ := he.goesOn n
    exact ⟨i + 1, by omega, Nat.le_trans hi (he.next i).1⟩
  refine ⟨Nat.find hex, (Nat.find_spec hex).1, (Nat.find_spec hex).2,
    fun j h₁ h₂ => ?_⟩
  by_contra hge
  exact Nat.find_min hex h₂ ⟨h₁, by omega⟩

/-- The loop over a clock that is read. -/
theorem mDelay_iff (he : Polls e) {i : Nat} :
    MDelay (BitVec.ofNat 32 T) (fun i => shows t (e i)) i ↔
      1 ≤ i ∧ ¬ waiting (BitVec.ofNat 32 T) (shows t 0) (shows t (e i)) ∧
        ∀ j, 1 ≤ j → j < i →
          waiting (BitVec.ofNat 32 T) (shows t 0) (shows t (e j)) := by
  have h := @ends_counter_iff
    (fun i => waiting (BitVec.ofNat 32 T) (shows t (e 0)) (shows t (e i))) 1 i
  rw [he.start] at h
  rw [MDelay]
  simp only [he.start]
  exact h

theorem bmod_eq {x : Int} (h0 : 0 ≤ x) (h : x < 4294967296) :
    x.bmod 4294967296 =
      if x < 2147483648 then x else x - 4294967296 := by
  have hmod : x % ((4294967296 : Nat) : Int) = x := Int.emod_eq_of_lt h0 h
  rw [Int.bmod_def, hmod]
  rfl

theorem bmod_lt (x : Int) : x.bmod 4294967296 < 2147483648 :=
  Int.bmod_lt (by decide)

/-- What the products have to be for a wait that ends on time. -/
structure Right (t T : Nat) : Prop where
  before : ∀ e < dueTicks T, product t e < 100 * T
  due    : 100 * T ≤ product t (dueTicks T)

/-- No product is large enough for more than 2147484 ticks. -/
theorem dueTicks_le (h : 100 * T ≤ product t (dueTicks T)) :
    dueTicks T ≤ 2147484 := by
  have hlt := bmod_lt ((((t + dueTicks T) % MAX_TICKS : Nat) - t : Int) * 1000)
  rw [product] at h
  rw [dueTicks_eq]
  omega

/-- The products of a wait are right as long as they fit and the clock is not
    reset before the end. -/
theorem right_iff (ht : t < MAX_TICKS) (hpos : 0 < T) (hT : T < 2147483648) :
    Right t T ↔
      t + dueTicks T < MAX_TICKS ∧ 1000 * dueTicks T < 2147483648 ∨
        t + dueTicks T = MAX_TICKS ∧
          1000 * dueTicks T + 21555000 < 2147483648 := by
  have hmax := max_ticks
  obtain ⟨n, hn⟩ : ∃ n, n = dueTicks T := ⟨_, rfl⟩
  have hceil : 10 * n < T + 10 ∧ T ≤ 10 * n := by
    rw [hn, dueTicks_eq]
    omega
  constructor
  · rintro ⟨hbefore, hdue⟩
    have hle := dueTicks_le hdue
    have hprev := hbefore (dueTicks T - 1) (by omega)
    rw [← hn] at hdue hle hprev ⊢
    rw [product_eq ht (by omega), bmod_eq (by split <;> omega)
      (by split <;> omega)] at hdue hprev
    split at hdue <;> split at hdue <;> split at hprev <;> split at hprev <;>
      omega
  · intro h
    rw [← hn] at h
    have hfit : 1000 * n < 2147483648 := by omega
    refine ⟨fun e he => ?_, ?_⟩
    · rw [← hn] at he
      rw [product_eq ht (by omega), if_pos (by omega), bmod_eq (by omega)
        (by omega), if_pos (by omega)]
      omega
    · rw [← hn, product_eq ht (by omega)]
      rcases h with ⟨hlt, -⟩ | ⟨heq, hsum⟩
      · rw [if_pos hlt, bmod_eq (by omega) (by omega), if_pos (by omega)]
        omega
      · rw [if_neg (by omega), bmod_eq (by omega) (by omega),
          if_pos (by omega)]
        omega

/-- **RIGHT PRODUCTS** end the waits on time. -/
theorem onTime_of_right (ht : t < MAX_TICKS) (hpos : 0 < T)
    (hT : T < 2147483648) (h : Right t T) : OnTime t T := by
  have hdue : 0 < dueTicks T := by
    rw [dueTicks_eq]
    omega
  intro e he
  obtain ⟨i, hi⟩ := firstAt_exists he (dueTicks T)
  have hdelay : MDelay (BitVec.ofNat 32 T) (fun i => shows t (e i)) i := by
    refine (mDelay_iff he).mpr ⟨hi.1, fun hw => ?_, fun j h₁ h₂ => ?_⟩
    · have hlt := (waiting_iff ht hpos hT).mp hw
      rw [firstAt_eq he hdue hi] at hlt
      exact absurd h.due (Int.not_le.mpr hlt)
    · exact (waiting_iff ht hpos hT).mpr (h.before _ (hi.2.2 j h₁ h₂))
  exact ⟨i, hi, hdelay,
    fun _ _ _ hnever => waitForStatus_of_never hnever hdelay⟩

/-- **A WAIT ON TIME** of a clock that is read once in every tick has right
    products. -/
theorem right_of_onTime (ht : t < MAX_TICKS) (hpos : 0 < T)
    (hT : T < 2147483648) (h : OnTime t T) : Right t T := by
  have hdue : 0 < dueTicks T := by
    rw [dueTicks_eq]
    omega
  have hpolls : Polls fun i => i :=
    ⟨rfl, fun i => ⟨Nat.le_succ i, Nat.le_refl _⟩, fun m => ⟨m, Nat.le_refl m⟩⟩
  obtain ⟨i, hi, hdelay, -⟩ := h _ hpolls
  obtain rfl : i = dueTicks T := firstAt_eq hpolls hdue hi
  obtain ⟨-, hnot, hall⟩ := (mDelay_iff hpolls).mp hdelay
  refine ⟨fun e hlt => ?_, ?_⟩
  · rcases Nat.eq_zero_or_pos e with rfl | hpos'
    · have h0 : product t 0 = 0 := by
        rw [product_eq ht (Nat.zero_lt_of_lt ht), Nat.add_zero, if_pos ht]
        rfl
      rw [h0]
      omega
    · exact (waiting_iff ht hpos hT).mp (hall e hpos' hlt)
  · exact Int.not_lt.mp fun hlt => hnot ((waiting_iff ht hpos hT).mpr hlt)

/-- A wait for nothing ends at once. -/
theorem onTime_zero (ht : t < MAX_TICKS) : OnTime t 0 := by
  intro e he
  have hfirst : FirstAt e (dueTicks 0) 1 :=
    ⟨Nat.le_refl 1, Nat.zero_le _, fun j h₁ h₂ => absurd h₂ (Nat.not_lt.mpr h₁)⟩
  have hmax := max_ticks
  have hsmall : e 1 ≤ 1 := by
    have hnext : e 1 ≤ e 0 + 1 := (he.next 0).2
    have hstart := he.start
    omega
  have hnn : 0 ≤ product t (e 1) := by
    rw [product_eq ht (by omega), bmod_eq (by split <;> omega)
      (by split <;> omega)]
    split <;> split <;> omega
  have hdelay : MDelay (BitVec.ofNat 32 0) (fun i => shows t (e i)) 1 := by
    refine (mDelay_iff he).mpr ⟨Nat.le_refl 1, fun hw => ?_,
      fun j h₁ h₂ => absurd h₂ (Nat.not_lt.mpr h₁)⟩
    have hlt := (waiting_iff_tdiv ht (by omega)).mp hw
    exact absurd (Int.tdiv_nonneg hnn (by decide)) (Int.not_le.mpr hlt)
  exact ⟨1, hfirst, hdelay,
    fun _ _ _ hnever => waitForStatus_of_never hnever hdelay⟩

/-- **TIMED WAITS** end on time where they are for nothing, or end in front of
    the reset of the clock with products that fit, or end at the reset with
    products that fit with what the reset adds. -/
theorem on_time_iff (ht : t < MAX_TICKS) (hT : T < 2147483648) :
    OnTime t T ↔ T = 0 ∨
      t + dueTicks T < MAX_TICKS ∧ 1000 * dueTicks T < 2147483648 ∨
      t + dueTicks T = MAX_TICKS ∧
        1000 * dueTicks T + 21555000 < 2147483648 := by
  rcases Nat.eq_zero_or_pos T with rfl | hpos
  · exact iff_of_true (onTime_zero ht) (Or.inl rfl)
  · rw [← right_iff ht hpos hT]
    constructor
    · intro h
      exact Or.inr (right_of_onTime ht hpos hT h)
    · rintro (h0 | h)
      · omega
      · exact onTime_of_right ht hpos hT h

end Wait

/-- The timeout of the driver, on the first clock. -/
theorem on_time_iff_driver : OnTime 0 10000 :=
  (on_time_iff (by decide) (by decide)).mpr (Or.inr (Or.inl (by decide)))

/-- A wait across the reset ends at the reset. -/
theorem early_at_reset : ¬ ∀ t T : Nat, t < MAX_TICKS → T < 2147483648 →
    OnTime t T := by
  intro hall
  have h := hall 2147462092 10000 (by decide) (by decide)
  rw [on_time_iff (by decide) (by decide)] at h
  exact absurd h (by decide)

end KosTimedWait
