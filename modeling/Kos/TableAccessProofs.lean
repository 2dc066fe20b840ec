import Mathlib.Data.List.Basic

/-! # Programs on a table

    A program reads and writes the entries of a table `ι → σ`, one at a time,
    chooses the next entry by what it has read, and halts or returns.  `run` is
    what it does to the table, `trace` the entries that it touches, in order.

    * `run` and `trace` follow the structure of the program (`run_bind`,
      `within_bind`);
    * a program that stays within a set of entries does the same on all tables
      that agree on this set (`run_agree`). -/

namespace TableAccess

/-- A program that halts with an `ε` or returns an `α`. -/
inductive Prog (ι σ ε α : Type) where
  | ret (a : α)
  | halt (e : ε)
  | read (i : ι) (next : σ → Prog ι σ ε α)
  | write (i : ι) (f : σ → σ) (next : Prog ι σ ε α)

section Programs

variable {ι σ ε α β : Type}

/-- One program behind another. -/
def Prog.bind : Prog ι σ ε α → (α → Prog ι σ ε β) → Prog ι σ ε β
  | .ret a, k => k a
  | .halt e, _ => .halt e
  | .read i next, k => .read i fun x => (next x).bind k
  | .write i f next, k => .write i f (next.bind k)

instance : Monad (Prog ι σ ε) where
  pure := .ret
  bind := .bind

/-- Read one entry. -/
def entry (i : ι) : Prog ι σ ε σ := .read i .ret

/-- Change one entry. -/
def assign (i : ι) (f : σ → σ) : Prog ι σ ε Unit := .write i f (.ret ())

variable [DecidableEq ι]

/-- The table with one entry changed. -/
def change (T : ι → σ) (i : ι) (f : σ → σ) : ι → σ :=
  fun j => if j = i then f (T j) else T j

/-- What a program does to a table. -/
def run : Prog ι σ ε α → (ι → σ) → Except ε ((ι → σ) × α)
  | .ret a, T => .ok (T, a)
  | .halt e, _ => .error e
  | .read i next, T => run (next (T i)) T
  | .write i f next, T => run next (change T i f)

/-- The entries that a program touches. -/
def trace : Prog ι σ ε α → (ι → σ) → List ι
  | .ret _, _ => []
  | .halt _, _ => []
  | .read i next, T => i :: trace (next (T i)) T
  | .write i f next, T => i :: trace next (change T i f)

/-- All entries that the program touches are in `P`. -/
def Within (P : ι → Prop) (p : Prog ι σ ε α) (T : ι → σ) : Prop :=
  ∀ i ∈ trace p T, P i

/-! ## Composition -/

variable {P : ι → Prop} {p : Prog ι σ ε α} {k : α → Prog ι σ ε β} {T : ι → σ}

/-- A program that returns leaves the table. -/
@[simp] theorem run_pure (a : α) (T : ι → σ) :
    run (pure a : Prog ι σ ε α) T = .ok (T, a) := rfl

/-- A halted program has no outcome. -/
@[simp] theorem run_halt (e : ε) (T : ι → σ) :
    run (.halt e : Prog ι σ ε α) T = .error e := rfl

/-- A read goes on with the entry. -/
@[simp] theorem run_entry_bind (i : ι) (k : σ → Prog ι σ ε β) (T : ι → σ) :
    run (entry i >>= k) T = run (k (T i)) T := rfl

/-- A write goes on with the changed table. -/
@[simp] theorem run_assign_bind (i : ι) (f : σ → σ)
    (k : Unit → Prog ι σ ε β) (T : ι → σ) :
    run (assign i f >>= k) T = run (k ()) (change T i f) := rfl

/-- Programs one after the other. -/
theorem run_bind (p : Prog ι σ ε α) (k : α → Prog ι σ ε β) :
    ∀ T : ι → σ, run (p >>= k) T = run p T >>= fun r => run (k r.2) r.1 := by
  induction p with
  | ret a => exact fun _ => rfl
  | halt e => exact fun _ => rfl
  | read i next ih => exact fun T => ih (T i) T
  | write i f next ih => exact fun T => ih (change T i f)

/-- The trace of the first part is in the trace of the whole. -/
theorem within_left (p : Prog ι σ ε α) (k : α → Prog ι σ ε β) :
    ∀ T : ι → σ, Within P (p >>= k) T → Within P p T := by
  induction p with
  | ret a =>
      intro T _ i hi
      cases hi
  | halt e =>
      intro T _ i hi
      cases hi
  | read i next ih =>
      intro T h j hj
      rcases List.mem_cons.mp hj with rfl | hj
      · exact h j List.mem_cons_self
      · exact ih (T i) T (fun j hj => h j (List.mem_cons_of_mem i hj)) j hj
  | write i f next ih =>
      intro T h j hj
      rcases List.mem_cons.mp hj with rfl | hj
      · exact h j List.mem_cons_self
      · exact ih (change T i f)
          (fun j hj => h j (List.mem_cons_of_mem i hj)) j hj

/-- A program that returns accesses nothing. -/
@[simp] theorem within_pure (a : α) :
    Within P (pure a : Prog ι σ ε α) T := fun _ h => by cases h

/-- Nor does one that halts. -/
@[simp] theorem within_halt (e : ε) :
    Within P (.halt e : Prog ι σ ε α) T := fun _ h => by cases h

/-- A read accesses its entry first. -/
@[simp] theorem within_entry_bind {i : ι} {k : σ → Prog ι σ ε β} :
    Within P (entry i >>= k) T ↔ P i ∧ Within P (k (T i)) T :=
  List.forall_mem_cons

/-- A write accesses its entry first. -/
@[simp] theorem within_assign_bind {i : ι} {f : σ → σ}
    {k : Unit → Prog ι σ ε β} : Within P (assign i f >>= k) T ↔
      P i ∧ Within P (k ()) (change T i f) :=
  List.forall_mem_cons

/-- A read accesses its entry. -/
@[simp] theorem within_entry {i : ι} :
    Within P (entry i : Prog ι σ ε σ) T ↔ P i :=
  List.forall_mem_singleton

/-- A write accesses its entry. -/
@[simp] theorem within_assign {i : ι} {f : σ → σ} :
    Within P (assign i f : Prog ι σ ε Unit) T ↔ P i :=
  List.forall_mem_singleton

/-- **COMPOSITION**: the first part stays within `P`, and the second does from
    wherever the first ends. -/
theorem within_bind : ∀ {p : Prog ι σ ε α} {T : ι → σ}, Within P p T →
    (∀ T' a, run p T = .ok (T', a) → Within P (k a) T') →
    Within P (p >>= k) T := by
  intro p
  induction p with
  | ret a => exact fun _ h => h _ a rfl
  | halt e =>
      intro T _ _ i hi
      cases hi
  | read i next ih =>
      intro T hp h
      obtain ⟨hi, hnext⟩ := List.forall_mem_cons.mp hp
      exact List.forall_mem_cons.mpr ⟨hi, ih (T i) hnext h⟩
  | write i f next ih =>
      intro T hp h
      obtain ⟨hi, hnext⟩ := List.forall_mem_cons.mp hp
      exact List.forall_mem_cons.mpr ⟨hi, ih hnext h⟩

/-! ## Tables that agree -/

/-- The same outcome, as far as the entries in `P` go. -/
def SameOn (P : ι → Prop) :
    Except ε ((ι → σ) × α) → Except ε ((ι → σ) × α) → Prop
  | .ok (T, a), .ok (T', a') => a = a' ∧ ∀ i, P i → T i = T' i
  | .error e, .error e' => e = e'
  | _, _ => False

/-- Tables that agree on `P` agree on it after the same change. -/
theorem change_agree {T' : ι → σ} (h : ∀ i, P i → T' i = T i) (i : ι)
    (f : σ → σ) : ∀ j, P j → change T' i f j = change T i f j := by
  intro j hj
  rw [change, change, h j hj]

/-- **INDEPENDENCE**: a program that stays within `P` cannot tell tables apart
    that agree there. -/
theorem run_agree : ∀ {p : Prog ι σ ε α} {T T' : ι → σ}, Within P p T →
    (∀ i, P i → T' i = T i) → SameOn P (run p T') (run p T) := by
  intro p
  induction p with
  | ret a => exact fun _ h => ⟨rfl, h⟩
  | halt e => exact fun _ _ => rfl
  | read i next ih =>
      intro T T' hp h
      obtain ⟨hi, hnext⟩ := List.forall_mem_cons.mp hp
      rw [run, run, h i hi]
      exact ih (T i) hnext h
  | write i f next ih =>
      intro T T' hp h
      obtain ⟨-, hnext⟩ := List.forall_mem_cons.mp hp
      rw [run, run]
      exact ih hnext (change_agree h i f)

end Programs

end TableAccess
