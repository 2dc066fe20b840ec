import Mathlib.Logic.Function.Basic

/-! # Rings

    An array of `n` cells as a queue: a place to write, a place to read and the
    number of cells in between, both places going back to the first cell behind
    the last one.

    * `Holds` says that a ring holds the elements of a list in order;
    * an empty ring holds nothing (`holds_empty`), what is put goes to the end
      of the list (`holds_put`), and what is taken is its first element
      (`holds_get`). -/

namespace RingBuffer

variable {α : Type} {n : Nat}

/-- Cells with two places in them and a count. -/
structure Buffer (α : Type) where
  cell : Nat → α
  head : Nat
  tail : Nat
  count : Nat

/-- The cell behind another. -/
def next (n i : Nat) : Nat := if i + 1 = n then 0 else i + 1

/-- A value at the head. -/
def put (n : Nat) (r : Buffer α) (x : α) : Buffer α where
  cell := Function.update r.cell r.head x
  head := next n r.head
  tail := r.tail
  count := r.count + 1

/-- The value at the tail. -/
def get (n : Nat) (r : Buffer α) : α × Buffer α :=
  (r.cell r.tail, { r with tail := next n r.tail, count := r.count - 1 })

/-- The ring holds the elements of the list, from `tail` on. -/
structure Holds (n : Nat) (r : Buffer α) (l : List α) : Prop where
  tail_lt : r.tail < n
  head_eq : r.head = (r.tail + r.count) % n
  count_eq : r.count = l.length
  count_le : r.count ≤ n
  cells : ∀ j (h : j < l.length), r.cell ((r.tail + j) % n) = l[j]

theorem next_eq {i : Nat} (h : i < n) : next n i = (i + 1) % n := by
  rw [next]
  split
  · rename_i heq
    rw [heq, Nat.mod_self]
  · rw [Nat.mod_eq_of_lt (by omega)]

theorem next_lt {i : Nat} (h : i < n) : next n i < n := by
  rw [next_eq h]
  exact Nat.mod_lt _ (by omega)

section Rules

variable {r : Buffer α} {l : List α} {x : α}

theorem Holds.head_lt (h : Holds n r l) : r.head < n := by
  rw [h.head_eq]
  exact Nat.mod_lt _ (Nat.lt_of_le_of_lt (Nat.zero_le _) h.tail_lt)

theorem holds_empty (htail : r.tail < n) (hhead : r.head = r.tail)
    (hcount : r.count = 0) : Holds n r [] where
  tail_lt := htail
  head_eq := by rw [hhead, hcount, Nat.add_zero, Nat.mod_eq_of_lt htail]
  count_eq := hcount
  count_le := by omega
  cells := fun _ hj => absurd hj (Nat.not_lt_zero _)

/-- A place that is less than two rounds away. -/
theorem wrap {i : Nat} (h : i < n + n) :
    i % n = if i < n then i else i - n := by
  split
  · rename_i hlt
    exact Nat.mod_eq_of_lt hlt
  · rename_i hge
    rw [Nat.mod_eq_sub_mod (by omega), Nat.mod_eq_of_lt (by omega)]

/-- Two places of a ring are the same only if they are at the same distance. -/
theorem place_inj {t i j : Nat} (ht : t < n) (hi : i < n) (hj : j < n)
    (h : (t + i) % n = (t + j) % n) : i = j := by
  rw [wrap (by omega), wrap (by omega)] at h
  split at h <;> split at h <;> omega

/-- **PUT**: the element is the last one. -/
theorem holds_put (h : Holds n r l) (hlt : r.count < n) (x : α) :
    Holds n (put n r x) (l ++ [x]) where
  tail_lt := h.tail_lt
  head_eq := by
    show next n r.head = (r.tail + (r.count + 1)) % n
    rw [next_eq h.head_lt, h.head_eq, Nat.mod_add_mod, Nat.add_assoc]
  count_eq := by
    show r.count + 1 = _
    rw [List.length_append, List.length_singleton, h.count_eq]
  count_le := hlt
  cells := by
    intro j hj
    rw [List.length_append, List.length_singleton] at hj
    show Function.update r.cell r.head x ((r.tail + j) % n) = _
    have hcount := h.count_eq
    by_cases hlast : j = l.length
    · subst hlast
      have hhead : (r.tail + l.length) % n = r.head := by
        rw [h.head_eq, hcount]
      rw [hhead, Function.update_self]
      simp
    · have hother : (r.tail + j) % n ≠ r.head := by
        rw [h.head_eq]
        intro heq
        have hsame := place_inj h.tail_lt (by omega) hlt heq
        omega
      have hin : j < l.length := by omega
      rw [Function.update_of_ne hother, h.cells j hin,
        List.getElem_append_left hin]

/-- **GET**: the first element. -/
theorem holds_get (h : Holds n r (x :: l)) :
    (get n r).1 = x ∧ Holds n (get n r).2 l := by
  have hcount := h.count_eq
  rw [List.length_cons] at hcount
  constructor
  · have hfirst := h.cells 0 (by rw [List.length_cons]; omega)
    rwa [Nat.add_zero, Nat.mod_eq_of_lt h.tail_lt] at hfirst
  · refine ⟨next_lt h.tail_lt, ?_, ?_, ?_, fun j hj => ?_⟩
    · show r.head = (next n r.tail + (r.count - 1)) % n
      rw [next_eq h.tail_lt, Nat.mod_add_mod, h.head_eq]
      congr 1
      omega
    · show r.count - 1 = _
      omega
    · have hle := h.count_le
      show r.count - 1 ≤ n
      omega
    · have hcell := h.cells (j + 1) (by rw [List.length_cons]; omega)
      show r.cell ((next n r.tail + j) % n) = _
      rw [next_eq h.tail_lt, Nat.mod_add_mod, Nat.add_assoc, Nat.add_comm 1 j,
        hcell]
      rfl

end Rules

end RingBuffer
