import Mathlib.Logic.Function.Basic

/-! # A stack that grows down

    Cells of four bytes, in a memory that is a function of the address.

    * `pushAll` pushes the cells of a list, and `Holds` is that a list is in the
      memory from an address on upwards;
    * what was pushed is held, the last cell first (`holds_pushAll`), and the
      memory outside is as it was (`pushAll_out`). -/

namespace DescendingStack

variable {α : Type} {mem mem' : Nat → α} {a sp x : Nat} {w : α} {vs ws : List α}

/-- The cells of a list, one push after the other. -/
def pushAll (mem : Nat → α) (sp : Nat) : List α → Nat → α
  | [] => mem
  | w :: ws => pushAll (Function.update mem (sp - 4) w) (sp - 4) ws

/-- The list is in the memory from an address on. -/
def Holds (mem : Nat → α) : Nat → List α → Prop
  | _, [] => True
  | a, w :: ws => mem a = w ∧ Holds mem (a + 4) ws

/-- Only the cells below the stack pointer change. -/
theorem pushAll_out (hsp : 4 * ws.length ≤ sp)
    (h : x < sp - 4 * ws.length ∨ sp ≤ x) : pushAll mem sp ws x = mem x := by
  induction ws generalizing mem sp with
  | nil => rfl
  | cons w ws ih =>
      rw [List.length_cons] at hsp h
      rw [pushAll, ih (by omega) (by omega), Function.update_of_ne (by omega)]

theorem holds_append : Holds mem a (ws ++ vs) ↔
    Holds mem a ws ∧ Holds mem (a + 4 * ws.length) vs := by
  induction ws generalizing a with
  | nil =>
      rw [List.nil_append, List.length_nil, Nat.mul_zero, Nat.add_zero]
      exact (and_iff_right trivial).symm
  | cons w ws ih =>
      have hnext : a + 4 * (w :: ws).length = a + 4 + 4 * ws.length := by
        rw [List.length_cons]
        omega
      rw [List.cons_append, Holds, Holds, ih, hnext, and_assoc]

/-- A list is held as long as its own cells stay. -/
theorem holds_congr (h : ∀ x, a ≤ x → x < a + 4 * ws.length → mem' x = mem x)
    (hw : Holds mem a ws) : Holds mem' a ws := by
  induction ws generalizing a with
  | nil => trivial
  | cons w ws ih =>
      rw [List.length_cons] at h
      obtain ⟨hw, hws⟩ := hw
      exact ⟨(h a (Nat.le_refl a) (by omega)).trans hw,
        ih (fun x h₁ h₂ => h x (by omega) (by omega)) hws⟩

/-- **WHAT WAS PUSHED** is held, the last cell first. -/
theorem holds_pushAll (hsp : 4 * ws.length ≤ sp) :
    Holds (pushAll mem sp ws) (sp - 4 * ws.length) ws.reverse := by
  induction ws generalizing mem sp with
  | nil => trivial
  | cons w ws ih =>
      rw [List.length_cons] at hsp ⊢
      have hbase : sp - 4 * (ws.length + 1) = sp - 4 - 4 * ws.length := by omega
      have htop : sp - 4 - 4 * ws.length + 4 * ws.reverse.length = sp - 4 := by
        rw [List.length_reverse]
        omega
      rw [List.reverse_cons, hbase, holds_append, htop, pushAll]
      refine ⟨ih (by omega), ?_, trivial⟩
      rw [pushAll_out (by omega) (by omega), Function.update_self]

/-- One push after the other. -/
theorem pushAll_append :
    pushAll mem sp (ws ++ vs) = pushAll (pushAll mem sp ws) (sp - 4 * ws.length) vs := by
  induction ws generalizing mem sp with
  | nil => rfl
  | cons w ws ih =>
      have hsp : sp - 4 * (w :: ws).length = sp - 4 - 4 * ws.length := by
        rw [List.length_cons]
        omega
      rw [List.cons_append, pushAll, ih, hsp, pushAll]

end DescendingStack
