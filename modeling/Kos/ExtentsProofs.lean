import Mathlib.Data.Finset.Basic

/-! # Owners of the cells of a map

    Each of a finite set of owners has cells of its own, and a map says of
    every cell whether it is in use: by one of the owners, or because it is
    reserved.

    * `Mapped` is that the map says so exactly, and that no cell has two
      owners;
    * a new owner takes cells that were not in use (`mapped_insert`), and one
      that goes gives its cells up (`mapped_erase`). -/

namespace Extents

variable {ι : Type} [DecidableEq ι]

/-- The cells in use are those that are reserved and those of the owners, and
    each is one of these only. -/
structure Mapped (reserved : Nat → Prop) (live : Finset ι)
    (owns : ι → Nat → Prop) (used : Nat → Bool) : Prop where
  one_owner : ∀ i ∈ live, ∀ j ∈ live, ∀ y, owns i y → owns j y → i = j
  unreserved : ∀ i ∈ live, ∀ y, owns i y → ¬ reserved y
  used_iff : ∀ y, used y = true ↔ reserved y ∨ ∃ i ∈ live, owns i y

variable {reserved : Nat → Prop} {live : Finset ι} {owns owns' : ι → Nat → Prop}
  {used used' : Nat → Bool} {i : ι}

omit [DecidableEq ι] in
/-- The cells of an owner are in use. -/
theorem used_of_owns (h : Mapped reserved live owns used) (hi : i ∈ live)
    {y : Nat} (hy : owns i y) : used y = true :=
  (h.used_iff y).mpr (Or.inr ⟨i, hi, hy⟩)

omit [DecidableEq ι] in
/-- Only what the owners own matters. -/
theorem mapped_congr (h : Mapped reserved live owns used)
    (hsame : ∀ j ∈ live, ∀ y, owns' j y ↔ owns j y) :
    Mapped reserved live owns' used := by
  refine ⟨fun i hi j hj y h₁ h₂ => ?_, fun i hi y h₁ => ?_, fun y => ?_⟩
  · exact h.one_owner i hi j hj y ((hsame i hi y).mp h₁) ((hsame j hj y).mp h₂)
  · exact h.unreserved i hi y ((hsame i hi y).mp h₁)
  · rw [h.used_iff]
    exact or_congr_right (exists_congr fun i =>
      and_congr_right fun hi => (hsame i hi y).symm)

/-- **A NEW OWNER** of cells that were not in use. -/
theorem mapped_insert (h : Mapped reserved live owns used) (hi : i ∉ live)
    (hsame : ∀ j ∈ live, ∀ y, owns' j y ↔ owns j y)
    (hclear : ∀ y, owns' i y → used y = false)
    (hused : ∀ y, used' y = true ↔ used y = true ∨ owns' i y) :
    Mapped reserved (insert i live) owns' used' := by
  have hfree : ∀ y, owns' i y → ¬ (reserved y ∨ ∃ j ∈ live, owns j y) := by
    intro y hy hin
    have hset := (h.used_iff y).mpr hin
    rw [hclear y hy] at hset
    cases hset
  refine ⟨fun j hj k hk y h₁ h₂ => ?_, fun j hj y h₁ hr => ?_, fun y => ?_⟩
  · rcases Finset.mem_insert.mp hj with rfl | hj'
    · rcases Finset.mem_insert.mp hk with rfl | hk'
      · rfl
      · exact absurd (Or.inr ⟨k, hk', (hsame k hk' y).mp h₂⟩) (hfree y h₁)
    · rcases Finset.mem_insert.mp hk with rfl | hk'
      · exact absurd (Or.inr ⟨j, hj', (hsame j hj' y).mp h₁⟩) (hfree y h₂)
      · exact h.one_owner j hj' k hk' y ((hsame j hj' y).mp h₁)
          ((hsame k hk' y).mp h₂)
  · rcases Finset.mem_insert.mp hj with rfl | hj'
    · exact hfree y h₁ (Or.inl hr)
    · exact h.unreserved j hj' y ((hsame j hj' y).mp h₁) hr
  · rw [hused, h.used_iff]
    constructor
    · rintro ((hr | ⟨j, hj, hy⟩) | hy)
      · exact Or.inl hr
      · exact Or.inr ⟨j, Finset.mem_insert_of_mem hj, (hsame j hj y).mpr hy⟩
      · exact Or.inr ⟨i, Finset.mem_insert_self i live, hy⟩
    · rintro (hr | ⟨j, hj, hy⟩)
      · exact Or.inl (Or.inl hr)
      · rcases Finset.mem_insert.mp hj with rfl | hj'
        · exact Or.inr hy
        · exact Or.inl (Or.inr ⟨j, hj', (hsame j hj' y).mp hy⟩)

/-- **AN OWNER GOES**, and its cells are not in use any more. -/
theorem mapped_erase (h : Mapped reserved live owns used) (hi : i ∈ live)
    (hsame : ∀ j ∈ live, j ≠ i → ∀ y, owns' j y ↔ owns j y)
    (hused : ∀ y, used' y = true ↔ used y = true ∧ ¬ owns i y) :
    Mapped reserved (live.erase i) owns' used' := by
  refine ⟨fun j hj k hk y h₁ h₂ => ?_, fun j hj y h₁ => ?_, fun y => ?_⟩
  · obtain ⟨hne, hj⟩ := Finset.mem_erase.mp hj
    obtain ⟨hne', hk⟩ := Finset.mem_erase.mp hk
    exact h.one_owner j hj k hk y ((hsame j hj hne y).mp h₁)
      ((hsame k hk hne' y).mp h₂)
  · obtain ⟨hne, hj⟩ := Finset.mem_erase.mp hj
    exact h.unreserved j hj y ((hsame j hj hne y).mp h₁)
  · rw [hused, h.used_iff]
    constructor
    · rintro ⟨hr | ⟨j, hj, hy⟩, hno⟩
      · exact Or.inl hr
      · have hne : j ≠ i := fun heq => hno (heq ▸ hy)
        exact Or.inr ⟨j, Finset.mem_erase.mpr ⟨hne, hj⟩,
          (hsame j hj hne y).mpr hy⟩
    · rintro (hr | ⟨j, hj, hy⟩)
      · exact ⟨Or.inl hr, fun hown => h.unreserved i hi y hown hr⟩
      · obtain ⟨hne, hj⟩ := Finset.mem_erase.mp hj
        have hy' := (hsame j hj hne y).mp hy
        exact ⟨Or.inr ⟨j, hj, hy'⟩,
          fun hown => hne (h.one_owner j hj i hi y hy' hown)⟩

end Extents
