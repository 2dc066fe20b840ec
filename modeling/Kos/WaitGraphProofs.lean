import Mathlib.Logic.Relation
import Mathlib.Data.Finset.Card

/-! # Wait-for graphs with one outgoing edge per node

    Where every node waits for at most one other node, the graph is a partial
    function `next : α → Option α`.  `Leads next a b` is its transitive
    closure: the waits of `a` lead to `b`.

    * removing edges keeps a graph acyclic (`acyclic_of_sub`); adding the edge
      `s → r` does so when the waits of `r` do not lead to `s`
      (`acyclic_insert`);
    * `probe` is the unbounded search along the edges, with fuel: its answers
      are exact (`probe_true`, `probe_false`), and on an acyclic graph it
      answers as soon as the fuel exceeds the number of nodes it can visit
      (`probe_terminates`). -/

namespace WaitGraph

open Relation

variable {α : Type}

/-- One wait. -/
def Waits (next : α → Option α) (a b : α) : Prop := next a = some b

/-- The waits of `a` lead to `b`. -/
def Leads (next : α → Option α) : α → α → Prop := TransGen (Waits next)

/-- No node waits, directly or not, for itself. -/
def Acyclic (next : α → Option α) : Prop := ∀ a, ¬ Leads next a a

/-- A lead starts with the node's only edge. -/
theorem leads_step {next : α → Option α} {a b c : α} (hab : next a = some b)
    (h : Leads next a c) : b = c ∨ Leads next b c := by
  rcases TransGen.head'_iff.mp h with ⟨b', hb', hrest⟩
  obtain rfl : b = b' := Option.some.inj (hab.symm.trans hb')
  rcases Relation.reflTransGen_iff_eq_or_transGen.mp hrest with heq | ht
  · exact Or.inl heq.symm
  · exact Or.inr ht

/-- A node without an edge leads nowhere. -/
theorem not_leads_of_none {next : α → Option α} {a b : α}
    (ha : next a = none) : ¬ Leads next a b := by
  intro h
  obtain ⟨c, hc, -⟩ := TransGen.head'_iff.mp h
  cases ha.symm.trans hc

/-- Removing edges removes leads. -/
theorem leads_mono {next next' : α → Option α}
    (hsub : ∀ a b, next' a = some b → next a = some b) {a b : α}
    (h : Leads next' a b) : Leads next a b :=
  TransGen.mono (p := Waits next) hsub a b h

/-- Removing edges keeps a graph acyclic. -/
theorem acyclic_of_sub {next next' : α → Option α}
    (hsub : ∀ a b, next' a = some b → next a = some b)
    (h : Acyclic next) : Acyclic next' :=
  fun a ha => h a (leads_mono hsub ha)

/-- Leads of a graph with one more edge `s → r`: old leads, or old leads
    through `s` and on from `r`. -/
theorem leads_insert {next next' : α → Option α} {s r : α}
    (hs : next' s = some r) (hother : ∀ a, a ≠ s → next' a = next a)
    {a b : α} (h : Leads next' a b) :
    Leads next a b ∨
      ((a = s ∨ Leads next a s) ∧ (b = r ∨ Leads next r b)) := by
  induction h with
  | @single b hab =>
      by_cases ha : a = s
      · subst ha
        have hb : b = r := Option.some.inj (hab.symm.trans hs)
        exact Or.inr ⟨Or.inl rfl, Or.inl hb⟩
      · exact Or.inl (TransGen.single ((hother a ha).symm.trans hab))
  | @tail b c _ hbc ih =>
      by_cases hb : b = s
      · subst hb
        have hc : c = r := Option.some.inj (hbc.symm.trans hs)
        refine Or.inr ⟨?_, Or.inl hc⟩
        rcases ih with hold | ⟨hleft, -⟩
        · exact Or.inr hold
        · exact hleft
      · have hbc' : Waits next b c := (hother b hb).symm.trans hbc
        rcases ih with hold | ⟨hleft, hright⟩
        · exact Or.inl (TransGen.tail hold hbc')
        · refine Or.inr ⟨hleft, Or.inr ?_⟩
          rcases hright with rfl | hrb
          · exact TransGen.single hbc'
          · exact TransGen.tail hrb hbc'

/-- Adding an edge whose target does not lead back keeps a graph acyclic. -/
theorem acyclic_insert {next next' : α → Option α} {s r : α}
    (hs : next' s = some r) (hother : ∀ a, a ≠ s → next' a = next a)
    (hne : s ≠ r) (hback : ¬ Leads next r s) (h : Acyclic next) :
    Acyclic next' := by
  intro a ha
  rcases leads_insert hs hother ha with hold | ⟨hleft, hright⟩
  · exact h a hold
  · rcases hleft with rfl | hleft <;> rcases hright with hr | hright
    · exact hne hr
    · exact hback hright
    · subst hr
      exact hback hleft
    · exact hback (TransGen.trans hright hleft)

/-! ## Searching along the edges -/

variable [DecidableEq α]

/-- Follow the edges from `p` until one ends in `target` or there is none. -/
def probe (next : α → Option α) (target : α) : Nat → α → Option Bool
  | 0, _ => none
  | n + 1, p =>
      match next p with
      | none => some false
      | some q => if q = target then some true else probe next target n q

/-- More fuel does not change an answer. -/
theorem probe_mono {next : α → Option α} {target : α} {b : Bool} :
    ∀ {n m : Nat} {p : α}, n ≤ m → probe next target n p = some b →
      probe next target m p = some b := by
  intro n
  induction n with
  | zero => intro m p _ h; cases h
  | succ n ih =>
      intro m p hnm h
      obtain ⟨k, rfl⟩ : ∃ k, m = k + 1 := ⟨m - 1, by omega⟩
      cases hp : next p with
      | none => rw [probe, hp] at h ⊢; exact h
      | some q =>
          rw [probe, hp] at h ⊢
          by_cases hq : q = target
          · simpa only [hq, if_true] using h
          · simp only [hq, if_false] at h ⊢
            exact ih (by omega) h

/-- A positive answer is a lead. -/
theorem probe_true {next : α → Option α} {target : α} :
    ∀ {n : Nat} {p : α}, probe next target n p = some true →
      Leads next p target := by
  intro n
  induction n with
  | zero => intro p h; cases h
  | succ n ih =>
      intro p h
      cases hp : next p with
      | none => rw [probe, hp] at h; cases h
      | some q =>
          rw [probe, hp] at h
          by_cases hq : q = target
          · subst hq
            exact TransGen.single hp
          · simp only [hq, if_false] at h
            exact TransGen.head hp (ih h)

/-- A negative answer rules a lead out. -/
theorem probe_false {next : α → Option α} {target : α} :
    ∀ {n : Nat} {p : α}, probe next target n p = some false →
      ¬ Leads next p target := by
  intro n
  induction n with
  | zero => intro p h; cases h
  | succ n ih =>
      intro p h
      cases hp : next p with
      | none => exact not_leads_of_none hp
      | some q =>
          rw [probe, hp] at h
          by_cases hq : q = target
          · simp only [hq, if_true] at h
            cases h
          · simp only [hq, if_false] at h
            intro hl
            rcases leads_step hp hl with heq | hl'
            · exact hq heq
            · exact ih h hl'

/-- **TERMINATION**: on an acyclic graph the search answers once its fuel
    exceeds the number of nodes it can visit. -/
theorem probe_terminates {next : α → Option α} {target : α}
    (hac : Acyclic next) :
    ∀ {n : Nat} {p : α} {S : Finset α}, p ∈ S →
      (∀ q, Leads next p q → q ∈ S) → S.card ≤ n →
      ∃ b, probe next target n p = some b := by
  intro n
  induction n with
  | zero =>
      intro p S hp _ hcard
      have := Finset.card_pos.mpr ⟨p, hp⟩
      omega
  | succ n ih =>
      intro p S hp hclosed hcard
      cases hnext : next p with
      | none => exact ⟨false, by rw [probe, hnext]⟩
      | some q =>
          by_cases hq : q = target
          · exact ⟨true, by rw [probe, hnext]; simp [hq]⟩
          · -- the search never returns to `p`, so `p` can leave the pool
            have hpq : Leads next p q := TransGen.single hnext
            have hne : ∀ x, (q = x ∨ Leads next q x) → x ≠ p := by
              rintro x (rfl | hx) rfl
              · exact hac _ hpq
              · exact hac _ (TransGen.trans hpq hx)
            obtain ⟨b, hb⟩ := ih (p := q) (S := S.erase p)
              (Finset.mem_erase.mpr ⟨hne q (Or.inl rfl), hclosed q hpq⟩)
              (fun x hx => Finset.mem_erase.mpr
                ⟨hne x (Or.inr hx), hclosed x (TransGen.trans hpq hx)⟩)
              (by rw [Finset.card_erase_of_mem hp]; omega)
            exact ⟨b, by rw [probe, hnext]; simp only [hq, if_false]; exact hb⟩

end WaitGraph
