import Mathlib.Data.List.Nodup
import Mathlib.Data.List.Basic

/-! # Pointer-linked chains

    A store of cells, each holding at most one link, is a partial function
    `next : α → Option α`.  `Links next p l` says that following `next` from the
    pointer `p` visits exactly the cells of `l`, in order, and then ends.

    * a chain that ends is duplicate-free (`links_nodup`): a repetition would
      make the rest of the chain its own proper suffix;
    * chains are determined by their start (`links_unique`) and only read the
      cells they visit (`links_congr`);
    * appending behind the last cell and unlinking a head or an inner cell are
      the three surgeries (`links_append`, `links_unlink_head`,
      `links_unlink_inner`);
    * `lastOf` is the bounded walk to the last cell of a chain
      (`links_of_lastOf`);
    * where no two cells have the same link, two chains that meet run one into
      the other's start (`links_meet`). -/

namespace LinkChain

variable {α : Type}

/-- Following `next` from `p` visits exactly `l`, then ends. -/
def Links (next : α → Option α) : Option α → List α → Prop
  | p, [] => p = none
  | p, a :: l => p = some a ∧ Links next (next a) l

@[simp] theorem links_nil {next : α → Option α} {p : Option α} :
    Links next p [] ↔ p = none := Iff.rfl

@[simp] theorem links_cons {next : α → Option α} {p : Option α} {a : α}
    {l : List α} :
    Links next p (a :: l) ↔ p = some a ∧ Links next (next a) l := Iff.rfl

/-- A chain from the null pointer is empty. -/
theorem links_none {next : α → Option α} {l : List α}
    (h : Links next none l) : l = [] := by
  cases l with
  | nil => rfl
  | cons a l => cases h.1

/-- A chain from a cell starts with that cell. -/
theorem links_some {next : α → Option α} {a : α} {l : List α}
    (h : Links next (some a) l) :
    ∃ l', l = a :: l' ∧ Links next (next a) l' := by
  cases l with
  | nil => cases h
  | cons b l' =>
      obtain ⟨hab, hl⟩ := h
      obtain rfl : a = b := Option.some.inj hab
      exact ⟨l', rfl, hl⟩

/-- The chain from a pointer is unique. -/
theorem links_unique {next : α → Option α} :
    ∀ {l l' : List α} {p : Option α},
      Links next p l → Links next p l' → l = l' := by
  intro l
  induction l with
  | nil =>
      intro l' p h h'
      rw [links_nil] at h
      subst h
      exact (links_none h').symm
  | cons a l ih =>
      intro l' p h h'
      obtain ⟨rfl, hl⟩ := h
      obtain ⟨l'', rfl, hl''⟩ := links_some h'
      rw [ih hl hl'']

/-- A chain only reads the cells it visits. -/
theorem links_congr {next next' : α → Option α} :
    ∀ {l : List α} {p : Option α}, (∀ a ∈ l, next' a = next a) →
      Links next p l → Links next' p l := by
  intro l
  induction l with
  | nil => intro p _ h; exact h
  | cons a l ih =>
      intro p hag h
      refine ⟨h.1, ?_⟩
      rw [hag a (by simp)]
      exact ih (fun b hb => hag b (by simp [hb])) h.2

/-- The rest of a chain behind one of its cells is the chain from that
    cell's link. -/
theorem links_suffix {next : α → Option α} :
    ∀ {l₁ l₂ : List α} {a : α} {p : Option α},
      Links next p (l₁ ++ a :: l₂) → Links next (next a) l₂ := by
  intro l₁
  induction l₁ with
  | nil => intro l₂ a p h; exact h.2
  | cons b l₁ ih => intro l₂ a p h; exact ih h.2

/-- A chain that ends visits no cell twice. -/
theorem links_nodup {next : α → Option α} :
    ∀ {l : List α} {p : Option α}, Links next p l → l.Nodup := by
  intro l
  induction l with
  | nil => intro p _; exact List.nodup_nil
  | cons a l ih =>
      intro p h
      refine List.nodup_cons.mpr ⟨?_, ih h.2⟩
      intro hmem
      obtain ⟨l₁, l₂, rfl⟩ := List.append_of_mem hmem
      -- both occurrences continue with the same rest, which is too short
      have hrest : Links next (next a) l₂ := links_suffix h.2
      have heq := links_unique h.2 hrest
      have hlen := congrArg List.length heq
      simp only [List.length_append, List.length_cons] at hlen
      omega

/-! ## Surgery -/

/-- Link a fresh cell behind the last one. -/
theorem links_append {next next' : α → Option α} {l : List α} {t s : α}
    {p : Option α} (h : Links next p (l ++ [t]))
    (hag : ∀ a ∈ l, next' a = next a)
    (ht : next' t = some s) (hs : next' s = none) :
    Links next' p (l ++ [t, s]) := by
  induction l generalizing p with
  | nil => exact ⟨h.1, ht, hs⟩
  | cons b l ih =>
      refine ⟨h.1, ?_⟩
      rw [hag b (by simp)]
      exact ih h.2 (fun a ha => hag a (by simp [ha]))

/-- Unlink the first cell. -/
theorem links_unlink_head {next next' : α → Option α} {l : List α} {s : α}
    {p : Option α} (h : Links next p (s :: l))
    (hag : ∀ a ∈ l, next' a = next a) : Links next' (next s) l :=
  links_congr hag h.2

/-- Unlink an inner cell by redirecting its predecessor. -/
theorem links_unlink_inner {next next' : α → Option α} {l₁ l₂ : List α}
    {x s : α} {p : Option α} (h : Links next p (l₁ ++ x :: s :: l₂))
    (hag : ∀ a ∈ l₁ ++ l₂, next' a = next a) (hx : next' x = next s) :
    Links next' p (l₁ ++ x :: l₂) := by
  induction l₁ generalizing p with
  | nil =>
      refine ⟨h.1, ?_⟩
      rw [hx]
      exact links_congr (fun a ha => hag a (by simpa using ha)) h.2.2
  | cons b l₁ ih =>
      refine ⟨h.1, ?_⟩
      rw [hag b (by simp)]
      exact ih h.2 (fun a ha => hag a (by
        rcases List.mem_append.mp ha with h1 | h2 <;> simp [*]))

/-! ## The bounded walk to the last cell -/

/-- Walk from `p` to the last cell of its chain in at most `fuel` cells. -/
def lastOf (next : α → Option α) : Nat → α → Option α
  | 0, _ => none
  | n + 1, p =>
      match next p with
      | none => some p
      | some p' => lastOf next n p'

/-- A walk that ends has visited a chain ending in its result. -/
theorem links_of_lastOf {next : α → Option α} :
    ∀ {n : Nat} {p t : α}, lastOf next n p = some t →
      ∃ l, Links next (some p) (l ++ [t]) := by
  intro n
  induction n with
  | zero => intro p t h; cases h
  | succ n ih =>
      intro p t h
      cases hp : next p with
      | none =>
          rw [lastOf, hp] at h
          obtain rfl : p = t := Option.some.inj h
          exact ⟨[], rfl, hp⟩
      | some p' =>
          rw [lastOf, hp] at h
          obtain ⟨l, hl⟩ := ih h
          exact ⟨p :: l, rfl, by rw [hp]; exact hl⟩

/-! ## Chains that meet -/

/-- A cell of a chain is its start or the link of an earlier cell. -/
theorem links_pred {next : α → Option α} :
    ∀ {l : List α} {p : Option α} {x : α}, Links next p l → x ∈ l →
      p = some x ∨ ∃ y ∈ l, next y = some x := by
  intro l
  induction l with
  | nil => intro p x _ hx; cases hx
  | cons a l ih =>
      intro p x h hx
      rcases List.mem_cons.mp hx with rfl | hx
      · exact Or.inl h.1
      · rcases ih h.2 hx with hp | ⟨y, hy, hnext⟩
        · exact Or.inr ⟨a, by simp, hp⟩
        · exact Or.inr ⟨y, by simp [hy], hnext⟩

/-- What holds of the start and goes on along the links holds of every cell. -/
theorem links_forall {next : α → Option α} {P : α → Prop}
    (hP : ∀ a x, P a → next a = some x → P x) :
    ∀ {l : List α} {r : α}, P r → Links next (next r) l → ∀ x ∈ l, P x := by
  intro l
  induction l with
  | nil => intro r _ _ x hx; cases hx
  | cons a l ih =>
      intro r hr h x hx
      have ha : P a := hP r a hr h.1
      rcases List.mem_cons.mp hx with rfl | hx
      · exact ha
      · exact ih ha h.2 x hx

/-- Two chains of a store whose links are all different meet only if one
    starts in the other. -/
theorem links_meet {next : α → Option α} {P : α → Prop}
    (hP : ∀ a x, P a → next a = some x → P x)
    (hone : ∀ a b x, P a → P b → next a = some x → next b = some x → a = b)
    {l' : List α} {r' x : α} (hr' : P r') (h' : Links next (next r') l')
    (hx' : x ∈ l') :
    ∀ {l : List α} {r : α}, P r → Links next (next r) l → x ∈ l →
      r = r' ∨ r ∈ l' ∨ r' ∈ l := by
  have hpred : ∀ {a y : α}, P a → next a = some y → y ∈ l' →
      a = r' ∨ a ∈ l' := by
    intro a y ha hnext hy
    rcases links_pred h' hy with hstart | ⟨b, hb, hb'⟩
    · exact Or.inl (hone a r' y ha hr' hnext hstart)
    · have hPb := links_forall hP hr' h' b hb
      exact Or.inr (hone a b y ha hPb hnext hb' ▸ hb)
  intro l
  induction l with
  | nil => intro r _ _ hx; cases hx
  | cons a l ih =>
      intro r hr h hx
      have ha : P a := hP r a hr h.1
      rcases List.mem_cons.mp hx with rfl | hx
      · rcases hpred hr h.1 hx' with heq | hmem
        · exact Or.inl heq
        · exact Or.inr (Or.inl hmem)
      · rcases ih ha h.2 hx with rfl | hmem | hmem
        · exact Or.inr (Or.inr (by simp))
        · rcases hpred hr h.1 hmem with heq | hmem'
          · exact Or.inl heq
          · exact Or.inr (Or.inl hmem')
        · exact Or.inr (Or.inr (by simp [hmem]))

end LinkChain
