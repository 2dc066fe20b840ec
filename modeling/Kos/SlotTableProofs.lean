import Mathlib.Logic.Function.Basic

/-! # Tables of slots

    A table has entries of a key and a value in numbered slots, and those in
    front of an end count.  There may be free slots between them.

    * `Table` says which map the slots are, for a list for instance
      (`table_list`);
    * an entry goes into a free slot, and the end moves up to it at most
      (`table_insert`);
    * when a slot is cleared the end may move down as long as no other entry
      comes to be behind it (`table_erase`). -/

namespace SlotTable

variable {K V : Type} {slots : Nat → Option (K × V)} {n n' k : Nat}
  {f : K → Option V} {key : K} {v : V}

/-- **THE MAP** of the slots in front of `n`, in which each key is once. -/
structure Table (slots : Nat → Option (K × V)) (n : Nat) (f : K → Option V) :
    Prop where
  holds : ∀ key v, f key = some v ↔ ∃ k < n, slots k = some (key, v)
  once : ∀ j < n, ∀ k < n, ∀ key v w, slots j = some (key, v) →
    slots k = some (key, w) → j = k

/-- A key without a value is in no slot. -/
theorem table_absent (h : Table slots n f) (hnew : f key = none) :
    ∀ k < n, ∀ v, slots k ≠ some (key, v) := by
  intro k hk v hs
  have hsome := (h.holds key v).mpr ⟨k, hk, hs⟩
  rw [hnew] at hsome
  cases hsome

/-- The slots that count are the same. -/
theorem table_congr {slots' : Nat → Option (K × V)} (h : Table slots n f)
    (hs : ∀ k < n, slots' k = slots k) : Table slots' n f := by
  refine ⟨fun key v => (h.holds key v).trans ?_, fun j hj k hk key v w => ?_⟩
  · refine exists_congr fun k => and_congr_right fun hk => ?_
    rw [hs k hk]
  · rw [hs j hj, hs k hk]
    exact h.once j hj k hk key v w

variable [DecidableEq K]

/-- The map of a list of entries. -/
def mapOf (l : List (K × V)) (key : K) : Option V :=
  (l.find? fun e => e.1 = key).map Prod.snd

/-- A list of entries whose keys are different is a table. -/
theorem table_list {l : List (K × V)} (h : (l.map Prod.fst).Nodup) :
    Table (fun k => l[k]?) l.length (mapOf l) := by
  have hkey : ∀ j < l.length, ∀ k : Nat, ∀ key v w, l[j]? = some (key, v) →
      l[k]? = some (key, w) → j = k := by
    intro j hj k key v w hsj hsk
    refine (List.getElem?_inj (by rwa [List.length_map]) h).mp ?_
    rw [List.getElem?_map, List.getElem?_map, hsj, hsk]
    rfl
  refine ⟨fun key v => ?_, fun j hj k _ => hkey j hj k⟩
  rw [mapOf, Option.map_eq_some_iff]
  constructor
  · rintro ⟨⟨a, w⟩, hfind, rfl⟩
    have hfound := List.find?_some hfind
    have ha : a = key := of_decide_eq_true hfound
    obtain ⟨k, hk, hget⟩ := List.getElem_of_mem (List.mem_of_find?_eq_some hfind)
    refine ⟨k, hk, ?_⟩
    rw [List.getElem?_eq_getElem hk, hget, ha]
  · rintro ⟨k, hk, hs⟩
    cases hfind : l.find? fun e => e.1 = key with
    | none =>
        have hne := List.find?_eq_none.mp hfind _ (List.mem_of_getElem? hs)
        exact absurd (decide_eq_true rfl) hne
    | some e =>
        obtain ⟨a, w⟩ := e
        have hfound := List.find?_some hfind
        have ha : a = key := of_decide_eq_true hfound
        obtain ⟨j, hj, hget⟩ :=
          List.getElem_of_mem (List.mem_of_find?_eq_some hfind)
        have hsj : l[j]? = some (key, w) := by
          rw [List.getElem?_eq_getElem hj, hget, ha]
        rw [hkey j hj k key w v hsj hs, hs] at hsj
        cases hsj
        exact ⟨_, rfl, rfl⟩

/-- **AN ENTRY MORE**: with a new key, in a slot that is free or the first one
    behind the end. -/
theorem table_insert (h : Table slots n f) (hnew : f key = none) (hn : n ≤ n')
    (hk : k < n') (hfree : k < n → slots k = none)
    (hgrow : ∀ j < n', j ≠ k → j < n) :
    Table (Function.update slots k (some (key, v))) n'
      (Function.update f key (some v)) := by
  have hno := table_absent h hnew
  refine ⟨fun a w => ?_, fun i hi j hj a w x hsi hsj => ?_⟩
  · by_cases ha : a = key
    · rw [ha, Function.update_self]
      constructor
      · intro heq
        cases heq
        exact ⟨k, hk, Function.update_self ..⟩
      · rintro ⟨j, hj, hs⟩
        by_cases hjk : j = k
        · rw [hjk, Function.update_self] at hs
          cases hs
          rfl
        · rw [Function.update_of_ne hjk] at hs
          exact absurd hs (hno j (hgrow j hj hjk) w)
    · rw [Function.update_of_ne ha, h.holds]
      constructor
      · rintro ⟨j, hj, hs⟩
        have hjk : j ≠ k := by
          rintro rfl
          rw [hfree hj] at hs
          cases hs
        exact ⟨j, Nat.lt_of_lt_of_le hj hn, by rw [Function.update_of_ne hjk, hs]⟩
      · rintro ⟨j, hj, hs⟩
        by_cases hjk : j = k
        · rw [hjk, Function.update_self] at hs
          cases hs
          exact absurd rfl ha
        · rw [Function.update_of_ne hjk] at hs
          exact ⟨j, hgrow j hj hjk, hs⟩
  · by_cases hik : i = k
    · by_cases hjk : j = k
      · exact hik.trans hjk.symm
      · rw [hik, Function.update_self] at hsi
        rw [Function.update_of_ne hjk] at hsj
        cases hsi
        exact absurd hsj (hno j (hgrow j hj hjk) x)
    · rw [Function.update_of_ne hik] at hsi
      by_cases hjk : j = k
      · rw [hjk, Function.update_self] at hsj
        cases hsj
        exact absurd hsi (hno i (hgrow i hi hik) w)
      · rw [Function.update_of_ne hjk] at hsj
        exact h.once i (hgrow i hi hik) j (hgrow j hj hjk) a w x hsi hsj

/-- **AN ENTRY LESS**, with the end where it was or in front of that, but behind
    all the others. -/
theorem table_erase (h : Table slots n f) (hk : k < n)
    (hs : slots k = some (key, v)) (hn : n' ≤ n)
    (hkept : ∀ j < n, j ≠ k → slots j ≠ none → j < n') :
    Table (Function.update slots k none) n' (Function.update f key none) := by
  refine ⟨fun a w => ?_, fun i hi j hj a w x hsi hsj => ?_⟩
  · by_cases ha : a = key
    · rw [ha, Function.update_self]
      refine iff_of_false (Option.some_ne_none w).symm ?_
      rintro ⟨j, hj, hsj⟩
      by_cases hjk : j = k
      · rw [hjk, Function.update_self] at hsj
        cases hsj
      · rw [Function.update_of_ne hjk] at hsj
        exact hjk (h.once j (Nat.lt_of_lt_of_le hj hn) k hk key w v hsj hs)
    · rw [Function.update_of_ne ha, h.holds]
      constructor
      · rintro ⟨j, hj, hsj⟩
        have hjk : j ≠ k := by
          rintro rfl
          rw [hs] at hsj
          cases hsj
          exact ha rfl
        refine ⟨j, hkept j hj hjk ?_, by rw [Function.update_of_ne hjk, hsj]⟩
        rw [hsj]
        exact Option.some_ne_none _
      · rintro ⟨j, hj, hsj⟩
        by_cases hjk : j = k
        · rw [hjk, Function.update_self] at hsj
          cases hsj
        · rw [Function.update_of_ne hjk] at hsj
          exact ⟨j, Nat.lt_of_lt_of_le hj hn, hsj⟩
  · by_cases hik : i = k
    · rw [hik, Function.update_self] at hsi
      cases hsi
    · rw [Function.update_of_ne hik] at hsi
      by_cases hjk : j = k
      · rw [hjk, Function.update_self] at hsj
        cases hsj
      · rw [Function.update_of_ne hjk] at hsj
        exact h.once i (Nat.lt_of_lt_of_le hi hn) j (Nat.lt_of_lt_of_le hj hn) a w x
          hsi hsj

end SlotTable
