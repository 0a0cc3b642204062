-- Things that are held: a list of things, each of which belongs to exactly one holder, and holders
-- that have at most one thing each.
import Mathlib.Tactic

namespace Assignment

variable {ι α : Type} {f g : ι → Option α} {l : List α} {i j : ι} {a : α}

/-- The list holds the things that the holders have, each once, and no two holders have the same. -/
structure Assigns (f : ι → Option α) (l : List α) : Prop where
  nodup : l.Nodup
  mem : ∀ a, a ∈ l ↔ ∃ i, f i = some a
  inj : ∀ i j a, f i = some a → f j = some a → i = j

theorem Assigns.exists_unique (h : Assigns f l) (ha : a ∈ l) : ∃! i, f i = some a := by
  obtain ⟨i, hi⟩ := (h.mem a).mp ha
  exact ⟨i, hi, fun j hj => h.inj j i a hj hi⟩

theorem Assigns.congr (h : Assigns f l) (hfg : ∀ i, g i = f i) : Assigns g l := by
  obtain rfl : g = f := funext hfg
  exact h

theorem Assigns.perm {l' : List α} (h : Assigns f l) (hl : l.Perm l') : Assigns f l' where
  nodup := hl.nodup_iff.mp h.nodup
  mem a := by rw [← hl.mem_iff, h.mem]
  inj := h.inj

variable [DecidableEq ι]

/-- A holder that has nothing gets a new thing. -/
theorem Assigns.insert (h : Assigns f l) (hi : f i = none) (ha : a ∉ l) :
    Assigns (Function.update f i (some a)) (a :: l) where
  nodup := List.nodup_cons.mpr ⟨ha, h.nodup⟩
  mem b := by
    rw [List.mem_cons, h.mem]
    constructor
    · rintro (rfl | ⟨j, hj⟩)
      · exact ⟨i, Function.update_self _ _ _⟩
      · have hne : j ≠ i := by
          rintro rfl
          rw [hi] at hj
          cases hj
        exact ⟨j, by rw [Function.update_of_ne hne, hj]⟩
    · rintro ⟨j, hj⟩
      by_cases hne : j = i
      · subst hne
        rw [Function.update_self] at hj
        exact Or.inl (Option.some.inj hj).symm
      · rw [Function.update_of_ne hne] at hj
        exact Or.inr ⟨j, hj⟩
  inj := by
    have hold : ∀ j b, j ≠ i → Function.update f i (some a) j = some b → b ∈ l ∧ f j = some b := by
      intro j b hne hj
      rw [Function.update_of_ne hne] at hj
      exact ⟨(h.mem b).mpr ⟨j, hj⟩, hj⟩
    intro j k b hj hk
    by_cases hji : j = i <;> by_cases hki : k = i
    · rw [hji, hki]
    · subst hji
      rw [Function.update_self] at hj
      exact absurd (Option.some.inj hj ▸ (hold k b hki hk).1) ha
    · subst hki
      rw [Function.update_self] at hk
      exact absurd (Option.some.inj hk ▸ (hold j b hji hj).1) ha
    · exact h.inj j k b (hold j b hji hj).2 (hold k b hki hk).2

/-- A holder gives up its thing. -/
theorem Assigns.remove [DecidableEq α] (h : Assigns f l) (hi : f i = some a) :
    Assigns (Function.update f i none) (l.erase a) where
  nodup := h.nodup.erase a
  mem b := by
    rw [h.nodup.mem_erase_iff, h.mem]
    constructor
    · rintro ⟨hne, j, hj⟩
      have hji : j ≠ i := by
        rintro rfl
        exact hne (Option.some.inj (hj.symm.trans hi))
      exact ⟨j, by rw [Function.update_of_ne hji, hj]⟩
    · rintro ⟨j, hj⟩
      by_cases hji : j = i
      · subst hji
        rw [Function.update_self] at hj
        cases hj
      · rw [Function.update_of_ne hji] at hj
        refine ⟨?_, j, hj⟩
        rintro rfl
        exact hji (h.inj j i b hj hi)
  inj j k b hj hk := by
    have hold : ∀ x, Function.update f i none x = some b → f x = some b := by
      intro x hx
      by_cases hxi : x = i
      · subst hxi
        rw [Function.update_self] at hx
        cases hx
      · rwa [Function.update_of_ne hxi] at hx
    exact h.inj j k b (hold j hj) (hold k hk)

/-- A thing goes from one holder to another one that has nothing. -/
theorem Assigns.transfer [DecidableEq α] (h : Assigns f l) (hi : f i = some a) (hj : f j = none) :
    Assigns (Function.update (Function.update f i none) j (some a)) l := by
  have hji : j ≠ i := by
    rintro rfl
    rw [hj] at hi
    cases hi
  have ha : a ∈ l := (h.mem a).mpr ⟨i, hi⟩
  have hfree : a ∉ l.erase a := fun hin => (h.nodup.mem_erase_iff.mp hin).1 rfl
  have hmoved := (h.remove hi).insert (i := j) (by rwa [Function.update_of_ne hji]) hfree
  exact hmoved.perm (List.perm_cons_erase ha).symm

end Assignment
