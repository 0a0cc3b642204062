-- A counter that is only read and written under a lock. When no two clients hold the lock at the same
-- time, every addition counts.
import JamsOs.Runs

namespace Guarded

open Runs

variable {σ ε ι : Type} [DecidableEq ι]

/-- A system with a counter next to it. `loaded` is the value that a client has read and not yet
written back, and `stores` is the number of additions. -/
structure State (σ ι : Type) where
  base : σ
  counter : Nat
  loaded : ι → Option Nat
  stores : Nat

inductive Event (ε ι : Type) where
  | base (e : ε)
  | load (i : ι)
  | store (i : ι)

/-- A client reads the counter, and later writes it back with one added. It forgets what it has read
when it gives up the lock. -/
def step (next : ε → σ → Option σ) (holds : σ → ι → Bool) :
    Event ε ι → State σ ι → Option (State σ ι)
  | .base e, w =>
    (next e w.base).map fun s =>
      { w with base := s, loaded := fun i => if holds s i then w.loaded i else none }
  | .load i, w =>
    if holds w.base i then some { w with loaded := Function.update w.loaded i (some w.counter) }
    else none
  | .store i, w =>
    match w.loaded i with
    | none => none
    | some v => some { w with
        counter := v + 1
        loaded := Function.update w.loaded i none
        stores := w.stores + 1 }

def start (s : σ) : State σ ι := ⟨s, 0, fun _ => none, 0⟩

/-- The condition on the events of the system itself. -/
def onBase (ok : ε → σ → Prop) : Event ε ι → State σ ι → Prop
  | .base e, w => ok e w.base
  | _, _ => True

instance onBase.decidable {ok : ε → σ → Prop} [∀ e s, Decidable (ok e s)] :
    ∀ (e : Event ε ι) (w : State σ ι), Decidable (onBase ok e w)
  | .base e, w => inferInstanceAs (Decidable (ok e w.base))
  | .load _, _ => .isTrue trivial
  | .store _, _ => .isTrue trivial

/-- What was read under the lock is still the value of the counter. -/
structure Counts (holds : σ → ι → Bool) (w : State σ ι) : Prop where
  loaded : ∀ i v, w.loaded i = some v → holds w.base i ∧ v = w.counter
  counter : w.counter = w.stores

variable {next : ε → σ → Option σ} {holds : σ → ι → Bool} {ok : ε → σ → Prop} {I : σ → Prop}

theorem Counts.step {w w' : State σ ι} (h : Counts holds w) (hone : ∀ i j, holds w.base i → holds w.base j → i = j)
    {e : Event ε ι} (hstep : Guarded.step next holds e w = some w') : Counts holds w' := by
  cases e with
  | base e =>
    obtain ⟨s, _, rfl⟩ := Option.map_eq_some_iff.mp hstep
    refine ⟨fun i v hv => ?_, h.counter⟩
    simp only at hv
    split at hv
    · exact ⟨‹_›, (h.loaded i v hv).2⟩
    · cases hv
  | load i =>
    simp only [Guarded.step] at hstep
    split at hstep
    · rename_i hi
      cases hstep
      refine ⟨fun j v hv => ?_, h.counter⟩
      by_cases hj : j = i
      · subst hj
        simp only [Function.update_self, Option.some.injEq] at hv
        exact ⟨hi, hv.symm⟩
      · simp only [Function.update_of_ne hj] at hv
        exact h.loaded j v hv
    · cases hstep
  | store i =>
    simp only [Guarded.step] at hstep
    split at hstep
    · cases hstep
    · rename_i v hv
      cases hstep
      obtain ⟨hi, hvc⟩ := h.loaded i v hv
      refine ⟨fun j x hx => ?_, by simp [hvc, h.counter]⟩
      by_cases hj : j = i
      · simp [hj] at hx
      · -- another client that has read would hold the lock as well
        simp only [Function.update_of_ne hj] at hx
        exact absurd (hone j i (h.loaded j x hx).1 hi) hj

/-- When the invariant of the system rules out two holders, the counter is the number of additions
at the end of every run. -/
theorem run_counts (hkeep : ∀ e s s', I s → ok e s → next e s = some s' → I s')
    (hone : ∀ s, I s → ∀ i j, holds s i → holds s j → i = j) {s : σ} (hs : I s)
    {es : List (Event ε ι)} {w : State σ ι}
    (hm : Meets (step next holds) (onBase ok) es (start s))
    (hrun : run (step next holds) es (start s) = some w) : I w.base ∧ w.counter = w.stores := by
  have hstart : Counts holds (start s) := ⟨fun _ _ hv => (nomatch hv), rfl⟩
  have h : I w.base ∧ Counts holds w := by
    refine run_keeps_of_meets (I := fun w => I w.base ∧ Counts holds w) ?_ ⟨hs, hstart⟩ hm hrun
    rintro e w w' ⟨hI, hc⟩ hok hstep
    refine ⟨?_, hc.step (hone _ hI) hstep⟩
    cases e with
    | base e =>
      obtain ⟨s, hs, rfl⟩ := Option.map_eq_some_iff.mp hstep
      exact hkeep e w.base s hI hok hs
    | load i =>
      simp only [step] at hstep
      split at hstep
      · cases hstep
        exact hI
      · cases hstep
    | store i =>
      simp only [step] at hstep
      split at hstep
      · cases hstep
      · cases hstep
        exact hI
  exact ⟨h.1, h.2.counter⟩

end Guarded
