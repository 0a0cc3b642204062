-- Runs of a system that takes one event after another. A step gives the next state,
-- or nothing when the event cannot happen. What every step keeps, every run keeps.
import Mathlib.Tactic

namespace Runs

variable {σ ε : Type}

/-- The state after a list of events, first event first. -/
def run (step : ε → σ → Option σ) : List ε → σ → Option σ
  | [], s => some s
  | e :: es, s => (step e s).bind (run step es)

theorem run_append (step : ε → σ → Option σ) (es es' : List ε) (s : σ) :
    run step (es ++ es') s = (run step es s).bind (run step es') := by
  induction es generalizing s with
  | nil => rfl
  | cons e es ih =>
    rw [List.cons_append, run, run]
    cases step e s with
    | none => rfl
    | some s' => exact ih s'

/-- Every step of the run is taken in a state that meets the condition. -/
def Meets (step : ε → σ → Option σ) (ok : ε → σ → Prop) : List ε → σ → Prop
  | [], _ => True
  | e :: es, s => ok e s ∧ ∀ s', step e s = some s' → Meets step ok es s'

variable {step : ε → σ → Option σ} {ok : ε → σ → Prop} {I : σ → Prop}

instance Meets.decidable [∀ e s, Decidable (ok e s)] :
    ∀ es s, Decidable (Meets step ok es s)
  | [], _ => .isTrue trivial
  | e :: es, s =>
    have : ∀ s', Decidable (Meets step ok es s') := Meets.decidable es
    inferInstanceAs (Decidable (ok e s ∧ ∀ s' ∈ step e s, Meets step ok es s'))

/-- An invariant that every step under the condition keeps holds at the end of every run
whose steps all meet the condition. -/
theorem run_keeps_of_meets (hstep : ∀ e s s', I s → ok e s → step e s = some s' → I s')
    {es : List ε} {s t : σ} (hs : I s) (hm : Meets step ok es s) (h : run step es s = some t) :
    I t := by
  induction es generalizing s with
  | nil =>
    cases h
    exact hs
  | cons e es ih =>
    unfold run at h
    obtain ⟨hok, hrest⟩ := hm
    rcases hc : step e s with _ | s'
    · simp [hc] at h
    · simp only [hc, Option.bind_some] at h
      exact ih (hstep e s s' hs hok hc) (hrest s' hc) h

/-- The condition may speak of the events of the list as well. -/
theorem meets_and_mem {p : ε → Prop} {es : List ε} {s : σ} (h : Meets step ok es s)
    (hp : ∀ e ∈ es, p e) : Meets step (fun e s => ok e s ∧ p e) es s := by
  induction es generalizing s with
  | nil => trivial
  | cons e es ih =>
    obtain ⟨hok, hrest⟩ := h
    refine ⟨⟨hok, hp e List.mem_cons_self⟩, fun s' hs' => ?_⟩
    exact ih (hrest s' hs') fun e' he' => hp e' (List.mem_cons_of_mem _ he')

theorem meets_true (es : List ε) (s : σ) : Meets step (fun _ _ => True) es s := by
  induction es generalizing s with
  | nil => trivial
  | cons e es ih => exact ⟨trivial, fun s' _ => ih s'⟩

/-- An invariant that every step keeps holds at the end of every run. -/
theorem run_keeps (hstep : ∀ e s s', I s → step e s = some s' → I s')
    {es : List ε} {s t : σ} (hs : I s) (h : run step es s = some t) : I t :=
  run_keeps_of_meets (fun e s s' hs _ hc => hstep e s s' hs hc) hs (meets_true es s) h

/-- Two systems that take the same events. When each step of the first is matched by a step of the
second that keeps the relation, each run is. -/
theorem run_simulates {σ' : Type} {step' : ε → σ' → Option σ'} {R : σ → σ' → Prop}
    (hstep : ∀ e s s' t, R s t → step e s = some s' → ∃ t', step' e t = some t' ∧ R s' t')
    {es : List ε} {s s' : σ} {t : σ'} (hs : R s t) (h : run step es s = some s') :
    ∃ t', run step' es t = some t' ∧ R s' t' := by
  induction es generalizing s t with
  | nil =>
    cases h
    exact ⟨t, rfl, hs⟩
  | cons e es ih =>
    obtain ⟨s1, hs1, hrest⟩ := Option.bind_eq_some_iff.mp h
    obtain ⟨t1, ht1, hR⟩ := hstep e s s1 t hs hs1
    obtain ⟨t', ht', hend⟩ := ih hR hrest
    refine ⟨t', ?_, hend⟩
    rw [run, ht1]
    exact ht'

/-! ## Systems that answer -/

variable {ο σ' : Type}

/-- The answers to a list of events and the state after them, for a system that takes every event. -/
def answers (step : ε → σ → ο × σ) : List ε → σ → List ο × σ
  | [], s => ([], s)
  | e :: es, s => ((step e s).1 :: (answers step es (step e s).2).1, (answers step es (step e s).2).2)

/-- Two systems that give the same answer in related states, and stay related. -/
theorem answers_simulate {step : ε → σ → ο × σ} {step' : ε → σ' → ο × σ'} {R : σ → σ' → Prop}
    (hstep : ∀ e s t, R s t → (step e s).1 = (step' e t).1 ∧ R (step e s).2 (step' e t).2)
    (es : List ε) {s : σ} {t : σ'} (h : R s t) :
    (answers step es s).1 = (answers step' es t).1 ∧
      R (answers step es s).2 (answers step' es t).2 := by
  induction es generalizing s t with
  | nil => exact ⟨rfl, h⟩
  | cons e es ih =>
    obtain ⟨hanswer, hnext⟩ := hstep e s t h
    obtain ⟨hrest, hend⟩ := ih hnext
    exact ⟨congrArg₂ List.cons hanswer hrest, hend⟩

end Runs
