-- The run ring is a queue. Over any run the circular list holds the threads that were admitted
-- and not removed, in the order of admission, and `rr_next` goes round it. A thread that is not
-- in the ring cannot be removed from it, unless one thread is all there is.
import JamsOs.RunRing

namespace JamsOs

open Linked

/-- The queue that the ring stands for. -/
def queue_step : RingEvent → List Nat → Option (List Nat)
  | .enter t, q => if t ∈ q then none else some (q ++ [t])
  | .remove t, q => if t ∈ q then some (q.erase t) else none
  | .next, q => some q

/-- The links of the ring form one cycle through the threads `q`, from the head on. -/
structure Cyclic (r : RunRing) (q : List Nat) : Prop where
  distinct : q.Nodup
  count : r.Count = q.length
  visits : nodes r.sched_one r.Count r.Head = q
  ends : r.Tail = q.getLast?
  returns : ∀ t, r.Tail = some t → r.sched_one t = r.Head
  current : ∀ c, r.Current = some c → c ∈ q
  null : (r.Head = none ↔ r.Count = 0) ∧ (r.Tail = none ↔ r.Count = 0) ∧
    (r.Current = none ↔ r.Count = 0)

/-- What `n` calls of `rr_next` return, one after another. -/
def turns : Nat → RunRing → Option (List Ptr × RunRing)
  | 0, r => some ([], r)
  | n + 1, r =>
    (rr_next r).bind fun (t, r) => (turns n r).map fun (ts, r) => (t :: ts, r)

section

variable {r : RunRing} {a b q : List Nat} {v : Nat}

/-! ## The links -/

theorem RingAt.returns {t : Nat} (h : RingAt r a b) (ht : r.Tail = some t) :
    r.sched_one t = r.Head := by
  rw [h.tail] at ht
  obtain ⟨xs, hxs⟩ := List.getLast?_eq_some_iff.mp ht
  have hnext := h.next_eq hxs
  rw [hnext]
  rfl

theorem RingAt.current_eq (h : RingAt r a b) :
    r.Current = (a ++ b)[a.length % (a ++ b).length]? := by
  rw [h.current]
  cases b with
  | nil =>
    rw [h.wraps rfl]
    rfl
  | cons c b =>
    rw [Nat.mod_eq_of_lt (by simp), List.getElem?_append_right (le_refl _), Nat.sub_self]
    rfl

theorem RingAt.cyclic (h : RingAt r a b) : Cyclic r (a ++ b) := by
  have hcount : r.Count = 0 ↔ a ++ b = [] := by
    rw [h.count]
    exact List.length_eq_zero_iff
  refine ⟨h.nodup, h.count, h.members_eq, h.tail, fun t => h.returns, ?_, ?_, ?_, ?_⟩
  · intro c hc
    rw [h.current] at hc
    exact List.mem_append_right a (List.mem_of_head? hc)
  · rw [h.head, hcount]
    exact List.head?_eq_none_iff
  · rw [h.tail, hcount]
    exact List.getLast?_eq_none_iff
  · rw [h.current, hcount, List.head?_eq_none_iff, List.append_eq_nil_iff]
    exact ⟨fun hb => ⟨h.wraps hb, hb⟩, And.right⟩

/-! ## The order over a run -/

/-- Each event of the queue is one of the ring. -/
theorem ring_step_simulates (e : RingEvent) (q q' : List Nat) (w : Turns) (h : IsRing w.ring q)
    (hstep : queue_step e q = some q') : ∃ w', ring_step e w = some w' ∧ IsRing w'.ring q' := by
  obtain ⟨a, b, hring, rfl⟩ := h
  cases e with
  | enter t =>
    simp only [queue_step, Option.ite_none_left_eq_some, Option.some.injEq] at hstep
    obtain ⟨ht, rfl⟩ := hstep
    obtain ⟨r', hrun, hring'⟩ := rr_admit.spec hring ht
    refine ⟨{ w with ring := r' }, ?_, a, b ++ [t], hring', List.append_assoc a b [t]⟩
    rw [ring_step, hring.members_eq, if_neg ht, hrun]
    rfl
  | remove t =>
    simp only [queue_step, Option.ite_none_right_eq_some, Option.some.injEq] at hstep
    obtain ⟨ht, rfl⟩ := hstep
    obtain ⟨r', hrun, hring'⟩ := rr_remove.spec hring ht
    refine ⟨{ w with ring := r' }, ?_, _, _, hring', (erase_parts hring.nodup).symm⟩
    rw [ring_step, hring.members_eq, if_pos ht, hrun]
    rfl
  | next =>
    cases hstep
    cases b with
    | nil =>
      obtain rfl := hring.wraps rfl
      exact ⟨w, by rw [ring_step, rr_next.of_nil hring]; rfl, [], [], hring, rfl⟩
    | cons c b =>
      obtain ⟨r', hrun, hring'⟩ := rr_next.spec hring
      refine ⟨⟨r', c :: w.returned⟩, by rw [ring_step, hrun]; rfl, _, _, hring', ?_⟩
      by_cases hb : b = []
      · simp [hb]
      · simp [hb]

/-! ## The turns -/

/-- `rr_next` returns the thread at `Current`, and changes nothing but the place to go on. -/
theorem rr_next.moves (h : RingAt r a b) :
    ∃ a' b', a' ++ b' = a ++ b ∧
      (a ++ b ≠ [] → a'.length % (a ++ b).length = (a.length + 1) % (a ++ b).length) ∧
      rr_next r = some (r.Current, { r with Current := b'.head? }) ∧
      RingAt { r with Current := b'.head? } a' b' := by
  cases b with
  | nil =>
    obtain rfl := h.wraps rfl
    have hcur : r.Current = none := h.current
    have hr : { r with Current := none } = r := by rw [← hcur]
    refine ⟨[], [], rfl, fun hne => absurd rfl hne, ?_, ?_⟩
    · rw [rr_next.of_nil h, hcur, List.head?_nil, hr]
    · rw [List.head?_nil, hr]
      exact h
  | cons c b =>
    obtain ⟨r', hrun, hring⟩ := rr_next.spec h
    have hcur : r.Current = some c := h.current
    have hr' : r' = { r with Current := r'.Current } := by
      obtain ⟨first, hfirst⟩ : ∃ first, r.Head = some first := by
        rw [h.head]
        cases a with
        | nil => exact ⟨c, rfl⟩
        | cons x xs => exact ⟨x, rfl⟩
      rw [rr_next, hfirst, hcur] at hrun
      cases hrun
      rw [← hfirst]
    rw [hring.current] at hr'
    refine ⟨_, _, ?_, ?_, ?_, hr' ▸ hring⟩
    · by_cases hb : b = []
      · simp [hb]
      · simp [hb]
    · intro _
      by_cases hb : b = []
      · simp [hb]
      · simp [hb]
    · rw [hrun, hcur, ← hr']

/-- The calls go round the list from `Current` on. -/
theorem turns.spec (h : RingAt r a b) (n : Nat) :
    turns n r = some ((List.range n).map fun k => (a ++ b)[(a.length + k) % (a ++ b).length]?,
      { r with Current := (a ++ b)[(a.length + n) % (a ++ b).length]? }) := by
  induction n generalizing r a b with
  | zero =>
    have hr : { r with Current := r.Current } = r := rfl
    rw [Nat.add_zero, ← h.current_eq, hr]
    rfl
  | succ n ih =>
    obtain ⟨a', b', happ, hlen, hrun, hring⟩ := rr_next.moves h
    have hplace : ∀ k, (a ++ b)[(a'.length + k) % (a ++ b).length]? =
        (a ++ b)[(a.length + (k + 1)) % (a ++ b).length]? := by
      intro k
      by_cases hnil : a ++ b = []
      · rw [hnil]
        rfl
      · rw [Nat.add_mod, hlen hnil, ← Nat.add_mod, Nat.add_assoc, Nat.add_comm 1 k]
    have hrest := ih hring
    simp only [happ, hplace] at hrest
    rw [turns, hrun, Option.bind_some]
    dsimp only
    rw [hrest, Option.map_some, List.range_succ_eq_map, List.map_cons, List.map_map, h.current_eq]
    rfl

/-- Over every run that admits threads that are not in the ring and removes threads that are, the
ring is one cycle through the threads that were admitted and not removed, in the order of
admission, and `rr_next` called again and again goes round it from `Current` on. -/
theorem run_ring_is_cyclic_queue (es : List RingEvent) (q : List Nat)
    (h : Runs.run queue_step es [] = some q) :
    ∃ w, Runs.run ring_step es .start = some w ∧ Cyclic w.ring q ∧
      ∃ i, w.ring.Current = q[i % q.length]? ∧
        ∀ n, turns n w.ring = some ((List.range n).map fun k => q[(i + k) % q.length]?,
          { w.ring with Current := q[(i + n) % q.length]? }) := by
  have hstart : IsRing Turns.start.ring [] := ⟨[], [], ringAt_empty, rfl⟩
  obtain ⟨w, hrun, a, b, hring, rfl⟩ := Runs.run_simulates
    (R := fun q (w : Turns) => IsRing w.ring q)
    (fun e q q' w hR hstep => ring_step_simulates e q q' w hR hstep) hstart h
  exact ⟨w, hrun, hring.cyclic, a.length, hring.current_eq, turns.spec hring⟩

/-- Threads 0, 1 and 2 are admitted, 0 runs and is removed and admitted again. -/
theorem run_ring_is_cyclic_queue_three :
    ∃ w, Runs.run ring_step [.enter 0, .enter 1, .enter 2, .next, .remove 0, .enter 0] .start =
        some w ∧ Cyclic w.ring [1, 2, 0] := by
  obtain ⟨w, hrun, hcyclic, -⟩ := run_ring_is_cyclic_queue
    [.enter 0, .enter 1, .enter 2, .next, .remove 0, .enter 0] [1, 2, 0] rfl
  exact ⟨w, hrun, hcyclic⟩

/-! ## A thread that is not in the ring -/

/-- The search goes once round the ring. -/
theorem remove_loop.absent (prev : Nat) {zs : List Nat} {p : Ptr} {n : Nat}
    (h : Chain some r.Head r.sched_one p zs) (hv : v ∉ zs) (hn : zs.length ≤ n) (hzs : zs ≠ []) :
    remove_loop v r n prev p = some r := by
  induction zs generalizing prev p n with
  | nil => exact absurd rfl hzs
  | cons z zs ih =>
    obtain ⟨n, rfl⟩ := Nat.exists_eq_succ_of_ne_zero (Nat.ne_zero_of_lt hn)
    obtain ⟨rfl, hrest⟩ := chain_cons_iff.mp h
    simp only [List.mem_cons, not_or] at hv
    rw [remove_loop, if_neg (Ne.symm hv.1)]
    split
    · rfl
    · rename_i hback
      refine ih _ hrest hv.2 (by simpa using hn) ?_
      rintro rfl
      exact hback (chain_nil_iff.mp hrest)

/-- `rr_remove` of a thread that is not in the ring changes nothing, when the ring does not hold
exactly one thread. That one thread it takes out in place of the victim. -/
theorem rr_remove_absent_iff (r : RunRing) (l : List Nat) (v : Nat) (h : IsRing r l) (hv : v ∉ l) :
    rr_remove (some v) r = some r ↔ r.Count ≠ 1 := by
  obtain ⟨a, b, hring, rfl⟩ := h
  constructor
  · intro hrun hcount
    rw [rr_remove, if_pos hcount] at hrun
    have hzero : 0 = r.Count := congrArg RunRing.Count (Option.some.inj hrun)
    omega
  · intro hcount
    rw [rr_remove, if_neg hcount]
    cases hhead : r.Head with
    | none => cases r.Tail <;> rfl
    | some first =>
      have hne : a ++ b ≠ [] := by
        intro hnil
        rw [hring.head, hnil] at hhead
        cases hhead
      obtain ⟨last, hlast⟩ : ∃ last, r.Tail = some last := by
        rw [hring.tail]
        exact ⟨_, List.getLast?_eq_some_getLast hne⟩
      rw [hlast]
      dsimp only
      rw [← hhead]
      exact remove_loop.absent last hring.chain hv (le_of_eq hring.count.symm) hne

end

/-- A ring of two threads, and a third one. -/
theorem rr_remove_absent_iff_two :
    ∃ w, Runs.run ring_step [.enter 0, .enter 1] .start = some w ∧
      rr_remove (some 2) w.ring = some w.ring := by
  refine ⟨_, rfl, ?_⟩
  refine (rr_remove_absent_iff _ [0, 1] 2 ⟨[], [0, 1], ?_, rfl⟩ (by decide)).mpr (by decide)
  refine ⟨by decide, rfl, rfl, rfl, ?_, rfl, nofun⟩
  exact chain_cons_iff.mpr ⟨rfl, chain_cons_iff.mpr ⟨rfl, chain_nil_iff.mpr rfl⟩⟩

/-- Thread 0 is alone in the ring. The removal of thread 1 leaves the ring empty. -/
theorem rr_remove_absent_takes_last :
    ∃ w r, Runs.run ring_step [.enter 0] .start = some w ∧ IsRing w.ring [0] ∧
      rr_remove (some 1) w.ring = some r ∧ r.Head = none ∧ r.Count = 0 ∧ r.members = [] := by
  refine ⟨_, _, rfl, ⟨[], [0], ?_, rfl⟩, rfl, rfl, rfl, rfl⟩
  refine ⟨by decide, rfl, rfl, rfl, ?_, rfl, nofun⟩
  exact chain_cons_iff.mpr ⟨rfl, chain_nil_iff.mpr rfl⟩

end JamsOs
