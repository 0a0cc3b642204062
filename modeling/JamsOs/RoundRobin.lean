-- The round-robin scheduler (`round_robin.c`). The runnable threads stand in a circular
-- list that is linked through their `sched_one` fields. A thread is named by the address
-- of its record. The three functions run with interrupts off.
import JamsOs.Chain
import JamsOs.Runs

namespace JamsOs

open Linked

/-- A pointer to a thread or to a process, or `NULL`. -/
abbrev Ptr := Option Nat

/-- The static variables of the scheduler, and the `sched_one` field of every thread. -/
structure RunRing where
  Head : Ptr
  Tail : Ptr
  Current : Ptr
  Count : Nat
  sched_one : Nat → Ptr

/-- The scheduler before the first thread is admitted. -/
def RunRing.empty : RunRing := ⟨none, none, none, 0, fun _ => none⟩

/-- `none` when the code follows a `NULL` pointer. -/
def rr_admit (new : Nat) (r : RunRing) : Option RunRing :=
  match r.Head, r.Tail with
  | none, _ => some {
      Head := some new
      Tail := some new
      Current := some new
      Count := r.Count + 1
      sched_one := Function.update r.sched_one new (some new) }
  | some _, none => none
  | some _, some tail => some { r with
      Tail := some new
      Count := r.Count + 1
      sched_one := Function.update (Function.update r.sched_one new r.Head) tail (some new) }

/-- The body of the search in `rr_remove`, once the victim is found after `prev`. -/
def rr_unlink (prev curr : Nat) (r : RunRing) : RunRing :=
  let next := r.sched_one curr
  { Head := if r.Head = some curr then next else r.Head
    Tail := if r.Tail = some curr then some prev else r.Tail
    Current := if r.Current = some curr then next else r.Current
    Count := r.Count - 1
    sched_one := Function.update r.sched_one prev next }

/-- The search of `rr_remove`. It ends at the victim, at `NULL`, or back at the head. -/
def remove_loop (victim : Nat) (r : RunRing) : Nat → Nat → Ptr → Option RunRing
  | _, _, none => some r
  | 0, _, some _ => none
  | n + 1, prev, some curr =>
    if curr = victim then some (rr_unlink prev curr r)
    else if r.sched_one curr = r.Head then some r
    else remove_loop victim r n curr (r.sched_one curr)

/-- `none` when the code halts, or when it does not come back to the head after `Count` threads. -/
def rr_remove (victim : Ptr) (r : RunRing) : Option RunRing :=
  match victim with
  | none => some r
  | some victim =>
    if r.Count = 1 then some { r with Head := none, Tail := none, Current := none, Count := 0 }
    else
      match r.Tail, r.Head with
      | none, some _ => none
      | _, none => some r
      | some tail, some head => remove_loop victim r r.Count tail (some head)

/-- The thread to run next, and the ring after that. -/
def rr_next (r : RunRing) : Option (Ptr × RunRing) :=
  match r.Head, r.Current with
  | none, _ => some (none, r)
  | some _, none => none
  | some _, some upNext => some (some upNext, { r with Current := r.sched_one upNext })

def rr_qlen (r : RunRing) : Nat := r.Count

/-- The threads in the ring, from the head on. -/
def RunRing.members (r : RunRing) : List Nat := nodes r.sched_one r.Count r.Head

/-! ## Runs -/

inductive RingEvent where
  | enter (t : Nat)
  | remove (t : Nat)
  | next
  deriving DecidableEq

/-- The ring, and the threads that `rr_next` has returned, the latest first. -/
structure Turns where
  ring : RunRing
  returned : List Nat

/-- A thread is admitted only when it is not in the ring, and removed only when it is. -/
def ring_step : RingEvent → Turns → Option Turns
  | .enter t, w =>
    if t ∈ w.ring.members then none
    else ( rr_admit t w.ring).map fun r => { w with ring := r }
  | .remove t, w =>
    if t ∈ w.ring.members then (rr_remove (some t) w.ring).map fun r => { w with ring := r }
    else none
  | .next, w =>
    (rr_next w.ring).map fun (t, r) => ⟨r, t.toList ++ w.returned⟩

end JamsOs
