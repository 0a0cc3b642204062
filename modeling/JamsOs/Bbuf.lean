-- The bounded buffer (`bbuf.c`), with the interrupt flag of the processor, which its functions clear
-- and set again. A buffer is a ring buffer of bytes.
import JamsOs.RingBuffer
import JamsOs.Runs

namespace JamsOs

open RingBuffers Runs

/-- `struct bbuf_st`: the array, its size, and the next write and read indices. -/
abbrev Bbuf := RingBuffer (BitVec 8)

/-- A size below 2 is refused, and leaves the state as it was. -/
def bbuf_init (state : Bbuf) (buf : Nat → BitVec 8) (size : Nat) : Bbuf :=
  if size < 2 then state else { cells := buf, size := size, head := 0, tail := 0 }

/-- `if (are_interrupts_enabled()) { enable_ints = 1; CLI(); }`, where `enable_ints` starts as 0. The
result is `enable_ints` and the flag. -/
def save_and_clear (ints : Bool) : Bool × Bool := if ints then (true, false) else (false, ints)

/-- `if (enable_ints) STI();` -/
def set_again (enable_ints ints : Bool) : Bool := if enable_ints then true else ints

/-- The return value, the state and the flag. -/
def bbuf_try_add (st : Bbuf) (c : BitVec 8) (ints : Bool) : Int × Bbuf × Bool :=
  let (enable_ints, ints) := save_and_clear ints
  let next := st.after st.head
  if next = st.tail then (-1, st, set_again enable_ints ints)
  else (0, st.put c, set_again enable_ints ints)

/-- The return value, the byte that was stored in `*res`, the state and the flag. `res` tells that the
pointer is not NULL. -/
def bbuf_try_consume (st : Bbuf) (res ints : Bool) : Int × Option (BitVec 8) × Bbuf × Bool :=
  if !res then (-1, none, st, ints)
  else
    let (enable_ints, ints) := save_and_clear ints
    if st.head = st.tail then (-1, none, st, set_again enable_ints ints)
    else (0, some (st.cells st.tail), st.drop, set_again enable_ints ints)

theorem set_again_saved (ints : Bool) :
    set_again (save_and_clear ints).1 (save_and_clear ints).2 = ints := by
  cases ints <;> rfl

/-- Adding to a buffer: it refuses a byte exactly if all cells but one are used, and adds it at the end
otherwise. The flag is as it was. -/
theorem bbuf_try_add.spec {st : Bbuf} (h : st.Valid) (c : BitVec 8) (ints : Bool) :
    (st.items.length = st.size - 1 ∧ bbuf_try_add st c ints = (-1, st, ints)) ∨
      (st.items.length < st.size - 1 ∧ bbuf_try_add st c ints = (0, st.put c, ints) ∧
        (st.put c).Valid ∧ (st.put c).items = st.items ++ [c]) := by
  unfold bbuf_try_add
  dsimp only
  rw [set_again_saved]
  by_cases hfull : st.after st.head = st.tail
  · left
    exact ⟨(RingBuffer.full_iff h).mp hfull, if_pos hfull⟩
  · right
    have hlt := RingBuffer.length_items_lt h
    have hne := mt (RingBuffer.full_iff h).mpr hfull
    exact ⟨by omega, if_neg hfull, h.put c, RingBuffer.items_put h c hfull⟩

/-- Consuming from a buffer: there is nothing to take, or the oldest byte is taken. -/
theorem bbuf_try_consume.spec {st : Bbuf} (h : st.Valid) (ints : Bool) :
    (st.items = [] ∧ bbuf_try_consume st true ints = (-1, none, st, ints)) ∨
      (∃ c, bbuf_try_consume st true ints = (0, some c, st.drop, ints) ∧
        st.drop.Valid ∧ st.items = c :: st.drop.items) := by
  unfold bbuf_try_consume
  simp only [Bool.not_true, Bool.false_eq_true, if_false]
  rw [set_again_saved]
  by_cases hempty : st.head = st.tail
  · left
    exact ⟨(RingBuffer.items_eq_nil_iff h).mpr hempty, if_pos hempty⟩
  · right
    exact ⟨_, if_neg hempty, h.drop, RingBuffer.items_drop h hempty⟩

/-! ## Runs -/

/-- A call, with the interrupt flag at its time. -/
inductive BbufCall
  | add (c : BitVec 8) (ints : Bool)
  | consume (ints : Bool)

/-- The return value of a call and the byte in `*res`, and the state after it. -/
def BbufCall.apply : BbufCall → Bbuf → (Int × Option (BitVec 8)) × Bbuf
  | .add c ints, st => (((bbuf_try_add st c ints).1, none), (bbuf_try_add st c ints).2.1)
  | .consume ints, st =>
    (((bbuf_try_consume st true ints).1, (bbuf_try_consume st true ints).2.1),
      (bbuf_try_consume st true ints).2.2.1)

/-- What a call means for a queue of a capacity. -/
def BbufCall.on_queue (capacity : Nat) :
    BbufCall → List (BitVec 8) → (Int × Option (BitVec 8)) × List (BitVec 8)
  | .add c _, q => if q.length = capacity then ((-1, none), q) else ((0, none), q ++ [c])
  | .consume _, [] => ((-1, none), [])
  | .consume _, c :: q => ((0, some c), q)

/-- The bytes of the calls that added one, in order. -/
def added : List BbufCall → List (Int × Option (BitVec 8)) → List (BitVec 8)
  | .add c _ :: calls, (ret, _) :: rs => if ret = 0 then c :: added calls rs else added calls rs
  | .consume _ :: calls, _ :: rs => added calls rs
  | _, _ => []

/-- The bytes that the calls took, in order. -/
def taken (rs : List (Int × Option (BitVec 8))) : List (BitVec 8) := rs.filterMap Prod.snd

/-- The buffer stands for the queue. -/
structure Bbuf.Holds (size : Nat) (st : Bbuf) (q : List (BitVec 8)) : Prop where
  valid : st.Valid
  size : st.size = size
  items : st.items = q

section

variable {st : Bbuf} {size : Nat} {q : List (BitVec 8)}

theorem bbuf_init.holds (state : Bbuf) (buf : Nat → BitVec 8) (hsize : 2 ≤ size) :
    Bbuf.Holds size (bbuf_init state buf size) [] := by
  unfold bbuf_init
  rw [if_neg (by omega)]
  exact ⟨⟨hsize, by dsimp only; omega, by dsimp only; omega⟩, rfl, rfl⟩

/-- A call on the buffer answers as the queue does. -/
theorem Bbuf.Holds.apply (h : Bbuf.Holds size st q) (call : BbufCall) :
    (call.apply st).1 = (call.on_queue (size - 1) q).1 ∧
      Bbuf.Holds size (call.apply st).2 (call.on_queue (size - 1) q).2 := by
  have hsize := h.size
  have hitems := h.items
  cases call with
  | add c ints =>
    unfold BbufCall.apply BbufCall.on_queue
    dsimp only
    rcases bbuf_try_add.spec h.valid c ints with ⟨hfull, hrun⟩ | ⟨hroom, hrun, hvalid, hput⟩
    · rw [hitems, hsize] at hfull
      rw [hrun, if_pos hfull]
      exact ⟨rfl, h⟩
    · rw [hitems, hsize] at hroom
      rw [hrun, if_neg (by omega)]
      exact ⟨rfl, hvalid, hsize, by rw [hput, hitems]⟩
  | consume ints =>
    rcases bbuf_try_consume.spec h.valid ints with ⟨hempty, hrun⟩ | ⟨c, hrun, hvalid, hdrop⟩
    · rw [hitems] at hempty
      subst hempty
      unfold BbufCall.apply
      dsimp only
      rw [hrun]
      exact ⟨rfl, h⟩
    · rw [hitems] at hdrop
      subst hdrop
      unfold BbufCall.apply
      dsimp only
      rw [hrun]
      exact ⟨rfl, hvalid, hsize, rfl⟩

/-- Bytes enter a queue at its end and leave it at its start. -/
theorem queue_conserves (capacity : Nat) (calls : List BbufCall) (q : List (BitVec 8)) :
    q ++ added calls (answers (BbufCall.on_queue capacity) calls q).1 =
      taken (answers (BbufCall.on_queue capacity) calls q).1 ++
        (answers (BbufCall.on_queue capacity) calls q).2 := by
  induction calls generalizing q with
  | nil => simp [answers, added, taken]
  | cons call calls ih =>
    unfold answers
    cases call with
    | add c ints =>
      by_cases hfull : q.length = capacity
      · have hstep : BbufCall.on_queue capacity (.add c ints) q = ((-1, none), q) := if_pos hfull
        rw [hstep]
        exact ih q
      · have hstep : BbufCall.on_queue capacity (.add c ints) q = ((0, none), q ++ [c]) :=
          if_neg hfull
        rw [hstep]
        have hrest := ih (q ++ [c])
        rw [List.append_assoc, List.singleton_append] at hrest
        exact hrest
    | consume ints =>
      cases q with
      | nil => exact ih []
      | cons c q => exact congrArg (List.cons c) (ih q)

end

/-- After `bbuf_init` with a size of at least 2, any calls in any order get the answers that a queue of
capacity `size - 1` gives, and the buffer holds what the queue holds. The bytes that were added are
those that were taken, followed by those in the queue. The indices are below the size, and the next
call fails if and only if the queue is full or empty, and then changes nothing. -/
theorem bounded_buffer_is_a_queue (state : Bbuf) (buf : Nat → BitVec 8) (size : Nat)
    (hsize : 2 ≤ size) (calls : List BbufCall) :
    let r := answers BbufCall.apply calls (bbuf_init state buf size)
    let q := answers (BbufCall.on_queue (size - 1)) calls []
    r.1 = q.1 ∧ r.2.items = q.2 ∧ added calls r.1 = taken r.1 ++ q.2 ∧
      r.2.size = size ∧ r.2.head < size ∧ r.2.tail < size ∧
      (∀ c ints, ((bbuf_try_add r.2 c ints).1 = -1 ↔ q.2.length = size - 1) ∧
        ((bbuf_try_add r.2 c ints).1 = -1 → (bbuf_try_add r.2 c ints).2.1 = r.2)) ∧
      ∀ ints, ((bbuf_try_consume r.2 true ints).1 = -1 ↔ q.2 = []) ∧
        ((bbuf_try_consume r.2 true ints).1 = -1 →
          (bbuf_try_consume r.2 true ints).2.1 = none ∧
            (bbuf_try_consume r.2 true ints).2.2.1 = r.2) := by
  intro r q
  obtain ⟨hanswers, hholds⟩ : r.1 = q.1 ∧ Bbuf.Holds size r.2 q.2 :=
    answers_simulate (fun call st q h => h.apply call) calls (bbuf_init.holds state buf hsize)
  have hadded : added calls r.1 = taken r.1 ++ q.2 := by
    rw [hanswers]
    exact queue_conserves (size - 1) calls []
  have hhead := hholds.valid.head
  have htail := hholds.valid.tail
  rw [hholds.size] at hhead htail
  refine ⟨hanswers, hholds.items, hadded, hholds.size, hhead, htail, fun c ints => ?_, fun ints => ?_⟩
  · rcases bbuf_try_add.spec hholds.valid c ints with ⟨hfull, hrun⟩ | ⟨hroom, hrun, -⟩
    · rw [hholds.items, hholds.size] at hfull
      rw [hrun]
      exact ⟨⟨fun _ => hfull, fun _ => rfl⟩, fun _ => rfl⟩
    · rw [hholds.items, hholds.size] at hroom
      rw [hrun]
      exact ⟨⟨nofun, fun h => by omega⟩, nofun⟩
  · rcases bbuf_try_consume.spec hholds.valid ints with ⟨hempty, hrun⟩ | ⟨c, hrun, -, hitems⟩
    · rw [hholds.items] at hempty
      rw [hrun]
      exact ⟨⟨fun _ => hempty, fun _ => rfl⟩, fun _ => ⟨rfl, rfl⟩⟩
    · rw [hholds.items] at hitems
      rw [hrun, hitems]
      exact ⟨⟨nofun, nofun⟩, nofun⟩

/-- A buffer of three cells refuses the third byte, and then gives out the first. -/
theorem bounded_buffer_is_a_queue_three_cells :
    (answers BbufCall.apply [.add 7 true, .add 8 false, .add 9 true, .consume true]
      (bbuf_init ⟨fun _ => 0, 0, 0, 0⟩ (fun _ => 0) 3)).1 =
        [(0, none), (0, none), (-1, none), (0, some 7)] :=
  (bounded_buffer_is_a_queue ⟨fun _ => 0, 0, 0, 0⟩ (fun _ => 0) 3 (by decide) _).1

end JamsOs
