-- Ring buffers: an array, the index of the next write and that of the next read. The buffer is empty
-- when the two are equal, and so one cell always stays free. The laws say that a buffer is a queue.
import Mathlib.Tactic

namespace RingBuffers

variable {α : Type}

structure RingBuffer (α : Type) where
  cells : Nat → α
  size : Nat
  head : Nat
  tail : Nat

namespace RingBuffer

/-- The index after another, around the end of the array. -/
def after (r : RingBuffer α) (i : Nat) : Nat := (i + 1) % r.size

/-- A write at the head. -/
def put (r : RingBuffer α) (a : α) : RingBuffer α :=
  { r with cells := fun i => if i = r.head then a else r.cells i, head := r.after r.head }

/-- A read at the tail, which leaves the cell as it is. -/
def drop (r : RingBuffer α) : RingBuffer α := { r with tail := r.after r.tail }

/-- The indices lie in the array. -/
structure Valid (r : RingBuffer α) : Prop where
  size : 2 ≤ r.size
  head : r.head < r.size
  tail : r.tail < r.size

/-- How many cells are used. -/
def count (r : RingBuffer α) : Nat := if r.tail ≤ r.head then r.head - r.tail else r.head + r.size - r.tail

/-- What the buffer holds, oldest first. -/
def items (r : RingBuffer α) : List α :=
  (List.range r.count).map fun i => r.cells ((r.tail + i) % r.size)

variable {r : RingBuffer α}

@[simp] theorem length_items : r.items.length = r.count := by
  simp [items]

theorem after_eq {i : Nat} (hi : i < r.size) : r.after i = if i + 1 = r.size then 0 else i + 1 := by
  unfold after
  split
  · next h => rw [h, Nat.mod_self]
  · next h => exact Nat.mod_eq_of_lt (by omega)

theorem Valid.put (h : r.Valid) (a : α) : (r.put a).Valid where
  size := h.size
  head := Nat.mod_lt _ (by have := h.size; omega)
  tail := h.tail

theorem Valid.drop (h : r.Valid) : r.drop.Valid where
  size := h.size
  head := h.head
  tail := Nat.mod_lt _ (by have := h.size; omega)

/-- The buffer is empty exactly if the indices are equal. -/
theorem items_eq_nil_iff (h : r.Valid) : r.items = [] ↔ r.head = r.tail := by
  have hhead := h.head
  have htail := h.tail
  rw [← List.length_eq_zero_iff, length_items]
  unfold count
  split <;> omega

/-- The buffer is full, with all cells used but one, exactly if the head would meet the tail. -/
theorem full_iff (h : r.Valid) : r.after r.head = r.tail ↔ r.items.length = r.size - 1 := by
  have hsize := h.size
  have hhead := h.head
  have htail := h.tail
  rw [length_items, after_eq h.head]
  unfold count
  split <;> split <;> omega

theorem length_items_lt (h : r.Valid) : r.items.length < r.size := by
  have hhead := h.head
  have htail := h.tail
  rw [length_items]
  unfold count
  split <;> omega

/-- The cell `i` places after the tail. -/
theorem place_eq (h : r.Valid) {i : Nat} (hi : i < r.size) :
    (r.tail + i) % r.size = if r.tail + i < r.size then r.tail + i else r.tail + i - r.size := by
  have htail := h.tail
  split
  · next hlt => exact Nat.mod_eq_of_lt hlt
  · next hge =>
    rw [Nat.mod_eq_sub_mod (by omega)]
    exact Nat.mod_eq_of_lt (by omega)

/-- A write to a buffer that is not full adds at the end. -/
theorem items_put (h : r.Valid) (a : α) (hroom : r.after r.head ≠ r.tail) :
    (r.put a).items = r.items ++ [a] := by
  have hhead := h.head
  have htail := h.tail
  have hlen := length_items_lt h
  rw [length_items] at hlen
  have hcount : (r.put a).count = r.count + 1 := by
    rw [after_eq h.head] at hroom
    unfold count put
    dsimp only
    rw [after_eq h.head]
    split_ifs at hroom ⊢ <;> omega
  unfold items
  rw [hcount, List.range_succ, List.map_append, List.map_singleton]
  have hlast : (r.tail + r.count) % r.size = r.head := by
    rw [place_eq h hlen]
    unfold count
    split <;> split <;> omega
  congr 1
  · apply List.map_congr_left
    intro i hi
    have hi' := List.mem_range.mp hi
    -- the cells in use are not the one that is written
    have hne : (r.tail + i) % r.size ≠ r.head := by
      rw [place_eq h (by omega)]
      unfold count at hi'
      split at hi' <;> split <;> omega
    exact if_neg hne
  · congr 1
    exact if_pos hlast

/-- A read from a buffer that is not empty takes the oldest. -/
theorem items_drop (h : r.Valid) (hsome : r.head ≠ r.tail) :
    r.items = r.cells r.tail :: r.drop.items := by
  have hhead := h.head
  have htail := h.tail
  have hcount : r.count = r.drop.count + 1 := by
    unfold count drop
    dsimp only
    rw [after_eq h.tail]
    split_ifs <;> omega
  unfold items
  rw [hcount, List.range_succ_eq_map, List.map_cons, List.map_map]
  congr 1
  · rw [Nat.add_zero, Nat.mod_eq_of_lt h.tail]
  · apply List.map_congr_left
    intro i _
    change r.cells ((r.tail + (i + 1)) % r.size) = r.cells ((r.after r.tail + i) % r.size)
    unfold after
    rw [Nat.mod_add_mod, Nat.add_assoc, Nat.add_comm 1 i]

end RingBuffer

end RingBuffers
