-- The laws of the interrupt flag. The memory, heap, scheduler and buffer functions clear the
-- flag while they work, and each of them has to give it back on every path on which it
-- returns. `kmalloc` does not when it finds no memory.
import JamsOs.Bbuf
import JamsOs.HeapIntegrity
import JamsOs.PageTrees
import JamsOs.RoundRobin

namespace JamsOs

open Words

/-! ## The frame allocator and the entries -/

@[simp] theorem zero_frame_interrupts (s : Machine) (f : Nat) :
    (s.zero_frame f).interrupts = s.interrupts := rfl

@[simp] theorem pf_alloc_interrupts (s : Machine) : (MMU_pf_alloc s).2.interrupts = s.interrupts := by
  unfold MMU_pf_alloc
  split
  · rfl
  · split
    · rfl
    · rfl

end JamsOs
