-- Page faults under preemption. Vector 14 is a trap gate, so the page fault handler runs
-- with the interrupt flag of the code that faulted, and a timer interrupt may switch to
-- another thread between any two of its instructions. Here the handler, `make_page_present`
-- and `MMU_pf_alloc` (`vpages.c`, `frames.c`) are taken apart into their memory accesses.
import JamsOs.VPages

namespace JamsOs

open Words

/-! ## The steps of `MMU_pf_alloc` -/

/-- What `MMU_pf_alloc` does next. The parameters are the local variables. -/
inductive AllocPc where
  | head
  | next (node : Word)
  | store (node next : Word)
  | valid (i : Nat)
  | size (i : Nat)
  | last (i : Nat)
  | last_addr (i : Nat)
  | addr (i : Nat)
  | move (i : Nat) (frame : Word)
  | shrink (i : Nat) (frame : Word)

def Machine.region (s : Machine) (i : Nat) : MemRegion := s.usable_regions.getD i ⟨0, 0, false⟩

def Machine.set_region (s : Machine) (i : Nat) (r : MemRegion) : Machine :=
  { s with usable_regions := s.usable_regions.set i r }

/-- One memory access of `MMU_pf_alloc`: the next one, or the result. -/
def alloc_step (pc : AllocPc) (s : Machine) : (AllocPc ⊕ Word) × Machine :=
  match pc with
  | .head =>
    if s.free_frames ≠ INVALID_FRAME_ADDR then (.inl (.next s.free_frames), s)
    else (.inl (.valid 0), s)
  | .next node => (.inl (.store node (s.load node)), s)
  | .store node next => (.inr node, { s with free_frames := next })
  | .valid i =>
    -- the loop ends after the last region
    match s.usable_regions[i]? with
    | none => (.inr INVALID_FRAME_ADDR, s)
    | some r => if r.valid then (.inl (.size i), s) else (.inl (.valid (i + 1)), s)
  | .size i =>
    if (s.region i).size = PAGE_SIZE then (.inl (.last i), s) else (.inl (.addr i), s)
  | .last i => (.inl (.last_addr i), s.set_region i { s.region i with valid := false })
  | .last_addr i => (.inr (s.region i).addr, s)
  | .addr i => (.inl (.move i (s.region i).addr), s)
  | .move i frame =>
    let r := s.region i
    (.inl (.shrink i frame), s.set_region i { r with addr := r.addr + PAGE_SIZE })
  | .shrink i frame =>
    let r := s.region i
    (.inr frame, s.set_region i { r with size := r.size - PAGE_SIZE })

/-! ## The steps of the handler -/

/-- The fields of the page-table entry, in the order in which `make_page_present` sets them. -/
inductive EntryField where
  | phys_addr
  | present
  | rw
  | us
  | demand
  deriving DecidableEq

def EntryField.next : EntryField → Option EntryField
  | .phys_addr => some .present
  | .present => some .rw
  | .rw => some .us
  | .us => some .demand
  | .demand => none

/-- The entry with one field set. -/
def EntryField.set (field : EntryField) (w frame va : Word) : Word :=
  match field with
  | .phys_addr => set_pfn w (phys_to_pfn frame)
  | .present => setFlag w 0 true
  | .rw => setFlag w 1 true
  | .us => setFlag w 2 (decide (VA_USER_BASE ≤ va))
  | .demand => setFlag w 9 false

/-- The page fault that a thread handles: the address, and the entry that the walk found. -/
structure Job where
  va : Word
  p1 : EntryPtr

/-- What a thread does next. A field of an entry is a bit field: the word is loaded, changed and
stored, and a switch may come in between. -/
inductive FaultPc where
  | outside
  | walk (va : Word)
  | test (j : Job)
  | check_present (j : Job)
  | check_demand (j : Job)
  | alloc (j : Job) (pc : AllocPc)
  | zero (j : Job) (frame : Word) (k : Nat)
  | load (j : Job) (frame : Word) (field : EntryField)
  | store (j : Job) (frame : Word) (field : EntryField) (w : Word)

/-- One step inside the handler, or `none` when it stops the CPU with `hlt`. The walk is one step,
since no page fault changes a table above the page tables. -/
def fault_step (pc : FaultPc) (s : Machine) : Option (FaultPc × Machine) :=
  match pc with
  | .outside => none
  | .walk va =>
    match travel_pagetable va false s with
    | (none, _) => none
    | (some p1, s) => some (.test ⟨va, p1⟩, s)
  | .test j =>
    if demand (s.entry j.p1) && !present (s.entry j.p1) then some (.check_present j, s) else none
  | .check_present j =>
    if present (s.entry j.p1) then some (.outside, s) else some (.check_demand j, s)
  | .check_demand j => if !demand (s.entry j.p1) then none else some (.alloc j .head, s)
  | .alloc j pc =>
    match alloc_step pc s with
    | (.inl pc, s) => some (.alloc j pc, s)
    | (.inr frame, s) => if frame = INVALID_FRAME_ADDR then none else some (.zero j frame 0, s)
  | .zero j frame k =>
    if h : k < 512 then
      some (.zero j frame (k + 1), { s with mem := setWord s.mem (frameOf frame) ⟨k, h⟩ 0 })
    else some (.load j frame .phys_addr, s)
  | .load j frame field => some (.store j frame field (s.entry j.p1), s)
  | .store j frame field w =>
    let s := s.set_entry j.p1 (field.set w frame j.va)
    match field.next with
    | some field => some (.load j frame field, s)
    | none => some (.outside, s)

/-! ## Threads -/

/-- The machine with its threads. Each thread has its page table, its place in the handler, and
the interrupt flag that the handler runs with. -/
structure FaultSystem where
  machine : Machine
  pc : Nat → FaultPc
  cr3 : Nat → Word
  interrupts : Nat → Bool
  current : Nat

/-- What can happen: the current thread faults, makes a step in the handler, or writes to a page
that is mapped, or a timer interrupt switches to another thread. -/
inductive FaultEvent where
  | fault (va : Word) (interrupts : Bool)
  | step
  | write (va v : Word)
  | switch (t : Nat)

/-- The frame that the CPU comes to for `va` under the current page table. -/
def Machine.frame_at (s : Machine) (va : Word) : Option Nat :=
  match travel_pagetable va false s with
  | (none, _) => none
  | (some e, s) => if present (s.entry e) then some (pfn (s.entry e)) else none

def fault_system_step : FaultEvent → FaultSystem → Option FaultSystem
  | .fault va interrupts, w =>
    match w.pc w.current with
    | .outside => some { w with
        pc := Function.update w.pc w.current (.walk va)
        interrupts := Function.update w.interrupts w.current interrupts }
    | _ => none
  | .step, w => do
    let (pc, s) ← fault_step (w.pc w.current) w.machine
    some { w with machine := s, pc := Function.update w.pc w.current pc }
  | .write va v, w =>
    match w.pc w.current, w.machine.frame_at va with
    | .outside, some f => some { w with
        machine := { w.machine with mem := setWord w.machine.mem f (wordOf va) v } }
    | _, _ => none
  | .switch t, w =>
    -- outside of the handler a thread runs with interrupts on
    match w.pc w.current with
    | .outside => some { w with current := t, machine := { w.machine with cr3 := w.cr3 t } }
    | _ =>
      if w.interrupts w.current then
        some { w with current := t, machine := { w.machine with cr3 := w.cr3 t } }
      else none

end JamsOs
