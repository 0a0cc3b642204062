-- Threads and processes (`multitask.c`, `switch_mmu_and_tss` of `idt_tss.c`). Records are named
-- by their addresses, and each field is a map from addresses. A record that was freed keeps its
-- fields until its address is given out again. A function gives `none` when it halts, follows
-- `NULL`, or comes to no end within `fuel` records of a list.
import JamsOs.RoundRobin
import JamsOs.Frames

namespace JamsOs

open Linked

/-! ## The records -/

/-- `proc_state_t`. -/
inductive RunState where
  | ready
  | running
  | blocked
  | zombie
  deriving DecidableEq

/-- The wait queues: that of the keyboard, two in each process, one in each mutex. -/
inductive QueueRef where
  | kbd_wait_queue
  | wait_child_exit (process : Nat)
  | wait_thread_exit (process : Nat)
  | waiters (mutex : Nat)
  deriving DecidableEq

/-- The calls that block. `status` is the pointer for the exit status. -/
inductive Call where
  | wait (status : Word)
  | join (tid : Nat) (status : Word)
  | lock (id mutex : Nat)
  | getc
  deriving DecidableEq

/-- The places in kernel code that runs with interrupts on, with the local variables there. A
thread may be interrupted at each of them. -/
inductive Window where
  | wait_find (status : Word)
  | wait_none (status : Word)
  | wait_block (status : Word)
  | wait_found (status : Word) (child : Nat)
  | wait_cut (status : Word) (child pid : Nat) (exit_status : Int) (t prev : Ptr)
  | wait_free (status : Word) (child pid : Nat) (exit_status : Int) (t : Ptr)
  | join_find (tid : Nat) (status : Word)
  | join_test (tid : Nat) (status : Word) (target : Nat)
  | join_block (tid : Nat) (status : Word)
  | join_found (tid : Nat) (status : Word) (target : Nat)
  | join_cut (tid : Nat) (status : Word) (target : Nat) (exit_status : Int) (prev : Ptr)
  | join_free (tid : Nat) (status : Word) (target : Nat) (exit_status : Int)
  | lock (id mutex : Nat)
  | getc
  | kthread_new (t : Ptr) (kstack : Word)
  | kthread_link (t : Nat) (kstack : Word)
  | kthread_store (t : Nat) (kstack : Word)
  | kthread_setup (t : Nat) (kstack : Word)
  | uthread_new (p4 : Word) (process t : Ptr) (kstack : Word)
  | uthread_thread (p4 : Word) (parent process : Nat) (t : Ptr) (kstack : Word)
  | uthread_link (parent process t : Nat)
  | uthread_store (parent process t : Nat)
  | uthread_enter (t : Nat)
  deriving DecidableEq

/-- What a thread does when it runs next. `user` is user code, or code of a kernel thread that
does not touch the records. In `yield` the thread has called `PROC_block_on`, is on the queue, and
comes to the `yield()` with interrupts on. In `exec_load` and `elf_load` it reads a program into
the page table `p4`. -/
inductive Pc where
  | user
  | yield (c : Call)
  | window (w : Window)
  | exec_load (p4 : Word)
  | elf_load (p4 : Word)
  deriving DecidableEq

/-- `thread_st`. A record is `allocated` from `kmalloc` to `kfree`. `kstack` is 0 for `NULL`. -/
structure ThreadTable where
  allocated : Nat → Bool
  tid : Nat → Nat
  owner : Nat → Ptr
  run_state : Nat → RunState
  exit_status : Nat → Int
  kstack : Nat → Word
  pc : Nat → Pc

/-- `process_st`. -/
structure ProcessTable where
  allocated : Nat → Bool
  pid : Nat → Nat
  cr3 : Nat → Word
  parent : Nat → Ptr
  live_threads : Nat → Nat
  exit_status : Nat → Int
  exiting : Nat → Bool
  zombie : Nat → Bool

/-- `kernel_mutex_st`, and `mutex_list`. -/
structure MutexTable where
  allocated : Nat → Bool
  list : List Nat
  id : Nat → Nat
  owner_process : Nat → Ptr
  owner_thread : Nat → Ptr
  next_id : Nat

/-- The calls of user threads. What `kmalloc` and the page table code give is an argument: an
address, or `none` (0 for stacks and page tables) when there is no memory. -/
inductive Syscall where
  | yield
  | exit (status : Int)
  | thread_exit (status : Int)
  | wait (status : Word)
  | thread_join (tid : Nat) (status : Word)
  | fork (p4 : Word) (process t : Ptr) (kstack : Word) (frame_offset : Nat)
  | clone (stack_top entry : Word) (t : Ptr) (kstack : Word)
  | exec (p4 : Word)
  | getc
  | mutex_create (mutex : Ptr)
  | mutex_lock (id : Nat)
  | mutex_unlock (id : Nat)
  | mutex_destroy (id : Nat)
  deriving DecidableEq

/-- A call that has returned: who called, the result, and the exit status that was stored. -/
structure Return where
  tid : Nat
  call : Syscall
  value : Int
  status : Option Int
  deriving DecidableEq

/-- The state of the kernel apart from the links of its lists. `p4s` are the user page tables that
were created and not destroyed, `cr3` is the register, `rsp0` the field of the TSS. The history is
in `returns`, the latest call first, and `since` tells when a thread last went on a queue. -/
structure Core where
  thread : ThreadTable
  process : ProcessTable
  mutex : MutexTable
  curr_proc : Ptr
  next_proc : Ptr
  next_pid : Nat
  next_tid : Nat
  kbd_buf : List (BitVec 8)
  kernel_p4 : Word
  p4s : List Word
  cr3 : Word
  rsp0 : Word
  returns : List Return
  since : Nat → Nat
  clock : Nat

/-- `proc_queue`. -/
structure ProcQueue where
  head : Ptr
  tail : Ptr

/-- The heads and tails of the queues, and the `lib_one` field of every thread. -/
structure Queues where
  ends : QueueRef → ProcQueue
  lib_one : Nat → Ptr

/-- The link fields: those of the run ring and of the queues, the `threads` and `first_child` fields
of the processes, and the `next_thread` and `next_sibling` fields. -/
structure Links where
  ring : RunRing
  queues : Queues
  threads : Nat → Ptr
  next_thread : Nat → Ptr
  first_child : Nat → Ptr
  next_sibling : Nat → Ptr

structure Kernel extends Core where
  links : Links

def main_thread : Nat := 0
def kernel_process : Nat := 0

def Core.set_run_state (t : Nat) (s : RunState) (c : Core) : Core :=
  { c with thread.run_state := Function.update c.thread.run_state t s }

def Core.set_pc (t : Nat) (pc : Pc) (c : Core) : Core :=
  { c with thread.pc := Function.update c.thread.pc t pc }

/-! ## Queues of blocked threads -/

def enqueue (q : QueueRef) (p : Nat) (l : Queues) : Option Queues :=
  let lib_one := Function.update l.lib_one p none
  match (l.ends q).head, (l.ends q).tail with
  | none, _ => some ⟨Function.update l.ends q ⟨some p, some p⟩, lib_one⟩
  | some _, none => none
  | some head, some tail =>
    some ⟨Function.update l.ends q ⟨some head, some p⟩, Function.update lib_one tail (some p)⟩

def dequeue (q : QueueRef) (l : Queues) : Ptr × Queues :=
  match (l.ends q).head with
  | none => (none, l)
  | some temp =>
    let ends : ProcQueue :=
      if (l.ends q).tail = some temp then ⟨none, none⟩
      else ⟨l.lib_one temp, (l.ends q).tail⟩
    (some temp, ⟨Function.update l.ends q ends, Function.update l.lib_one temp none⟩)

def PROC_admit (p : Nat) (k : Kernel) : Option Kernel :=
  ( rr_admit p k.links.ring).map fun ring => { k with links.ring := ring }

def PROC_remove (p : Nat) (k : Kernel) : Option Kernel :=
  (rr_remove (some p) k.links.ring).map fun ring => { k with links.ring := ring }

/-- The test of `PROC_unblock_one`: the thread is not dead, nor its process about to be. -/
def Core.may_wake (c : Core) (p : Nat) : Bool :=
  c.thread.run_state p ≠ .zombie &&
    match c.thread.owner p with
    | none => true
    | some owner => !c.process.exiting owner

def PROC_unblock_one (q : QueueRef) : Nat → Kernel → Option (Ptr × Kernel)
  | fuel, k =>
    match dequeue q k.links.queues with
    | (none, _) => some (none, k)
    | (some p, queues) =>
      let k := { k with links.queues := queues }
      if k.may_wake p then
        ( PROC_admit p { k with toCore := k.set_run_state p .ready }).map (some p, ·)
      else
        match fuel with
        | 0 => none
        | fuel + 1 => PROC_unblock_one q fuel k

def PROC_unblock_all (q : QueueRef) : Nat → Kernel → Option Kernel
  | fuel, k =>
    match (k.links.queues.ends q).head, fuel with
    | none, _ => some k
    | some _, 0 => none
    | some _, fuel + 1 => do
      let (_, k) ← PROC_unblock_one q fuel k
      PROC_unblock_all q fuel k

/-- The running thread `p` goes on the queue. Its next step is the `yield()`. -/
def PROC_block_on (q : QueueRef) (call : Call) (p : Nat) (k : Kernel) : Option Kernel := do
  let k := { k with toCore := k.set_run_state p .blocked }
  let k ← PROC_remove p k
  let queues ← enqueue q p k.links.queues
  some { k with
    thread.pc := Function.update k.thread.pc p (.yield call)
    since := Function.update k.since p k.clock
    clock := k.clock + 1
    links.queues := queues }

/-! ## Scheduling -/

/-- The candidate, after a second look when the first one is the thread that runs already. -/
def pick_candidate (curr : Ptr) (r : RunRing) : Option (Ptr × RunRing) := do
  let (candidate, r) ← rr_next r
  if candidate ≠ none ∧ candidate = curr ∧ 1 < rr_qlen r then rr_next r
  else some (candidate, r)

/-- A thread that was running is ready again. -/
def Core.preempt (c : Core) : Core :=
  match c.curr_proc with
  | none => c
  | some curr => if c.thread.run_state curr = .running then c.set_run_state curr .ready else c

/-- The candidate takes over, or the idle thread when there is none. -/
def Core.elect (candidate : Ptr) (c : Core) : Core :=
  match candidate with
  | none => { c with next_proc := some main_thread }
  | some candidate => { c.preempt.set_run_state candidate .running with next_proc := some candidate }

def PROC_reschedule (k : Kernel) : Option Kernel := do
  let (candidate, ring) ← pick_candidate k.curr_proc k.links.ring
  some { toCore := k.elect candidate, links := { k.links with ring := ring } }

/-- `DEFAULT_STACK_BYTES`, as a number. -/
def KSTACK_BYTES : Nat := 8 * 1024

/-- The top of a kernel stack. -/
def kstack_top (kstack : Word) : Word := (kstack + BitVec.ofNat 64 KSTACK_BYTES) &&& ~~~(16 - 1)

/-- The page table for a thread: that of its process, or the kernel's. -/
def Core.p4_of (c : Core) (t : Nat) : Word :=
  match c.thread.owner t with
  | none => c.kernel_p4
  | some owner => if c.process.cr3 owner ≠ 0 then c.process.cr3 owner else c.kernel_p4

def switch_mmu_and_tss (next : Nat) (c : Core) : Core :=
  { c with
    rsp0 := if c.thread.kstack next ≠ 0 then kstack_top (c.thread.kstack next) else c.rsp0
    cr3 := c.p4_of next }

/-- The end of `isr_handler`: another thread goes on when `next_proc` names one. -/
def isr_return (c : Core) : Core :=
  match c.next_proc with
  | none => c
  | some next =>
    if c.curr_proc = some next then c
    else { switch_mmu_and_tss next c with curr_proc := some next, next_proc := none }

/-! ## Threads and processes -/

/-- `PROC_init_thread`, on fresh memory. -/
def PROC_init_thread (t owner : Nat) (k : Kernel) : Kernel :=
  { k with
    thread := {
      allocated := Function.update k.thread.allocated t true
      tid := Function.update k.thread.tid t k.next_tid
      owner := Function.update k.thread.owner t (some owner)
      run_state := Function.update k.thread.run_state t .ready
      exit_status := Function.update k.thread.exit_status t 0
      kstack := Function.update k.thread.kstack t 0
      pc := Function.update k.thread.pc t .user }
    next_tid := k.next_tid + 1
    links.next_thread := Function.update k.links.next_thread t none
    links.queues.lib_one := Function.update k.links.queues.lib_one t none
    links.ring.sched_one := Function.update k.links.ring.sched_one t none }

/-- `PROC_init_process`, on fresh memory. -/
def PROC_init_process (p : Nat) (parent : Ptr) (cr3 : Word) (k : Kernel) : Kernel :=
  { k with
    process := {
      allocated := Function.update k.process.allocated p true
      pid := Function.update k.process.pid p k.next_pid
      cr3 := Function.update k.process.cr3 p cr3
      parent := Function.update k.process.parent p parent
      live_threads := Function.update k.process.live_threads p 0
      exit_status := Function.update k.process.exit_status p 0
      exiting := Function.update k.process.exiting p false
      zombie := Function.update k.process.zombie p false }
    next_pid := k.next_pid + 1
    links := { k.links with
      first_child := Function.update k.links.first_child p none
      next_sibling := Function.update k.links.next_sibling p none
      threads := Function.update k.links.threads p none
      queues.ends := Function.update (Function.update k.links.queues.ends
        (.wait_child_exit p) ⟨none, none⟩) (.wait_thread_exit p) ⟨none, none⟩ } }

def PROC_link_process_child (parent child : Nat) (k : Kernel) : Kernel :=
  { k with
    process.parent := Function.update k.process.parent child (some parent)
    links.next_sibling := Function.update k.links.next_sibling child (k.links.first_child parent)
    links.first_child := Function.update k.links.first_child parent (some child) }

/-- The stores of `PROC_unlink_process_child`, once the child is found after `prev`. -/
def cut_process_child (parent : Nat) (prev : Ptr) (child : Nat) (k : Kernel) : Kernel :=
  let next := k.links.next_sibling child
  let links :=
    match prev with
    | some prev => { k.links with next_sibling := Function.update k.links.next_sibling prev next }
    | none => { k.links with first_child := Function.update k.links.first_child parent next }
  { k with
    process.parent := Function.update k.process.parent child none
    links := { links with next_sibling := Function.update links.next_sibling child none } }

def PROC_find_zombie_child (fuel : Nat) (parent : Nat) (k : Kernel) : Option Ptr :=
  search k.links.next_sibling k.process.zombie fuel (k.links.first_child parent)

def PROC_reparent_children (fuel : Nat) (exiting : Nat) (k : Kernel) : Option Kernel := do
  let children ← trail k.links.next_sibling fuel (k.links.first_child exiting)
  match children.getLast? with
  | none => some k
  | some last => some { k with
      process.parent := fun c => if c ∈ children then some kernel_process else k.process.parent c
      links := { k.links with
        next_sibling :=
          Function.update k.links.next_sibling last (k.links.first_child kernel_process)
        first_child := Function.update (Function.update k.links.first_child kernel_process
          (k.links.first_child exiting)) exiting none } }

def PROC_link_thread (owner t : Nat) (k : Kernel) : Kernel :=
  { k with
    thread.owner := Function.update k.thread.owner t (some owner)
    process.live_threads :=
      Function.update k.process.live_threads owner (k.process.live_threads owner + 1)
    links.next_thread := Function.update k.links.next_thread t (k.links.threads owner)
    links.threads := Function.update k.links.threads owner (some t) }

/-- The stores of `PROC_unlink_thread`, once the thread is found after `prev`. -/
def cut_thread (owner : Nat) (prev : Ptr) (t : Nat) (l : Links) : Links :=
  let next := l.next_thread t
  let l :=
    match prev with
    | some prev => { l with next_thread := Function.update l.next_thread prev next }
    | none => { l with threads := Function.update l.threads owner next }
  { l with next_thread := Function.update l.next_thread t none }

def PROC_unlink_thread (fuel : Nat) (owner t : Nat) (k : Kernel) : Option Kernel := do
  let prev ← seek k.links.next_thread t fuel none (k.links.threads owner)
  match prev with
  | none => some k
  | some prev => some { k with links := cut_thread owner prev t k.links }

def PROC_find_thread (fuel : Nat) (owner tid : Nat) (k : Kernel) : Option Ptr :=
  search k.links.next_thread (fun t => k.thread.tid t = tid) fuel (k.links.threads owner)

/-- `live_threads` goes down when it is not 0. -/
def Core.drop_live (owner : Nat) (c : Core) : Core :=
  { c with process.live_threads :=
      Function.update c.process.live_threads owner (c.process.live_threads owner - 1) }

def PROC_free_thread (t : Nat) (c : Core) : Core :=
  { c with thread.allocated := Function.update c.thread.allocated t false }

def PROC_free_process (p : Nat) (c : Core) : Core :=
  { c with process.allocated := Function.update c.process.allocated p false }

/-! ## Address spaces -/

/-- What `MMU_destroy_userspace` does to the page tables: none that the CPU uses goes. -/
def MMU_destroy_p4 (p4 : Word) (c : Core) : Core :=
  if p4 = 0 ∨ p4 = c.kernel_p4 ∨ p4 = c.cr3 then c else { c with p4s := c.p4s.erase p4 }

def destroy_process_address_space (p : Nat) (c : Core) : Core :=
  let old_cr3 := c.process.cr3 p
  if old_cr3 = 0 ∨ old_cr3 = c.kernel_p4 then c
  else MMU_destroy_p4 old_cr3
    { c with cr3 := c.kernel_p4, process.cr3 := Function.update c.process.cr3 p 0 }

/-! ## Exit -/

def unlink_mutex (m : Nat) (c : Core) : Core := { c with mutex.list := c.mutex.list.erase m }

def free_mutex (m : Nat) (c : Core) : Core :=
  { c with mutex.allocated := Function.update c.mutex.allocated m false }

/-- The body of the loop of `MUTEX_destroy_process_mutexes`. -/
def destroy_process_mutex (fuel : Nat) (owner : Nat) (k : Kernel) (m : Nat) : Option Kernel :=
  if k.mutex.owner_process m = some owner then do
    let k ← PROC_unblock_all (.waiters m) fuel { k with toCore := unlink_mutex m k.toCore }
    some { k with toCore := free_mutex m k.toCore }
  else some k

def MUTEX_destroy_process_mutexes (fuel : Nat) (owner : Nat) (k : Kernel) : Option Kernel :=
  k.mutex.list.foldlM (destroy_process_mutex fuel owner) k

def process_teardown (fuel : Nat) (p : Nat) (status : Int) (k : Kernel) : Option Kernel :=
  if k.process.zombie p then some k
  else do
    let k := { k with
      process.exiting := Function.update k.process.exiting p true
      process.zombie := Function.update k.process.zombie p true
      process.exit_status := Function.update k.process.exit_status p status }
    let k ← PROC_reparent_children fuel p k
    let k ← MUTEX_destroy_process_mutexes fuel p k
    let k := { k with toCore := destroy_process_address_space p k.toCore }
    match k.process.parent p with
    | none => some k
    | some parent => PROC_unblock_all (.wait_child_exit parent) fuel k

/-- The body of the loop that ends every thread of a process. -/
def exit_thread (status : Int) (k : Kernel) (t : Nat) : Option Kernel :=
  if k.thread.run_state t = .zombie then some k
  else do
    let k ←
      if k.thread.run_state t = .ready ∨ k.thread.run_state t = .running then PROC_remove t k
      else some k
    some { k with
      thread.run_state := Function.update k.thread.run_state t .zombie
      thread.exit_status := Function.update k.thread.exit_status t status }

/-- The branch of `PROC_exit_current_thread` for a whole process. -/
def exit_whole_process (fuel : Nat) (status : Int) (owner : Nat) (k : Kernel) : Option Kernel := do
  let threads ← trail k.links.next_thread fuel (k.links.threads owner)
  let k ← threads.foldlM (exit_thread status)
    { k with process.exiting := Function.update k.process.exiting owner true }
  let k := { k with process.live_threads := Function.update k.process.live_threads owner 0 }
  let k ← process_teardown fuel owner status k
  PROC_unblock_all (.wait_thread_exit owner) fuel k

/-- The branch of `PROC_exit_current_thread` for one thread. -/
def exit_single_thread (fuel : Nat) (status : Int) (owner t : Nat) (k : Kernel) :
    Option Kernel := do
  let k := { k with
    thread.run_state := Function.update k.thread.run_state t .zombie
    thread.exit_status := Function.update k.thread.exit_status t status }
  let k ← PROC_remove t { k with toCore := k.drop_live owner }
  let k ← PROC_unblock_all (.wait_thread_exit owner) fuel k
  if k.process.live_threads owner = 0 then process_teardown fuel owner status k else some k

def PROC_exit_current_thread (fuel : Nat) (status : Int) (whole_process : Bool) (t : Nat)
    (k : Kernel) : Option Kernel :=
  if t = main_thread then none
  else
    match k.thread.owner t with
    | none => some k
    | some owner => do
      let k ←
        if whole_process ∧ owner ≠ kernel_process then exit_whole_process fuel status owner k
        else exit_single_thread fuel status owner t k
      PROC_reschedule { k with curr_proc := none }

end JamsOs
