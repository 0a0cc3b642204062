-- The system calls (`process_syscalls.c`, `mutex_syscalls.c`), the keyboard interrupt
-- (`ps2_kbd.c`), and the steps of the system. A call runs with interrupts off until it blocks.
-- What it does after it was woken, and what the kernel threads do, runs with interrupts on.
import JamsOs.Multitask

namespace JamsOs

open Linked

/-! ## Returning and blocking -/

/-- The result goes to the caller, and `isr_handler` comes to its end. -/
def Core.ret (t : Nat) (call : Syscall) (value : Int) (status : Option Int) (c : Core) : Core :=
  isr_return { c.set_pc t .user with
    returns := ⟨c.thread.tid t, call, value, status⟩ :: c.returns }

def Kernel.ret (t : Nat) (call : Syscall) (value : Int) (status : Option Int) (k : Kernel) :
    Kernel :=
  { k with toCore := k.toCore.ret t call value status }

/-- What is stored through a status pointer. -/
def stored (status : Word) (exit_status : Int) : Option Int :=
  if status ≠ 0 then some exit_status else none

/-- Where a blocked thread goes on once it is woken. -/
def Call.resume : Call → Window
  | .wait status => .wait_find status
  | .join tid status => .join_find tid status
  | .lock id mutex => .lock id mutex
  | .getc => .getc

/-! ## Mutexes -/

def find_mutex (owner : Ptr) (id : Nat) (c : Core) : Ptr :=
  c.mutex.list.find? fun m => c.mutex.id m = id ∧ c.mutex.owner_process m = owner

def syscall_mutex_create (mutex : Ptr) (t : Nat) (k : Kernel) : Option Kernel :=
  match mutex with
  | none => some (k.ret t (.mutex_create none) 0 none)
  | some m =>
    if k.mutex.allocated m then none
    else
      let k' := { k with
        mutex := {
          allocated := Function.update k.mutex.allocated m true
          list := m :: k.mutex.list
          id := Function.update k.mutex.id m k.mutex.next_id
          owner_process := Function.update k.mutex.owner_process m (k.thread.owner t)
          owner_thread := Function.update k.mutex.owner_thread m none
          next_id := k.mutex.next_id + 1 }
        links.queues.ends := Function.update k.links.queues.ends (.waiters m) ⟨none, none⟩ }
      some (k'.ret t (.mutex_create (some m)) k.mutex.next_id none)

/-- The loop of `syscall_mutex_lock`, up to the next time the thread blocks. -/
def lock_loop (id t : Nat) (k : Kernel) : Option Kernel :=
  match find_mutex (k.thread.owner t) id k.toCore with
  | none => some (k.ret t (.mutex_lock id) (-1) none)
  | some m =>
    match k.mutex.owner_thread m with
    | none =>
      let owner_thread := Function.update k.mutex.owner_thread m (some t)
      some ({ k with mutex.owner_thread := owner_thread }.ret t (.mutex_lock id) 0 none)
    | some owner =>
      if owner = t then some (k.ret t (.mutex_lock id) (-1) none)
      else PROC_block_on (.waiters m) (.lock id m) t k

def syscall_mutex_lock (id t : Nat) (k : Kernel) : Option Kernel :=
  if k.thread.owner t = none ∨ id = 0 then some (k.ret t (.mutex_lock id) (-1) none)
  else lock_loop id t k

def syscall_mutex_unlock (fuel : Nat) (id t : Nat) (k : Kernel) : Option Kernel :=
  if k.thread.owner t = none ∨ id = 0 then some (k.ret t (.mutex_unlock id) (-1) none)
  else
    match find_mutex (k.thread.owner t) id k.toCore with
    | none => some (k.ret t (.mutex_unlock id) (-1) none)
    | some m =>
      if k.mutex.owner_thread m ≠ some t then some (k.ret t (.mutex_unlock id) (-1) none)
      else do
        let (next_owner, k) ← PROC_unblock_one (.waiters m) fuel k
        let owner_thread := Function.update k.mutex.owner_thread m next_owner
        some ({ k with mutex.owner_thread := owner_thread }.ret t (.mutex_unlock id) 0 none)

def syscall_mutex_destroy (id t : Nat) (k : Kernel) : Option Kernel :=
  if k.thread.owner t = none ∨ id = 0 then some (k.ret t (.mutex_destroy id) (-1) none)
  else
    match find_mutex (k.thread.owner t) id k.toCore with
    | none => some (k.ret t (.mutex_destroy id) (-1) none)
    | some m =>
      if k.mutex.owner_thread m ≠ none ∨ (k.links.queues.ends (.waiters m)).head ≠ none then
        some (k.ret t (.mutex_destroy id) (-1) none)
      else
        let c := free_mutex m (unlink_mutex m k.toCore)
        some ({ k with toCore := c }.ret t (.mutex_destroy id) 0 none)

/-! ## The keyboard -/

def KBD_BUFFER_SIZE : Nat := 16

/-- `keyboard_getchar`, up to the next time the thread blocks. -/
def keyboard_getchar (t : Nat) (k : Kernel) : Option Kernel :=
  match k.kbd_buf with
  | [] => PROC_block_on .kbd_wait_queue .getc t k
  | c :: kbd_buf => some ({ k with kbd_buf := kbd_buf }.ret t .getc c.toInt none)

/-- `sc` is the scancode, and `c` the character for it. One place of the buffer stays empty. -/
def ISR33_keyboard_irq (fuel : Nat) (sc c : BitVec 8) (k : Kernel) : Option Kernel :=
  if sc = 0xF0 ∨ sc = 0xE0 then some k
  else if sc < 0x3A then
    let kbd_buf := if k.kbd_buf.length + 1 < KBD_BUFFER_SIZE then k.kbd_buf ++ [c] else k.kbd_buf
    (PROC_unblock_one .kbd_wait_queue fuel { k with kbd_buf := kbd_buf }).map (·.2)
  else some k

/-! ## Fork, clone, exec -/

/-- A page table that `MMU_create_user_p4` may give. -/
def Core.fresh_p4 (p4 : Word) (c : Core) : Bool :=
  p4 ≠ 0 && p4 ∉ c.p4s && p4 ≠ c.kernel_p4

def syscall_fork (p4 : Word) (process t : Ptr) (kstack : Word) (frame_offset : Nat)
    (parent_thread : Nat) (k : Kernel) : Option Kernel :=
  let ret (value : Int) (k : Kernel) : Option Kernel :=
    some (k.ret parent_thread (.fork p4 process t kstack frame_offset) value none)
  match k.thread.owner parent_thread with
  | none => ret (-1) k
  | some parent =>
    if k.process.cr3 parent = 0 ∨ k.process.cr3 parent = k.kernel_p4 ∨
        k.process.live_threads parent ≠ 1 then ret (-1) k
    else if p4 = 0 then ret (-1) k
    else if !k.fresh_p4 p4 then none
    else
      let k := { k with p4s := p4 :: k.p4s }
      match process with
      | none => ret (-1) { k with toCore := MMU_destroy_p4 p4 k.toCore }
      | some p =>
        if k.process.allocated p then none
        else
          let k := PROC_init_process p (some parent) p4 k
          match t with
          | none =>
            ret (-1) { k with toCore := MMU_destroy_p4 p4 (PROC_free_process p k.toCore) }
          | some t =>
            if k.thread.allocated t then none
            else
              let k := PROC_init_thread t p k
              if kstack = 0 ∨ KSTACK_BYTES ≤ frame_offset then
                ret (-1) { k with
                  toCore := MMU_destroy_p4 p4 (PROC_free_process p (PROC_free_thread t k.toCore)) }
              else do
                let k := { k with thread.kstack := Function.update k.thread.kstack t kstack }
                let k := PROC_link_process_child parent p (PROC_link_thread p t k)
                let k ← PROC_admit t k
                ret (k.process.pid p) k

/-- `syscall_clone` with `CLONE_THREAD`. -/
def clone_thread (fuel : Nat) (stack_top entry : Word) (t : Ptr) (kstack : Word) (c : Nat)
    (k : Kernel) : Option Kernel :=
  let ret (value : Int) (k : Kernel) : Option Kernel :=
    some (k.ret c (.clone stack_top entry t kstack) value none)
  match k.thread.owner c with
  | none => ret (-1) k
  | some owner =>
    if stack_top = 0 ∨ entry = 0 then ret (-1) k
    else if k.process.cr3 owner = 0 ∨ k.process.cr3 owner = k.kernel_p4 then ret (-1) k
    else
      match t with
      | none => ret (-1) k
      | some t =>
        if k.thread.allocated t then none
        else
          let k := PROC_link_thread owner t (PROC_init_thread t owner k)
          if kstack = 0 then do
            let k ← PROC_unlink_thread fuel owner t k
            ret (-1) { k with toCore := PROC_free_thread t (k.drop_live owner) }
          else do
            let k ← PROC_admit t
              { k with thread.kstack := Function.update k.thread.kstack t kstack }
            ret (k.thread.tid t) k

/-- `syscall_exec` up to the call of `elf_load_program`, which has created the page table `p4`, or
has failed before that. -/
def syscall_exec (p4 : Word) (t : Nat) (k : Kernel) : Option Kernel :=
  match k.thread.owner t with
  | none => some (k.ret t (.exec p4) (-1) none)
  | some owner =>
    if k.process.live_threads owner ≠ 1 ∨ p4 = 0 then some (k.ret t (.exec p4) (-1) none)
    else if !k.fresh_p4 p4 then none
    else some { k with toCore := { k.toCore with p4s := p4 :: k.p4s }.set_pc t (.exec_load p4) }

/-- The rest of `syscall_exec`. `ok` tells whether the program was loaded. -/
def exec_loaded (p4 : Word) (ok : Bool) (t : Nat) (k : Kernel) : Option Kernel :=
  if !ok then
    some ({ k with toCore := MMU_destroy_p4 p4 k.toCore }.ret t (.exec p4) (-1) none)
  else
    match k.thread.owner t with
    | none => none
    | some owner =>
      let old_cr3 := k.process.cr3 owner
      let c := { k.toCore with
        process.cr3 := Function.update k.process.cr3 owner p4
        cr3 := p4 }
      let c :=
        if old_cr3 ≠ 0 ∧ old_cr3 ≠ c.kernel_p4 ∧ old_cr3 ≠ p4 then MMU_destroy_p4 old_cr3 c else c
      some ({ k with toCore := c }.ret t (.exec p4) 0 none)

/-! ## Code that runs with interrupts on -/

/-- One stretch of such code in the thread `c`: the place where it goes on, or nothing when it
has come to its end or has blocked. -/
def window_step (fuel : Nat) (c : Nat) : Window → Kernel → Option (Option Window × Kernel)
  | .wait_find status, k => do
    let parent ← k.thread.owner c
    match ← PROC_find_zombie_child fuel parent k with
    | some child => some (some (.wait_found status child), k)
    | none => some (some (.wait_none status), k)
  | .wait_none status, k => do
    let parent ← k.thread.owner c
    if k.links.first_child parent = none then some (none, k.ret c (.wait status) (-1) none)
    else some (some (.wait_block status), k)
  | .wait_block status, k => do
    let parent ← k.thread.owner c
    let k ← PROC_block_on (.wait_child_exit parent) (.wait status) c k
    some (none, k)
  | .wait_found status child, k => do
    let parent ← k.thread.owner c
    let pid := k.process.pid child
    let exit_status := k.process.exit_status child
    let t := k.links.threads child
    match ← seek k.links.next_sibling child fuel none (k.links.first_child parent) with
    | some prev => some (some (.wait_cut status child pid exit_status t prev), k)
    | none => some (some (.wait_free status child pid exit_status t), k)
  | .wait_cut status child pid exit_status t prev, k => do
    let parent ← k.thread.owner c
    some (some (.wait_free status child pid exit_status t), cut_process_child parent prev child k)
  | .wait_free status child pid exit_status t, k => do
    let threads ← trail k.links.next_thread fuel t
    let k := { k with
      toCore := PROC_free_process child (threads.foldl (fun c t => PROC_free_thread t c) k.toCore) }
    some (none, k.ret c (.wait status) pid (stored status exit_status))
  | .join_find tid status, k => do
    let owner ← k.thread.owner c
    match ← PROC_find_thread fuel owner tid k with
    | none => some (none, k.ret c (.thread_join tid status) (-1) none)
    | some target => some (some (.join_test tid status target), k)
  | .join_test tid status target, k =>
    if k.thread.run_state target = .zombie then some (some (.join_found tid status target), k)
    else some (some (.join_block tid status), k)
  | .join_block tid status, k => do
    let owner ← k.thread.owner c
    let k ← PROC_block_on (.wait_thread_exit owner) (.join tid status) c k
    some (none, k)
  | .join_found tid status target, k => do
    let owner ← k.thread.owner c
    let exit_status := k.thread.exit_status target
    match ← seek k.links.next_thread target fuel none (k.links.threads owner) with
    | some prev => some (some (.join_cut tid status target exit_status prev), k)
    | none => some (some (.join_free tid status target exit_status), k)
  | .join_cut tid status target exit_status prev, k => do
    let owner ← k.thread.owner c
    some (some (.join_free tid status target exit_status),
      { k with links := cut_thread owner prev target k.links })
  | .join_free tid status target exit_status, k =>
    some (none, { k with toCore := PROC_free_thread target k.toCore }.ret c
      (.thread_join tid status) tid (stored status exit_status))
  | .lock id m, k => do
    let k ←
      if k.mutex.owner_thread m = some c then some (k.ret c (.mutex_lock id) 0 none)
      else lock_loop id c k
    some (none, k)
  | .getc, k => (keyboard_getchar c k).map (none, ·)
  | .kthread_new t kstack, k =>
    match t with
    | none => some (none, { k with toCore := k.set_pc c .user })
    | some t =>
      if k.thread.allocated t then none
      else some (some (.kthread_link t kstack), PROC_init_thread t kernel_process k)
  | .kthread_link t kstack, k =>
    some (some (.kthread_store t kstack), { k with
      thread.owner := Function.update k.thread.owner t (some kernel_process)
      links.next_thread := Function.update k.links.next_thread t (k.links.threads kernel_process) })
  | .kthread_store t kstack, k =>
    some (some (.kthread_setup t kstack), { k with
      process.live_threads := Function.update k.process.live_threads kernel_process
        (k.process.live_threads kernel_process + 1)
      links.threads := Function.update k.links.threads kernel_process (some t) })
  | .kthread_setup t kstack, k =>
    if kstack = 0 then do
      let k ← PROC_unlink_thread fuel kernel_process t k
      let k := { k with toCore := PROC_free_thread t (k.drop_live kernel_process) }
      some (none, { k with toCore := k.set_pc c .user })
    else do
      let k ← PROC_admit t { k with thread.kstack := Function.update k.thread.kstack t kstack }
      some (none, { k with toCore := k.set_pc c .user })
  | .uthread_new p4 process t kstack, k => do
    let parent ← k.thread.owner c
    match process with
    | none => some (none, { k with toCore := (MMU_destroy_p4 p4 k.toCore).set_pc c .user })
    | some p =>
      if k.process.allocated p then none
      else
        some (some (.uthread_thread p4 parent p t kstack), PROC_init_process p (some parent) p4 k)
  | .uthread_thread p4 parent p t kstack, k =>
    match t with
    | none => some (none, { k with
        toCore := (MMU_destroy_p4 p4 (PROC_free_process p k.toCore)).set_pc c .user })
    | some t =>
      if k.thread.allocated t then none
      else
        let k := PROC_link_thread p t (PROC_init_thread t p k)
        if kstack = 0 then do
          let k ← PROC_unlink_thread fuel p t k
          let freed := PROC_free_process p (PROC_free_thread t (k.drop_live p))
          some (none, { k with toCore := (MMU_destroy_p4 p4 freed).set_pc c .user })
        else
          some (some (.uthread_link parent p t),
            { k with thread.kstack := Function.update k.thread.kstack t kstack })
  | .uthread_link parent p t, k =>
    some (some (.uthread_store parent p t), { k with
      process.parent := Function.update k.process.parent p (some parent)
      links.next_sibling := Function.update k.links.next_sibling p (k.links.first_child parent) })
  | .uthread_store parent p t, k =>
    some (some (.uthread_enter t), { k with
      links.first_child := Function.update k.links.first_child parent (some p) })
  | .uthread_enter t, k => do
    let k ← PROC_admit t k
    some (none, { k with toCore := k.set_pc c .user })

/-- The stretches from one place on to the end, with no interrupt between them. -/
def finish (fuel : Nat) (c : Nat) : Nat → Window → Kernel → Option Kernel
  | 0, _, _ => none
  | n + 1, w, k => do
    match ← window_step fuel c w k with
    | (none, k) => some k
    | (some w, k) => finish fuel c n w k

/-- No code has more stretches. -/
def WINDOW_STEPS : Nat := 8

/-- All that a thread does at one place when nothing interrupts it. -/
def whole_window (fuel : Nat) (c : Nat) (w : Window) (k : Kernel) : Option Kernel :=
  finish fuel c WINDOW_STEPS w k

/-! ## Steps of the system -/

/-- A call of the current thread. The code of `wait` and `thread_join` is the same as after they
are woken, but here interrupts are off. -/
def syscall (fuel : Nat) (t : Nat) : Syscall → Kernel → Option Kernel
  | .yield, k => do
    let k ← PROC_reschedule k
    some (k.ret t .yield 0 none)
  | .exit status, k => do
    let k ← PROC_exit_current_thread fuel status true t k
    some { k with toCore := isr_return k.toCore }
  | .thread_exit status, k => do
    let k ← PROC_exit_current_thread fuel status false t k
    some { k with toCore := isr_return k.toCore }
  | .wait status, k =>
    if k.thread.owner t = none then some (k.ret t (.wait status) (-1) none)
    else whole_window fuel t (.wait_find status) k
  | .thread_join tid status, k =>
    if k.thread.owner t = none ∨ tid = k.thread.tid t then
      some (k.ret t (.thread_join tid status) (-1) none)
    else whole_window fuel t (.join_find tid status) k
  | .fork p4 process new kstack frame_offset, k =>
    syscall_fork p4 process new kstack frame_offset t k
  | .clone stack_top entry new kstack, k => clone_thread fuel stack_top entry new kstack t k
  | .exec p4, k => syscall_exec p4 t k
  | .getc, k => keyboard_getchar t k
  | .mutex_create mutex, k => syscall_mutex_create mutex t k
  | .mutex_lock id, k => syscall_mutex_lock id t k
  | .mutex_unlock id, k => syscall_mutex_unlock fuel id t k
  | .mutex_destroy id, k => syscall_mutex_destroy id t k

/-- What can happen. `run` is all that the current thread does at its place in the kernel when it
is not interrupted, and `slice` is one stretch of it, so that an interrupt may come next. -/
inductive Event where
  | timer
  | key (sc c : BitVec 8)
  | call (s : Syscall)
  | run
  | slice
  | create_kthread (t : Ptr) (kstack : Word)
  | elf_load (p4 : Word)
  | loaded (ok : Bool) (process t : Ptr) (kstack : Word)
  deriving DecidableEq

/-- The kernel threads only yield and exit. -/
def Core.may_call (c : Core) (t : Nat) (s : Syscall) : Bool :=
  c.thread.owner t ≠ some kernel_process ||
    match s with
    | .yield => true
    | .exit _ => true
    | _ => false

def step (fuel : Nat) (e : Event) (k : Kernel) : Option Kernel := do
  let c ← k.curr_proc
  match e, k.thread.pc c with
  | .timer, _ => do
    let k ← PROC_reschedule k
    some { k with toCore := isr_return k.toCore }
  | .key sc ch, _ => do
    let k ← ISR33_keyboard_irq fuel sc ch k
    some { k with toCore := isr_return k.toCore }
  | .call s, .user => if k.may_call c s then syscall fuel c s k else none
  | .run, .yield call => do
    let k ← PROC_reschedule { k with toCore := k.set_pc c (.window call.resume) }
    some { k with toCore := isr_return k.toCore }
  | .run, .window w => whole_window fuel c w k
  | .slice, .window w => do
    match ← window_step fuel c w k with
    | (none, k) => some k
    | (some w, k) => some { k with toCore := k.set_pc c (.window w) }
  | .create_kthread t kstack, .user =>
    if k.thread.owner c = some kernel_process then
      some { k with toCore := k.set_pc c (.window (.kthread_new t kstack)) }
    else none
  | .elf_load p4, .user =>
    if k.thread.owner c = some kernel_process ∧ k.fresh_p4 p4 then
      some { k with toCore := { k.toCore with p4s := p4 :: k.p4s }.set_pc c (.elf_load p4) }
    else none
  | .loaded ok process t kstack, .elf_load p4 =>
    if ok then some { k with toCore := k.set_pc c (.window (.uthread_new p4 process t kstack)) }
    else some { k with toCore := (MMU_destroy_p4 p4 k.toCore).set_pc c .user }
  | .loaded ok _ _ _, .exec_load p4 => exec_loaded p4 ok c k
  | _, _ => none

/-! ## The start -/

/-- The kernel when `PROC_run` comes to its `yield()`: the main thread runs, and there are no other
threads. -/
def started (kernel_p4 : Word) : Kernel where
  thread := {
    allocated := fun t => t = main_thread
    tid := fun _ => 0
    owner := fun _ => some kernel_process
    run_state := fun _ => .running
    exit_status := fun _ => 0
    kstack := fun _ => 0
    pc := fun _ => .user }
  process := {
    allocated := fun p => p = kernel_process
    pid := fun _ => 0
    cr3 := fun _ => kernel_p4
    parent := fun _ => none
    live_threads := fun _ => 1
    exit_status := fun _ => 0
    exiting := fun _ => false
    zombie := fun _ => false }
  mutex := ⟨fun _ => false, [], fun _ => 0, fun _ => none, fun _ => none, 1⟩
  curr_proc := some main_thread
  next_proc := some main_thread
  next_pid := 1
  next_tid := 2
  kbd_buf := []
  kernel_p4 := kernel_p4
  p4s := []
  cr3 := kernel_p4
  rsp0 := 0
  returns := []
  since := fun _ => 0
  clock := 0
  links := {
    ring := .empty
    queues := ⟨fun _ => ⟨none, none⟩, fun _ => none⟩
    threads := fun p => if p = kernel_process then some main_thread else none
    next_thread := fun _ => none
    first_child := fun _ => none
    next_sibling := fun _ => none }

end JamsOs
