-- The moves of the kernel: what one step can do to the records and to the queues, with the lists
-- behind the pointers taken as known. A step in which no code is interrupted is a move, and keeps
-- the books.
import JamsOs.KernelExit
import JamsOs.KernelBirth

namespace JamsOs

open Linked

/-! ## The effects of single functions on the records -/

/-- A thread `u` of `p` has come to be. -/
def Core.spawned (u p : Nat) (kstack : Word) (c : Core) : Core :=
  { c with
    thread := {
      allocated := Function.update c.thread.allocated u true
      tid := Function.update c.thread.tid u c.next_tid
      owner := Function.update c.thread.owner u (some p)
      run_state := Function.update c.thread.run_state u .ready
      exit_status := Function.update c.thread.exit_status u 0
      kstack := Function.update c.thread.kstack u kstack
      pc := Function.update c.thread.pc u .user }
    process.live_threads :=
      Function.update c.process.live_threads p (c.process.live_threads p + 1)
    next_tid := c.next_tid + 1 }

/-- A process `p` under `parent` has come to be. -/
def Core.with_child (parent p : Nat) (cr3 : Word) (c : Core) : Core :=
  { c with
    process := {
      allocated := Function.update c.process.allocated p true
      pid := Function.update c.process.pid p c.next_pid
      cr3 := Function.update c.process.cr3 p cr3
      parent := Function.update c.process.parent p (some parent)
      live_threads := Function.update c.process.live_threads p 0
      exit_status := Function.update c.process.exit_status p 0
      exiting := Function.update c.process.exiting p false
      zombie := Function.update c.process.zombie p false }
    next_pid := c.next_pid + 1 }

/-- Memory for a thread was written and given back. -/
def Core.thread_dropped (u p : Nat) (c : Core) : Core :=
  { c.spawned u p 0 with
    thread.allocated := c.thread.allocated
    process.live_threads := c.process.live_threads }

/-- Memory for a process was written and given back. -/
def Core.process_dropped (p parent : Nat) (cr3 : Word) (c : Core) : Core :=
  { c.with_child parent p cr3 with process.allocated := c.process.allocated }

theorem Kernel.spawned_core (u p : Nat) (kstack : Word) (k : Kernel) :
    (k.spawned u p kstack).toCore = k.toCore.spawned u p kstack := by
  simp only [Kernel.spawned, PROC_link_thread, PROC_init_thread, Core.spawned, Function.update_idem]

theorem Kernel.with_child_core (parent p : Nat) (cr3 : Word) (k : Kernel) :
    (k.with_child parent p cr3).toCore = k.toCore.with_child parent p cr3 := by
  simp only [Kernel.with_child, PROC_link_process_child, PROC_init_process, Core.with_child,
    Function.update_idem]

theorem Kernel.thread_dropped_core (u p : Nat) (k : Kernel) :
    (k.thread_dropped u p).toCore = k.toCore.thread_dropped u p := rfl

theorem Kernel.process_dropped_core (p parent : Nat) (cr3 : Word) (k : Kernel) :
    (k.process_dropped p parent cr3).toCore = k.toCore.process_dropped p parent cr3 := rfl

/-- A zombie child is freed, with its threads. -/
def Core.child_reaped (child : Nat) (ts : List Nat) (c : Core) : Core :=
  PROC_free_process child
    ({ c with process.parent := Function.update c.process.parent child none }.threads_freed ts)

theorem Kernel.child_reaped_core (parent : Nat) (prev : Ptr) (child : Nat) (ts : List Nat)
    (k : Kernel) : (k.child_reaped parent prev child ts).toCore = k.toCore.child_reaped child ts := by
  cases prev <;> rfl

/-- The state with a new mutex of `owner`. -/
def Core.with_mutex (m : Nat) (owner : Ptr) (c : Core) : Core :=
  { c with
    mutex := {
      allocated := Function.update c.mutex.allocated m true
      list := m :: c.mutex.list
      id := Function.update c.mutex.id m c.mutex.next_id
      owner_process := Function.update c.mutex.owner_process m owner
      owner_thread := Function.update c.mutex.owner_thread m none
      next_id := c.mutex.next_id + 1 } }

/-- What is left of a creation that failed. -/
inductive Core.Dropped (c : Core) : Core → Prop
  | nothing : Dropped c c
  | process (p parent : Nat) (cr3 : Word) (hp : ¬c.process.allocated p) :
      Dropped c (c.process_dropped p parent cr3)
  | both (p parent : Nat) (cr3 : Word) (u : Nat) (hp : ¬c.process.allocated p)
      (hu : ¬c.thread.allocated u) : Dropped c ((c.process_dropped p parent cr3).thread_dropped u p)

/-- What `PROC_reschedule` may pick: a thread that can run, and another one than the current thread
when there is another. -/
def Core.Picks (c : Core) (candidate : Ptr) : Prop :=
  candidate = none ∧ (∀ x, ¬c.Runnable x) ∨
    ∃ x, candidate = some x ∧ c.Runnable x ∧
      ((∃ y, c.Runnable y ∧ some y ≠ c.curr_proc) → some x ≠ c.curr_proc)

/-- Why a thread `t` blocks in a call. -/
def Core.MustWait (c : Core) (t : Nat) : Call → Prop
  | .wait _ => ∀ child, c.process.allocated child → child ≠ kernel_process →
      c.process.parent child = c.thread.owner t → c.process.zombie child = false
  | .join tid _ => ∃ target, c.thread.allocated target ∧
      c.thread.owner target = c.thread.owner t ∧ c.thread.tid target = tid ∧
      c.thread.run_state target ≠ .zombie
  | .lock id m => m ∈ c.mutex.list ∧ c.mutex.id m = id ∧
      c.mutex.owner_process m = c.thread.owner t ∧
      ∃ o, c.mutex.owner_thread m = some o ∧ o ≠ t
  | .getc => c.kbd_buf = []

/-- The current thread has gone on the queue for the call. -/
def Core.blocked_in (t : Nat) (call : Call) (c : Core) : Core :=
  { c.set_run_state t .blocked with
    thread.pc := Function.update c.thread.pc t (.yield call)
    since := Function.update c.since t c.clock
    clock := c.clock + 1 }

/-! ## The moves -/

/-- User code is at the place, or a call other than `getc` goes on there. -/
def Pc.Runs : Pc → Prop
  | .user => True
  | .window w => w.call.any (· ≠ .getc)
  | _ => False

/-- User code is at the place, or `getc` goes on there. -/
def Pc.Reads (pc : Pc) : Prop := pc = .user ∨ pc = .window .getc

/-- The call begins with the step, or goes on at the place. -/
def Call.From (e : Event) (pc : Pc) : Call → Prop
  | .wait status => pc = .user ∧ e = .call (.wait status) ∨ pc = .window (.wait_find status)
  | .join tid status =>
    pc = .user ∧ e = .call (.thread_join tid status) ∨ pc = .window (.join_find tid status)
  | .lock id _ => pc = .user ∧ e = .call (.mutex_lock id) ∨ ∃ m, pc = .window (.lock id m)
  | .getc => pc.Reads

/-- The thread that a place in the code is about to create. -/
def Window.new_thread : Window → Ptr
  | .kthread_new t _ => t
  | .uthread_new _ _ t _ => t
  | .uthread_thread _ _ _ t _ => t
  | _ => none

/-- The address that a step gives to a new thread. -/
def new_thread (e : Event) (c : Core) : Ptr :=
  match e, c.curr_proc.map c.thread.pc with
  | .call (.fork _ _ t _ _), _ => t
  | .call (.clone _ _ t _), _ => t
  | .run, some (.window w) => w.new_thread
  | .slice, some (.window w) => w.new_thread
  | _, _ => none

/-- The current thread `t` stops running: it blocks, or it ends alone or with its process. -/
inductive Stop (e : Event) (c : Core) (Q : QueueRef → List Nat) (t : Nat) :
    Core → (QueueRef → List Nat) → Prop
  | block {q : QueueRef} {call : Call} (hpc : call.From e (c.thread.pc t))
      (huser : c.thread.owner t ≠ some kernel_process)
      (hq : call.queue (c.thread.owner t) = some q) (hwait : c.MustWait t call) :
      Stop e c Q t (c.blocked_in t call) (Function.update Q q (Q q ++ [t]))
  | exit_thread {candidate : Ptr} {p : Nat} {status : Int} (hpc : c.thread.pc t = .user)
      (hmain : t ≠ main_thread) (ho : c.thread.owner t = some p)
      (he : e = .call (.thread_exit status) ∨ p = kernel_process)
      (hlive : 1 < c.process.live_threads p)
      (hpick : { (c.thread_killed t p status).all_woken (Q (.wait_thread_exit p)) with
        curr_proc := none }.Picks candidate) :
      Stop e c Q t (isr_return ({ (c.thread_killed t p status).all_woken (Q (.wait_thread_exit p))
        with curr_proc := none }.elect candidate)) (Function.update Q (.wait_thread_exit p) [])
  | exit_process {candidate : Ptr} {p parent : Nat} {status : Int} {c1 : Core}
      {Q' : QueueRef → List Nat} (hpc : c.thread.pc t = .user) (hmain : t ≠ main_thread)
      (ho : c.thread.owner t = some p) (hp : p ≠ kernel_process)
      (hc1 : c1 = c.process_killed p status ∧ e = .call (.exit status) ∨
        c1 = c.thread_killed t p status ∧ c.process.live_threads p = 1)
      (hparent : c.process.parent p = some parent)
      (hpick : { (c1.torn_down p status).all_woken (Q (.wait_child_exit parent)) with
        curr_proc := none }.Picks candidate)
      (hQp : Q' (.wait_child_exit parent) = []) (hQt : Q' (.wait_thread_exit p) = [])
      (hQ : ∀ q, Q' q = Q q ∨ Q' q = []) :
      Stop e c Q t (isr_return ({ (c1.torn_down p status).all_woken (Q (.wait_child_exit parent)) with
        curr_proc := none }.elect candidate)) Q'

/-- What the step `e` of the kernel can do when the current thread is `t`. -/
inductive Move (e : Event) (c : Core) (Q : QueueRef → List Nat) (t : Nat) :
    Core → (QueueRef → List Nat) → Prop
  | stop {c' : Core} {Q' : QueueRef → List Nat} (h : Stop e c Q t c' Q') : Move e c Q t c' Q'
  | timer {candidate : Ptr} (hpick : c.Picks candidate) :
      Move e c Q t (isr_return (c.elect candidate)) Q
  | key_ignored : Move e c Q t (isr_return c) Q
  | key {kbd_buf : List (BitVec 8)} {r : Ptr} {dead rest : List Nat}
      (hbuf : kbd_buf = c.kbd_buf ∨ ∃ ch, kbd_buf = c.kbd_buf ++ [ch])
      (hQ : Q .kbd_wait_queue = dead ++ r.toList ++ rest)
      (hdead : ∀ x ∈ dead, c.thread.run_state x = .zombie) (hnone : r = none → rest = [])
      (hsome : ∀ x, r = some x → c.thread.run_state x = .blocked) :
      Move e c Q t (isr_return ({ c with kbd_buf := kbd_buf }.woken r))
        (Function.update Q .kbd_wait_queue rest)
  | yield {candidate : Ptr} (hpc : c.thread.pc t = .user) (hpick : c.Picks candidate) :
      Move e c Q t ((c.elect candidate).ret t .yield 0 none) Q
  | resume {candidate : Ptr} {call : Call} (hpc : c.thread.pc t = .yield call)
      (hpick : c.Picks candidate) :
      Move e c Q t (isr_return ((c.set_pc t (.window call.resume)).elect candidate)) Q
  | fails {call : Syscall} {value : Int} (hpc : (c.thread.pc t).Runs)
      (hvalue : value = -1 ∨ call = .mutex_create none ∧ value = 0) :
      Move e c Q t (c.ret t call value none) Q
  | wait {status : Word} {p child : Nat} {ts : List Nat} (hpc : (c.thread.pc t).Runs)
      (hfrom : (Call.wait status).From e (c.thread.pc t))
      (ho : c.thread.owner t = some p) (hchild : c.process.allocated child)
      (hne : child ≠ kernel_process) (hparent : c.process.parent child = some p)
      (hz : c.process.zombie child)
      (hts : ∀ x, x ∈ ts ↔ c.thread.allocated x ∧ c.thread.owner x = some child) :
      Move e c Q t ((c.child_reaped child ts).ret t (.wait status) (c.process.pid child)
        (stored status (c.process.exit_status child))) Q
  | join {status : Word} {p target : Nat} (hpc : (c.thread.pc t).Runs)
      (hfrom : (Call.join (c.thread.tid target) status).From e (c.thread.pc t))
      (ho : c.thread.owner t = some p) (htarget : c.thread.allocated target)
      (hto : c.thread.owner target = some p) (hz : c.thread.run_state target = .zombie) :
      Move e c Q t ((PROC_free_thread target c).ret t
        (.thread_join (c.thread.tid target) status) (c.thread.tid target)
        (stored status (c.thread.exit_status target))) Q
  | getc {ch : BitVec 8} {kbd_buf : List (BitVec 8)} (hpc : (c.thread.pc t).Reads)
      (hbuf : c.kbd_buf = ch :: kbd_buf) :
      Move e c Q t ({ c with kbd_buf := kbd_buf }.ret t .getc ch.toInt none) Q
  | mutex_create {m : Nat} (hpc : c.thread.pc t = .user)
      (huser : c.thread.owner t ≠ some kernel_process) (hm : ¬c.mutex.allocated m) :
      Move e c Q t ((c.with_mutex m (c.thread.owner t)).ret t (.mutex_create (some m))
        c.mutex.next_id none) (Function.update Q (.waiters m) [])
  | lock {m : Nat} (hpc : (c.thread.pc t).Runs) (hm : m ∈ c.mutex.list)
      (ho : c.mutex.owner_process m = c.thread.owner t) (hfree : c.mutex.owner_thread m = none) :
      Move e c Q t ({ c with
        mutex.owner_thread := Function.update c.mutex.owner_thread m (some t) }.ret t
          (.mutex_lock (c.mutex.id m)) 0 none) Q
  | lock_handed {id m : Nat} (hpc : c.thread.pc t = .window (.lock id m))
      (hown : c.mutex.owner_thread m = some t) : Move e c Q t (c.ret t (.mutex_lock id) 0 none) Q
  | unlock {m : Nat} {r : Ptr} {dead rest : List Nat} (hpc : c.thread.pc t = .user)
      (hm : m ∈ c.mutex.list) (ho : c.mutex.owner_process m = c.thread.owner t)
      (hown : c.mutex.owner_thread m = some t) (hQ : Q (.waiters m) = dead ++ r.toList ++ rest)
      (hdead : ∀ x ∈ dead, c.thread.run_state x = .zombie) (hnone : r = none → rest = [])
      (hsome : ∀ x, r = some x → c.thread.run_state x = .blocked) :
      Move e c Q t ({ c.woken r with
        mutex.owner_thread := Function.update c.mutex.owner_thread m r }.ret t
          (.mutex_unlock (c.mutex.id m)) 0 none) (Function.update Q (.waiters m) rest)
  | mutex_destroy {m : Nat} (hpc : c.thread.pc t = .user) (hm : m ∈ c.mutex.list)
      (ho : c.mutex.owner_process m = c.thread.owner t) (hfree : c.mutex.owner_thread m = none)
      (hempty : Q (.waiters m) = []) :
      Move e c Q t ((free_mutex m (unlink_mutex m c)).ret t (.mutex_destroy (c.mutex.id m)) 0 none) Q
  | clone {stack_top entry kstack : Word} {u p : Nat} (hpc : c.thread.pc t = .user)
      (ho : c.thread.owner t = some p) (hp : p ≠ kernel_process) (hu : ¬c.thread.allocated u)
      (hnew : new_thread e c = some u) (hk : u ∉ Q .kbd_wait_queue) (hks : kstack ≠ 0) :
      Move e c Q t ((c.spawned u p kstack).ret t (.clone stack_top entry (some u) kstack)
        c.next_tid none) Q
  | clone_fails {stack_top entry kstack : Word} {u p : Nat} (hpc : c.thread.pc t = .user)
      (hu : ¬c.thread.allocated u) (hk : u ∉ Q .kbd_wait_queue) :
      Move e c Q t ((c.thread_dropped u p).ret t (.clone stack_top entry (some u) kstack) (-1) none) Q
  | create_kthread {new : Ptr} {kstack : Word} (hpc : c.thread.pc t = .user)
      (ho : c.thread.owner t = some kernel_process) :
      Move e c Q t (c.set_pc t (.window (.kthread_new new kstack))) Q
  | no_kthread {new : Ptr} {kstack : Word} (hpc : c.thread.pc t = .window (.kthread_new new kstack)) :
      Move e c Q t (c.set_pc t .user) Q
  | kthread {kstack : Word} {u : Nat} (hpc : c.thread.pc t = .window (.kthread_new (some u) kstack))
      (hu : ¬c.thread.allocated u) (hnew : new_thread e c = some u) (hk : u ∉ Q .kbd_wait_queue)
      (hks : kstack ≠ 0) :
      Move e c Q t ((c.spawned u kernel_process kstack).set_pc t .user) Q
  | kthread_fails {kstack : Word} {u : Nat}
      (hpc : c.thread.pc t = .window (.kthread_new (some u) kstack)) (hu : ¬c.thread.allocated u)
      (hk : u ∉ Q .kbd_wait_queue) :
      Move e c Q t ((c.thread_dropped u kernel_process).set_pc t .user) Q
  | fork {p4 kstack : Word} {frame_offset parent p u : Nat} (hpc : c.thread.pc t = .user)
      (ho : c.thread.owner t = some parent) (hparent : parent ≠ kernel_process)
      (hp4 : c.fresh_p4 p4) (hp : ¬c.process.allocated p) (hu : ¬c.thread.allocated u)
      (hnew : new_thread e c = some u) (hk : u ∉ Q .kbd_wait_queue) (hks : kstack ≠ 0) :
      Move e c Q t ((({ c with p4s := p4 :: c.p4s }.with_child parent p p4).spawned u p kstack).ret t
        (.fork p4 (some p) (some u) kstack frame_offset) c.next_pid none) (with_process Q p)
  | fork_fails {p4 kstack : Word} {process u : Ptr} {frame_offset : Nat} {c1 : Core}
      (hpc : c.thread.pc t = .user) (hp4 : c.fresh_p4 p4)
      (hc1 : Core.Dropped { c with p4s := p4 :: c.p4s } c1) :
      Move e c Q t ((MMU_destroy_p4 p4 c1).ret t (.fork p4 process u kstack frame_offset) (-1) none) Q
  | exec {p4 : Word} {p : Nat} (hpc : c.thread.pc t = .user) (ho : c.thread.owner t = some p)
      (hp : p ≠ kernel_process) (hlive : c.process.live_threads p = 1) (hp4 : c.fresh_p4 p4) :
      Move e c Q t ({ c with p4s := p4 :: c.p4s }.set_pc t (.exec_load p4)) Q
  | exec_fails {p4 : Word} (hpc : c.thread.pc t = .exec_load p4) :
      Move e c Q t ((MMU_destroy_p4 p4 c).ret t (.exec p4) (-1) none) Q
  | exec_done {p4 : Word} {p : Nat} {c1 : Core} (hpc : c.thread.pc t = .exec_load p4)
      (ho : c.thread.owner t = some p)
      (hc1 : c1 = { c with process.cr3 := Function.update c.process.cr3 p p4, cr3 := p4 }) :
      Move e c Q t ((if c.process.cr3 p ≠ 0 ∧ c.process.cr3 p ≠ c.kernel_p4 ∧ c.process.cr3 p ≠ p4
        then MMU_destroy_p4 (c.process.cr3 p) c1 else c1).ret t (.exec p4) 0 none) Q
  | elf_load {p4 : Word} (hpc : c.thread.pc t = .user)
      (ho : c.thread.owner t = some kernel_process) (hp4 : c.fresh_p4 p4) :
      Move e c Q t ({ c with p4s := p4 :: c.p4s }.set_pc t (.elf_load p4)) Q
  | elf_fails {p4 : Word} (hpc : c.thread.pc t = .elf_load p4) :
      Move e c Q t ((MMU_destroy_p4 p4 c).set_pc t .user) Q
  | elf_loaded {p4 kstack : Word} {process new : Ptr} (hpc : c.thread.pc t = .elf_load p4) :
      Move e c Q t (c.set_pc t (.window (.uthread_new p4 process new kstack))) Q
  | uthread {p4 kstack : Word} {parent p u : Nat}
      (hpc : c.thread.pc t = .window (.uthread_new p4 (some p) (some u) kstack))
      (ho : c.thread.owner t = some parent) (hp : ¬c.process.allocated p)
      (hu : ¬c.thread.allocated u) (hnew : new_thread e c = some u) (hk : u ∉ Q .kbd_wait_queue)
      (hks : kstack ≠ 0) :
      Move e c Q t (((c.with_child parent p p4).spawned u p kstack).set_pc t .user) (with_process Q p)
  | uthread_fails {p4 kstack : Word} {process new : Ptr} {c1 : Core}
      (hpc : c.thread.pc t = .window (.uthread_new p4 process new kstack))
      (hc1 : c.Dropped c1) :
      Move e c Q t ((MMU_destroy_p4 p4 c1).set_pc t .user) Q

/-! ## The current thread -/

/-- The places at which a thread may be when no code that runs with interrupts on was
interrupted. -/
def Window.IsStart : Window → Prop
  | .wait_find _ => True
  | .join_find _ _ => True
  | .lock _ _ => True
  | .getc => True
  | .kthread_new _ _ => True
  | .uthread_new _ _ _ _ => True
  | _ => False

/-- What holds of the places of all threads. -/
structure Placed (c : Core) : Prop where
  kernel_pc : ∀ t, c.thread.allocated t → c.thread.owner t = some kernel_process →
    (c.thread.pc t).call = none
  start : ∀ t, c.thread.allocated t → ∀ w, c.thread.pc t = .window w → w.IsStart

/-- What holds of the current thread and of the places of all threads. -/
structure Cpu (c : Core) : Prop extends Placed c where
  curr : ∃ t, c.curr_proc = some t ∧ c.thread.allocated t ∧ c.thread.run_state t ≠ .zombie
  next : c.next_proc = none ∨ c.next_proc = c.curr_proc
  running : ∀ t, c.thread.allocated t → c.thread.run_state t = .running → c.curr_proc = some t
  active : ∀ t, c.curr_proc = some t → t ≠ main_thread →
    c.thread.run_state t = .running ∨ ∃ call, c.thread.pc t = .yield call

theorem Cpu.alive {c : Core} {t : Nat} (hcpu : Cpu c) (ht : c.curr_proc = some t) :
    c.thread.allocated t ∧ c.thread.run_state t ≠ .zombie := by
  obtain ⟨t', ht', hlive⟩ := hcpu.curr
  obtain rfl : t = t' := Option.some.inj (ht.symm.trans ht')
  exact hlive

theorem started_cpu (kernel_p4 : Word) : Cpu (started kernel_p4).toCore where
  curr := ⟨main_thread, rfl, rfl, nofun⟩
  next := Or.inr rfl
  running t ht _ := by rw [of_decide_eq_true ht]; rfl
  active t ht hne := absurd (Option.some.inj ht).symm hne
  kernel_pc _ _ _ := rfl
  start _ _ _ hw := nomatch hw

/-! ## Every step is a move -/

variable {tidy : Prop} {e : Event} {k k' : Kernel} {Q : QueueRef → List Nat} {dying : Ptr}
  {t p fuel : Nat} {q : QueueRef}

theorem Core.elect_reassigns {c : Core} {candidate : Ptr} (hpick : c.Picks candidate) (x : Nat) :
    (c.elect candidate).thread.run_state x = c.thread.run_state x ∨
      (c.thread.run_state x = .ready ∨ c.thread.run_state x = .running) ∧
      ((c.elect candidate).thread.run_state x = .ready ∨
        (c.elect candidate).thread.run_state x = .running) := by
  have hpre : c.preempt.thread.run_state x = c.thread.run_state x ∨
      c.thread.run_state x = .running ∧ c.preempt.thread.run_state x = .ready := by
    unfold Core.preempt
    cases c.curr_proc with
    | none => exact Or.inl rfl
    | some y =>
      simp only
      split
      · rename_i hy
        by_cases hx : x = y
        · subst hx
          exact Or.inr ⟨hy, Function.update_self _ _ _⟩
        · exact Or.inl (Function.update_of_ne hx _ _)
      · exact Or.inl rfl
  rcases hpick with ⟨rfl, _⟩ | ⟨y, rfl, hy, _⟩
  · exact Or.inl rfl
  · simp only [Core.elect, Core.set_run_state]
    by_cases hx : x = y
    · subst hx
      exact Or.inr ⟨hy.2.2, Or.inr (Function.update_self _ _ _)⟩
    · rw [Function.update_of_ne hx]
      rcases hpre with he | ⟨h1, h2⟩
      · exact Or.inl he
      · exact Or.inr ⟨Or.inr h1, Or.inl h2⟩

theorem Core.preempt_frame (c : Core) :
    ∃ run_state, c.preempt = { c with thread.run_state := run_state } := by
  unfold Core.preempt
  split
  · exact ⟨c.thread.run_state, rfl⟩
  · split
    · exact ⟨_, rfl⟩
    · exact ⟨c.thread.run_state, rfl⟩

/-- Only run states and `next_proc` change when the next thread is picked. -/
theorem Core.elect_frame (c : Core) (candidate : Ptr) : c.elect candidate =
    { c with
      thread.run_state := (c.elect candidate).thread.run_state
      next_proc := some (candidate.getD main_thread) } := by
  cases candidate with
  | none => rfl
  | some x =>
    obtain ⟨run_state, hpre⟩ := c.preempt_frame
    simp only [Core.elect, hpre]
    rfl

theorem PROC_reschedule.spec (h : Books tidy k Q dying) (hrun : PROC_reschedule k = some k') :
    ∃ candidate, k.Picks candidate ∧ k'.toCore = k.elect candidate ∧ Books tidy k' Q dying := by
  obtain ⟨candidate, ring, hpick, hring, hcand⟩ := pick_candidate.spec h.ring k.curr_proc
  simp only [PROC_reschedule, hpick, Option.bind_eq_bind, Option.bind_some,
    Option.some.injEq] at hrun
  subst hrun
  refine ⟨candidate, hcand, rfl, ?_⟩
  have h' := h.reassign (Core.elect_reassigns hcand)
  rw [Core.elect_frame]
  exact { h' with
    ring := hring.congr fun x => by
      have := Core.elect_reassigns hcand x
      simp only [Core.Runnable]
      rcases this with he | ⟨h1, h2⟩
      · rw [he]
      · simp only [h1, h2] }

/-- The step from `k` to `k'` is a move, and keeps the books. -/
def Moves (tidy : Prop) (e : Event) (k : Kernel) (Q : QueueRef → List Nat) (t : Nat) (k' : Kernel) :
    Prop :=
  ∃ Q', Move e k.toCore Q t k'.toCore Q' ∧ Books tidy k' Q' none

/-- The thread `t` of `p` is alive and on no queue. -/
structure OnCpu (k : Kernel) (Q : QueueRef → List Nat) (t p : Nat) : Prop where
  allocated : k.thread.allocated t
  owner : k.thread.owner t = some p
  process : k.process.allocated p
  exiting : k.process.exiting p = false
  zombie : k.process.zombie p = false
  alive : k.thread.run_state t ≠ .zombie
  free : ∀ q, k.LiveQueue q → t ∉ Q q
  busy : ∀ call, k.thread.pc t ≠ .yield call

/-- The thread `t` of `p` runs user code, or goes on with a call other than `getc`. -/
structure AtWork (k : Kernel) (Q : QueueRef → List Nat) (t p : Nat) : Prop extends OnCpu k Q t p where
  runs : (k.thread.pc t).Runs

/-- The current thread is on no queue when it does not come to a `yield()`. -/
theorem Cpu.free (hcpu : Cpu k.toCore) (h : Books tidy k Q dying) (ht : k.curr_proc = some t)
    (hpc : ∀ call, k.thread.pc t ≠ .yield call) (hq : k.LiveQueue q) : t ∉ Q q := by
  refine h.notMem_queue hq (hcpu.alive ht).2 ?_
  by_cases hmain : t = main_thread
  · subst hmain
    rcases h.main_state with hs | hs <;> rw [hs] <;> nofun
  · rcases hcpu.active t ht hmain with hs | ⟨call, hc⟩
    · rw [hs]
      nofun
    · exact absurd hc (hpc call)

theorem Cpu.on_cpu (hcpu : Cpu k.toCore) (h : Books tidy k Q none) (ht : k.curr_proc = some t)
    (hpc : ∀ call, k.thread.pc t ≠ .yield call) : ∃ p, OnCpu k Q t p := by
  obtain ⟨ha, hz⟩ := hcpu.alive ht
  obtain ⟨p, ho, hp⟩ := h.owner t ha
  have hex : k.process.exiting p = false := by
    by_contra hex
    exact hz (h.exiting p hp (by simpa using hex) t ha ho)
  have hpz : k.process.zombie p = false := by
    by_contra hpz
    rw [h.zombie_exiting p hp (by simpa using hpz)] at hex
    cases hex
  exact ⟨p, ha, ho, hp, hex, hpz, hz, fun q hq => hcpu.free h ht hpc hq, hpc⟩

/-- The current thread is at work when it runs code. -/
theorem Cpu.at_work (hcpu : Cpu k.toCore) (h : Books tidy k Q none) (ht : k.curr_proc = some t)
    (hruns : (k.thread.pc t).Runs) : ∃ p, AtWork k Q t p := by
  obtain ⟨p, hw⟩ := hcpu.on_cpu h ht (by
    intro call hc
    rw [hc] at hruns
    exact hruns)
  exact ⟨p, hw, hruns⟩

/-- The current thread runs, unless it is the idle thread. -/
theorem OnCpu.run_state (hw : OnCpu k Q t p) (hcpu : Cpu k.toCore) (ht : k.curr_proc = some t)
    (hmain : t ≠ main_thread) : k.thread.run_state t = .running :=
  (hcpu.active t ht hmain).resolve_right fun ⟨call, hc⟩ => hw.busy call hc

theorem OnCpu.ne_main (hw : OnCpu k Q t p) (h : Books tidy k Q none) (hp : p ≠ kernel_process) :
    t ≠ main_thread := by
  rintro rfl
  have ho := hw.owner
  rw [h.main_owner] at ho
  exact hp (Option.some.inj ho).symm

theorem OnCpu.not_kernel (hw : OnCpu k Q t p) (hp : p ≠ kernel_process) :
    k.thread.owner t ≠ some kernel_process := by
  rw [hw.owner]
  exact fun ho => hp (Option.some.inj ho)

/-- The current thread of a user process runs. -/
theorem OnCpu.running (hw : OnCpu k Q t p) (hcpu : Cpu k.toCore) (h : Books tidy k Q none)
    (ht : k.curr_proc = some t) (hp : p ≠ kernel_process) : k.thread.run_state t = .running :=
  hw.run_state hcpu ht (hw.ne_main h hp)

theorem AtWork.fails (hw : AtWork k Q t p) (h : Books tidy k Q none) (call : Syscall) (value : Int)
    (hvalue : value = -1 ∨ call = .mutex_create none ∧ value = 0) :
    Moves tidy e k Q t (k.ret t call value none) :=
  ⟨Q, .fails hw.runs hvalue, h.ret hw.free call value none⟩

/-- The thread runs and blocks. -/
theorem OnCpu.blocks (hw : OnCpu k Q t p) (h : Books tidy k Q none) (hp : p ≠ kernel_process)
    (hrun : k.thread.run_state t = .running) {call : Call} (hq : k.LiveQueue q)
    (hcall : call.queue (k.thread.owner t) = some q) (hwait : k.MustWait t call)
    (hpc : call.From e (k.thread.pc t))
    (hblock : PROC_block_on q call t k = some k') : Moves tidy e k Q t k' := by
  obtain ⟨k1, hk1, hcore, hbooks⟩ := h.block hq hw.allocated (hw.ne_main h hp) hrun hcall (by
    rintro m rfl
    cases call with
    | lock id m' =>
      simp only [Call.queue, Option.some.injEq, QueueRef.waiters.injEq] at hcall
      subst hcall
      exact hwait.2.2.1.symm
    | wait status =>
      rw [Call.queue, hw.owner] at hcall
      cases hcall
    | join tid status =>
      rw [Call.queue, hw.owner] at hcall
      cases hcall
    | getc => cases hcall)
  rw [hblock] at hk1
  cases hk1
  refine ⟨_, ?_, hbooks⟩
  rw [hcore]
  exact .stop (.block hpc (hw.not_kernel hp) hcall hwait)

/-! ### Mutexes -/

theorem find_mutex.spec {owner : Ptr} {id m : Nat} {c : Core} (hfind : find_mutex owner id c = some m) :
    m ∈ c.mutex.list ∧ c.mutex.id m = id ∧ c.mutex.owner_process m = owner := by
  refine ⟨List.mem_of_find?_eq_some hfind, ?_⟩
  simpa using List.find?_some hfind

/-- The fields that the books do not read. -/
theorem Books.set_owner_thread (h : Books tidy k Q dying) (owner_thread : Nat → Ptr) :
    Books tidy { k with mutex.owner_thread := owner_thread } Q dying :=
  { h with }

theorem lock_loop.moves (h : Books tidy k Q none) (hw : AtWork k Q t p) (hp : p ≠ kernel_process)
    (hs : k.thread.run_state t = .running) {id : Nat}
    (hfrom : ∀ m, (Call.lock id m).From e (k.thread.pc t)) (hrun : lock_loop id t k = some k') :
    Moves tidy e k Q t k' := by
  unfold lock_loop at hrun
  split at hrun
  · cases hrun
    exact hw.fails h _ _ (Or.inl rfl)
  · rename_i m hfind
    obtain ⟨hm, rfl, ho⟩ := find_mutex.spec hfind
    split at hrun
    · rename_i hfree
      cases hrun
      exact ⟨Q, .lock hw.runs hm ho hfree,
        (h.set_owner_thread (Function.update k.mutex.owner_thread m (some t))).ret hw.free _ _ _⟩
    · rename_i owner hown
      split at hrun
      · cases hrun
        exact hw.fails h _ _ (Or.inl rfl)
      · rename_i hne
        have hwait : k.MustWait t (.lock (k.mutex.id m) m) := ⟨hm, rfl, ho, owner, hown, hne⟩
        exact hw.blocks (q := .waiters m) h hp hs (h.mutex_allocated m hm) rfl hwait (hfrom m) hrun

theorem syscall_mutex_unlock.moves (h : Books tidy k Q none) (hw : AtWork k Q t p)
    (hpc : k.thread.pc t = .user) {id : Nat}
    (hrun : syscall_mutex_unlock fuel id t k = some k') : Moves tidy e k Q t k' := by
  unfold syscall_mutex_unlock at hrun
  split at hrun
  · cases hrun
    exact hw.fails h _ _ (Or.inl rfl)
  · split at hrun
    · cases hrun
      exact hw.fails h _ _ (Or.inl rfl)
    · rename_i m hfind
      obtain ⟨hm, rfl, ho⟩ := find_mutex.spec hfind
      split at hrun
      · cases hrun
        exact hw.fails h _ _ (Or.inl rfl)
      · rename_i hown
        rw [ne_eq, not_not] at hown
        simp only [Option.bind_eq_bind, Option.bind_eq_some_iff] at hrun
        obtain ⟨⟨r, k1⟩, hone, hrun⟩ := hrun
        cases hrun
        obtain ⟨dead, rest, hQ, hdead, hnone, hsome, hcore, hbooks⟩ :=
          PROC_unblock_one.spec (q := .waiters m) h (h.mutex_allocated m hm) hone
        have hfree : ∀ q, k1.LiveQueue q → t ∉ Function.update Q (.waiters m) rest q := by
          intro q hq hin
          have hq' : k.LiveQueue q := by
            rw [hcore] at hq
            cases r <;> exact hq
          by_cases he : q = .waiters m
          · subst he
            rw [Function.update_self] at hin
            exact hw.free _ hq' (hQ ▸ List.mem_append_right _ hin)
          · rw [Function.update_of_ne he] at hin
            exact hw.free q hq' hin
        refine ⟨_, ?_,
          (hbooks.set_owner_thread (Function.update k1.mutex.owner_thread m r)).ret hfree _ _ _⟩
        have hmove := Move.unlock (e := e) (c := k.toCore) hpc hm ho hown hQ hdead hnone hsome
        simp only [Kernel.ret, hcore]
        cases r <;> exact hmove

/-- A mutex without owner and waiters is unlinked and freed. -/
theorem Books.destroy_mutex {m : Nat} (h : Books tidy k Q none) (hm : m ∈ k.mutex.list)
    (hQ : Q (.waiters m) = []) :
    Books tidy { k with toCore := JamsOs.free_mutex m (JamsOs.unlink_mutex m k.toCore) } Q none := by
  obtain ⟨o, ho, _, hoz⟩ := h.mutex_owner m (h.mutex_allocated m hm)
  have hdying : Books tidy k Q (some o) :=
    { h with
      threads_any := fun x hx _ => h.threads_any x hx (Option.some_ne_none x)
      zombie := fun x hx _ => h.zombie x hx (Option.some_ne_none x)
      mutex_listed := fun hd => absurd hd (Option.some_ne_none o)
      mutex_owner := by
        intro m' hm'
        obtain ⟨o', ho', hoa', hoz'⟩ := h.mutex_owner m' hm'
        exact ⟨o', ho', hoa', Or.inl (hoz'.resolve_right (Option.some_ne_none o'))⟩ }
  have hnot : m ∉ k.mutex.list.erase m := fun hin => (h.mutex_nodup.mem_erase_iff.mp hin).1 rfl
  have hfreed := (hdying.unlink_mutex (m := m)).free_mutex hnot hQ
  exact { hfreed with
    threads_any := fun x hx _ => h.threads_any x hx (Option.some_ne_none x)
    zombie := fun x hx _ => h.zombie x hx (Option.some_ne_none x)
    mutex_listed := by
      intro _ m' hm'
      simp only [JamsOs.free_mutex, JamsOs.unlink_mutex] at hm' ⊢
      by_cases he : m' = m
      · simp [he] at hm'
      · rw [Function.update_of_ne he] at hm'
        exact h.mutex_nodup.mem_erase_iff.mpr ⟨he, h.mutex_listed rfl m' hm'⟩
    mutex_owner := by
      intro m' hm'
      obtain ⟨o', ho', hoa', hoz'⟩ := hfreed.mutex_owner m' hm'
      refine ⟨o', ho', hoa', Or.inl (hoz'.elim id fun he => ?_)⟩
      rw [Option.some.inj he]
      exact hoz.resolve_right (Option.some_ne_none o) }

theorem syscall_mutex_destroy.moves (h : Books tidy k Q none) (hw : AtWork k Q t p)
    (hpc : k.thread.pc t = .user) {id : Nat} (hrun : syscall_mutex_destroy id t k = some k') :
    Moves tidy e k Q t k' := by
  unfold syscall_mutex_destroy at hrun
  split at hrun
  · cases hrun
    exact hw.fails h _ _ (Or.inl rfl)
  · split at hrun
    · cases hrun
      exact hw.fails h _ _ (Or.inl rfl)
    · rename_i m hfind
      obtain ⟨hm, rfl, ho⟩ := find_mutex.spec hfind
      split at hrun
      · cases hrun
        exact hw.fails h _ _ (Or.inl rfl)
      · rename_i hno
        cases hrun
        rw [not_or, ne_eq, not_not, ne_eq, not_not] at hno
        have hempty : Q (.waiters m) = [] := by
          have hhead := (h.queue (.waiters m) (h.mutex_allocated m hm)).head
          rw [hno.2] at hhead
          exact List.head?_eq_none_iff.mp hhead.symm
        refine ⟨Q, .mutex_destroy hpc hm ho hno.1 hempty, (h.destroy_mutex hm hempty).ret ?_ _ _ _⟩
        intro q hq
        refine hw.free q ?_
        cases q with
        | waiters m' =>
          simp only [Core.LiveQueue, free_mutex, unlink_mutex] at hq ⊢
          by_cases he : m' = m
          · simp [he] at hq
          · rwa [Function.update_of_ne he] at hq
        | _ => exact hq

theorem Core.with_mutex_live {m : Nat} {owner : Ptr} {c : Core} :
    (c.with_mutex m owner).LiveQueue q ↔ c.LiveQueue q ∨ q = .waiters m := by
  cases q with
  | waiters x => by_cases hx : x = m <;> simp [Core.LiveQueue, Core.with_mutex, hx]
  | _ => simp [Core.LiveQueue, Core.with_mutex]

theorem Books.new_mutex {m : Nat} (h : Books tidy k Q none) (hm : ¬k.mutex.allocated m)
    (hp : k.process.allocated p) (hz : k.process.zombie p = false) :
    Books tidy { k with
      toCore := k.with_mutex m (some p)
      links.queues.ends := Function.update k.links.queues.ends (.waiters m) ⟨none, none⟩ }
      (Function.update Q (.waiters m) []) none := by
  have hne : ∀ q, k.LiveQueue q → q ≠ .waiters m := by
    rintro q hq rfl
    exact hm hq
  have hmem : ∀ q, (k.with_mutex m (some p)).LiveQueue q →
      ∀ x ∈ Function.update Q (.waiters m) [] q, k.LiveQueue q ∧ x ∈ Q q := by
    intro q hq x hx
    by_cases he : q = .waiters m
    · subst he
      simp at hx
    · rw [Function.update_of_ne he] at hx
      exact ⟨(Core.with_mutex_live.mp hq).resolve_right he, hx⟩
  have hmne : ∀ m', k.mutex.allocated m' → m' ≠ m := by
    rintro m' hm' rfl
    exact hm hm'
  exact { h with
    queue := by
      intro q hq
      by_cases he : q = .waiters m
      · subst he
        rw [Function.update_self]
        exact queueAt_nil (Function.update_self _ _ _)
      · rw [Function.update_of_ne he]
        exact (h.queue q ((Core.with_mutex_live.mp hq).resolve_right he)).other he _
    queue_place := fun q hq x hx => h.queue_place q (hmem q hq x hx).1 x (hmem q hq x hx).2
    queue_state := fun q hq x hx => h.queue_state q (hmem q hq x hx).1 x (hmem q hq x hx).2
    queue_allocated := fun q hq hk x hx =>
      h.queue_allocated q (hmem q hq x hx).1 hk x (hmem q hq x hx).2
    queue_dead := fun q hq x hx => h.queue_dead q (hmem q hq x hx).1 x (hmem q hq x hx).2
    queue_since := by
      intro q hq
      by_cases he : q = .waiters m
      · subst he
        simp
      · rw [Function.update_of_ne he]
        exact h.queue_since q ((Core.with_mutex_live.mp hq).resolve_right he)
    queue_clock := fun q hq x hx => h.queue_clock q (hmem q hq x hx).1 x (hmem q hq x hx).2
    blocked := by
      intro x hx hb
      obtain ⟨q, hq, hin⟩ := h.blocked x hx hb
      refine ⟨q, Core.with_mutex_live.mpr (Or.inl hq), ?_⟩
      rwa [Function.update_of_ne (hne q hq)]
    mutex_nodup := List.nodup_cons.mpr ⟨fun hin => hm (h.mutex_allocated m hin), h.mutex_nodup⟩
    mutex_allocated := by
      intro m' hm'
      simp only [Core.with_mutex] at hm' ⊢
      by_cases he : m' = m
      · simp [he]
      · rw [Function.update_of_ne he]
        exact h.mutex_allocated m' ((List.mem_cons.mp hm').resolve_left he)
    mutex_listed := by
      intro _ m' hm'
      simp only [Core.with_mutex] at hm' ⊢
      by_cases he : m' = m
      · simp [he]
      · rw [Function.update_of_ne he] at hm'
        exact List.mem_cons_of_mem _ (h.mutex_listed rfl m' hm')
    mutex_owner := by
      intro m' hm'
      simp only [Core.with_mutex] at hm' ⊢
      by_cases he : m' = m
      · subst he
        exact ⟨p, Function.update_self _ _ _, hp, Or.inl hz⟩
      · rw [Function.update_of_ne he] at hm' ⊢
        exact h.mutex_owner m' hm'
    mutex_waiters := by
      intro m' hm' x hx
      obtain ⟨hq, hin⟩ := hmem (.waiters m') hm' x hx
      simp only [Core.with_mutex, Function.update_of_ne (hmne m' hq)]
      exact h.mutex_waiters m' hq x hin }

theorem syscall_mutex_create.moves (h : Books tidy k Q none) (hw : AtWork k Q t p)
    (hp : p ≠ kernel_process) (hpc : k.thread.pc t = .user) {mutex : Ptr} (hrun : syscall_mutex_create mutex t k = some k') :
    Moves tidy e k Q t k' := by
  unfold syscall_mutex_create at hrun
  split at hrun
  · cases hrun
    exact hw.fails h _ _ (Or.inr ⟨rfl, rfl⟩)
  · rename_i m
    split at hrun
    · cases hrun
    · rename_i hm
      cases hrun
      refine ⟨_, .mutex_create hpc (hw.not_kernel hp) hm, ?_⟩
      have hbooks := h.new_mutex hm hw.process hw.zombie
      rw [← hw.owner] at hbooks
      refine hbooks.ret ?_ _ _ _
      intro q hq
      by_cases he : q = .waiters m
      · subst he
        simp
      · rw [Function.update_of_ne he]
        exact hw.free q ((Core.with_mutex_live.mp hq).resolve_right he)

/-! ### The keyboard -/

theorem keyboard_getchar.moves (h : Books tidy k Q none) (hw : OnCpu k Q t p)
    (hp : p ≠ kernel_process) (hs : k.thread.run_state t = .running) (hpc : (k.thread.pc t).Reads)
    (hrun : keyboard_getchar t k = some k') : Moves tidy e k Q t k' := by
  unfold keyboard_getchar at hrun
  split at hrun
  · rename_i hbuf
    have hwait : k.MustWait t .getc := hbuf
    exact hw.blocks (q := .kbd_wait_queue) h hp hs trivial rfl hwait hpc hrun
  · rename_i ch kbd_buf hbuf
    cases hrun
    refine ⟨Q, .getc hpc hbuf, ?_⟩
    have h' : Books tidy { k with kbd_buf := kbd_buf } Q none := { h with }
    exact h'.ret hw.free _ _ _

theorem ISR33_keyboard_irq.moves (h : Books tidy k Q none) {sc ch : BitVec 8}
    (hrun : ISR33_keyboard_irq fuel sc ch k = some k') :
    Moves tidy e k Q t { k' with toCore := isr_return k'.toCore } := by
  unfold ISR33_keyboard_irq at hrun
  split at hrun
  · cases hrun
    exact ⟨Q, .key_ignored, h.isr_return⟩
  · split at hrun
    · simp only [Option.map_eq_some_iff] at hrun
      obtain ⟨⟨r, k1⟩, hone, rfl⟩ := hrun
      have hbuf : (if k.kbd_buf.length + 1 < KBD_BUFFER_SIZE then k.kbd_buf ++ [ch]
          else k.kbd_buf) = k.kbd_buf ∨ ∃ ch', (if k.kbd_buf.length + 1 < KBD_BUFFER_SIZE then
            k.kbd_buf ++ [ch] else k.kbd_buf) = k.kbd_buf ++ [ch'] := by
        split
        · exact Or.inr ⟨ch, rfl⟩
        · exact Or.inl rfl
      generalize (if k.kbd_buf.length + 1 < KBD_BUFFER_SIZE then k.kbd_buf ++ [ch]
        else k.kbd_buf) = kbd_buf at hone hbuf
      have h' : Books tidy { k with kbd_buf := kbd_buf } Q none := { h with }
      obtain ⟨dead, rest, hQ, hdead, hnone, hsome, hcore, hbooks⟩ :=
        PROC_unblock_one.spec (q := .kbd_wait_queue) h' trivial hone
      refine ⟨_, ?_, hbooks.isr_return⟩
      simp only [hcore]
      exact .key hbuf hQ hdead hnone hsome
    · cases hrun
      exact ⟨Q, .key_ignored, h.isr_return⟩

end JamsOs
