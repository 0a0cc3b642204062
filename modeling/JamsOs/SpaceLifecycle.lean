-- The life of address spaces. Each page table of user memory belongs to one live process, or to one
-- thread that loads a program into it, and the CPU uses the page table and the kernel stack of the
-- current thread. A thread that outlives its process runs in the page table of the kernel.
import JamsOs.QuietMoves
import JamsOs.SchedulerState
import JamsOs.Assignment

namespace JamsOs

open Linked Runs Assignment

variable {tidy : Prop} {e : Event} {k k' : Kernel} {c c' c'' : Core} {Q Q' : QueueRef → List Nat}
  {n : Ptr} {t p x : Nat} {p4 : Word}

/-! ## Who has a page table -/

/-- The page table that a thread at its place loads a program into, or starts a process with. -/
def Pc.loads : Pc → Option Word
  | .exec_load p4 => some p4
  | .elf_load p4 => some p4
  | .window (.uthread_new p4 _ _ _) => some p4
  | _ => none

/-- Those that have a page table: a process, or a thread that runs `elf_load_program`. -/
inductive SpaceUser where
  | process (p : Nat)
  | thread (t : Nat)
  deriving DecidableEq

def Core.Alive (c : Core) (t : Nat) : Prop :=
  c.thread.allocated t ∧ c.thread.run_state t ≠ .zombie

instance (c : Core) (t : Nat) : Decidable (c.Alive t) := inferInstanceAs (Decidable (_ ∧ _))

/-- A process of user code that has not ended. -/
def Core.UserProcess (c : Core) (p : Nat) : Prop :=
  c.process.allocated p ∧ p ≠ kernel_process ∧ c.process.zombie p = false

instance (c : Core) (p : Nat) : Decidable (c.UserProcess p) := inferInstanceAs (Decidable (_ ∧ _ ∧ _))

/-- The page table of a user. -/
def Core.space (c : Core) : SpaceUser → Option Word
  | .process p => if c.UserProcess p then some (c.process.cr3 p) else none
  | .thread t => if c.Alive t then (c.thread.pc t).loads else none

theorem Core.space_process (h : c.UserProcess p) : c.space (.process p) = some (c.process.cr3 p) :=
  if_pos h

theorem Core.space_process_congr (hu : c'.UserProcess p ↔ c.UserProcess p)
    (hc : c.UserProcess p → c'.process.cr3 p = c.process.cr3 p) :
    c'.space (.process p) = c.space (.process p) := by
  by_cases h : c.UserProcess p
  · rw [Core.space_process h, Core.space_process (hu.mpr h), hc h]
  · simp only [Core.space, if_neg h, if_neg (mt hu.mp h)]

theorem Core.space_thread (h : c.Alive t) : c.space (.thread t) = (c.thread.pc t).loads := if_pos h

/-- What holds of page tables and their users. -/
structure SpaceBooks (c : Core) : Prop where
  assigns : Assigns c.space c.p4s
  valid : ∀ p4 ∈ c.p4s, p4 ≠ 0 ∧ p4 ≠ c.kernel_p4
  zombie : ∀ p, c.process.allocated p → c.process.zombie p → c.process.cr3 p = 0
  kernel : c.process.cr3 kernel_process = c.kernel_p4
  exec : ∀ t p4, c.Alive t → c.thread.pc t = .exec_load p4 →
    ∃ p, c.thread.owner t = some p ∧ p ≠ kernel_process ∧ c.process.live_threads p = 1
  loader : ∀ t p4, c.Alive t → (c.thread.pc t).loads = some p4 → c.thread.pc t ≠ .exec_load p4 →
    c.thread.owner t = some kernel_process
  kstack : ∀ t, c.thread.allocated t → c.thread.owner t ≠ some kernel_process → c.thread.kstack t ≠ 0

/-- The CPU uses the page table and the kernel stack of the current thread. -/
structure Loaded (c : Core) : Prop where
  cr3 : ∀ t, c.curr_proc = some t → c.cr3 = c.p4_of t
  rsp0 : ∀ t, c.curr_proc = some t → c.thread.owner t ≠ some kernel_process →
    c.rsp0 = kstack_top (c.thread.kstack t)

/-! ## What the steps do to threads and processes -/

/-- Other threads than the current one load what they loaded before. -/
theorem Quiet.space_thread (hq : Quiet n t c c') (hx : x ≠ t) :
    c'.space (.thread x) = c.space (.thread x) := by
  have hback : c.Alive x → c'.Alive x ∧ c'.thread.pc x = c.thread.pc x := by
    intro ⟨ha, hz⟩
    obtain ⟨ha', hs⟩ := hq.kept x ha hz
    exact ⟨⟨ha', fun hz' => hz (hs.zombie.mp hz')⟩, hs.pc hx⟩
  unfold Core.space
  by_cases hold : c.Alive x
  · obtain ⟨hnew, hpc⟩ := hback hold
    simp only [if_pos hold, if_pos hnew, hpc]
  · simp only [if_neg hold]
    split
    · rename_i hnew
      rcases hq.thread x hnew.1 with hs | ⟨_, hs⟩
      · exact absurd ⟨hs.allocated, fun hz => hnew.2 (hs.zombie.mpr hz)⟩ hold
      · rw [hs.pc]
        rfl
    · rfl

theorem Quiet.alive (hq : Quiet n t c c') (h : c.Alive x) : c'.Alive x := by
  obtain ⟨ha', hs⟩ := hq.kept x h.1 h.2
  exact ⟨ha', fun hz' => h.2 (hs.zombie.mp hz')⟩

theorem Quiet.alive_of_pc (hq : Quiet n t c c') (h : c'.Alive x)
    (hpc : c'.thread.pc x ≠ .user) : c.Alive x ∧ SameThread t c c' x := by
  rcases hq.thread x h.1 with hs | ⟨_, hs⟩
  · exact ⟨⟨hs.allocated, fun hz => h.2 (hs.zombie.mpr hz)⟩, hs⟩
  · exact absurd hs.pc hpc

theorem Quiet.kstack (hq : Quiet n t c c')
    (h : ∀ x, c.thread.allocated x → c.thread.owner x ≠ some kernel_process → c.thread.kstack x ≠ 0)
    (hx : c'.thread.allocated x) (ho : c'.thread.owner x ≠ some kernel_process) :
    c'.thread.kstack x ≠ 0 := by
  rcases hq.thread x hx with hs | ⟨_, hs⟩
  · rw [hs.kstack]
    rw [hs.owner] at ho
    exact h x hs.allocated ho
  · exact hs.kstack

theorem Pc.Runs.loads {pc : Pc} (h : pc.Runs) : pc.loads = none := by
  cases pc with
  | user => rfl
  | window w => cases w <;> first | rfl | cases h
  | _ => cases h

theorem Pc.Reads.loads {pc : Pc} (h : pc.Reads) : pc.loads = none := by
  rcases h with rfl | rfl <;> rfl

theorem Call.From.loads {pc : Pc} {call : Call} (h : call.From e pc) : pc.loads = none := by
  cases call with
  | getc => exact Pc.Reads.loads h
  | lock id m => rcases h with ⟨rfl, _⟩ | ⟨m, rfl⟩ <;> rfl
  | _ => rcases h with ⟨rfl, _⟩ | rfl <;> rfl

/-- Zombies and the process of the kernel have the page tables they had before. The count of threads
may change in the process of the current thread, and in that of the kernel. -/
structure SameRest (t : Nat) (c c' : Core) : Prop where
  zombie : ∀ p, c'.process.allocated p → c'.process.zombie p →
    c.process.allocated p ∧ c.process.zombie p ∧ c'.process.cr3 p = c.process.cr3 p
  kernel : c'.process.cr3 kernel_process = c.process.cr3 kernel_process
  kernel_p4 : c'.kernel_p4 = c.kernel_p4
  live : ∀ p, c.process.allocated p → c.thread.owner t ≠ some p → p ≠ kernel_process →
    c'.process.live_threads p = c.process.live_threads p

/-- All processes have the page tables they had before. -/
structure SameProcesses (t : Nat) (c c' : Core) : Prop extends SameRest t c c' where
  space : ∀ p, c'.space (.process p) = c.space (.process p)

theorem SameProcesses.of_fields (ha : c'.process.allocated = c.process.allocated)
    (hz : c'.process.zombie = c.process.zombie) (hc : c'.process.cr3 = c.process.cr3)
    (hk : c'.kernel_p4 = c.kernel_p4)
    (hlive : ∀ p, c.thread.owner t ≠ some p → p ≠ kernel_process →
      c'.process.live_threads p = c.process.live_threads p) : SameProcesses t c c' where
  space p := Core.space_process_congr (by simp only [Core.UserProcess, ha, hz]) fun _ => by rw [hc]
  zombie p hp hpz := ⟨ha ▸ hp, hz ▸ hpz, by rw [hc]⟩
  kernel := by rw [hc]
  kernel_p4 := hk
  live p _ := hlive p

theorem SameProcesses.of_process (h : c'.process = c.process) (hk : c'.kernel_p4 = c.kernel_p4) :
    SameProcesses t c c' :=
  .of_fields (by rw [h]) (by rw [h]) (by rw [h]) hk fun _ _ _ => by rw [h]

theorem Core.space_process_eq (h : c'.process = c.process) (p : Nat) :
    c'.space (.process p) = c.space (.process p) :=
  Core.space_process_congr (by simp only [Core.UserProcess, h]) fun _ => by rw [h]

theorem SameRest.congr (hr : SameRest t c c') (h : c''.process = c'.process)
    (hk : c''.kernel_p4 = c'.kernel_p4) : SameRest t c c'' where
  zombie := by rw [h]; exact hr.zombie
  kernel := by rw [h]; exact hr.kernel
  kernel_p4 := hk.trans hr.kernel_p4
  live := by rw [h]; exact hr.live

theorem SameProcesses.congr (hp : SameProcesses t c c') (h : c''.process = c'.process)
    (hk : c''.kernel_p4 = c'.kernel_p4) : SameProcesses t c c'' :=
  ⟨hp.toSameRest.congr h hk, fun p => (Core.space_process_eq h p).trans (hp.space p)⟩

/-- A record that is not in use is written. -/
theorem SameProcesses.process_dropped (hp : ¬c.process.allocated p) (parent : Nat) (cr3 : Word)
    (hk : c.process.allocated kernel_process) :
    SameProcesses t c (c.process_dropped p parent cr3) := by
  have hne : ∀ x, c.process.allocated x → x ≠ p := by
    rintro x hx rfl
    exact hp hx
  have hcr3 : ∀ x, c.process.allocated x → (c.process_dropped p parent cr3).process.cr3 x =
      c.process.cr3 x := fun x hx => Function.update_of_ne (hne x hx) _ _
  have hzombie : ∀ x, c.process.allocated x → (c.process_dropped p parent cr3).process.zombie x =
      c.process.zombie x := fun x hx => Function.update_of_ne (hne x hx) _ _
  refine ⟨⟨fun x hx hz => ⟨hx, hzombie x hx ▸ hz, hcr3 x hx⟩, hcr3 _ hk, rfl, ?_⟩, fun x => ?_⟩
  · exact fun x hx _ _ => Function.update_of_ne (hne x hx) _ _
  · refine Core.space_process_congr ?_ fun hu => hcr3 x hu.1
    exact and_congr_right fun hx => by rw [hzombie x hx]

theorem SameProcesses.dropped (hd : c.Dropped c') (hk : c.process.allocated kernel_process) :
    SameProcesses t c c' := by
  cases hd with
  | nothing => exact .of_process rfl rfl
  | process p parent cr3 hp => exact .process_dropped hp parent cr3 hk
  | both p parent cr3 u hp hu =>
    exact { SameProcesses.process_dropped (t := t) hp parent cr3 hk with }

/-- A zombie is freed. -/
theorem SameProcesses.child_reaped (hz : c.process.zombie p) (hp : p ≠ kernel_process)
    (ts : List Nat) : SameProcesses t c (c.child_reaped p ts) := by
  have halloc : ∀ x, x ≠ p →
      (c.child_reaped p ts).process.allocated x = c.process.allocated x :=
    fun x hx => Function.update_of_ne hx _ _
  have hself : (c.child_reaped p ts).process.allocated p = false := Function.update_self _ _ _
  refine ⟨⟨fun x hx hxz => ⟨?_, hxz, rfl⟩, rfl, rfl, fun _ _ _ _ => rfl⟩, fun x => ?_⟩
  rotate_left
  · by_cases hx : x = p
    · subst hx
      have hno : ¬c.UserProcess x := fun h => by simp [h.2.2] at hz
      have hno' : ¬(c.child_reaped x ts).UserProcess x := fun h => by
        rw [h.1] at hself
        cases hself
      simp only [Core.space, if_neg hno, if_neg hno']
    · refine Core.space_process_congr ?_ fun _ => rfl
      exact and_congr_left fun _ => by rw [halloc x hx]
  · by_cases he : x = p
    · rw [he, hself] at hx
      cases hx
    · rwa [halloc x he] at hx

/-- A process comes to be. -/
theorem Core.space_with_child (hp : ¬c.process.allocated p) (hk : c.process.allocated kernel_process)
    (parent : Nat) (cr3 : Word) (x : Nat) : (c.with_child parent p cr3).space (.process x) =
      if x = p then some cr3 else c.space (.process x) := by
  have hpk : p ≠ kernel_process := by
    rintro rfl
    exact hp hk
  by_cases hx : x = p
  · subst hx
    simp [Core.space, Core.UserProcess, Core.with_child, hpk]
  · rw [if_neg hx]
    refine Core.space_process_congr ?_ fun _ => Function.update_of_ne hx _ _
    simp [Core.UserProcess, Core.with_child, hx]

/-! ## The page tables after a step -/

@[simp] theorem isr_return_p4s (c : Core) : (isr_return c).p4s = c.p4s := by
  obtain ⟨curr, next, cr3, rsp0, hframe⟩ := isr_return.frame c
  rw [hframe]

@[simp] theorem isr_return_kernel_p4 (c : Core) : (isr_return c).kernel_p4 = c.kernel_p4 := by
  obtain ⟨curr, next, cr3, rsp0, hframe⟩ := isr_return.frame c
  rw [hframe]

@[simp] theorem Core.ret_p4s (t : Nat) (call : Syscall) (value : Int) (status : Option Int)
    (c : Core) : (c.ret t call value status).p4s = c.p4s :=
  isr_return_p4s _

@[simp] theorem Core.ret_kernel_p4 (t : Nat) (call : Syscall) (value : Int) (status : Option Int)
    (c : Core) : (c.ret t call value status).kernel_p4 = c.kernel_p4 :=
  isr_return_kernel_p4 _

theorem Core.elect_tables (candidate : Ptr) (c : Core) : (c.elect candidate).process = c.process ∧
    (c.elect candidate).kernel_p4 = c.kernel_p4 ∧ (c.elect candidate).p4s = c.p4s ∧
    (c.elect candidate).thread.pc = c.thread.pc := by
  rw [Core.elect_frame]
  exact ⟨rfl, rfl, rfl, rfl⟩

theorem Core.woken_tables (r : Ptr) (c : Core) : (c.woken r).process = c.process ∧
    (c.woken r).kernel_p4 = c.kernel_p4 ∧ (c.woken r).p4s = c.p4s ∧
    (c.woken r).thread.pc = c.thread.pc := by
  rw [Core.woken_frame]
  exact ⟨rfl, rfl, rfl, rfl⟩

theorem SameRest.with_child (hp : ¬c.process.allocated p) (hk : c.process.allocated kernel_process)
    (parent : Nat) (cr3 : Word) : SameRest t c (c.with_child parent p cr3) := by
  have hne : ∀ x, c.process.allocated x → x ≠ p := by
    rintro x hx rfl
    exact hp hx
  refine ⟨fun x hx hz => ?_, Function.update_of_ne (hne _ hk) _ _, rfl,
    fun x hx _ _ => Function.update_of_ne (hne x hx) _ _⟩
  have hxp : x ≠ p := by
    rintro rfl
    simp [Core.with_child] at hz
  simp only [Core.with_child, Function.update_of_ne hxp] at hx hz ⊢
  exact ⟨hx, hz, trivial⟩

/-- The thread of a new process is counted in that process only. -/
theorem SameRest.new_process (hp : ¬c.process.allocated p) (hk : c.process.allocated kernel_process)
    (parent : Nat) (cr3 : Word) (u : Nat) (kstack : Word) :
    SameRest t c ((c.with_child parent p cr3).spawned u p kstack) := by
  have hrest := SameRest.with_child (t := t) hp hk parent cr3
  refine { hrest with live := fun x hx ho hxk => ?_ }
  have hne : x ≠ p := by
    rintro rfl
    exact hp hx
  exact (Function.update_of_ne hne _ _).trans (hrest.live x hx ho hxk)

/-- What a step of the thread `t` does to page tables and their users. -/
inductive SpaceMove (t : Nat) (c c' : Core) : Prop
  | keep (hp : SameProcesses t c c') (hp4s : c'.p4s = c.p4s)
      (hl : (c'.thread.pc t).loads = (c.thread.pc t).loads)
      (hexec : (∀ p4, c.thread.pc t ≠ .exec_load p4 ∧ c'.thread.pc t ≠ .exec_load p4) ∨
        c'.thread.pc t = c.thread.pc t ∧ c'.process.live_threads = c.process.live_threads)
  | hold {p4 : Word} (hp : SameProcesses t c c') (hp4 : c.fresh_p4 p4) (hp4s : c'.p4s = p4 :: c.p4s)
      (hfree : (c.thread.pc t).loads = none) (hl : (c'.thread.pc t).loads = some p4)
      (hwho : (∃ p, c.thread.owner t = some p ∧ p ≠ kernel_process ∧
          c'.process.live_threads p = 1) ∧ c'.thread.pc t = .exec_load p4 ∨
        c.thread.owner t = some kernel_process ∧ ∀ p4, c'.thread.pc t ≠ .exec_load p4)
  | drop {p4 : Word} (hp : SameProcesses t c c') (hp4s : c'.p4s = c.p4s.erase p4)
      (hl : (c.thread.pc t).loads = some p4) (hfree : (c'.thread.pc t).loads = none)
  | exec {p : Nat} {p4 : Word} (hr : SameRest t c c') (hu : c.UserProcess p)
      (hp : ∀ x, c'.space (.process x) = if x = p then some p4 else c.space (.process x))
      (hp4s : c'.p4s = c.p4s.erase (c.process.cr3 p)) (hl : (c.thread.pc t).loads = some p4)
      (hfree : (c'.thread.pc t).loads = none)
  | fork {p : Nat} {p4 : Word} (hr : SameRest t c c') (hno : c.space (.process p) = none)
      (hp : ∀ x, c'.space (.process x) = if x = p then some p4 else c.space (.process x))
      (hp4 : c.fresh_p4 p4) (hp4s : c'.p4s = p4 :: c.p4s) (hl : (c.thread.pc t).loads = none)
      (hfree : (c'.thread.pc t).loads = none)
  | start {p : Nat} {p4 : Word} (hr : SameRest t c c') (hno : c.space (.process p) = none)
      (hp : ∀ x, c'.space (.process x) = if x = p then some p4 else c.space (.process x))
      (hp4s : c'.p4s = c.p4s) (hl : (c.thread.pc t).loads = some p4)
      (hfree : (c'.thread.pc t).loads = none)

theorem SpaceMove.rest (h : SpaceMove t c c') : SameRest t c c' := by
  cases h with
  | keep hp | hold hp | drop hp => exact hp.toSameRest
  | exec hr | fork hr | start hr => exact hr

/-- The current thread comes to user code, and loads no program before and after. -/
theorem SpaceMove.idle (hp : SameProcesses t c c') (hp4s : c'.p4s = c.p4s)
    (hl : (c.thread.pc t).loads = none) (hl' : (c'.thread.pc t).loads = none) : SpaceMove t c c' := by
  refine .keep hp hp4s (hl'.trans hl.symm) (Or.inl fun p4 => ⟨fun h => ?_, fun h => ?_⟩)
  · rw [h] at hl
    cases hl
  · rw [h] at hl'
    cases hl'

/-- An interrupt that leaves the processes and the program counters alone. -/
theorem SpaceMove.interrupt (h : c'.process = c.process ∧ c'.kernel_p4 = c.kernel_p4 ∧
      c'.p4s = c.p4s ∧ c'.thread.pc = c.thread.pc) : SpaceMove t c (isr_return c') := by
  obtain ⟨hproc, hk, hp4s, hpc⟩ := h
  have hproc' := (isr_return_process _).trans hproc
  refine .keep (.of_process hproc' ((isr_return_kernel_p4 _).trans hk))
    ((isr_return_p4s _).trans hp4s) ?_ (Or.inr ⟨?_, by rw [hproc']⟩)
  all_goals rw [isr_return_thread, hpc]

/-- What a move does to the users, all at once. -/
theorem Quiet.space_eq (hq : Quiet n t c c') (ht : c.Alive t) {f : SpaceUser → Option Word}
    (hproc : ∀ x, c'.space (.process x) = f (.process x)) (hself : (c'.thread.pc t).loads = f (.thread t))
    (hother : ∀ x, x ≠ t → f (.thread x) = c.space (.thread x)) (u : SpaceUser) :
    c'.space u = f u := by
  cases u with
  | process x => exact hproc x
  | thread x =>
    by_cases hx : x = t
    · rw [hx, Core.space_thread (hq.alive ht), hself]
    · rw [hq.space_thread hx, hother x hx]

theorem SpaceMove.assigns (hm : SpaceMove t c c') (hq : Quiet n t c c') (ht : c.Alive t)
    (h : Assigns c.space c.p4s) : Assigns c'.space c'.p4s := by
  have hself := Core.space_thread ht
  cases hm with
  | keep hp hp4s hl hexec =>
    rw [hp4s]
    refine h.congr (hq.space_eq ht hp.space (hl.trans hself.symm) fun _ _ => rfl)
  | @hold p4 hp hp4 hp4s hfree hl hwho =>
    rw [hp4s]
    simp only [Core.fresh_p4, Bool.and_eq_true, decide_eq_true_eq] at hp4
    refine (h.insert (hself.trans hfree) hp4.1.2).congr (hq.space_eq ht ?_ ?_ ?_)
    · exact fun x => (hp.space x).trans (Function.update_of_ne (by simp) _ _).symm
    · rw [Function.update_self, hl]
    · exact fun x hx => Function.update_of_ne (by simpa using hx) _ _
  | @drop p4 hp hp4s hl hfree =>
    rw [hp4s]
    refine (h.remove (hself.trans hl)).congr (hq.space_eq ht ?_ ?_ ?_)
    · exact fun x => (hp.space x).trans (Function.update_of_ne (by simp) _ _).symm
    · rw [Function.update_self, hfree]
    · exact fun x hx => Function.update_of_ne (by simpa using hx) _ _
  | @exec p p4 hr hu hp hp4s hl hfree =>
    rw [hp4s]
    -- the process gives up its old page table, and then takes over the one of the thread
    have hrem := h.remove (Core.space_process hu)
    have hmove := hrem.transfer (i := .thread t) (j := .process p) (a := p4)
      (by rw [Function.update_of_ne (by simp), hself, hl]) (Function.update_self _ _ _)
    refine hmove.congr (hq.space_eq ht ?_ ?_ ?_)
    · intro x
      rw [hp x]
      by_cases hx : x = p <;> simp [hx]
    · simp [hfree]
    · intro x hx
      simp [hx]
  | @fork p p4 hr hno hp hp4 hp4s hl hfree =>
    rw [hp4s]
    simp only [Core.fresh_p4, Bool.and_eq_true, decide_eq_true_eq] at hp4
    refine (h.insert hno hp4.1.2).congr (hq.space_eq ht ?_ ?_ ?_)
    · intro x
      rw [hp x]
      by_cases hx : x = p <;> simp [hx]
    · simp [hfree, hself, hl]
    · intro x hx
      simp
  | @start p p4 hr hno hp hp4s hl hfree =>
    rw [hp4s]
    have hmove := h.transfer (i := .thread t) (j := .process p) (hself.trans hl) hno
    refine hmove.congr (hq.space_eq ht ?_ ?_ ?_)
    · intro x
      rw [hp x]
      by_cases hx : x = p <;> simp [hx]
    · simp [hfree]
    · intro x hx
      simp [hx]

theorem SpaceMove.valid (hm : SpaceMove t c c') (h : ∀ p4 ∈ c.p4s, p4 ≠ 0 ∧ p4 ≠ c.kernel_p4) :
    ∀ p4 ∈ c'.p4s, p4 ≠ 0 ∧ p4 ≠ c'.kernel_p4 := by
  rw [hm.rest.kernel_p4]
  have hfresh : ∀ a, c.fresh_p4 a → ∀ p4 ∈ a :: c.p4s, p4 ≠ 0 ∧ p4 ≠ c.kernel_p4 := by
    intro a ha p4 hin
    simp only [Core.fresh_p4, Bool.and_eq_true, decide_eq_true_eq] at ha
    rcases List.mem_cons.mp hin with rfl | hin
    · exact ⟨ha.1.1, ha.2⟩
    · exact h p4 hin
  cases hm with
  | keep hp hp4s => exact hp4s ▸ h
  | hold hp hp4 hp4s => exact hp4s ▸ hfresh _ hp4
  | drop hp hp4s => exact fun p4 hin => h p4 (List.mem_of_mem_erase (hp4s ▸ hin))
  | exec hr hu hp hp4s => exact fun p4 hin => h p4 (List.mem_of_mem_erase (hp4s ▸ hin))
  | fork hr hno hp hp4 hp4s => exact hp4s ▸ hfresh _ hp4
  | start hr hno hp hp4s => exact hp4s ▸ h

section

variable (hs : SpaceBooks k.toCore) (h : Books tidy k Q none)

include hs h

/-- A thread in `exec` is the only live thread of its process. -/
theorem SpaceBooks.exec_sole (hx : k.Alive x) (hpc : k.thread.pc x = .exec_load p4) (ht : k.Alive t)
    (ho : k.thread.owner t = k.thread.owner x) : t = x := by
  obtain ⟨p, hxo, hp, hlive⟩ := hs.exec x p4 hx hpc
  obtain ⟨p', hxo', hpa⟩ := h.owner x hx.1
  obtain rfl : p = p' := Option.some.inj (hxo.symm.trans hxo')
  exact h.sole_thread hpa hlive hx.1 hxo hx.2 ht.1 (ho.trans hxo) ht.2

/-- Page tables have their users after a step of a thread that goes on. -/
theorem SpaceBooks.quiet (ht : k.Alive t) (hq : Quiet n t k.toCore c')
    (hm : SpaceMove t k.toCore c') : SpaceBooks c' := by
  have hrest := hm.rest
  have hown : c'.thread.owner t = k.thread.owner t := (hq.kept t ht.1 ht.2).2.owner
  -- what the current thread does, when it loads a program after the step
  have hcur : ∀ p4, (c'.thread.pc t).loads = some p4 →
      (c'.thread.pc t = .exec_load p4 → ∃ p, k.thread.owner t = some p ∧ p ≠ kernel_process ∧
        c'.process.live_threads p = 1) ∧
      (c'.thread.pc t ≠ .exec_load p4 → k.thread.owner t = some kernel_process) := by
    intro p4 hl
    cases hm with
    | keep hp hp4s hl' hexec =>
      rcases hexec with hno | ⟨hpc, hlive⟩
      · exact ⟨fun hpc => absurd hpc (hno p4).2,
          fun _ => hs.loader t p4 ht (hl'.symm.trans hl) (hno p4).1⟩
      · rw [hpc, hlive]
        exact ⟨hs.exec t p4 ht, hs.loader t p4 ht (hl'.symm.trans hl)⟩
    | hold hp hp4 hp4s hfree hl' hwho =>
      cases hl'.symm.trans hl
      rcases hwho with ⟨hex, hpc⟩ | ⟨ho, hpc⟩
      · exact ⟨fun _ => hex, fun hne => absurd hpc hne⟩
      · exact ⟨fun hpc' => absurd hpc' (hpc p4), fun _ => ho⟩
    | drop hp hp4s hl' hfree | exec hr hu hp hp4s hl' hfree | fork hr hno hp hp4 hp4s hl' hfree
    | start hr hno hp hp4s hl' hfree =>
      rw [hfree] at hl
      cases hl
  exact {
    assigns := hm.assigns hq ht hs.assigns
    valid := hm.valid hs.valid
    zombie := fun p hp hz => by
      obtain ⟨hp', hz', he⟩ := hrest.zombie p hp hz
      exact he.trans (hs.zombie p hp' hz')
    kernel := hrest.kernel.trans (hs.kernel.trans hrest.kernel_p4.symm)
    exec := fun x p4 hx hpc => by
      by_cases he : x = t
      · subst he
        rw [hown]
        exact (hcur p4 (by rw [hpc]; rfl)).1 hpc
      · obtain ⟨hx', hsame⟩ := hq.alive_of_pc hx (by simp [hpc])
        have hpc' := (hsame.pc he).symm.trans hpc
        obtain ⟨p, ho, hp, hlive⟩ := hs.exec x p4 hx' hpc'
        obtain ⟨p', ho', hpa⟩ := h.owner x hx'.1
        obtain rfl : p = p' := Option.some.inj (ho.symm.trans ho')
        refine ⟨p, hsame.owner.trans ho, hp, (hrest.live p hpa (fun hto => he ?_) hp).trans hlive⟩
        exact (hs.exec_sole h hx' hpc' ht (hto.trans ho.symm)).symm
    loader := fun x p4 hx hl hpc => by
      by_cases he : x = t
      · subst he
        rw [hown]
        exact (hcur p4 hl).2 hpc
      · obtain ⟨hx', hsame⟩ := hq.alive_of_pc hx (by rintro hu; rw [hu] at hl; cases hl)
        rw [hsame.pc he] at hl hpc
        exact hsame.owner.trans (hs.loader x p4 hx' hl hpc)
    kstack := fun x hx ho => hq.kstack hs.kstack hx ho }

/-- The page table that the current thread loads a program into is not the one the CPU uses. -/
theorem SpaceBooks.cr3_mem (hl : Loaded k.toCore) (hct : k.curr_proc = some t) (ht : k.Alive t) :
    k.cr3 = k.kernel_p4 ∨ ∃ p, k.UserProcess p ∧ k.thread.owner t = some p ∧ k.cr3 = k.process.cr3 p := by
  obtain ⟨p, ho, hpa⟩ := h.owner t ht.1
  have hcr3 : k.cr3 = if k.process.cr3 p ≠ 0 then k.process.cr3 p else k.kernel_p4 := by
    rw [hl.cr3 t hct]
    simp only [Core.p4_of, ho]
  by_cases hp : p = kernel_process
  · left
    rw [hcr3, hp, hs.kernel]
    split <;> rfl
  · by_cases hz : k.process.zombie p
    · exact absurd (h.zombie_threads hpa hz ht.1 ho) ht.2
    · rw [Bool.not_eq_true] at hz
      have hu : k.UserProcess p := ⟨hpa, hp, hz⟩
      have hin : k.process.cr3 p ∈ k.p4s := (hs.assigns.mem _).mpr ⟨_, Core.space_process hu⟩
      rw [if_pos (hs.valid _ hin).1] at hcr3
      exact Or.inr ⟨p, hu, ho, hcr3⟩

theorem SpaceBooks.load_ne_cr3 (hl : Loaded k.toCore) (hct : k.curr_proc = some t) (ht : k.Alive t)
    (hload : (k.thread.pc t).loads = some p4) :
    p4 ≠ k.cr3 := by
  have hspace := (Core.space_thread ht).trans hload
  have hin : p4 ∈ k.p4s := (hs.assigns.mem _).mpr ⟨_, hspace⟩
  rcases hs.cr3_mem h hl hct ht with he | ⟨p, hu, _, he⟩
  · rw [he]
    exact (hs.valid p4 hin).2
  · rintro rfl
    cases hs.assigns.inj _ _ _ hspace (he ▸ Core.space_process hu)

theorem SpaceBooks.fresh_ne_cr3 (hl : Loaded k.toCore) (hct : k.curr_proc = some t) (ht : k.Alive t)
    (hp4 : k.fresh_p4 p4) : p4 ≠ k.cr3 := by
  simp only [Core.fresh_p4, Bool.and_eq_true, decide_eq_true_eq] at hp4
  rcases hs.cr3_mem h hl hct ht with he | ⟨p, hu, _, he⟩
  · rw [he]
    exact hp4.2
  · rintro rfl
    exact hp4.1.2 ((hs.assigns.mem _).mpr ⟨_, he ▸ Core.space_process hu⟩)

end

theorem MMU_destroy_p4.p4s_eq (h0 : p4 ≠ 0) (hk : p4 ≠ c.kernel_p4) (hc : p4 ≠ c.cr3) :
    (MMU_destroy_p4 p4 c).p4s = c.p4s.erase p4 := by
  unfold MMU_destroy_p4
  rw [if_neg (not_or.mpr ⟨h0, not_or.mpr ⟨hk, hc⟩⟩)]

theorem MMU_destroy_p4.tables (p4 : Word) (c : Core) : (MMU_destroy_p4 p4 c).process = c.process ∧
    (MMU_destroy_p4 p4 c).kernel_p4 = c.kernel_p4 ∧ (MMU_destroy_p4 p4 c).cr3 = c.cr3 ∧
    (MMU_destroy_p4 p4 c).thread = c.thread := by
  obtain ⟨p4s, hframe⟩ := MMU_destroy_p4.frame p4 c
  rw [hframe]
  exact ⟨rfl, rfl, rfl, rfl⟩

/-- A call of a thread that loads no program returns. -/
theorem SpaceMove.ret (hp : SameProcesses t c c') (hp4s : c'.p4s = c.p4s)
    (hl : (c.thread.pc t).loads = none) (call : Syscall) (value : Int) (status : Option Int) :
    SpaceMove t c (c'.ret t call value status) :=
  .idle (hp.congr (Core.ret_process _ _ _ _ _) (Core.ret_kernel_p4 _ _ _ _ _))
    ((Core.ret_p4s _ _ _ _ _).trans hp4s) hl (by simp [Pc.loads])

theorem Books.user_process (h : Books tidy k Q none) (ht : k.Alive t) (ho : k.thread.owner t = some p)
    (hp : p ≠ kernel_process) : k.UserProcess p := by
  obtain ⟨p', ho', hpa⟩ := h.owner t ht.1
  obtain rfl : p = p' := Option.some.inj (ho.symm.trans ho')
  refine ⟨hpa, hp, ?_⟩
  by_contra hz
  exact ht.2 (h.zombie_threads hpa (by simpa using hz) ht.1 ho)

/-- A program was loaded, and the old page table of the process is destroyed. -/
theorem SpaceBooks.exec_done (hs : SpaceBooks k.toCore) (h : Books tidy k Q none) (ht : k.Alive t)
    (hpc : k.thread.pc t = .exec_load p4) (ho : k.thread.owner t = some p)
    (hc : c = { k.toCore with process.cr3 := Function.update k.process.cr3 p p4, cr3 := p4 })
    (call : Syscall) (value : Int) (status : Option Int) :
    k.process.cr3 p ≠ 0 ∧ k.process.cr3 p ≠ k.kernel_p4 ∧ k.process.cr3 p ≠ p4 ∧
    SpaceMove t k.toCore ((MMU_destroy_p4 (k.process.cr3 p) c).ret t call value status) := by
  obtain ⟨p', ho', hp, _⟩ := hs.exec t p4 ht hpc
  obtain rfl : p = p' := Option.some.inj (ho.symm.trans ho')
  have hu := h.user_process ht ho hp
  have hold := Core.space_process hu
  have hload : k.toCore.space (.thread t) = some p4 := by rw [Core.space_thread ht, hpc]; rfl
  obtain ⟨h0, hkp4⟩ := hs.valid _ ((hs.assigns.mem _).mpr ⟨_, hold⟩)
  have hne : k.process.cr3 p ≠ p4 := by
    rintro rfl
    cases hs.assigns.inj _ _ _ hold hload
  obtain ⟨hproc, hkernel, _⟩ := MMU_destroy_p4.tables (k.process.cr3 p) c
  have hproc' := (Core.ret_process t call value status _).trans hproc
  have hcr3 : ∀ x, x ≠ p → c.process.cr3 x = k.process.cr3 x := by
    intro x hx
    rw [hc]
    exact Function.update_of_ne hx _ _
  have hrest : SameRest t k.toCore c := by
    refine ⟨fun x hx hz => ?_, hcr3 _ hp.symm, by rw [hc], fun _ _ _ _ => by rw [hc]⟩
    have hxz : k.process.allocated x ∧ k.process.zombie x := by
      rw [hc] at hx hz
      exact ⟨hx, hz⟩
    refine ⟨hxz.1, hxz.2, hcr3 x ?_⟩
    rintro rfl
    rw [hu.2.2] at hxz
    cases hxz.2
  refine ⟨h0, hkp4, hne, .exec (p := p) (hrest.congr hproc'
    ((Core.ret_kernel_p4 _ _ _ _ _).trans hkernel)) hu (fun x => ?_) ?_ (by rw [hpc]; rfl)
    (by simp [Pc.loads])⟩
  · have huser : c.UserProcess x ↔ k.UserProcess x := by rw [hc]; rfl
    rw [Core.space_process_eq hproc']
    by_cases hx : x = p
    · subst hx
      rw [if_pos rfl, Core.space_process (huser.mpr hu), hc]
      simp
    · rw [if_neg hx]
      exact Core.space_process_congr huser fun _ => hcr3 x hx
  · rw [Core.ret_p4s, MMU_destroy_p4.p4s_eq h0 (by rw [hc]; exact hkp4) (by rw [hc]; exact hne), hc]

/-- A program was not loaded, and its page table is destroyed. -/
theorem SpaceBooks.dropped (hs : SpaceBooks k.toCore) (h : Books tidy k Q none) (hl : Loaded k.toCore)
    (hct : k.curr_proc = some t) (ht : k.Alive t) (hload : (k.thread.pc t).loads = some p4)
    (hd : k.toCore.Dropped c) (hproc : c'.process = c.process) (hk : c'.kernel_p4 = c.kernel_p4)
    (hp4s : c'.p4s = (MMU_destroy_p4 p4 c).p4s) (hfree : (c'.thread.pc t).loads = none) :
    SpaceMove t k.toCore c' := by
  have hin : p4 ∈ k.p4s := (hs.assigns.mem _).mpr ⟨_, (Core.space_thread ht).trans hload⟩
  have hsame : c.p4s = k.p4s ∧ c.kernel_p4 = k.kernel_p4 ∧ c.cr3 = k.cr3 := by
    cases hd <;> exact ⟨rfl, rfl, rfl⟩
  refine .drop ((SameProcesses.dropped hd h.kernel_allocated).congr hproc hk) ?_ hload hfree
  rw [hp4s, MMU_destroy_p4.p4s_eq (hs.valid p4 hin).1, hsame.1]
  · rw [hsame.2.1]
    exact (hs.valid p4 hin).2
  · rw [hsame.2.2]
    exact hs.load_ne_cr3 h hl hct ht hload

theorem Move.spaces (h : Books tidy k Q none) (hcpu : Cpu k.toCore) (hct : k.curr_proc = some t)
    (hs : SpaceBooks k.toCore) (hl : Loaded k.toCore) (hm : Move e k.toCore Q t c' Q') :
    SpaceMove t k.toCore c' ∨ Stop e k.toCore Q t c' Q' := by
  have ht : k.Alive t := hcpu.alive hct
  have hka := h.kernel_allocated
  cases hm with
  | stop hstop => exact Or.inr hstop
  | @timer candidate hpick => exact Or.inl (.interrupt (k.toCore.elect_tables candidate))
  | key_ignored => exact Or.inl (.interrupt ⟨rfl, rfl, rfl, rfl⟩)
  | @key kbd_buf r => exact Or.inl (.interrupt (Core.woken_tables r { k.toCore with kbd_buf := kbd_buf }))
  | @yield candidate hpc hpick =>
    obtain ⟨hproc, hk, hp4s, _⟩ := k.toCore.elect_tables candidate
    exact Or.inl (.ret (by exact .of_process hproc hk) (by exact hp4s) (by rw [hpc]; rfl) _ _ _)
  | @resume candidate call hpc hpick =>
    obtain ⟨hproc, hk, hp4s, hpc'⟩ := (k.set_pc t (.window call.resume)).elect_tables candidate
    refine Or.inl (.idle (.of_process ((isr_return_process _).trans hproc)
      ((isr_return_kernel_p4 _).trans hk)) ((isr_return_p4s _).trans hp4s) (by rw [hpc]; rfl) ?_)
    rw [isr_return_thread, hpc']
    cases call <;> simp [Core.set_pc, Call.resume, Pc.loads]
  | fails hpc hvalue => exact Or.inl (.ret (by exact .of_process rfl rfl) (by rfl) hpc.loads _ _ _)
  | @wait status p child ts hpc hfrom ho hchild hne hparent hz hts =>
    exact Or.inl (.ret (.child_reaped hz hne ts) rfl hpc.loads _ _ _)
  | join hpc hfrom ho htarget hto hz => exact Or.inl (.ret (by exact .of_process rfl rfl) (by rfl) hpc.loads _ _ _)
  | getc hpc hbuf => exact Or.inl (.ret (by exact .of_process rfl rfl) (by rfl) hpc.loads _ _ _)
  | mutex_create hpc huser hm =>
    exact Or.inl (.ret (by exact .of_process rfl rfl) (by rfl) (by rw [hpc]; rfl) _ _ _)
  | lock hpc hm ho hfree => exact Or.inl (.ret (by exact .of_process rfl rfl) (by rfl) hpc.loads _ _ _)
  | lock_handed hpc hown =>
    exact Or.inl (.ret (by exact .of_process rfl rfl) (by rfl) (by rw [hpc]; rfl) _ _ _)
  | @unlock m r dead rest hpc hm ho hown hQ hdead hnone hsome =>
    obtain ⟨hproc, hk, hp4s, _⟩ := Core.woken_tables r k.toCore
    exact Or.inl (.ret (by exact .of_process hproc hk) (by exact hp4s) (by rw [hpc]; rfl) _ _ _)
  | mutex_destroy hpc hm ho hfree hempty =>
    exact Or.inl (.ret (by exact .of_process rfl rfl) (by rfl) (by rw [hpc]; rfl) _ _ _)
  | @clone stack_top entry kstack u p hpc ho hp hu hnew hk hks =>
    refine Or.inl (.ret ?_ (by rfl) (by rw [hpc]; rfl) _ _ _)
    refine .of_fields rfl rfl rfl rfl fun x hx _ => ?_
    have hxp : x ≠ p := by
      rintro rfl
      exact hx ho
    exact Function.update_of_ne hxp _ _
  | clone_fails hpc hu hk =>
    exact Or.inl (.ret (by exact .of_fields rfl rfl rfl rfl fun _ _ _ => rfl) (by rfl) (by rw [hpc]; rfl) _ _ _)
  | create_kthread hpc ho =>
    exact Or.inl (.idle (.of_process rfl rfl) rfl (by rw [hpc]; rfl) (by simp [Core.set_pc, Pc.loads]))
  | no_kthread hpc =>
    exact Or.inl (.idle (.of_process rfl rfl) rfl (by rw [hpc]; rfl) (by simp [Core.set_pc, Pc.loads]))
  | kthread hpc hu hnew hk hks =>
    refine Or.inl (.idle (.of_fields rfl rfl rfl rfl fun x _ hx => ?_) rfl (by rw [hpc]; rfl)
      (by simp [Core.set_pc, Pc.loads]))
    exact Function.update_of_ne hx _ _
  | kthread_fails hpc hu hk =>
    exact Or.inl (.idle (.of_fields rfl rfl rfl rfl fun _ _ _ => rfl) rfl (by rw [hpc]; rfl)
      (by simp [Core.set_pc, Pc.loads]))
  | @fork p4 kstack frame_offset parent p u hpc ho hparent hp4 hp hu hnew hk hks =>
    have hrest : SameRest t k.toCore (({ k.toCore with p4s := p4 :: k.p4s }.with_child parent p
        p4).spawned u p kstack) :=
      { SameRest.new_process (c := { k.toCore with p4s := p4 :: k.p4s }) (t := t) hp hka parent p4 u
          kstack with }
    have hno : k.toCore.space (.process p) = none := if_neg fun hup => hp hup.1
    refine Or.inl (.fork (p := p) (hrest.congr (Core.ret_process _ _ _ _ _)
      (Core.ret_kernel_p4 _ _ _ _ _)) hno (fun x => ?_) hp4 (Core.ret_p4s _ _ _ _ _)
      (by rw [hpc]; rfl) (by simp [Pc.loads]))
    rw [Core.space_process_eq (Core.ret_process _ _ _ _ _)]
    exact Core.space_with_child (c := { k.toCore with p4s := p4 :: k.p4s }) hp hka parent p4 x
  | @fork_fails p4 kstack process u frame_offset c1 hpc hp4 hc1 =>
    have hsame : c1.p4s = p4 :: k.p4s ∧ c1.kernel_p4 = k.kernel_p4 ∧ c1.cr3 = k.cr3 := by
      cases hc1 <;> exact ⟨rfl, rfl, rfl⟩
    obtain ⟨hproc, hkp4, _⟩ := MMU_destroy_p4.tables p4 c1
    have hp : SameProcesses t k.toCore c1 := { SameProcesses.dropped (t := t) hc1 hka with }
    refine Or.inl (.ret (hp.congr hproc hkp4) ?_ (by rw [hpc]; rfl) _ _ _)
    have hne := hs.fresh_ne_cr3 h hl hct ht hp4
    simp only [Core.fresh_p4, Bool.and_eq_true, decide_eq_true_eq] at hp4
    rw [MMU_destroy_p4.p4s_eq hp4.1.1 (by rw [hsame.2.1]; exact hp4.2) (by rw [hsame.2.2]; exact hne),
      hsame.1, List.erase_cons_head]
  | @exec p4 p hpc ho hp hlive hp4 =>
    refine Or.inl (.hold (.of_process rfl rfl) hp4 rfl (by rw [hpc]; rfl)
      (by simp [Core.set_pc, Pc.loads]) (Or.inl ⟨⟨p, ho, hp, hlive⟩, by simp [Core.set_pc]⟩))
  | @exec_fails p4 hpc =>
    obtain ⟨hproc, hkp4, _⟩ := MMU_destroy_p4.tables p4 k.toCore
    exact Or.inl (hs.dropped h hl hct ht (by rw [hpc]; rfl) .nothing
      ((Core.ret_process _ _ _ _ _).trans hproc) ((Core.ret_kernel_p4 _ _ _ _ _).trans hkp4)
      (Core.ret_p4s _ _ _ _ _) (by simp [Pc.loads]))
  | @exec_done p4 p c1 hpc ho hc1 =>
    obtain ⟨h0, hkp4, hne, hmove⟩ := hs.exec_done h ht hpc ho hc1 (.exec p4) 0 none
    rw [if_pos ⟨h0, hkp4, hne⟩]
    exact Or.inl hmove
  | @elf_load p4 hpc ho hp4 =>
    refine Or.inl (.hold (.of_process rfl rfl) hp4 rfl (by rw [hpc]; rfl)
      (by simp [Core.set_pc, Pc.loads]) (Or.inr ⟨ho, fun p4 => by simp [Core.set_pc]⟩))
  | @elf_fails p4 hpc =>
    obtain ⟨hproc, hkp4, _⟩ := MMU_destroy_p4.tables p4 k.toCore
    exact Or.inl (hs.dropped h hl hct ht (by rw [hpc]; rfl) .nothing hproc hkp4 rfl
      (by simp [Core.set_pc, Pc.loads]))
  | @elf_loaded p4 kstack process new hpc =>
    refine Or.inl (.keep (.of_process rfl rfl) rfl ?_ (Or.inl fun p4 => ⟨?_, ?_⟩))
    · rw [hpc]
      simp [Core.set_pc, Pc.loads]
    · simp [hpc]
    · simp [Core.set_pc]
  | @uthread p4 kstack parent p u hpc ho hp hu hnew hk hks =>
    have hno : k.toCore.space (.process p) = none := if_neg fun hup => hp hup.1
    exact Or.inl (.start (p := p)
      ((SameRest.new_process hp hka parent p4 u kstack).congr rfl rfl) hno (Core.space_with_child hp hka parent p4) rfl (by rw [hpc]; rfl)
      (by simp [Core.set_pc, Pc.loads]))
  | @uthread_fails p4 kstack process new c1 hpc hc1 =>
    obtain ⟨hproc, hkp4, _⟩ := MMU_destroy_p4.tables p4 c1
    exact Or.inl (hs.dropped h hl hct ht (by rw [hpc]; rfl) hc1 hproc hkp4 rfl
      (by simp [Core.set_pc, Pc.loads]))

/-! ## The current thread stops -/

/-- The current thread `t` has stopped. It has died, maybe with others, or is blocked. Threads that
load a program go on. -/
structure Stopped (t : Nat) (c c' : Core) : Prop where
  allocated : c'.thread.allocated = c.thread.allocated
  owner : c'.thread.owner = c.thread.owner
  kstack : c'.thread.kstack = c.thread.kstack
  pc : ∀ x, c'.thread.pc x = c.thread.pc x ∨
    (c'.thread.pc x).loads = none ∧ (c.thread.pc x).loads = none
  idle : (c.thread.pc t).loads = none
  alive : ∀ x, c'.Alive x → c.Alive x
  loads : ∀ x, c.Alive x → (c.thread.pc x).loads ≠ none → c'.Alive x
  kernel_p4 : c'.kernel_p4 = c.kernel_p4
  kernel : c'.process.cr3 kernel_process = c.process.cr3 kernel_process
  zombie : ∀ p, c'.process.allocated p → c'.process.zombie p → c'.process.cr3 p = 0
  live : ∀ p, c.thread.owner t ≠ some p → c'.process.live_threads p = c.process.live_threads p

theorem Stopped.space_thread (h : Stopped t c c') (x : Nat) :
    c'.space (.thread x) = c.space (.thread x) := by
  have hpc : (c'.thread.pc x).loads = (c.thread.pc x).loads := by
    rcases h.pc x with he | ⟨h1, h2⟩
    · rw [he]
    · rw [h1, h2]
  by_cases hx : c.Alive x
  · rw [Core.space_thread hx]
    by_cases hl : (c.thread.pc x).loads = none
    · simp only [Core.space, hpc, hl, ite_self]
    · rw [Core.space_thread (h.loads x hx hl), hpc]
  · simp only [Core.space, if_neg hx, if_neg (mt (h.alive x) hx)]

theorem SpaceBooks.stopped (hs : SpaceBooks k.toCore) (h : Books tidy k Q none) (ht : k.Alive t)
    (hst : Stopped t k.toCore c') (hassigns : Assigns c'.space c'.p4s)
    (hp4s : ∀ p4 ∈ c'.p4s, p4 ∈ k.p4s) : SpaceBooks c' where
  assigns := hassigns
  valid p4 hin := by
    rw [hst.kernel_p4]
    exact hs.valid p4 (hp4s p4 hin)
  zombie := hst.zombie
  kernel := hst.kernel.trans (hs.kernel.trans hst.kernel_p4.symm)
  exec x p4 hx hpc := by
    have hxk := hst.alive x hx
    have hpc' : k.thread.pc x = .exec_load p4 := by
      rcases hst.pc x with he | ⟨hno, _⟩
      · exact he.symm.trans hpc
      · rw [hpc] at hno
        cases hno
    obtain ⟨p, ho, hp, hlive⟩ := hs.exec x p4 hxk hpc'
    refine ⟨p, by rw [hst.owner]; exact ho, hp, (hst.live p fun hto => ?_).trans hlive⟩
    obtain rfl := hs.exec_sole h hxk hpc' ht (hto.trans ho.symm)
    have hidle := hst.idle
    rw [hpc'] at hidle
    cases hidle
  loader x p4 hx hl hpc := by
    rw [hst.owner]
    rcases hst.pc x with he | ⟨hno, _⟩
    · rw [he] at hl hpc
      exact hs.loader x p4 (hst.alive x hx) hl hpc
    · rw [hno] at hl
      cases hl
  kstack x hx ho := by
    rw [hst.kstack]
    exact hs.kstack x (hst.allocated ▸ hx) (hst.owner ▸ ho)

/-- Threads of the process `p` die, and the next thread is picked. -/
theorem SpaceBooks.killed (hs : SpaceBooks k.toCore) (h : Books tidy k Q none) (ht : k.Alive t)
    (ho : k.thread.owner t = some p) (hpc : k.thread.pc t = .user) {S : Nat → Bool} {status : Int}
    {l : List Nat} {candidate : Ptr} (hpick : c.Picks candidate)
    (hS : ∀ x, S x → x = t ∨ p ≠ kernel_process ∧ k.thread.owner x = some p)
    (hc : c.thread = ((k.killed S status).all_woken l).thread)
    (hkp4 : c.kernel_p4 = k.kernel_p4)
    (hkernel : c.process.cr3 kernel_process = k.process.cr3 kernel_process)
    (hzombie : ∀ p, c.process.allocated p → c.process.zombie p → c.process.cr3 p = 0)
    (hlive : ∀ x, x ≠ p → c.process.live_threads x = k.process.live_threads x) :
    Stopped t k.toCore (isr_return (c.elect candidate)) := by
  obtain ⟨hsame, hdead, _⟩ := Core.elect_killed hc hpick
  obtain ⟨run_state, exit_status, hthread⟩ := hsame
  obtain ⟨hproc, hk, _, _⟩ := c.elect_tables candidate
  have hproc' := (isr_return_process _).trans hproc
  refine {
    allocated := by rw [hthread]
    owner := by rw [hthread]
    kstack := by rw [hthread]
    pc := fun x => Or.inl (by rw [hthread])
    idle := by rw [hpc]; rfl
    alive := fun x hx => ⟨by have := hx.1; rwa [hthread] at this, fun hz => hx.2 ((hdead x).mpr (Or.inr hz))⟩
    loads := fun x hx hl => ⟨by rw [hthread]; exact hx.1, fun hz => ?_⟩
    kernel_p4 := (isr_return_kernel_p4 _).trans (hk.trans hkp4)
    kernel := by rw [hproc']; exact hkernel
    zombie := by rw [hproc']; exact hzombie
    live := fun x hx => ?_ }
  · -- a thread that dies with the current one loads no program
    rcases (hdead x).mp hz with hxS | hz
    · rcases hS x hxS with rfl | ⟨hp, hxo⟩
      · rw [hpc] at hl
        exact hl rfl
      · obtain ⟨p4, hload⟩ := Option.ne_none_iff_exists'.mp hl
        by_cases hex : k.thread.pc x = .exec_load p4
        · obtain rfl := hs.exec_sole h hx hex ht (ho.trans hxo.symm)
          rw [hpc] at hex
          cases hex
        · have hxk := hs.loader x p4 hx hload hex
          exact hp (Option.some.inj (hxo.symm.trans hxk))
    · exact hx.2 hz
  · rw [hproc']
    refine hlive x ?_
    rintro rfl
    exact hx ho

/-- A process that has ended gives up its page table. -/
theorem Core.torn_down_space (h0 : c.process.cr3 p ≠ 0) (hk : c.process.cr3 p ≠ c.kernel_p4)
    (status : Int) : (c.torn_down p status).p4s = c.p4s.erase (c.process.cr3 p) ∧
    (c.torn_down p status).process = { (c.bury p status).process with
      cr3 := Function.update c.process.cr3 p 0 } ∧
    (c.torn_down p status).kernel_p4 = c.kernel_p4 := by
  have hcr3 : ((c.bury p status).without_mutexes p c.mutex.list).process.cr3 p = c.process.cr3 p := rfl
  have hp4 : ((c.bury p status).without_mutexes p c.mutex.list).kernel_p4 = c.kernel_p4 := rfl
  unfold Core.torn_down destroy_process_address_space
  simp only [hcr3, hp4, h0, hk, or_self, if_false]
  obtain ⟨hproc, hkp4, _⟩ := MMU_destroy_p4.tables (c.process.cr3 p)
    { (c.bury p status).without_mutexes p c.mutex.list with
      cr3 := c.kernel_p4
      process.cr3 := Function.update c.process.cr3 p 0 }
  refine ⟨?_, hproc, hkp4⟩
  exact MMU_destroy_p4.p4s_eq h0 hk hk

theorem Core.space_torn_down (h0 : c.process.cr3 p ≠ 0) (hk : c.process.cr3 p ≠ c.kernel_p4)
    (status : Int) (x : Nat) : (c.torn_down p status).space (.process x) =
      if x = p then none else c.space (.process x) := by
  obtain ⟨_, hproc, _⟩ := Core.torn_down_space h0 hk status
  by_cases hx : x = p
  · subst hx
    rw [if_pos rfl]
    refine if_neg fun hu => ?_
    have hz := hu.2.2
    rw [hproc] at hz
    simp [Core.bury] at hz
  · rw [if_neg hx]
    refine Core.space_process_congr ?_ fun _ => ?_
    · simp only [Core.UserProcess, hproc, Core.bury, Function.update_of_ne hx]
    · rw [hproc]
      exact Function.update_of_ne hx _ _

theorem SpaceBooks.stop (hs : SpaceBooks k.toCore) (h : Books tidy k Q none) (hcpu : Cpu k.toCore)
    (hct : k.curr_proc = some t) (hstop : Stop e k.toCore Q t c' Q') : SpaceBooks c' := by
  have ht : k.Alive t := hcpu.alive hct
  cases hstop with
  | @block q call hpc huser hq hwait =>
    have hst : Stopped t k.toCore (k.toCore.blocked_in t call) := {
      allocated := rfl
      owner := rfl
      kstack := rfl
      pc := fun x => by
        by_cases hx : x = t
        · subst hx
          exact Or.inr ⟨by simp [Core.blocked_in, Pc.loads], hpc.loads⟩
        · exact Or.inl (Function.update_of_ne hx _ _)
      idle := hpc.loads
      alive := fun x hx => by
        by_cases he : x = t
        · exact he ▸ ht
        · exact ⟨hx.1, by simpa [Core.blocked_in, Core.set_run_state, he] using hx.2⟩
      loads := fun x hx _ => by
        refine ⟨hx.1, ?_⟩
        by_cases he : x = t
        · simp [Core.blocked_in, Core.set_run_state, he]
        · simpa [Core.blocked_in, Core.set_run_state, he] using hx.2
      kernel_p4 := rfl
      kernel := rfl
      zombie := hs.zombie
      live := fun _ _ => rfl }
    refine hs.stopped h ht hst (hs.assigns.congr fun u => ?_) fun _ hin => hin
    cases u with
    | process x => exact Core.space_process_eq rfl x
    | thread x => exact hst.space_thread x
  | @exit_thread candidate p status hpc hmain ho he hlive hpick =>
    have hst := hs.killed h ht ho hpc (S := (· = t)) hpick
      (fun x hx => Or.inl (of_decide_eq_true hx)) rfl rfl rfl hs.zombie
      fun x hx => Function.update_of_ne hx _ _
    obtain ⟨hproc, _, hp4s, _⟩ := Core.elect_tables candidate
      { (k.toCore.thread_killed t p status).all_woken (Q (.wait_thread_exit p)) with curr_proc := none }
    have hp4s' := (isr_return_p4s _).trans hp4s
    refine hs.stopped h ht hst ?_ fun _ hin => hp4s' ▸ hin
    rw [hp4s']
    refine hs.assigns.congr fun u => ?_
    cases u with
    | process x =>
      rw [Core.space_process_eq ((isr_return_process _).trans hproc)]
      exact Core.space_process_congr Iff.rfl fun _ => rfl
    | thread x => exact hst.space_thread x
  | @exit_process candidate p parent status c1 Q' hpc hmain ho hp hc1 hparent hpick hQp hQt hQ =>
    have hu := h.user_process ht ho hp
    have hold := Core.space_process hu
    obtain ⟨h0, hkp4⟩ := hs.valid _ ((hs.assigns.mem _).mpr ⟨_, hold⟩)
    -- all that the process of `c1` shares with the one before
    obtain ⟨S, hS, hthread, hrest, hlive⟩ : ∃ S : Nat → Bool,
        (∀ x, S x → x = t ∨ p ≠ kernel_process ∧ k.thread.owner x = some p) ∧
        c1.thread = (k.killed S status).thread ∧
        (c1.process.allocated = k.process.allocated ∧ c1.process.zombie = k.process.zombie ∧
          c1.process.cr3 = k.process.cr3 ∧ c1.kernel_p4 = k.kernel_p4 ∧ c1.p4s = k.p4s) ∧
        ∀ x, x ≠ p → c1.process.live_threads x = k.process.live_threads x := by
      rcases hc1 with ⟨rfl, _⟩ | ⟨rfl, _⟩
      · refine ⟨k.thread_of p, fun x hx => Or.inr ⟨hp, ?_⟩, rfl, ⟨rfl, rfl, rfl, rfl, rfl⟩,
          fun x hx => Function.update_of_ne hx _ _⟩
        simp only [Core.thread_of, Bool.and_eq_true, decide_eq_true_eq] at hx
        exact hx.2
      · exact ⟨(· = t), fun x hx => Or.inl (of_decide_eq_true hx), rfl, ⟨rfl, rfl, rfl, rfl, rfl⟩,
          fun x hx => Function.update_of_ne hx _ _⟩
    obtain ⟨halloc, hzomb, hcr3, hk, hp4s⟩ := hrest
    have h0' : c1.process.cr3 p ≠ 0 := by rwa [hcr3]
    have hk' : c1.process.cr3 p ≠ c1.kernel_p4 := by rwa [hcr3, hk]
    obtain ⟨htp4s, htproc, htk⟩ := Core.torn_down_space h0' hk' status
    have hzombie : ∀ x, (c1.torn_down p status).process.allocated x →
        (c1.torn_down p status).process.zombie x → (c1.torn_down p status).process.cr3 x = 0 := by
      rw [htproc]
      intro x hx hz
      simp only [Core.bury, halloc, hzomb, hcr3] at hx hz ⊢
      by_cases he : x = p
      · rw [he, Function.update_self]
      · rw [Function.update_of_ne he] at hz ⊢
        exact hs.zombie x hx hz
    have hst := hs.killed h ht ho hpc hpick hS
      (Core.all_woken_thread ((c1.torn_down_thread p status).trans hthread) _) (htk.trans hk)
      (by
        refine (congrFun (congrArg ProcessTable.cr3 htproc) kernel_process).trans ?_
        exact (Function.update_of_ne hp.symm _ _).trans (by rw [hcr3])) hzombie
      (fun x hx => (congrFun (congrArg ProcessTable.live_threads htproc) x).trans (hlive x hx))
    obtain ⟨hproc, _, hep4s, _⟩ := Core.elect_tables candidate
      { (c1.torn_down p status).all_woken (Q (.wait_child_exit parent)) with curr_proc := none }
    have hp4s' : (isr_return ({ (c1.torn_down p status).all_woken (Q (.wait_child_exit parent)) with
        curr_proc := none }.elect candidate)).p4s = k.p4s.erase (k.process.cr3 p) := by
      refine ((isr_return_p4s _).trans hep4s).trans (htp4s.trans ?_)
      rw [hp4s, hcr3]
    refine hs.stopped h ht hst ?_ fun _ hin => List.mem_of_mem_erase (hp4s' ▸ hin)
    rw [hp4s']
    refine (hs.assigns.remove hold).congr fun u => ?_
    cases u with
    | process x =>
      have hc1 : c1.space (.process x) = k.space (.process x) :=
        Core.space_process_congr (by simp only [Core.UserProcess, halloc, hzomb]) fun _ => by rw [hcr3]
      rw [Core.space_process_eq (c := c1.torn_down p status) ((isr_return_process _).trans hproc),
        Core.space_torn_down h0' hk', hc1, Function.update_apply]
      simp only [SpaceUser.process.injEq]
    | thread x => rw [Function.update_of_ne (by simp), hst.space_thread x]

/-! ## The CPU -/

/-- What the CPU uses is as it was before, and so is the current thread `t`. -/
structure SameCpu (t : Nat) (c c' : Core) : Prop where
  curr : c'.curr_proc = c.curr_proc
  next : c'.next_proc = c.next_proc
  cr3 : c'.cr3 = c.cr3
  rsp0 : c'.rsp0 = c.rsp0
  kernel_p4 : c'.kernel_p4 = c.kernel_p4
  owner : c'.thread.owner t = c.thread.owner t
  kstack : c'.thread.kstack t = c.thread.kstack t
  p4 : ∀ p, c.thread.owner t = some p → c'.process.cr3 p = c.process.cr3 p

theorem SameCpu.refl (t : Nat) (c : Core) : SameCpu t c c :=
  ⟨rfl, rfl, rfl, rfl, rfl, rfl, rfl, fun _ _ => rfl⟩

theorem SameCpu.spawned {u : Nat} (h : SameCpu t c c') (hu : t ≠ u) (p : Nat) (kstack : Word) :
    SameCpu t c (c'.spawned u p kstack) :=
  { h with
    owner := (Function.update_of_ne hu _ _).trans h.owner
    kstack := (Function.update_of_ne hu _ _).trans h.kstack }

theorem SameCpu.with_child (h : SameCpu t c c') (hp : c.thread.owner t ≠ some p) (parent : Nat)
    (cr3 : Word) : SameCpu t c (c'.with_child parent p cr3) := by
  refine { h with p4 := fun x hx => ?_ }
  have hxp : x ≠ p := by
    rintro rfl
    exact hp hx
  exact (Function.update_of_ne hxp _ _).trans (h.p4 x hx)

theorem SameCpu.dropped (h : SameCpu t c c') (ht : c'.thread.allocated t)
    (ho : ∀ p, c.thread.owner t = some p → c'.process.allocated p) (hd : c'.Dropped c'') :
    SameCpu t c c'' := by
  cases hd with
  | nothing => exact h
  | process p parent cr3 hp => exact { h.with_child (fun hto => hp (ho p hto)) parent cr3 with }
  | both p parent cr3 u hp hu =>
    have htu : t ≠ u := by
      rintro rfl
      exact hu ht
    exact { (h.with_child (fun hto => hp (ho p hto)) parent cr3).spawned htu p 0 with }

theorem SameCpu.destroy_p4 (h : SameCpu t c c') (p4 : Word) : SameCpu t c (MMU_destroy_p4 p4 c') := by
  obtain ⟨p4s, hframe⟩ := MMU_destroy_p4.frame p4 c'
  rw [hframe]
  exact { h with }

theorem SameCpu.woken {r : Ptr} (h : SameCpu t c c') : SameCpu t c (c'.woken r) := by
  rw [Core.woken_frame]
  exact { h with }

theorem Loaded.same (h : Loaded c) (ht : c.curr_proc = some t) (hs : SameCpu t c c') : Loaded c' where
  cr3 x hx := by
    obtain rfl : t = x := Option.some.inj (ht.symm.trans (hs.curr.symm.trans hx))
    rw [hs.cr3, h.cr3 t ht]
    unfold Core.p4_of
    rw [hs.owner, hs.kernel_p4]
    cases ho : c.thread.owner t with
    | none => rfl
    | some p => simp only [hs.p4 p ho]
  rsp0 x hx ho := by
    obtain rfl : t = x := Option.some.inj (ht.symm.trans (hs.curr.symm.trans hx))
    rw [hs.rsp0, hs.kstack]
    exact h.rsp0 t ht (hs.owner ▸ ho)

theorem loaded_of_no_thread (h : c.curr_proc = none) : Loaded c where
  cr3 t ht := by
    rw [h] at ht
    cases ht
  rsp0 t ht := by
    rw [h] at ht
    cases ht

/-- The current thread goes on. -/
theorem Loaded.stays (h : Loaded c) (hnext : c.next_proc = none ∨ c.next_proc = c.curr_proc) :
    Loaded (isr_return c) := by
  rw [isr_return_of_next hnext]
  exact h

theorem Loaded.ret (h : Loaded c) (hnext : c.next_proc = none ∨ c.next_proc = c.curr_proc)
    (call : Syscall) (value : Int) (status : Option Int) : Loaded (c.ret t call value status) := by
  refine Loaded.stays ?_ hnext
  exact ⟨h.cr3, h.rsp0⟩

/-- The thread that was picked has a kernel stack. -/
theorem Core.Picks.kstack {candidate : Ptr} (hpick : c.Picks candidate)
    (hks : ∀ x, c.thread.allocated x → c.thread.owner x ≠ some kernel_process → c.thread.kstack x ≠ 0)
    (hmain : c.thread.owner main_thread = some kernel_process)
    (ho : c.thread.owner (candidate.getD main_thread) ≠ some kernel_process) :
    c.thread.kstack (candidate.getD main_thread) ≠ 0 := by
  rcases hpick with ⟨rfl, _⟩ | ⟨x, rfl, hx, _⟩
  · exact absurd hmain ho
  · exact hks x hx.1 ho

/-- The next thread is picked, and goes on with its own page table and kernel stack. -/
theorem Loaded.elect {candidate : Ptr} (h : Loaded c) (hpick : c.Picks candidate)
    (hks : ∀ x, c.thread.allocated x → c.thread.owner x ≠ some kernel_process → c.thread.kstack x ≠ 0)
    (hmain : c.thread.owner main_thread = some kernel_process) (pc : Nat → Pc) (returns : List Return) :
    Loaded (isr_return { c.elect candidate with thread.pc := pc, returns := returns }) := by
  have hks' := hpick.kstack hks hmain
  rw [Core.elect_frame]
  simp only [isr_return]
  split
  · exact ⟨h.cr3, h.rsp0⟩
  · refine ⟨fun x hx => ?_, fun x hx ho => ?_⟩
    · cases hx
      rfl
    · cases hx
      exact if_pos (hks' ho)

theorem Loaded.move (hl : Loaded k.toCore) (h : Books tidy k Q none) (hcpu : Cpu k.toCore)
    (hct : k.curr_proc = some t) (hs : SpaceBooks k.toCore) (hm : Move e k.toCore Q t c' Q') :
    Loaded c' := by
  have ht : k.Alive t := hcpu.alive hct
  have hne : ∀ u, ¬k.thread.allocated u → t ≠ u := by
    rintro u hu rfl
    exact hu ht.1
  have hown : ∀ p, k.thread.owner t = some p → k.process.allocated p := by
    intro p ho
    obtain ⟨p', ho', hpa⟩ := h.owner t ht.1
    exact Option.some.inj (ho.symm.trans ho') ▸ hpa
  have hself := SameCpu.refl t k.toCore
  -- a call returns after changes that do not concern the CPU
  have hret : ∀ (c : Core) call value status, SameCpu t k.toCore c →
      Loaded (c.ret t call value status) := by
    intro c call value status hc
    refine (hl.same hct hc).ret ?_ call value status
    rw [hc.next, hc.curr]
    exact hcpu.next
  have hset : ∀ (c : Core) pc, SameCpu t k.toCore c → Loaded (c.set_pc t pc) :=
    fun c pc hc => hl.same hct { hc with }
  cases hm with
  | stop hstop =>
    cases hstop with
    | block => exact hl.same hct { hself with }
    | exit_thread hpc hmain ho he hlive hpick =>
      exact (loaded_of_no_thread rfl).elect hpick hs.kstack h.main_owner _ _
    | @exit_process candidate p parent status c1 Q' hpc hmain ho hp hc1 hparent hpick =>
      have hthread : ∃ run_state exit_status, (c1.torn_down p status).thread =
          { k.thread with run_state := run_state, exit_status := exit_status } := by
        rw [c1.torn_down_thread p status]
        rcases hc1 with ⟨rfl, _⟩ | ⟨rfl, _⟩ <;> exact ⟨_, _, rfl⟩
      obtain ⟨run_state, exit_status, hthread⟩ := hthread
      refine (loaded_of_no_thread rfl).elect hpick ?_ ?_ _ _
      · simp only [Core.all_woken, hthread]
        exact hs.kstack
      · simp only [Core.all_woken, hthread]
        exact h.main_owner
  | timer hpick => exact hl.elect hpick hs.kstack h.main_owner _ _
  | key_ignored => exact hl.stays hcpu.next
  | @key kbd_buf r dead rest hbuf hQ hdead hnone hsome =>
    have hc : SameCpu t k.toCore { k.toCore with kbd_buf := kbd_buf } := { hself with }
    refine (hl.same hct hc.woken).stays ?_
    rw [hc.woken.next, hc.woken.curr]
    exact hcpu.next
  | yield hpc hpick => exact hl.elect hpick hs.kstack h.main_owner _ _
  | @resume candidate call hpc hpick =>
    have hpc' : Loaded (k.set_pc t (.window call.resume)) := hset k.toCore _ hself
    exact hpc'.elect hpick hs.kstack h.main_owner _ _
  | fails => exact hret _ _ _ _ hself
  | wait | join | getc | mutex_create | lock | lock_handed | mutex_destroy =>
    exact hret _ _ _ _ { hself with }
  | unlock => exact hret _ _ _ _ { hself.woken with }
  | clone hpc ho hp hu => exact hret _ _ _ _ (hself.spawned (hne _ hu) _ _)
  | clone_fails hpc hu => exact hret _ _ _ _ { hself.spawned (hne _ hu) _ _ with }
  | create_kthread | no_kthread => exact hset _ _ hself
  | kthread hpc hu => exact hset _ _ (hself.spawned (hne _ hu) _ _)
  | kthread_fails hpc hu => exact hset _ _ { hself.spawned (hne _ hu) _ _ with }
  | @fork p4 kstack frame_offset parent p u hpc ho hparent hp4 hp hu =>
    have hp4s : SameCpu t k.toCore { k.toCore with p4s := p4 :: k.p4s } := { hself with }
    exact hret _ _ _ _ ((hp4s.with_child (fun hto => hp (hown p hto)) parent p4).spawned (hne u hu) p
      kstack)
  | @fork_fails p4 kstack process u frame_offset c1 hpc hp4 hc1 =>
    have hp4s : SameCpu t k.toCore { k.toCore with p4s := p4 :: k.p4s } := { hself with }
    exact hret _ _ _ _ ((hp4s.dropped ht.1 hown hc1).destroy_p4 p4)
  | exec | elf_load => exact hset _ _ { hself with }
  | exec_fails => exact hret _ _ _ _ (hself.destroy_p4 _)
  | @exec_done p4 p c1 hpc ho hc1 =>
    have hin : p4 ∈ k.p4s := (hs.assigns.mem _).mpr ⟨.thread t, by rw [Core.space_thread ht, hpc]; rfl⟩
    have hloaded : Loaded c1 := by
      rw [hc1]
      refine ⟨fun x hx => ?_, hl.rsp0⟩
      obtain rfl : t = x := Option.some.inj (hct.symm.trans hx)
      simp only [Core.p4_of, ho, Function.update_self]
      rw [if_pos (hs.valid p4 hin).1]
    have hcurr : c1.curr_proc = some t := by rw [hc1]; exact hct
    have hnext : c1.next_proc = none ∨ c1.next_proc = c1.curr_proc := by rw [hc1]; exact hcpu.next
    split
    · have hd := (SameCpu.refl t c1).destroy_p4 (k.process.cr3 p)
      refine (hloaded.same hcurr hd).ret ?_ _ _ _
      rw [hd.next, hd.curr]
      exact hnext
    · exact hloaded.ret hnext _ _ _
  | elf_fails => exact hset _ _ (hself.destroy_p4 _)
  | elf_loaded => exact hset _ _ hself
  | @uthread p4 kstack parent p u hpc ho hp hu =>
    exact hset _ _ ((hself.with_child (fun hto => hp (hown p hto)) parent p4).spawned (hne u hu) p
      kstack)
  | uthread_fails hpc hc1 => exact hset _ _ ((hself.dropped ht.1 hown hc1).destroy_p4 _)

/-! ## Runs -/

/-- The life of page tables, of processes and threads. Each page table that was created and not
destroyed belongs to a live process, or to a thread that loads a program into it. -/
structure SpaceLifecycle (c : Core) : Prop where
  distinct : ∀ p q, c.UserProcess p → c.UserProcess q → c.process.cr3 p = c.process.cr3 q → p = q
  nonzero : ∀ p, c.UserProcess p → c.process.cr3 p ≠ 0 ∧ c.process.cr3 p ∈ c.p4s
  held : ∀ p4 ∈ c.p4s, ∃! u, c.space u = some p4
  zombie : ∀ p, c.process.allocated p → c.process.zombie p → c.process.cr3 p = 0
  cr3 : c.cr3 = c.kernel_p4 ∧ (∀ t, c.curr_proc = some t → c.thread.owner t = some kernel_process) ∨
    ∃ t p, c.curr_proc = some t ∧ c.thread.owner t = some p ∧ c.UserProcess p ∧
      c.cr3 = c.process.cr3 p
  not_destroyed : c.cr3 = c.kernel_p4 ∨ c.cr3 ∈ c.p4s
  rsp0 : ∀ t, c.curr_proc = some t → c.thread.owner t ≠ some kernel_process →
    c.thread.kstack t ≠ 0 ∧ c.rsp0 = kstack_top (c.thread.kstack t)

theorem started_spaces (kernel_p4 : Word) : SpaceBooks (started kernel_p4).toCore where
  assigns := by
    have hnone : ∀ u, (started kernel_p4).toCore.space u = none := by
      intro u
      cases u with
      | process p =>
        refine if_neg fun hu => hu.2.1 ?_
        exact of_decide_eq_true hu.1
      | thread t =>
        have hpc : ((started kernel_p4).thread.pc t).loads = none := rfl
        simp only [Core.space, hpc, ite_self]
    refine ⟨List.nodup_nil, fun a => ?_, fun i j a hi => ?_⟩
    · simp only [hnone, reduceCtorEq, exists_false, iff_false]
      exact List.not_mem_nil
    · rw [hnone] at hi
      cases hi
  valid p4 hin := nomatch hin
  zombie p _ hz := nomatch hz
  kernel := rfl
  exec t p4 _ hpc := nomatch hpc
  loader t p4 _ hl := nomatch hl
  kstack t _ ho := absurd rfl ho

theorem started_loaded (kernel_p4 : Word) : Loaded (started kernel_p4).toCore where
  cr3 _ _ := (ite_self kernel_p4).symm
  rsp0 _ _ ho := absurd rfl ho

theorem SpaceBooks.lifecycle (hs : SpaceBooks k.toCore) (hl : Loaded k.toCore) (h : Books tidy k Q none)
    (hcpu : Cpu k.toCore) : SpaceLifecycle k.toCore := by
  obtain ⟨t, hct, ht⟩ := hcpu.curr
  have hmem : ∀ p, k.UserProcess p → k.process.cr3 p ∈ k.p4s :=
    fun p hp => (hs.assigns.mem _).mpr ⟨_, Core.space_process hp⟩
  have hcur : ∀ x, k.curr_proc = some x → x = t := fun x hx => Option.some.inj (hx.symm.trans hct)
  refine {
    distinct := fun p q hp hq he => ?_
    nonzero := fun p hp => ⟨(hs.valid _ (hmem p hp)).1, hmem p hp⟩
    held := fun p4 hin => hs.assigns.exists_unique hin
    zombie := hs.zombie
    cr3 := ?_
    not_destroyed := ?_
    rsp0 := fun x hx ho => ⟨?_, hl.rsp0 x hx ho⟩ }
  · cases hs.assigns.inj _ _ _ (Core.space_process hp) (he ▸ Core.space_process hq)
    rfl
  · obtain ⟨p, ho, hpa⟩ := h.owner t ht.1
    by_cases hp : p = kernel_process
    · subst hp
      refine Or.inl ⟨?_, fun x hx => hcur x hx ▸ ho⟩
      rw [hl.cr3 t hct]
      simp [Core.p4_of, ho, hs.kernel]
    · have hu := h.user_process ht ho hp
      refine Or.inr ⟨t, p, hct, ho, hu, ?_⟩
      rw [hl.cr3 t hct]
      simp only [Core.p4_of, ho]
      rw [if_pos (hs.valid _ (hmem p hu)).1]
  · exact (hs.cr3_mem h hl hct ht).imp_right fun ⟨p, hu, _, he⟩ => he ▸ hmem p hu
  · rw [hcur x hx] at ho ⊢
    exact hs.kstack t ht.1 ho

theorem SpaceBooks.move (hs : SpaceBooks k.toCore) (h : Books tidy k Q none) (hcpu : Cpu k.toCore)
    (ht : k.curr_proc = some t) (hl : Loaded k.toCore) (hm : Move e k.toCore Q t c' Q') :
    SpaceBooks c' := by
  rcases hm.quiet h (hcpu.alive ht).1 with hq | hstop
  · rcases hm.spaces h hcpu ht hs hl with hsm | hstop
    · exact hs.quiet h (hcpu.alive ht) hq hsm
    · exact hs.stop h hcpu ht hstop
  · exact hs.stop h hcpu ht hstop

end JamsOs
