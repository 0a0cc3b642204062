-- The moves in which the current thread goes on. They end and block no thread, and leave the calls
-- that threads are in, and the process tree, as they are.
import JamsOs.KernelRuns

namespace JamsOs

open Linked Runs

variable {tidy : Prop} {e : Event} {k : Kernel} {c c' c'' : Core} {Q Q' : QueueRef → List Nat}
  {n : Ptr} {t p u x : Nat}

/-! ## What stays -/

/-- A thread is the same before and after, and at most the current thread `t` has left its call. -/
structure SameThread (t : Nat) (c c' : Core) (x : Nat) : Prop where
  allocated : c.thread.allocated x
  tid : c'.thread.tid x = c.thread.tid x
  owner : c'.thread.owner x = c.thread.owner x
  zombie : c'.thread.run_state x = .zombie ↔ c.thread.run_state x = .zombie
  blocked : c'.thread.run_state x = .blocked → c.thread.run_state x = .blocked
  call : (c'.thread.pc x).call = (c.thread.pc x).call ∨ x = t ∧ (c'.thread.pc x).call = none
  pc : x ≠ t → c'.thread.pc x = c.thread.pc x
  kstack : c'.thread.kstack x = c.thread.kstack x

/-- A thread is new. -/
structure NewThread (t : Nat) (c c' : Core) (x : Nat) : Prop where
  other : x ≠ t
  tid : c.next_tid ≤ c'.thread.tid x
  alive : c'.thread.run_state x ≠ .zombie
  runnable : c'.thread.run_state x ≠ .blocked
  pc : c'.thread.pc x = .user
  kstack : c'.thread.kstack x ≠ 0

/-- No thread was ended or blocked, and no process was ended. A new thread has the address `n`. -/
structure Quiet (n : Ptr) (t : Nat) (c c' : Core) : Prop where
  thread : ∀ x, c'.thread.allocated x → SameThread t c c' x ∨ n = some x ∧ NewThread t c c' x
  kept : ∀ x, c.thread.allocated x → c.thread.run_state x ≠ .zombie →
    c'.thread.allocated x ∧ SameThread t c c' x
  process : ∀ p, c'.process.allocated p →
    c.process.allocated p ∧ c'.process.pid p = c.process.pid p ∧
      c'.process.parent p = c.process.parent p ∧ c'.process.zombie p = c.process.zombie p ∨
    c.next_pid ≤ c'.process.pid p ∧ c'.process.zombie p = false
  next_tid : c.next_tid ≤ c'.next_tid
  next_pid : c.next_pid ≤ c'.next_pid

theorem SameThread.trans (h : SameThread t c c' x) (h' : SameThread t c' c'' x) :
    SameThread t c c'' x where
  allocated := h.allocated
  tid := h'.tid.trans h.tid
  owner := h'.owner.trans h.owner
  zombie := h'.zombie.trans h.zombie
  blocked hb := h.blocked (h'.blocked hb)
  call := by
    rcases h'.call with he | ⟨rfl, hn⟩
    · rw [he]
      exact h.call
    · exact Or.inr ⟨rfl, hn⟩
  pc hx := (h'.pc hx).trans (h.pc hx)
  kstack := h'.kstack.trans h.kstack

theorem Quiet.trans (h : Quiet n t c c') (h' : Quiet n t c' c'') : Quiet n t c c'' where
  thread x hx := by
    rcases h'.thread x hx with hsame | ⟨hn', hnew⟩
    · rcases h.thread x hsame.allocated with hs | ⟨hn', hn⟩
      · exact Or.inl (hs.trans hsame)
      · exact Or.inr ⟨hn', hn.other, hsame.tid ▸ hn.tid, fun hz => hn.alive (hsame.zombie.mp hz),
          fun hb => hn.runnable (hsame.blocked hb), (hsame.pc hn.other).trans hn.pc,
          hsame.kstack ▸ hn.kstack⟩
    · exact Or.inr ⟨hn', hnew.other, h.next_tid.trans hnew.tid, hnew.alive, hnew.runnable, hnew.pc,
        hnew.kstack⟩
  kept x hx hz := by
    obtain ⟨hx', hs⟩ := h.kept x hx hz
    obtain ⟨hx'', hs'⟩ := h'.kept x hx' fun hz' => hz (hs.zombie.mp hz')
    exact ⟨hx'', hs.trans hs'⟩
  process p hp := by
    rcases h'.process p hp with ⟨hp', hpid, hpar, hz⟩ | ⟨hpid, hz⟩
    · rw [hpid, hpar, hz]
      exact h.process p hp'
    · exact Or.inr ⟨h.next_pid.trans hpid, hz⟩
  next_tid := h.next_tid.trans h'.next_tid
  next_pid := h.next_pid.trans h'.next_pid

/-- A thread that is in a call was in it before. -/
theorem Quiet.in_call {call : Call} (hq : Quiet n t c c') (hx : c'.thread.allocated x)
    (hcall : (c'.thread.pc x).call = some call) :
    SameThread t c c' x ∧ (c.thread.pc x).call = some call := by
  rcases hq.thread x hx with hs | ⟨_, hn⟩
  · refine ⟨hs, ?_⟩
    rcases hs.call with he | ⟨_, he⟩
    · exact he.symm.trans hcall
    · rw [he] at hcall
      cases hcall
  · rw [hn.pc] at hcall
    cases hcall

/-! ## Changes that are quiet -/

/-- Only run states and places of threads that are in use change, and records are freed. -/
theorem Quiet.of_threads (hsame : ∀ x, c'.thread.allocated x → SameThread t c c' x)
    (hkept : ∀ x, c.thread.allocated x → c.thread.run_state x ≠ .zombie → c'.thread.allocated x)
    (hproc : ∀ p, c'.process.allocated p → c.process.allocated p ∧
      c'.process.pid p = c.process.pid p ∧ c'.process.parent p = c.process.parent p ∧
      c'.process.zombie p = c.process.zombie p)
    (htid : c.next_tid ≤ c'.next_tid) (hpid : c.next_pid ≤ c'.next_pid) : Quiet n t c c' where
  thread x hx := Or.inl (hsame x hx)
  kept x hx hz := ⟨hkept x hx hz, hsame x (hkept x hx hz)⟩
  process p hp := Or.inl (hproc p hp)
  next_tid := htid
  next_pid := hpid

/-- Threads and processes stay as they are. -/
theorem Quiet.of_tables (hthread : c'.thread = c.thread)
    (hproc : ∃ cr3, c'.process = { c.process with cr3 := cr3 })
    (htid : c'.next_tid = c.next_tid) (hpid : c'.next_pid = c.next_pid) : Quiet n t c c' := by
  obtain ⟨cr3, hproc⟩ := hproc
  refine .of_threads ?_ ?_ ?_ htid.ge hpid.ge
  · intro x hx
    rw [hthread] at hx
    exact ⟨hx, by rw [hthread], by rw [hthread], by rw [hthread], by rw [hthread]; exact id,
      Or.inl (by rw [hthread]), fun _ => by rw [hthread], by rw [hthread]⟩
  · intro x hx _
    rwa [hthread]
  · intro p hp
    rw [hproc] at hp ⊢
    exact ⟨hp, rfl, rfl, rfl⟩

theorem Quiet.refl (n : Ptr) (t : Nat) (c : Core) : Quiet n t c c := .of_tables rfl ⟨_, rfl⟩ rfl rfl

theorem isr_return.frame (c : Core) : ∃ curr next cr3 rsp0, isr_return c =
    { c with curr_proc := curr, next_proc := next, cr3 := cr3, rsp0 := rsp0 } := by
  unfold isr_return
  split
  · exact ⟨c.curr_proc, c.next_proc, c.cr3, c.rsp0, rfl⟩
  · split
    · exact ⟨c.curr_proc, c.next_proc, c.cr3, c.rsp0, rfl⟩
    · exact ⟨_, _, _, _, rfl⟩

@[simp] theorem isr_return_thread (c : Core) : (isr_return c).thread = c.thread := by
  obtain ⟨curr, next, cr3, rsp0, hframe⟩ := isr_return.frame c
  rw [hframe]

@[simp] theorem isr_return_process (c : Core) : (isr_return c).process = c.process := by
  obtain ⟨curr, next, cr3, rsp0, hframe⟩ := isr_return.frame c
  rw [hframe]

@[simp] theorem isr_return_mutex (c : Core) : (isr_return c).mutex = c.mutex := by
  obtain ⟨curr, next, cr3, rsp0, hframe⟩ := isr_return.frame c
  rw [hframe]

@[simp] theorem isr_return_returns (c : Core) : (isr_return c).returns = c.returns := by
  obtain ⟨curr, next, cr3, rsp0, hframe⟩ := isr_return.frame c
  rw [hframe]

@[simp] theorem Core.ret_thread (t : Nat) (call : Syscall) (value : Int) (status : Option Int)
    (c : Core) : (c.ret t call value status).thread =
      { c.thread with pc := Function.update c.thread.pc t .user } :=
  isr_return_thread _

@[simp] theorem Core.ret_process (t : Nat) (call : Syscall) (value : Int) (status : Option Int)
    (c : Core) : (c.ret t call value status).process = c.process :=
  isr_return_process _

@[simp] theorem Core.ret_mutex (t : Nat) (call : Syscall) (value : Int) (status : Option Int)
    (c : Core) : (c.ret t call value status).mutex = c.mutex :=
  isr_return_mutex _

@[simp] theorem Core.ret_returns (t : Nat) (call : Syscall) (value : Int) (status : Option Int)
    (c : Core) :
    (c.ret t call value status).returns = ⟨c.thread.tid t, call, value, status⟩ :: c.returns :=
  isr_return_returns _

theorem Quiet.isr_return (h : Quiet n t c c') : Quiet n t c (isr_return c') := by
  obtain ⟨curr, next, cr3, rsp0, hframe⟩ := isr_return.frame c'
  refine h.trans ?_
  rw [hframe]
  exact .of_tables rfl ⟨_, rfl⟩ rfl rfl

/-- The current thread goes to a place outside all calls, or stays in its call. -/
theorem Quiet.set_pc (h : Quiet n t c c') {pc : Pc}
    (hpc : pc.call = none ∨ pc.call = (c'.thread.pc t).call) : Quiet n t c (c'.set_pc t pc) := by
  refine h.trans (.of_threads (fun x hx => ⟨hx, rfl, rfl, Iff.rfl, id, ?_,
    fun hne => Function.update_of_ne hne _ _, rfl⟩) (fun _ hx _ => hx)
    (fun _ hp => ⟨hp, rfl, rfl, rfl⟩) le_rfl le_rfl)
  simp only [Core.set_pc]
  by_cases he : x = t
  · subst he
    rw [Function.update_self]
    exact hpc.symm.imp_right fun hn => ⟨rfl, hn⟩
  · exact Or.inl (by rw [Function.update_of_ne he])

theorem Quiet.ret (h : Quiet n t c c') (call : Syscall) (value : Int) (status : Option Int) :
    Quiet n t c (c'.ret t call value status) := by
  have hpc : Quiet n t c (c'.set_pc t .user) := h.set_pc (Or.inl rfl)
  refine Quiet.isr_return (hpc.trans ?_)
  exact .of_tables rfl ⟨_, rfl⟩ rfl rfl

/-- Threads change between states in which they are not dead, and none blocks. -/
theorem Quiet.reassign {run_state : Nat → RunState}
    (hs : ∀ x, run_state x = c.thread.run_state x ∨
      c.thread.run_state x ≠ .zombie ∧ (run_state x = .ready ∨ run_state x = .running)) :
    Quiet n t c { c with thread.run_state := run_state } := by
  refine .of_threads (fun x hx => ⟨hx, rfl, rfl, ?_, ?_, Or.inl rfl, fun _ => rfl, rfl⟩)
    (fun _ hx _ => hx) (fun _ hp => ⟨hp, rfl, rfl, rfl⟩) le_rfl le_rfl
  · rcases hs x with he | ⟨hz, hr⟩
    · simp only [he]
    · rcases hr with hr | hr <;> simp [hr, hz]
  · rcases hs x with he | ⟨_, hr⟩
    · simp only [he]
      exact id
    · rcases hr with hr | hr <;> simp [hr]

theorem Quiet.elect {candidate : Ptr} (hpick : c.Picks candidate) : Quiet n t c (c.elect candidate) := by
  have hkeep := Core.elect_reassigns hpick
  rw [Core.elect_frame] at hkeep ⊢
  have h := Quiet.reassign (n := n) (t := t) (c := c) fun x => (hkeep x).imp_right fun ⟨h1, h2⟩ =>
    ⟨by rcases h1 with h1 | h1 <;> simp [h1], h2⟩
  exact h.trans (.of_tables rfl ⟨_, rfl⟩ rfl rfl)

theorem Quiet.woken {r : Ptr} (hr : ∀ x, r = some x → c.thread.run_state x = .blocked) :
    Quiet n t c (c.woken r) := by
  rw [Core.woken_frame]
  exact .reassign fun x => (Core.woken_run_state hr x).imp_right fun ⟨hb, hs⟩ =>
    ⟨by simp [hb], Or.inl hs⟩

theorem Quiet.spawned (ht : c.thread.allocated t) (hu : ¬c.thread.allocated u) (hn : n = some u)
    {kstack : Word} (hks : kstack ≠ 0) (p : Nat) : Quiet n t c (c.spawned u p kstack) := by
  have hut : u ≠ t := by
    rintro rfl
    exact hu ht
  have hsame : ∀ x, c.thread.allocated x →
      (c.spawned u p kstack).thread.allocated x ∧ SameThread t c (c.spawned u p kstack) x := by
    intro x hx
    have hxu : x ≠ u := by
      rintro rfl
      exact hu hx
    simp only [Core.spawned]
    refine ⟨by simp [hxu, hx], hx, ?_, ?_, ?_, ?_, Or.inl ?_, fun _ => ?_, ?_⟩ <;> simp [hxu]
  refine ⟨fun x hx => ?_, fun x hx _ => hsame x hx, fun p hp => Or.inl ⟨hp, rfl, rfl, rfl⟩,
    Nat.le_succ _, le_rfl⟩
  by_cases hxu : x = u
  · subst hxu
    exact Or.inr ⟨hn, hut, by simp [Core.spawned], by simp [Core.spawned], by simp [Core.spawned],
      by simp [Core.spawned], by simpa [Core.spawned] using hks⟩
  · refine Or.inl (hsame x ?_).2
    simpa [Core.spawned, hxu] using hx

theorem Quiet.thread_dropped (hu : ¬c.thread.allocated u) (p : Nat) :
    Quiet n t c (c.thread_dropped u p) := by
  refine .of_threads (fun x hx => ?_) (fun _ hx _ => hx) (fun _ hp => ⟨hp, rfl, rfl, rfl⟩)
    (Nat.le_succ _) le_rfl
  have hx : c.thread.allocated x := hx
  have hxu : x ≠ u := by
    rintro rfl
    exact hu hx
  simp only [Core.thread_dropped, Core.spawned]
  refine ⟨hx, ?_, ?_, ?_, ?_, Or.inl ?_, fun _ => ?_, ?_⟩ <;> simp [hxu]

theorem Quiet.with_child (hp : ¬c.process.allocated p) (parent : Nat) (cr3 : Word) :
    Quiet n t c (c.with_child parent p cr3) := by
  refine ⟨fun x hx => Or.inl ⟨hx, rfl, rfl, Iff.rfl, id, Or.inl rfl, fun _ => rfl, rfl⟩,
    fun x hx _ => ⟨hx, hx, rfl, rfl, Iff.rfl, id, Or.inl rfl, fun _ => rfl, rfl⟩, fun x hx => ?_,
    le_rfl, Nat.le_succ _⟩
  by_cases hxp : x = p
  · subst hxp
    exact Or.inr ⟨by simp [Core.with_child], by simp [Core.with_child]⟩
  · refine Or.inl ⟨?_, ?_, ?_, ?_⟩
    · simpa [Core.with_child, hxp] using hx
    all_goals simp [Core.with_child, hxp]

theorem Quiet.new_process (ht : c.thread.allocated t) (hp : ¬c.process.allocated p)
    (hu : ¬c.thread.allocated u) (hn : n = some u) {kstack : Word} (hks : kstack ≠ 0) (parent : Nat)
    (cr3 : Word) : Quiet n t c ((c.with_child parent p cr3).spawned u p kstack) :=
  (Quiet.with_child hp parent cr3).trans
    (.spawned (c := c.with_child parent p cr3) ht hu hn hks p)

theorem Quiet.process_dropped (hp : ¬c.process.allocated p) (parent : Nat) (cr3 : Word) :
    Quiet n t c (c.process_dropped p parent cr3) := by
  refine .of_threads (fun x hx => ⟨hx, rfl, rfl, Iff.rfl, id, Or.inl rfl, fun _ => rfl, rfl⟩)
    (fun _ hx _ => hx) (fun x hx => ?_) le_rfl (Nat.le_succ _)
  have hx : c.process.allocated x := hx
  have hxp : x ≠ p := by
    rintro rfl
    exact hp hx
  simp [Core.process_dropped, Core.with_child, hxp, hx]

theorem Quiet.dropped (hd : c.Dropped c') : Quiet n t c c' := by
  cases hd with
  | nothing => exact .refl n t c
  | process p parent cr3 hp => exact .process_dropped hp parent cr3
  | both p parent cr3 u hp hu =>
    exact (Quiet.process_dropped hp parent cr3).trans
      (.thread_dropped (c := c.process_dropped p parent cr3) hu p)

theorem Quiet.destroy_p4 (h : Quiet n t c c') (p4 : Word) : Quiet n t c (MMU_destroy_p4 p4 c') := by
  obtain ⟨p4s, hp4s⟩ := MMU_destroy_p4.frame p4 c'
  refine h.trans ?_
  rw [hp4s]
  exact .of_tables rfl ⟨_, rfl⟩ rfl rfl

/-- Records of dead threads and of zombies are freed. -/
theorem Quiet.freed {allocated process_allocated : Nat → Bool} {parent : Nat → Ptr}
    (ha : ∀ x, allocated x → c.thread.allocated x)
    (halive : ∀ x, c.thread.allocated x → c.thread.run_state x ≠ .zombie → allocated x)
    (hp : ∀ x, process_allocated x → c.process.allocated x ∧ parent x = c.process.parent x) :
    Quiet n t c { c with
      thread.allocated := allocated
      process.allocated := process_allocated
      process.parent := parent } :=
  .of_threads (fun x hx => ⟨ha x hx, rfl, rfl, Iff.rfl, id, Or.inl rfl, fun _ => rfl, rfl⟩) halive
    (fun x hx => ⟨(hp x hx).1, rfl, (hp x hx).2, rfl⟩) le_rfl le_rfl

/-! ## Every move is quiet, or the current thread stops -/

theorem Move.quiet (h : Books tidy k Q none) (ha : k.thread.allocated t)
    (hm : Move e k.toCore Q t c' Q') :
    Quiet (new_thread e k.toCore) t k.toCore c' ∨ Stop e k.toCore Q t c' Q' := by
  cases hm with
  | stop hstop => exact Or.inr hstop
  | timer hpick => exact Or.inl (Quiet.elect hpick).isr_return
  | key_ignored => exact Or.inl (Quiet.refl _ t _).isr_return
  | @key kbd_buf r dead rest hbuf hQ hdead hnone hsome =>
    refine Or.inl (Quiet.isr_return ?_)
    have hbuf : Quiet (new_thread e k.toCore) t k.toCore { k.toCore with kbd_buf := kbd_buf } :=
      .of_tables rfl ⟨_, rfl⟩ rfl rfl
    exact hbuf.trans (.woken hsome)
  | yield hpc hpick => exact Or.inl ((Quiet.elect hpick).ret _ _ _)
  | @resume candidate call hpc hpick =>
    refine Or.inl (Quiet.isr_return (Quiet.trans ?_ (.elect hpick)))
    refine (Quiet.refl _ t _).set_pc (Or.inr ?_)
    rw [hpc]
    exact call.resume_call
  | fails hpc hvalue => exact Or.inl ((Quiet.refl _ t _).ret _ _ _)
  | @wait status p child ts hpc hfrom ho hchild hne hparent hz hts =>
    refine Or.inl (Quiet.ret ?_ _ _ _)
    refine Quiet.freed ?_ ?_ ?_
    · intro x hx
      exact (Bool.and_eq_true_iff.mp hx).1
    · intro x hx hxz
      refine Bool.and_eq_true_iff.mpr ⟨hx, ?_⟩
      rw [Bool.not_eq_true', decide_eq_false_iff_not]
      exact fun hin => hxz (h.zombie_threads hchild hz hx ((hts x).mp hin).2)
    · intro x hx
      by_cases he : x = child
      · subst he
        simp at hx
      · rw [Function.update_of_ne he] at hx
        exact ⟨hx, Function.update_of_ne he _ _⟩
  | @join status p target hpc hfrom ho htarget hto hz =>
    refine Or.inl (Quiet.ret ?_ _ _ _)
    refine Quiet.freed ?_ ?_ fun x hx => ⟨hx, rfl⟩
    · intro x hx
      by_cases he : x = target
      · exact he ▸ htarget
      · rwa [Function.update_of_ne he] at hx
    · intro x hx hxz
      have he : x ≠ target := by
        rintro rfl
        exact hxz hz
      rwa [Function.update_of_ne he]
  | getc hpc hbuf =>
    refine Or.inl (Quiet.ret ?_ _ _ _)
    exact .of_tables rfl ⟨_, rfl⟩ rfl rfl
  | mutex_create hpc huser hm =>
    refine Or.inl (Quiet.ret ?_ _ _ _)
    exact .of_tables rfl ⟨_, rfl⟩ rfl rfl
  | lock hpc hm ho hfree =>
    refine Or.inl (Quiet.ret ?_ _ _ _)
    exact .of_tables rfl ⟨_, rfl⟩ rfl rfl
  | lock_handed hpc hown => exact Or.inl ((Quiet.refl _ t _).ret _ _ _)
  | @unlock m r dead rest hpc hm ho hown hQ hdead hnone hsome =>
    refine Or.inl (Quiet.ret ?_ _ _ _)
    exact (Quiet.woken hsome).trans (.of_tables rfl ⟨_, rfl⟩ rfl rfl)
  | mutex_destroy hpc hm ho hfree hempty =>
    refine Or.inl (Quiet.ret ?_ _ _ _)
    exact .of_tables rfl ⟨_, rfl⟩ rfl rfl
  | clone hpc ho hp hu hnew hk hks => exact Or.inl ((Quiet.spawned ha hu hnew hks _).ret _ _ _)
  | clone_fails hpc hu hk => exact Or.inl ((Quiet.thread_dropped hu _).ret _ _ _)
  | create_kthread hpc ho => exact Or.inl ((Quiet.refl _ t _).set_pc (Or.inl rfl))
  | no_kthread hpc => exact Or.inl ((Quiet.refl _ t _).set_pc (Or.inl rfl))
  | kthread hpc hu hnew hk hks => exact Or.inl ((Quiet.spawned ha hu hnew hks _).set_pc (Or.inl rfl))
  | kthread_fails hpc hu hk => exact Or.inl ((Quiet.thread_dropped hu _).set_pc (Or.inl rfl))
  | @fork p4 kstack frame_offset parent p u hpc ho hparent hp4 hp hu hnew hk hks =>
    refine Or.inl (Quiet.ret ?_ _ _ _)
    have hnew_p4 : Quiet (new_thread e k.toCore) t k.toCore { k.toCore with p4s := p4 :: k.p4s } :=
      .of_tables rfl ⟨_, rfl⟩ rfl rfl
    exact hnew_p4.trans
      (.new_process (c := { k.toCore with p4s := p4 :: k.p4s }) ha hp hu hnew hks parent p4)
  | @fork_fails p4 kstack process u frame_offset c1 hpc hp4 hc1 =>
    refine Or.inl (Quiet.ret (Quiet.destroy_p4 ?_ p4) _ _ _)
    have hnew_p4 : Quiet (new_thread e k.toCore) t k.toCore { k.toCore with p4s := p4 :: k.p4s } :=
      .of_tables rfl ⟨_, rfl⟩ rfl rfl
    exact hnew_p4.trans (.dropped hc1)
  | @exec p4 p hpc ho hp hlive hp4 =>
    refine Or.inl (Quiet.set_pc ?_ (Or.inl rfl))
    exact .of_tables rfl ⟨_, rfl⟩ rfl rfl
  | exec_fails hpc => exact Or.inl (((Quiet.refl _ t _).destroy_p4 _).ret _ _ _)
  | @exec_done p4 p c1 hpc ho hc1 =>
    have h1 : Quiet (new_thread e k.toCore) t k.toCore c1 := by
      rw [hc1]
      exact .of_tables rfl ⟨_, rfl⟩ rfl rfl
    refine Or.inl (Quiet.ret ?_ _ _ _)
    split
    · exact h1.destroy_p4 _
    · exact h1
  | @elf_load p4 hpc ho hp4 =>
    refine Or.inl (Quiet.set_pc ?_ (Or.inl rfl))
    exact .of_tables rfl ⟨_, rfl⟩ rfl rfl
  | elf_fails hpc => exact Or.inl (((Quiet.refl _ t _).destroy_p4 _).set_pc (Or.inl rfl))
  | elf_loaded hpc => exact Or.inl ((Quiet.refl _ t _).set_pc (Or.inl rfl))
  | @uthread p4 kstack parent p u hpc ho hp hu hnew hk hks =>
    exact Or.inl ((Quiet.new_process ha hp hu hnew hks parent p4).set_pc (Or.inl rfl))
  | uthread_fails hpc hc1 => exact Or.inl (((Quiet.dropped hc1).destroy_p4 _).set_pc (Or.inl rfl))

/-! ## The current thread stops -/

/-- A blocked thread is on the queue of its call. -/
theorem Books.mem_queue {q : QueueRef} (h : Books tidy k Q none) (hx : k.thread.allocated x)
    (hb : k.thread.run_state x = .blocked) (hplace : k.place x = some q) : x ∈ Q q := by
  obtain ⟨q', hq', hin⟩ := h.blocked x hx hb
  obtain rfl : q' = q := Option.some.inj ((h.queue_place q' hq' x hin).symm.trans hplace)
  exact hin

/-- The one live thread of a process. -/
theorem Books.sole_thread (h : Books tidy k Q none) (hp : k.process.allocated p)
    (hlive : k.process.live_threads p = 1) (ht : k.thread.allocated t)
    (hto : k.thread.owner t = some p) (htz : k.thread.run_state t ≠ .zombie)
    (hx : k.thread.allocated x) (hxo : k.thread.owner x = some p)
    (hxz : k.thread.run_state x ≠ .zombie) : x = t := by
  obtain ⟨l, hc, hm, hcount⟩ := h.threads p hp
  have hrest := countP_alive_remove hc.nodup ((hm t).mpr ⟨ht, hto⟩) htz
  rw [← hcount, hlive] at hrest
  by_contra hne
  have := List.countP_eq_zero.mp hrest x ((hm x).mpr ⟨hx, hxo⟩)
  simp [hne, hxz] at this

/-- Threads die, and those that wait for one of them wake up. -/
theorem Core.killed_blocked {S : Nat → Bool} {status : Int} {l : List Nat}
    (hb : ((c.killed S status).all_woken l).thread.run_state x = .blocked) :
    ¬S x ∧ x ∉ l ∧ c.thread.run_state x = .blocked := by
  simp only [Core.all_woken, Core.killed] at hb
  by_cases hS : S x
  · simp [hS] at hb
  · by_cases hin : x ∈ l
    · simp only [hS, Bool.false_eq_true, hin, true_and, if_false] at hb
      split at hb
      · cases hb
      · exact absurd hb ‹_›
    · simp only [hS, Bool.false_eq_true, hin, false_and, if_false] at hb
      exact ⟨hS, hin, hb⟩

theorem Core.killed_zombie {S : Nat → Bool} {status : Int} {l : List Nat} :
    ((c.killed S status).all_woken l).thread.run_state x = .zombie ↔
      S x ∨ c.thread.run_state x = .zombie := by
  rw [Core.all_woken_zombie]
  simp only [Core.killed]
  split
  · simp [*]
  · simp [*]

theorem Core.elect_zombie {candidate : Ptr} (hpick : c.Picks candidate) :
    (c.elect candidate).thread.run_state x = .zombie ↔ c.thread.run_state x = .zombie := by
  rcases Core.elect_reassigns hpick x with he | ⟨h1, h2⟩
  · rw [he]
  · rcases h1 with h1 | h1 <;> rcases h2 with h2 | h2 <;> simp [h1, h2]

theorem Core.elect_blocked {candidate : Ptr} (hpick : c.Picks candidate) :
    (c.elect candidate).thread.run_state x = .blocked ↔ c.thread.run_state x = .blocked := by
  rcases Core.elect_reassigns hpick x with he | ⟨h1, h2⟩
  · rw [he]
  · rcases h1 with h1 | h1 <;> rcases h2 with h2 | h2 <;> simp [h1, h2]

/-! ## The log of returns -/

@[simp] theorem Core.elect_returns (candidate : Ptr) (c : Core) :
    (c.elect candidate).returns = c.returns := by
  rw [Core.elect_frame]

@[simp] theorem Core.woken_returns (r : Ptr) (c : Core) : (c.woken r).returns = c.returns := by
  cases r <;> rfl

@[simp] theorem MMU_destroy_p4.returns (p4 : Word) (c : Core) :
    (MMU_destroy_p4 p4 c).returns = c.returns := by
  obtain ⟨p4s, hframe⟩ := MMU_destroy_p4.frame p4 c
  rw [hframe]

@[simp] theorem Core.torn_down_returns (p : Nat) (status : Int) (c : Core) :
    (c.torn_down p status).returns = c.returns := by
  obtain ⟨cr3, process_cr3, p4s, hframe⟩ := c.torn_down_frame p status
  rw [hframe]
  rfl

theorem Core.Dropped.returns (hd : c.Dropped c') : c'.returns = c.returns := by
  cases hd <;> rfl

theorem Stop.returns (hs : Stop e c Q t c' Q') : c'.returns = c.returns := by
  cases hs with
  | block => rfl
  | exit_thread => exact (isr_return_returns _).trans (Core.elect_returns _ _)
  | exit_process hpc hmain ho hp hc1 =>
    refine (isr_return_returns _).trans ((Core.elect_returns _ _).trans ?_)
    refine (Core.torn_down_returns _ _ _).trans ?_
    rcases hc1 with ⟨rfl, _⟩ | ⟨rfl, _⟩ <;> rfl

/-- The current thread `t` of the process `p` has ended. Either it was one of several threads, or all
threads of `p` are dead and the mutexes of `p` are gone. -/
structure Ended (e : Event) (c : Core) (Q : QueueRef → List Nat) (t p : Nat) (c' : Core)
    (Q' : QueueRef → List Nat) : Prop where
  thread : ∃ run_state exit_status,
    c'.thread = { c.thread with run_state := run_state, exit_status := exit_status }
  dead : ∀ x, c.thread.run_state x = .zombie → c'.thread.run_state x = .zombie
  waiters : ∀ x m, c.mutex.allocated m → x ∈ Q (.waiters m) → c'.thread.run_state x ≠ .zombie →
    c'.thread.run_state x = .blocked
  mutex : ∃ allocated list, c'.mutex = { c.mutex with allocated := allocated, list := list }
  queues : ∀ m, Q' (.waiters m) = Q (.waiters m) ∨ Q' (.waiters m) = []
  ends : c'.mutex = c.mutex ∧ ((∃ status, e = .call (.thread_exit status)) ∨ p = kernel_process) ∧
      1 < c.process.live_threads p ∧
      (∀ x, c'.thread.run_state x = .zombie → c.thread.run_state x = .zombie ∨ x = t) ∨
    (∀ m, m ∈ c'.mutex.list ↔ m ∈ c.mutex.list ∧ c.mutex.owner_process m ≠ some p) ∧
      (∀ x, c.thread.allocated x → c.thread.owner x = some p → c'.thread.run_state x = .zombie) ∧
      (∀ x, c'.thread.run_state x = .zombie →
        c.thread.run_state x = .zombie ∨ c.thread.owner x = some p)

/-- What becomes of the run states when threads die, others wake up, and the next one is picked. -/
theorem Core.elect_killed {S : Nat → Bool} {status : Int} {l : List Nat} {candidate : Ptr} {c1 : Core}
    (hc1 : c1.thread = ((c.killed S status).all_woken l).thread) (hpick : c1.Picks candidate) :
    (∃ run_state exit_status, (isr_return (c1.elect candidate)).thread =
      { c.thread with run_state := run_state, exit_status := exit_status }) ∧
    (∀ x, (isr_return (c1.elect candidate)).thread.run_state x = .zombie ↔
      S x ∨ c.thread.run_state x = .zombie) ∧
    ∀ x, x ∉ l → ¬S x → c.thread.run_state x = .blocked →
      (isr_return (c1.elect candidate)).thread.run_state x = .blocked := by
  refine ⟨?_, fun x => ?_, fun x hl hS hb => ?_⟩
  · rw [isr_return_thread, Core.elect_frame, hc1]
    exact ⟨_, _, rfl⟩
  · rw [isr_return_thread, Core.elect_zombie hpick, hc1, Core.killed_zombie]
  · rw [isr_return_thread, Core.elect_blocked hpick, hc1]
    simp [Core.all_woken, Core.killed, hl, hS, hb]

theorem Stop.ended (h : Books tidy k Q none) (hcpu : Cpu k.toCore) (ht : k.curr_proc = some t)
    (hs : Stop e k.toCore Q t c' Q') :
    (∃ q call, k.thread.owner t ≠ some kernel_process ∧ call.queue (k.thread.owner t) = some q ∧
      k.MustWait t call ∧ c' = k.toCore.blocked_in t call ∧ Q' = Function.update Q q (Q q ++ [t])) ∨
    ∃ p, k.thread.owner t = some p ∧ k.process.allocated p ∧ Ended e k.toCore Q t p c' Q' := by
  obtain ⟨ha, hz⟩ := hcpu.alive ht
  have hwaits : ∀ x m, k.mutex.allocated m → x ∈ Q (.waiters m) → k.thread.run_state x ≠ .zombie →
      k.thread.run_state x = .blocked := by
    intro x m hm hx hxz
    exact ((h.queue_state (.waiters m) hm x hx).resolve_left hxz).2
  cases hs with
  | @block q call hpc huser hq hwait => exact Or.inl ⟨q, call, huser, hq, hwait, rfl, rfl⟩
  | @exit_thread candidate p status hpc hmain ho he hlive hpick =>
    obtain ⟨p', ho', hpa⟩ := h.owner t ha
    obtain rfl : p = p' := Option.some.inj (ho.symm.trans ho')
    have hthread : ({ (k.toCore.thread_killed t p status).all_woken (Q (.wait_thread_exit p)) with
        curr_proc := none } : Core).thread =
        ((k.killed (· = t) status).all_woken (Q (.wait_thread_exit p))).thread := rfl
    obtain ⟨hsame, hzombie, hblocked⟩ := Core.elect_killed hthread hpick
    refine Or.inr ⟨p, ho, hpa, hsame, fun x hx => (hzombie x).mpr (Or.inr hx), ?_, ?_, ?_, Or.inl ?_⟩
    · intro x m hm hx hxz
      rw [ne_eq, hzombie, not_or] at hxz
      refine hblocked x (fun hin => ?_) hxz.1 (hwaits x m hm hx hxz.2)
      have hlive : k.LiveQueue (.wait_thread_exit p) := hpa
      cases h.queue_unique (q := .waiters m) hm hlive hx hin
    · rw [isr_return_mutex, Core.elect_frame]
      exact ⟨_, _, rfl⟩
    · intro m
      exact Or.inl (Function.update_of_ne (by simp) _ _)
    · refine ⟨?_, he.imp_left fun hst => ⟨status, hst⟩, hlive, fun x hx => ?_⟩
      · rw [isr_return_mutex, Core.elect_frame]
        rfl
      · exact ((hzombie x).mp hx).symm.imp_right of_decide_eq_true
  | @exit_process candidate p parent status c1 Q' hpc hmain ho hp hc1 hparent hpick hQp hQt hQ =>
    obtain ⟨p', ho', hpa⟩ := h.owner t ha
    obtain rfl : p = p' := Option.some.inj (ho.symm.trans ho')
    obtain ⟨parent', hpar', hparenta, _⟩ := h.parent p hpa hp
    obtain rfl : parent = parent' := Option.some.inj (hparent.symm.trans hpar')
    obtain ⟨S, hS, hall, hsub⟩ : ∃ S : Nat → Bool, c1.thread = (k.killed S status).thread ∧
        (∀ x, k.thread.allocated x → k.thread.owner x = some p →
          S x ∨ k.thread.run_state x = .zombie) ∧ ∀ x, S x → k.thread.owner x = some p := by
      rcases hc1 with ⟨rfl, _⟩ | ⟨rfl, hlive⟩
      · refine ⟨k.thread_of p, rfl, fun x hx hxo => Or.inl ?_, fun x hx => ?_⟩
        · simp [Core.thread_of, hx, hxo]
        · simp only [Core.thread_of, Bool.and_eq_true, decide_eq_true_eq] at hx
          exact hx.2
      · refine ⟨(· = t), rfl, fun x hx hxo => ?_, fun x hx => of_decide_eq_true hx ▸ ho⟩
        by_cases hxz : k.thread.run_state x = .zombie
        · exact Or.inr hxz
        · exact Or.inl (decide_eq_true (h.sole_thread hpa hlive ha ho hz hx hxo hxz))
    have hthread : ({ (c1.torn_down p status).all_woken (Q (.wait_child_exit parent)) with
        curr_proc := none } : Core).thread =
        ((k.killed S status).all_woken (Q (.wait_child_exit parent))).thread :=
      Core.all_woken_thread ((c1.torn_down_thread p status).trans hS) _
    obtain ⟨hsame, hzombie, hblocked⟩ := Core.elect_killed hthread hpick
    have hmutex : c1.mutex = k.mutex := by rcases hc1 with ⟨rfl, _⟩ | ⟨rfl, _⟩ <;> rfl
    obtain ⟨cr3, process_cr3, p4s, hframe⟩ := c1.torn_down_frame p status
    have htorn : (isr_return ({ (c1.torn_down p status).all_woken (Q (.wait_child_exit parent)) with
        curr_proc := none }.elect candidate)).mutex =
        ((c1.bury p status).without_mutexes p c1.mutex.list).mutex := by
      rw [isr_return_mutex, Core.elect_frame, hframe]
      rfl
    refine Or.inr ⟨p, ho, hpa, hsame, fun x hx => (hzombie x).mpr (Or.inr hx), ?_, ?_,
      fun m => hQ (.waiters m), Or.inr ⟨fun m => ?_, fun x hx hxo => ?_, fun x hx => ?_⟩⟩
    · intro x m hm hx hxz
      rw [ne_eq, hzombie, not_or] at hxz
      refine hblocked x (fun hin => ?_) hxz.1 (hwaits x m hm hx hxz.2)
      have hlive : k.LiveQueue (.wait_child_exit parent) := hparenta
      cases h.queue_unique (q := .waiters m) hm hlive hx hin
    · rw [htorn, ← hmutex]
      exact ⟨_, _, rfl⟩
    · rw [htorn, Core.mem_without_mutexes]
      simp only [Core.bury, hmutex]
      exact ⟨fun hx => ⟨hx.1, fun ho => hx.2 ⟨hx.1, ho⟩⟩, fun hx => ⟨hx.1, fun ho => hx.2 ho.2⟩⟩
    · exact (hzombie x).mpr (hall x hx hxo)
    · exact ((hzombie x).mp hx).symm.imp_right (hsub x)

end JamsOs
