-- Runs of the kernel in which no code is interrupted. Every move keeps what holds of the current
-- thread, and so the books hold in every state that a run comes to.
import JamsOs.KernelSteps

namespace JamsOs

open Linked Runs

variable {tidy : Prop} {e : Event} {k k' : Kernel} {c c' : Core} {Q Q' : QueueRef → List Nat} {dying : Ptr}
  {t p u fuel : Nat} {q : QueueRef}

/-! ## The current thread -/

theorem isr_return_of_next (h : c.next_proc = none ∨ c.next_proc = c.curr_proc) :
    isr_return c = c := by
  unfold isr_return
  split
  · rfl
  · rename_i next hnext
    rw [hnext] at h
    rw [if_pos (h.resolve_left (Option.some_ne_none next)).symm]

/-- A thread was picked and is about to take over. -/
structure Elected (c : Core) (n : Nat) : Prop extends Placed c where
  next : c.next_proc = some n
  allocated : c.thread.allocated n
  alive : c.thread.run_state n ≠ .zombie
  running : ∀ t, c.thread.allocated t → c.thread.run_state t = .running → t = n
  active : n ≠ main_thread → c.thread.run_state n = .running

theorem Elected.cpu {n : Nat} (h : Elected c n) : Cpu (isr_return c) := by
  unfold isr_return
  rw [h.next]
  simp only
  split
  · rename_i hcurr
    exact {
      curr := ⟨n, hcurr, h.allocated, h.alive⟩
      next := Or.inr (h.next.trans hcurr.symm)
      running := fun t ha hs => (h.running t ha hs) ▸ hcurr
      active := fun t ht hmain => by
        obtain rfl : n = t := Option.some.inj (hcurr.symm.trans ht)
        exact Or.inl (h.active hmain)
      toPlaced := h.toPlaced }
  · exact {
      curr := ⟨n, rfl, h.allocated, h.alive⟩
      next := Or.inl rfl
      running := fun t ha hs => congrArg some (h.running t ha hs).symm
      active := fun t ht hmain => by
        cases ht
        exact Or.inl (h.active hmain)
      toPlaced := { h.toPlaced with } }

/-- What is left of `Cpu` when there may be no current thread. -/
structure Ready (c : Core) : Prop extends Placed c where
  main : c.thread.allocated main_thread ∧ c.thread.run_state main_thread ≠ .zombie
  running : ∀ t, c.thread.allocated t → c.thread.run_state t = .running → c.curr_proc = some t

theorem Ready.elected {candidate : Ptr} (h : Ready c) (hpick : c.Picks candidate) :
    Elected (c.elect candidate) (candidate.getD main_thread) := by
  have hkeep := fun x => Core.elect_reassigns hpick x
  rw [Core.elect_frame] at hkeep ⊢
  rcases hpick with ⟨rfl, hno⟩ | ⟨n, rfl, ⟨ha, hmain, _⟩, _⟩
  · exact {
      next := rfl
      allocated := h.main.1
      alive := h.main.2
      running := fun t hta hs => by
        by_contra hne
        exact hno t ⟨hta, hne, Or.inr hs⟩
      active := fun hne => absurd rfl hne
      toPlaced := { h.toPlaced with } }
  · have hself : (c.elect (some n)).thread.run_state n = .running := Function.update_self _ _ _
    exact {
      next := rfl
      allocated := ha
      alive := by simp [hself]
      running := fun t hta hs => by
        by_contra hne
        have hs' : c.preempt.thread.run_state t = .running := by
          simpa [Core.elect, Core.set_run_state, Function.update_of_ne (show t ≠ n from hne)] using hs
        unfold Core.preempt at hs'
        split at hs'
        · rename_i hnone
          rw [h.running t hta hs'] at hnone
          cases hnone
        · rename_i curr hcurr
          split at hs'
          · by_cases he : t = curr
            · subst he
              simp [Core.set_run_state] at hs'
            · simp only [Core.set_run_state, Function.update_of_ne he] at hs'
              have := h.running t hta hs'
              rw [hcurr] at this
              exact he (Option.some.inj this).symm
          · rename_i hr
            have := h.running t hta hs'
            rw [hcurr] at this
            exact hr (Option.some.inj this ▸ hs')
      active := fun _ => hself
      toPlaced := { h.toPlaced with } }

theorem Cpu.ready (hcpu : Cpu k.toCore) (h : Books tidy k Q dying) : Ready k.toCore where
  main := ⟨h.main_allocated, by rcases h.main_state with hs | hs <;> simp [hs]⟩
  running := hcpu.running
  toPlaced := hcpu.toPlaced

/-- A thread goes to another place in the code. -/
theorem Placed.set_pc (h : Placed c) {pc : Pc}
    (hkernel : c.thread.owner t = some kernel_process → pc.call = none)
    (hstart : ∀ w, pc = .window w → w.IsStart) : Placed (c.set_pc t pc) where
  kernel_pc := by
    intro x hx ho
    simp only [Core.set_pc]
    by_cases he : x = t
    · subst he
      rw [Function.update_self]
      exact hkernel ho
    · rw [Function.update_of_ne he]
      exact h.kernel_pc x hx ho
  start := by
    intro x hx w hw
    simp only [Core.set_pc] at hw
    by_cases he : x = t
    · subst he
      rw [Function.update_self] at hw
      exact hstart w hw
    · rw [Function.update_of_ne he] at hw
      exact h.start x hx w hw

theorem Placed.set_user (h : Placed c) : Placed (c.set_pc t .user) :=
  h.set_pc (fun _ => rfl) fun _ hw => nomatch hw

theorem Cpu.set_pc (hcpu : Cpu c) {pc : Pc} (hkernel : c.thread.owner t = some kernel_process →
    pc.call = none) (hstart : ∀ w, pc = .window w → w.IsStart)
    (hrun : c.curr_proc = some t → t ≠ main_thread → c.thread.run_state t = .running) :
    Cpu (c.set_pc t pc) :=
  { hcpu.toPlaced.set_pc hkernel hstart, hcpu with
    active := by
      intro x hx hmain
      simp only [Core.set_pc] at hx ⊢
      by_cases he : x = t
      · exact Or.inl (he ▸ hrun (he ▸ hx) (he ▸ hmain))
      · rw [Function.update_of_ne he]
        exact hcpu.active x hx hmain }

/-- A call of the current thread returns. -/
theorem Cpu.ret (hcpu : Cpu c) (hrun : t ≠ main_thread → c.thread.run_state t = .running)
    (call : Syscall) (value : Int) (status : Option Int) : Cpu (c.ret t call value status) := by
  have h' : Cpu (c.set_pc t .user) := hcpu.set_pc (fun _ => rfl) (fun _ hw => nomatch hw) fun _ => hrun
  unfold Core.ret
  rw [isr_return_of_next]
  · exact { h' with }
  · exact hcpu.next

/-- Blocked threads are made ready. -/
theorem Cpu.wake (hcpu : Cpu c) {run_state : Nat → RunState}
    (hs : ∀ x, run_state x = c.thread.run_state x ∨
      c.thread.run_state x = .blocked ∧ run_state x = .ready) :
    Cpu { c with thread.run_state := run_state } := by
  have hrunning : ∀ x, run_state x = .running ↔ c.thread.run_state x = .running := by
    intro x
    rcases hs x with he | ⟨hb, hr⟩
    · rw [he]
    · simp [hb, hr]
  obtain ⟨t, ht, ha, hz⟩ := hcpu.curr
  exact { hcpu with
    curr := ⟨t, ht, ha, by
      rcases hs t with he | ⟨_, hr⟩
      · simpa [he] using hz
      · simp [hr]⟩
    running := fun x hx hr => hcpu.running x hx ((hrunning x).mp hr)
    active := fun x hx hmain => (hcpu.active x hx hmain).imp_left (hrunning x).mpr }

theorem Core.woken_frame {r : Ptr} :
    c.woken r = { c with thread.run_state := (c.woken r).thread.run_state } := by
  cases r <;> rfl

theorem Core.woken_run_state {r : Ptr} (hr : ∀ x, r = some x → c.thread.run_state x = .blocked)
    (x : Nat) : (c.woken r).thread.run_state x = c.thread.run_state x ∨
      c.thread.run_state x = .blocked ∧ (c.woken r).thread.run_state x = .ready := by
  cases r with
  | none => exact Or.inl rfl
  | some y =>
    by_cases hx : x = y
    · subst hx
      exact Or.inr ⟨hr x rfl, Function.update_self _ _ _⟩
    · exact Or.inl (Function.update_of_ne hx _ _)

theorem Cpu.woken (hcpu : Cpu c) {r : Ptr}
    (hr : ∀ x, r = some x → c.thread.run_state x = .blocked) : Cpu (c.woken r) := by
  rw [Core.woken_frame]
  exact hcpu.wake (Core.woken_run_state hr)

/-- A thread comes to be. -/
theorem Cpu.spawned (hcpu : Cpu c) (hu : ¬c.thread.allocated u) (p : Nat) (kstack : Word) :
    Cpu (c.spawned u p kstack) := by
  obtain ⟨t, ht, ha, hz⟩ := hcpu.curr
  have htu : t ≠ u := by
    rintro rfl
    exact hu ha
  have halloc : ∀ x, x ≠ u → (c.spawned u p kstack).thread.allocated x → c.thread.allocated x := by
    intro x hx
    simp [Core.spawned, hx]
  refine ⟨⟨?_, ?_⟩, ⟨t, ht, ?_, ?_⟩, hcpu.next, ?_, ?_⟩
  rotate_left 2
  · simp [Core.spawned, htu, ha]
  · simpa [Core.spawned, htu] using hz
  · intro x hx hs
    by_cases he : x = u
    · simp [Core.spawned, he] at hs
    · exact hcpu.running x (halloc x he hx) (by simpa [Core.spawned, he] using hs)
  · intro x hx hmain
    obtain rfl : t = x := Option.some.inj (ht.symm.trans hx)
    simpa [Core.spawned, htu] using hcpu.active t ht hmain
  · intro x hx ho
    by_cases he : x = u
    · simp [Core.spawned, he, Pc.call]
    · have := hcpu.kernel_pc x (halloc x he hx) (by simpa [Core.spawned, he] using ho)
      simpa [Core.spawned, he] using this
  · intro x hx w hw
    by_cases he : x = u
    · simp [Core.spawned, he] at hw
    · exact hcpu.start x (halloc x he hx) w (by simpa [Core.spawned, he] using hw)

/-- Fewer records are in use, and that of the current thread is. -/
theorem Cpu.freed (hcpu : Cpu c) (allocated : Nat → Bool)
    (ha : ∀ x, allocated x → c.thread.allocated x) (ht : ∀ t, c.curr_proc = some t → allocated t) :
    Cpu { c with thread.allocated := allocated } := by
  obtain ⟨t, hct, _, hz⟩ := hcpu.curr
  exact { hcpu with
    curr := ⟨t, hct, ht t hct, hz⟩
    running := fun x hx => hcpu.running x (ha x hx)
    kernel_pc := fun x hx => hcpu.kernel_pc x (ha x hx)
    start := fun x hx => hcpu.start x (ha x hx) }

theorem Cpu.thread_dropped (hcpu : Cpu c) (hu : ¬c.thread.allocated u) (p : Nat) :
    Cpu (c.thread_dropped u p) := by
  have h' := (hcpu.spawned hu p 0).freed c.thread.allocated
    (fun x hx => by
      by_cases he : x = u
      · simp [Core.spawned, he]
      · simpa [Core.spawned, he] using hx)
    (fun _ hx => (hcpu.alive hx).1)
  exact { h' with }

theorem Cpu.dropped (hcpu : Cpu c) (hd : c.Dropped c') : Cpu c' := by
  cases hd with
  | nothing => exact hcpu
  | process p parent cr3 hp => exact { hcpu with }
  | both p parent cr3 u hp hu =>
    have h' : Cpu (c.process_dropped p parent cr3) := { hcpu with }
    exact h'.thread_dropped hu p

theorem Core.Dropped.run_state (hd : c.Dropped c') (ht : c.thread.allocated t) :
    c'.thread.run_state t = c.thread.run_state t := by
  cases hd with
  | nothing => rfl
  | process p parent cr3 hp => rfl
  | both p parent cr3 u hp hu =>
    have htu : t ≠ u := by
      rintro rfl
      exact hu ht
    exact Function.update_of_ne htu _ _

theorem Cpu.destroy_p4 (hcpu : Cpu c) (p4 : Word) : Cpu (MMU_destroy_p4 p4 c) := by
  obtain ⟨p4s, hp4s⟩ := MMU_destroy_p4.frame p4 c
  rw [hp4s]
  exact { hcpu with }

theorem MMU_destroy_p4.thread (p4 : Word) (c : Core) : (MMU_destroy_p4 p4 c).thread = c.thread := by
  obtain ⟨p4s, hp4s⟩ := MMU_destroy_p4.frame p4 c
  rw [hp4s]

/-- The current thread blocks. -/
theorem Cpu.blocked_in (hcpu : Cpu c) (ht : c.curr_proc = some t) {call : Call}
    (hkernel : c.thread.owner t ≠ some kernel_process) : Cpu (c.blocked_in t call) := by
  obtain ⟨ha, hz⟩ := hcpu.alive ht
  refine ⟨⟨?_, ?_⟩, ⟨t, ht, ha, ?_⟩, hcpu.next, ?_, ?_⟩
  rotate_left 2
  · simp [Core.blocked_in, Core.set_run_state]
  · intro x hx hs
    by_cases he : x = t
    · exact he ▸ ht
    · exact hcpu.running x hx (by simpa [Core.blocked_in, Core.set_run_state, he] using hs)
  · intro x hx _
    obtain rfl : t = x := Option.some.inj (ht.symm.trans hx)
    exact Or.inr ⟨call, Function.update_self _ _ _⟩
  · intro x hx ho
    by_cases he : x = t
    · exact absurd (he ▸ ho) hkernel
    · simpa [Core.blocked_in, Core.set_run_state, he] using hcpu.kernel_pc x hx ho
  · intro x hx w hw
    by_cases he : x = t
    · simp [Core.blocked_in, he] at hw
    · exact hcpu.start x hx w (by simpa [Core.blocked_in, he] using hw)

theorem Core.all_woken_running {l : List Nat} {x : Nat}
    (h : (c.all_woken l).thread.run_state x = .running) : c.thread.run_state x = .running := by
  simp only [Core.all_woken] at h
  split at h
  · cases h
  · exact h

theorem Core.all_woken_zombie {l : List Nat} {x : Nat} :
    (c.all_woken l).thread.run_state x = .zombie ↔ c.thread.run_state x = .zombie := by
  simp only [Core.all_woken]
  split
  · rename_i hx
    simp [hx.2]
  · rfl

theorem Core.all_woken_thread (h : c.thread = c'.thread) (l : List Nat) :
    (c.all_woken l).thread = (c'.all_woken l).thread := by
  simp only [Core.all_woken, h]

theorem Core.torn_down_thread (p : Nat) (status : Int) (c : Core) :
    (c.torn_down p status).thread = c.thread := by
  obtain ⟨cr3, process_cr3, p4s, hframe⟩ := c.torn_down_frame p status
  rw [hframe]
  rfl

/-- The current thread and maybe others have ended. -/
theorem Cpu.exited (hcpu : Cpu k.toCore) (h : Books tidy k Q dying) (ht : k.curr_proc = some t)
    {S : Nat → Bool} {status : Int} (hS : S t) (hmain : S main_thread = false) {l : List Nat}
    (hc : c.thread = ((k.killed S status).all_woken l).thread) : Ready c := by
  have halloc : c.thread.allocated = k.thread.allocated := by rw [hc]; rfl
  have hpc : c.thread.pc = k.thread.pc := by rw [hc]; rfl
  refine ⟨⟨?_, ?_⟩, ⟨?_, ?_⟩, ?_⟩
  · rw [halloc, hpc, show c.thread.owner = k.thread.owner by rw [hc]; rfl]
    exact hcpu.kernel_pc
  · rw [halloc, hpc]
    exact hcpu.start
  · rw [halloc]
    exact h.main_allocated
  · rw [hc, ne_eq, Core.all_woken_zombie]
    rcases h.main_state with hs | hs <;> simp [Core.killed, hmain, hs]
  · intro x hx hr
    rw [hc] at hr
    have hr' := Core.all_woken_running hr
    simp only [Core.killed] at hr'
    split at hr'
    · cases hr'
    · rename_i hxS
      have hxt := hcpu.running x (halloc ▸ hx) hr'
      rw [ht] at hxt
      exact absurd (Option.some.inj hxt ▸ hS) hxS

/-! ## Every move keeps the current thread in order -/

theorem Cpu.move (hcpu : Cpu k.toCore) (h : Books tidy k Q none) (ht : k.curr_proc = some t)
    (hm : Move e k.toCore Q t c' Q') : Cpu c' := by
  obtain ⟨ha, hz⟩ := hcpu.alive ht
  have hready := hcpu.ready h
  have hrun : (∀ call, k.thread.pc t ≠ .yield call) → t ≠ main_thread →
      k.thread.run_state t = .running := fun hpc hmain =>
    (hcpu.active t ht hmain).resolve_right fun h => h.elim hpc
  have hruns : (k.thread.pc t).Runs → t ≠ main_thread → k.thread.run_state t = .running := by
    intro hr
    refine hrun fun call hc => ?_
    rw [hc] at hr
    exact hr
  have huser : k.thread.pc t = .user → t ≠ main_thread → k.thread.run_state t = .running :=
    fun hpc => hrun (by simp [hpc])
  have hne : ∀ u, ¬k.thread.allocated u → t ≠ u := by
    rintro u hu rfl
    exact hu ha
  cases hm with
  | stop hstop =>
    cases hstop with
    | block hpc huser hq hwait => exact hcpu.blocked_in ht huser
    | @exit_thread candidate p status hpc hmain ho he hlive hpick =>
      refine Elected.cpu (Ready.elected ?_ hpick)
      exact hcpu.exited h ht (S := (· = t)) (by simp) (by simp [Ne.symm hmain]) rfl
    | @exit_process candidate p parent status c1 Q' hpc hmain ho hp hc1 hparent hpick hQp hQt hQ =>
      refine Elected.cpu (Ready.elected ?_ hpick)
      have hthread := Core.all_woken_thread (c1.torn_down_thread p status) (Q (.wait_child_exit parent))
      rcases hc1 with ⟨rfl, _⟩ | ⟨rfl, _⟩
      · refine hcpu.exited h ht (S := k.thread_of p) ?_ ?_ hthread
        · simp [Core.thread_of, ha, ho]
        · simp [Core.thread_of, h.main_owner, Ne.symm hp]
      · exact hcpu.exited h ht (S := (· = t)) (by simp) (by simp [Ne.symm hmain]) hthread
  | timer hpick => exact (hready.elected hpick).cpu
  | key_ignored =>
    rw [isr_return_of_next hcpu.next]
    exact hcpu
  | @key kbd_buf r dead rest hbuf hQ hdead hnone hsome =>
    have hbuf : Cpu { k.toCore with kbd_buf := kbd_buf } := { hcpu with }
    have h' := hbuf.woken hsome
    rw [isr_return_of_next h'.next]
    exact h'
  | yield hpc hpick =>
    have he := hready.elected hpick
    exact Elected.cpu { he.toPlaced.set_user (t := t), he with }
  | @resume candidate call hpc hpick =>
    have hplaced : Placed (k.set_pc t (.window call.resume)) := hcpu.toPlaced.set_pc
      (fun ho => by
        have := hcpu.kernel_pc t ha ho
        rw [hpc] at this
        cases this)
      (fun w hw => by
        cases hw
        cases call <;> trivial)
    have hready' : Ready (k.set_pc t (.window call.resume)) := { hplaced, hready with }
    exact (hready'.elected hpick).cpu
  | fails hpc hvalue => exact hcpu.ret (hruns hpc) _ _ _
  | @wait status p child ts hpc hfrom ho hchild hne hparent hcz hts =>
    have hthread : ∀ x, (k.toCore.child_reaped child ts).thread.allocated x ↔
        k.thread.allocated x ∧ x ∉ ts := by
      intro x
      simp [Core.child_reaped, PROC_free_process, Core.threads_freed]
    have htts : t ∉ ts := fun hin =>
      hz (h.zombie_threads hchild hcz ha ((hts t).mp hin).2)
    have h' := hcpu.freed (k.toCore.child_reaped child ts).thread.allocated
      (fun x hx => ((hthread x).mp hx).1) (fun x hx => by
        obtain rfl : t = x := Option.some.inj (ht.symm.trans hx)
        exact (hthread t).mpr ⟨ha, htts⟩)
    refine Cpu.ret ?_ (by exact hruns hpc) _ _ _
    exact { h' with }
  | @join status p target hpc hfrom ho htarget hto hz' =>
    have htt : t ≠ target := by
      rintro rfl
      exact hz hz'
    have h' := hcpu.freed (Function.update k.thread.allocated target false) (fun x hx => by
        by_cases he : x = target
        · simp [he] at hx
        · rwa [Function.update_of_ne he] at hx) (fun x hx => by
        obtain rfl : t = x := Option.some.inj (ht.symm.trans hx)
        rwa [Function.update_of_ne htt])
    refine Cpu.ret ?_ (by exact hruns hpc) _ _ _
    exact h'
  | getc hpc hbuf =>
    refine Cpu.ret ?_ (by exact hrun (by rcases hpc with hpc | hpc <;> simp [hpc])) _ _ _
    exact { hcpu with }
  | mutex_create hpc huser' hm =>
    refine Cpu.ret ?_ (by exact huser hpc) _ _ _
    exact { hcpu with }
  | lock hpc hm ho hfree =>
    refine Cpu.ret ?_ (by exact hruns hpc) _ _ _
    exact { hcpu with }
  | lock_handed hpc hown => exact hcpu.ret (hrun (by simp [hpc])) _ _ _
  | @unlock m r dead rest hpc hm ho hown hQ hdead hnone hsome =>
    have h' := hcpu.woken hsome
    refine Cpu.ret ?_ (fun hmain => ?_) _ _ _
    · exact { h' with }
    · rcases Core.woken_run_state hsome t with he | ⟨hb, _⟩
      · exact he.trans (huser hpc hmain)
      · rw [huser hpc hmain] at hb
        cases hb
  | mutex_destroy hpc hm ho hfree hempty =>
    refine Cpu.ret ?_ (by exact huser hpc) _ _ _
    exact { hcpu with }
  | @clone stack_top entry kstack u p hpc ho hp hu hnew hk hks =>
    refine (hcpu.spawned hu p kstack).ret (fun hmain => ?_) _ _ _
    simpa [Core.spawned, hne u hu] using huser hpc hmain
  | @clone_fails stack_top entry kstack u p hpc hu hk =>
    refine (hcpu.thread_dropped hu p).ret (fun hmain => ?_) _ _ _
    simpa [Core.thread_dropped, Core.spawned, hne u hu] using huser hpc hmain
  | create_kthread hpc ho =>
    exact hcpu.set_pc (fun _ => rfl) (fun w hw => by cases hw; trivial) fun _ => huser hpc
  | no_kthread hpc =>
    exact hcpu.set_pc (fun _ => rfl) (by simp) fun _ => hrun (by simp [hpc])
  | @kthread kstack u hpc hu hnew hk hks =>
    refine (hcpu.spawned hu kernel_process kstack).set_pc (fun _ => rfl) (by simp)
      fun _ hmain => ?_
    simpa [Core.spawned, hne u hu] using hrun (by simp [hpc]) hmain
  | @kthread_fails kstack u hpc hu hk =>
    refine (hcpu.thread_dropped hu kernel_process).set_pc (fun _ => rfl) (by simp)
      fun _ hmain => ?_
    simpa [Core.thread_dropped, Core.spawned, hne u hu] using hrun (by simp [hpc]) hmain
  | @fork p4 kstack frame_offset parent p u hpc ho hparent hp4 hp hu hnew hk hks =>
    have h' : Cpu ({ k.toCore with p4s := p4 :: k.p4s }.with_child parent p p4) := { hcpu with }
    refine (h'.spawned hu p kstack).ret (fun hmain => ?_) _ _ _
    simpa [Core.spawned, Core.with_child, hne u hu] using huser hpc hmain
  | @fork_fails p4 kstack process u frame_offset c1 hpc hp4 hc1 =>
    have h' : Cpu { k.toCore with p4s := p4 :: k.p4s } := { hcpu with }
    refine ((h'.dropped hc1).destroy_p4 p4).ret (fun hmain => ?_) _ _ _
    rw [MMU_destroy_p4.thread, hc1.run_state ha]
    exact huser hpc hmain
  | exec hpc ho hp hlive hp4 =>
    refine Cpu.set_pc ?_ (fun _ => rfl) (by simp) (fun _ => by exact huser hpc)
    exact { hcpu with }
  | exec_fails hpc =>
    refine (hcpu.destroy_p4 _).ret (fun hmain => ?_) _ _ _
    rw [MMU_destroy_p4.thread]
    exact hrun (by simp [hpc]) hmain
  | @exec_done p4 p c1 hpc ho hc1 =>
    have h' : Cpu c1 := by
      rw [hc1]
      exact { hcpu with }
    have hs : c1.thread = k.thread := by rw [hc1]
    split
    · refine (h'.destroy_p4 _).ret (fun hmain => ?_) _ _ _
      rw [MMU_destroy_p4.thread, hs]
      exact hrun (by simp [hpc]) hmain
    · refine h'.ret (fun hmain => ?_) _ _ _
      rw [hs]
      exact hrun (by simp [hpc]) hmain
  | elf_load hpc ho hp4 =>
    refine Cpu.set_pc ?_ (fun _ => rfl) (by simp) (fun _ => by exact huser hpc)
    exact { hcpu with }
  | elf_fails hpc =>
    refine (hcpu.destroy_p4 _).set_pc (fun _ => rfl) (by simp) fun _ hmain => ?_
    rw [MMU_destroy_p4.thread]
    exact hrun (by simp [hpc]) hmain
  | elf_loaded hpc =>
    exact hcpu.set_pc (fun _ => rfl) (fun w hw => by cases hw; trivial)
      fun _ => hrun (by simp [hpc])
  | @uthread p4 kstack parent p u hpc ho hp hu hnew hk hks =>
    have h' : Cpu (k.toCore.with_child parent p p4) := { hcpu with }
    refine (h'.spawned hu p kstack).set_pc (fun _ => rfl) (by simp)
      fun _ hmain => ?_
    simpa [Core.spawned, Core.with_child, hne u hu] using hrun (by simp [hpc]) hmain
  | uthread_fails hpc hc1 =>
    refine ((hcpu.dropped hc1).destroy_p4 _).set_pc (fun _ => rfl) (by simp)
      fun _ hmain => ?_
    rw [MMU_destroy_p4.thread, hc1.run_state ha]
    exact hrun (by simp [hpc]) hmain

/-! ## Runs -/

/-- The record of a thread that was killed while it waited for a key. -/
def Core.died_in_getc (c : Core) (u : Nat) : Bool :=
  c.thread.run_state u = .zombie && (c.thread.pc u).call = some .getc

/-- The step gives no new thread the address of a thread that was killed while it waited for a
key. -/
def fresh_thread (e : Event) (k : Kernel) : Bool :=
  match new_thread e k.toCore with
  | none => true
  | some u => !k.died_in_getc u

/-- A record that is not in use and still on the keyboard queue is one of a thread that was killed
while it waited for a key. -/
theorem Books.died_in_getc (h : Books tidy k Q dying) (hu : ¬k.thread.allocated u)
    (hin : u ∈ Q .kbd_wait_queue) : k.died_in_getc u := by
  have hz : k.thread.run_state u = .zombie := by
    rcases h.queue_state .kbd_wait_queue trivial u hin with hz | ⟨ha, _⟩
    · exact hz
    · exact absurd ha hu
  have hplace := h.queue_place .kbd_wait_queue trivial u hin
  simp only [Core.place, Option.bind_eq_some_iff] at hplace
  obtain ⟨call, hcall, hq⟩ := hplace
  have hgetc : call = .getc := by
    cases call <;> simp_all [Call.queue]
  simp [Core.died_in_getc, hz, hcall, hgetc]

theorem Books.fresh (h : Books tidy k Q dying) (hfresh : fresh_thread e k)
    (hnew : new_thread e k.toCore = some u) (hu : ¬k.thread.allocated u) :
    u ∉ Q .kbd_wait_queue := by
  intro hin
  simp only [fresh_thread, hnew, h.died_in_getc hu hin] at hfresh
  cases hfresh

/-- The state is in order, and the property holds of its records and queues. -/
def InOrder (tidy : Prop) (J : Core → (QueueRef → List Nat) → Prop) (k : Kernel) : Prop :=
  ∃ Q, Books tidy k Q none ∧ Cpu k.toCore ∧ J k.toCore Q

section

variable {J : Core → (QueueRef → List Nat) → Prop} {ok : Event → Kernel → Prop} {es : List Event}
  {kernel_p4 : Word}

/-- A step in which no code is interrupted keeps what its move keeps. -/
theorem InOrder.step {k' : Kernel} (h : InOrder tidy J k) (hwhole : uninterrupted e k)
    (hfresh : ∀ Q u, Books tidy k Q none → new_thread e k.toCore = some u → ¬k.thread.allocated u →
      u ∉ Q .kbd_wait_queue)
    (htidy : ∀ Q, Books tidy k Q none → tidy → waits e k.toCore →
      ∀ t p child x, k.curr_proc = some t → k.thread.owner t = some p →
      PROC_find_zombie_child fuel p k = some (some child) → k.thread.allocated x →
      k.thread.owner x = some child → x ∉ Q .kbd_wait_queue)
    (hmove : ∀ Q t Q', Books tidy k Q none → Books tidy k' Q' none → Cpu k.toCore →
      k.curr_proc = some t → J k.toCore Q → Move e k.toCore Q t k'.toCore Q' → J k'.toCore Q')
    (hstep : JamsOs.step fuel e k = some k') : InOrder tidy J k' := by
  obtain ⟨Q, hbooks, hcpu, hJ⟩ := h
  obtain ⟨t, ht, Q', hmv, hbooks'⟩ := step.moves hbooks hcpu hwhole (fun u => hfresh Q u hbooks)
    (htidy Q hbooks) hstep
  exact ⟨Q', hbooks', hcpu.move hbooks ht hmv, hmove Q t Q' hbooks hbooks' hcpu ht hJ hmv⟩

theorem started_in_order (hstart : J (started kernel_p4).toCore fun _ => []) :
    InOrder tidy J (started kernel_p4) :=
  ⟨_, started_books kernel_p4, started_cpu kernel_p4, hstart⟩

/-- The same when no address of a thread that was killed in `getc` is used again. -/
theorem InOrder.step_fresh {k' : Kernel} (h : InOrder False J k)
    (hok : uninterrupted e k ∧ fresh_thread e k)
    (hmove : ∀ Q t Q', Books False k Q none → Books False k' Q' none → Cpu k.toCore →
      k.curr_proc = some t → J k.toCore Q → Move e k.toCore Q t k'.toCore Q' → J k'.toCore Q')
    (hstep : JamsOs.step fuel e k = some k') : InOrder False J k' :=
  h.step hok.1 (fun _ _ hb => hb.fresh hok.2) (fun _ _ hf => hf.elim) hmove hstep

/-- What every move keeps holds in every state that a run comes to. -/
theorem run_in_order (hok : ∀ e k, ok e k → uninterrupted e k ∧ fresh_thread e k)
    (hstart : J (started kernel_p4).toCore fun _ => [])
    (hmove : ∀ e (k k' : Kernel) Q t Q', Books False k Q none → Books False k' Q' none →
      Cpu k.toCore → k.curr_proc = some t → ok e k → J k.toCore Q →
      Move e k.toCore Q t k'.toCore Q' → J k'.toCore Q')
    (hm : Meets (step fuel) ok es (started kernel_p4))
    (hrun : run (step fuel) es (started kernel_p4) = some k) : InOrder False J k := by
  refine run_keeps_of_meets (I := InOrder False J) ?_ (started_in_order hstart) hm hrun
  intro e s s' h hs hstep
  refine h.step_fresh (hok e s hs) (fun Q t Q' hb hb' hcpu ht hJ hmv => ?_) hstep
  exact hmove e s s' Q t Q' hb hb' hcpu ht hs hJ hmv

end

end JamsOs
