-- Every step of the kernel in which no code is interrupted is a move, and keeps the books. First
-- the code that runs with interrupts on, then the calls, then all events.
import JamsOs.KernelMoves

namespace JamsOs

open Linked

variable {tidy : Prop} {e : Event} {k k' : Kernel} {Q : QueueRef → List Nat} {dying : Ptr}
  {t p fuel n : Nat} {q : QueueRef}

/-! ## Code that runs with interrupts on -/

theorem finish.first {w : Window} (h : finish fuel t n w k = some k') :
    ∃ m o k1, window_step fuel t w k = some (o, k1) ∧
      match o with
      | none => k1 = k'
      | some w' => finish fuel t m w' k1 = some k' := by
  cases n with
  | zero => cases h
  | succ n =>
    simp only [finish, Option.bind_eq_bind, Option.bind_eq_some_iff] at h
    obtain ⟨⟨o, k1⟩, hstep, h⟩ := h
    refine ⟨n, o, k1, hstep, ?_⟩
    cases o with
    | none => exact Option.some.inj h
    | some w' => exact h

/-- One stretch of the code that is not the last. -/
theorem finish.next {w w' : Window} {k1 : Kernel} (h : finish fuel t n w k = some k')
    (hstep : window_step fuel t w k = some (some w', k1)) :
    ∃ m, finish fuel t m w' k1 = some k' := by
  obtain ⟨m, o, k2, hstep', h⟩ := finish.first h
  rw [hstep] at hstep'
  cases hstep'
  exact ⟨m, h⟩

/-- The last stretch of the code. -/
theorem finish.last {w : Window} {k1 : Kernel} (h : finish fuel t n w k = some k')
    (hstep : window_step fuel t w k = some (none, k1)) : k1 = k' := by
  obtain ⟨m, o, k2, hstep', h⟩ := finish.first h
  rw [hstep] at hstep'
  cases hstep'
  exact h

/-! ### Waiting for a child -/

theorem Kernel.child_reaped_live {prev : Ptr} {child : Nat} {ts : List Nat}
    (hq : (k.child_reaped p prev child ts).LiveQueue q) : k.LiveQueue q := by
  have halloc : ∀ x, (k.child_reaped p prev child ts).process.allocated x → k.process.allocated x := by
    intro x
    rw [Kernel.child_reaped_core]
    by_cases hx : x = child
    · simp [Core.child_reaped, PROC_free_process, hx]
    · simp [Core.child_reaped, PROC_free_process, Core.threads_freed, hx]
  cases q with
  | kbd_wait_queue => trivial
  | wait_child_exit x => exact halloc x hq
  | wait_thread_exit x => exact halloc x hq
  | waiters m =>
    rw [Kernel.child_reaped_core] at hq
    exact hq

section

variable (h : Books tidy k Q none) (hw : AtWork k Q t p)

include h hw

/-- The zombie child that was found is reaped. -/
theorem wait_found.moves {status : Word} (hfrom : (Call.wait status).From e (k.thread.pc t))
    {child : Nat} {l : List Nat}
    (hc : Chain some none k.links.next_sibling (k.links.first_child p) l) (hchild : child ∈ l)
    (hz : k.process.zombie child)
    (htidy : tidy → ∀ x, k.thread.allocated x → k.thread.owner x = some child →
      x ∉ Q .kbd_wait_queue)
    (hrun : finish fuel t n (.wait_found status child) k = some k') : Moves tidy e k Q t k' := by
  obtain ⟨l', hc', hm⟩ := h.children p hw.process
  obtain rfl := hc.eq_of_chain hc'
  obtain ⟨hca, hck, hcp⟩ := (hm child).mp hchild
  -- the search for the child before it
  obtain ⟨m, o, k1, hstep, hrest⟩ := finish.first hrun
  simp only [window_step, hw.owner, Option.bind_eq_bind, Option.bind_some,
    Option.bind_eq_some_iff] at hstep
  obtain ⟨r, hseek, hstep⟩ := hstep
  obtain ⟨s, rest, hl, rfl⟩ := seek.spec hc hchild hseek
  simp only [Option.some.injEq, Prod.mk.injEq] at hstep
  obtain ⟨rfl, rfl⟩ := hstep
  rw [Option.or_none] at hrest
  -- the stores
  obtain ⟨m, hrest⟩ := finish.next hrest (by
    simp only [window_step, hw.owner, Option.bind_eq_bind, Option.bind_some]
    rfl)
  obtain ⟨m, o, k1, hstep, hrest⟩ := finish.first hrest
  simp only [window_step, Option.bind_eq_bind, Option.bind_eq_some_iff, free_threads_eq] at hstep
  obtain ⟨ts, htrail, hstep⟩ := hstep
  cases hstep
  obtain rfl := hrest
  have hnext : (cut_process_child p s.getLast? child k).links.next_thread = k.links.next_thread := by
    cases s.getLast? <;> rfl
  rw [hnext] at htrail
  obtain ⟨ts', hct, hmt, _⟩ := h.threads child hca
  obtain rfl := (trail.chain htrail).eq_of_chain hct
  have hbooks := h.reap_process hw.process hc hl rfl hz hmt
    (fun ht x hx => htidy ht x ((hmt x).mp hx).1 ((hmt x).mp hx).2)
  refine ⟨Q, ?_, hbooks.ret (fun q hq => hw.free q (Kernel.child_reaped_live hq)) _ _ _⟩
  show Move e k.toCore Q t ((k.child_reaped p s.getLast? child ts).toCore.ret t _ _ _) Q
  rw [Kernel.child_reaped_core]
  exact .wait hw.runs hfrom hw.owner hca hck hcp hz hmt

theorem wait.moves (hp : p ≠ kernel_process) (hs : k.thread.run_state t = .running) {status : Word}
    (hfrom : (Call.wait status).From e (k.thread.pc t))
    (htidy : tidy → ∀ child x, PROC_find_zombie_child fuel p k = some (some child) →
      k.thread.allocated x → k.thread.owner x = some child → x ∉ Q .kbd_wait_queue)
    (hrun : finish fuel t n (.wait_find status) k = some k') : Moves tidy e k Q t k' := by
  obtain ⟨l, hc, hm⟩ := h.children p hw.process
  obtain ⟨m, o, k1, hstep, hrest⟩ := finish.first hrun
  simp only [window_step, hw.owner, Option.bind_eq_bind, Option.bind_some,
    Option.bind_eq_some_iff, PROC_find_zombie_child] at hstep
  obtain ⟨r, hsearch, hstep⟩ := hstep
  obtain rfl := search.spec hc hsearch
  cases hfind : l.find? k.process.zombie with
  | some child =>
    simp only [hfind] at hstep
    cases hstep
    have hchild := List.mem_of_find?_eq_some hfind
    have hz := List.find?_some hfind
    exact wait_found.moves h hw hfrom hc hchild hz
      (fun ht x => htidy ht child x (hsearch.trans (congrArg some hfind))) hrest
  | none =>
    simp only [hfind] at hstep
    cases hstep
    obtain ⟨m, o, k1, hstep, hrest⟩ := finish.first hrest
    simp only [window_step, hw.owner, Option.bind_eq_bind, Option.bind_some] at hstep
    split at hstep
    · cases hstep
      obtain rfl := hrest
      exact hw.fails h _ _ (Or.inl rfl)
    · cases hstep
      obtain ⟨m, o, k1, hstep, hrest⟩ := finish.first hrest
      simp only [window_step, hw.owner, Option.bind_eq_bind, Option.bind_some,
        Option.bind_eq_some_iff] at hstep
      obtain ⟨k2, hblock, hstep⟩ := hstep
      cases hstep
      obtain rfl := hrest
      have hwait : k.MustWait t (.wait status) := by
        intro child hca hck hcp
        rw [hw.owner] at hcp
        have := List.find?_eq_none.mp hfind child ((hm child).mpr ⟨hca, hck, hcp⟩)
        simpa using this
      refine hw.blocks (q := .wait_child_exit p) h hp hs hw.process ?_ hwait hfrom hblock
      rw [hw.owner]
      rfl

/-! ### Waiting for a thread -/

/-- The dead thread that was found is freed. -/
theorem join_found.moves {status : Word} {target : Nat}
    (hfrom : (Call.join (k.thread.tid target) status).From e (k.thread.pc t)) {l : List Nat}
    (hc : Chain some none k.links.next_thread (k.links.threads p) l) (htarget : target ∈ l)
    (hz : k.thread.run_state target = .zombie)
    (hrun : finish fuel t n (.join_found (k.thread.tid target) status target) k = some k') :
    Moves tidy e k Q t k' := by
  obtain ⟨l', hc', hm, _⟩ := h.threads p hw.process
  obtain rfl := hc.eq_of_chain hc'
  obtain ⟨hta, hto⟩ := (hm target).mp htarget
  obtain ⟨m, o, k1, hstep, hrest⟩ := finish.first hrun
  simp only [window_step, hw.owner, Option.bind_eq_bind, Option.bind_some,
    Option.bind_eq_some_iff] at hstep
  obtain ⟨r, hseek, hstep⟩ := hstep
  obtain ⟨s, rest, hl, rfl⟩ := seek.spec hc htarget hseek
  simp only [Option.some.injEq, Prod.mk.injEq] at hstep
  obtain ⟨rfl, rfl⟩ := hstep
  rw [Option.or_none] at hrest
  obtain ⟨m, hrest⟩ := finish.next hrest (by
    simp only [window_step, hw.owner, Option.bind_eq_bind, Option.bind_some]
    rfl)
  obtain rfl := finish.last hrest rfl
  have hne : t ≠ target := by
    rintro rfl
    exact hw.alive hz
  have hbooks := h.reap_thread hw.process hw.exiting hc hl rfl hz ⟨t, hne, hw.allocated, hw.owner⟩
  exact ⟨Q, .join hw.runs hfrom hw.owner hta hto hz, hbooks.ret hw.free _ _ _⟩

theorem join.moves (hp : p ≠ kernel_process) (hs : k.thread.run_state t = .running) {tid : Nat}
    {status : Word} (hfrom : (Call.join tid status).From e (k.thread.pc t))
    (hrun : finish fuel t n (.join_find tid status) k = some k') : Moves tidy e k Q t k' := by
  obtain ⟨l, hc, hm, _⟩ := h.threads p hw.process
  obtain ⟨m, o, k1, hstep, hrest⟩ := finish.first hrun
  simp only [window_step, hw.owner, Option.bind_eq_bind, Option.bind_some,
    Option.bind_eq_some_iff, PROC_find_thread] at hstep
  obtain ⟨r, hsearch, hstep⟩ := hstep
  obtain rfl := search.spec hc hsearch
  split at hstep
  · cases hstep
    obtain rfl := hrest
    exact hw.fails h _ _ (Or.inl rfl)
  · rename_i target hfind
    cases hstep
    have htarget := List.mem_of_find?_eq_some hfind
    obtain rfl : k.thread.tid target = tid := by simpa using List.find?_some hfind
    obtain ⟨m, o, k1, hstep, hrest⟩ := finish.first hrest
    simp only [window_step] at hstep
    split at hstep
    · rename_i hz
      cases hstep
      exact join_found.moves h hw hfrom hc htarget hz hrest
    · rename_i hz
      cases hstep
      obtain ⟨m, o, k1, hstep, hrest⟩ := finish.first hrest
      simp only [window_step, hw.owner, Option.bind_eq_bind, Option.bind_some,
        Option.bind_eq_some_iff] at hstep
      obtain ⟨k2, hblock, hstep⟩ := hstep
      cases hstep
      obtain rfl := hrest
      obtain ⟨hta, hto⟩ := (hm target).mp htarget
      have hwait : k.MustWait t (.join (k.thread.tid target) status) :=
        ⟨target, hta, hto.trans hw.owner.symm, rfl, hz⟩
      refine hw.blocks (q := .wait_thread_exit p) h hp hs hw.process ?_ hwait hfrom hblock
      rw [hw.owner]
      rfl

end

/-! ## New threads and processes -/

theorem Books.kernel_exiting (h : Books tidy k Q dying) :
    k.process.exiting kernel_process = false := by
  by_contra hex
  have hz := h.exiting kernel_process h.kernel_allocated (by simpa using hex) main_thread
    h.main_allocated h.main_owner
  rcases h.main_state with hs | hs <;> rw [hz] at hs <;> cases hs

theorem Books.set_p4s (h : Books tidy k Q dying) (p4s : List Word) :
    Books tidy { k with p4s := p4s } Q dying :=
  { h with }

theorem Books.destroy_p4 (h : Books tidy k Q dying) (p4 : Word) :
    Books tidy { k with toCore := MMU_destroy_p4 p4 k.toCore } Q dying := by
  obtain ⟨p4s, hp4s⟩ := MMU_destroy_p4.frame p4 k.toCore
  rw [hp4s]
  exact h.set_p4s p4s

theorem MMU_destroy_p4.live (p4 : Word) (c : Core) :
    (MMU_destroy_p4 p4 c).LiveQueue q ↔ c.LiveQueue q := by
  obtain ⟨p4s, hp4s⟩ := MMU_destroy_p4.frame p4 c
  rw [hp4s]
  cases q <;> exact Iff.rfl

/-- A new process with its first thread. -/
theorem Books.new_user_process {parent u : Nat} (h : Books tidy k Q none)
    (hp : ¬k.process.allocated p) (hpar : k.process.allocated parent)
    (hz : k.process.zombie parent = false) (hu : ¬k.thread.allocated u)
    (hk : u ∉ Q .kbd_wait_queue) (cr3 kstack : Word) :
    ∃ k', PROC_admit u ((k.with_child parent p cr3).spawned u p kstack) = some k' ∧
      k'.toCore = (k.toCore.with_child parent p cr3).spawned u p kstack ∧
      Books tidy k' (with_process Q p) none := by
  have hbooks := h.new_process hp hpar hz cr3
  obtain ⟨k', henter, hcore, hbooks'⟩ := hbooks.spawn (p := p) (t := u) (Function.update_self _ _ _)
    (Function.update_self _ _ _) hu (by simpa [with_process] using hk) kstack
  rw [Kernel.spawned_core, Kernel.with_child_core] at hcore
  have hzombie : ((k.toCore.with_child parent p cr3).spawned u p kstack).process.zombie p = false :=
    Function.update_self _ _ _
  refine ⟨k', henter, hcore, hbooks'.close ?_ ⟨u, ?_, ?_⟩ ?_ ?_⟩ <;> rw [hcore]
  · rw [hzombie]
    simp [Core.spawned]
  · exact Function.update_self _ _ _
  · exact Function.update_self _ _ _
  · exact h.mutex_listed rfl
  · exact fun _ _ _ => hzombie

theorem with_process_free {u : Nat} {cr3 kstack : Word} {parent : Nat} (hp : ¬k.process.allocated p)
    (ht : ∀ q, k.LiveQueue q → t ∉ Q q) (hcore : k'.toCore =
      (k.toCore.with_child parent p cr3).spawned u p kstack) (q : QueueRef) (hq : k'.LiveQueue q) :
    t ∉ with_process Q p q := by
  have hlive : (k.with_child parent p cr3).LiveQueue q := by
    rw [hcore, ← Kernel.with_child_core] at hq
    cases q <;> exact hq
  rcases Kernel.with_child_live.mp hlive with hq | rfl | rfl
  · rw [with_process_of_live Q hp hq]
    exact ht q hq
  · simp [with_process]
  · simp [with_process]

/-- A new process and its new thread are freed again. -/
theorem free_init_both (parent u : Nat) (cr3 : Word) (hp : ¬k.process.allocated p) :
    { (PROC_init_process p (some parent) cr3 k).thread_dropped u p with
      toCore := PROC_free_process p
        ((PROC_init_process p (some parent) cr3 k).thread_dropped u p).toCore } =
      (k.process_dropped p parent cr3).thread_dropped u p := by
  simp only [Kernel.thread_dropped, Kernel.process_dropped, PROC_init_thread, PROC_init_process,
    PROC_free_process, free_init_allocated hp]

/-- What is left of a process whose creation failed. -/
theorem Books.both_dropped {u : Nat} (h : Books tidy k Q dying) (hp : ¬k.process.allocated p)
    (hu : ¬k.thread.allocated u) (hk : u ∉ Q .kbd_wait_queue) (parent : Nat) (cr3 : Word) :
    Books tidy ((k.process_dropped p parent cr3).thread_dropped u p) Q dying :=
  (h.process_dropped hp parent cr3).thread_dropped hu hk

theorem kthread.moves (h : Books tidy k Q none) (hw : OnCpu k Q t p) {new : Ptr} {kstack : Word}
    (hpc : k.thread.pc t = .window (.kthread_new new kstack))
    (hnew : new_thread e k.toCore = new)
    (hk : ∀ u, new = some u → ¬k.thread.allocated u → u ∉ Q .kbd_wait_queue)
    (hrun : finish fuel t n (.kthread_new new kstack) k = some k') : Moves tidy e k Q t k' := by
  cases new with
  | none =>
    obtain rfl := finish.last hrun rfl
    exact ⟨Q, .no_kthread hpc, h.set_pc hw.free _⟩
  | some u =>
    obtain ⟨m, o, k1, hstep, hrest⟩ := finish.first hrun
    simp only [window_step] at hstep
    split at hstep
    · cases hstep
    rename_i hu
    cases hstep
    obtain ⟨m, hrest⟩ := finish.next hrest rfl
    obtain ⟨m, hrest⟩ := finish.next hrest rfl
    obtain ⟨m, o, k1, hstep, hrest⟩ := finish.first hrest
    have hlive : ∀ q, (k.spawned u kernel_process kstack).LiveQueue q ↔ k.LiveQueue q := by
      intro q
      cases q <;> exact Iff.rfl
    simp only [window_step] at hstep
    split at hstep
    · simp only [Option.bind_eq_bind, Option.bind_eq_some_iff] at hstep
      obtain ⟨k2, hunlink, hstep⟩ := hstep
      cases hstep
      obtain rfl := hrest
      have hdrop := unlink_spawned (p := kernel_process) hu hunlink
      have hbooks : Books tidy (k.thread_dropped u kernel_process) Q none :=
        h.thread_dropped hu (hk u rfl hu)
      refine ⟨Q, ?_, ?_⟩
      · have hmove := Move.kthread_fails (e := e) (Q := Q) hpc hu (hk u rfl hu)
        rw [← Kernel.thread_dropped_core, ← hdrop] at hmove
        exact hmove
      · have hbooks' := hbooks.set_pc (t := t) (fun q hq => hw.free q (by cases q <;> exact hq)) .user
        rw [← hdrop] at hbooks'
        exact hbooks'
    · rename_i hks
      simp only [Option.bind_eq_bind, Option.bind_eq_some_iff] at hstep
      obtain ⟨k2, henter, hstep⟩ := hstep
      cases hstep
      obtain rfl := hrest
      obtain ⟨k3, henter', hcore, hbooks⟩ :=
        h.spawn h.kernel_allocated h.kernel_exiting hu (hk u rfl hu) kstack
      obtain rfl : k2 = k3 := Option.some.inj (henter.symm.trans henter')
      refine ⟨Q, ?_, hbooks.set_pc (fun q hq => hw.free q ?_) _⟩
      · have hmove := Move.kthread (Q := Q) hpc hu hnew (hk u rfl hu) hks
        rw [← Kernel.spawned_core, ← hcore] at hmove
        exact hmove
      · rw [hcore] at hq
        exact (hlive q).mp hq

theorem uthread.moves (h : Books tidy k Q none) (hw : OnCpu k Q t p) {p4 kstack : Word}
    {process new : Ptr} (hpc : k.thread.pc t = .window (.uthread_new p4 process new kstack))
    (hnew : new_thread e k.toCore = new)
    (hk : ∀ u, new = some u → ¬k.thread.allocated u → u ∉ Q .kbd_wait_queue)
    (hrun : finish fuel t n (.uthread_new p4 process new kstack) k = some k') :
    Moves tidy e k Q t k' := by
  have hfree4 : ∀ (c : Core), (∀ q, c.LiveQueue q → k.LiveQueue q) →
      ∀ q, (MMU_destroy_p4 p4 c).LiveQueue q → t ∉ Q q :=
    fun c hc q hq => hw.free q (hc q ((MMU_destroy_p4.live p4 c).mp hq))
  obtain ⟨m, o, k1, hstep, hrest⟩ := finish.first hrun
  simp only [window_step, hw.owner, Option.bind_eq_bind, Option.bind_some] at hstep
  cases process with
  | none =>
    cases hstep
    obtain rfl := hrest
    exact ⟨Q, .uthread_fails hpc .nothing, (h.destroy_p4 p4).set_pc (hfree4 _ fun _ hq => hq) _⟩
  | some p1 =>
    simp only at hstep
    split at hstep
    · cases hstep
    rename_i hp1
    cases hstep
    obtain ⟨m, o, k1, hstep, hrest⟩ := finish.first hrest
    cases new with
    | none =>
      cases hstep
      obtain rfl := hrest
      have hdrop := free_init_process (k := k) p p4 hp1
      have hbooks := ((h.process_dropped hp1 p p4).destroy_p4 p4).set_pc (t := t)
        (hfree4 _ fun q hq => by cases q <;> exact hq) .user
      have hmove := Move.uthread_fails (e := e) (Q := Q) hpc (.process p1 p p4 hp1)
      rw [← Kernel.process_dropped_core, ← hdrop] at hmove
      rw [← hdrop] at hbooks
      exact ⟨Q, hmove, hbooks⟩
    | some u =>
      simp only [window_step] at hstep
      split at hstep
      · cases hstep
      rename_i hu
      split at hstep
      · simp only [Option.bind_eq_bind, Option.bind_eq_some_iff] at hstep
        obtain ⟨k2, hunlink, hstep⟩ := hstep
        cases hstep
        obtain rfl := hrest
        have hdrop := unlink_spawned (p := p1) hu hunlink
        have hboth := free_init_both (k := k) p u p4 hp1
        rw [← hdrop] at hboth
        have hbooks := ((h.both_dropped hp1 hu (hk u rfl hu) p p4).destroy_p4 p4).set_pc (t := t)
          (hfree4 _ fun q hq => by cases q <;> exact hq) .user
        have hmove := Move.uthread_fails (e := e) (Q := Q) hpc (.both p1 p p4 u hp1 hu)
        rw [← Kernel.process_dropped_core, ← Kernel.thread_dropped_core, ← hboth] at hmove
        rw [← hboth] at hbooks
        exact ⟨Q, hmove, hbooks⟩
      · rename_i hks
        cases hstep
        obtain ⟨m, hrest⟩ := finish.next hrest rfl
        obtain ⟨m, hrest⟩ := finish.next hrest rfl
        obtain ⟨m, o, k1, hstep, hrest⟩ := finish.first hrest
        simp only [window_step, Option.bind_eq_bind, Option.bind_eq_some_iff] at hstep
        obtain ⟨k2, henter, hstep⟩ := hstep
        cases hstep
        obtain rfl := hrest
        obtain ⟨k3, henter', hcore, hbooks⟩ :=
          h.new_user_process hp1 hw.process hw.zombie hu (hk u rfl hu) p4 kstack
        obtain rfl : k2 = k3 := Option.some.inj (henter.symm.trans henter')
        have hmove := Move.uthread (Q := Q) hpc hw.owner hp1 hu hnew (hk u rfl hu) hks
        rw [← hcore] at hmove
        exact ⟨_, hmove, hbooks.set_pc (with_process_free hp1 hw.free hcore) _⟩

theorem Core.Dropped.live {c c1 : Core} (hd : c.Dropped c1) : c1.LiveQueue q ↔ c.LiveQueue q := by
  cases hd <;> cases q <;> exact Iff.rfl

/-- A fork fails, and its page table goes. -/
theorem AtWork.fork_fails (hw : AtWork k Q t p) (hpc : k.thread.pc t = .user) {p4 : Word}
    (hp4 : k.fresh_p4 p4) {k1 : Kernel} (hbooks : Books tidy k1 Q none)
    (hdrop : Core.Dropped { k.toCore with p4s := p4 :: k.p4s } k1.toCore) (process new : Ptr)
    (kstack : Word) (frame_offset : Nat) :
    Moves tidy e k Q t ({ k1 with toCore := MMU_destroy_p4 p4 k1.toCore }.ret t
      (.fork p4 process new kstack frame_offset) (-1) none) := by
  refine ⟨Q, .fork_fails hpc hp4 hdrop, (hbooks.destroy_p4 p4).ret (fun q hq => ?_) _ _ _⟩
  refine hw.free q ?_
  have hq := hdrop.live.mp ((MMU_destroy_p4.live p4 k1.toCore).mp hq)
  cases q <;> exact hq

theorem syscall_fork.moves (h : Books tidy k Q none) (hw : AtWork k Q t p) (hp : p ≠ kernel_process)
    (hpc : k.thread.pc t = .user) {p4 kstack : Word} {process new : Ptr} {frame_offset : Nat}
    (hnew : new_thread e k.toCore = new)
    (hk : ∀ u, new = some u → ¬k.thread.allocated u → u ∉ Q .kbd_wait_queue)
    (hrun : syscall_fork p4 process new kstack frame_offset t k = some k') :
    Moves tidy e k Q t k' := by
  unfold syscall_fork at hrun
  simp only [hw.owner] at hrun
  split at hrun
  · cases hrun
    exact hw.fails h _ _ (Or.inl rfl)
  split at hrun
  · cases hrun
    exact hw.fails h _ _ (Or.inl rfl)
  split at hrun
  · cases hrun
  rename_i hp4
  rw [Bool.not_eq_true, Bool.not_eq_false'] at hp4
  have h' := h.set_p4s (p4 :: k.p4s)
  cases process with
  | none =>
    cases hrun
    exact hw.fork_fails hpc hp4 h' .nothing _ _ _ _
  | some p1 =>
    simp only at hrun
    split at hrun
    · cases hrun
    rename_i hp1
    cases new with
    | none =>
      cases hrun
      have hmoves := hw.fork_fails (e := e) hpc hp4 (h'.process_dropped hp1 p p4) (.process p1 p p4 hp1)
        (some p1) none kstack frame_offset
      rw [← free_init_process (k := { k with p4s := p4 :: k.p4s }) p p4 hp1] at hmoves
      exact hmoves
    | some u =>
      simp only at hrun
      split at hrun
      · cases hrun
      rename_i hu
      split at hrun
      · cases hrun
        have hmoves := hw.fork_fails (e := e) hpc hp4 (h'.both_dropped hp1 hu (hk u rfl hu) p p4)
          (.both p1 p p4 u hp1 hu) (some p1) (some u) kstack frame_offset
        rw [← free_init_both (k := { k with p4s := p4 :: k.p4s }) p u p4 hp1,
          ← free_init_thread (p := p1) hu] at hmoves
        exact hmoves
      · rename_i hks
        simp only [Option.bind_eq_bind, Option.bind_eq_some_iff] at hrun
        obtain ⟨k2, henter, hrun⟩ := hrun
        cases hrun
        obtain ⟨k3, henter', hcore, hbooks⟩ :=
          h'.new_user_process hp1 hw.process hw.zombie hu (hk u rfl hu) p4 kstack
        obtain rfl : k2 = k3 := Option.some.inj (henter.symm.trans henter')
        have hfree := with_process_free (k := { k with p4s := p4 :: k.p4s }) (Q := Q) hp1
          (fun q hq => hw.free q (by cases q <;> exact hq)) hcore
        refine ⟨_, ?_, hbooks.ret hfree _ _ _⟩
        have hpid : k2.process.pid p1 = k.next_pid := by
          rw [hcore]
          exact Function.update_self _ _ _
        rw [hpid, Kernel.ret, hcore]
        exact .fork hpc hw.owner hp hp4 hp1 hu hnew (hk u rfl hu) (not_or.mp hks).1

theorem clone_thread.moves (h : Books tidy k Q none) (hw : AtWork k Q t p) (hp : p ≠ kernel_process)
    (hpc : k.thread.pc t = .user) {stack_top entry kstack : Word} {new : Ptr}
    (hnew : new_thread e k.toCore = new)
    (hk : ∀ u, new = some u → ¬k.thread.allocated u → u ∉ Q .kbd_wait_queue)
    (hrun : clone_thread fuel stack_top entry new kstack t k = some k') : Moves tidy e k Q t k' := by
  unfold clone_thread at hrun
  simp only [hw.owner] at hrun
  split at hrun
  · cases hrun
    exact hw.fails h _ _ (Or.inl rfl)
  split at hrun
  · cases hrun
    exact hw.fails h _ _ (Or.inl rfl)
  cases new with
  | none =>
    cases hrun
    exact hw.fails h _ _ (Or.inl rfl)
  | some u =>
    simp only at hrun
    split at hrun
    · cases hrun
    rename_i hu
    have hlive : ∀ q, (k.spawned u p kstack).LiveQueue q → k.LiveQueue q :=
      fun q hq => by cases q <;> exact hq
    split at hrun
    · simp only [Option.bind_eq_bind, Option.bind_eq_some_iff] at hrun
      obtain ⟨k2, hunlink, hrun⟩ := hrun
      cases hrun
      have hbooks : Books tidy (k.thread_dropped u p) Q none := h.thread_dropped hu (hk u rfl hu)
      have hbooks' := hbooks.ret (t := t) (fun q hq => hw.free q (by cases q <;> exact hq))
        (.clone stack_top entry (some u) kstack) (-1) none
      rw [← unlink_spawned hu hunlink] at hbooks'
      refine ⟨Q, ?_, hbooks'⟩
      rw [Kernel.ret, unlink_spawned hu hunlink]
      exact .clone_fails hpc hu (hk u rfl hu)
    · rename_i hks
      simp only [Option.bind_eq_bind, Option.bind_eq_some_iff] at hrun
      obtain ⟨k2, henter, hrun⟩ := hrun
      cases hrun
      obtain ⟨k3, henter', hcore, hbooks⟩ := h.spawn hw.process hw.exiting hu (hk u rfl hu) kstack
      obtain rfl : k2 = k3 := Option.some.inj (henter.symm.trans henter')
      refine ⟨Q, ?_, hbooks.ret (fun q hq => hw.free q (hlive q (hcore ▸ hq))) _ _ _⟩
      have htid : k2.thread.tid u = k.next_tid := by
        rw [hcore, Kernel.spawned_core]
        exact Function.update_self _ _ _
      rw [htid, Kernel.ret, hcore, Kernel.spawned_core]
      exact .clone hpc hw.owner hp hu hnew (hk u rfl hu) hks

/-! ## Exec -/

theorem syscall_exec.moves (h : Books tidy k Q none) (hw : AtWork k Q t p) (hp : p ≠ kernel_process)
    (hpc : k.thread.pc t = .user) {p4 : Word} (hrun : syscall_exec p4 t k = some k') :
    Moves tidy e k Q t k' := by
  unfold syscall_exec at hrun
  simp only [hw.owner] at hrun
  split at hrun
  · cases hrun
    exact hw.fails h _ _ (Or.inl rfl)
  rename_i hlive
  split at hrun
  · cases hrun
  rename_i hp4
  rw [Bool.not_eq_true, Bool.not_eq_false'] at hp4
  cases hrun
  rw [not_or, ne_eq, not_not] at hlive
  refine ⟨Q, .exec hpc hw.owner hp hlive.1 hp4, (h.set_p4s (p4 :: k.p4s)).set_pc ?_ _⟩
  exact fun q hq => hw.free q (by cases q <;> exact hq)

/-- What is left of the record of a process after its page table was replaced. -/
theorem Books.set_cr3 (h : Books tidy k Q dying) (process_cr3 : Nat → Word) (cr3 : Word) :
    Books tidy { k with process.cr3 := process_cr3, cr3 := cr3 } Q dying :=
  { h with }

theorem exec_loaded.moves (h : Books tidy k Q none) (ho : k.thread.owner t = some p)
    (hfree : ∀ q, k.LiveQueue q → t ∉ Q q) {p4 : Word} (hpc : k.thread.pc t = .exec_load p4)
    {ok : Bool} (hrun : exec_loaded p4 ok t k = some k') : Moves tidy e k Q t k' := by
  unfold exec_loaded at hrun
  split at hrun
  · cases hrun
    refine ⟨Q, .exec_fails hpc, (h.destroy_p4 p4).ret (fun q hq => hfree q ?_) _ _ _⟩
    exact (MMU_destroy_p4.live p4 k.toCore).mp hq
  · simp only [ho] at hrun
    cases hrun
    refine ⟨Q, .exec_done hpc ho rfl, ?_⟩
    have h' := h.set_cr3 (Function.update k.process.cr3 p p4) p4
    split
    · refine (h'.destroy_p4 (k.process.cr3 p)).ret (fun q hq => hfree q ?_) _ _ _
      have hq := (MMU_destroy_p4.live _ _).mp hq
      cases q <;> exact hq
    · exact h'.ret (fun q hq => hfree q (by cases q <;> exact hq)) _ _ _

/-! ## Exit -/

theorem PROC_exit_current_thread.moves (h : Books tidy k Q none) (hw : AtWork k Q t p)
    (hpc : k.thread.pc t = .user) (hs : t ≠ main_thread → k.thread.run_state t = .running)
    {status : Int} {whole_process : Bool}
    (he : (whole_process = false → e = .call (.thread_exit status)) ∧
      (whole_process = true → e = .call (.exit status)))
    (hrun : PROC_exit_current_thread fuel status whole_process t k = some k') :
    Moves tidy e k Q t { k' with toCore := isr_return k'.toCore } := by
  unfold PROC_exit_current_thread at hrun
  split at hrun
  · cases hrun
  rename_i hmain
  have hnone : ∀ {k1 : Kernel} {Q' : QueueRef → List Nat}, Books tidy k1 Q' none →
      Books tidy { k1 with curr_proc := none } Q' none := fun h1 => { h1 with }
  simp only [hw.owner, Option.bind_eq_bind] at hrun
  split at hrun
  · rename_i hwhole
    obtain ⟨k1, hexit, hresched⟩ := Option.bind_eq_some_iff.mp hrun
    obtain ⟨parent, Q', hpar, _, hcore, hbooks, hQp, hQt, hQ⟩ :=
      exit_whole_process.spec h hw.process hwhole.2 hw.zombie hexit
    obtain ⟨candidate, hpick, hcore', hbooks'⟩ := PROC_reschedule.spec (hnone hbooks) hresched
    refine ⟨Q', ?_, hbooks'.isr_return⟩
    simp only [hcore', hcore] at hpick ⊢
    exact .stop (.exit_process hpc hmain hw.owner hwhole.2 (Or.inl ⟨rfl, he.2 hwhole.1⟩) hpar hpick hQp hQt hQ)
  · rename_i hwhole
    have he' : e = .call (.thread_exit status) ∨ p = kernel_process := by
      by_cases hp : p = kernel_process
      · exact Or.inr hp
      · exact Or.inl (he.1 (by simpa [hp] using hwhole))
    obtain ⟨k1, hexit, hresched⟩ := Option.bind_eq_some_iff.mp hrun
    rcases exit_single_thread.spec h hw.allocated hw.owner hw.process hmain (hs hmain) hexit with
      ⟨hlive, hcore, hbooks⟩ | ⟨parent, Q', hk, hlive, hpar, _, hcore, hbooks, hQp, hQt, hQ⟩
    · obtain ⟨candidate, hpick, hcore', hbooks'⟩ := PROC_reschedule.spec (hnone hbooks) hresched
      refine ⟨_, ?_, hbooks'.isr_return⟩
      simp only [hcore', hcore] at hpick ⊢
      exact .stop (.exit_thread hpc hmain hw.owner he' hlive hpick)
    · obtain ⟨candidate, hpick, hcore', hbooks'⟩ := PROC_reschedule.spec (hnone hbooks) hresched
      refine ⟨Q', ?_, hbooks'.isr_return⟩
      simp only [hcore', hcore] at hpick ⊢
      exact .stop (.exit_process hpc hmain hw.owner hk (Or.inr ⟨rfl, hlive⟩) hpar hpick hQp hQt hQ)

/-! ## The steps of the system -/

def Syscall.waits : Syscall → Bool
  | .wait _ => true
  | _ => false

def Pc.waits : Pc → Bool
  | .window (.wait_find _) => true
  | _ => false

/-- The step looks for a zombie child. -/
def waits (e : Event) (c : Core) : Bool :=
  match e with
  | .call s => s.waits
  | .run => c.curr_proc.any fun t => (c.thread.pc t).waits
  | _ => false

/-- The step is not interrupted in the middle of the code that runs with interrupts on. The code at
`lock` and `getc` is one stretch with interrupts off. -/
def uninterrupted (e : Event) (k : Kernel) : Bool :=
  match e, k.curr_proc.map k.thread.pc with
  | .slice, some (.window (.lock _ _)) => true
  | .slice, some (.window .getc) => true
  | .slice, _ => false
  | _, _ => true

theorem syscall.moves (h : Books tidy k Q none) (hcpu : Cpu k.toCore) (ht : k.curr_proc = some t)
    (hpc : k.thread.pc t = .user) {s : Syscall} (hmay : k.may_call t s)
    (hk : ∀ u, new_thread (.call s) k.toCore = some u → ¬k.thread.allocated u →
      u ∉ Q .kbd_wait_queue)
    (htidy : tidy → waits (.call s) k.toCore → ∀ p child x, k.thread.owner t = some p →
      PROC_find_zombie_child fuel p k = some (some child) → k.thread.allocated x →
      k.thread.owner x = some child → x ∉ Q .kbd_wait_queue)
    (hrun : syscall fuel t s k = some k') : Moves tidy (.call s) k Q t k' := by
  obtain ⟨p, hw⟩ := hcpu.at_work h ht (by simp [hpc, Pc.Runs])
  have huser : (s = .yield → False) → (∀ status, s = .exit status → False) → p ≠ kernel_process := by
    rintro hy he rfl
    cases s <;> simp [Core.may_call, hw.owner] at hmay hy he
  cases s with
  | yield =>
    simp only [syscall, Option.bind_eq_bind, Option.bind_eq_some_iff] at hrun
    obtain ⟨k1, hresched, hrun⟩ := hrun
    cases hrun
    obtain ⟨candidate, hpick, hcore, hbooks⟩ := PROC_reschedule.spec h hresched
    refine ⟨Q, ?_, hbooks.ret (fun q hq => hw.free q ?_) _ _ _⟩
    · rw [Kernel.ret, hcore]
      exact .yield hpc hpick
    · rw [hcore, Core.elect_frame] at hq
      cases q <;> exact hq
  | exit status =>
    simp only [syscall, Option.bind_eq_bind, Option.bind_eq_some_iff] at hrun
    obtain ⟨k1, hexit, hrun⟩ := hrun
    cases hrun
    refine PROC_exit_current_thread.moves h hw hpc (hw.run_state hcpu ht) ⟨?_, fun _ => rfl⟩ hexit
    simp
  | thread_exit status =>
    simp only [syscall, Option.bind_eq_bind, Option.bind_eq_some_iff] at hrun
    obtain ⟨k1, hexit, hrun⟩ := hrun
    cases hrun
    refine PROC_exit_current_thread.moves h hw hpc (hw.run_state hcpu ht) ⟨fun _ => rfl, ?_⟩ hexit
    simp
  | wait status =>
    have hp := huser (by simp) (by simp)
    have hs := hw.running hcpu h ht hp
    simp only [syscall, hw.owner, reduceCtorEq, if_false] at hrun
    exact wait.moves h hw hp hs (Or.inl ⟨hpc, rfl⟩) (fun hti child x => htidy hti rfl p child x hw.owner) hrun
  | thread_join tid status =>
    have hp := huser (by simp) (by simp)
    have hs := hw.running hcpu h ht hp
    simp only [syscall] at hrun
    split at hrun
    · cases hrun
      exact hw.fails h _ _ (Or.inl rfl)
    · exact join.moves h hw hp hs (Or.inl ⟨hpc, rfl⟩) hrun
  | fork p4 process new kstack frame_offset =>
    exact syscall_fork.moves h hw (huser (by simp) (by simp)) hpc rfl hk hrun
  | clone stack_top entry new kstack =>
    exact clone_thread.moves h hw (huser (by simp) (by simp)) hpc rfl hk hrun
  | exec p4 => exact syscall_exec.moves h hw (huser (by simp) (by simp)) hpc hrun
  | getc =>
    have hp := huser (by simp) (by simp)
    have hs := hw.running hcpu h ht hp
    exact keyboard_getchar.moves h hw.toOnCpu hp hs (Or.inl hpc) hrun
  | mutex_create mutex => exact syscall_mutex_create.moves h hw (huser (by simp) (by simp)) hpc hrun
  | mutex_lock id =>
    have hp := huser (by simp) (by simp)
    have hs := hw.running hcpu h ht hp
    simp only [syscall, syscall_mutex_lock] at hrun
    split at hrun
    · cases hrun
      exact hw.fails h _ _ (Or.inl rfl)
    · exact lock_loop.moves h hw hp hs (fun _ => Or.inl ⟨hpc, rfl⟩) hrun
  | mutex_unlock id => exact syscall_mutex_unlock.moves h hw hpc hrun
  | mutex_destroy id => exact syscall_mutex_destroy.moves h hw hpc hrun

/-- A call that goes on after it was woken belongs to a user thread. -/
theorem Cpu.user_of_call (hcpu : Cpu k.toCore) (hw : OnCpu k Q t p) {call : Call}
    (hcall : (k.thread.pc t).call = some call) : p ≠ kernel_process := by
  rintro rfl
  rw [hcpu.kernel_pc t hw.allocated hw.owner] at hcall
  cases hcall

theorem lock_window.moves (h : Books tidy k Q none) (hw : AtWork k Q t p) (hp : p ≠ kernel_process)
    (hs : k.thread.run_state t = .running) {id m : Nat} (hpc : k.thread.pc t = .window (.lock id m))
    {o : Option Window} (hstep : window_step fuel t (.lock id m) k = some (o, k')) :
    o = none ∧ Moves tidy e k Q t k' := by
  simp only [window_step, Option.bind_eq_bind] at hstep
  split at hstep
  · rename_i hown
    cases hstep
    exact ⟨rfl, Q, .lock_handed hpc hown, h.ret hw.free _ _ _⟩
  · obtain ⟨k1, hloop, hstep⟩ := Option.bind_eq_some_iff.mp hstep
    cases hstep
    exact ⟨rfl, lock_loop.moves h hw hp hs (fun _ => Or.inr ⟨m, hpc⟩) hloop⟩

theorem getc_window.moves (h : Books tidy k Q none) (hw : OnCpu k Q t p) (hp : p ≠ kernel_process)
    (hs : k.thread.run_state t = .running) (hpc : k.thread.pc t = .window .getc)
    {o : Option Window} (hstep : window_step fuel t .getc k = some (o, k')) :
    o = none ∧ Moves tidy e k Q t k' := by
  simp only [window_step, Option.map_eq_some_iff, Prod.mk.injEq] at hstep
  obtain ⟨k1, hgetc, rfl, rfl⟩ := hstep
  exact ⟨rfl, keyboard_getchar.moves h hw hp hs (Or.inr hpc) hgetc⟩

theorem whole_window.moves (h : Books tidy k Q none) (hcpu : Cpu k.toCore)
    (ht : k.curr_proc = some t) {w : Window} (hpc : k.thread.pc t = .window w)
    (hnew : new_thread e k.toCore = w.new_thread)
    (hk : ∀ u, w.new_thread = some u → ¬k.thread.allocated u → u ∉ Q .kbd_wait_queue)
    (htidy : tidy → (∃ status, w = .wait_find status) → ∀ p child x, k.thread.owner t = some p →
      PROC_find_zombie_child fuel p k = some (some child) → k.thread.allocated x →
      k.thread.owner x = some child → x ∉ Q .kbd_wait_queue)
    (hrun : whole_window fuel t w k = some k') : Moves tidy e k Q t k' := by
  obtain ⟨p, hw⟩ := hcpu.on_cpu h ht (by simp [hpc])
  have hstart := hcpu.start t hw.allocated w hpc
  have hrunning : ∀ call, w.call = some call →
      p ≠ kernel_process ∧ k.thread.run_state t = .running := by
    intro call hcall
    have hp := hcpu.user_of_call hw (show (k.thread.pc t).call = some call by rw [hpc]; exact hcall)
    exact ⟨hp, hw.running hcpu h ht hp⟩
  unfold whole_window at hrun
  cases w with
  | wait_find status =>
    obtain ⟨hp, hs⟩ := hrunning _ rfl
    exact wait.moves h ⟨hw, by rw [hpc]; rfl⟩ hp hs (Or.inr hpc) (fun hti child x => htidy hti ⟨status, rfl⟩ p child x hw.owner) hrun
  | join_find tid status =>
    obtain ⟨hp, hs⟩ := hrunning _ rfl
    exact join.moves h ⟨hw, by rw [hpc]; rfl⟩ hp hs (Or.inr hpc) hrun
  | lock id m =>
    obtain ⟨hp, hs⟩ := hrunning _ rfl
    obtain ⟨_, o, k1, hstep, hrest⟩ := finish.first hrun
    obtain ⟨rfl, hmoves⟩ := lock_window.moves (e := e) h ⟨hw, by rw [hpc]; rfl⟩ hp hs hpc hstep
    obtain rfl := hrest
    exact hmoves
  | getc =>
    obtain ⟨hp, hs⟩ := hrunning _ rfl
    obtain ⟨_, o, k1, hstep, hrest⟩ := finish.first hrun
    obtain ⟨rfl, hmoves⟩ := getc_window.moves (e := e) h hw hp hs hpc hstep
    obtain rfl := hrest
    exact hmoves
  | kthread_new new kstack => exact kthread.moves h hw hpc hnew hk hrun
  | uthread_new p4 process new kstack => exact uthread.moves h hw hpc hnew hk hrun
  | _ => exact hstart.elim

/-- A thread that comes to its `yield()` yields. -/
theorem resume.moves (h : Books tidy k Q none) {call : Call} (hpc : k.thread.pc t = .yield call)
    (hrun : PROC_reschedule { k with toCore := k.set_pc t (.window call.resume) } = some k') :
    Moves tidy e k Q t { k' with toCore := isr_return k'.toCore } := by
  have h' : Books tidy { k with toCore := k.set_pc t (.window call.resume) } Q none :=
    { h with
      queue_place := by
        intro q hq x hx
        rw [← h.queue_place q hq x hx]
        by_cases he : x = t
        · subst he
          simp [Core.place, Core.set_pc, Pc.call, hpc]
        · simp [Core.place, Core.set_pc, he] }
  obtain ⟨candidate, hpick, hcore, hbooks⟩ := PROC_reschedule.spec h' hrun
  refine ⟨Q, ?_, hbooks.isr_return⟩
  simp only [hcore]
  exact .resume hpc hpick

/-- Every step that is not interrupted is a move and keeps the books. -/
theorem step.moves (h : Books tidy k Q none) (hcpu : Cpu k.toCore)
    (hwhole : uninterrupted e k)
    (hk : ∀ u, new_thread e k.toCore = some u → ¬k.thread.allocated u → u ∉ Q .kbd_wait_queue)
    (htidy : tidy → waits e k.toCore → ∀ t p child x, k.curr_proc = some t →
      k.thread.owner t = some p → PROC_find_zombie_child fuel p k = some (some child) →
      k.thread.allocated x → k.thread.owner x = some child → x ∉ Q .kbd_wait_queue)
    (hrun : step fuel e k = some k') : ∃ t, k.curr_proc = some t ∧ Moves tidy e k Q t k' := by
  obtain ⟨t, ht, ha, _⟩ := hcpu.curr
  refine ⟨t, ht, ?_⟩
  obtain ⟨t', ht', hrun⟩ := Option.bind_eq_some_iff.mp hrun
  obtain rfl : t = t' := Option.some.inj (ht.symm.trans ht')
  have hfree : (∀ call, k.thread.pc t ≠ .yield call) → ∀ q, k.LiveQueue q → t ∉ Q q :=
    fun hpc q => hcpu.free h ht hpc
  cases e with
  | timer =>
    obtain ⟨k1, hresched, hrun⟩ := Option.bind_eq_some_iff.mp hrun
    cases hrun
    obtain ⟨candidate, hpick, hcore, hbooks⟩ := PROC_reschedule.spec h hresched
    refine ⟨Q, ?_, hbooks.isr_return⟩
    simp only [hcore]
    exact .timer hpick
  | key sc ch =>
    obtain ⟨k1, hirq, hrun⟩ := Option.bind_eq_some_iff.mp hrun
    cases hrun
    exact ISR33_keyboard_irq.moves h hirq
  | call s =>
    cases hpc : k.thread.pc t with
    | user =>
      simp only [hpc] at hrun
      split at hrun
      · rename_i hmay
        exact syscall.moves h hcpu ht hpc hmay hk
          (fun hti hwaits p child x => htidy hti hwaits t p child x ht) hrun
      · cases hrun
    | _ =>
      simp only [hpc] at hrun
      cases hrun
  | run =>
    cases hpc : k.thread.pc t with
    | yield call =>
      simp only [hpc] at hrun
      obtain ⟨k1, hresched, hrun⟩ := Option.bind_eq_some_iff.mp hrun
      cases hrun
      exact resume.moves h hpc hresched
    | window w =>
      simp only [hpc] at hrun
      have hnew : new_thread .run k.toCore = w.new_thread := by simp [new_thread, ht, hpc]
      refine whole_window.moves h hcpu ht hpc hnew (hnew ▸ hk) ?_ hrun
      rintro hti ⟨status, rfl⟩ p child x
      exact htidy hti (by simp [waits, ht, hpc, Pc.waits]) t p child x ht
    | _ =>
      simp only [hpc] at hrun
      cases hrun
  | slice =>
    cases hpc : k.thread.pc t with
    | window w =>
      simp only [hpc] at hrun
      obtain ⟨⟨o, k1⟩, hstep, hrun⟩ := Option.bind_eq_some_iff.mp hrun
      cases w with
      | lock id m =>
        obtain ⟨p, hw⟩ := hcpu.at_work h ht (by rw [hpc]; rfl)
        have hcall : (k.thread.pc t).call = some (.lock id m) := by rw [hpc]; rfl
        have hp := hcpu.user_of_call hw.toOnCpu hcall
        have hs := hw.running hcpu h ht hp
        obtain ⟨rfl, hmoves⟩ := lock_window.moves (e := .slice) h hw hp hs hpc hstep
        cases hrun
        exact hmoves
      | getc =>
        obtain ⟨p, hw⟩ := hcpu.on_cpu h ht (by rw [hpc]; simp)
        have hcall : (k.thread.pc t).call = some .getc := by rw [hpc]; rfl
        have hp := hcpu.user_of_call hw hcall
        have hs := hw.running hcpu h ht hp
        obtain ⟨rfl, hmoves⟩ := getc_window.moves (e := .slice) h hw hp hs hpc hstep
        cases hrun
        exact hmoves
      | _ =>
        simp only [uninterrupted, ht, Option.map_some, hpc] at hwhole
        cases hwhole
    | _ =>
      simp only [hpc] at hrun
      cases hrun
  | create_kthread new kstack =>
    cases hpc : k.thread.pc t with
    | user =>
      simp only [hpc] at hrun
      split at hrun
      · rename_i ho
        cases hrun
        exact ⟨Q, .create_kthread hpc ho, h.set_pc (hfree (by simp [hpc])) _⟩
      · cases hrun
    | _ =>
      simp only [hpc] at hrun
      cases hrun
  | elf_load p4 =>
    cases hpc : k.thread.pc t with
    | user =>
      simp only [hpc] at hrun
      split at hrun
      · rename_i ho
        cases hrun
        refine ⟨Q, .elf_load hpc ho.1 ho.2, (h.set_p4s (p4 :: k.p4s)).set_pc ?_ _⟩
        exact fun q hq => hfree (by simp [hpc]) q (by cases q <;> exact hq)
      · cases hrun
    | _ =>
      simp only [hpc] at hrun
      cases hrun
  | loaded ok process new kstack =>
    cases hpc : k.thread.pc t with
    | elf_load p4 =>
      simp only [hpc] at hrun
      split at hrun
      · cases hrun
        exact ⟨Q, .elf_loaded hpc, h.set_pc (hfree (by simp [hpc])) _⟩
      · cases hrun
        refine ⟨Q, .elf_fails hpc, (h.destroy_p4 p4).set_pc (fun q hq => ?_) _⟩
        exact hfree (by simp [hpc]) q ((MMU_destroy_p4.live p4 k.toCore).mp hq)
    | exec_load p4 =>
      simp only [hpc] at hrun
      obtain ⟨p, ho, _⟩ := h.owner t ha
      exact exec_loaded.moves h ho (hfree (by simp [hpc])) hpc hrun
    | _ =>
      simp only [hpc] at hrun
      cases hrun

end JamsOs
