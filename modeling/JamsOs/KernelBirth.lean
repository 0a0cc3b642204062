-- What the creation of threads and processes does to the books of the kernel, and what the end of
-- their records does.
import JamsOs.KernelBooks

namespace JamsOs

open Linked

variable {tidy : Prop} {k : Kernel} {Q : QueueRef → List Nat} {dying : Ptr} {t p : Nat}
  {q : QueueRef}

/-! ## New threads -/

/-- The thread `t` of `p`, before it is admitted. -/
def Kernel.spawned (t p : Nat) (kstack : Word) (k : Kernel) : Kernel :=
  let k := PROC_link_thread p t (PROC_init_thread t p k)
  { k with thread.kstack := Function.update k.thread.kstack t kstack }

/-- The record of a thread was written, and is not in use after that. -/
def Kernel.thread_dropped (t p : Nat) (k : Kernel) : Kernel :=
  { PROC_init_thread t p k with thread.allocated := k.thread.allocated }

/-- The links of a thread outside all queues are written. -/
theorem Books.queue_scribble (h : Books tidy k Q dying) (ht : ¬k.thread.allocated t)
    (hk : t ∉ Q .kbd_wait_queue) (hq : k.LiveQueue q) (v : Ptr) :
    QueueAt { k.links.queues with lib_one := Function.update k.links.queues.lib_one t v } q (Q q) :=
  (h.queue q hq).scribble (h.notMem_of_free hq ht hk) v

theorem Books.thread_dropped (h : Books tidy k Q dying) (ht : ¬k.thread.allocated t)
    (hk : t ∉ Q .kbd_wait_queue) : Books tidy (k.thread_dropped t p) Q dying := by
  have hne : ∀ x, k.thread.allocated x → x ≠ t := by
    rintro x hx rfl
    exact ht hx
  have hqne : ∀ q, k.LiveQueue q → ∀ x ∈ Q q, x ≠ t := by
    rintro q hq x hx rfl
    exact h.notMem_of_free hq ht hk hx
  have howner : ∀ x, x ≠ t → (k.thread_dropped t p).thread.owner x = k.thread.owner x :=
    fun x hx => Function.update_of_ne hx _ _
  have hrs : ∀ x, x ≠ t → (k.thread_dropped t p).thread.run_state x = k.thread.run_state x :=
    fun x hx => Function.update_of_ne hx _ _
  have htid : ∀ x, x ≠ t → (k.thread_dropped t p).thread.tid x = k.thread.tid x :=
    fun x hx => Function.update_of_ne hx _ _
  have hplace : ∀ x, x ≠ t → (k.thread_dropped t p).place x = k.place x := by
    intro x hx
    simp [Core.place, Kernel.thread_dropped, PROC_init_thread, hx]
  exact { h with
    main_owner := (howner _ (hne _ h.main_allocated)).trans h.main_owner
    main_state := by
      rw [hrs _ (hne _ h.main_allocated)]
      exact h.main_state
    owner := by
      intro x hx
      rw [howner x (hne x hx)]
      exact h.owner x hx
    tid_lt := by
      intro x hx
      rw [htid x (hne x hx)]
      exact Nat.lt_succ_of_lt (h.tid_lt x hx)
    tid_inj := by
      intro x y hx hy hxy
      rw [htid x (hne x hx), htid y (hne y hy)] at hxy
      exact h.tid_inj x y hx hy hxy
    ring := by
      refine (h.ring.scribble (fun hr => ht hr.1) none).congr fun x => ?_
      simp only [Core.Runnable]
      refine and_congr_right fun hx => ?_
      rw [hrs x (hne x hx)]
    queue := fun q hq => h.queue_scribble ht hk hq none
    queue_place := by
      intro q hq x hx
      rw [hplace x (hqne q hq x hx)]
      exact h.queue_place q hq x hx
    queue_state := by
      intro q hq x hx
      rw [hrs x (hqne q hq x hx)]
      exact h.queue_state q hq x hx
    queue_dead := by
      intro q hq x hx
      rw [hrs x (hqne q hq x hx), howner x (hqne q hq x hx)]
      exact h.queue_dead q hq x hx
    blocked := by
      intro x hx
      rw [hrs x (hne x hx)]
      exact h.blocked x hx
    threads := by
      intro x hx
      obtain ⟨l, hc, hm, hl⟩ := h.threads x hx
      have htl : t ∉ l := fun hin => ht ((hm t).mp hin).1
      refine ⟨l, hc.update_of_notMem htl none, fun y => ?_, hl.trans ?_⟩
      · rw [hm]
        refine and_congr_right fun hy => ?_
        rw [howner y (hne y hy)]
      · refine List.countP_congr fun y hy => ?_
        rw [hrs y fun he => htl (he ▸ hy)]
    threads_any := by
      intro x hx hxd
      obtain ⟨y, hy, ho⟩ := h.threads_any x hx hxd
      exact ⟨y, hy, (howner y (hne y hy)).trans ho⟩
    exiting := by
      intro x hx hxe y hy
      rw [hrs y (hne y hy), howner y (hne y hy)]
      exact h.exiting x hx hxe y hy
    mutex_waiters := by
      intro m hm x hx
      rw [howner x (hqne (.waiters m) hm x hx)]
      exact h.mutex_waiters m hm x hx }

/-- A record with a new tid is taken into use, as a thread of `p` that can run. -/
theorem Books.link_thread {ring : RunRing} (h : Books tidy k Q dying) (hp : k.process.allocated p)
    (hex : k.process.exiting p = false) (ht : ¬k.thread.allocated t) (hk : t ∉ Q .kbd_wait_queue)
    (hown : k.thread.owner t = some p) (hready : k.thread.run_state t = .ready)
    (htid : ∀ x, k.thread.allocated x → k.thread.tid x < k.thread.tid t)
    (hnext : k.thread.tid t < k.next_tid) (hring : RingOf ring fun x => x = t ∨ k.Runnable x) :
    Books tidy { k with
      thread.allocated := Function.update k.thread.allocated t true
      process.live_threads :=
        Function.update k.process.live_threads p (k.process.live_threads p + 1)
      links.ring := ring
      links.next_thread := Function.update k.links.next_thread t (k.links.threads p)
      links.threads := Function.update k.links.threads p (some t) } Q dying := by
  have hmain : t ≠ main_thread := by
    rintro rfl
    exact ht h.main_allocated
  have hz : k.process.zombie p = false := by
    by_contra hz
    rw [h.zombie_exiting p hp (by simpa using hz)] at hex
    cases hex
  have halloc : ∀ x, Function.update k.thread.allocated t true x ↔ x = t ∨ k.thread.allocated x := by
    intro x
    by_cases hx : x = t <;> simp [hx]
  exact { h with
    main_allocated := (halloc _).mpr (Or.inr h.main_allocated)
    owner := by
      intro x hx
      rcases (halloc x).mp hx with rfl | hx
      · exact ⟨p, hown, hp⟩
      · exact h.owner x hx
    tid_lt := by
      intro x hx
      rcases (halloc x).mp hx with rfl | hx
      · exact hnext
      · exact h.tid_lt x hx
    tid_inj := by
      intro x y hx hy hxy
      rcases (halloc x).mp hx with rfl | hx' <;> rcases (halloc y).mp hy with rfl | hy'
      · rfl
      · exact absurd hxy (htid y hy').ne'
      · exact absurd hxy (htid x hx').ne
      · exact h.tid_inj x y hx' hy' hxy
    ring := by
      refine hring.congr fun x => ?_
      simp only [Core.Runnable, halloc]
      by_cases hx : x = t
      · simp [hx, hready, hmain]
      · simp [hx]
    queue_state := fun q hq x hx =>
      (h.queue_state q hq x hx).imp id fun hs => ⟨(halloc x).mpr (Or.inr hs.1), hs.2⟩
    queue_allocated := fun q hq hk x hx => (halloc x).mpr (Or.inr (h.queue_allocated q hq hk x hx))
    queue_dead := by
      intro q hq x hx hxa
      refine h.queue_dead q hq x hx (((halloc x).mp hxa).resolve_left ?_)
      rintro rfl
      exact h.notMem_of_free hq ht hk hx
    blocked := by
      intro x hx hb
      rcases (halloc x).mp hx with rfl | hx
      · rw [show k.thread.run_state x = .blocked from hb] at hready
        cases hready
      · exact h.blocked x hx hb
    threads := by
      intro x hx
      obtain ⟨l, hc, hm, hl⟩ := h.threads x hx
      have htl : t ∉ l := fun hin => ht ((hm t).mp hin).1
      simp only [halloc]
      by_cases hxp : x = p
      · subst hxp
        refine ⟨t :: l, ?_, fun y => ?_, ?_⟩
        · rw [Function.update_self]
          exact hc.push htl (Function.update_self _ _ _) fun b hb => Function.update_of_ne hb _ _
        · by_cases hy : y = t
          · simp [hy, hown]
          · simp [hy, hm]
        · rw [List.countP_cons, ← hl]
          simp [hready]
      · refine ⟨l, ?_, fun y => ?_, (Function.update_of_ne hxp _ _).trans hl⟩
        · rw [Function.update_of_ne hxp]
          exact hc.update_of_notMem htl _
        · by_cases hy : y = t
          · simp [hy, hown, htl, Ne.symm hxp]
          · simp [hy, hm]
    threads_any := by
      intro x hx hxd
      obtain ⟨y, hy, ho⟩ := h.threads_any x hx hxd
      exact ⟨y, (halloc y).mpr (Or.inr hy), ho⟩
    exiting := by
      intro x hx hxe y hy ho
      rcases (halloc y).mp hy with rfl | hy
      · obtain rfl := Option.some.inj (hown.symm.trans ho)
        rw [show k.process.exiting p = true from hxe] at hex
        cases hex
      · exact h.exiting x hx hxe y hy ho
    zombie := by
      intro x hx hxd
      by_cases hxp : x = p
      · simp [hxp, hz]
      · simpa [hxp] using h.zombie x hx hxd }

theorem Books.spawn (h : Books tidy k Q dying) (hp : k.process.allocated p)
    (hex : k.process.exiting p = false) (ht : ¬k.thread.allocated t)
    (hk : t ∉ Q .kbd_wait_queue) (kstack : Word) :
    ∃ k', PROC_admit t (k.spawned t p kstack) = some k' ∧
      k'.toCore = (k.spawned t p kstack).toCore ∧ Books tidy k' Q dying := by
  have hdropped := h.thread_dropped (p := p) ht hk
  obtain ⟨ring, henter, hring⟩ := hdropped.ring.enter fun hr => ht hr.1
  refine ⟨{ k.spawned t p kstack with links.ring := ring }, ?_, rfl, ?_⟩
  · rw [ PROC_admit, show (k.spawned t p kstack).links.ring = (k.thread_dropped t p).links.ring from
      rfl, henter]
    rfl
  have hbooks := hdropped.link_thread hp hex ht hk (Function.update_self _ _ _)
    (Function.update_self _ _ _) ?_ ?_ hring
  · have howner : Function.update (PROC_init_thread t p k).thread.owner t (some p) =
        (PROC_init_thread t p k).thread.owner := Function.update_idem _ _ _
    simp only [Kernel.spawned, PROC_link_thread, howner]
    exact { hbooks with }
  · intro x hx
    have hxt : x ≠ t := by
      rintro rfl
      exact ht hx
    simpa [Kernel.thread_dropped, PROC_init_thread, hxt] using h.tid_lt x hx
  · simp [Kernel.thread_dropped, PROC_init_thread]

/-! ## Creation that fails -/

theorem free_init_allocated {f : Nat → Bool} {x : Nat} (h : ¬f x) :
    Function.update (Function.update f x true) x false = f := by
  rw [Function.update_idem, ← Bool.not_eq_true _ |>.mp h, Function.update_eq_self]

/-- The new thread is unlinked and freed again. -/
theorem unlink_spawned {fuel : Nat} {k' : Kernel} (ht : ¬k.thread.allocated t)
    (hrun : PROC_unlink_thread fuel p t (PROC_link_thread p t (PROC_init_thread t p k)) = some k') :
    { k' with toCore := PROC_free_thread t (k'.drop_live p) } = k.thread_dropped t p := by
  cases fuel with
  | zero =>
    simp [PROC_unlink_thread, PROC_link_thread, PROC_init_thread, seek] at hrun
  | succ fuel =>
    simp only [PROC_unlink_thread, PROC_link_thread, PROC_init_thread, seek, Function.update_self,
      if_true, Option.bind_eq_bind, Option.bind_some, Option.some.injEq] at hrun
    subst hrun
    simp only [Kernel.thread_dropped, PROC_init_thread, PROC_free_thread, Core.drop_live, cut_thread,
      Function.update_self, Function.update_idem, Nat.add_sub_cancel, Function.update_eq_self,
      free_init_allocated ht]

/-- The new thread is freed before it is linked. -/
theorem free_init_thread (ht : ¬k.thread.allocated t) :
    { PROC_init_thread t p k with toCore := PROC_free_thread t (PROC_init_thread t p k).toCore } =
      k.thread_dropped t p := by
  simp only [Kernel.thread_dropped, PROC_init_thread, PROC_free_thread, free_init_allocated ht]

/-! ## New processes -/

/-- The queues of a new process are empty. -/
def with_process (Q : QueueRef → List Nat) (p : Nat) : QueueRef → List Nat :=
  Function.update (Function.update Q (.wait_child_exit p) []) (.wait_thread_exit p) []

theorem with_process_of_live (Q : QueueRef → List Nat) (hp : ¬k.process.allocated p)
    (hq : k.LiveQueue q) : with_process Q p q = Q q := by
  unfold with_process
  rw [Function.update_of_ne, Function.update_of_ne]
  · rintro rfl
    exact hp hq
  · rintro rfl
    exact hp hq

/-- The process `p` under `parent`, before it has a thread. -/
def Kernel.with_child (parent p : Nat) (cr3 : Word) (k : Kernel) : Kernel :=
  PROC_link_process_child parent p (PROC_init_process p (some parent) cr3 k)

theorem liveQueue_new {c : Core} (ha : c.process.allocated = Function.update k.process.allocated p true)
    (hm : c.mutex.allocated = k.mutex.allocated) :
    c.LiveQueue q ↔ k.LiveQueue q ∨ q = .wait_child_exit p ∨ q = .wait_thread_exit p := by
  cases q with
  | wait_child_exit x => by_cases hx : x = p <;> simp [Core.LiveQueue, ha, hx]
  | wait_thread_exit x => by_cases hx : x = p <;> simp [Core.LiveQueue, ha, hx]
  | kbd_wait_queue => simp [Core.LiveQueue]
  | waiters m => simp [Core.LiveQueue, hm]

theorem Kernel.with_child_live {parent : Nat} {cr3 : Word} :
    (k.with_child parent p cr3).LiveQueue q ↔
      k.LiveQueue q ∨ q = .wait_child_exit p ∨ q = .wait_thread_exit p :=
  liveQueue_new rfl rfl

/-- The record of a process was written, and is not in use after that. -/
def Kernel.process_dropped (p parent : Nat) (cr3 : Word) (k : Kernel) : Kernel :=
  { PROC_init_process p (some parent) cr3 k with process.allocated := k.process.allocated }

theorem free_init_process (parent : Nat) (cr3 : Word) (hp : ¬k.process.allocated p) :
    { PROC_init_process p (some parent) cr3 k with
      toCore := PROC_free_process p (PROC_init_process p (some parent) cr3 k).toCore } =
      k.process_dropped p parent cr3 := by
  simp only [Kernel.process_dropped, PROC_init_process, PROC_free_process, free_init_allocated hp]

theorem Books.process_dropped (h : Books tidy k Q dying) (hp : ¬k.process.allocated p)
    (parent : Nat) (cr3 : Word) : Books tidy (k.process_dropped p parent cr3) Q dying := by
  have hne : ∀ x, k.process.allocated x → x ≠ p := by
    rintro x hx rfl
    exact hp hx
  have hpid : ∀ x, x ≠ p → (k.process_dropped p parent cr3).process.pid x = k.process.pid x :=
    fun x hx => Function.update_of_ne hx _ _
  have hzombie : ∀ x, x ≠ p →
      (k.process_dropped p parent cr3).process.zombie x = k.process.zombie x :=
    fun x hx => Function.update_of_ne hx _ _
  have hexiting : ∀ x, x ≠ p →
      (k.process_dropped p parent cr3).process.exiting x = k.process.exiting x :=
    fun x hx => Function.update_of_ne hx _ _
  have hlive : ∀ x, x ≠ p →
      (k.process_dropped p parent cr3).process.live_threads x = k.process.live_threads x :=
    fun x hx => Function.update_of_ne hx _ _
  have hparent : ∀ x, x ≠ p →
      (k.process_dropped p parent cr3).process.parent x = k.process.parent x :=
    fun x hx => Function.update_of_ne hx _ _
  exact { h with
    kernel_pid := (hpid _ (hne _ h.kernel_allocated)).trans h.kernel_pid
    kernel_zombie := (hzombie _ (hne _ h.kernel_allocated)).trans h.kernel_zombie
    pid_lt := by
      intro x hx
      rw [hpid x (hne x hx)]
      exact Nat.lt_succ_of_lt (h.pid_lt x hx)
    pid_inj := by
      intro x y hx hy hxy
      rw [hpid x (hne x hx), hpid y (hne y hy)] at hxy
      exact h.pid_inj x y hx hy hxy
    queue := by
      intro q hq
      refine ((h.queue q hq).other ?_ _).other ?_ _
      · rintro rfl
        exact hp hq
      · rintro rfl
        exact hp hq
    queue_dead := by
      intro q hq x hx hxa hxz
      obtain ⟨o, ho, hoe⟩ := h.queue_dead q hq x hx hxa hxz
      obtain ⟨o', ho', hoa⟩ := h.owner x hxa
      obtain rfl : o = o' := by
        rw [ho] at ho'
        exact Option.some.inj ho'
      refine ⟨o, ho, ?_⟩
      rw [hexiting o (hne o hoa)]
      exact hoe
    threads := by
      intro x hx
      obtain ⟨l, hc, hm, hl⟩ := h.threads x hx
      refine ⟨l, ?_, hm, (hlive x (hne x hx)).trans hl⟩
      rw [show (k.process_dropped p parent cr3).links.threads x = k.links.threads x from
        Function.update_of_ne (hne x hx) _ _]
      exact hc
    children := by
      intro x hx
      obtain ⟨l, hc, hm⟩ := h.children x hx
      have hpl : p ∉ l := fun hin => hp ((hm p).mp hin).1
      refine ⟨l, ?_, fun c => ?_⟩
      · rw [show (k.process_dropped p parent cr3).links.first_child x = k.links.first_child x from
          Function.update_of_ne (hne x hx) _ _]
        exact hc.update_of_notMem hpl none
      · rw [hm]
        refine and_congr_right fun hca => ?_
        rw [hparent c (hne c hca)]
    parent := by
      intro c hc hck
      obtain ⟨o, ho, hoa, hoz, hlt⟩ := h.parent c hc hck
      refine ⟨o, (hparent c (hne c hc)).trans ho, hoa, (hzombie o (hne o hoa)).trans hoz, ?_⟩
      rw [hpid o (hne o hoa), hpid c (hne c hc)]
      exact hlt
    exiting := by
      intro x hx
      rw [hexiting x (hne x hx)]
      exact h.exiting x hx
    zombie := by
      intro x hx
      rw [hzombie x (hne x hx), hlive x (hne x hx)]
      exact h.zombie x hx
    zombie_exiting := by
      intro x hx
      rw [hzombie x (hne x hx), hexiting x (hne x hx)]
      exact h.zombie_exiting x hx
    mutex_owner := by
      intro m hm
      obtain ⟨o, ho, hoa, hoz⟩ := h.mutex_owner m hm
      refine ⟨o, ho, hoa, ?_⟩
      rw [hzombie o (hne o hoa)]
      exact hoz }

/-- A record with a new pid and empty lists is taken into use, under `parent`. -/
theorem Books.link_child {parent : Nat} (h : Books tidy k Q none) (hp : ¬k.process.allocated p)
    (hpar : k.process.allocated parent) (hz : k.process.zombie parent = false)
    (hpid : ∀ x, k.process.allocated x → k.process.pid x < k.process.pid p)
    (hnext : k.process.pid p < k.next_pid) (hlive : k.process.live_threads p = 0)
    (hex : k.process.exiting p = false) (hzp : k.process.zombie p = false)
    (hthreads : k.links.threads p = none) (hchild : k.links.first_child p = none)
    (hends : k.links.queues.ends (.wait_child_exit p) = ⟨none, none⟩ ∧
      k.links.queues.ends (.wait_thread_exit p) = ⟨none, none⟩) :
    Books tidy (PROC_link_process_child parent p
      { k with process.allocated := Function.update k.process.allocated p true })
      (with_process Q p) (some p) := by
  have hne : ∀ x, k.process.allocated x → x ≠ p := by
    rintro x hx rfl
    exact hp hx
  have halloc : ∀ x, Function.update k.process.allocated p true x ↔ x = p ∨ k.process.allocated x := by
    intro x
    by_cases hx : x = p <;> simp [hx]
  have hqueue : ∀ q, (PROC_link_process_child parent p
      { k with process.allocated := Function.update k.process.allocated p true }).LiveQueue q →
      k.LiveQueue q ∧ with_process Q p q = Q q ∨
        k.links.queues.ends q = ⟨none, none⟩ ∧ with_process Q p q = [] := by
    intro q hq
    rcases (liveQueue_new (k := k) (p := p) (by rfl) (by rfl)).mp hq with hq | rfl | rfl
    · exact Or.inl ⟨hq, with_process_of_live Q hp hq⟩
    · exact Or.inr ⟨hends.1, by simp [with_process]⟩
    · exact Or.inr ⟨hends.2, by simp [with_process]⟩
  -- a queue of the new process is empty, the others are as they were
  have hmem : ∀ q, (PROC_link_process_child parent p
      { k with process.allocated := Function.update k.process.allocated p true }).LiveQueue q →
      ∀ x ∈ with_process Q p q, k.LiveQueue q ∧ x ∈ Q q := by
    intro q hq x hx
    rcases hqueue q hq with ⟨hq, he⟩ | ⟨-, he⟩ <;> rw [he] at hx
    · exact ⟨hq, hx⟩
    · cases hx
  exact { h with
    kernel_allocated := (halloc _).mpr (Or.inr h.kernel_allocated)
    owner := by
      intro t ht
      obtain ⟨o, ho, hoa⟩ := h.owner t ht
      exact ⟨o, ho, (halloc o).mpr (Or.inr hoa)⟩
    pid_lt := by
      intro x hx
      rcases (halloc x).mp hx with rfl | hx'
      · exact hnext
      · exact h.pid_lt x hx'
    pid_inj := by
      intro x y hx hy hxy
      rcases (halloc x).mp hx with rfl | hx' <;> rcases (halloc y).mp hy with rfl | hy'
      · rfl
      · exact absurd hxy (hpid y hy').ne'
      · exact absurd hxy (hpid x hx').ne
      · exact h.pid_inj x y hx' hy' hxy
    queue := by
      intro q hq
      rcases hqueue q hq with ⟨hq, he⟩ | ⟨hends, he⟩ <;> rw [he]
      · exact h.queue q hq
      · exact queueAt_nil hends
    queue_place := fun q hq x hx => h.queue_place q (hmem q hq x hx).1 x (hmem q hq x hx).2
    queue_state := fun q hq x hx => h.queue_state q (hmem q hq x hx).1 x (hmem q hq x hx).2
    queue_allocated := fun q hq hk x hx =>
      h.queue_allocated q (hmem q hq x hx).1 hk x (hmem q hq x hx).2
    queue_dead := fun q hq x hx => h.queue_dead q (hmem q hq x hx).1 x (hmem q hq x hx).2
    queue_since := by
      intro q hq
      rcases hqueue q hq with ⟨hq, he⟩ | ⟨-, he⟩ <;> rw [he]
      · exact h.queue_since q hq
      · exact List.Pairwise.nil
    queue_clock := fun q hq x hx => h.queue_clock q (hmem q hq x hx).1 x (hmem q hq x hx).2
    blocked := by
      intro x hx hb
      obtain ⟨q, hq, hin⟩ := h.blocked x hx hb
      refine ⟨q, (liveQueue_new (k := k) (p := p) (by rfl) (by rfl)).mpr (Or.inl hq), ?_⟩
      rwa [with_process_of_live Q hp hq]
    threads := by
      intro x hx
      rcases (halloc x).mp hx with rfl | hxa
      · refine ⟨[], chain_nil_iff.mpr hthreads, fun t => ?_, hlive⟩
        simp only [List.not_mem_nil, false_iff]
        rintro ⟨hta, hto⟩
        obtain ⟨o, ho, hoa⟩ := h.owner t hta
        rw [show k.thread.owner t = some x from hto] at ho
        exact hne o hoa (Option.some.inj ho).symm
      · exact h.threads x hxa
    threads_any := by
      intro x hx hxd
      have hxp : x ≠ p := fun he => hxd (by rw [he])
      exact h.threads_any x (((halloc x).mp hx).resolve_left hxp) (Option.some_ne_none x)
    children := by
      intro x hx
      simp only [PROC_link_process_child, halloc]
      rcases (halloc x).mp hx with rfl | hxa
      · refine ⟨[], chain_nil_iff.mpr ?_, fun c => ?_⟩
        · rw [Function.update_of_ne (Ne.symm (hne parent hpar)), hchild]
        · simp only [List.not_mem_nil, false_iff]
          rintro ⟨hca, hck, hcp⟩
          by_cases hcx : c = x
          · rw [hcx, Function.update_self] at hcp
            exact hne parent hpar (Option.some.inj hcp)
          · rw [Function.update_of_ne hcx] at hcp
            obtain ⟨o, ho, hoa, _⟩ := h.parent c (hca.resolve_left hcx) hck
            rw [hcp] at ho
            exact hne o hoa (Option.some.inj ho).symm
      · obtain ⟨l, hc, hm⟩ := h.children x hxa
        have hpl : p ∉ l := fun hin => hp ((hm p).mp hin).1
        have hmem' : ∀ c, ((c = p ∨ k.process.allocated c) ∧ c ≠ kernel_process ∧
            Function.update k.process.parent p (some parent) c = some x) ↔
              c = p ∧ x = parent ∨ c ∈ l := by
          intro c
          by_cases hcp : c = p
          · subst hcp
            have hck : c ≠ kernel_process := fun he => hp (he ▸ h.kernel_allocated)
            simp only [Function.update_self, true_or, true_and, hck, ne_eq, not_false_eq_true, hpl,
              or_false, Option.some.injEq]
            exact eq_comm
          · simp [hm, hcp]
        simp only [hmem']
        by_cases hxq : x = parent
        · subst hxq
          refine ⟨p :: l, ?_, fun c => by simp⟩
          rw [Function.update_self]
          exact hc.push hpl (Function.update_self _ _ _) fun b hb => Function.update_of_ne hb _ _
        · refine ⟨l, ?_, fun c => by simp [hxq]⟩
          rw [Function.update_of_ne hxq]
          exact hc.update_of_notMem hpl _
    parent := by
      intro c hc hck
      simp only [PROC_link_process_child, halloc]
      rcases (halloc c).mp hc with rfl | hca
      · exact ⟨parent, Function.update_self _ _ _, Or.inr hpar, hz, hpid parent hpar⟩
      · obtain ⟨o, ho, hoa, hoz, hlt⟩ := h.parent c hca hck
        exact ⟨o, (Function.update_of_ne (hne c hca) _ _).trans ho, Or.inr hoa, hoz, hlt⟩
    exiting := by
      intro x hx hxe
      rcases (halloc x).mp hx with rfl | hxa
      · rw [show k.process.exiting x = true from hxe] at hex
        cases hex
      · exact h.exiting x hxa hxe
    zombie := by
      intro x hx hxd
      have hxp : x ≠ p := fun he => hxd (by rw [he])
      exact h.zombie x (((halloc x).mp hx).resolve_left hxp) (Option.some_ne_none x)
    zombie_exiting := by
      intro x hx hxz
      rcases (halloc x).mp hx with rfl | hxa
      · rw [show k.process.zombie x = true from hxz] at hzp
        cases hzp
      · exact h.zombie_exiting x hxa hxz
    mutex_owner := by
      intro m hm
      obtain ⟨o, ho, hoa, hoz⟩ := h.mutex_owner m hm
      exact ⟨o, ho, (halloc o).mpr (Or.inr hoa), Or.inl (hoz.resolve_right (Option.some_ne_none o))⟩
    mutex_listed := fun hd => absurd hd (Option.some_ne_none p)
    mutex_waiters := fun m hm x hx => h.mutex_waiters m hm x (hmem (.waiters m) hm x hx).2 }

/-- A process without threads is linked under its parent. -/
theorem Books.new_process {parent : Nat} (h : Books tidy k Q none) (hp : ¬k.process.allocated p)
    (hpar : k.process.allocated parent) (hz : k.process.zombie parent = false) (cr3 : Word) :
    Books tidy (k.with_child parent p cr3) (with_process Q p) (some p) := by
  have hne : ∀ x, k.process.allocated x → x ≠ p := by
    rintro x hx rfl
    exact hp hx
  refine (h.process_dropped hp parent cr3).link_child hp hpar ?_ ?_ ?_ ?_ ?_ ?_ ?_ ?_ ?_
  · exact (Function.update_of_ne (hne parent hpar) _ _).trans hz
  · intro x hx
    rw [show (k.process_dropped p parent cr3).process.pid x = k.process.pid x from
      Function.update_of_ne (hne x hx) _ _]
    simpa [Kernel.process_dropped, PROC_init_process] using h.pid_lt x hx
  all_goals simp [Kernel.process_dropped, PROC_init_process]

/-! ## Records that go -/

theorem cut_thread_eq (prev : Ptr) (l : Links) :
    cut_thread p prev t l = { l with
      next_thread := cutNext l.next_thread prev t
      threads := cutHead l.next_thread l.threads p prev t } := by
  cases prev <;> rfl

/-- A dead thread of a process that goes on is unlinked and freed. -/
theorem Books.reap_thread {l s r : List Nat} {prev : Ptr} (h : Books tidy k Q dying)
    (hp : k.process.allocated p) (hex : k.process.exiting p = false)
    (hc : Chain some none k.links.next_thread (k.links.threads p) l) (hl : l = s ++ t :: r)
    (hprev : prev = s.getLast?) (hz : k.thread.run_state t = .zombie)
    (hany : ∃ x, x ≠ t ∧ k.thread.allocated x ∧ k.thread.owner x = some p) :
    Books tidy { toCore := PROC_free_thread t k.toCore, links := cut_thread p prev t k.links }
      Q dying := by
  obtain ⟨l', hc', hm, hcount⟩ := h.threads p hp
  obtain rfl := hc.eq_of_chain hc'
  subst hl
  subst hprev
  rw [cut_thread_eq]
  have htl : t ∈ s ++ t :: r := by simp
  obtain ⟨ha, ho⟩ := (hm t).mp htl
  have hmain : main_thread ≠ t := by
    rintro rfl
    rcases h.main_state with hs | hs <;> rw [hz] at hs <;> cases hs
  have hfree : ∀ q, k.LiveQueue q → t ∉ Q q := by
    intro q hq hin
    obtain ⟨o, ho', hoe⟩ := h.queue_dead q hq t hin ha hz
    rw [ho] at ho'
    rw [← Option.some.inj ho', hex] at hoe
    cases hoe
  have halloc : ∀ x, Function.update k.thread.allocated t false x ↔ x ≠ t ∧ k.thread.allocated x := by
    intro x
    by_cases hx : x = t <;> simp [hx]
  have hqne : ∀ q, k.LiveQueue q → ∀ x ∈ Q q, x ≠ t := fun q hq x hx he => hfree q hq (he ▸ hx)
  exact { h with
    main_allocated := (halloc _).mpr ⟨hmain, h.main_allocated⟩
    owner := fun x hx => h.owner x ((halloc x).mp hx).2
    tid_lt := fun x hx => h.tid_lt x ((halloc x).mp hx).2
    tid_inj := fun x y hx hy => h.tid_inj x y ((halloc x).mp hx).2 ((halloc y).mp hy).2
    ring := by
      refine h.ring.congr fun x => ?_
      simp only [Core.Runnable, PROC_free_thread, halloc]
      refine ⟨fun hr => ⟨⟨?_, hr.1⟩, hr.2⟩, fun hr => ⟨hr.1.2, hr.2⟩⟩
      rintro rfl
      rcases hr.2.2 with hs | hs <;> rw [hz] at hs <;> cases hs
    queue_state := by
      intro q hq x hx
      simp only [PROC_free_thread, halloc]
      exact (h.queue_state q hq x hx).imp id fun hs => ⟨⟨hqne q hq x hx, hs.1⟩, hs.2⟩
    queue_allocated := fun q hq hk x hx =>
      (halloc x).mpr ⟨hqne q hq x hx, h.queue_allocated q hq hk x hx⟩
    queue_dead := fun q hq x hx hxa => h.queue_dead q hq x hx ((halloc x).mp hxa).2
    blocked := fun x hx => h.blocked x ((halloc x).mp hx).2
    threads := by
      intro x hx
      by_cases hxp : x = p
      · subst hxp
        refine ⟨s ++ r, hc.cut, fun y => ?_, ?_⟩
        · rw [hc.mem_cut, hm]
          simp only [PROC_free_thread, halloc, and_assoc]
        · have hsame : (s ++ t :: r).countP (fun y => k.thread.run_state y ≠ .zombie) =
              (s ++ r).countP (fun y => k.thread.run_state y ≠ .zombie) := by
            simp [hz]
          exact hcount.trans hsame
      · obtain ⟨l', hc', hm', hl'⟩ := h.threads x hx
        have hdis : ∀ y ∈ s ++ t :: r, y ∉ l' := by
          intro y hy hy'
          have h1 := ((hm y).mp hy).2
          rw [((hm' y).mp hy').2] at h1
          exact hxp (Option.some.inj h1)
        refine ⟨l', hc'.cut_other hxp hdis, fun y => ?_, hl'⟩
        rw [hm']
        simp only [PROC_free_thread, halloc]
        refine ⟨fun hy => ⟨⟨?_, hy.1⟩, hy.2⟩, fun hy => ⟨hy.1.2, hy.2⟩⟩
        rintro rfl
        exact hdis y htl ((hm' y).mpr hy)
    threads_any := by
      intro x hx hxd
      by_cases hxp : x = p
      · subst hxp
        obtain ⟨y, hyt, hya, hyo⟩ := hany
        exact ⟨y, (halloc y).mpr ⟨hyt, hya⟩, hyo⟩
      · obtain ⟨y, hya, hyo⟩ := h.threads_any x hx hxd
        refine ⟨y, (halloc y).mpr ⟨?_, hya⟩, hyo⟩
        rintro rfl
        rw [ho] at hyo
        exact hxp (Option.some.inj hyo).symm
    exiting := fun x hx hxe y hy => h.exiting x hx hxe y ((halloc y).mp hy).2 }

/-- The threads of a list are freed. -/
def Core.threads_freed (l : List Nat) (c : Core) : Core :=
  { c with thread.allocated := fun t => c.thread.allocated t && !decide (t ∈ l) }

theorem free_threads_eq (l : List Nat) (c : Core) :
    l.foldl (fun c t => PROC_free_thread t c) c = c.threads_freed l := by
  induction l generalizing c with
  | nil => simp [Core.threads_freed]
  | cons a l ih =>
    rw [List.foldl_cons, ih]
    simp only [Core.threads_freed, PROC_free_thread, List.mem_cons]
    congr 2
    funext t
    by_cases ht : t = a
    · simp [ht]
    · simp [ht]

theorem cut_process_child_eq (prev : Ptr) (child : Nat) :
    cut_process_child p prev child k = { k with
      process.parent := Function.update k.process.parent child none
      links.first_child := cutHead k.links.next_sibling k.links.first_child p prev child
      links.next_sibling := cutNext k.links.next_sibling prev child } := by
  cases prev <;> rfl

/-- A zombie child is unlinked and freed, with its threads. -/
def Kernel.child_reaped (parent : Nat) (prev : Ptr) (child : Nat) (l : List Nat) (k : Kernel) :
    Kernel :=
  let k := cut_process_child parent prev child k
  { k with toCore := PROC_free_process child (k.threads_freed l) }

theorem Books.reap_process {child : Nat} {l ts s r : List Nat} {prev : Ptr}
    (h : Books tidy k Q none) (hp : k.process.allocated p)
    (hc : Chain some none k.links.next_sibling (k.links.first_child p) l)
    (hl : l = s ++ child :: r) (hprev : prev = s.getLast?) (hz : k.process.zombie child)
    (hts : ∀ t, t ∈ ts ↔ k.thread.allocated t ∧ k.thread.owner t = some child)
    (htidy : tidy → ∀ t ∈ ts, t ∉ Q .kbd_wait_queue) :
    Books tidy (k.child_reaped p prev child ts) Q none := by
  obtain ⟨l', hc', hm⟩ := h.children p hp
  obtain rfl := hc.eq_of_chain hc'
  subst hl
  subst hprev
  unfold Kernel.child_reaped
  rw [cut_process_child_eq]
  have hcl : child ∈ s ++ child :: r := by simp
  obtain ⟨hca, hck, hcp⟩ := (hm child).mp hcl
  have hdead : ∀ t ∈ ts, k.thread.run_state t = .zombie := fun t ht =>
    h.zombie_threads hca hz ((hts t).mp ht).1 ((hts t).mp ht).2
  have hnz : ∀ x, k.process.zombie x = false → x ≠ child := by
    rintro x hx rfl
    rw [hz] at hx
    cases hx
  have halloc : ∀ t, (k.thread.allocated t && !decide (t ∈ ts)) ↔ k.thread.allocated t ∧ t ∉ ts := by
    simp
  have hpalloc : ∀ x, Function.update k.process.allocated child false x ↔
      x ≠ child ∧ k.process.allocated x := by
    intro x
    by_cases hx : x = child <;> simp [hx]
  have hlive : ∀ q, (PROC_free_process child k.toCore).LiveQueue q → k.LiveQueue q := by
    intro q hq
    cases q with
    | kbd_wait_queue => exact hq
    | wait_child_exit x => exact ((hpalloc x).mp hq).2
    | wait_thread_exit x => exact ((hpalloc x).mp hq).2
    | waiters m => exact hq
  -- no thread of the child is on a queue that stays, but for the keyboard queue
  have hgone : ∀ q, (PROC_free_process child k.toCore).LiveQueue q → q ≠ .kbd_wait_queue →
      ∀ t ∈ Q q, t ∉ ts := by
    intro q hq hkbd t ht hin
    have ho := ((hts t).mp hin).2
    cases q with
    | kbd_wait_queue => exact hkbd rfl
    | wait_child_exit x =>
      have ho' := h.queue_owner (hlive _ hq) (Or.inl rfl) ht
      rw [ho] at ho'
      exact ((hpalloc x).mp hq).1 (Option.some.inj ho').symm
    | wait_thread_exit x =>
      have ho' := h.queue_owner (hlive _ hq) (Or.inr rfl) ht
      rw [ho] at ho'
      exact ((hpalloc x).mp hq).1 (Option.some.inj ho').symm
    | waiters m =>
      have hm' : k.mutex.allocated m := hlive _ hq
      obtain ⟨o, hom, _, hoz⟩ := h.mutex_owner m hm'
      have howm := h.mutex_waiters m hm' t ht
      rw [ho, hom] at howm
      rcases hoz with hoz | hoz
      · exact hnz o hoz (Option.some.inj howm).symm
      · cases hoz
  have hmain : main_thread ∉ ts := by
    intro hin
    have hs := hdead _ hin
    rcases h.main_state with hs' | hs' <;> rw [hs] at hs' <;> cases hs'
  exact { h with
    main_allocated := (halloc _).mpr ⟨h.main_allocated, hmain⟩
    kernel_allocated := (hpalloc _).mpr ⟨Ne.symm hck, h.kernel_allocated⟩
    owner := by
      intro t ht
      obtain ⟨hta, htn⟩ := (halloc t).mp ht
      obtain ⟨o, ho, hoa⟩ := h.owner t hta
      refine ⟨o, ho, (hpalloc o).mpr ⟨?_, hoa⟩⟩
      rintro rfl
      exact htn ((hts t).mpr ⟨hta, ho⟩)
    tid_lt := fun t ht => h.tid_lt t ((halloc t).mp ht).1
    tid_inj := fun t u ht hu => h.tid_inj t u ((halloc t).mp ht).1 ((halloc u).mp hu).1
    pid_lt := fun x hx => h.pid_lt x ((hpalloc x).mp hx).2
    pid_inj := fun x y hx hy => h.pid_inj x y ((hpalloc x).mp hx).2 ((hpalloc y).mp hy).2
    ring := by
      refine h.ring.congr fun t => ?_
      simp only [Core.Runnable, PROC_free_process, Core.threads_freed, halloc]
      refine ⟨fun hr => ⟨⟨hr.1, fun hin => ?_⟩, hr.2⟩, fun hr => ⟨hr.1.1, hr.2⟩⟩
      have hs := hdead t hin
      rcases hr.2.2 with hs' | hs' <;> rw [hs] at hs' <;> cases hs'
    queue := fun q hq => h.queue q (hlive q hq)
    queue_place := fun q hq => h.queue_place q (hlive q hq)
    queue_state := by
      intro q hq t ht
      rcases h.queue_state q (hlive q hq) t ht with hs | ⟨hta, hs⟩
      · exact Or.inl hs
      · refine Or.inr ⟨(halloc t).mpr ⟨hta, fun hin => ?_⟩, hs⟩
        rw [hdead t hin] at hs
        cases hs
    queue_allocated := by
      intro q hq hk t ht
      refine (halloc t).mpr ⟨h.queue_allocated q (hlive q hq) hk t ht, fun hin => ?_⟩
      by_cases hkbd : q = .kbd_wait_queue
      · subst hkbd
        exact htidy (hk.resolve_left fun hne => hne rfl) t hin ht
      · exact hgone q hq hkbd t ht hin
    queue_dead := fun q hq t ht hta => h.queue_dead q (hlive q hq) t ht ((halloc t).mp hta).1
    queue_since := fun q hq => h.queue_since q (hlive q hq)
    queue_clock := fun q hq => h.queue_clock q (hlive q hq)
    blocked := by
      intro t ht hb
      obtain ⟨hta, htn⟩ := (halloc t).mp ht
      obtain ⟨q, hq, hin⟩ := h.blocked t hta hb
      refine ⟨q, ?_, hin⟩
      have hon : k.thread.owner t ≠ some child := fun ho => htn ((hts t).mpr ⟨hta, ho⟩)
      cases q with
      | kbd_wait_queue => trivial
      | wait_child_exit x =>
        refine (hpalloc x).mpr ⟨fun he => hon ?_, hq⟩
        exact he ▸ h.queue_owner hq (Or.inl rfl) hin
      | wait_thread_exit x =>
        refine (hpalloc x).mpr ⟨fun he => hon ?_, hq⟩
        exact he ▸ h.queue_owner hq (Or.inr rfl) hin
      | waiters m => exact hq
    threads := by
      intro x hx
      obtain ⟨hxc, hxa⟩ := (hpalloc x).mp hx
      obtain ⟨lx, hcx, hmx, hlx⟩ := h.threads x hxa
      refine ⟨lx, hcx, fun t => ?_, hlx⟩
      simp only [hmx, PROC_free_process, Core.threads_freed, halloc]
      refine ⟨fun ht => ⟨⟨ht.1, fun hin => ?_⟩, ht.2⟩, fun ht => ⟨ht.1.1, ht.2⟩⟩
      have ho := ((hts t).mp hin).2
      rw [ht.2] at ho
      exact hxc (Option.some.inj ho)
    threads_any := by
      intro x hx _
      obtain ⟨hxc, hxa⟩ := (hpalloc x).mp hx
      obtain ⟨t, hta, hto⟩ := h.threads_any x hxa (Option.some_ne_none x)
      refine ⟨t, (halloc t).mpr ⟨hta, fun hin => ?_⟩, hto⟩
      have ho := ((hts t).mp hin).2
      rw [hto] at ho
      exact hxc (Option.some.inj ho)
    children := by
      intro x hx
      obtain ⟨hxc, hxa⟩ := (hpalloc x).mp hx
      simp only [PROC_free_process, Core.threads_freed, hpalloc]
      by_cases hxp : x = p
      · subst hxp
        refine ⟨s ++ r, hc.cut, fun c => ?_⟩
        rw [hc.mem_cut, hm]
        by_cases hcc : c = child
        · simp [hcc]
        · simp [hcc]
      · obtain ⟨lx, hcx, hmx⟩ := h.children x hxa
        have hdis : ∀ y ∈ s ++ child :: r, y ∉ lx := by
          intro y hy hy'
          have h1 := ((hm y).mp hy).2.2
          rw [((hmx y).mp hy').2.2] at h1
          exact hxp (Option.some.inj h1)
        refine ⟨lx, hcx.cut_other hxp hdis, fun c => ?_⟩
        by_cases hcc : c = child
        · subst hcc
          simp [hdis c hcl]
        · simp [hmx, hcc]
    parent := by
      intro c hc' hck'
      obtain ⟨hcc, hca'⟩ := (hpalloc c).mp hc'
      obtain ⟨o, ho, hoa, hoz, hlt⟩ := h.parent c hca' hck'
      exact ⟨o, (Function.update_of_ne hcc _ _).trans ho, (hpalloc o).mpr ⟨hnz o hoz, hoa⟩, hoz, hlt⟩
    exiting := fun x hx hxe t ht =>
      h.exiting x ((hpalloc x).mp hx).2 hxe t ((halloc t).mp ht).1
    zombie := fun x hx => h.zombie x ((hpalloc x).mp hx).2
    zombie_exiting := fun x hx => h.zombie_exiting x ((hpalloc x).mp hx).2
    mutex_owner := by
      intro m hm'
      obtain ⟨o, ho, hoa, hoz⟩ := h.mutex_owner m hm'
      have hoz := hoz.resolve_right (Option.some_ne_none o)
      exact ⟨o, ho, (hpalloc o).mpr ⟨hnz o hoz, hoa⟩, Or.inl hoz⟩ }

end JamsOs
