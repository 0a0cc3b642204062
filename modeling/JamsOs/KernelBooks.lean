-- The books of the kernel: what the records, the run ring, the queues and the lists say about
-- each other. Each kind of change to them keeps the books.
import JamsOs.KernelLists

namespace JamsOs

open Linked

/-! ## Where threads wait -/

/-- The queue for a call of a thread of `owner`. -/
def Call.queue (owner : Ptr) : Call → Option QueueRef
  | .wait _ => owner.map .wait_child_exit
  | .join _ _ => owner.map .wait_thread_exit
  | .lock _ mutex => some (.waiters mutex)
  | .getc => some .kbd_wait_queue

/-- The call that goes on at this place after the thread was woken. -/
def Window.call : Window → Option Call
  | .wait_find status => some (.wait status)
  | .join_find tid status => some (.join tid status)
  | .lock id mutex => some (.lock id mutex)
  | .getc => some .getc
  | _ => none

def Pc.call : Pc → Option Call
  | .yield call => some call
  | .window w => w.call
  | _ => none

@[simp] theorem Call.resume_call (call : Call) : call.resume.call = some call := by
  cases call <;> rfl

/-- The queue that a thread at its place may be on. -/
def Core.place (c : Core) (t : Nat) : Option QueueRef :=
  (c.thread.pc t).call.bind (Call.queue (c.thread.owner t))

/-- The queue belongs to a record that is in use. -/
def Core.LiveQueue (c : Core) : QueueRef → Prop
  | .kbd_wait_queue => True
  | .wait_child_exit p => c.process.allocated p
  | .wait_thread_exit p => c.process.allocated p
  | .waiters m => c.mutex.allocated m

/-- The threads that belong in the run ring. The idle thread never does. -/
def Core.Runnable (c : Core) (t : Nat) : Prop :=
  c.thread.allocated t ∧ t ≠ main_thread ∧
    (c.thread.run_state t = .ready ∨ c.thread.run_state t = .running)

/-! ## The books -/

/-- What holds of the kernel when the queues hold the threads `Q`. The process `dying` is one that is
not yet torn down after its last thread has ended, or that has no thread yet. With `tidy`, no queue
holds a thread that was freed. -/
structure Books (tidy : Prop) (k : Kernel) (Q : QueueRef → List Nat) (dying : Ptr) : Prop where
  main_allocated : k.thread.allocated main_thread
  main_owner : k.thread.owner main_thread = some kernel_process
  main_state : k.thread.run_state main_thread = .ready ∨ k.thread.run_state main_thread = .running
  kernel_allocated : k.process.allocated kernel_process
  kernel_pid : k.process.pid kernel_process = 0
  kernel_zombie : k.process.zombie kernel_process = false
  owner : ∀ t, k.thread.allocated t → ∃ p, k.thread.owner t = some p ∧ k.process.allocated p
  tid_lt : ∀ t, k.thread.allocated t → k.thread.tid t < k.next_tid
  tid_inj : ∀ t u, k.thread.allocated t → k.thread.allocated u →
    k.thread.tid t = k.thread.tid u → t = u
  pid_lt : ∀ p, k.process.allocated p → k.process.pid p < k.next_pid
  pid_inj : ∀ p q, k.process.allocated p → k.process.allocated q →
    k.process.pid p = k.process.pid q → p = q
  ring : RingOf k.links.ring k.Runnable
  queue : ∀ q, k.LiveQueue q → QueueAt k.links.queues q (Q q)
  queue_place : ∀ q, k.LiveQueue q → ∀ t ∈ Q q, k.place t = some q
  queue_state : ∀ q, k.LiveQueue q → ∀ t ∈ Q q, k.thread.run_state t = .zombie ∨
    k.thread.allocated t ∧ k.thread.run_state t = .blocked
  queue_allocated : ∀ q, k.LiveQueue q → q ≠ .kbd_wait_queue ∨ tidy → ∀ t ∈ Q q, k.thread.allocated t
  queue_dead : ∀ q, k.LiveQueue q → ∀ t ∈ Q q, k.thread.allocated t →
    k.thread.run_state t = .zombie → ∃ p, k.thread.owner t = some p ∧ k.process.exiting p
  queue_since : ∀ q, k.LiveQueue q → (Q q).Pairwise (k.since · < k.since ·)
  queue_clock : ∀ q, k.LiveQueue q → ∀ t ∈ Q q, k.since t < k.clock
  blocked : ∀ t, k.thread.allocated t → k.thread.run_state t = .blocked →
    ∃ q, k.LiveQueue q ∧ t ∈ Q q
  threads : ∀ p, k.process.allocated p → ∃ l,
    Chain some none k.links.next_thread (k.links.threads p) l ∧
    (∀ t, t ∈ l ↔ k.thread.allocated t ∧ k.thread.owner t = some p) ∧
    k.process.live_threads p = l.countP (fun t => k.thread.run_state t ≠ .zombie)
  threads_any : ∀ p, k.process.allocated p → some p ≠ dying →
    ∃ t, k.thread.allocated t ∧ k.thread.owner t = some p
  children : ∀ p, k.process.allocated p → ∃ l,
    Chain some none k.links.next_sibling (k.links.first_child p) l ∧
    ∀ c, c ∈ l ↔ k.process.allocated c ∧ c ≠ kernel_process ∧ k.process.parent c = some p
  parent : ∀ c, k.process.allocated c → c ≠ kernel_process → ∃ p, k.process.parent c = some p ∧
    k.process.allocated p ∧ k.process.zombie p = false ∧ k.process.pid p < k.process.pid c
  exiting : ∀ p, k.process.allocated p → k.process.exiting p → ∀ t, k.thread.allocated t →
    k.thread.owner t = some p → k.thread.run_state t = .zombie
  zombie : ∀ p, k.process.allocated p → some p ≠ dying →
    (k.process.zombie p ↔ k.process.live_threads p = 0)
  zombie_exiting : ∀ p, k.process.allocated p → k.process.zombie p → k.process.exiting p
  mutex_nodup : k.mutex.list.Nodup
  mutex_allocated : ∀ m ∈ k.mutex.list, k.mutex.allocated m
  mutex_listed : dying = none → ∀ m, k.mutex.allocated m → m ∈ k.mutex.list
  mutex_owner : ∀ m, k.mutex.allocated m → ∃ p, k.mutex.owner_process m = some p ∧
    k.process.allocated p ∧ (k.process.zombie p = false ∨ some p = dying)
  mutex_waiters : ∀ m, k.mutex.allocated m → ∀ t ∈ Q (.waiters m),
    k.thread.owner t = k.mutex.owner_process m

variable {tidy : Prop} {k : Kernel} {Q : QueueRef → List Nat} {dying : Ptr} {t p : Nat}
  {q : QueueRef}

/-! ### First consequences -/

theorem Books.queue_unique (h : Books tidy k Q dying) {q q' : QueueRef} (hq : k.LiveQueue q)
    (hq' : k.LiveQueue q') (ht : t ∈ Q q) (ht' : t ∈ Q q') : q = q' := by
  have h1 := h.queue_place q hq t ht
  rw [h.queue_place q' hq' t ht'] at h1
  exact (Option.some.inj h1).symm

/-- The queues of a process hold its own threads. -/
theorem Books.queue_owner (h : Books tidy k Q dying) (hq : k.LiveQueue q)
    (hp : q = .wait_child_exit p ∨ q = .wait_thread_exit p) (ht : t ∈ Q q) :
    k.thread.owner t = some p := by
  have hplace := h.queue_place q hq t ht
  simp only [Core.place, Option.bind_eq_some_iff] at hplace
  obtain ⟨call, _, hcall⟩ := hplace
  rcases hp with rfl | rfl <;> cases call <;> simp [Call.queue] at hcall <;> exact hcall

/-- A thread that can run is on no queue. -/
theorem Books.notMem_queue (h : Books tidy k Q dying) (hq : k.LiveQueue q)
    (hz : k.thread.run_state t ≠ .zombie) (hb : k.thread.run_state t ≠ .blocked) : t ∉ Q q := by
  intro ht
  rcases h.queue_state q hq t ht with hs | ⟨_, hs⟩
  · exact hz hs
  · exact hb hs

/-- A record that is not in use is at most on the keyboard queue. -/
theorem Books.notMem_of_free (h : Books tidy k Q dying) (hq : k.LiveQueue q)
    (ht : ¬k.thread.allocated t) (hk : t ∉ Q .kbd_wait_queue) : t ∉ Q q := by
  intro hin
  by_cases hkbd : q = .kbd_wait_queue
  · exact hk (hkbd ▸ hin)
  · exact ht (h.queue_allocated q hq (Or.inl hkbd) t hin)

theorem Books.zombie_threads (h : Books tidy k Q dying) (hp : k.process.allocated p)
    (hz : k.process.zombie p) (ht : k.thread.allocated t) (ho : k.thread.owner t = some p) :
    k.thread.run_state t = .zombie :=
  h.exiting p hp (h.zombie_exiting p hp hz) t ht ho

/-- What `PROC_unblock_one` tests comes down to the thread itself. -/
theorem Books.may_wake_iff (h : Books tidy k Q dying) (hq : k.LiveQueue q) (ht : t ∈ Q q) :
    k.may_wake t = true ↔ k.thread.run_state t = .blocked := by
  unfold Core.may_wake
  rcases h.queue_state q hq t ht with hs | ⟨ha, hs⟩
  · simp [hs]
  · obtain ⟨p, hp, hpa⟩ := h.owner t ha
    have hex : k.process.exiting p = false := by
      by_contra hex
      rw [Bool.not_eq_false] at hex
      rw [h.exiting p hpa hex t ha hp] at hs
      cases hs
    simp [hs, hp, hex]

theorem started_books (kernel_p4 : Word) : Books tidy (started kernel_p4) (fun _ => []) none where
  main_allocated := rfl
  main_owner := rfl
  main_state := Or.inr rfl
  kernel_allocated := rfl
  kernel_pid := rfl
  kernel_zombie := rfl
  owner t _ := ⟨kernel_process, rfl, rfl⟩
  tid_lt _ _ := Nat.zero_lt_two
  tid_inj t u ht hu _ := (of_decide_eq_true ht).trans (of_decide_eq_true hu).symm
  pid_lt _ _ := Nat.one_pos
  pid_inj t u ht hu _ := (of_decide_eq_true ht).trans (of_decide_eq_true hu).symm
  ring := ringOf_empty fun t ht => ht.2.1 (of_decide_eq_true ht.1)
  queue q _ := queueAt_nil rfl
  queue_place _ _ := nofun
  queue_state _ _ := nofun
  queue_allocated _ _ _ := nofun
  queue_dead _ _ := nofun
  queue_since _ _ := List.Pairwise.nil
  queue_clock _ _ := nofun
  blocked t _ hb := nomatch hb
  threads p hp := by
    obtain rfl := of_decide_eq_true hp
    refine ⟨[main_thread], chain_cons_iff.mpr ⟨rfl, .nil⟩, fun t => ?_, rfl⟩
    simp [started]
  threads_any p hp _ := by
    obtain rfl := of_decide_eq_true hp
    exact ⟨main_thread, rfl, rfl⟩
  children p _ := ⟨[], .nil, fun c => by simp [started]⟩
  parent c hc hne := absurd (of_decide_eq_true hc) hne
  exiting _ _ h := nomatch h
  zombie _ _ _ := by simp [started]
  zombie_exiting _ _ h := nomatch h
  mutex_nodup := List.nodup_nil
  mutex_allocated := nofun
  mutex_listed _ _ h := nomatch h
  mutex_owner _ h := nomatch h
  mutex_waiters _ h := nomatch h

/-! ## Changes that keep the books -/

section

variable (h : Books tidy k Q dying)

include h

/-- A thread that is on no queue goes to another place in the code. -/
theorem Books.set_pc (ht : ∀ q, k.LiveQueue q → t ∉ Q q) (pc : Pc) :
    Books tidy { k with toCore := k.set_pc t pc } Q dying :=
  { h with
    queue_place := by
      intro q hq x hx
      have hne : x ≠ t := fun he => ht q hq (he ▸ hx)
      rw [← h.queue_place q hq x hx]
      simp only [Core.place, Core.set_pc, Function.update_of_ne hne] }

theorem Books.isr_return :
    Books tidy { k with toCore := isr_return k.toCore } Q dying := by
  unfold JamsOs.isr_return
  split
  · exact h
  · split
    · exact h
    · exact { h with }

/-- A call returns in a thread that is on no queue. -/
theorem Books.ret (ht : ∀ q, k.LiveQueue q → t ∉ Q q) (call : Syscall) (value : Int)
    (status : Option Int) : Books tidy (k.ret t call value status) Q dying := by
  have h' := h.set_pc ht .user
  exact (({ h' with } : Books tidy { k with toCore := { k.set_pc t .user with
    returns := ⟨k.thread.tid t, call, value, status⟩ :: k.returns } } Q dying)).isr_return

/-- Threads that can run change between ready and running. -/
theorem Books.reassign {run_state : Nat → RunState}
    (hs : ∀ t, run_state t = k.thread.run_state t ∨
      (k.thread.run_state t = .ready ∨ k.thread.run_state t = .running) ∧
      (run_state t = .ready ∨ run_state t = .running)) :
    Books tidy { k with thread.run_state := run_state } Q dying := by
  have hrun : ∀ t, (run_state t = .ready ∨ run_state t = .running) ↔
      (k.thread.run_state t = .ready ∨ k.thread.run_state t = .running) := by
    intro t
    rcases hs t with he | ⟨h1, h2⟩
    · rw [he]
    · exact iff_of_true h2 h1
  have hzombie : ∀ t, run_state t = .zombie ↔ k.thread.run_state t = .zombie := by
    intro t
    rcases hs t with he | ⟨h1, h2⟩
    · rw [he]
    · rcases h1 with h1 | h1 <;> rcases h2 with h2 | h2 <;> simp [h1, h2]
  have hblocked : ∀ t, run_state t = .blocked ↔ k.thread.run_state t = .blocked := by
    intro t
    rcases hs t with he | ⟨h1, h2⟩
    · rw [he]
    · rcases h1 with h1 | h1 <;> rcases h2 with h2 | h2 <;> simp [h1, h2]
  exact { h with
    main_state := (hrun _).mpr h.main_state
    ring := h.ring.congr fun t => by simp only [Core.Runnable, hrun]
    queue_state := by
      intro q hq t ht
      simp only [hzombie, hblocked]
      exact h.queue_state q hq t ht
    queue_dead := by
      intro q hq t ht
      simp only [hzombie]
      exact h.queue_dead q hq t ht
    blocked := by
      intro t
      simp only [hblocked]
      exact h.blocked t
    threads := by
      intro p hp
      obtain ⟨l, hc, hm, hl⟩ := h.threads p hp
      refine ⟨l, hc, hm, hl.trans ?_⟩
      simp only [ne_eq, hzombie]
    exiting := by
      intro p hp hex t
      simp only [hzombie]
      exact h.exiting p hp hex t }

/-- The head leaves a queue. The other queues stay. -/
theorem Books.dequeue_head (hq : k.LiveQueue q) {l : List Nat} (hQ : Q q = t :: l) :
    ∃ queues, dequeue q k.links.queues = (some t, queues) ∧
      (∀ q', k.LiveQueue q' → QueueAt queues q' (Function.update Q q l q')) ∧
      (∀ q' x, x ∈ Function.update Q q l q' → x ∈ Q q') ∧
      (∀ q', k.LiveQueue q' → (Function.update Q q l q').Pairwise (k.since · < k.since ·)) ∧
      (∀ q' x, x ≠ t → x ∈ Q q' → x ∈ Function.update Q q l q') ∧
      (∀ q', k.LiveQueue q' → t ∉ Function.update Q q l q') := by
  have hqt := h.queue q hq
  rw [hQ] at hqt
  have hin : t ∈ Q q := by simp [hQ]
  obtain ⟨queues, hrun, hthis, hother⟩ := dequeue.spec hqt
  refine ⟨queues, hrun, ?_, ?_, ?_, ?_, ?_⟩ <;> intro q'
  all_goals by_cases he : q' = q
  all_goals first
    | (subst he; simp only [Function.update_self])
    | simp only [Function.update_of_ne he]
  · exact fun _ => hthis
  · intro hq'
    exact hother q' _ he (fun ht' => he (h.queue_unique hq' hq ht' hin)) (h.queue q' hq')
  · rw [hQ]
    exact fun x hx => List.mem_cons_of_mem _ hx
  · exact fun x hx => hx
  · intro hq'
    have hp := h.queue_since q' hq'
    rw [hQ] at hp
    exact (List.pairwise_cons.mp hp).2
  · exact h.queue_since q'
  · rw [hQ]
    exact fun x hne hx => (List.mem_cons.mp hx).resolve_left hne
  · exact fun x _ hx => hx
  · exact fun _ => (List.nodup_cons.mp hqt.chain.nodup).1
  · exact fun hq' ht' => he (h.queue_unique hq' hq ht' hin)

/-- A dead thread leaves the head of its queue. -/
theorem Books.drop_head (hq : k.LiveQueue q) {l : List Nat} (hQ : Q q = t :: l)
    (hz : k.thread.run_state t = .zombie) :
    ∃ queues, dequeue q k.links.queues = (some t, queues) ∧
      Books tidy { k with links.queues := queues } (Function.update Q q l) dying := by
  obtain ⟨queues, hrun, hat, hsub, hsince, hkeep, _⟩ := h.dequeue_head hq hQ
  exact ⟨queues, hrun, { h with
    queue := hat
    queue_place := fun q' hq' x hx => h.queue_place q' hq' x (hsub q' x hx)
    queue_state := fun q' hq' x hx => h.queue_state q' hq' x (hsub q' x hx)
    queue_allocated := fun q' hq' hk x hx => h.queue_allocated q' hq' hk x (hsub q' x hx)
    queue_dead := fun q' hq' x hx => h.queue_dead q' hq' x (hsub q' x hx)
    queue_since := hsince
    queue_clock := fun q' hq' x hx => h.queue_clock q' hq' x (hsub q' x hx)
    blocked := by
      intro x hx hb
      obtain ⟨q', hq', hin⟩ := h.blocked x hx hb
      refine ⟨q', hq', hkeep q' x ?_ hin⟩
      rintro rfl
      rw [hz] at hb
      cases hb
    mutex_waiters := fun m hm x hx => h.mutex_waiters m hm x (hsub _ x hx) }⟩

end

/-- The count of the threads that are not dead does not change when none dies or comes to life. -/
theorem countP_alive_congr {l : List Nat} {rs rs' : Nat → RunState}
    (h : ∀ t, rs' t = .zombie ↔ rs t = .zombie) :
    l.countP (fun t => rs' t ≠ .zombie) = l.countP (fun t => rs t ≠ .zombie) := by
  simp only [ne_eq, h]

/-- A blocked thread leaves the head of its queue, and is ready. -/
theorem Books.wake_head (h : Books tidy k Q dying) (hq : k.LiveQueue q) {l : List Nat}
    (hQ : Q q = t :: l) (hb : k.thread.run_state t = .blocked) :
    ∃ queues ring, dequeue q k.links.queues = (some t, queues) ∧
      rr_admit t k.links.ring = some ring ∧
      Books tidy { k with
        toCore := k.set_run_state t .ready
        links := { k.links with queues := queues, ring := ring } } (Function.update Q q l) dying := by
  have hin : t ∈ Q q := by simp [hQ]
  have ha : k.thread.allocated t := by
    rcases h.queue_state q hq t hin with hz | ⟨ha, _⟩
    · rw [hb] at hz
      cases hz
    · exact ha
  have hmain : t ≠ main_thread := by
    rintro rfl
    rcases h.main_state with hs | hs <;> rw [hb] at hs <;> cases hs
  obtain ⟨ring, henter, hring⟩ := h.ring.enter (t := t) (by simp [Core.Runnable, hb])
  obtain ⟨queues, hrun, hat, hsub, hsince, hkeep, hnot⟩ := h.dequeue_head hq hQ
  have hne : ∀ q', k.LiveQueue q' → ∀ x ∈ Function.update Q q l q', x ≠ t :=
    fun q' hq' x hx he => hnot q' hq' (he ▸ hx)
  have hzombie : ∀ x, Function.update k.thread.run_state t .ready x = .zombie ↔
      k.thread.run_state x = .zombie := by
    intro x
    by_cases hx : x = t
    · subst hx
      simp [hb]
    · rw [Function.update_of_ne hx]
  refine ⟨queues, ring, hrun, henter, { h with
    main_state := ?_
    ring := hring.congr fun x => ?_
    queue := hat
    queue_place := fun q' hq' x hx => h.queue_place q' hq' x (hsub q' x hx)
    queue_state := ?_
    queue_allocated := fun q' hq' hk x hx => h.queue_allocated q' hq' hk x (hsub q' x hx)
    queue_dead := ?_
    queue_since := hsince
    queue_clock := fun q' hq' x hx => h.queue_clock q' hq' x (hsub q' x hx)
    blocked := ?_
    threads := ?_
    exiting := ?_
    mutex_waiters := fun m hm x hx => h.mutex_waiters m hm x (hsub _ x hx) }⟩
  · simp only [Core.set_run_state, Function.update_of_ne (Ne.symm hmain)]
    exact h.main_state
  · simp only [Core.Runnable, Core.set_run_state]
    by_cases hx : x = t
    · subst hx
      simp [ha, hmain]
    · simp [hx]
  · intro q' hq' x hx
    simp only [Core.set_run_state, Function.update_of_ne (hne q' hq' x hx)]
    exact h.queue_state q' hq' x (hsub q' x hx)
  · intro q' hq' x hx
    simp only [Core.set_run_state, Function.update_of_ne (hne q' hq' x hx)]
    exact h.queue_dead q' hq' x (hsub q' x hx)
  · intro x hx hbx
    have hxt : x ≠ t := by
      rintro rfl
      simp [Core.set_run_state] at hbx
    simp only [Core.set_run_state, Function.update_of_ne hxt] at hbx
    obtain ⟨q', hq', hin'⟩ := h.blocked x hx hbx
    exact ⟨q', hq', hkeep q' x hxt hin'⟩
  · intro p hp
    obtain ⟨l, hc, hm, hl⟩ := h.threads p hp
    exact ⟨l, hc, hm, hl.trans (countP_alive_congr hzombie).symm⟩
  · intro p hp hex x hx ho
    exact (hzombie x).mpr (h.exiting p hp hex x hx ho)

/-- A running thread goes on a queue. -/
theorem Books.block (h : Books tidy k Q dying) (hq : k.LiveQueue q) (ha : k.thread.allocated t)
    (hmain : t ≠ main_thread) (hrun : k.thread.run_state t = .running) {call : Call}
    (hcall : call.queue (k.thread.owner t) = some q)
    (hm : ∀ m, q = .waiters m → k.thread.owner t = k.mutex.owner_process m) :
    ∃ k', PROC_block_on q call t k = some k' ∧
      k'.toCore = { k.set_run_state t .blocked with
        thread.pc := Function.update k.thread.pc t (.yield call)
        since := Function.update k.since t k.clock
        clock := k.clock + 1 } ∧
      Books tidy k' (Function.update Q q (Q q ++ [t])) dying := by
  have hfree : ∀ q', k.LiveQueue q' → t ∉ Q q' := fun q' hq' =>
    h.notMem_queue hq' (by simp [hrun]) (by simp [hrun])
  obtain ⟨ring, hremove, hring⟩ := h.ring.remove (t := t) ⟨ha, hmain, Or.inr hrun⟩
  obtain ⟨queues, henq, hthis, hother⟩ := enqueue.spec (h.queue q hq) (hfree q hq)
  refine ⟨_, by simp only [PROC_block_on, PROC_remove, hremove, Option.map_some, henq,
    Option.bind_eq_bind, Option.bind_some]; rfl, rfl, ?_⟩
  have hmem : ∀ q' x, x ∈ Function.update Q q (Q q ++ [t]) q' → x ∈ Q q' ∨ q' = q ∧ x = t := by
    intro q' x hx
    by_cases he : q' = q
    · subst he
      rw [Function.update_self, List.mem_append, List.mem_singleton] at hx
      exact hx.imp_right fun hx => ⟨rfl, hx⟩
    · rw [Function.update_of_ne he] at hx
      exact Or.inl hx
  have hne : ∀ q', k.LiveQueue q' → ∀ x ∈ Q q', x ≠ t := fun q' hq' x hx he => hfree q' hq' (he ▸ hx)
  have hzombie : ∀ x, Function.update k.thread.run_state t .blocked x = .zombie ↔
      k.thread.run_state x = .zombie := by
    intro x
    by_cases hx : x = t
    · subst hx
      simp [hrun]
    · rw [Function.update_of_ne hx]
  exact { h with
    main_state := by
      simp only [Core.set_run_state, Function.update_of_ne (Ne.symm hmain)]
      exact h.main_state
    ring := by
      refine hring.congr fun x => ?_
      simp only [Core.Runnable, Core.set_run_state]
      by_cases hx : x = t
      · subst hx
        simp
      · simp [hx]
    queue := by
      intro q' hq'
      by_cases he : q' = q
      · subst he
        rw [Function.update_self]
        exact hthis
      · rw [Function.update_of_ne he]
        refine hother q' _ he (hfree q' hq') (fun x hx hx' => ?_) (h.queue q' hq')
        exact he (h.queue_unique hq' hq hx' hx)
    queue_place := by
      intro q' hq' x hx
      rcases hmem q' x hx with hx | ⟨rfl, rfl⟩
      · rw [← h.queue_place q' hq' x hx]
        simp only [Core.place, Core.set_run_state, Function.update_of_ne (hne q' hq' x hx)]
      · simp [Core.place, Core.set_run_state, Pc.call, hcall]
    queue_state := by
      intro q' hq' x hx
      simp only [Core.set_run_state]
      rcases hmem q' x hx with hx | ⟨rfl, rfl⟩
      · rw [Function.update_of_ne (hne q' hq' x hx)]
        exact h.queue_state q' hq' x hx
      · rw [Function.update_self]
        exact Or.inr ⟨ha, rfl⟩
    queue_allocated := by
      intro q' hq' hk x hx
      rcases hmem q' x hx with hx | ⟨rfl, rfl⟩
      · exact h.queue_allocated q' hq' hk x hx
      · exact ha
    queue_dead := by
      intro q' hq' x hx hxa hxz
      have hxz' : k.thread.run_state x = .zombie := (hzombie x).mp hxz
      rcases hmem q' x hx with hx | ⟨rfl, rfl⟩
      · exact h.queue_dead q' hq' x hx hxa hxz'
      · rw [hrun] at hxz'
        cases hxz'
    queue_since := by
      intro q' hq'
      have hold : (Q q').Pairwise
          (Function.update k.since t k.clock · < Function.update k.since t k.clock ·) := by
        refine (h.queue_since q' hq').imp_of_mem fun {x y} hx hy hxy => ?_
        rw [Function.update_of_ne (hne q' hq' x hx), Function.update_of_ne (hne q' hq' y hy)]
        exact hxy
      by_cases he : q' = q
      · subst he
        simp only [Function.update_self]
        refine List.pairwise_append.mpr ⟨hold, List.pairwise_singleton _ _, fun x hx y hy => ?_⟩
        rw [List.mem_singleton.mp hy, Function.update_self, Function.update_of_ne (hne q' hq' x hx)]
        exact h.queue_clock q' hq' x hx
      · simp only [Function.update_of_ne he]
        exact hold
    queue_clock := by
      intro q' hq' x hx
      rcases hmem q' x hx with hx | ⟨rfl, rfl⟩
      · simp only [Function.update_of_ne (hne q' hq' x hx)]
        exact Nat.lt_succ_of_lt (h.queue_clock q' hq' x hx)
      · simp only [Function.update_self]
        exact Nat.lt_succ_self _
    blocked := by
      intro x hx hb
      by_cases hxt : x = t
      · subst hxt
        exact ⟨q, hq, by simp⟩
      · simp only [Core.set_run_state, Function.update_of_ne hxt] at hb
        obtain ⟨q', hq', hin⟩ := h.blocked x hx hb
        refine ⟨q', hq', ?_⟩
        by_cases he : q' = q
        · subst he
          simp [hin]
        · rwa [Function.update_of_ne he]
    threads := by
      intro p hp
      obtain ⟨l, hc, hm, hl⟩ := h.threads p hp
      exact ⟨l, hc, hm, hl.trans (countP_alive_congr hzombie).symm⟩
    exiting := by
      intro p hp hex x hx ho
      exact (hzombie x).mpr (h.exiting p hp hex x hx ho)
    mutex_waiters := by
      intro m hmem' x hx
      rcases hmem _ x hx with hx | ⟨he, rfl⟩
      · exact h.mutex_waiters m hmem' x hx
      · exact hm m he.symm }

/-- A process whose threads were being stopped is in order again: it is a zombie exactly if it has no
live threads, and then it has no mutexes. -/
theorem Books.close (h : Books tidy k Q (some p))
    (hz : k.process.zombie p = true ↔ k.process.live_threads p = 0)
    (hany : ∃ t, k.thread.allocated t ∧ k.thread.owner t = some p)
    (hlisted : ∀ m, k.mutex.allocated m → m ∈ k.mutex.list)
    (hm : ∀ m, k.mutex.allocated m → k.mutex.owner_process m = some p → k.process.zombie p = false) :
    Books tidy k Q none :=
  { h with
    threads_any := by
      intro x hx _
      by_cases he : x = p
      · exact he ▸ hany
      · exact h.threads_any x hx fun hs => he (Option.some.inj hs)
    zombie := by
      intro x hx _
      by_cases he : x = p
      · exact he ▸ hz
      · exact h.zombie x hx fun hs => he (Option.some.inj hs)
    mutex_listed := fun _ => hlisted
    mutex_owner := by
      intro m hma
      obtain ⟨o, ho, hoa, hoz⟩ := h.mutex_owner m hma
      refine ⟨o, ho, hoa, Or.inl ?_⟩
      rcases hoz with hoz | hoz
      · exact hoz
      · rw [Option.some.inj hoz]
        exact hm m hma (ho.trans hoz) }

/-! ## Waking -/

/-- The state after `PROC_unblock_one` has woken a thread, or found none. -/
def Core.woken (r : Ptr) (c : Core) : Core :=
  match r with
  | none => c
  | some t => c.set_run_state t .ready

/-- `PROC_unblock_one` drops the dead threads at the head of the queue, and wakes the first that is
alive. -/
theorem PROC_unblock_one.spec {fuel : Nat} {r : Ptr} {k' : Kernel} (h : Books tidy k Q dying)
    (hq : k.LiveQueue q) (hrun : PROC_unblock_one q fuel k = some (r, k')) :
    ∃ dead rest, Q q = dead ++ r.toList ++ rest ∧
      (∀ x ∈ dead, k.thread.run_state x = .zombie) ∧ (r = none → rest = []) ∧
      (∀ t, r = some t → k.thread.run_state t = .blocked) ∧ k'.toCore = k.woken r ∧
      Books tidy k' (Function.update Q q rest) dying := by
  obtain ⟨l, hQ⟩ : ∃ l, Q q = l := ⟨_, rfl⟩
  induction l generalizing k Q fuel with
  | nil =>
    have hqt := h.queue q hq
    rw [hQ] at hqt
    unfold PROC_unblock_one at hrun
    simp only [dequeue.of_nil hqt] at hrun
    cases hrun
    refine ⟨[], [], hQ, nofun, fun _ => rfl, nofun, rfl, ?_⟩
    rwa [← hQ, Function.update_eq_self]
  | cons t l ih =>
    have hin : t ∈ Q q := by simp [hQ]
    have hwake := h.may_wake_iff hq hin
    unfold PROC_unblock_one at hrun
    rcases h.queue_state q hq t hin with hz | ⟨_, hb⟩
    · obtain ⟨queues, hdeq, hbooks⟩ := h.drop_head hq hQ hz
      have hno : ¬k.may_wake t = true := by simp [hwake, hz]
      simp only [hdeq] at hrun
      rw [if_neg hno] at hrun
      cases fuel with
      | zero => cases hrun
      | succ fuel =>
        obtain ⟨dead, rest, hsplit, hdead, hnone, hsome, hcore, hbooks'⟩ :=
          ih hbooks hq hrun (Function.update_self _ _ _)
        rw [Function.update_self] at hsplit
        rw [Function.update_idem] at hbooks'
        refine ⟨t :: dead, rest, by rw [hQ, hsplit]; rfl, ?_, hnone, hsome, hcore, hbooks'⟩
        intro x hx
        rcases List.mem_cons.mp hx with rfl | hx
        · exact hz
        · exact hdead x hx
    · obtain ⟨queues, ring, hdeq, henter, hbooks⟩ := h.wake_head hq hQ hb
      simp only [hdeq] at hrun
      rw [if_pos (hwake.mpr hb)] at hrun
      simp only [ PROC_admit, henter, Option.map_some, Option.some.injEq, Prod.mk.injEq] at hrun
      obtain ⟨rfl, rfl⟩ := hrun
      refine ⟨[], l, hQ, nofun, nofun, fun x hx => ?_, rfl, hbooks⟩
      cases hx
      exact hb

/-- The state after all blocked threads of `l` were woken. -/
def Core.all_woken (l : List Nat) (c : Core) : Core :=
  { c with thread.run_state := fun t =>
      if t ∈ l ∧ c.thread.run_state t = .blocked then .ready else c.thread.run_state t }

theorem Core.all_woken_nil (c : Core) : c.all_woken [] = c := by
  simp [Core.all_woken]

/-- Waking one and then the rest is waking all. -/
theorem Core.woken_all_woken {c : Core} {dead rest : List Nat} {r : Ptr}
    (hdead : ∀ x ∈ dead, c.thread.run_state x = .zombie)
    (hr : ∀ t, r = some t → c.thread.run_state t = .blocked ∧ t ∉ rest) :
    (c.woken r).all_woken rest = c.all_woken (dead ++ r.toList ++ rest) := by
  have hd : ∀ x ∈ dead, c.thread.run_state x ≠ .blocked := fun x hx => by simp [hdead x hx]
  cases r with
  | none =>
    simp only [Core.woken, Core.all_woken, Option.toList_none, List.append_nil, List.mem_append]
    grind
  | some t =>
    obtain ⟨hb, hnot⟩ := hr t rfl
    simp only [Core.woken, Core.all_woken, Core.set_run_state, Option.toList_some, List.mem_append,
      List.mem_singleton, Function.update_apply]
    grind

/-- `PROC_unblock_all` empties the queue and wakes all threads on it that are alive. -/
theorem PROC_unblock_all.spec {fuel : Nat} {k' : Kernel} (h : Books tidy k Q dying)
    (hq : k.LiveQueue q) (hrun : PROC_unblock_all q fuel k = some k') :
    k'.toCore = k.all_woken (Q q) ∧ Books tidy k' (Function.update Q q []) dying := by
  induction fuel generalizing k Q with
  | zero =>
    unfold PROC_unblock_all at hrun
    rw [(h.queue q hq).head] at hrun
    cases hQ : Q q with
    | nil =>
      rw [hQ] at hrun
      cases hrun
      exact ⟨(Core.all_woken_nil _).symm, by rwa [← hQ, Function.update_eq_self]⟩
    | cons t l =>
      rw [hQ] at hrun
      cases hrun
  | succ fuel ih =>
    unfold PROC_unblock_all at hrun
    rw [(h.queue q hq).head] at hrun
    cases hQ : Q q with
    | nil =>
      rw [hQ] at hrun
      cases hrun
      exact ⟨(Core.all_woken_nil _).symm, by rwa [← hQ, Function.update_eq_self]⟩
    | cons t l =>
      rw [hQ] at hrun
      simp only [List.head?_cons, Option.bind_eq_bind, Option.bind_eq_some_iff] at hrun
      obtain ⟨⟨r, k1⟩, hone, hrest⟩ := hrun
      obtain ⟨dead, rest, hsplit, hdead, _, hsome, hcore, hbooks⟩ := PROC_unblock_one.spec h hq hone
      have hq1 : k1.LiveQueue q := by
        rw [hcore]
        cases r <;> exact hq
      obtain ⟨hcore', hbooks'⟩ := ih hbooks hq1 hrest
      rw [Function.update_self, hcore] at hcore'
      rw [Function.update_idem] at hbooks'
      refine ⟨?_, hbooks'⟩
      rw [hcore', Core.woken_all_woken hdead, ← hsplit, hQ]
      rintro x rfl
      refine ⟨hsome x rfl, fun hx => ?_⟩
      have hnd := (h.queue q hq).chain.nodup
      rw [hsplit] at hnd
      exact List.disjoint_of_nodup_append hnd (by simp) hx

end JamsOs
