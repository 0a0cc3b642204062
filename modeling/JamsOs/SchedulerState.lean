-- The laws of the scheduler state. Where a thread stands follows from its state, and no list of the
-- kernel holds a thread that was freed. Both need code that runs with interrupts on not to be
-- interrupted halfway, and the second needs that no zombie that is reaped still waits for a key.
import JamsOs.KernelRuns

namespace JamsOs

open Linked Runs

variable {tidy : Prop} {k : Kernel} {Q : QueueRef → List Nat} {fuel : Nat}

/-! ## States and lists -/

theorem Books.members (h : Books tidy k Q none) :
    IsRing k.links.ring k.links.ring.members ∧
      ∀ t, t ∈ k.links.ring.members ↔ k.Runnable t := by
  obtain ⟨a, b, hring, hm⟩ := h.ring
  rw [hring.members_eq]
  exact ⟨⟨a, b, hring, rfl⟩, hm⟩

/-- What the run ring, the queues and the states of the threads say about each other. -/
structure Scheduled (k : Kernel) : Prop where
  ring : IsRing k.links.ring k.links.ring.members
  once : k.links.ring.members.Nodup
  runnable : ∀ t, k.thread.allocated t → t ≠ main_thread →
    (t ∈ k.links.ring.members ↔
      k.thread.run_state t = .ready ∨ k.thread.run_state t = .running)
  blocked : ∃ Q : QueueRef → List Nat,
    (∀ q, k.LiveQueue q → QueueAt k.links.queues q (Q q) ∧ (Q q).Nodup) ∧
    ∀ t, k.thread.allocated t → k.thread.run_state t = .blocked →
      t ∉ k.links.ring.members ∧ ∃! q, k.LiveQueue q ∧ t ∈ Q q
  zombie : ∀ t, k.thread.allocated t → k.thread.run_state t = .zombie →
    t ∉ k.links.ring.members
  running : ∀ t u, k.thread.allocated t → k.thread.allocated u → k.thread.run_state t = .running →
    k.thread.run_state u = .running → t = u
  picks : ∀ curr, ∃ k', PROC_reschedule { k with curr_proc := curr } = some k' ∧
    ((∃ x ∈ k.links.ring.members, some x ≠ curr) →
      ∃ n ∈ k.links.ring.members, k'.next_proc = some n ∧ some n ≠ curr)

theorem Books.picks (h : Books tidy k Q none) (curr : Ptr) :
    ∃ k', PROC_reschedule { k with curr_proc := curr } = some k' ∧
      ((∃ x ∈ k.links.ring.members, some x ≠ curr) →
        ∃ n ∈ k.links.ring.members, k'.next_proc = some n ∧ some n ≠ curr) := by
  obtain ⟨candidate, ring, hpick, _, hcand⟩ := pick_candidate.spec h.ring curr
  refine ⟨_, by simp only [PROC_reschedule, hpick, Option.bind_eq_bind, Option.bind_some]; rfl, ?_⟩
  rintro ⟨x, hx, hne⟩
  have hx := (h.members.2 x).mp hx
  rcases hcand with ⟨_, hno⟩ | ⟨n, rfl, hn, hother⟩
  · exact absurd hx (hno x)
  · exact ⟨n, (h.members.2 n).mpr hn, rfl, hother ⟨x, hx, hne⟩⟩

theorem Books.scheduled (h : Books tidy k Q none) (hcpu : Cpu k.toCore) : Scheduled k where
  ring := h.members.1
  once := by
    obtain ⟨a, b, hring, hm⟩ := h.members.1
    rw [hm]
    exact hring.nodup
  runnable t ha hmain := by
    rw [h.members.2]
    exact ⟨fun hr => hr.2.2, fun hs => ⟨ha, hmain, hs⟩⟩
  blocked := by
    refine ⟨Q, fun q hq => ⟨h.queue q hq, (h.queue q hq).chain.nodup⟩, fun t ha hb => ⟨?_, ?_⟩⟩
    · rw [h.members.2]
      rintro ⟨_, _, hs⟩
      simp [hb] at hs
    · obtain ⟨q, hq, hin⟩ := h.blocked t ha hb
      exact ⟨q, ⟨hq, hin⟩, fun q' hq' => h.queue_unique hq'.1 hq hq'.2 hin⟩
  zombie t _ hz := by
    rw [h.members.2]
    rintro ⟨_, _, hs⟩
    simp [hz] at hs
  running t u hta hua ht hu :=
    Option.some.inj ((hcpu.running t hta ht).symm.trans (hcpu.running u hua hu))
  picks := h.picks

/-- In every state that a run comes to, the place of a thread follows from its state, when no code is
interrupted halfway and no address of a thread that was killed in `getc` is used again. -/
theorem scheduler_state_consistent (fuel : Nat) (kernel_p4 : Word) (es : List Event) (k : Kernel)
    (hm : Meets (step fuel) (fun e k => uninterrupted e k ∧ fresh_thread e k) es (started kernel_p4))
    (hrun : run (step fuel) es (started kernel_p4) = some k) : Scheduled k := by
  obtain ⟨Q, hbooks, hcpu, _⟩ := run_in_order (J := fun _ _ => True) (fun _ _ h => h) trivial
    (fun _ _ _ _ _ _ _ _ _ _ _ _ _ => trivial) hm hrun
  exact hbooks.scheduled hcpu

/-- The kernel thread 1 starts the process 1 with the thread 2, and ends. -/
def boot : List Event :=
  [.create_kthread (some 1) 0x10000, .run, .timer, .elf_load 0x100000,
    .loaded true (some 1) (some 2) 0x20000, .run, .call (.exit 0)]

/-- The current thread starts the thread `t`. -/
def clone (t : Nat) : Event := .call (.clone 0x7000 0x4000 (some t) 0x30000)

theorem scheduler_state_consistent_blocked_reader :
    ∃ k, run (step 20) (boot ++ [clone 3, .call .getc, .run, .key 0x1c 0x61]) (started 0x1000) = some k ∧
      Scheduled k := by
  obtain ⟨k, hk⟩ := Option.isSome_iff_exists.mp (show (run (step 20)
    (boot ++ [clone 3, .call .getc, .run, .key 0x1c 0x61]) (started 0x1000)).isSome by decide +kernel)
  exact ⟨k, hk, scheduler_state_consistent 20 0x1000 _ k (by decide +kernel) hk⟩

/-- The thread 2 joins the thread 3, and is interrupted when it has found the link to cut. Then the
thread 4 starts the thread 5, and the thread 2 cuts the thread 5 off together with the thread 3. So
the exit of the process, which the thread 5 calls, does not end the thread 5. -/
def cut_off_run : List Event :=
  [.create_kthread (some 1) 0x10000, .run, .timer, .elf_load 0x100000,
    .loaded true (some 1) (some 2) 0x20000, .run, .timer, clone 4, clone 3,
    .call (.thread_join 5 0), .run, .timer, .timer, .call (.thread_exit 0), .timer, .timer,
    .slice, .slice, .slice, .timer, .timer, clone 5, .timer, .slice, .timer, .call (.exit 0)]

theorem thread_cut_off_runs_on :
    ∃ k, run (step 20) cut_off_run (started 0x1000) = some k ∧ ¬Scheduled k := by
  obtain ⟨k, hk⟩ := Option.isSome_iff_exists.mp
    (show (run (step 20) cut_off_run (started 0x1000)).isSome by decide +kernel)
  -- the kernel thread 1 and the thread 5 are both running
  have hstate : (run (step 20) cut_off_run (started 0x1000)).all (fun k =>
      k.thread.allocated 1 ∧ k.thread.allocated 5 ∧ k.thread.run_state 1 = .running ∧
        k.thread.run_state 5 = .running) := by
    decide +kernel
  rw [hk, Option.all_some, decide_eq_true_iff] at hstate
  obtain ⟨h1, h5, hr1, hr5⟩ := hstate
  refine ⟨k, hk, fun h => ?_⟩
  cases h.running 1 5 h1 h5 hr1 hr5

/-! ## Pointers to threads -/

/-- Every thread that the run ring, a queue, `curr_proc` or `next_proc` points to was not freed. -/
structure NoDangling (k : Kernel) : Prop where
  ring : IsRing k.links.ring k.links.ring.members ∧ ∀ t ∈ k.links.ring.members, k.thread.allocated t
  queue : ∀ q, k.LiveQueue q → ∃ l, QueueAt k.links.queues q l ∧ ∀ t ∈ l, k.thread.allocated t
  curr : ∀ t, k.curr_proc = some t → k.thread.allocated t
  next : ∀ t, k.next_proc = some t → k.thread.allocated t

theorem Books.no_dangling (h : Books True k Q none) (hcpu : Cpu k.toCore) : NoDangling k where
  ring := ⟨h.members.1, fun t ht => ((h.members.2 t).mp ht).1⟩
  queue q hq := ⟨Q q, h.queue q hq, h.queue_allocated q hq (Or.inr trivial)⟩
  curr _ ht := (hcpu.alive ht).1
  next t ht := by
    obtain ⟨t', ht', ha, _⟩ := hcpu.curr
    rcases hcpu.next with hn | hn
    · rw [hn] at ht
      cases ht
    · rw [hn, ht'] at ht
      exact Option.some.inj ht ▸ ha

/-- When the step is a `wait` that finds a zombie child, none of the child's threads is on the
keyboard queue. -/
def reaps_no_reader (fuel : Nat) (e : Event) (k : Kernel) : Bool :=
  if waits e k.toCore then
    match k.curr_proc.bind k.thread.owner with
    | none => true
    | some parent =>
      match PROC_find_zombie_child fuel parent k with
      | some (some child) =>
        match trail k.links.next_thread fuel (k.links.threads child),
          trail k.links.queues.lib_one fuel (k.links.queues.ends .kbd_wait_queue).head with
        | some threads, some readers => threads.all fun t => t ∉ readers
        | _, _ => false
      | _ => true
  else true

theorem reaps_no_reader.spec {e : Event} (h : Books tidy k Q none) (hok : reaps_no_reader fuel e k)
    (hwaits : waits e k.toCore) {t p child x : Nat} (ht : k.curr_proc = some t)
    (ho : k.thread.owner t = some p)
    (hchild : PROC_find_zombie_child fuel p k = some (some child)) (hx : k.thread.allocated x)
    (hxo : k.thread.owner x = some child) : x ∉ Q .kbd_wait_queue := by
  obtain ⟨q, hq, hqa⟩ := h.owner x hx
  obtain rfl : child = q := Option.some.inj (hxo.symm.trans hq)
  obtain ⟨l, hc, hm, _⟩ := h.threads child hqa
  simp only [reaps_no_reader, hwaits, ht, ho, hchild, if_true, Option.bind_some] at hok
  split at hok
  · rename_i threads readers hthreads hreaders
    obtain rfl := (trail.chain hthreads).eq_of_chain hc
    have hQ := (trail.chain hreaders).eq_of_chain (h.queue .kbd_wait_queue trivial).chain
    rw [← hQ]
    simpa using List.all_eq_true.mp hok x ((hm x).mpr ⟨hx, hxo⟩)
  · cases hok

/-- No list holds a thread that was freed, when no code is interrupted halfway and no `wait` reaps a
child while one of the child's threads is on the keyboard queue. -/
theorem no_dangling_threads (fuel : Nat) (kernel_p4 : Word) (es : List Event) (k : Kernel)
    (hm : Meets (step fuel) (fun e k => uninterrupted e k ∧ reaps_no_reader fuel e k) es
      (started kernel_p4))
    (hrun : run (step fuel) es (started kernel_p4) = some k) : NoDangling k := by
  have horder : InOrder True (fun _ _ => True) k := by
    refine run_keeps_of_meets (I := InOrder True fun _ _ => True) ?_ (started_in_order trivial) hm hrun
    rintro e s s' h ⟨hwhole, hreads⟩ hstep
    refine h.step hwhole (fun Q u hb _ hu hin => ?_) (fun Q hb _ hw t p child x => ?_)
      (fun _ _ _ _ _ _ _ _ _ => trivial) hstep
    · exact hu (hb.queue_allocated .kbd_wait_queue trivial (Or.inr trivial) u hin)
    · exact reaps_no_reader.spec hb hreads hw
  obtain ⟨Q, hbooks, hcpu, _⟩ := horder
  exact hbooks.no_dangling hcpu

/-- A child process is forked as process 2 with the thread 3. -/
def fork : Event := .call (.fork 0x200000 (some 2) (some 3) 0x40000 0)

/-- The child ends and is reaped. -/
theorem no_dangling_threads_fork_wait :
    ∃ k, run (step 20) (boot ++ [fork, .timer, .call (.exit 0), .call (.wait 0)]) (started 0x1000) = some k ∧
      NoDangling k := by
  obtain ⟨k, hk⟩ := Option.isSome_iff_exists.mp (show (run (step 20)
    (boot ++ [fork, .timer, .call (.exit 0), .call (.wait 0)]) (started 0x1000)).isSome by decide +kernel)
  exact ⟨k, hk, no_dangling_threads 20 0x1000 _ k (by decide +kernel) hk⟩

/-- The child starts a second thread, and its first thread waits for a key. The second thread exits,
and the first one is dead and still on the keyboard queue. The `wait` of the parent frees it. -/
def reader_run : List Event :=
  boot ++ [fork, .timer, clone 4, .timer, .timer, .call .getc, .run, .call (.exit 0), .call (.wait 0)]

theorem reaped_reader_stays_on_queue :
    ∃ k, run (step 20) reader_run (started 0x1000) = some k ∧ ¬NoDangling k := by
  obtain ⟨k, hk⟩ := Option.isSome_iff_exists.mp
    (show (run (step 20) reader_run (started 0x1000)).isSome by decide +kernel)
  have hstate : (run (step 20) reader_run (started 0x1000)).all (fun k =>
      (k.links.queues.ends .kbd_wait_queue).head = some 3 ∧ ¬k.thread.allocated 3) := by
    decide +kernel
  rw [hk, Option.all_some, decide_eq_true_iff] at hstate
  obtain ⟨hhead, hfreed⟩ := hstate
  refine ⟨k, hk, fun h => ?_⟩
  obtain ⟨l, hl, hall⟩ := h.queue .kbd_wait_queue trivial
  rw [hl.head] at hhead
  exact hfreed (hall 3 (List.mem_of_head? hhead))

end JamsOs
