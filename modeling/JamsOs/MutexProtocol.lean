-- The laws of mutexes (`mutex_syscalls.c`). One thread at a time holds a mutex, no thread waits for a
-- mutex that is free, and the mutex goes to the threads that wait in the order in which they blocked.
-- The owner may be dead: `thread_exit` does not ask whether the thread owns a mutex.
import JamsOs.QuietMoves
import JamsOs.SchedulerState
import JamsOs.Guarded

namespace JamsOs

open Linked Runs

variable {tidy : Prop} {e : Event} {k k' : Kernel} {c c' : Core} {Q Q' : QueueRef → List Nat}
  {n : Ptr} {t m x : Nat}

/-! ## Holding a mutex -/

/-- The thread with this number is between a `mutex_lock` that returned 0 and its next
`mutex_unlock` that returns 0. The latest call is first. -/
def holds_mutex (tid id : Nat) : List Return → Bool
  | [] => false
  | r :: returns =>
    if r.tid = tid ∧ r.value = 0 ∧ r.call = .mutex_lock id then true
    else if r.tid = tid ∧ r.value = 0 ∧ r.call = .mutex_unlock id then false
    else holds_mutex tid id returns

theorem holds_mutex_lock {tid id tid' id' : Nat} {returns : List Return} :
    holds_mutex tid id (⟨tid', .mutex_lock id', 0, none⟩ :: returns) ↔
      tid' = tid ∧ id' = id ∨ holds_mutex tid id returns := by
  by_cases h : tid' = tid ∧ id' = id
  · simp [holds_mutex, h]
  · simp only [holds_mutex, Syscall.mutex_lock.injEq, true_and, h, if_false, reduceCtorEq,
      and_false, false_or]

theorem holds_mutex_unlock {tid id tid' id' : Nat} {returns : List Return} :
    holds_mutex tid id (⟨tid', .mutex_unlock id', 0, none⟩ :: returns) ↔
      ¬(tid' = tid ∧ id' = id) ∧ holds_mutex tid id returns := by
  by_cases h : tid' = tid ∧ id' = id
  · simp [holds_mutex, h]
  · simp only [holds_mutex, Syscall.mutex_unlock.injEq, true_and, h, if_false, reduceCtorEq,
      and_false, not_false_eq_true]

/-- A return that neither takes nor gives up a mutex. -/
def Return.Neutral (r : Return) : Prop :=
  r.value = 0 → ∀ id, r.call ≠ .mutex_lock id ∧ r.call ≠ .mutex_unlock id

/-- No call has returned, or one that neither takes nor gives up a mutex. -/
def SameHolders (c c' : Core) : Prop :=
  c'.returns = c.returns ∨ ∃ r : Return, r.Neutral ∧ c'.returns = r :: c.returns

theorem SameHolders.holds_mutex (h : SameHolders c c') (tid id : Nat) :
    holds_mutex tid id c'.returns = holds_mutex tid id c.returns := by
  rcases h with he | ⟨r, hr, he⟩
  · rw [he]
  · rw [he, JamsOs.holds_mutex, if_neg fun h => (hr h.2.1 id).1 h.2.2,
      if_neg fun h => (hr h.2.1 id).2 h.2.2]

theorem SameHolders.ret {c1 : Core} {call : Syscall} {value : Int} {status : Option Int}
    (hlog : c1.returns = c.returns)
    (hcall : value = 0 → ∀ id, call ≠ .mutex_lock id ∧ call ≠ .mutex_unlock id) :
    SameHolders c (c1.ret t call value status) :=
  Or.inr ⟨⟨c1.thread.tid t, call, value, status⟩, hcall, by rw [Core.ret_returns, hlog]⟩

/-! ## What a step does to the mutexes -/

/-- A call of the current thread `t` returns, and ends no thread. -/
structure Returns (n : Ptr) (t : Nat) (c c' : Core) : Prop where
  quiet : Quiet n t c c'
  out : (c'.thread.pc t).call = none
  tid : c'.thread.tid t = c.thread.tid t

theorem Returns.in_call (h : Returns n t c c') {call : Call} (hx : c'.thread.allocated x)
    (hcall : (c'.thread.pc x).call = some call) :
    x ≠ t ∧ SameThread t c c' x ∧ (c.thread.pc x).call = some call := by
  refine ⟨?_, h.quiet.in_call hx hcall⟩
  rintro rfl
  rw [h.out] at hcall
  cases hcall

/-- What a step in which the current thread goes on does to the mutexes and to the log. -/
inductive MutexMove (n : Ptr) (c : Core) (Q : QueueRef → List Nat) (t : Nat) (c' : Core) :
    (QueueRef → List Nat) → Prop
  | idle {Q' : QueueRef → List Nat} (hq : Quiet n t c c') (hmutex : c'.mutex = c.mutex)
      (hQ : ∀ m, Q' (.waiters m) = Q (.waiters m))
      (hlog : SameHolders c c') :
      MutexMove n c Q t c' Q'
  | create {m : Nat} (hr : Returns n t c c') (hm : m ∉ c.mutex.list)
      (huser : c.thread.owner t ≠ some kernel_process)
      (hmutex : c'.mutex = (c.with_mutex m (c.thread.owner t)).mutex)
      (hlog : SameHolders c c') :
      MutexMove n c Q t c' (Function.update Q (.waiters m) [])
  | lock {m : Nat} (hr : Returns n t c c') (hm : m ∈ c.mutex.list)
      (ho : c.mutex.owner_process m = c.thread.owner t) (hfree : c.mutex.owner_thread m = none)
      (hmutex : c'.mutex =
        { c.mutex with owner_thread := Function.update c.mutex.owner_thread m (some t) })
      (hlog : c'.returns = ⟨c.thread.tid t, .mutex_lock (c.mutex.id m), 0, none⟩ :: c.returns) :
      MutexMove n c Q t c' Q
  | handed {id m : Nat} (hr : Returns n t c c') (hpc : c.thread.pc t = .window (.lock id m))
      (hown : c.mutex.owner_thread m = some t) (hmutex : c'.mutex = c.mutex)
      (hlog : c'.returns = ⟨c.thread.tid t, .mutex_lock id, 0, none⟩ :: c.returns) :
      MutexMove n c Q t c' Q
  | unlock {m : Nat} {r : Ptr} {dead rest : List Nat} (hr : Returns n t c c')
      (hpc : c.thread.pc t = .user) (hm : m ∈ c.mutex.list)
      (ho : c.mutex.owner_process m = c.thread.owner t) (hown : c.mutex.owner_thread m = some t)
      (hQ : Q (.waiters m) = dead ++ r.toList ++ rest)
      (hdead : ∀ x ∈ dead, c.thread.run_state x = .zombie) (hnone : r = none → rest = [])
      (hsome : ∀ x, r = some x → c.thread.run_state x = .blocked)
      (hmutex : c'.mutex = { c.mutex with owner_thread := Function.update c.mutex.owner_thread m r })
      (hlog : c'.returns = ⟨c.thread.tid t, .mutex_unlock (c.mutex.id m), 0, none⟩ :: c.returns) :
      MutexMove n c Q t c' (Function.update Q (.waiters m) rest)
  | destroy {m : Nat} (hr : Returns n t c c') (hfree : c.mutex.owner_thread m = none)
      (hempty : Q (.waiters m) = [])
      (hmutex : ∃ allocated list, c'.mutex = { c.mutex with allocated := allocated, list := list })
      (hlist : ∀ m', m' ∈ c'.mutex.list ↔ m' ≠ m ∧ m' ∈ c.mutex.list)
      (hlog : SameHolders c c') :
      MutexMove n c Q t c' Q

theorem MutexMove.same (hq : Quiet n t c c') (hmutex : c'.mutex = c.mutex)
    (hlog : c'.returns = c.returns) : MutexMove n c Q t c' Q :=
  .idle hq hmutex (fun _ => rfl) (Or.inl hlog)

theorem MutexMove.ret {c1 : Core} {call : Syscall} {value : Int} {status : Option Int}
    (hq : Quiet n t c (c1.ret t call value status)) (hmutex : c1.mutex = c.mutex)
    (hlog : c1.returns = c.returns)
    (hcall : value = 0 → ∀ id, call ≠ .mutex_lock id ∧ call ≠ .mutex_unlock id) :
    MutexMove n c Q t (c1.ret t call value status) Q :=
  .idle hq ((Core.ret_mutex _ _ _ _ _).trans hmutex) (fun _ => rfl) (.ret hlog hcall)

theorem Core.woken_mutex (r : Ptr) (c : Core) : (c.woken r).mutex = c.mutex := by
  cases r <;> rfl

theorem Core.woken_tid (r : Ptr) (c : Core) : (c.woken r).thread.tid = c.thread.tid := by
  cases r <;> rfl

theorem Core.elect_mutex (candidate : Ptr) (c : Core) : (c.elect candidate).mutex = c.mutex := by
  rw [Core.elect_frame]

theorem MMU_destroy_p4.mutex (p4 : Word) (c : Core) : (MMU_destroy_p4 p4 c).mutex = c.mutex := by
  obtain ⟨p4s, hframe⟩ := MMU_destroy_p4.frame p4 c
  rw [hframe]

theorem Core.Dropped.mutex (hd : c.Dropped c') : c'.mutex = c.mutex := by
  cases hd <;> rfl

theorem Move.mutex (h : Books tidy k Q none) (ha : k.thread.allocated t) (hm : Move e k.toCore Q t c' Q') :
    MutexMove (new_thread e k.toCore) k.toCore Q t c' Q' ∨ Stop e k.toCore Q t c' Q' := by
  have hret : ∀ (c1 : Core) call value status,
      Quiet (new_thread e k.toCore) t k.toCore (c1.ret t call value status) →
      c1.thread.tid = k.thread.tid →
      Returns (new_thread e k.toCore) t k.toCore (c1.ret t call value status) := by
    intro c1 call value status hq htid
    refine ⟨hq, by simp [Pc.call], ?_⟩
    rw [Core.ret_thread]
    exact congrFun htid t
  rcases hm.quiet h ha with hq | hs
  swap
  · exact Or.inr hs
  cases hm with
  | stop hs => exact Or.inr hs
  | timer | resume =>
    exact Or.inl (.same hq ((isr_return_mutex _).trans (Core.elect_mutex _ _))
      ((isr_return_returns _).trans (Core.elect_returns _ _)))
  | key_ignored => exact Or.inl (.same hq (isr_return_mutex _) (isr_return_returns _))
  | key =>
    refine Or.inl (.idle hq (by rw [isr_return_mutex, Core.woken_mutex]) (fun m => ?_) (Or.inl ?_))
    · exact Function.update_of_ne (by simp) _ _
    · rw [isr_return_returns, Core.woken_returns]
  | yield =>
    exact Or.inl (.ret hq (Core.elect_mutex _ _) (Core.elect_returns _ _) fun _ _ => ⟨by simp, by simp⟩)
  | fails hpc hvalue =>
    refine Or.inl (.ret hq rfl rfl fun hv _ => ?_)
    rcases hvalue with hv' | ⟨rfl, _⟩
    · rw [hv'] at hv
      cases hv
    · exact ⟨by simp, by simp⟩
  | @mutex_create m hpc huser hm =>
    exact Or.inl (.create (hret _ _ _ _ hq rfl) (fun hin => hm (h.mutex_allocated m hin)) huser
      (Core.ret_mutex _ _ _ _ _) (.ret rfl fun _ _ => ⟨by simp, by simp⟩))
  | lock hpc hm ho hfree =>
    exact Or.inl (.lock (hret _ _ _ _ hq rfl) hm ho hfree (Core.ret_mutex _ _ _ _ _)
      (Core.ret_returns _ _ _ _ _))
  | lock_handed hpc hown =>
    exact Or.inl (.handed (hret _ _ _ _ hq rfl) hpc hown (Core.ret_mutex _ _ _ _ _)
      (Core.ret_returns _ _ _ _ _))
  | @unlock m r dead rest hpc hm ho hown hQ hdead hnone hsome =>
    refine Or.inl (.unlock (hret _ _ _ _ hq (Core.woken_tid r _)) hpc hm ho hown hQ hdead hnone hsome
      ?_ ?_)
    · simp only [Core.ret_mutex, Core.woken_mutex]
    · simp only [Core.ret_returns, Core.woken_tid, Core.woken_returns]
  | @mutex_destroy m hpc hm ho hfree hempty =>
    refine Or.inl (.destroy (hret _ _ _ _ hq rfl) hfree hempty ?_ (fun m' => ?_)
      (.ret rfl fun _ _ => ⟨by simp, by simp⟩))
    · rw [Core.ret_mutex]
      exact ⟨_, _, rfl⟩
    · rw [Core.ret_mutex]
      exact h.mutex_nodup.mem_erase_iff
  | fork =>
    refine Or.inl (.idle hq (Core.ret_mutex _ _ _ _ _) (fun m => ?_) (.ret rfl fun _ _ => ⟨by simp, by simp⟩))
    simp [with_process]
  | fork_fails hpc hp4 hc1 =>
    exact Or.inl (.ret hq ((MMU_destroy_p4.mutex _ _).trans hc1.mutex)
      ((MMU_destroy_p4.returns _ _).trans hc1.returns) fun _ _ => ⟨by simp, by simp⟩)
  | exec_fails =>
    exact Or.inl (.ret hq (MMU_destroy_p4.mutex _ _) (MMU_destroy_p4.returns _ _)
      fun _ _ => ⟨by simp, by simp⟩)
  | exec_done hpc ho hc1 =>
    refine Or.inl (.ret hq ?_ ?_ fun _ _ => ⟨by simp, by simp⟩)
    · split
      · rw [MMU_destroy_p4.mutex, hc1]
      · rw [hc1]
    · split
      · rw [MMU_destroy_p4.returns, hc1]
      · rw [hc1]
  | elf_fails => exact Or.inl (.same hq (MMU_destroy_p4.mutex _ _) (MMU_destroy_p4.returns _ _))
  | uthread =>
    refine Or.inl (.idle hq rfl (fun m => ?_) (Or.inl rfl))
    simp [with_process]
  | uthread_fails hpc hc1 =>
    exact Or.inl (.same hq ((MMU_destroy_p4.mutex _ _).trans hc1.mutex)
      ((MMU_destroy_p4.returns _ _).trans hc1.returns))
  | wait | join | getc | clone | clone_fails =>
    exact Or.inl (.ret hq rfl rfl fun _ _ => ⟨by simp, by simp⟩)
  | create_kthread | no_kthread | kthread | kthread_fails | exec | elf_load | elf_loaded =>
    exact Or.inl (.same hq rfl rfl)

/-! ## The books of the mutexes -/

/-- What holds of the mutexes, of the threads that lock them, and of the log. The owner may be a
thread that was freed. -/
structure MutexBooks (c : Core) (Q : QueueRef → List Nat) : Prop where
  id_lt : ∀ m ∈ c.mutex.list, c.mutex.id m < c.mutex.next_id
  id_inj : ∀ m ∈ c.mutex.list, ∀ m' ∈ c.mutex.list, c.mutex.id m = c.mutex.id m' → m = m'
  free : ∀ m ∈ c.mutex.list, c.mutex.owner_thread m = none → Q (.waiters m) = []
  lock : ∀ t id m, c.thread.allocated t → c.thread.run_state t ≠ .zombie →
    (c.thread.pc t).call = some (.lock id m) → m ∈ c.mutex.list ∧ c.mutex.id m = id ∧
      c.mutex.owner_process m = c.thread.owner t ∧
      (t ∈ Q (.waiters m) ∨ c.mutex.owner_thread m = some t)
  held : ∀ tid id, holds_mutex tid id c.returns → id < c.mutex.next_id ∧
    ∀ m ∈ c.mutex.list, c.mutex.id m = id →
      ∃ u, c.mutex.owner_thread m = some u ∧ (c.thread.allocated u → c.thread.tid u = tid)
  one : ∀ tid tid' id, holds_mutex tid id c.returns → holds_mutex tid' id c.returns → tid = tid'

theorem started_mutexBooks (kernel_p4 : Word) :
    MutexBooks (started kernel_p4).toCore fun _ => [] where
  id_lt := nofun
  id_inj := nofun
  free := nofun
  lock _ _ _ _ _ h := nomatch h
  held _ _ h := nomatch h
  one _ _ _ h := nomatch h

/-- No new thread has the address of an owner that is dead. -/
def NewOwners (n : Ptr) (c : Core) : Prop :=
  ∀ u, n = some u → ∀ m ∈ c.mutex.list, c.mutex.owner_thread m = some u →
    c.thread.allocated u ∧ c.thread.run_state u ≠ .zombie

/-- The owner of a mutex has kept its number. -/
theorem Quiet.owner_tid (hq : Quiet n t c c') (hnew : NewOwners n c) (hm : m ∈ c.mutex.list)
    {u tid : Nat} (hu : c.mutex.owner_thread m = some u)
    (htid : c.thread.allocated u → c.thread.tid u = tid) (ha : c'.thread.allocated u) :
    c'.thread.tid u = tid := by
  rcases hq.thread u ha with hs | ⟨hn, _⟩
  · rw [hs.tid]
    exact htid hs.allocated
  · obtain ⟨hua, huz⟩ := hnew u hn m hm hu
    rw [(hq.kept u hua huz).2.tid]
    exact htid hua

section

variable (h : MutexBooks c Q)

include h

/-- Calls that do not touch the mutexes. -/
theorem MutexBooks.idle (hq : Quiet n t c c') (hnew : NewOwners n c) (hmutex : c'.mutex = c.mutex)
    (hQ : ∀ m, Q' (.waiters m) = Q (.waiters m)) (hlog : SameHolders c c') :
    MutexBooks c' Q' := by
  constructor
  · rw [hmutex]
    exact h.id_lt
  · rw [hmutex]
    exact h.id_inj
  · rw [hmutex]
    intro m hm ho
    rw [hQ]
    exact h.free m hm ho
  · intro x id m hx hz hcall
    obtain ⟨hs, hcall'⟩ := hq.in_call hx hcall
    rw [hmutex, hs.owner, hQ]
    exact h.lock x id m hs.allocated (fun hz' => hz (hs.zombie.mpr hz')) hcall'
  · intro tid id hh
    rw [hlog.holds_mutex] at hh
    obtain ⟨hid, hown⟩ := h.held tid id hh
    rw [hmutex]
    refine ⟨hid, fun m hm hmid => ?_⟩
    obtain ⟨u, hu, htid⟩ := hown m hm hmid
    exact ⟨u, hu, hq.owner_tid hnew hm hu htid⟩
  · intro tid tid' id
    rw [hlog.holds_mutex, hlog.holds_mutex]
    exact h.one tid tid' id

/-! ## Calls of the current thread -/

/-- The place of a thread that is alive and in `mutex_lock`. -/
theorem MutexBooks.lock_of_returns (hr : Returns n t c c') {id : Nat} (hx : c'.thread.allocated x)
    (hz : c'.thread.run_state x ≠ .zombie) (hcall : (c'.thread.pc x).call = some (.lock id m)) :
    x ≠ t ∧ c.thread.run_state x ≠ .zombie ∧ m ∈ c.mutex.list ∧ c.mutex.id m = id ∧
      c.mutex.owner_process m = c'.thread.owner x ∧
      (x ∈ Q (.waiters m) ∨ c.mutex.owner_thread m = some x) := by
  obtain ⟨hxt, hs, hcall'⟩ := hr.in_call hx hcall
  have hz' : c.thread.run_state x ≠ .zombie := fun hz' => hz (hs.zombie.mpr hz')
  rw [hs.owner]
  exact ⟨hxt, hz', h.lock x id m hs.allocated hz' hcall'⟩

theorem MutexBooks.create (hr : Returns n t c c') (hnew : NewOwners n c) (hm : m ∉ c.mutex.list)
    {owner : Ptr} (hmutex : c'.mutex = (c.with_mutex m owner).mutex) (hlog : SameHolders c c') :
    MutexBooks c' (Function.update Q (.waiters m) []) := by
  have hne : ∀ m' ∈ c.mutex.list, m' ≠ m := fun m' hm' he => hm (he ▸ hm')
  have hid : ∀ m' ∈ c.mutex.list, c'.mutex.id m' = c.mutex.id m' := by
    intro m' hm'
    simp [hmutex, Core.with_mutex, hne m' hm']
  have hid_new : c'.mutex.id m = c.mutex.next_id := by simp [hmutex, Core.with_mutex]
  have hnext : c'.mutex.next_id = c.mutex.next_id + 1 := by rw [hmutex]; rfl
  have hlist : ∀ m', m' ∈ c'.mutex.list ↔ m' = m ∨ m' ∈ c.mutex.list := by
    intro m'
    rw [hmutex]
    exact List.mem_cons
  have hown : ∀ m' ∈ c.mutex.list, c'.mutex.owner_thread m' = c.mutex.owner_thread m' := by
    intro m' hm'
    simp [hmutex, Core.with_mutex, hne m' hm']
  constructor
  · intro m' hm'
    rcases (hlist m').mp hm' with rfl | hm'
    · omega
    · have := h.id_lt m' hm'
      rw [hid m' hm']
      omega
  · intro m1 hm1 m2 hm2 heq
    rcases (hlist m1).mp hm1 with rfl | hm1' <;> rcases (hlist m2).mp hm2 with rfl | hm2'
    · rfl
    · have := h.id_lt m2 hm2'
      rw [hid m2 hm2'] at heq
      omega
    · have := h.id_lt m1 hm1'
      rw [hid m1 hm1'] at heq
      omega
    · rw [hid m1 hm1', hid m2 hm2'] at heq
      exact h.id_inj m1 hm1' m2 hm2' heq
  · intro m' hm' ho
    rcases (hlist m').mp hm' with rfl | hm'
    · exact Function.update_self _ _ _
    · rw [Function.update_of_ne (by simpa using hne m' hm')]
      exact h.free m' hm' (hown m' hm' ▸ ho)
  · intro x id m' hx hz hcall
    obtain ⟨_, _, hm', hmid, hop, hpos⟩ := h.lock_of_returns hr hx hz hcall
    rw [Function.update_of_ne (by simpa using hne m' hm'), hid m' hm', hown m' hm']
    refine ⟨(hlist m').mpr (Or.inr hm'), hmid, ?_, hpos⟩
    simpa [hmutex, Core.with_mutex, hne m' hm'] using hop
  · intro tid id hh
    rw [hlog.holds_mutex] at hh
    obtain ⟨hlt, hheld⟩ := h.held tid id hh
    refine ⟨by omega, fun m' hm' hmid => ?_⟩
    rcases (hlist m').mp hm' with rfl | hm'
    · omega
    · rw [hid m' hm'] at hmid
      obtain ⟨u, hu, htid⟩ := hheld m' hm' hmid
      exact ⟨u, (hown m' hm').trans hu, hr.quiet.owner_tid hnew hm' hu htid⟩
  · intro tid tid' id
    rw [hlog.holds_mutex, hlog.holds_mutex]
    exact h.one tid tid' id

/-- The current thread has become the owner, and its `mutex_lock` returns 0. -/
theorem MutexBooks.locked (hr : Returns n t c c') (hnew : NewOwners n c) (hm : m ∈ c.mutex.list)
    (hother : ∀ tid, holds_mutex tid (c.mutex.id m) c.returns → tid = c.thread.tid t)
    (hfree : c.mutex.owner_thread m = none ∨ c.mutex.owner_thread m = some t)
    (hmutex : c'.mutex =
      { c.mutex with owner_thread := Function.update c.mutex.owner_thread m (some t) })
    (hlog : c'.returns = ⟨c.thread.tid t, .mutex_lock (c.mutex.id m), 0, none⟩ :: c.returns) :
    MutexBooks c' Q := by
  constructor
  · rw [hmutex]
    exact h.id_lt
  · rw [hmutex]
    exact h.id_inj
  · rw [hmutex]
    intro m' hm' ho
    by_cases he : m' = m
    · simp [he] at ho
    · exact h.free m' hm' (by simpa [he] using ho)
  · intro x id m' hx hz hcall
    obtain ⟨hxt, _, hm', hid, hop, hpos⟩ := h.lock_of_returns hr hx hz hcall
    rw [hmutex]
    refine ⟨hm', hid, hop, ?_⟩
    by_cases he : m' = m
    · subst he
      refine Or.inl (hpos.resolve_right fun ho => ?_)
      rcases hfree with hf | hf
      · rw [hf] at ho
        cases ho
      · rw [hf] at ho
        exact hxt (Option.some.inj ho).symm
    · simpa [he] using hpos
  · intro tid id hh
    rw [hlog, holds_mutex_lock] at hh
    rw [hmutex]
    rcases hh with ⟨rfl, rfl⟩ | hh
    · refine ⟨h.id_lt m hm, fun m' hm' hid => ?_⟩
      obtain rfl := h.id_inj m' hm' m hm hid
      exact ⟨t, by simp, fun _ => hr.tid⟩
    · obtain ⟨hid, hown⟩ := h.held tid id hh
      refine ⟨hid, fun m' hm' hmid => ?_⟩
      by_cases he : m' = m
      · subst he
        exact ⟨t, by simp, fun _ => hr.tid.trans (hother tid (hmid ▸ hh)).symm⟩
      · obtain ⟨u, hu, htid⟩ := hown m' hm' hmid
        exact ⟨u, by simpa [he] using hu, hr.quiet.owner_tid hnew hm' hu htid⟩
  · intro tid tid' id
    rw [hlog, holds_mutex_lock, holds_mutex_lock]
    rintro (⟨rfl, rfl⟩ | h1) (⟨rfl, h2⟩ | h2)
    · rfl
    · exact (hother tid' h2).symm
    · exact hother tid (h2 ▸ h1)
    · exact h.one tid tid' id h1 h2

/-- The owner gives the mutex to the first thread that waits and is alive. -/
theorem MutexBooks.unlocked (hr : Returns n t c c') (hnew : NewOwners n c)
    (ha : c.thread.allocated t) (hm : m ∈ c.mutex.list) (hown : c.mutex.owner_thread m = some t)
    {r : Ptr} {dead rest : List Nat} (hQ : Q (.waiters m) = dead ++ r.toList ++ rest)
    (hdead : ∀ x ∈ dead, c.thread.run_state x = .zombie) (hnone : r = none → rest = [])
    (hmutex : c'.mutex = { c.mutex with owner_thread := Function.update c.mutex.owner_thread m r })
    (hlog : c'.returns = ⟨c.thread.tid t, .mutex_unlock (c.mutex.id m), 0, none⟩ :: c.returns) :
    MutexBooks c' (Function.update Q (.waiters m) rest) := by
  constructor
  · rw [hmutex]
    exact h.id_lt
  · rw [hmutex]
    exact h.id_inj
  · rw [hmutex]
    intro m' hm' ho
    by_cases he : m' = m
    · subst he
      rw [Function.update_self]
      exact hnone (by simpa using ho)
    · rw [Function.update_of_ne (by simpa using he)]
      exact h.free m' hm' (by simpa [he] using ho)
  · intro x id m' hx hz hcall
    obtain ⟨hxt, hz', hm', hid, hop, hpos⟩ := h.lock_of_returns hr hx hz hcall
    rw [hmutex]
    refine ⟨hm', hid, hop, ?_⟩
    by_cases he : m' = m
    · subst he
      simp only [Function.update_self]
      rw [hown, hQ, List.mem_append, List.mem_append] at hpos
      rcases hpos with ((hin | hin) | hin) | ho
      · exact absurd (hdead x hin) hz'
      · exact Or.inr (Option.mem_toList.mp hin)
      · exact Or.inl hin
      · exact absurd (Option.some.inj ho).symm hxt
    · simpa [he] using hpos
  · intro tid id hh
    rw [hlog, holds_mutex_unlock] at hh
    obtain ⟨hne, hh⟩ := hh
    obtain ⟨hid, hheld⟩ := h.held tid id hh
    rw [hmutex]
    refine ⟨hid, fun m' hm' hmid => ?_⟩
    obtain ⟨u, hu, htid⟩ := hheld m' hm' hmid
    by_cases he : m' = m
    · -- the log names no holder but the thread that unlocks
      subst he
      rw [hown] at hu
      obtain rfl := Option.some.inj hu
      exact absurd ⟨htid ha, hmid⟩ hne
    · exact ⟨u, by simpa [he] using hu, hr.quiet.owner_tid hnew hm' hu htid⟩
  · intro tid tid' id
    rw [hlog, holds_mutex_unlock, holds_mutex_unlock]
    exact fun h1 h2 => h.one tid tid' id h1.2 h2.2

theorem MutexBooks.destroyed (hr : Returns n t c c') (hnew : NewOwners n c)
    (hfree : c.mutex.owner_thread m = none) (hempty : Q (.waiters m) = [])
    (hmutex : ∃ allocated list, c'.mutex = { c.mutex with allocated := allocated, list := list })
    (hlist : ∀ m', m' ∈ c'.mutex.list ↔ m' ≠ m ∧ m' ∈ c.mutex.list) (hlog : SameHolders c c') :
    MutexBooks c' Q := by
  obtain ⟨allocated, list, hmutex⟩ := hmutex
  have hsub : ∀ m' ∈ c'.mutex.list, m' ∈ c.mutex.list := fun m' hm' => ((hlist m').mp hm').2
  have hid : c'.mutex.id = c.mutex.id := by rw [hmutex]
  have hown : c'.mutex.owner_thread = c.mutex.owner_thread := by rw [hmutex]
  have hnext : c'.mutex.next_id = c.mutex.next_id := by rw [hmutex]
  constructor
  · rw [hid, hnext]
    exact fun m' hm' => h.id_lt m' (hsub m' hm')
  · rw [hid]
    exact fun m1 hm1 m2 hm2 => h.id_inj m1 (hsub m1 hm1) m2 (hsub m2 hm2)
  · rw [hown]
    exact fun m' hm' => h.free m' (hsub m' hm')
  · intro x id m' hx hz hcall
    obtain ⟨_, _, hm', hmid, hop, hpos⟩ := h.lock_of_returns hr hx hz hcall
    have hne : m' ≠ m := by
      rintro rfl
      rcases hpos with hin | ho
      · rw [hempty] at hin
        cases hin
      · rw [hfree] at ho
        cases ho
    rw [hid, hown]
    refine ⟨(hlist m').mpr ⟨hne, hm'⟩, hmid, ?_, hpos⟩
    rw [hmutex]
    exact hop
  · intro tid id hh
    rw [hlog.holds_mutex] at hh
    obtain ⟨hlt, hheld⟩ := h.held tid id hh
    rw [hid, hown, hnext]
    refine ⟨hlt, fun m' hm' hmid => ?_⟩
    obtain ⟨u, hu, htid⟩ := hheld m' (hsub m' hm') hmid
    exact ⟨u, hu, hr.quiet.owner_tid hnew (hsub m' hm') hu htid⟩
  · intro tid tid' id
    rw [hlog.holds_mutex, hlog.holds_mutex]
    exact h.one tid tid' id

/-! ## Every move keeps the books -/

theorem MutexBooks.blocked_in {q : QueueRef} {call : Call}
    (hq : call.queue (c.thread.owner t) = some q) (hwait : c.MustWait t call) :
    MutexBooks (c.blocked_in t call) (Function.update Q q (Q q ++ [t])) := by
  have hkept : ∀ q' x, x ∈ Q q' → x ∈ Function.update Q q (Q q ++ [t]) q' := by
    intro q' x hx
    by_cases he : q' = q
    · subst he
      simp [hx]
    · rwa [Function.update_of_ne he]
  refine { h with free := ?_, lock := ?_ }
  · intro m hm ho
    rw [Function.update_of_ne]
    · exact h.free m hm ho
    · -- a thread only waits for a mutex that has an owner
      rintro rfl
      cases call with
      | lock id m' =>
        obtain ⟨_, _, _, o, hown, _⟩ := hwait
        cases hq
        cases hown.symm.trans ho
      | _ => simp [Call.queue] at hq
  · intro x id m hx hz hcall
    by_cases hxt : x = t
    · subst hxt
      simp only [Core.blocked_in, Function.update_self, Pc.call, Option.some.injEq] at hcall
      subst hcall
      obtain ⟨hm, hid, hop, _⟩ := hwait
      cases hq
      exact ⟨hm, hid, hop, Or.inl (by simp)⟩
    · simp only [Core.blocked_in, Core.set_run_state, Function.update_of_ne hxt] at hz hcall
      obtain ⟨hm, hid, hop, hpos⟩ := h.lock x id m hx hz hcall
      exact ⟨hm, hid, hop, hpos.imp_left (hkept _ x)⟩

theorem MutexBooks.ended {p : Nat} (hend : Ended e c Q t p c' Q')
    (hlisted : ∀ m ∈ c.mutex.list, c.mutex.allocated m) (hlog : c'.returns = c.returns)
    (hqueue : ∀ x q, c'.thread.allocated x → c'.thread.run_state x = .blocked →
      c'.place x = some q → x ∈ Q' q) : MutexBooks c' Q' := by
  obtain ⟨run_state, exit_status, hthread⟩ := hend.thread
  obtain ⟨allocated, list, hmutex⟩ := hend.mutex
  have hid : c'.mutex.id = c.mutex.id := by rw [hmutex]
  have hown : c'.mutex.owner_thread = c.mutex.owner_thread := by rw [hmutex]
  have hnext : c'.mutex.next_id = c.mutex.next_id := by rw [hmutex]
  have halloc : c'.thread.allocated = c.thread.allocated := by rw [hthread]
  have hpc : c'.thread.pc = c.thread.pc := by rw [hthread]
  have hsub : ∀ m ∈ c'.mutex.list, m ∈ c.mutex.list := by
    intro m hm
    rcases hend.ends with ⟨hsame, _⟩ | ⟨hlist, _⟩
    · rwa [hsame] at hm
    · exact ((hlist m).mp hm).1
  constructor
  · rw [hid, hnext]
    exact fun m hm => h.id_lt m (hsub m hm)
  · rw [hid]
    exact fun m1 hm1 m2 hm2 => h.id_inj m1 (hsub m1 hm1) m2 (hsub m2 hm2)
  · rw [hown]
    intro m hm ho
    rcases hend.queues m with he | he
    · rw [he]
      exact h.free m (hsub m hm) ho
    · exact he
  · intro x id m hx hz hcall
    rw [hpc] at hcall
    have hx' : c.thread.allocated x := by rwa [halloc] at hx
    obtain ⟨hm, hmid, hop, hpos⟩ := h.lock x id m hx' (fun hz' => hz (hend.dead x hz')) hcall
    rw [hid, hown]
    refine ⟨?_, hmid, ?_, hpos.imp_left fun hin => ?_⟩
    · rcases hend.ends with ⟨hsame, _⟩ | ⟨hlist, hall, _⟩
      · rwa [hsame]
      · refine (hlist m).mpr ⟨hm, fun hp => ?_⟩
        rw [hop] at hp
        exact hz (hall x hx' hp)
    · rw [hmutex, hthread]
      exact hop
    · refine hqueue x (.waiters m) hx (hend.waiters x m (hlisted m hm) hin hz) ?_
      rw [Core.place, hpc, hcall]
      rfl
  · intro tid id hh
    rw [hlog] at hh
    obtain ⟨hlt, hheld⟩ := h.held tid id hh
    rw [hid, hown, hnext, halloc]
    refine ⟨hlt, fun m hm hmid => ?_⟩
    obtain ⟨u, hu, htid⟩ := hheld m (hsub m hm) hmid
    refine ⟨u, hu, fun ha => ?_⟩
    rw [hthread]
    exact htid ha
  · rw [hlog]
    exact h.one

end

theorem MutexBooks.move (h : MutexBooks k.toCore Q) (hb : Books tidy k Q none)
    (hb' : Books tidy k' Q' none) (hcpu : Cpu k.toCore) (ht : k.curr_proc = some t)
    (hnew : NewOwners (new_thread e k.toCore) k.toCore)
    (hmv : Move e k.toCore Q t k'.toCore Q') : MutexBooks k'.toCore Q' := by
  obtain ⟨ha, hz⟩ := hcpu.alive ht
  rcases hmv.mutex hb (hcpu.alive ht).1 with hmove | hs
  · cases hmove with
    | idle hq hmutex hQ hlog => exact h.idle hq hnew hmutex hQ hlog
    | create hr hm huser hmutex hlog => exact h.create hr hnew hm hmutex hlog
    | lock hr hm ho hfree hmutex hlog =>
      refine h.locked hr hnew hm (fun tid hh => ?_) (Or.inl hfree) hmutex hlog
      obtain ⟨u, hu, _⟩ := (h.held tid _ hh).2 _ hm rfl
      rw [hfree] at hu
      cases hu
    | handed hr hpc hown hmutex hlog =>
      obtain ⟨hm, rfl, _⟩ := h.lock t _ _ ha hz (by rw [hpc]; rfl)
      refine h.locked hr hnew hm (fun tid hh => ?_) (Or.inr hown) ?_ hlog
      · obtain ⟨u, hu, htid⟩ := (h.held tid _ hh).2 _ hm rfl
        rw [hown] at hu
        obtain rfl := Option.some.inj hu
        exact (htid ha).symm
      · rw [hmutex, ← hown, Function.update_eq_self]
    | unlock hr hpc hm ho hown hQ hdead hnone hsome hmutex hlog =>
      exact h.unlocked hr hnew ha hm hown hQ hdead hnone hmutex hlog
    | destroy hr hfree hempty hmutex hlist hlog =>
      exact h.destroyed hr hnew hfree hempty hmutex hlist hlog
  · rcases hs.ended hb hcpu ht with ⟨q, call, _, hq, hwait, hc', rfl⟩ | ⟨p, _, _, hend⟩
    · rw [hc']
      exact h.blocked_in hq hwait
    · exact h.ended hend hb.mutex_allocated hs.returns fun x q hx hbl hplace =>
        hb'.mem_queue hx hbl hplace

/-! ## The protocol -/

/-- The thread is blocked on the mutex. -/
def Core.WaitsFor (c : Core) (m t : Nat) : Prop :=
  c.thread.allocated t ∧ c.thread.run_state t = .blocked ∧
    ∃ id, (c.thread.pc t).call = some (.lock id m)

theorem Books.mem_waiters (h : Books tidy k Q none) (hx : k.WaitsFor m x) : x ∈ Q (.waiters m) := by
  obtain ⟨ha, hb, id, hcall⟩ := hx
  exact h.mem_queue ha hb (by simp [Core.place, hcall, Call.queue])

/-- At most one thread holds a mutex, and a mutex without an owner has no thread that waits. -/
structure MutexProtocol (k : Kernel) : Prop where
  exclusive : ∀ id tid tid', holds_mutex tid id k.returns → holds_mutex tid' id k.returns → tid = tid'
  stranded : ∀ m ∈ k.mutex.list, k.mutex.owner_thread m = none →
    (k.links.queues.ends (.waiters m)).head = none ∧ ∀ t, ¬k.WaitsFor m t

theorem MutexBooks.protocol (h : MutexBooks k.toCore Q) (hb : Books tidy k Q none) :
    MutexProtocol k where
  exclusive id tid tid' := h.one tid tid' id
  stranded m hm ho := by
    have hempty := h.free m hm ho
    have hqueue := hb.queue (.waiters m) (hb.mutex_allocated m hm)
    rw [hempty] at hqueue
    refine ⟨hqueue.head, fun t ht => ?_⟩
    have := hb.mem_waiters ht
    rw [hempty] at this
    cases this

/-- A thread that becomes the owner of a mutex has blocked before all others that wait for it. -/
def InTurn (c c' : Core) : Prop :=
  ∀ m ∈ c'.mutex.list, ∀ u, c'.mutex.owner_thread m = some u → c.mutex.owner_thread m ≠ some u →
    ∀ v, c.WaitsFor m v → v ≠ u → c.WaitsFor m u ∧ c.since u < c.since v

theorem inTurn_of_owners (h : ∀ m ∈ c'.mutex.list, c'.mutex.owner_thread m = none ∨
    c'.mutex.owner_thread m = c.mutex.owner_thread m) : InTurn c c' := by
  intro m hm u hu hne
  rcases h m hm with hn | he
  · rw [hn] at hu
    cases hu
  · exact absurd (he ▸ hu) hne

/-- The first thread on the queue that is not dead has waited longest. -/
theorem Books.first_waiter (h : Books tidy k Q none) (hm : m ∈ k.mutex.list) {u : Nat}
    {dead rest : List Nat} (hQ : Q (.waiters m) = dead ++ [u] ++ rest)
    (hdead : ∀ x ∈ dead, k.thread.run_state x = .zombie) (hu : k.thread.run_state u = .blocked)
    (hx : k.WaitsFor m x) (hne : x ≠ u) : k.WaitsFor m u ∧ k.since u < k.since x := by
  have hlive : k.LiveQueue (.waiters m) := h.mutex_allocated m hm
  have hmem : u ∈ Q (.waiters m) := by simp [hQ]
  constructor
  · have hplace := h.queue_place _ hlive u hmem
    simp only [Core.place, Option.bind_eq_some_iff] at hplace
    obtain ⟨call, hcall, hq⟩ := hplace
    have hua := (h.queue_state _ hlive u hmem).resolve_left (by simp [hu])
    cases call with
    | lock id m' =>
      cases hq
      exact ⟨hua.1, hu, id, hcall⟩
    | _ => simp [Call.queue] at hq
  · have hin := h.mem_waiters hx
    have hsince := h.queue_since _ hlive
    rw [hQ] at hin hsince
    rw [List.append_assoc, List.pairwise_append] at hsince
    simp only [List.append_assoc, List.mem_append, List.mem_singleton, hne, false_or] at hin
    rcases hin with hin | hin
    · have := hdead x hin
      rw [hx.2.1] at this
      cases this
    · exact (List.pairwise_cons.mp hsince.2.1).1 x hin

theorem MutexBooks.in_turn (h : MutexBooks k.toCore Q) (hb : Books tidy k Q none)
    (hcpu : Cpu k.toCore) (ht : k.curr_proc = some t) (hmv : Move e k.toCore Q t c' Q') :
    InTurn k.toCore c' := by
  rcases hmv.mutex hb (hcpu.alive ht).1 with hmove | hs
  · cases hmove with
    | idle hq hmutex => exact inTurn_of_owners fun _ _ => Or.inr (by rw [hmutex])
    | handed hr hpc hown hmutex => exact inTurn_of_owners fun _ _ => Or.inr (by rw [hmutex])
    | destroy hr hfree hempty hmutex =>
      obtain ⟨allocated, list, hmutex⟩ := hmutex
      exact inTurn_of_owners fun _ _ => Or.inr (by rw [hmutex])
    | @create m hr hm huser hmutex =>
      refine inTurn_of_owners fun m' _ => ?_
      rw [hmutex]
      by_cases he : m' = m
      · exact Or.inl (by simp [Core.with_mutex, he])
      · exact Or.inr (by simp [Core.with_mutex, he])
    | @lock m hr hm ho hfree hmutex =>
      -- nobody waits for a mutex that is free
      intro m' hm' u hu hne v hv _
      rw [hmutex] at hu
      by_cases he : m' = m
      · subst he
        have := hb.mem_waiters hv
        rw [h.free m' hm hfree] at this
        cases this
      · simp only [Function.update_of_ne he] at hu
        exact absurd hu hne
    | @unlock m r dead rest hr hpc hm ho hown hQ hdead hnone hsome hmutex =>
      intro m' hm' u hu hne v hv hvu
      rw [hmutex] at hu
      by_cases he : m' = m
      · subst he
        simp only [Function.update_self] at hu
        subst hu
        exact hb.first_waiter hm hQ hdead (hsome u rfl) hv hvu
      · simp only [Function.update_of_ne he] at hu
        exact absurd hu hne
  · refine inTurn_of_owners fun _ _ => Or.inr ?_
    rcases hs.ended hb hcpu ht with ⟨q, call, _, _, _, rfl, _⟩ | ⟨p, _, _, hend⟩
    · rfl
    · obtain ⟨allocated, list, hmutex⟩ := hend.mutex
      rw [hmutex]

/-- The step gives no new thread the address of a thread that owns a mutex. -/
def unowned_thread (e : Event) (k : Kernel) : Bool :=
  match new_thread e k.toCore with
  | none => true
  | some u => k.mutex.list.all fun m => k.mutex.owner_thread m ≠ some u

theorem unowned_thread.spec (h : unowned_thread e k) :
    NewOwners (new_thread e k.toCore) k.toCore := by
  intro u hu m hm
  simp only [unowned_thread, hu, List.all_eq_true, decide_eq_true_eq] at h
  exact fun ho => absurd ho (h m hm)

/-- The threads that hold the mutex with the number `id`, by their numbers. -/
def holder (id : Nat) (k : Kernel) (tid : Nat) : Bool := holds_mutex tid id k.returns

/-- The protocol, in every run of the kernel next to which threads add to a counter under the mutex
`id`. The counter loses no addition, and the next step gives a mutex to the thread whose turn it
is. Code that is not part of the protocol is not interrupted halfway, and no new thread has the
address of a thread that owns a mutex, or that was killed in `getc`. -/
theorem mutex_protocol (fuel : Nat) (kernel_p4 : Word) (id : Nat)
    (es : List (Guarded.Event Event Nat)) (w : Guarded.State Kernel Nat)
    (hm : Meets (Guarded.step (step fuel) (holder id))
      (Guarded.onBase fun e k => uninterrupted e k ∧ fresh_thread e k ∧ unowned_thread e k) es
      (Guarded.start (started kernel_p4)))
    (hrun : run (Guarded.step (step fuel) (holder id)) es (Guarded.start (started kernel_p4)) =
      some w) :
    MutexProtocol w.base ∧ w.counter = w.stores ∧
      ∀ e k', uninterrupted e w.base ∧ fresh_thread e w.base ∧ unowned_thread e w.base →
        step fuel e w.base = some k' → InTurn w.base.toCore k'.toCore := by
  have hkeep : ∀ e k k', InOrder False MutexBooks k →
      uninterrupted e k ∧ fresh_thread e k ∧ unowned_thread e k → step fuel e k = some k' →
      InOrder False MutexBooks k' := by
    rintro e k k' h ⟨hwhole, hfresh, hunowned⟩ hstep
    refine h.step_fresh ⟨hwhole, hfresh⟩ (fun Q t Q' hb hb' hcpu ht hJ hmove => ?_) hstep
    exact hJ.move hb hb' hcpu ht (unowned_thread.spec hunowned) hmove
  have hone : ∀ k, InOrder False MutexBooks k → ∀ i j, holder id k i → holder id k j → i = j := by
    rintro k ⟨Q, _, _, hJ⟩ i j
    exact hJ.one i j id
  obtain ⟨⟨Q, hb, hcpu, hJ⟩, hcount⟩ := Guarded.run_counts hkeep hone
    (started_in_order (started_mutexBooks kernel_p4)) hm hrun
  refine ⟨hJ.protocol hb, hcount, ?_⟩
  rintro e k' ⟨hwhole, hfresh, _⟩ hstep
  obtain ⟨t, ht, Q', hmove, _⟩ := step.moves hb hcpu hwhole (fun u => hb.fresh hfresh)
    (fun hf => hf.elim) hstep
  exact hJ.in_turn hb hcpu ht hmove

/-- The thread 3 blocks on the mutex while the thread 2 adds to the counter, gets the mutex from it,
and adds too. -/
def handover_run : List (Guarded.Event Event Nat) :=
  (boot ++ [clone 3, .call (.mutex_create (some 7)), .call (.mutex_lock 1)]).map .base ++
    [.load 3, .base .timer, .base (.call (.mutex_lock 1)), .base .run, .store 3,
      .base (.call (.mutex_unlock 1)), .base .timer, .base .run, .load 4, .store 4]

theorem mutex_protocol_handover :
    ∃ w, run (Guarded.step (step 20) (holder 1)) handover_run (Guarded.start (started 0x1000)) =
      some w ∧ w.counter = 2 ∧ MutexProtocol w.base := by
  obtain ⟨w, hw⟩ := Option.isSome_iff_exists.mp (show (run (Guarded.step (step 20) (holder 1))
    handover_run (Guarded.start (started 0x1000))).isSome by decide +kernel)
  have hstate : (run (Guarded.step (step 20) (holder 1)) handover_run
      (Guarded.start (started 0x1000))).all (fun w => w.counter = 2) := by
    decide +kernel
  rw [hw, Option.all_some, decide_eq_true_iff] at hstate
  exact ⟨w, hw, hstate, (mutex_protocol 20 0x1000 1 handover_run w (by decide +kernel) hw).1⟩

end JamsOs
