-- The owner of a mutex is a thread that is alive and has locked it, as long as no thread ends alone
-- while it owns a mutex. `thread_exit` leaves the mutex to the record of the dead thread, and so to
-- the next thread that gets the memory of that record.
import JamsOs.MutexProtocol

namespace JamsOs

open Linked Runs

variable {tidy : Prop} {e : Event} {k k' : Kernel} {c c' : Core} {Q Q' : QueueRef → List Nat}
  {n : Ptr} {t m x fuel : Nat}

/-! ## A thread in `mutex_lock` -/

theorem PROC_reschedule.pc (h : PROC_reschedule k = some k') : k'.thread.pc = k.thread.pc := by
  simp only [PROC_reschedule, Option.bind_eq_bind, Option.bind_eq_some_iff] at h
  obtain ⟨⟨candidate, ring⟩, _, h⟩ := h
  cases h
  have hframe := congrArg (fun c : Core => c.thread.pc) (Core.elect_frame k.toCore candidate)
  exact hframe

theorem ISR33_keyboard_irq.pc (h : Books tidy k Q none) {sc ch : BitVec 8}
    (hrun : ISR33_keyboard_irq fuel sc ch k = some k') : k'.thread.pc = k.thread.pc := by
  unfold ISR33_keyboard_irq at hrun
  split at hrun
  · cases hrun
    rfl
  · split at hrun
    · simp only [Option.map_eq_some_iff] at hrun
      obtain ⟨⟨r, k1⟩, hone, rfl⟩ := hrun
      generalize (if k.kbd_buf.length + 1 < KBD_BUFFER_SIZE then k.kbd_buf ++ [ch]
        else k.kbd_buf) = kbd_buf at hone
      have h' : Books tidy { k with kbd_buf := kbd_buf } Q none := { h with }
      obtain ⟨_, _, _, _, _, _, hcore, _⟩ := PROC_unblock_one.spec (q := .kbd_wait_queue) h' trivial hone
      simp only [hcore]
      cases r <;> rfl
    · cases hrun
      rfl

/-- A thread that was given the mutex stays in its `mutex_lock` until that returns 0. -/
theorem step.in_lock (h : Books tidy k Q none) (ht : k.curr_proc = some t) {id : Nat}
    (hcall : (k.thread.pc t).call = some (.lock id m)) (hown : k.mutex.owner_thread m = some t)
    (hstep : step fuel e k = some k') :
    (k'.thread.pc t).call = some (.lock id m) ∨
      k'.returns = ⟨k.thread.tid t, .mutex_lock id, 0, none⟩ :: k.returns := by
  have hwindow : ∀ {w o k1}, k.thread.pc t = .window w → window_step fuel t w k = some (o, k1) →
      o = none ∧ k1.returns = ⟨k.thread.tid t, .mutex_lock id, 0, none⟩ :: k.returns := by
    intro w o k1 hpc hw
    rw [hpc] at hcall
    cases w with
    | lock id' m' =>
      cases hcall
      simp only [window_step, hown, if_true, Option.bind_eq_bind, Option.bind_some,
        Option.some.injEq, Prod.mk.injEq] at hw
      obtain ⟨rfl, rfl⟩ := hw
      exact ⟨rfl, Core.ret_returns _ _ _ _ _⟩
    | _ => cases hcall
  obtain ⟨t', ht', hstep⟩ := Option.bind_eq_some_iff.mp hstep
  obtain rfl : t = t' := Option.some.inj (ht.symm.trans ht')
  cases e with
  | timer =>
    obtain ⟨k1, hresched, hstep⟩ := Option.bind_eq_some_iff.mp hstep
    cases hstep
    left
    rw [isr_return_thread, PROC_reschedule.pc hresched]
    exact hcall
  | key sc ch =>
    obtain ⟨k1, hirq, hstep⟩ := Option.bind_eq_some_iff.mp hstep
    cases hstep
    left
    rw [isr_return_thread, ISR33_keyboard_irq.pc h hirq]
    exact hcall
  | run =>
    cases hpc : k.thread.pc t with
    | yield call =>
      simp only [hpc] at hstep
      obtain ⟨k1, hresched, hstep⟩ := Option.bind_eq_some_iff.mp hstep
      cases hstep
      left
      rw [hpc] at hcall
      rw [isr_return_thread, PROC_reschedule.pc hresched]
      simp only [Core.set_pc, Function.update_self, Pc.call, Call.resume_call]
      exact hcall
    | window w =>
      simp only [hpc] at hstep
      obtain ⟨_, o, k1, hw, hrest⟩ := finish.first hstep
      obtain ⟨rfl, hret⟩ := hwindow hpc hw
      obtain rfl := hrest
      exact Or.inr hret
    | _ =>
      rw [hpc] at hcall
      cases hcall
  | slice =>
    cases hpc : k.thread.pc t with
    | window w =>
      simp only [hpc] at hstep
      obtain ⟨⟨o, k1⟩, hw, hstep⟩ := Option.bind_eq_some_iff.mp hstep
      obtain ⟨rfl, hret⟩ := hwindow hpc hw
      cases hstep
      exact Or.inr hret
    | _ =>
      simp only [hpc] at hstep
      cases hstep
  | _ =>
    -- these come from places outside all calls
    cases hpc : k.thread.pc t with
    | yield | window =>
      simp only [hpc] at hstep
      cases hstep
    | _ =>
      rw [hpc] at hcall
      cases hcall

/-! ## Live owners -/

/-- Every `mutex_unlock` that returned 0 was called by the thread that held the mutex. -/
def own_unlocks : List Return → Bool
  | [] => true
  | r :: returns =>
    (match r.call with
      | .mutex_unlock id => r.value ≠ 0 || holds_mutex r.tid id returns
      | _ => true) && own_unlocks returns

theorem own_unlocks_same (h : own_unlocks c.returns) (hlog : SameHolders c c') :
    own_unlocks c'.returns := by
  rcases hlog with he | ⟨r, hr, he⟩
  · rwa [he]
  · rw [he, own_unlocks, h, Bool.and_true]
    split
    · rename_i id hcall
      by_cases hv : r.value = 0
      · exact absurd hcall (hr hv id).2
      · simp [hv]
    · rfl

/-- Owners are alive, belong to the process of their mutex, and have locked it, or were given it and
come out of `mutex_lock` when they run. -/
structure LiveOwners (c : Core) : Prop where
  alive : ∀ m ∈ c.mutex.list, ∀ u, c.mutex.owner_thread m = some u →
    c.thread.allocated u ∧ c.thread.run_state u ≠ .zombie ∧
      c.thread.owner u = c.mutex.owner_process m
  user : ∀ m ∈ c.mutex.list, c.mutex.owner_process m ≠ some kernel_process
  acquired : ∀ m ∈ c.mutex.list, ∀ u, c.mutex.owner_thread m = some u →
    holds_mutex (c.thread.tid u) (c.mutex.id m) c.returns ∨
      (c.thread.pc u).call = some (.lock (c.mutex.id m) m)
  unlocks : own_unlocks c.returns

/-- The current thread stays in its `mutex_lock` when it was given the mutex, or the call returns
0. -/
def KeepsLock (t : Nat) (c c' : Core) : Prop :=
  ∀ m, c.mutex.owner_thread m = some t → (c.thread.pc t).call = some (.lock (c.mutex.id m) m) →
    (c'.thread.pc t).call = some (.lock (c.mutex.id m) m) ∨
      holds_mutex (c.thread.tid t) (c.mutex.id m) c'.returns

/-- An owner that stays. -/
theorem LiveOwners.kept (h : LiveOwners c) (hq : Quiet n t c c') (hkeep : KeepsLock t c c')
    (hm : m ∈ c.mutex.list) {u : Nat} (hu : c.mutex.owner_thread m = some u)
    (hlog : holds_mutex (c.thread.tid u) (c.mutex.id m) c.returns →
      holds_mutex (c.thread.tid u) (c.mutex.id m) c'.returns) :
    (c'.thread.allocated u ∧ c'.thread.run_state u ≠ .zombie ∧
      c'.thread.owner u = c.mutex.owner_process m) ∧
    (holds_mutex (c'.thread.tid u) (c.mutex.id m) c'.returns ∨
      (c'.thread.pc u).call = some (.lock (c.mutex.id m) m)) := by
  obtain ⟨ha, hz, ho⟩ := h.alive m hm u hu
  obtain ⟨ha', hs⟩ := hq.kept u ha hz
  refine ⟨⟨ha', fun hz' => hz (hs.zombie.mp hz'), hs.owner.trans ho⟩, ?_⟩
  rw [hs.tid]
  rcases h.acquired m hm u hu with hh | hcall
  · exact Or.inl (hlog hh)
  · by_cases hut : u = t
    · subst hut
      exact (hkeep m hu hcall).symm
    · rcases hs.call with he | ⟨he, _⟩
      · exact Or.inr (he.trans hcall)
      · exact absurd he hut

theorem LiveOwners.idle (h : LiveOwners c) (hq : Quiet n t c c') (hkeep : KeepsLock t c c')
    (hmutex : c'.mutex = c.mutex)
    (hlog : ∀ tid id, holds_mutex tid id c.returns → holds_mutex tid id c'.returns)
    (hunlocks : own_unlocks c'.returns) : LiveOwners c' := by
  refine ⟨?_, ?_, ?_, hunlocks⟩ <;> rw [hmutex]
  · exact fun m hm u hu => (h.kept hq hkeep hm hu (hlog _ _)).1
  · exact h.user
  · exact fun m hm u hu => (h.kept hq hkeep hm hu (hlog _ _)).2

theorem own_unlocks_lock {tid id : Nat} {returns : List Return} :
    own_unlocks (⟨tid, .mutex_lock id, 0, none⟩ :: returns) = own_unlocks returns := rfl

theorem LiveOwners.create (h : LiveOwners c) (hr : Returns n t c c') (hkeep : KeepsLock t c c')
    (hm : m ∉ c.mutex.list) (huser : c.thread.owner t ≠ some kernel_process)
    (hmutex : c'.mutex = (c.with_mutex m (c.thread.owner t)).mutex) (hlog : SameHolders c c') :
    LiveOwners c' := by
  have hne : ∀ m' ∈ c.mutex.list, m' ≠ m := fun m' hm' he => hm (he ▸ hm')
  have hold : ∀ m' ∈ c'.mutex.list, ∀ u, c'.mutex.owner_thread m' = some u → m' ∈ c.mutex.list ∧
      c.mutex.owner_thread m' = some u ∧ c'.mutex.id m' = c.mutex.id m' ∧
      c'.mutex.owner_process m' = c.mutex.owner_process m' := by
    intro m' hm' u hu
    rw [hmutex] at hm' hu ⊢
    rcases List.mem_cons.mp hm' with rfl | hm'
    · simp [Core.with_mutex] at hu
    · simp only [Core.with_mutex, Function.update_of_ne (hne m' hm')] at hu ⊢
      exact ⟨hm', hu, trivial, trivial⟩
  have hlog' : ∀ tid id, holds_mutex tid id c.returns → holds_mutex tid id c'.returns :=
    fun tid id hh => (hlog.holds_mutex tid id).trans hh
  refine ⟨fun m' hm' u hu => ?_, fun m' hm' => ?_, fun m' hm' u hu => ?_,
    own_unlocks_same h.unlocks hlog⟩
  · obtain ⟨hm', hu, _, hp⟩ := hold m' hm' u hu
    rw [hp]
    exact (h.kept hr.quiet hkeep hm' hu (hlog' _ _)).1
  · rw [hmutex] at hm' ⊢
    rcases List.mem_cons.mp hm' with rfl | hm'
    · simpa [Core.with_mutex] using huser
    · simpa [Core.with_mutex, hne m' hm'] using h.user m' hm'
  · obtain ⟨hm', hu, hid, _⟩ := hold m' hm' u hu
    rw [hid]
    exact (h.kept hr.quiet hkeep hm' hu (hlog' _ _)).2

theorem LiveOwners.locked (h : LiveOwners c) (hr : Returns n t c c') (hkeep : KeepsLock t c c')
    (ha : c.thread.allocated t) (hz : c.thread.run_state t ≠ .zombie)
    (ho : c.mutex.owner_process m = c.thread.owner t)
    (hmutex : c'.mutex =
      { c.mutex with owner_thread := Function.update c.mutex.owner_thread m (some t) })
    (hlog : c'.returns = ⟨c.thread.tid t, .mutex_lock (c.mutex.id m), 0, none⟩ :: c.returns) :
    LiveOwners c' := by
  have hlog' : ∀ tid id, holds_mutex tid id c.returns → holds_mutex tid id c'.returns := by
    intro tid id hh
    rw [hlog, holds_mutex_lock]
    exact Or.inr hh
  obtain ⟨ha', hs⟩ := hr.quiet.kept t ha hz
  refine ⟨?_, ?_, ?_, ?_⟩
  · rw [hmutex]
    intro m' hm' u hu
    by_cases he : m' = m
    · subst he
      obtain rfl : t = u := by simpa using hu
      exact ⟨ha', fun hz' => hz (hs.zombie.mp hz'), hs.owner.trans ho.symm⟩
    · simp only [Function.update_of_ne he] at hu
      exact (h.kept hr.quiet hkeep hm' hu (hlog' _ _)).1
  · rw [hmutex]
    exact h.user
  · rw [hmutex]
    intro m' hm' u hu
    by_cases he : m' = m
    · subst he
      obtain rfl : t = u := by simpa using hu
      rw [hlog, hr.tid, holds_mutex_lock]
      exact Or.inl (Or.inl ⟨rfl, rfl⟩)
    · simp only [Function.update_of_ne he] at hu
      exact (h.kept hr.quiet hkeep hm' hu (hlog' _ _)).2
  · rw [hlog, own_unlocks_lock]
    exact h.unlocks

theorem LiveOwners.unlocked (h : LiveOwners k.toCore) (hM : MutexBooks k.toCore Q)
    (hb : Books tidy k Q none) (hr : Returns n t k.toCore c') (hkeep : KeepsLock t k.toCore c')
    (hpc : k.thread.pc t = .user) (hm : m ∈ k.mutex.list) (hown : k.mutex.owner_thread m = some t)
    {r : Ptr} {dead rest : List Nat} (hQ : Q (.waiters m) = dead ++ r.toList ++ rest)
    (hsome : ∀ x, r = some x → k.thread.run_state x = .blocked)
    (hmutex : c'.mutex = { k.mutex with owner_thread := Function.update k.mutex.owner_thread m r })
    (hlog : c'.returns = ⟨k.thread.tid t, .mutex_unlock (k.mutex.id m), 0, none⟩ :: k.returns) :
    LiveOwners c' := by
  have hlog' : ∀ m' ∈ k.mutex.list, m' ≠ m → ∀ tid, holds_mutex tid (k.mutex.id m') k.returns →
      holds_mutex tid (k.mutex.id m') c'.returns := by
    intro m' hm' hne tid hh
    rw [hlog, holds_mutex_unlock]
    exact ⟨fun he => hne (hM.id_inj m' hm' m hm he.2.symm), hh⟩
  -- the new owner comes from the queue of the mutex
  have hnew : ∀ u, r = some u → k.thread.allocated u ∧ k.thread.owner u = k.mutex.owner_process m ∧
      (k.thread.pc u).call = some (.lock (k.mutex.id m) m) := by
    intro u hu
    have hlive : k.LiveQueue (.waiters m) := hb.mutex_allocated m hm
    have hin : u ∈ Q (.waiters m) := by simp [hQ, hu]
    obtain ⟨hua, hub⟩ := (hb.queue_state _ hlive u hin).resolve_left (by simp [hsome u hu])
    refine ⟨hua, hb.mutex_waiters m hlive u hin, ?_⟩
    have hplace := hb.queue_place _ hlive u hin
    simp only [Core.place, Option.bind_eq_some_iff] at hplace
    obtain ⟨call, hcall, hq⟩ := hplace
    cases call with
    | lock id m' =>
      cases hq
      obtain ⟨_, rfl, _⟩ := hM.lock u id m hua (by simp [hub]) hcall
      exact hcall
    | _ => simp [Call.queue] at hq
  refine ⟨?_, ?_, ?_, ?_⟩
  · rw [hmutex]
    intro m' hm' u hu
    by_cases he : m' = m
    · subst he
      simp only [Function.update_self] at hu
      obtain ⟨hua, huo, _⟩ := hnew u hu
      obtain ⟨hua', hs⟩ := hr.quiet.kept u hua (by simp [hsome u hu])
      exact ⟨hua', fun hz' => by simpa [hsome u hu] using hs.zombie.mp hz', hs.owner.trans huo⟩
    · simp only [Function.update_of_ne he] at hu
      exact (h.kept hr.quiet hkeep hm' hu (hlog' m' hm' he _)).1
  · rw [hmutex]
    exact h.user
  · rw [hmutex]
    intro m' hm' u hu
    by_cases he : m' = m
    · subst he
      simp only [Function.update_self] at hu
      obtain ⟨hua, _, hcall⟩ := hnew u hu
      obtain ⟨_, hs⟩ := hr.quiet.kept u hua (by simp [hsome u hu])
      right
      rcases hs.call with hc | ⟨rfl, _⟩
      · exact hc.trans hcall
      · rw [hpc] at hcall
        cases hcall
    · simp only [Function.update_of_ne he] at hu
      exact (h.kept hr.quiet hkeep hm' hu (hlog' m' hm' he _)).2
  · have hheld : holds_mutex (k.thread.tid t) (k.mutex.id m) k.returns := by
      refine (h.acquired m hm t hown).resolve_right ?_
      rw [hpc]
      exact fun hcall => by cases hcall
    rw [hlog]
    simp [own_unlocks, hheld, h.unlocks]

/-- Mutexes went, and nothing else has changed for the owners of the rest. -/
theorem LiveOwners.destroyed (h : LiveOwners c) (hr : Returns n t c c') (hkeep : KeepsLock t c c')
    (hmutex : ∃ allocated list, c'.mutex = { c.mutex with allocated := allocated, list := list })
    (hlist : ∀ m', m' ∈ c'.mutex.list ↔ m' ≠ m ∧ m' ∈ c.mutex.list) (hlog : SameHolders c c') :
    LiveOwners c' := by
  obtain ⟨allocated, list, hmutex⟩ := hmutex
  have hsub : ∀ m' ∈ c'.mutex.list, m' ∈ c.mutex.list := fun m' hm' => ((hlist m').mp hm').2
  have hlog' : ∀ tid id, holds_mutex tid id c.returns → holds_mutex tid id c'.returns :=
    fun tid id hh => (hlog.holds_mutex tid id).trans hh
  have hown : c'.mutex.owner_thread = c.mutex.owner_thread := by rw [hmutex]
  have hproc : c'.mutex.owner_process = c.mutex.owner_process := by rw [hmutex]
  have hid : c'.mutex.id = c.mutex.id := by rw [hmutex]
  refine ⟨?_, ?_, ?_, own_unlocks_same h.unlocks hlog⟩
  · rw [hown, hproc]
    exact fun m' hm' u hu => (h.kept hr.quiet hkeep (hsub m' hm') hu (hlog' _ _)).1
  · rw [hproc]
    exact fun m' hm' => h.user m' (hsub m' hm')
  · rw [hown, hid]
    exact fun m' hm' u hu => (h.kept hr.quiet hkeep (hsub m' hm') hu (hlog' _ _)).2

theorem LiveOwners.blocked_in (h : LiveOwners c) {call : Call}
    (hkeep : KeepsLock t c (c.blocked_in t call)) : LiveOwners (c.blocked_in t call) := by
  refine { h with alive := fun m hm u hu => ?_, acquired := fun m hm u hu => ?_ }
  · obtain ⟨ha, hz, ho⟩ := h.alive m hm u hu
    refine ⟨ha, ?_, ho⟩
    by_cases hut : u = t
    · simp [Core.blocked_in, Core.set_run_state, hut]
    · simpa [Core.blocked_in, Core.set_run_state, hut] using hz
  · rcases h.acquired m hm u hu with hh | hcall
    · exact Or.inl hh
    · by_cases hut : u = t
      · subst hut
        exact (hkeep m hu hcall).symm
      · exact Or.inr (by simpa [Core.blocked_in, Core.set_run_state, hut] using hcall)

/-- A thread that ends alone owns no mutex. -/
def exits_unlocked (e : Event) (k : Kernel) : Bool :=
  match e, k.curr_proc with
  | .call (.thread_exit _), some t =>
    k.mutex.list.all (fun m => k.mutex.owner_thread m ≠ some t) ||
      (k.thread.owner t).all fun p => k.process.live_threads p = 1
  | _, _ => true

theorem LiveOwners.ended {p : Nat} (h : LiveOwners k.toCore) (ht : k.curr_proc = some t)
    (ho : k.thread.owner t = some p) (hok : exits_unlocked e k)
    (hend : Ended e k.toCore Q t p c' Q') (hlog : c'.returns = k.returns) : LiveOwners c' := by
  obtain ⟨run_state, exit_status, hthread⟩ := hend.thread
  obtain ⟨allocated, list, hmutex⟩ := hend.mutex
  have hown : c'.mutex.owner_thread = k.mutex.owner_thread := by rw [hmutex]
  have hproc : c'.mutex.owner_process = k.mutex.owner_process := by rw [hmutex]
  have hid : c'.mutex.id = k.mutex.id := by rw [hmutex]
  have hsub : ∀ m ∈ c'.mutex.list, m ∈ k.mutex.list := by
    intro m hm
    rcases hend.ends with ⟨hsame, _⟩ | ⟨hlist, _⟩
    · rwa [hsame] at hm
    · exact ((hlist m).mp hm).1
  refine ⟨fun m hm u hu => ?_, fun m hm => ?_, fun m hm u hu => ?_, hlog ▸ h.unlocks⟩
  · rw [hown] at hu
    obtain ⟨hua, huz, huo⟩ := h.alive m (hsub m hm) u hu
    refine ⟨by rw [hthread]; exact hua, fun hz => ?_, by rw [hthread, hproc]; exact huo⟩
    rcases hend.ends with ⟨_, he, hlive, hdead⟩ | ⟨hlist, _, hdead⟩
    · rcases hdead u hz with hz' | rfl
      · exact huz hz'
      rcases he with ⟨status, rfl⟩ | rfl
      · simp only [exits_unlocked, ht, ho, Bool.or_eq_true, List.all_eq_true, decide_eq_true_eq,
          Option.all_some] at hok
        rcases hok with hnone | hone
        · exact hnone m (hsub m hm) hu
        · omega
      · exact h.user m (hsub m hm) (huo.symm.trans ho)
    · rcases hdead u hz with hz' | hup
      · exact huz hz'
      · exact ((hlist m).mp hm).2 (huo.symm.trans hup)
  · rw [hproc]
    exact h.user m (hsub m hm)
  · rw [hown] at hu
    rw [hid, hlog, hthread]
    exact h.acquired m (hsub m hm) u hu

theorem LiveOwners.move (h : LiveOwners k.toCore) (hM : MutexBooks k.toCore Q)
    (hb : Books tidy k Q none) (hcpu : Cpu k.toCore) (ht : k.curr_proc = some t)
    (hok : exits_unlocked e k) (hkeep : KeepsLock t k.toCore c')
    (hmv : Move e k.toCore Q t c' Q') : LiveOwners c' := by
  obtain ⟨ha, hz⟩ := hcpu.alive ht
  rcases hmv.mutex hb (hcpu.alive ht).1 with hmove | hs
  · cases hmove with
    | idle hq hmutex hQ hlog =>
      exact h.idle hq hkeep hmutex (fun tid id hh => (hlog.holds_mutex tid id).trans hh)
        (own_unlocks_same h.unlocks hlog)
    | create hr hm huser hmutex hlog => exact h.create hr hkeep hm huser hmutex hlog
    | lock hr hm ho hfree hmutex hlog => exact h.locked hr hkeep ha hz ho hmutex hlog
    | handed hr hpc hown hmutex hlog =>
      refine h.idle hr.quiet hkeep hmutex (fun tid id hh => ?_) ?_
      · rw [hlog, holds_mutex_lock]
        exact Or.inr hh
      · rw [hlog, own_unlocks_lock]
        exact h.unlocks
    | unlock hr hpc hm ho hown hQ hdead hnone hsome hmutex hlog =>
      exact h.unlocked hM hb hr hkeep hpc hm hown hQ hsome hmutex hlog
    | destroy hr hfree hempty hmutex hlist hlog => exact h.destroyed hr hkeep hmutex hlist hlog
  · rcases hs.ended hb hcpu ht with ⟨q, call, _, _, _, rfl, _⟩ | ⟨p, ho, _, hend⟩
    · exact h.blocked_in hkeep
    · exact h.ended ht ho hok hend hs.returns

/-! ## Owners in every run -/

/-- The owner of a mutex is none or a live thread of the process of the mutex, and only the thread
that holds a mutex unlocks it. -/
structure MutexOwners (k : Kernel) : Prop where
  owner : ∀ m ∈ k.mutex.list, k.mutex.owner_thread m = none ∨
    ∃ u, k.mutex.owner_thread m = some u ∧ k.thread.allocated u ∧ k.thread.run_state u ≠ .zombie ∧
      k.thread.owner u = k.mutex.owner_process m
  unlocks : own_unlocks k.returns

/-- Owners are alive in every state that a run comes to, when no thread ends alone while it owns a
mutex, no code is interrupted halfway, and no address of a thread that was killed in `getc` is used
again. -/
theorem mutex_owners_alive (fuel : Nat) (kernel_p4 : Word) (es : List Event) (k : Kernel)
    (hm : Meets (step fuel) (fun e k => uninterrupted e k ∧ fresh_thread e k ∧ exits_unlocked e k) es
      (started kernel_p4))
    (hrun : run (step fuel) es (started kernel_p4) = some k) : MutexOwners k := by
  have hin : InOrder False (fun c Q => MutexBooks c Q ∧ LiveOwners c) k := by
    refine run_keeps_of_meets (I := InOrder False fun c Q => MutexBooks c Q ∧ LiveOwners c) ?_
      (started_in_order ⟨started_mutexBooks kernel_p4, nofun, nofun, nofun, rfl⟩) hm hrun
    rintro e s s' h ⟨hwhole, hfresh, hok⟩ hstep
    refine h.step_fresh ⟨hwhole, hfresh⟩ (fun Q t Q' hb hb' hcpu ht hJ hmove => ?_) hstep
    obtain ⟨hM, hL⟩ := hJ
    have hnew : NewOwners (new_thread e s.toCore) s.toCore := by
      intro u _ m hm hu
      obtain ⟨hua, huz, _⟩ := hL.alive m hm u hu
      exact ⟨hua, huz⟩
    have hkeep : KeepsLock t s.toCore s'.toCore := by
      intro m hown hcall
      refine (step.in_lock hb ht hcall hown hstep).imp_right fun hret => ?_
      rw [hret, holds_mutex_lock]
      exact Or.inl ⟨rfl, rfl⟩
    exact ⟨hM.move hb hb' hcpu ht hnew hmove, hL.move hM hb hcpu ht hok hkeep hmove⟩
  obtain ⟨Q, hb, hcpu, hM, hL⟩ := hin
  refine ⟨fun m hm => ?_, hL.unlocks⟩
  cases hu : k.mutex.owner_thread m with
  | none => exact Or.inl rfl
  | some u => exact Or.inr ⟨u, rfl, hL.alive m hm u hu⟩

/-- The thread 3 waits for the mutex of the thread 2, gets it, and unlocks it. -/
theorem mutex_owners_alive_handover :
    ∃ k, run (step 20) (boot ++ [clone 3, .call (.mutex_create (some 7)), .call (.mutex_lock 1), .timer,
        .call (.mutex_lock 1), .run, .call (.mutex_unlock 1), .timer, .run, .call (.mutex_unlock 1)])
      (started 0x1000) = some k ∧ MutexOwners k := by
  obtain ⟨k, hk⟩ := Option.isSome_iff_exists.mp (show (run (step 20)
    (boot ++ [clone 3, .call (.mutex_create (some 7)), .call (.mutex_lock 1), .timer,
      .call (.mutex_lock 1), .run, .call (.mutex_unlock 1), .timer, .run, .call (.mutex_unlock 1)])
    (started 0x1000)).isSome by decide +kernel)
  exact ⟨k, hk, mutex_owners_alive 20 0x1000 _ k (by decide +kernel) hk⟩

/-- The thread 2 locks the mutex and ends. The thread 3 joins it, and starts a thread that gets the
memory of the thread 2. The new thread unlocks the mutex, which it has never locked. -/
def dead_owner_run : List Event :=
  boot ++ [clone 3, .call (.mutex_create (some 7)), .call (.mutex_lock 1), .call (.thread_exit 0),
    .call (.thread_join 3 0), clone 2, .timer, .call (.mutex_unlock 1)]

theorem new_thread_unlocks_for_dead_owner :
    ∃ k, run (step 20) dead_owner_run (started 0x1000) = some k ∧ ¬MutexOwners k := by
  obtain ⟨k, hk⟩ := Option.isSome_iff_exists.mp
    (show (run (step 20) dead_owner_run (started 0x1000)).isSome by decide +kernel)
  have hstate : (run (step 20) dead_owner_run (started 0x1000)).all
      (fun k => own_unlocks k.returns = false) := by
    decide +kernel
  rw [hk, Option.all_some, decide_eq_true_iff] at hstate
  refine ⟨k, hk, fun h => ?_⟩
  have := h.unlocks
  rw [hstate] at this
  cases this

end JamsOs
