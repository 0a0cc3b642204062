-- The law of wakeups in `thread_join` and `wait`: no thread sleeps for what has happened already. It
-- holds as long as the code that looks again after a wakeup is not interrupted, and fails otherwise.
import JamsOs.QuietMoves
import JamsOs.SchedulerState

namespace JamsOs

open Linked Runs

variable {tidy : Prop} {e : Event} {k : Kernel} {c c' : Core} {Q Q' : QueueRef → List Nat}
  {n : Ptr} {t p x : Nat}

/-- No thread is blocked in `thread_join` when its target is dead, and none is blocked in `wait` when
its process has a zombie child. -/
structure NoLostWakeup (c : Core) : Prop where
  join : ∀ t tid status, c.thread.allocated t → c.thread.run_state t = .blocked →
    (c.thread.pc t).call = some (.join tid status) → ∀ target, c.thread.allocated target →
    c.thread.owner target = c.thread.owner t → c.thread.tid target = tid →
    c.thread.run_state target ≠ .zombie
  wait : ∀ t status, c.thread.allocated t → c.thread.run_state t = .blocked →
    (c.thread.pc t).call = some (.wait status) → ∀ child, c.process.allocated child →
    c.process.parent child = c.thread.owner t → c.process.zombie child = false

theorem started_no_lost_wakeup (kernel_p4 : Word) : NoLostWakeup (started kernel_p4).toCore where
  join _ _ _ _ hb := nomatch hb
  wait _ _ _ hb := nomatch hb

theorem NoLostWakeup.quiet (h : NoLostWakeup c) (hq : Quiet n t c c') : NoLostWakeup c' := by
  constructor
  · intro x tid status hx hb hcall target hta hto htid hz
    obtain ⟨hs, hcall'⟩ := hq.in_call hx hcall
    rcases hq.thread target hta with hst | ⟨_, hn⟩
    · refine h.join x tid status hs.allocated (hs.blocked hb) hcall' target hst.allocated ?_
        (hst.tid.symm.trans htid) (hst.zombie.mp hz)
      rw [← hst.owner, ← hs.owner]
      exact hto
    · exact hn.alive hz
  · intro x status hx hb hcall child hca hpar
    obtain ⟨hs, hcall'⟩ := hq.in_call hx hcall
    rcases hq.process child hca with ⟨hca', _, hpar', hz'⟩ | ⟨_, hz'⟩
    · rw [hz']
      refine h.wait x status hs.allocated (hs.blocked hb) hcall' child hca' ?_
      rw [← hpar', ← hs.owner]
      exact hpar
    · exact hz'

/-! ## Every move keeps the law -/

section

variable (hl : NoLostWakeup k.toCore) (h : Books tidy k Q none)

include hl h

/-- One thread ends, and the threads that join a thread of its process wake up. -/
theorem NoLostWakeup.thread_killed (ho : k.thread.owner t = some p) (status : Int) :
    NoLostWakeup ((k.toCore.thread_killed t p status).all_woken (Q (.wait_thread_exit p))) where
  join x tid st hx hb hcall target hta hto htid hz := by
    obtain ⟨_, hin, hb'⟩ := Core.killed_blocked hb
    rcases Core.killed_zombie.mp hz with hS | hz'
    · obtain rfl := of_decide_eq_true hS
      have hcall' : (k.thread.pc x).call = some (.join tid st) := hcall
      have hxo : k.thread.owner x = some p := hto.symm.trans ho
      exact hin (h.mem_queue hx hb' (by simp [Core.place, hcall', hxo, Call.queue]))
    · exact hl.join x tid st hx hb' hcall target hta hto htid hz'
  wait x st hx hb hcall child hca hpar :=
    hl.wait x st hx (Core.killed_blocked hb).2.2 hcall child hca hpar

/-- A process ends, and the threads that wait for a child of its parent wake up. -/
theorem NoLostWakeup.torn_down (hcpu : Cpu k.toCore) {parent : Nat} {status status' : Int}
    (hp : k.process.allocated p) (hpk : p ≠ kernel_process)
    (hparent : k.process.parent p = some parent) {S : Nat → Bool}
    (hS : ∀ x y, k.thread.allocated x → k.thread.run_state x ≠ .zombie → S y →
      k.thread.owner y = k.thread.owner x → S x)
    {c1 : Core} (hthread : c1.thread = (k.killed S status').thread)
    (hproc : c1.process.allocated = k.process.allocated ∧ c1.process.parent = k.process.parent ∧
      c1.process.zombie = k.process.zombie) :
    NoLostWakeup ((c1.torn_down p status).all_woken (Q (.wait_child_exit parent))) := by
  obtain ⟨cr3, process_cr3, p4s, hframe⟩ := c1.torn_down_frame p status
  have hth : ((c1.torn_down p status).all_woken (Q (.wait_child_exit parent))).thread =
      ((k.killed S status').all_woken (Q (.wait_child_exit parent))).thread :=
    Core.all_woken_thread ((c1.torn_down_thread p status).trans hthread) _
  have hpne : parent ≠ p := by
    rintro rfl
    obtain ⟨q, hq, _, _, hpid⟩ := h.parent parent hp hpk
    rw [hparent] at hq
    rw [← Option.some.inj hq] at hpid
    exact lt_irrefl _ hpid
  constructor
  · rw [hth]
    intro x tid st hx hb hcall target hta hto htid hz
    obtain ⟨hxS, _, hb'⟩ := Core.killed_blocked hb
    rcases Core.killed_zombie.mp hz with hS' | hz'
    · exact hxS (hS x target hx (by rw [hb']; nofun) hS' hto)
    · exact hl.join x tid st hx hb' hcall target hta hto htid hz'
  · rw [hth]
    intro x st hx hb hcall child hca hpar
    obtain ⟨_, hin, hb'⟩ := Core.killed_blocked hb
    have hcall : (k.thread.pc x).call = some (.wait st) := hcall
    rw [hframe] at hca hpar ⊢
    simp only [Core.all_woken, Core.without_mutexes, Core.bury, hproc.1, hproc.2.1,
      hproc.2.2] at hca hpar ⊢
    have hpar' : (if k.process.allocated child ∧ child ≠ kernel_process ∧
        k.process.parent child = some p then some kernel_process else k.process.parent child) =
        k.thread.owner x := hpar
    by_cases hcp : child = p
    · -- the waiting threads of the parent were woken
      subst hcp
      rw [if_neg (fun hc => hpne (Option.some.inj (hparent.symm.trans hc.2.2))), hparent] at hpar'
      exact absurd (h.mem_queue hx hb' (by
        simp [Core.place, hcall, Call.queue, ← hpar'])) hin
    · rw [Function.update_of_ne hcp]
      split at hpar'
      · rw [hcpu.kernel_pc x hx hpar'.symm] at hcall
        cases hcall
      · exact hl.wait x st hx hb' hcall child hca hpar'

theorem NoLostWakeup.blocked_in {call : Call} (hwait : k.MustWait t call) :
    NoLostWakeup (k.toCore.blocked_in t call) := by
  have hzombie : ∀ x, (k.toCore.blocked_in t call).thread.run_state x = .zombie →
      k.thread.run_state x = .zombie := by
    intro x hx
    by_cases he : x = t
    · simp [Core.blocked_in, Core.set_run_state, he] at hx
    · simpa [Core.blocked_in, Core.set_run_state, he] using hx
  constructor
  · intro x tid st hx hb hcall target hta hto htid hdead
    have hz' := hzombie target hdead
    by_cases he : x = t
    · subst he
      simp only [Core.blocked_in, Function.update_self, Pc.call, Option.some.injEq] at hcall
      subst hcall
      obtain ⟨target', hta', _, htid', hnz⟩ := hwait
      have : target = target' := h.tid_inj target target' hta hta' (htid.trans htid'.symm)
      exact hnz (this ▸ hz')
    · refine hl.join x tid st hx ?_ ?_ target hta hto htid hz'
      · simpa [Core.blocked_in, Core.set_run_state, he] using hb
      · simpa [Core.blocked_in, he] using hcall
  · intro x st hx hb hcall child hca hpar
    by_cases he : x = t
    · subst he
      simp only [Core.blocked_in, Function.update_self, Pc.call, Option.some.injEq] at hcall
      subst hcall
      by_cases hk : child = kernel_process
      · exact hk ▸ h.kernel_zombie
      · exact hwait child hca hk hpar
    · refine hl.wait x st hx ?_ ?_ child hca hpar
      · simpa [Core.blocked_in, Core.set_run_state, he] using hb
      · simpa [Core.blocked_in, he] using hcall

theorem NoLostWakeup.stop (hcpu : Cpu k.toCore) (ht : k.curr_proc = some t)
    (hs : Stop e k.toCore Q t c' Q') :
    NoLostWakeup c' := by
  obtain ⟨ha, hz⟩ := hcpu.alive ht
  cases hs with
  | @block q call hpc huser hq hwait => exact hl.blocked_in h hwait
  | @exit_thread candidate p status hpc hmain ho he hlive hpick =>
    have h1 := hl.thread_killed h ho status
    refine NoLostWakeup.quiet (n := none) (t := t) ?_ (Quiet.elect hpick).isr_return
    exact { h1 with }
  | @exit_process candidate p parent status c1 Q' hpc hmain ho hp hc1 hparent hpick hQp hQt hQ =>
    obtain ⟨p', ho', hpa⟩ := h.owner t ha
    obtain rfl : p = p' := Option.some.inj (ho.symm.trans ho')
    refine NoLostWakeup.quiet (n := none) (t := t) ?_ (Quiet.elect hpick).isr_return
    have h1 : NoLostWakeup ((c1.torn_down p status).all_woken (Q (.wait_child_exit parent))) := by
      rcases hc1 with ⟨rfl, _⟩ | ⟨rfl, hlive⟩
      · refine hl.torn_down h hcpu hpa hp hparent (S := k.thread_of p) ?_ rfl ⟨rfl, rfl, rfl⟩
        intro x y hx _ hy hyx
        simp only [Core.thread_of, Bool.and_eq_true, decide_eq_true_eq] at hy ⊢
        exact ⟨hx, hyx.symm.trans hy.2⟩
      · refine hl.torn_down h hcpu hpa hp hparent (S := (· = t)) ?_ rfl ⟨rfl, rfl, rfl⟩
        intro x y hx hxz hy hyx
        obtain rfl := of_decide_eq_true hy
        exact decide_eq_true (h.sole_thread hpa hlive ha ho hz hx (hyx.symm.trans ho) hxz)
    exact { h1 with }

end

/-- No wakeup is lost, when no code is interrupted halfway and no address of a thread that was killed
in `getc` is used again. -/
theorem no_lost_wakeup (fuel : Nat) (kernel_p4 : Word) (es : List Event) (k : Kernel)
    (hm : Meets (step fuel) (fun e k => uninterrupted e k ∧ fresh_thread e k) es (started kernel_p4))
    (hrun : run (step fuel) es (started kernel_p4) = some k) : NoLostWakeup k.toCore := by
  obtain ⟨_, _, _, hl⟩ := run_in_order (J := fun c _ => NoLostWakeup c) (fun _ _ h => h)
    (started_no_lost_wakeup kernel_p4)
    (fun e k k' Q t Q' hbooks _ hcpu ht _ hl hmove => by
      rcases hmove.quiet hbooks (hcpu.alive ht).1 with hq | hs
      · exact hl.quiet hq
      · exact hl.stop hbooks hcpu ht hs) hm hrun
  exact hl

/-- The thread 2 joins the thread 3, which ends and wakes it. -/
theorem no_lost_wakeup_join :
    ∃ k, run (step 20) (boot ++ [clone 3, .call (.thread_join 4 0), .run, .call (.thread_exit 7), .run])
      (started 0x1000) = some k ∧ NoLostWakeup k.toCore := by
  obtain ⟨k, hk⟩ := Option.isSome_iff_exists.mp (show (run (step 20)
    (boot ++ [clone 3, .call (.thread_join 4 0), .run, .call (.thread_exit 7), .run])
    (started 0x1000)).isSome by decide +kernel)
  exact ⟨k, hk, no_lost_wakeup 20 0x1000 _ k (by decide +kernel) hk⟩

/-- The thread 2 joins the thread 3, and is woken by the end of the thread 4. It looks at the thread
3, and is interrupted before it blocks. Then the thread 3 ends, and the thread 2 blocks. -/
def lost_wakeup_run : List Event :=
  boot ++ [clone 3, clone 4, .call (.thread_join 4 0), .run, .timer, .call (.thread_exit 0), .timer,
    .slice, .slice, .timer, .call (.thread_exit 0), .slice]

theorem join_sleeps_after_end :
    ∃ k, run (step 20) lost_wakeup_run (started 0x1000) = some k ∧ ¬NoLostWakeup k.toCore := by
  obtain ⟨k, hk⟩ := Option.isSome_iff_exists.mp
    (show (run (step 20) lost_wakeup_run (started 0x1000)).isSome by decide +kernel)
  have hstate : (run (step 20) lost_wakeup_run (started 0x1000)).all (fun k =>
      k.thread.allocated 2 ∧ k.thread.run_state 2 = .blocked ∧
      (k.thread.pc 2).call = some (.join 4 0) ∧ k.thread.allocated 3 ∧
      k.thread.owner 3 = k.thread.owner 2 ∧ k.thread.tid 3 = 4 ∧
      k.thread.run_state 3 = .zombie) := by
    decide +kernel
  rw [hk, Option.all_some, decide_eq_true_iff] at hstate
  obtain ⟨h2, hb, hcall, h3, ho, htid, hz⟩ := hstate
  exact ⟨k, hk, fun h => h.join 2 4 0 h2 hb hcall 3 h3 ho htid hz⟩

end JamsOs
