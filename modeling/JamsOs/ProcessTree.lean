-- The laws of the process tree and of the counts of threads, and of what `wait` reaps. They hold as
-- long as no code is interrupted halfway. Two threads that wait at the same time reap one child twice.
import JamsOs.QuietMoves
import JamsOs.SchedulerState

namespace JamsOs

open Linked Runs

variable {tidy : Prop} {e : Event} {k k' : Kernel} {c c' : Core} {Q Q' : QueueRef → List Nat}
  {t p : Nat}

/-! ## What `wait` returns -/

/-- What the return of a `wait` says: there was no child, or a zombie child of the caller was freed. -/
def Reaps (c c' : Core) (t : Nat) (r : Return) : Prop :=
  ∀ status, r.call = .wait status →
    r.value = -1 ∧ r.status = none ∨
    ∃ p child, r.tid = c.thread.tid t ∧ c.thread.owner t = some p ∧ c.process.allocated child ∧
      c.process.parent child = some p ∧ c.process.zombie child ∧ r.value = c.process.pid child ∧
      r.status = stored status (c.process.exit_status child) ∧ ¬c'.process.allocated child

/-- Another call than `wait` returns. -/
theorem reaps_of_ret {c1 : Core} {call : Syscall} {value : Int} {status : Option Int}
    (hc1 : c1.returns = c.returns) (hcall : ∀ st, call ≠ .wait st) :
    (c1.ret t call value status).returns = c.returns ∨
      ∃ r, (c1.ret t call value status).returns = r :: c.returns ∧
        Reaps c (c1.ret t call value status) t r :=
  Or.inr ⟨_, (Core.ret_returns _ _ _ _ _).trans (congrArg _ hc1), fun st hst => absurd hst (hcall st)⟩

/-- A move appends at most one return to the log, and that of a `wait` tells what was reaped. -/
theorem Move.reaps (hm : Move e c Q t c' Q') :
    c'.returns = c.returns ∨ ∃ r, c'.returns = r :: c.returns ∧ Reaps c c' t r := by
  cases hm with
  | stop hs => exact Or.inl hs.returns
  | timer | key_ignored | key | resume =>
    left
    simp [Core.set_pc]
  | create_kthread | no_kthread | kthread | kthread_fails | exec | elf_load | elf_loaded | uthread =>
    exact Or.inl rfl
  | elf_fails => exact Or.inl (MMU_destroy_p4.returns _ _)
  | uthread_fails hpc hc1 => exact Or.inl ((MMU_destroy_p4.returns _ _).trans hc1.returns)
  | fails hpc hvalue =>
    refine Or.inr ⟨_, Core.ret_returns _ _ _ _ _, fun st hst => ?_⟩
    rcases hvalue with hv | ⟨hcall, _⟩
    · exact Or.inl ⟨hv, rfl⟩
    · rw [hcall] at hst
      cases hst
  | @wait status p child ts hpc hfrom ho hchild hne hparent hz hts =>
    refine Or.inr ⟨_, Core.ret_returns _ _ _ _ _, fun st hst => ?_⟩
    cases hst
    refine Or.inr ⟨p, child, rfl, ho, hchild, hparent, hz, rfl, rfl, ?_⟩
    simp [Core.child_reaped, PROC_free_process]
  | yield => exact reaps_of_ret (Core.elect_returns _ _) (by simp)
  | unlock => exact reaps_of_ret (Core.woken_returns _ _) (by simp)
  | fork_fails hpc hp4 hc1 => exact reaps_of_ret ((MMU_destroy_p4.returns _ _).trans hc1.returns) (by simp)
  | exec_fails => exact reaps_of_ret (MMU_destroy_p4.returns _ _) (by simp)
  | exec_done hpc ho hc1 =>
    refine reaps_of_ret ?_ (by simp)
    split
    · rw [MMU_destroy_p4.returns, hc1]
    · rw [hc1]
  | _ => exact reaps_of_ret rfl (by simp)

/-! ## Reaping once -/

/-- The number of the child that a `wait` has reaped. -/
def Return.reaped (r : Return) : Option Int :=
  match r.call with
  | .wait _ => if r.value = -1 then none else some r.value
  | _ => none

/-- The numbers of all children that were reaped, the latest first. -/
def Core.reaped (c : Core) : List Int := c.returns.filterMap Return.reaped

/-- The children that were reaped are no longer there, and were different ones. -/
structure ReapedOnce (c : Core) : Prop where
  nodup : c.reaped.Nodup
  lt : ∀ pid ∈ c.reaped, pid < c.next_pid
  gone : ∀ p, c.process.allocated p → (c.process.pid p : Int) ∉ c.reaped

theorem ReapedOnce.same (h : ReapedOnce c) (hr : c'.reaped = c.reaped)
    (hnext : c.next_pid ≤ c'.next_pid)
    (hp : ∀ p, c'.process.allocated p →
      c.process.allocated p ∧ c'.process.pid p = c.process.pid p ∨ c.next_pid ≤ c'.process.pid p) :
    ReapedOnce c' where
  nodup := hr ▸ h.nodup
  lt pid hpid := by
    have := h.lt pid (hr ▸ hpid)
    omega
  gone p ha hin := by
    rw [hr] at hin
    rcases hp p ha with ⟨ha', hpid⟩ | hle
    · exact h.gone p ha' (hpid ▸ hin)
    · have := h.lt _ hin
      omega

theorem Stop.process_kept (hs : Stop e c Q t c' Q') : c'.process.allocated = c.process.allocated ∧
    c'.process.pid = c.process.pid ∧ c'.next_pid = c.next_pid := by
  have hfinal : ∀ (c1 : Core) candidate, (isr_return (c1.elect candidate)).process = c1.process ∧
      (isr_return (c1.elect candidate)).next_pid = c1.next_pid := by
    intro c1 candidate
    obtain ⟨curr, next, cr3, rsp0, hframe⟩ := isr_return.frame (c1.elect candidate)
    rw [hframe, Core.elect_frame]
    exact ⟨rfl, rfl⟩
  cases hs with
  | block => exact ⟨rfl, rfl, rfl⟩
  | exit_thread =>
    rw [(hfinal _ _).1, (hfinal _ _).2]
    exact ⟨rfl, rfl, rfl⟩
  | @exit_process candidate p parent status c1 Q' hpc hmain ho hp hc1 =>
    rw [(hfinal _ _).1, (hfinal _ _).2]
    obtain ⟨cr3, process_cr3, p4s, hframe⟩ := c1.torn_down_frame p status
    rw [hframe]
    rcases hc1 with ⟨rfl, _⟩ | ⟨rfl, _⟩ <;> exact ⟨rfl, rfl, rfl⟩

theorem Return.reaped_eq_some {r : Return} {v : Int} (h : r.reaped = some v) :
    ∃ status, r.call = .wait status ∧ r.value = v ∧ v ≠ -1 := by
  unfold Return.reaped at h
  split at h
  · rename_i status hcall
    split at h
    · cases h
    · rename_i hne
      cases h
      exact ⟨status, hcall, rfl, hne⟩
  · cases h

theorem ReapedOnce.move (hr : ReapedOnce k.toCore) (h : Books tidy k Q none)
    (ha : k.thread.allocated t) (hm : Move e k.toCore Q t c' Q') : ReapedOnce c' := by
  have hproc : k.next_pid ≤ c'.next_pid ∧ ∀ p, c'.process.allocated p → k.process.allocated p ∧
      c'.process.pid p = k.process.pid p ∨ k.next_pid ≤ c'.process.pid p := by
    rcases hm.quiet h ha with hq | hs
    · exact ⟨hq.next_pid, fun p hp => (hq.process p hp).imp (fun h => ⟨h.1, h.2.1⟩) fun h => h.1⟩
    · obtain ⟨ha, hpid, hnext⟩ := hs.process_kept
      exact ⟨hnext.ge, fun p hp => Or.inl ⟨ha ▸ hp, by rw [hpid]⟩⟩
  rcases hm.reaps with hsame | ⟨r, hlog, hreaps⟩
  · exact hr.same (by simp only [Core.reaped, hsame]) hproc.1 hproc.2
  cases hpid : r.reaped with
  | none =>
    refine hr.same ?_ hproc.1 hproc.2
    simp only [Core.reaped, hlog, List.filterMap_cons, hpid]
  | some v =>
    obtain ⟨status, hcall, hv, hne⟩ := Return.reaped_eq_some hpid
    obtain ⟨p, child, _, _, hca, _, _, hv', _, hfreed⟩ := (hreaps status hcall).resolve_left
      fun hno => hne (hv ▸ hno.1)
    have hcons : c'.reaped = (k.process.pid child : Int) :: k.toCore.reaped := by
      simp only [Core.reaped, hlog, List.filterMap_cons, hpid, ← hv, hv']
    have hlt := h.pid_lt child hca
    constructor
    · rw [hcons, List.nodup_cons]
      exact ⟨hr.gone child hca, hr.nodup⟩
    · rw [hcons]
      intro pid hin
      rcases List.mem_cons.mp hin with rfl | hin
      · omega
      · have := hr.lt pid hin
        omega
    · intro x hx
      rw [hcons, List.mem_cons, not_or]
      rcases hproc.2 x hx with ⟨hx', hxpid⟩ | hle
      · rw [hxpid]
        refine ⟨fun heq => ?_, hr.gone x hx'⟩
        obtain rfl := h.pid_inj x child hx' hca (by omega)
        exact hfreed hx
      · refine ⟨by omega, fun hin => ?_⟩
        have := hr.lt _ hin
        omega

/-! ## The tree -/

/-- The parent of a process. The process of the kernel is the root. -/
def Core.ParentOf (c : Core) (child parent : Nat) : Prop :=
  c.process.allocated child ∧ child ≠ kernel_process ∧ c.process.parent child = some parent

/-- The process tree, the threads of the processes, and the children that were reaped. -/
structure Accounted (k : Kernel) : Prop where
  children : ∃ L : Nat → List Nat,
    (∀ p, k.process.allocated p →
      Chain some none k.links.next_sibling (k.links.first_child p) (L p) ∧ (L p).Nodup) ∧
    ∀ child, k.process.allocated child → child ≠ kernel_process →
      ∃ p, k.process.parent child = some p ∧ k.process.allocated p ∧ child ∈ L p ∧
        ∀ p', k.process.allocated p' → child ∈ L p' → p' = p
  finite : {p | k.process.allocated p}.Finite
  rooted : ∀ p, k.process.allocated p → Relation.ReflTransGen k.ParentOf p kernel_process
  acyclic : ∀ p, ¬Relation.TransGen k.ParentOf p p
  live : ∀ p, k.process.allocated p → ∃ l,
    Chain some none k.links.next_thread (k.links.threads p) l ∧
    (∀ t, t ∈ l ↔ k.thread.allocated t ∧ k.thread.owner t = some p) ∧
    k.process.live_threads p = l.countP (fun t => k.thread.run_state t ≠ .zombie)
  zombie : ∀ p, k.process.allocated p → (k.process.zombie p ↔
    (∃ t, k.thread.allocated t ∧ k.thread.owner t = some p) ∧ k.process.live_threads p = 0)
  once : k.reaped.Nodup

section

variable (h : Books tidy k Q none)

include h

theorem Books.parentOf_lt {child parent : Nat} (hp : k.ParentOf child parent) :
    k.process.allocated parent ∧ k.process.pid parent < k.process.pid child := by
  obtain ⟨p, hpar, hpa, _, hlt⟩ := h.parent child hp.1 hp.2.1
  obtain rfl : parent = p := Option.some.inj (hp.2.2.symm.trans hpar)
  exact ⟨hpa, hlt⟩

theorem Books.rooted (hp : k.process.allocated p) :
    Relation.ReflTransGen k.ParentOf p kernel_process := by
  -- numbers go down towards the root
  induction hn : k.process.pid p using Nat.strong_induction_on generalizing p with
  | _ n ih =>
    by_cases hk : p = kernel_process
    · exact hk ▸ .refl
    · obtain ⟨q, hpar, hqa, _, hlt⟩ := h.parent p hp hk
      exact .head ⟨hp, hk, hpar⟩ (ih _ (hn ▸ hlt) hqa rfl)

theorem Books.acyclic (p : Nat) : ¬Relation.TransGen k.ParentOf p p := by
  have hlt : ∀ x y, Relation.TransGen k.ParentOf x y → k.process.pid y < k.process.pid x := by
    intro x y hxy
    induction hxy with
    | single hp => exact (h.parentOf_lt hp).2
    | tail _ hp ih => exact (h.parentOf_lt hp).2.trans ih
  exact fun hp => lt_irrefl _ (hlt p p hp)

theorem Books.children_lists : ∃ L : Nat → List Nat,
    (∀ p, k.process.allocated p →
      Chain some none k.links.next_sibling (k.links.first_child p) (L p) ∧ (L p).Nodup) ∧
    ∀ child, k.process.allocated child → child ≠ kernel_process →
      ∃ p, k.process.parent child = some p ∧ k.process.allocated p ∧ child ∈ L p ∧
        ∀ p', k.process.allocated p' → child ∈ L p' → p' = p := by
  classical
  choose! L hchain hmem using h.children
  refine ⟨L, fun p hp => ⟨hchain p hp, (hchain p hp).nodup⟩, fun child hc hk => ?_⟩
  obtain ⟨p, hpar, hpa, _⟩ := h.parent child hc hk
  refine ⟨p, hpar, hpa, (hmem p hpa child).mpr ⟨hc, hk, hpar⟩, fun p' hp' hin => ?_⟩
  exact Option.some.inj (((hmem p' hp' child).mp hin).2.2.symm.trans hpar)

theorem Books.finite : {p | k.process.allocated p}.Finite := by
  refine Set.Finite.of_injOn (f := k.process.pid) (t := Set.Iio k.next_pid) (fun p hp => h.pid_lt p hp)
    (fun p hp q hq hpq => h.pid_inj p q hp hq hpq) (Set.finite_Iio _)

theorem Books.accounted (hr : ReapedOnce k.toCore) : Accounted k where
  children := h.children_lists
  finite := h.finite
  rooted _ hp := h.rooted hp
  acyclic := h.acyclic
  live := h.threads
  zombie p hp := by
    rw [h.zombie p hp (Option.some_ne_none p)]
    exact ⟨fun hl => ⟨h.threads_any p hp (Option.some_ne_none p), hl⟩, fun hl => hl.2⟩
  once := hr.nodup

end

/-- The tree and the counts are right in every state that a run comes to, and a `wait` reaps a zombie
child of the caller, each child at most once. No code is interrupted halfway, and no address of a
thread that was killed in `getc` is used again. -/
theorem process_tree_accounted (fuel : Nat) (kernel_p4 : Word) (es : List Event) (k : Kernel)
    (hm : Meets (step fuel) (fun e k => uninterrupted e k ∧ fresh_thread e k) es (started kernel_p4))
    (hrun : run (step fuel) es (started kernel_p4) = some k) :
    Accounted k ∧ ∀ e k', uninterrupted e k ∧ fresh_thread e k → step fuel e k = some k' →
      ∃ t, k.curr_proc = some t ∧ (k'.returns = k.returns ∨
        ∃ r, k'.returns = r :: k.returns ∧ Reaps k.toCore k'.toCore t r) := by
  obtain ⟨Q, hbooks, hcpu, hr⟩ := run_in_order (J := fun c _ => ReapedOnce c) (fun _ _ h => h)
    ⟨List.nodup_nil, nofun, fun _ _ => List.not_mem_nil⟩
    (fun _ _ _ _ _ _ hbooks _ hcpu ht _ hr hmove => hr.move hbooks (hcpu.alive ht).1 hmove) hm hrun
  refine ⟨hbooks.accounted hr, fun e k' hok hstep => ?_⟩
  obtain ⟨t, ht, Q', hmove, _⟩ := step.moves hbooks hcpu hok.1
    (fun u => hbooks.fresh hok.2) (fun hf => hf.elim) hstep
  exact ⟨t, ht, hmove.reaps⟩

/-- The child is reaped, and its thread is freed. -/
theorem process_tree_accounted_reaped_child :
    ∃ k, run (step 20) (boot ++ [fork, .call (.wait 0), .run, .call (.exit 9), .run]) (started 0x1000) =
      some k ∧ Accounted k := by
  obtain ⟨k, hk⟩ := Option.isSome_iff_exists.mp (show (run (step 20)
    (boot ++ [fork, .call (.wait 0), .run, .call (.exit 9), .run]) (started 0x1000)).isSome by
      decide +kernel)
  exact ⟨k, hk, (process_tree_accounted 20 0x1000 _ k (by decide +kernel) hk).1⟩

/-- The threads 2 and 4 wait for a child, and both wake up when the child ends. The thread 2 finds it
and is interrupted. The thread 4 reaps it, and then the thread 2 reaps it again. -/
def double_reap_run : List Event :=
  boot ++ [fork, clone 4, .call (.wait 0), .run, .timer, .call (.wait 0), .run, .call (.exit 9),
    .slice, .timer, .run, .timer, .run]

theorem child_reaped_twice :
    ∃ k, run (step 20) double_reap_run (started 0x1000) = some k ∧ ¬Accounted k := by
  obtain ⟨k, hk⟩ := Option.isSome_iff_exists.mp
    (show (run (step 20) double_reap_run (started 0x1000)).isSome by decide +kernel)
  have hstate : (run (step 20) double_reap_run (started 0x1000)).all (fun k =>
      k.reaped = [2, 2]) := by
    decide +kernel
  rw [hk, Option.all_some, decide_eq_true_iff] at hstate
  refine ⟨k, hk, fun h => ?_⟩
  have := h.once
  rw [hstate] at this
  simp at this

end JamsOs
