-- What the exit of a thread or of a process does to the books of the kernel.
import JamsOs.KernelBooks

namespace JamsOs

open Linked

variable {tidy : Prop} {k : Kernel} {Q : QueueRef → List Nat} {dying : Ptr} {t p : Nat}
  {q : QueueRef}

/-! ## Ending threads -/

/-- The threads of `S` are dead, with the status for those that were alive. -/
def Core.killed (S : Nat → Bool) (status : Int) (c : Core) : Core :=
  { c with
    thread.run_state := fun t => if S t then .zombie else c.thread.run_state t
    thread.exit_status := fun t =>
      if S t ∧ c.thread.run_state t ≠ .zombie then status else c.thread.exit_status t }

theorem Core.killed_dead {S : Nat → Bool} {status : Int} {c : Core}
    (h : ∀ t, S t → c.thread.run_state t = .zombie) : c.killed S status = c := by
  have hrs : (fun t => if S t then .zombie else c.thread.run_state t) = c.thread.run_state := by
    funext t
    split
    · rename_i ht
      exact (h t ht).symm
    · rfl
  have hes : ∀ t, ¬(S t ∧ c.thread.run_state t ≠ .zombie) := fun t ht => ht.2 (h t ht.1)
  simp only [Core.killed, hrs, hes, if_false]

theorem Core.killed_killed (S S' : Nat → Bool) (status : Int) (c : Core) :
    (c.killed S status).killed S' status = c.killed (fun t => S t || S' t) status := by
  refine congrArg₂ (fun rs es => { c with thread.run_state := rs, thread.exit_status := es })
    ?_ ?_ <;> funext t
  · cases hS : S t <;> cases hS' : S' t <;> simp [Core.killed, hS, hS']
  · cases hS : S t <;> cases hS' : S' t <;> simp [Core.killed, hS, hS']

/-- A thread that is alive gets its end. -/
theorem Core.killed_one {a : Nat} {status : Int} {c : Core} (h : c.thread.run_state a ≠ .zombie) :
    c.killed (· = a) status = { c with
      thread.run_state := Function.update c.thread.run_state a .zombie
      thread.exit_status := Function.update c.thread.exit_status a status } := by
  have hrs : Function.update c.thread.run_state a .zombie =
      fun t => if t = a then .zombie else c.thread.run_state t := by
    funext t
    exact Function.update_apply _ _ _ _
  have hes : Function.update c.thread.exit_status a status =
      fun t => if t = a ∧ c.thread.run_state t ≠ .zombie then status
        else c.thread.exit_status t := by
    funext t
    by_cases ht : t = a
    · subst ht
      simp [h]
    · simp [ht]
  simp only [Core.killed, decide_eq_true_eq, hrs, hes]

/-- Threads of one process end. The process is not yet torn down. -/
theorem Books.kill (h : Books tidy k Q none) (S : Nat → Bool) (status : Int)
    (exiting : Nat → Bool) (live : Nat) {ring : RunRing} (hp : k.process.allocated p)
    (hS : ∀ t, S t → k.thread.allocated t ∧ k.thread.owner t = some p ∧ t ≠ main_thread)
    (hring : RingOf ring fun t => k.Runnable t ∧ ¬S t)
    (hex : exiting = k.process.exiting ∧ (∀ t, S t → ∀ q, k.LiveQueue q → t ∉ Q q) ∨
      exiting = Function.update k.process.exiting p true ∧
        ∀ t, k.thread.allocated t → k.thread.owner t = some p → S t)
    (hlive : ∀ l, Chain some none k.links.next_thread (k.links.threads p) l →
      (∀ t, t ∈ l ↔ k.thread.allocated t ∧ k.thread.owner t = some p) →
      live = l.countP (fun t => !S t && decide (k.thread.run_state t ≠ .zombie))) :
    Books tidy { k with
      toCore := { k.killed S status with
        process.exiting := exiting
        process.live_threads := Function.update k.process.live_threads p live }
      links.ring := ring } Q (some p) := by
  have hmain : S main_thread = false := by
    by_contra hm
    exact (hS _ (by simpa using hm)).2.2 rfl
  have hexp : ∀ x, exiting x → k.process.exiting x ∨
      x = p ∧ ∀ t, k.thread.allocated t → k.thread.owner t = some p → S t := by
    intro x hx
    rcases hex with ⟨rfl, _⟩ | ⟨rfl, hall⟩
    · exact Or.inl hx
    · by_cases he : x = p
      · exact Or.inr ⟨he, hall⟩
      · rw [Function.update_of_ne he] at hx
        exact Or.inl hx
  have hmono : ∀ x, k.process.exiting x → exiting x := by
    intro x hx
    rcases hex with ⟨rfl, _⟩ | ⟨rfl, _⟩
    · exact hx
    · by_cases he : x = p
      · simp [he]
      · rwa [Function.update_of_ne he]
  have hin : ∀ t, S t → (k.killed S status).thread.run_state t = .zombie := by
    intro t ht
    simp [Core.killed, ht]
  have hout : ∀ t, ¬S t → (k.killed S status).thread.run_state t = k.thread.run_state t := by
    intro t ht
    simp [Core.killed, ht]
  exact { h with
    main_state := by
      rw [hout _ (by simp [hmain])]
      exact h.main_state
    ring := by
      refine hring.congr fun t => ?_
      simp only [Core.Runnable]
      by_cases ht : S t
      · simp [hin t ht, ht]
      · simp only [hout t ht, ht]
        simp [Core.killed]
    queue_state := by
      intro q hq t ht
      by_cases hSt : S t
      · exact Or.inl (hin t hSt)
      · rw [hout t hSt]
        exact h.queue_state q hq t ht
    queue_dead := by
      intro q hq t ht ha hz
      by_cases hSt : S t
      · refine ⟨p, (hS t hSt).2.1, ?_⟩
        rcases hex with ⟨_, hnot⟩ | ⟨rfl, _⟩
        · exact absurd ht (hnot t hSt q hq)
        · simp
      · rw [hout t hSt] at hz
        obtain ⟨o, ho, hox⟩ := h.queue_dead q hq t ht ha hz
        exact ⟨o, ho, hmono o hox⟩
    blocked := by
      intro t ha hb
      by_cases hSt : S t
      · rw [hin t hSt] at hb
        cases hb
      · rw [hout t hSt] at hb
        exact h.blocked t ha hb
    threads := by
      intro x hx
      obtain ⟨l, hc, hm, hl⟩ := h.threads x hx
      refine ⟨l, hc, hm, ?_⟩
      by_cases he : x = p
      · subst he
        simp only [Function.update_self]
        rw [hlive l hc hm]
        refine List.countP_congr fun t _ => ?_
        by_cases hSt : S t
        · simp [hin t hSt, hSt]
        · simp only [hout t hSt]
          simp [hSt]
      · simp only [Function.update_of_ne he]
        refine hl.trans (List.countP_congr fun t ht => ?_)
        have hSt : ¬S t := by
          intro hSt
          have h1 := ((hm t).mp ht).2
          rw [(hS t hSt).2.1] at h1
          exact he (Option.some.inj h1).symm
        simp only [hout t hSt]
    exiting := by
      intro x hx hxe t ha ho
      by_cases hSt : S t
      · exact hin t hSt
      · rw [hout t hSt]
        rcases hexp x hxe with hold | ⟨rfl, hall⟩
        · exact h.exiting x hx hold t ha ho
        · exact absurd (hall t ha ho) hSt
    threads_any := fun x hx _ => h.threads_any x hx (Option.some_ne_none x)
    zombie := by
      intro x hx hne
      have he : x ≠ p := fun he => hne (by rw [he])
      simp only [Function.update_of_ne he]
      exact h.zombie x hx (Option.some_ne_none x)
    zombie_exiting := fun x hx hz => hmono x (h.zombie_exiting x hx hz)
    mutex_owner := by
      intro m hm
      obtain ⟨o, ho, hoa, hoz⟩ := h.mutex_owner m hm
      exact ⟨o, ho, hoa, Or.inl (hoz.resolve_right (Option.some_ne_none o))⟩
    mutex_listed := fun hd => absurd hd (Option.some_ne_none p) }

/-! ## Tearing a process down -/

/-- The process is a zombie, and its children are the kernel's. -/
def Core.bury (p : Nat) (status : Int) (c : Core) : Core :=
  { c with
    process.exiting := Function.update c.process.exiting p true
    process.zombie := Function.update c.process.zombie p true
    process.exit_status := Function.update c.process.exit_status p status
    process.parent := fun x =>
      if c.process.allocated x ∧ x ≠ kernel_process ∧ c.process.parent x = some p then
        some kernel_process
      else c.process.parent x }

/-- The children of `exiting` come before those of the kernel's process. -/
theorem PROC_reparent_children.spec {fuel : Nat} {k' : Kernel} {l l' : List Nat}
    (hrun : PROC_reparent_children fuel p k = some k')
    (hc : Chain some none k.links.next_sibling (k.links.first_child p) l)
    (hc' : Chain some none k.links.next_sibling (k.links.first_child kernel_process) l')
    (hdis : ∀ x ∈ l, x ∉ l') (hp : p ≠ kernel_process) :
    k'.toCore = { k.toCore with
      process.parent := fun c => if c ∈ l then some kernel_process else k.process.parent c } ∧
    ∃ next_sibling first_child, k'.links =
        { k.links with next_sibling := next_sibling, first_child := first_child } ∧
      (∀ x, x ∉ l → next_sibling x = k.links.next_sibling x) ∧
      (∀ x, x ≠ p → x ≠ kernel_process → first_child x = k.links.first_child x) ∧
      first_child p = none ∧ Chain some none next_sibling (first_child kernel_process) (l ++ l') := by
  simp only [PROC_reparent_children, Option.bind_eq_bind, Option.bind_eq_some_iff] at hrun
  obtain ⟨children, htrail, hrun⟩ := hrun
  obtain rfl := (trail.chain htrail).eq_of_chain hc
  rcases List.eq_nil_or_concat children with rfl | ⟨xs, last, hl⟩
  · cases hrun
    refine ⟨by simp, k.links.next_sibling, k.links.first_child, rfl, fun _ _ => rfl,
      fun _ _ _ => rfl, chain_nil_iff.mp hc, hc'⟩
  · rw [List.concat_eq_append] at hl
    subst hl
    simp only [List.getLast?_concat, Option.some.injEq] at hrun
    subst hrun
    have hlast : last ∈ xs ++ [last] := by simp
    refine ⟨rfl, _, _, rfl, fun x hx => ?_, fun x hxp hxk => ?_, Function.update_self _ _ _, ?_⟩
    · exact Function.update_of_ne (fun he : x = last => hx (he ▸ hlast)) _ _
    · rw [Function.update_of_ne hxp, Function.update_of_ne hxk]
    · rw [Function.update_of_ne (Ne.symm hp), Function.update_self]
      exact hc.append_chain hc' (hdis last hlast)

theorem Books.bury {fuel : Nat} {status : Int} {k' : Kernel} (h : Books tidy k Q (some p))
    (hp : k.process.allocated p) (hk : p ≠ kernel_process) (hlive : k.process.live_threads p = 0)
    (hrun : PROC_reparent_children fuel p { k with
      process.exiting := Function.update k.process.exiting p true
      process.zombie := Function.update k.process.zombie p true
      process.exit_status := Function.update k.process.exit_status p status } = some k') :
    k'.toCore = k.bury p status ∧ Books tidy k' Q (some p) := by
  obtain ⟨l, hc, hm⟩ := h.children p hp
  obtain ⟨l', hc', hm'⟩ := h.children kernel_process h.kernel_allocated
  have hdis : ∀ x ∈ l, x ∉ l' := by
    intro x hx hx'
    have h1 := ((hm x).mp hx).2.2
    rw [((hm' x).mp hx').2.2] at h1
    exact hk (Option.some.inj h1).symm
  obtain ⟨hcore, next_sibling, first_child, hlinks, hns, hfc, hfcp, hkc⟩ :=
    PROC_reparent_children.spec hrun hc hc' hdis hk
  have hdead : ∀ t, k.thread.allocated t → k.thread.owner t = some p →
      k.thread.run_state t = .zombie := by
    intro t ha ho
    obtain ⟨ts, _, hts, hcount⟩ := h.threads p hp
    rw [hlive] at hcount
    have := List.countP_eq_zero.mp hcount.symm t ((hts t).mpr ⟨ha, ho⟩)
    simpa using this
  have hcore' : k'.toCore = k.bury p status := by
    rw [hcore]
    unfold Core.bury
    simp only [hm]
  obtain ⟨c', links'⟩ := k'
  simp only at hcore' hlinks
  subst hcore'
  subst hlinks
  refine ⟨rfl, { h with
    kernel_zombie := ?_
    queue_dead := ?_
    children := ?_
    parent := ?_
    exiting := ?_
    zombie := ?_
    zombie_exiting := ?_
    mutex_owner := ?_ }⟩
  · simp only [Core.bury, Function.update_of_ne (Ne.symm hk)]
    exact h.kernel_zombie
  · intro q hq t ht ha hz
    obtain ⟨o, ho, hex⟩ := h.queue_dead q hq t ht ha hz
    refine ⟨o, ho, ?_⟩
    simp only [Core.bury]
    by_cases he : o = p
    · simp [he]
    · rwa [Function.update_of_ne he]
  · intro x hx
    simp only [Core.bury]
    by_cases hxp : x = p
    · subst hxp
      refine ⟨[], chain_nil_iff.mpr hfcp, fun c => ?_⟩
      simp only [List.not_mem_nil, false_iff]
      rintro ⟨hca, hck, hcp⟩
      split at hcp
      · exact hk (Option.some.inj hcp).symm
      · rename_i hno
        exact hno ⟨hca, hck, hcp⟩
    · by_cases hxk : x = kernel_process
      · subst hxk
        refine ⟨l ++ l', hkc, fun c => ?_⟩
        rw [List.mem_append, hm, hm']
        grind
      · obtain ⟨lx, hcx, hmx⟩ := h.children x hx
        refine ⟨lx, ?_, fun c => ?_⟩
        · simp only [hfc x hxp hxk]
          refine hcx.congr fun b hb => hns b fun hbl => ?_
          have h1 := ((hm b).mp hbl).2.2
          rw [((hmx b).mp hb).2.2] at h1
          exact hxp (Option.some.inj h1)
        · rw [hmx]
          grind
  · intro c hc hck
    obtain ⟨o, ho, hoa, hoz, hpid⟩ := h.parent c hc hck
    simp only [Core.bury]
    by_cases hop : o = p
    · subst hop
      refine ⟨kernel_process, by simp [show k.process.allocated c = true from hc, hck, ho],
        h.kernel_allocated, ?_, ?_⟩
      · rw [Function.update_of_ne (Ne.symm hk)]
        exact h.kernel_zombie
      · rw [h.kernel_pid]
        omega
    · refine ⟨o, ?_, hoa, ?_, hpid⟩
      · rw [if_neg]
        · exact ho
        · rintro ⟨_, _, ho'⟩
          rw [ho] at ho'
          exact hop (Option.some.inj ho')
      · rwa [Function.update_of_ne hop]
  · intro x hx hex t ha ho
    by_cases hxp : x = p
    · subst hxp
      exact hdead t ha ho
    · simp only [Core.bury, Function.update_of_ne hxp] at hex
      exact h.exiting x hx hex t ha ho
  · intro x hx hne
    have hxp : x ≠ p := fun he => hne (by rw [he])
    simp only [Core.bury, Function.update_of_ne hxp]
    exact h.zombie x hx hne
  · intro x hx hz
    simp only [Core.bury] at hz ⊢
    by_cases hxp : x = p
    · simp [hxp]
    · rw [Function.update_of_ne hxp] at hz ⊢
      exact h.zombie_exiting x hx hz
  · intro m hm
    obtain ⟨o, ho, hoa, hoz⟩ := h.mutex_owner m hm
    refine ⟨o, ho, hoa, ?_⟩
    simp only [Core.bury]
    by_cases hop : o = p
    · exact Or.inr (by rw [hop])
    · rw [Function.update_of_ne hop]
      exact hoz

/-- Waking changes nothing when all threads on the queue are dead. -/
theorem Core.all_woken_dead {c : Core} {l : List Nat}
    (h : ∀ x ∈ l, c.thread.run_state x ≠ .blocked) : c.all_woken l = c := by
  have hno : ∀ x, ¬(x ∈ l ∧ c.thread.run_state x = .blocked) := fun x hx => h x hx.1 hx.2
  simp only [Core.all_woken, hno, if_false]

/-- A mutex that is unlinked and has no waiters is freed. -/
theorem Books.free_mutex {m : Nat} (h : Books tidy k Q (some p)) (hm : m ∉ k.mutex.list)
    (hQ : Q (.waiters m) = []) : Books tidy { k with toCore := free_mutex m k.toCore } Q (some p) := by
  have hsub : ∀ q, Core.LiveQueue (JamsOs.free_mutex m k.toCore) q → k.LiveQueue q := by
    intro q hq
    cases q with
    | waiters m' =>
      simp only [Core.LiveQueue, JamsOs.free_mutex] at hq ⊢
      by_cases he : m' = m
      · simp [he] at hq
      · rwa [Function.update_of_ne he] at hq
    | _ => exact hq
  have halloc : ∀ m', Function.update k.mutex.allocated m false m' = true →
      k.mutex.allocated m' = true := fun m' hm' => hsub (.waiters m') hm'
  exact { h with
    queue := fun q hq => h.queue q (hsub q hq)
    queue_place := fun q hq => h.queue_place q (hsub q hq)
    queue_state := fun q hq => h.queue_state q (hsub q hq)
    queue_allocated := fun q hq => h.queue_allocated q (hsub q hq)
    queue_dead := fun q hq => h.queue_dead q (hsub q hq)
    queue_since := fun q hq => h.queue_since q (hsub q hq)
    queue_clock := fun q hq => h.queue_clock q (hsub q hq)
    blocked := by
      intro t ha hb
      obtain ⟨q, hq, hin⟩ := h.blocked t ha hb
      refine ⟨q, ?_, hin⟩
      cases q with
      | waiters m' =>
        have he : m' ≠ m := by
          rintro rfl
          simp [hQ] at hin
        simp only [Core.LiveQueue, JamsOs.free_mutex, Function.update_of_ne he]
        exact hq
      | _ => exact hq
    mutex_allocated := by
      intro m' hm'
      have he : m' ≠ m := fun he => hm (he ▸ hm')
      simp only [JamsOs.free_mutex, Function.update_of_ne he]
      exact h.mutex_allocated m' hm'
    mutex_listed := fun hd => absurd hd (Option.some_ne_none p)
    mutex_owner := fun m' hm' => h.mutex_owner m' (halloc m' hm')
    mutex_waiters := fun m' hm' => h.mutex_waiters m' (halloc m' hm') }

theorem Books.unlink_mutex {m : Nat} (h : Books tidy k Q (some p)) :
    Books tidy { k with toCore := unlink_mutex m k.toCore } Q (some p) :=
  { h with
    mutex_nodup := h.mutex_nodup.erase m
    mutex_allocated := fun m' hm' => h.mutex_allocated m' (List.mem_of_mem_erase hm')
    mutex_listed := fun hd => absurd hd (Option.some_ne_none p) }

/-- The state without those mutexes of `ms` that belong to `p`. -/
def Core.without_mutexes (p : Nat) (ms : List Nat) (c : Core) : Core :=
  { c with
    mutex.list := c.mutex.list.filter fun m => ¬(m ∈ ms ∧ c.mutex.owner_process m = some p)
    mutex.allocated := fun m =>
      c.mutex.allocated m && !decide (m ∈ ms ∧ c.mutex.owner_process m = some p) }

theorem Core.without_mutexes_allocated {c : Core} {ms : List Nat} {m : Nat} :
    (c.without_mutexes p ms).mutex.allocated m ↔
      c.mutex.allocated m ∧ ¬(m ∈ ms ∧ c.mutex.owner_process m = some p) := by
  simp [Core.without_mutexes, imp_iff_not_or]

theorem Core.mem_without_mutexes {c : Core} {ms : List Nat} {m : Nat} :
    m ∈ (c.without_mutexes p ms).mutex.list ↔
      m ∈ c.mutex.list ∧ ¬(m ∈ ms ∧ c.mutex.owner_process m = some p) := by
  simp [Core.without_mutexes, imp_iff_not_or]

/-- The loop of `MUTEX_destroy_process_mutexes`, for a process whose threads are all dead. -/
theorem destroy_process_mutexes.spec {fuel : Nat} {ms : List Nat} {k' : Kernel}
    (h : Books tidy k Q (some p)) (hp : k.process.allocated p) (hex : k.process.exiting p)
    (hms : ms.Nodup) (hmem : ∀ m ∈ ms, k.mutex.allocated m)
    (hrun : ms.foldlM (destroy_process_mutex fuel p) k = some k') :
    k'.toCore = k.without_mutexes p ms ∧ ∃ Q', Books tidy k' Q' (some p) ∧
      ∀ q, Q' q = Q q ∨ Q' q = [] ∧ ∃ m, q = .waiters m := by
  induction ms generalizing k Q with
  | nil =>
    cases hrun
    exact ⟨by simp [Core.without_mutexes], Q, h, fun q => Or.inl rfl⟩
  | cons m ms ih =>
    obtain ⟨hmms, hms⟩ := List.nodup_cons.mp hms
    simp only [List.foldlM_cons, Option.bind_eq_bind, Option.bind_eq_some_iff] at hrun
    obtain ⟨k2, hone, hrest⟩ := hrun
    unfold destroy_process_mutex at hone
    split at hone
    · rename_i ho
      simp only [Option.bind_eq_bind, Option.bind_eq_some_iff] at hone
      obtain ⟨k1, hun, hone⟩ := hone
      cases hone
      have hma : k.mutex.allocated m := hmem m List.mem_cons_self
      obtain ⟨hcore, hbooks⟩ := PROC_unblock_all.spec (q := .waiters m) (h.unlink_mutex (m := m))
        hma hun
      have hdead : ∀ x ∈ Q (.waiters m), k.thread.run_state x ≠ .blocked := by
        intro x hx
        have hox := h.mutex_waiters m hma x hx
        rw [ho] at hox
        have hxa := h.queue_allocated (.waiters m) hma (Or.inl nofun) x hx
        rw [h.exiting p hp hex x hxa hox]
        nofun
      have hcore : k1.toCore = JamsOs.unlink_mutex m k.toCore :=
        hcore.trans (Core.all_woken_dead (c := JamsOs.unlink_mutex m k.toCore) hdead)
      have hnot : m ∉ k1.mutex.list := by
        rw [hcore]
        exact fun hin => (h.mutex_nodup.mem_erase_iff.mp hin).1 rfl
      have hbooks2 := hbooks.free_mutex hnot (Function.update_self _ _ _)
      obtain ⟨c1, links1⟩ := k1
      simp only at hcore
      subst hcore
      obtain ⟨hcore', Q', hbooks', hQ'⟩ := ih hbooks2 hp hex hms (by
        intro m' hm'
        have he : m' ≠ m := fun he => hmms (he ▸ hm')
        simp only [JamsOs.free_mutex, JamsOs.unlink_mutex, Function.update_of_ne he]
        exact hmem m' (List.mem_cons_of_mem _ hm')) hrest
      refine ⟨?_, Q', hbooks', fun q => ?_⟩
      · rw [hcore']
        simp only [Core.without_mutexes, JamsOs.free_mutex, JamsOs.unlink_mutex,
          h.mutex_nodup.erase_eq_filter, List.filter_filter, List.mem_cons]
        congr 2
        · funext m'
          by_cases he : m' = m
          · simp [he, ho]
          · simp [he]
        · refine List.filter_congr fun m' _ => ?_
          by_cases he : m' = m
          · simp [he, ho]
          · simp [he]
      · rcases hQ' q with he | he
        · rw [he]
          by_cases hqm : q = .waiters m
          · subst hqm
            exact Or.inr ⟨Function.update_self _ _ _, m, rfl⟩
          · exact Or.inl (Function.update_of_ne hqm _ _)
        · exact Or.inr he
    · rename_i ho
      cases hone
      obtain ⟨hcore', Q', hbooks', hQ'⟩ := ih h hp hex hms
        (fun m' hm' => hmem m' (List.mem_cons_of_mem _ hm')) hrest
      refine ⟨?_, Q', hbooks', hQ'⟩
      rw [hcore']
      simp only [Core.without_mutexes, List.mem_cons]
      congr 2
      · funext m'
        by_cases he : m' = m
        · simp [he, ho, hmms]
        · simp [he]
      · refine List.filter_congr fun m' _ => ?_
        by_cases he : m' = m
        · simp [he, ho, hmms]
        · simp [he]

/-- Only the page tables change when an address space goes. -/
theorem MMU_destroy_p4.frame (p4 : Word) (c : Core) :
    ∃ p4s, MMU_destroy_p4 p4 c = { c with p4s := p4s } := by
  unfold MMU_destroy_p4
  split
  · exact ⟨c.p4s, rfl⟩
  · exact ⟨_, rfl⟩

theorem destroy_process_address_space.frame (p : Nat) (c : Core) :
    ∃ cr3 process_cr3 p4s, destroy_process_address_space p c =
      { c with cr3 := cr3, process.cr3 := process_cr3, p4s := p4s } := by
  simp only [destroy_process_address_space]
  split
  · exact ⟨c.cr3, c.process.cr3, c.p4s, rfl⟩
  · obtain ⟨p4s, hp4s⟩ := MMU_destroy_p4.frame (c.process.cr3 p)
      { c with cr3 := c.kernel_p4, process.cr3 := Function.update c.process.cr3 p 0 }
    exact ⟨_, _, p4s, hp4s⟩

/-- All that `process_teardown` does to the records. -/
def Core.torn_down (p : Nat) (status : Int) (c : Core) : Core :=
  destroy_process_address_space p ((c.bury p status).without_mutexes p c.mutex.list)

theorem Core.torn_down_frame (p : Nat) (status : Int) (c : Core) :
    ∃ cr3 process_cr3 p4s, c.torn_down p status =
      { (c.bury p status).without_mutexes p c.mutex.list with
        cr3 := cr3, process.cr3 := process_cr3, p4s := p4s } :=
  destroy_process_address_space.frame p _

theorem process_teardown.spec {fuel : Nat} {status : Int} {k' : Kernel}
    (h : Books tidy k Q (some p)) (hp : k.process.allocated p) (hk : p ≠ kernel_process)
    (hz : k.process.zombie p = false) (hlive : k.process.live_threads p = 0)
    (hany : ∃ t, k.thread.allocated t ∧ k.thread.owner t = some p)
    (hlisted : ∀ m, k.mutex.allocated m → m ∈ k.mutex.list)
    (hrun : process_teardown fuel p status k = some k') :
    ∃ parent Q', k.process.parent p = some parent ∧ k.process.allocated parent ∧
      k'.toCore = (k.torn_down p status).all_woken (Q (.wait_child_exit parent)) ∧
      Books tidy k' Q' none ∧ Q' (.wait_child_exit parent) = [] ∧
      ∀ q, Q' q = Q q ∨ Q' q = [] := by
  obtain ⟨parent, hpar, hpara, _, hpid⟩ := h.parent p hp hk
  have hne : parent ≠ p := by
    rintro rfl
    omega
  simp only [process_teardown, hz, Bool.false_eq_true, if_false, Option.bind_eq_bind,
    Option.bind_eq_some_iff, MUTEX_destroy_process_mutexes] at hrun
  obtain ⟨k1, hrep, k2, hmut, hrun⟩ := hrun
  obtain ⟨hcore1, hbooks1⟩ := h.bury hp hk hlive hrep
  have hex1 : k1.process.exiting p := by
    rw [hcore1]
    simp [Core.bury]
  have hp1 : k1.process.allocated p := by
    rw [hcore1]
    exact hp
  obtain ⟨hcore2, Q2, hbooks2, hQ2⟩ := destroy_process_mutexes.spec hbooks1 hp1 hex1
    hbooks1.mutex_nodup hbooks1.mutex_allocated hmut
  have hcore2 : k2.toCore = (k.bury p status).without_mutexes p k.mutex.list := by
    rw [hcore2, hcore1]
    rfl
  have hclosed : Books tidy k2 Q2 none := by
    refine hbooks2.close ?_ ?_ ?_ ?_ <;> rw [hcore2]
    · exact ⟨fun _ => hlive, fun _ => by simp [Core.without_mutexes, Core.bury]⟩
    · exact hany
    · intro m hm
      rw [Core.without_mutexes_allocated] at hm
      exact Core.mem_without_mutexes.mpr ⟨hlisted m hm.1, hm.2⟩
    · intro m hm ho
      rw [Core.without_mutexes_allocated] at hm
      exact absurd ⟨hlisted m hm.1, ho⟩ hm.2
  have hpar2 : k2.process.parent p = some parent := by
    rw [hcore2]
    simp only [Core.without_mutexes, Core.bury]
    rw [if_neg]
    · exact hpar
    · rintro ⟨_, _, hself⟩
      rw [hpar] at hself
      exact hne (Option.some.inj hself)
  have hpara2 : k2.process.allocated parent := by
    rw [hcore2]
    exact hpara
  have htorn : destroy_process_address_space p k2.toCore = k.torn_down p status := by
    rw [hcore2]
    rfl
  obtain ⟨cr3, process_cr3, p4s, hdes⟩ := destroy_process_address_space.frame p k2.toCore
  rw [← htorn, hdes]
  simp only [hdes, hpar2] at hrun
  have hbooks3 : Books tidy { k2 with cr3 := cr3, process.cr3 := process_cr3, p4s := p4s } Q2 none :=
    { hclosed with }
  obtain ⟨hcore4, hbooks4⟩ := PROC_unblock_all.spec (q := .wait_child_exit parent) hbooks3 hpara2 hrun
  refine ⟨parent, _, hpar, hpara, ?_, hbooks4, Function.update_self _ _ _, fun q => ?_⟩
  · rw [hcore4]
    have hq : Q2 (.wait_child_exit parent) = Q (.wait_child_exit parent) := by
      rcases hQ2 (.wait_child_exit parent) with he | ⟨_, m, he⟩
      · exact he
      · cases he
    rw [hq]
  · by_cases he : q = .wait_child_exit parent
    · subst he
      exact Or.inr (Function.update_self _ _ _)
    · rw [Function.update_of_ne he]
      exact (hQ2 q).imp id And.left

/-! ## Exit -/

/-- The loop that ends every thread of a process. -/
theorem exit_threads.spec {status : Int} {l : List Nat} {k' : Kernel} {P : Nat → Prop}
    (hrun : l.foldlM (exit_thread status) k = some k')
    (hring : RingOf k.links.ring P) (hnd : l.Nodup)
    (hP : ∀ t ∈ l, k.thread.run_state t = .ready ∨ k.thread.run_state t = .running → P t)
    (hP' : ∀ t ∈ l, P t → k.thread.run_state t = .ready ∨ k.thread.run_state t = .running) :
    ∃ ring, RingOf ring (fun t => P t ∧ t ∉ l) ∧
      k' = { toCore := k.killed (· ∈ l) status, links := { k.links with ring := ring } } := by
  induction l generalizing k P with
  | nil =>
    cases hrun
    exact ⟨k'.links.ring, by simpa using hring, by rw [Core.killed_dead (by simp)]⟩
  | cons a l ih =>
    obtain ⟨hal, hnd⟩ := List.nodup_cons.mp hnd
    simp only [List.foldlM_cons, Option.bind_eq_bind, Option.bind_eq_some_iff] at hrun
    obtain ⟨k1, hone, hrest⟩ := hrun
    have hne : ∀ t ∈ l, t ≠ a := fun t ht he => hal (he ▸ ht)
    -- in each case the loop goes on from a state in which `a` is dead and not in the ring
    obtain ⟨ring1, hring1, rfl⟩ : ∃ ring, RingOf ring (fun t => P t ∧ t ≠ a) ∧
        k1 = { toCore := k.killed (· = a) status, links := { k.links with ring := ring } } := by
      unfold exit_thread at hone
      split at hone
      · rename_i hz
        cases hone
        refine ⟨k.links.ring, hring.congr fun t => ?_, ?_⟩
        · refine ⟨fun ht => ⟨ht, ?_⟩, And.left⟩
          rintro rfl
          rcases hP' t List.mem_cons_self ht with hs | hs <;> rw [hz] at hs <;> cases hs
        · rw [Core.killed_dead (by simp [hz])]
      · rename_i hz
        rw [Core.killed_one hz]
        split at hone
        · rename_i hs
          obtain ⟨ring, hremove, hring'⟩ := hring.remove (hP a List.mem_cons_self hs)
          simp only [PROC_remove, hremove, Option.map_some, Option.bind_eq_bind,
            Option.bind_some, Option.some.injEq] at hone
          exact ⟨ring, hring', hone.symm⟩
        · rename_i hs
          simp only [Option.bind_eq_bind, Option.bind_some, Option.some.injEq] at hone
          refine ⟨k.links.ring, hring.congr fun t => ?_, hone.symm⟩
          refine ⟨fun ht => ⟨ht, ?_⟩, And.left⟩
          rintro rfl
          exact hs (hP' t List.mem_cons_self ht)
    have hkeep : ∀ t ∈ l, (k.killed (· = a) status).thread.run_state t = k.thread.run_state t := by
      intro t ht
      simp [Core.killed, hne t ht]
    obtain ⟨ring, hring', rfl⟩ := ih hrest hring1 hnd
      (fun t ht hs => ⟨hP t (List.mem_cons_of_mem _ ht) (by rwa [hkeep t ht] at hs), hne t ht⟩)
      (fun t ht hPt => by
        rw [hkeep t ht]
        exact hP' t (List.mem_cons_of_mem _ ht) hPt.1)
    refine ⟨ring, hring'.congr fun t => ?_, ?_⟩
    · rw [List.mem_cons, not_or, and_assoc]
    · simp only [Core.killed_killed, List.mem_cons, Bool.decide_or]

/-- A thread of the process. -/
def Core.thread_of (p : Nat) (c : Core) (t : Nat) : Bool :=
  c.thread.allocated t && decide (c.thread.owner t = some p)

/-- All threads of the process are dead. -/
def Core.process_killed (p : Nat) (status : Int) (c : Core) : Core :=
  { c.killed (c.thread_of p) status with
    process.exiting := Function.update c.process.exiting p true
    process.live_threads := Function.update c.process.live_threads p 0 }

theorem exit_whole_process.spec {fuel : Nat} {status : Int} {k' : Kernel} (h : Books tidy k Q none)
    (hp : k.process.allocated p) (hk : p ≠ kernel_process) (hz : k.process.zombie p = false)
    (hrun : exit_whole_process fuel status p k = some k') :
    ∃ parent Q', k.process.parent p = some parent ∧ k.process.allocated parent ∧
      k'.toCore = ((k.process_killed p status).torn_down p status).all_woken
        (Q (.wait_child_exit parent)) ∧
      Books tidy k' Q' none ∧ Q' (.wait_child_exit parent) = [] ∧ Q' (.wait_thread_exit p) = [] ∧
      ∀ q, Q' q = Q q ∨ Q' q = [] := by
  simp only [exit_whole_process, Option.bind_eq_bind, Option.bind_eq_some_iff] at hrun
  obtain ⟨l, htrail, k1, hloop, k2, htear, hrun⟩ := hrun
  obtain ⟨l', hc, hm, _⟩ := h.threads p hp
  obtain rfl := (trail.chain htrail).eq_of_chain hc
  have hmain : ∀ t ∈ l, t ≠ main_thread := by
    rintro t ht rfl
    have ho := ((hm _).mp ht).2
    rw [h.main_owner] at ho
    exact hk (Option.some.inj ho).symm
  obtain ⟨ring, hring, rfl⟩ := exit_threads.spec (P := k.Runnable) hloop h.ring hc.nodup
    (fun t ht hs => ⟨((hm t).mp ht).1, hmain t ht, hs⟩) (fun t _ ht => ht.2.2)
  have hS : (fun t => decide (t ∈ l)) = k.thread_of p := by
    funext t
    rw [Core.thread_of, Bool.eq_iff_iff]
    simp [hm]
  have hS' : ∀ t, k.thread_of p t ↔ t ∈ l := fun t => by
    rw [← hS]
    exact decide_eq_true_iff
  have hkill := h.kill (k.thread_of p) status (Function.update k.process.exiting p true) 0 hp
    (fun t ht => ⟨((hm t).mp ((hS' t).mp ht)).1, ((hm t).mp ((hS' t).mp ht)).2,
      hmain t ((hS' t).mp ht)⟩)
    (hring.congr fun t => by rw [hS'])
    (Or.inr ⟨rfl, fun t ha ho => (hS' t).mpr ((hm t).mpr ⟨ha, ho⟩)⟩) (by
      intro l' hc' _
      obtain rfl := hc'.eq_of_chain hc
      symm
      rw [List.countP_eq_zero]
      intro t ht
      simp [(hS' t).mpr ht])
  simp only [hS] at htear
  obtain ⟨parent, Q', hpar, hpara, hcore, hbooks, hQp, hQ⟩ := process_teardown.spec hkill hp hk hz
    (Function.update_self _ _ _) (h.threads_any p hp (Option.some_ne_none p)) (h.mutex_listed rfl)
    htear
  have hcore : k2.toCore = ((k.process_killed p status).torn_down p status).all_woken
    (Q (.wait_child_exit parent)) := hcore
  obtain ⟨hp2, hex2⟩ : k2.process.allocated p ∧ k2.process.exiting p := by
    obtain ⟨cr3, process_cr3, p4s, htd⟩ :=
      Core.torn_down_frame p status (k.process_killed p status)
    rw [hcore, htd]
    exact ⟨hp, Function.update_self _ _ _⟩
  obtain ⟨hcore', hbooks'⟩ := PROC_unblock_all.spec (q := .wait_thread_exit p) hbooks hp2 hrun
  have hdead : ∀ x ∈ Q' (.wait_thread_exit p), k2.thread.run_state x ≠ .blocked := by
    intro x hx
    have hxa := hbooks.queue_allocated (.wait_thread_exit p) hp2 (Or.inl nofun) x hx
    rw [hbooks.exiting p hp2 hex2 x hxa (hbooks.queue_owner (q := .wait_thread_exit p) hp2 (Or.inr rfl) hx)]
    nofun
  rw [Core.all_woken_dead hdead, hcore] at hcore'
  refine ⟨parent, _, hpar, hpara, hcore', hbooks', ?_, Function.update_self _ _ _, fun q => ?_⟩
  · rw [Function.update_of_ne (by nofun)]
    exact hQp
  · by_cases he : q = .wait_thread_exit p
    · subst he
      exact Or.inr (Function.update_self _ _ _)
    · rw [Function.update_of_ne he]
      exact hQ q

/-- One thread of the process is dead, and the process has one thread less. -/
def Core.thread_killed (t p : Nat) (status : Int) (c : Core) : Core :=
  (c.killed (· = t) status).drop_live p

/-- The count without one of the threads that are alive. -/
theorem countP_alive_remove {l : List Nat} {rs : Nat → RunState} (hnd : l.Nodup) (ht : t ∈ l)
    (hz : rs t ≠ .zombie) : l.countP (fun x => !decide (x = t) && decide (rs x ≠ .zombie)) =
      l.countP (fun x => decide (rs x ≠ .zombie)) - 1 := by
  obtain ⟨s, l', rfl⟩ := List.append_of_mem ht
  simp only [List.nodup_append, List.nodup_cons, List.mem_cons] at hnd
  have hs : s.countP (fun x => !decide (x = t) && decide (rs x ≠ .zombie)) =
      s.countP (fun x => decide (rs x ≠ .zombie)) := by
    refine List.countP_congr fun x hx => ?_
    have hxt : x ≠ t := fun he => hnd.2.2 x hx t (Or.inl rfl) he
    simp [hxt]
  have hl' : l'.countP (fun x => !decide (x = t) && decide (rs x ≠ .zombie)) =
      l'.countP (fun x => decide (rs x ≠ .zombie)) := by
    refine List.countP_congr fun x hx => ?_
    have hxt : x ≠ t := fun he => hnd.2.1.1 (he ▸ hx)
    simp [hxt]
  simp only [List.countP_append, List.countP_cons, hs, hl']
  simp [hz]

theorem exit_single_thread.spec {fuel : Nat} {status : Int} {k' : Kernel} (h : Books tidy k Q none)
    (ha : k.thread.allocated t) (ho : k.thread.owner t = some p) (hp : k.process.allocated p)
    (hmain : t ≠ main_thread) (hs : k.thread.run_state t = .running)
    (hrun : exit_single_thread fuel status p t k = some k') :
    (1 < k.process.live_threads p ∧
      k'.toCore = (k.thread_killed t p status).all_woken (Q (.wait_thread_exit p)) ∧
      Books tidy k' (Function.update Q (.wait_thread_exit p) []) none) ∨
    ∃ parent Q', p ≠ kernel_process ∧ k.process.live_threads p = 1 ∧
      k.process.parent p = some parent ∧ k.process.allocated parent ∧
      k'.toCore = ((k.thread_killed t p status).torn_down p status).all_woken
        (Q (.wait_child_exit parent)) ∧
      Books tidy k' Q' none ∧ Q' (.wait_child_exit parent) = [] ∧ Q' (.wait_thread_exit p) = [] ∧
      ∀ q, Q' q = Q q ∨ Q' q = [] := by
  have hz : k.thread.run_state t ≠ .zombie := by simp [hs]
  have hfree : ∀ q, k.LiveQueue q → t ∉ Q q := fun q hq => h.notMem_queue hq hz (by simp [hs])
  obtain ⟨ring, hremove, hring⟩ := h.ring.remove (t := t) ⟨ha, hmain, Or.inr hs⟩
  obtain ⟨l, hc, hm, hcount⟩ := h.threads p hp
  have htl : t ∈ l := (hm t).mpr ⟨ha, ho⟩
  have hpos : 0 < k.process.live_threads p := by
    rw [hcount]
    exact List.countP_pos_iff.mpr ⟨t, htl, by simp [hz]⟩
  have hzp : k.process.zombie p = false := by
    by_contra hzp
    exact hz (h.zombie_threads hp (by simpa using hzp) ha ho)
  have hkill := h.kill (· = t) status k.process.exiting (k.process.live_threads p - 1) hp
    (fun x hx => by
      obtain rfl := of_decide_eq_true hx
      exact ⟨ha, ho, hmain⟩)
    (hring.congr fun x => by simp)
    (Or.inl ⟨rfl, fun x hx => by
      obtain rfl := of_decide_eq_true hx
      exact hfree⟩) (by
      intro l' hc' _
      obtain rfl := hc'.eq_of_chain hc
      rw [hcount, ← countP_alive_remove hc.nodup htl hz])
  simp only [exit_single_thread, PROC_remove, Core.drop_live, hremove, Option.map_some,
    Option.bind_eq_bind, Option.bind_some, Option.bind_eq_some_iff] at hrun
  obtain ⟨k1, hun, hrun⟩ := hrun
  have hstate : ({ k with
      toCore := k.thread_killed t p status
      links.ring := ring } : Kernel) = { k with
        thread.run_state := Function.update k.thread.run_state t .zombie
        thread.exit_status := Function.update k.thread.exit_status t status
        process.live_threads :=
          Function.update k.process.live_threads p (k.process.live_threads p - 1)
        links.ring := ring } := by
    rw [Core.thread_killed, Core.killed_one hz]
    rfl
  have hun : PROC_unblock_all (.wait_thread_exit p) fuel { k with
      toCore := k.thread_killed t p status
      links.ring := ring } = some k1 := by
    rw [hstate]
    exact hun
  obtain ⟨hcore1, hbooks1⟩ := PROC_unblock_all.spec (q := .wait_thread_exit p) hkill hp hun
  have hcore1 : k1.toCore = (k.thread_killed t p status).all_woken (Q (.wait_thread_exit p)) := hcore1
  have hlive1 : k1.process.live_threads p = k.process.live_threads p - 1 := by
    rw [hcore1]
    exact Function.update_self _ _ _
  have hz1 : k1.process.zombie p = false := by
    rw [hcore1]
    exact hzp
  have hany1 : ∃ t, k1.thread.allocated t ∧ k1.thread.owner t = some p := by
    rw [hcore1]
    exact ⟨t, ha, ho⟩
  have hlisted1 : ∀ m, k1.mutex.allocated m → m ∈ k1.mutex.list := by
    rw [hcore1]
    exact h.mutex_listed rfl
  split at hrun
  · rename_i hlast
    right
    have hone : k.process.live_threads p = 1 := by omega
    have hk : p ≠ kernel_process := by
      rintro rfl
      have hml : main_thread ∈ l := (hm _).mpr ⟨h.main_allocated, h.main_owner⟩
      have hmz : k.thread.run_state main_thread ≠ .zombie := by
        rcases h.main_state with hms | hms <;> rw [hms] <;> simp
      have hzero := countP_alive_remove hc.nodup htl hz
      rw [← hcount, hone] at hzero
      have := List.countP_eq_zero.mp hzero main_thread hml
      simp [hmz, Ne.symm hmain] at this
    -- all threads of the process are dead by now, so none is woken
    have hdead : ∀ x ∈ Q (.wait_thread_exit p),
        (k.thread_killed t p status).thread.run_state x ≠ .blocked := by
      intro x hx
      have hxa := h.queue_allocated (.wait_thread_exit p) hp (Or.inl (by simp)) x hx
      have hxo := h.queue_owner (q := .wait_thread_exit p) hp (Or.inr rfl) hx
      obtain ⟨l', _, hm', hcount'⟩ := hkill.threads p hp
      simp only [Function.update_self, hone, Nat.sub_self] at hcount'
      have := List.countP_eq_zero.mp hcount'.symm x ((hm' x).mpr ⟨hxa, hxo⟩)
      simp only [ne_eq, decide_not, Bool.not_eq_eq_eq_not, Bool.not_true, decide_eq_false_iff_not,
        not_not] at this
      rw [show (k.thread_killed t p status).thread.run_state x = .zombie from this]
      simp
    rw [Core.all_woken_dead hdead] at hcore1
    have hp1 : k1.process.allocated p := by
      rw [hcore1]
      exact hp
    obtain ⟨parent, Q', hpar, hpara, hcore, hbooks, hQp, hQ⟩ := process_teardown.spec hbooks1 hp1 hk
      hz1 hlast hany1 hlisted1 hrun
    rw [Function.update_of_ne (by simp), hcore1] at hcore
    rw [hcore1] at hpar hpara
    refine ⟨parent, Q', hk, hone, hpar, hpara, hcore, hbooks, hQp, ?_, fun q => ?_⟩
    · rcases hQ (.wait_thread_exit p) with he | he
      · rw [he, Function.update_self]
      · exact he
    · by_cases he : q = .wait_thread_exit p
      · subst he
        rcases hQ (.wait_thread_exit p) with he | he
        · exact Or.inr (by rw [he, Function.update_self])
        · exact Or.inr he
      · have := hQ q
        rwa [Function.update_of_ne he] at this
  · rename_i hmore
    cases hrun
    left
    exact ⟨by omega, hcore1, hbooks1.close (by simp [hz1, hmore]) hany1 hlisted1 fun _ _ _ => hz1⟩

end JamsOs
