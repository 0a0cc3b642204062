-- Keys and the threads that wait for them. Each key wakes one thread, and so a thread that waits while
-- there are keys is outnumbered by threads that were woken. A process that ends takes the threads
-- that were woken for a key with it, and not the key.
import JamsOs.QuietMoves
import JamsOs.SchedulerState

namespace JamsOs

open Linked Runs

variable {tidy : Prop} {e : Event} {k k' : Kernel} {c c' : Core} {Q Q' : QueueRef → List Nat}
  {n : Ptr} {t p x fuel : Nat}

/-! ## Readers -/

/-- The thread is blocked on the keyboard queue. -/
def Core.waits_for_key (c : Core) (t : Nat) : Bool :=
  c.thread.allocated t && c.thread.run_state t = .blocked && (c.thread.pc t).call = some .getc

/-- The thread was woken from the keyboard queue, and has not yet looked into the buffer again. -/
def Core.woken_by_key (c : Core) (t : Nat) : Bool :=
  c.thread.allocated t && (c.thread.run_state t = .ready || c.thread.run_state t = .running) &&
    (c.thread.pc t).call = some .getc

/-- While a thread waits for a key, there are no more keys than threads that were woken. -/
def KeysServed (c : Core) : Prop :=
  c.kbd_buf ≠ [] → (∃ t, c.waits_for_key t) →
    (c.kbd_buf.length : ℕ∞) ≤ {t | c.woken_by_key t}.encard

theorem Core.waits_for_key_iff : c.waits_for_key t ↔ c.thread.allocated t ∧
    c.thread.run_state t = .blocked ∧ (c.thread.pc t).call = some .getc := by
  simp [Core.waits_for_key, and_assoc]

theorem Core.woken_by_key_iff : c.woken_by_key t ↔ c.thread.allocated t ∧
    (c.thread.run_state t = .ready ∨ c.thread.run_state t = .running) ∧
    (c.thread.pc t).call = some .getc := by
  simp [Core.woken_by_key, and_assoc]

theorem RunState.runnable_iff {s : RunState} : s = .ready ∨ s = .running ↔ s ≠ .zombie ∧ s ≠ .blocked := by
  cases s <;> simp

/-- The count of keys is right when it is for some of the threads that were woken. -/
theorem KeysServed.of_subset {S : Set Nat} (hS : ∀ x ∈ S, c.woken_by_key x)
    (hlen : (∃ t, c.waits_for_key t) → (c.kbd_buf.length : ℕ∞) ≤ S.encard) : KeysServed c :=
  fun _ hwait => (hlen hwait).trans (Set.encard_le_encard hS)

theorem KeysServed.le (h : KeysServed c) (hw : c.waits_for_key t) :
    (c.kbd_buf.length : ℕ∞) ≤ {t | c.woken_by_key t}.encard := by
  by_cases hbuf : c.kbd_buf = []
  · simp [hbuf]
  · exact h hbuf ⟨t, hw⟩

theorem KeysServed.congr (h : KeysServed c) (hthread : c'.thread = c.thread)
    (hbuf : c'.kbd_buf = c.kbd_buf) : KeysServed c' := by
  unfold KeysServed Core.waits_for_key Core.woken_by_key
  rw [hthread, hbuf]
  exact h

/-! ## Steps -/

theorem Quiet.waits_for_key (hq : Quiet n t c c') (hx : c'.waits_for_key x) : c.waits_for_key x := by
  rw [Core.waits_for_key_iff] at hx ⊢
  obtain ⟨hs, hcall⟩ := hq.in_call hx.1 hx.2.2
  exact ⟨hs.allocated, hs.blocked hx.2.1, hcall⟩

/-- A thread that was woken keeps looking for its key, unless it is the current thread and has left
the call. -/
theorem Quiet.woken_by_key (hq : Quiet n t c c') (hx : c.woken_by_key x)
    (hstay : x = t → (c'.thread.pc t).call = some .getc) : c'.woken_by_key x := by
  rw [Core.woken_by_key_iff, RunState.runnable_iff] at hx ⊢
  obtain ⟨ha, ⟨hz, hb⟩, hcall⟩ := hx
  obtain ⟨ha', hs⟩ := hq.kept x ha hz
  refine ⟨ha', ⟨fun hz' => hz (hs.zombie.mp hz'), fun hb' => hb (hs.blocked hb')⟩, ?_⟩
  rcases hs.call with he | ⟨rfl, _⟩
  · exact he.trans hcall
  · exact hstay rfl

theorem KeysServed.quiet (h : KeysServed c) (hq : Quiet n t c c') (hbuf : c'.kbd_buf = c.kbd_buf)
    (hstay : (c.thread.pc t).call = some .getc → (c'.thread.pc t).call = some .getc) :
    KeysServed c' := by
  refine .of_subset (S := {t | c.woken_by_key t}) (fun x hx => ?_) fun ⟨y, hy⟩ => ?_
  · refine hq.woken_by_key hx ?_
    rintro rfl
    exact hstay (Core.woken_by_key_iff.mp hx).2.2
  · rw [hbuf]
    exact h.le (hq.waits_for_key hy)

/-- The current thread takes a key. -/
theorem KeysServed.getc {ch : BitVec 8} {kbd_buf : List (BitVec 8)} (h : KeysServed c)
    (hq : Quiet n t c c') (hbuf : c.kbd_buf = ch :: kbd_buf) (hbuf' : c'.kbd_buf = kbd_buf) :
    KeysServed c' := by
  refine .of_subset (S := {t | c.woken_by_key t} \ {t}) (fun x hx => ?_) fun ⟨y, hy⟩ => ?_
  · exact hq.woken_by_key hx.1 fun he => absurd he hx.2
  · have hle := h.le (hq.waits_for_key hy)
    rw [hbuf, List.length_cons, Nat.cast_add, Nat.cast_one] at hle
    have hone := tsub_le_iff_right.mp
      (Set.encard_tsub_one_le_encard_sdiff_singleton {t | c.woken_by_key t} t)
    rw [hbuf']
    exact (ENat.add_le_add_iff_right ENat.one_ne_top).mp (hle.trans hone)

/-- A key comes, and wakes the first reader that is alive. -/
theorem KeysServed.key {r : Ptr} {dead rest : List Nat} {kbd_buf : List (BitVec 8)}
    (h : KeysServed k.toCore) (hb : Books tidy k Q none)
    (hbuf : kbd_buf = k.kbd_buf ∨ ∃ ch, kbd_buf = k.kbd_buf ++ [ch])
    (hQ : Q .kbd_wait_queue = dead ++ r.toList ++ rest)
    (hdead : ∀ x ∈ dead, k.thread.run_state x = .zombie) (hnone : r = none → rest = [])
    (hsome : ∀ x, r = some x → k.thread.run_state x = .blocked) :
    KeysServed ({ k.toCore with kbd_buf := kbd_buf }.woken r) := by
  have hlen : kbd_buf.length ≤ k.kbd_buf.length + 1 := by
    rcases hbuf with rfl | ⟨ch, rfl⟩ <;> simp
  cases r with
  | none =>
    -- all threads on the queue are dead
    refine .of_subset (S := ∅) (fun x hx => hx.elim) fun ⟨y, hy⟩ => ?_
    obtain ⟨ha, hbl, hcall⟩ := Core.waits_for_key_iff.mp hy
    have hin : y ∈ Q .kbd_wait_queue := hb.mem_queue ha hbl (by
      have hcall' : (k.thread.pc y).call = some .getc := hcall
      simp [Core.place, hcall', Call.queue])
    rw [hQ, hnone rfl] at hin
    have hz := hdead y (by simpa using hin)
    have hbl' : k.thread.run_state y = .blocked := hbl
    rw [hz] at hbl'
    cases hbl'
  | some x =>
    have hin : x ∈ Q .kbd_wait_queue := by simp [hQ]
    have hbl := hsome x rfl
    have ha : k.thread.allocated x := by
      rcases hb.queue_state .kbd_wait_queue trivial x hin with hz | ⟨ha, _⟩
      · rw [hbl] at hz
        cases hz
      · exact ha
    have hplace := hb.queue_place .kbd_wait_queue trivial x hin
    have hcall : (k.thread.pc x).call = some .getc := by
      simp only [Core.place, Option.bind_eq_some_iff] at hplace
      obtain ⟨call, hcall, hq⟩ := hplace
      cases call with
      | getc => exact hcall
      | lock id m => simp [Call.queue] at hq
      | wait status => simp [Call.queue] at hq
      | join tid status => simp [Call.queue] at hq
    have hwait : k.waits_for_key x := Core.waits_for_key_iff.mpr ⟨ha, hbl, hcall⟩
    have hnot : x ∉ {t | k.woken_by_key t} := by
      intro hx
      have hs := (Core.woken_by_key_iff.mp hx).2.1
      rw [hbl] at hs
      simp at hs
    refine .of_subset (S := insert x {t | k.woken_by_key t}) ?_ fun _ => ?_
    · intro y hy
      rw [Core.woken_by_key_iff]
      by_cases he : y = x
      · subst he
        exact ⟨ha, Or.inl (Function.update_self _ _ _), hcall⟩
      · obtain ⟨ha', hs, hcall'⟩ := Core.woken_by_key_iff.mp (hy.resolve_left he)
        refine ⟨ha', ?_, hcall'⟩
        simpa [Core.woken, Core.set_run_state, he] using hs
    · rw [Set.encard_insert_of_notMem hnot]
      refine le_trans ?_ (add_le_add_left (h.le hwait) 1)
      exact_mod_cast hlen

/-- The current thread stops, and no thread that was woken dies. -/
theorem KeysServed.stopped (h : KeysServed c) (hbuf : c'.kbd_buf = c.kbd_buf)
    (ha : c'.thread.allocated = c.thread.allocated)
    (hpc : ∀ x, (c'.thread.pc x).call = (c.thread.pc x).call ∨
      (c.thread.pc x).call ≠ some .getc ∧ (c'.thread.pc x).call ≠ some .getc)
    (hblocked : ∀ x, (c.thread.pc x).call = some .getc → c'.thread.run_state x = .blocked →
      c.thread.run_state x = .blocked)
    (hdead : ∀ x, c.woken_by_key x → c'.thread.run_state x ≠ .zombie) : KeysServed c' := by
  have hcall : ∀ x, (c'.thread.pc x).call = some .getc ↔ (c.thread.pc x).call = some .getc := by
    intro x
    rcases hpc x with he | ⟨h1, h2⟩
    · rw [he]
    · simp [h1, h2]
  refine .of_subset (S := {t | c.woken_by_key t}) (fun x hx => ?_) fun ⟨y, hy⟩ => ?_
  · have hz := hdead x hx
    rw [Core.woken_by_key_iff, RunState.runnable_iff, ha, hcall]
    obtain ⟨hxa, hs, hxc⟩ := Core.woken_by_key_iff.mp hx
    refine ⟨hxa, ⟨hz, fun hb => ?_⟩, hxc⟩
    rw [hblocked x hxc hb] at hs
    simp at hs
  · rw [hbuf]
    obtain ⟨hya, hyb, hyc⟩ := Core.waits_for_key_iff.mp hy
    rw [hcall] at hyc
    exact h.le (Core.waits_for_key_iff.mpr ⟨ha ▸ hya, hblocked y hyc hyb, hyc⟩)

@[simp] theorem isr_return_kbd_buf (c : Core) : (isr_return c).kbd_buf = c.kbd_buf := by
  obtain ⟨curr, next, cr3, rsp0, hframe⟩ := isr_return.frame c
  rw [hframe]

@[simp] theorem Core.ret_kbd_buf (t : Nat) (call : Syscall) (value : Int) (status : Option Int)
    (c : Core) : (c.ret t call value status).kbd_buf = c.kbd_buf :=
  isr_return_kbd_buf _

@[simp] theorem Core.elect_kbd_buf (candidate : Ptr) (c : Core) :
    (c.elect candidate).kbd_buf = c.kbd_buf := by
  rw [Core.elect_frame]

@[simp] theorem Core.woken_kbd_buf (r : Ptr) (c : Core) : (c.woken r).kbd_buf = c.kbd_buf := by
  cases r <;> rfl

@[simp] theorem MMU_destroy_p4.kbd_buf (p4 : Word) (c : Core) :
    (MMU_destroy_p4 p4 c).kbd_buf = c.kbd_buf := by
  obtain ⟨p4s, hframe⟩ := MMU_destroy_p4.frame p4 c
  rw [hframe]

theorem Core.torn_down_kbd_buf (p : Nat) (status : Int) (c : Core) :
    (c.torn_down p status).kbd_buf = c.kbd_buf := by
  obtain ⟨cr3, process_cr3, p4s, hframe⟩ := c.torn_down_frame p status
  rw [hframe]
  rfl

theorem Core.Dropped.kbd_buf (hd : c.Dropped c') : c'.kbd_buf = c.kbd_buf := by
  cases hd <;> rfl

theorem Pc.Runs.call_ne {pc : Pc} (h : pc.Runs) : pc.call ≠ some .getc := by
  intro hcall
  cases pc with
  | window w =>
    have hw : w.call = some .getc := hcall
    unfold Pc.Runs at h
    simp [hw] at h
  | yield call => exact h.elim
  | _ => cases hcall

/-- The step ends no process in which a thread was woken by a key and has not yet looked for it. -/
def spares_woken (fuel : Nat) (e : Event) (k : Kernel) : Bool :=
  match e, k.curr_proc.bind k.thread.owner with
  | .call (.exit _), some p =>
    p = kernel_process ||
      match trail k.links.next_thread fuel (k.links.threads p) with
      | none => false
      | some threads => threads.all fun t => !k.woken_by_key t
  | _, _ => true

theorem spares_woken.spec {status : Int} (h : Books tidy k Q none) (ht : k.curr_proc = some t)
    (ho : k.thread.owner t = some p) (hp : p ≠ kernel_process) (hpa : k.process.allocated p)
    (hok : spares_woken fuel (.call (.exit status)) k) (hx : k.thread.allocated x)
    (hxo : k.thread.owner x = some p) : ¬k.woken_by_key x := by
  obtain ⟨l, hc, hm, _⟩ := h.threads p hpa
  simp only [spares_woken, ht, Option.bind_some, ho, hp, decide_false, Bool.false_or] at hok
  split at hok
  · cases hok
  · rename_i threads hthreads
    obtain rfl := (trail.chain hthreads).eq_of_chain hc
    simpa using List.all_eq_true.mp hok x ((hm x).mpr ⟨hx, hxo⟩)

theorem KeysServed.stop (hk : KeysServed k.toCore) (h : Books tidy k Q none) (hcpu : Cpu k.toCore)
    (ht : k.curr_proc = some t) (hok : spares_woken fuel e k)
    (hs : Stop e k.toCore Q t c' Q') : KeysServed c' := by
  -- the run states after threads have died and the next one was picked
  have hexit : ∀ (c1 : Core) (S : Nat → Bool) status l candidate, c1.kbd_buf = k.kbd_buf →
      c1.thread = ((k.killed S status).all_woken l).thread → c1.Picks candidate →
      (∀ x, S x → ¬k.woken_by_key x) → KeysServed (isr_return (c1.elect candidate)) := by
    intro c1 S status l candidate hbuf hc1 hpick hS
    obtain ⟨⟨run_state, exit_status, hthread⟩, hdead, _⟩ := Core.elect_killed hc1 hpick
    refine hk.stopped (by rw [isr_return_kbd_buf, Core.elect_kbd_buf, hbuf]) (by rw [hthread])
      (fun x => Or.inl (by rw [hthread])) (fun x _ hb => ?_) (fun x hx hz => ?_)
    · rw [isr_return_thread, Core.elect_blocked hpick, hc1] at hb
      exact (Core.killed_blocked hb).2.2
    · rcases (hdead x).mp hz with hxS | hxz
      · exact hS x hxS hx
      · have hs := (Core.woken_by_key_iff.mp hx).2.1
        rw [hxz] at hs
        simp at hs
  have huser : k.thread.pc t = .user → ¬k.woken_by_key t := by
    intro hpc hw
    have hcall := (Core.woken_by_key_iff.mp hw).2.2
    rw [hpc] at hcall
    cases hcall
  cases hs with
  | @block q call hpc hu hq hwait =>
    cases hg : decide (call = .getc) with
    | true =>
      obtain rfl := of_decide_eq_true hg
      have hbuf : k.kbd_buf = [] := hwait
      exact fun hne => absurd hbuf hne
    | false =>
      have hne : call ≠ .getc := of_decide_eq_false hg
      have hcall : (k.thread.pc t).call ≠ some .getc := by
        cases call with
        | getc => exact absurd rfl hne
        | lock id m => rcases hpc with ⟨hpc, _⟩ | ⟨m, hpc⟩ <;> rw [hpc] <;> nofun
        | _ => rcases hpc with ⟨hpc, _⟩ | hpc <;> rw [hpc] <;> nofun
      refine hk.stopped rfl rfl (fun x => ?_) (fun x hx hb => ?_) fun x hx hz => ?_
      · by_cases he : x = t
        · subst he
          exact Or.inr ⟨hcall, by simpa [Core.blocked_in, Pc.call] using hne⟩
        · simp [Core.blocked_in, he]
      · have he : x ≠ t := by
          rintro rfl
          exact hcall hx
        simpa [Core.blocked_in, Core.set_run_state, he] using hb
      · obtain ⟨_, hs, hxc⟩ := Core.woken_by_key_iff.mp hx
        have he : x ≠ t := by
          rintro rfl
          exact hcall hxc
        simp only [Core.blocked_in, Core.set_run_state, Function.update_of_ne he] at hz
        rw [hz] at hs
        simp at hs
  | @exit_thread candidate p status hpc hmain ho he hlive hpick =>
    refine hexit _ (· = t) status _ candidate rfl rfl hpick fun x hx => ?_
    exact of_decide_eq_true hx ▸ huser hpc
  | @exit_process candidate p parent status c1 Q' hpc hmain ho hp hc1 hparent hpick hQp hQt hQ =>
    have hbuf : (c1.torn_down p status).kbd_buf = k.kbd_buf := by
      rw [Core.torn_down_kbd_buf]
      rcases hc1 with ⟨rfl, _⟩ | ⟨rfl, _⟩ <;> rfl
    have hthread := Core.all_woken_thread (c1.torn_down_thread p status) (Q (.wait_child_exit parent))
    rcases hc1 with ⟨rfl, rfl⟩ | ⟨rfl, _⟩
    · refine hexit _ (k.thread_of p) status _ candidate hbuf hthread hpick fun x hx => ?_
      obtain ⟨p', ho', hpa⟩ := h.owner t (hcpu.alive ht).1
      obtain rfl : p = p' := Option.some.inj (ho.symm.trans ho')
      simp only [Core.thread_of, Bool.and_eq_true, decide_eq_true_eq] at hx
      exact spares_woken.spec h ht ho hp hpa hok hx.1 hx.2
    · refine hexit _ (· = t) status _ candidate hbuf hthread hpick fun x hx => ?_
      exact of_decide_eq_true hx ▸ huser hpc

theorem KeysServed.move (hk : KeysServed k.toCore) (h : Books tidy k Q none) (hcpu : Cpu k.toCore)
    (ht : k.curr_proc = some t) (hok : spares_woken fuel e k)
    (hm : Move e k.toCore Q t c' Q') : KeysServed c' := by
  rcases hm.quiet h (hcpu.alive ht).1 with hq | hs
  swap
  · exact hk.stop h hcpu ht hok hs
  -- a thread at another place than `getc` was not woken by a key
  have hother : ∀ pc, k.thread.pc t = pc → pc.call ≠ some .getc →
      (k.thread.pc t).call = some .getc → (c'.thread.pc t).call = some .getc := by
    rintro pc rfl hne hcall
    exact absurd hcall hne
  have huser : k.thread.pc t = .user → (k.thread.pc t).call = some .getc →
      (c'.thread.pc t).call = some .getc := fun hpc => hother .user hpc (by simp [Pc.call])
  have hruns : (k.thread.pc t).Runs → (k.thread.pc t).call = some .getc →
      (c'.thread.pc t).call = some .getc := fun hr => hother _ rfl hr.call_ne
  cases hm with
  | stop hs => exact hk.stop h hcpu ht hok hs
  | timer hpick =>
    refine hk.quiet hq (by simp) fun hcall => ?_
    rw [isr_return_thread, Core.elect_frame]
    exact hcall
  | key_ignored =>
    refine hk.quiet hq (by simp) fun hcall => ?_
    rw [isr_return_thread]
    exact hcall
  | key hbuf hQ hdead hnone hsome =>
    exact (hk.key h hbuf hQ hdead hnone hsome).congr (isr_return_thread _) (isr_return_kbd_buf _)
  | yield hpc hpick => exact hk.quiet hq (by simp) (huser hpc)
  | @resume candidate call hpc hpick =>
    refine hk.quiet hq (by simp [Core.set_pc]) fun hcall => ?_
    rw [isr_return_thread, Core.elect_frame]
    simp only [Core.set_pc, Function.update_self]
    rw [hpc] at hcall
    exact call.resume_call.trans hcall
  | fails hpc hvalue => exact hk.quiet hq (by simp) (hruns hpc)
  | wait hpc | join hpc | lock hpc => exact hk.quiet hq (Core.ret_kbd_buf _ _ _ _ _) (hruns hpc)
  | getc hpc hbuf => exact hk.getc hq hbuf (Core.ret_kbd_buf _ _ _ _ _)
  | mutex_create hpc | clone hpc | clone_fails hpc | fork hpc | mutex_destroy hpc =>
    exact hk.quiet hq (Core.ret_kbd_buf _ _ _ _ _) (huser hpc)
  | unlock hpc =>
    refine hk.quiet hq ((Core.ret_kbd_buf _ _ _ _ _).trans ?_) (huser hpc)
    exact Core.woken_kbd_buf _ _
  | lock_handed hpc =>
    exact hk.quiet hq (Core.ret_kbd_buf _ _ _ _ _) (hother _ hpc fun hcall => by cases hcall)
  | create_kthread hpc | exec hpc | elf_load hpc => exact hk.quiet hq rfl (huser hpc)
  | no_kthread hpc | kthread hpc | kthread_fails hpc | elf_loaded hpc | uthread hpc =>
    exact hk.quiet hq rfl (hother _ hpc fun hcall => by cases hcall)
  | @fork_fails p4 kstack process u frame_offset c1 hpc hp4 hc1 =>
    refine hk.quiet hq ((Core.ret_kbd_buf _ _ _ _ _).trans ?_) (huser hpc)
    exact (MMU_destroy_p4.kbd_buf _ _).trans hc1.kbd_buf
  | exec_fails hpc =>
    refine hk.quiet hq ((Core.ret_kbd_buf _ _ _ _ _).trans ?_)
      (hother _ hpc fun hcall => by cases hcall)
    exact MMU_destroy_p4.kbd_buf _ _
  | exec_done hpc ho hc1 =>
    refine hk.quiet hq ((Core.ret_kbd_buf _ _ _ _ _).trans ?_)
      (hother _ hpc fun hcall => by cases hcall)
    split
    · rw [MMU_destroy_p4.kbd_buf, hc1]
    · rw [hc1]
  | elf_fails hpc =>
    exact hk.quiet hq (MMU_destroy_p4.kbd_buf _ _) (hother _ hpc fun hcall => by cases hcall)
  | uthread_fails hpc hc1 =>
    exact hk.quiet hq ((MMU_destroy_p4.kbd_buf _ _).trans hc1.kbd_buf)
      (hother _ hpc fun hcall => by cases hcall)

/-! ## Runs -/

/-- No key is stranded, when no code is interrupted halfway, no address of a thread that was killed in
`getc` is used again, and no process ends in which a thread was woken by a key and has not yet
looked for it. -/
theorem no_stranded_key (fuel : Nat) (kernel_p4 : Word) (es : List Event) (k : Kernel)
    (hm : Meets (step fuel) (fun e k => uninterrupted e k ∧ fresh_thread e k ∧ spares_woken fuel e k)
      es (started kernel_p4))
    (hrun : run (step fuel) es (started kernel_p4) = some k) : KeysServed k.toCore := by
  obtain ⟨_, _, _, hk⟩ := run_in_order (J := fun c _ => KeysServed c)
    (fun e k (h : uninterrupted e k ∧ fresh_thread e k ∧ spares_woken fuel e k) => ⟨h.1, h.2.1⟩)
    (fun hbuf => absurd rfl hbuf)
    (fun _ _ _ _ _ _ hbooks _ hcpu ht hok hk hmove => hk.move hbooks hcpu ht hok.2.2 hmove) hm hrun
  exact hk

/-- The threads 3 and 2 wait for keys, and a key wakes the thread 3. -/
theorem no_stranded_key_two_readers :
    ∃ k, run (step 20) (boot ++ [fork, .timer, clone 4, .call .getc, .run, .call .getc, .run,
      .key 0x1c 0x61]) (started 0x1000) = some k ∧ KeysServed k.toCore := by
  obtain ⟨k, hk⟩ := Option.isSome_iff_exists.mp (show (run (step 20) (boot ++ [fork, .timer, clone 4,
    .call .getc, .run, .call .getc, .run, .key 0x1c 0x61]) (started 0x1000)).isSome by decide +kernel)
  exact ⟨k, hk, no_stranded_key 20 0x1000 _ k (by decide +kernel) hk⟩

/-- The threads 3 and 2 wait for keys, and a key wakes the thread 3. The thread 4 ends its process, and
the thread 3 with it. The key stays in the buffer, and the thread 2 waits. -/
def stranded_key_run : List Event :=
  boot ++ [fork, .timer, clone 4, .call .getc, .run, .call .getc, .run, .key 0x1c 0x61,
    .call (.exit 0)]

theorem key_stranded_by_exit :
    ∃ k, run (step 20) stranded_key_run (started 0x1000) = some k ∧ ¬KeysServed k.toCore := by
  obtain ⟨k, hk⟩ := Option.isSome_iff_exists.mp
    (show (run (step 20) stranded_key_run (started 0x1000)).isSome by decide +kernel)
  have hstate : (run (step 20) stranded_key_run (started 0x1000)).all (fun k =>
      k.kbd_buf = [0x61] ∧ k.waits_for_key 2 ∧ k.links.ring.Head = none) := by
    decide +kernel
  rw [hk, Option.all_some, decide_eq_true_iff] at hstate
  obtain ⟨hbuf, hwait, hhead⟩ := hstate
  refine ⟨k, hk, fun h => ?_⟩
  have hle := h.le hwait
  -- no thread can run, and so none was woken
  obtain ⟨Q, hbooks, hcpu, _⟩ := run_in_order (J := fun _ _ => True) (fun _ _ h => h) trivial
    (fun _ _ _ _ _ _ _ _ _ _ _ _ _ => trivial)
    (show Meets (step 20) (fun e k => uninterrupted e k ∧ fresh_thread e k) stranded_key_run
      (started 0x1000) by decide +kernel) hk
  obtain ⟨a, b, hring, hmem⟩ := hbooks.ring
  have hnil : a ++ b = [] := List.head?_eq_none_iff.mp (hring.head.symm.trans hhead)
  have hempty : {t | k.woken_by_key t} = ∅ := by
    refine Set.eq_empty_of_forall_notMem fun t ht => ?_
    obtain ⟨ha, hs, hcall⟩ := Core.woken_by_key_iff.mp ht
    have hmain : t ≠ main_thread := by
      rintro rfl
      rw [hcpu.kernel_pc main_thread ha hbooks.main_owner] at hcall
      cases hcall
    have hin := (hmem t).mpr ⟨ha, hmain, hs⟩
    rw [hnil] at hin
    cases hin
  rw [hempty, hbuf] at hle
  simp at hle

end JamsOs
