-- The pointers that user code passes to the system calls. No handler checks one: `wait` and
-- `thread_join` store the exit status at any address, and `exec` reads its file name from any
-- address. The memory of the kernel is safe as long as user code passes addresses of its own.
import JamsOs.SpaceLifecycle
import JamsOs.VPages

namespace JamsOs

open Linked Runs

variable {tidy : Prop} {e : Event} {k : Kernel} {c c' : Core} {Q Q' : QueueRef → List Nat}
  {n : Ptr} {t x fuel : Nat}

/-! ## Addresses -/

/-- The address belongs to user memory. Only its low 48 bits choose a page. -/
def user_address (a : Word) : Bool := VA_USER_BASE.toNat ≤ a.toNat % 2 ^ 48

/-- The bytes of an `int` at the address. -/
def int_bytes (p : Word) : List Word := (List.range 4).map fun i => p + BitVec.ofNat 64 i

/-- The bytes that a call has stored through its status pointer when it returned. -/
def Return.stores (r : Return) : List Word :=
  match r.call, r.status with
  | .wait status, some _ => int_bytes status
  | .thread_join _ status, some _ => int_bytes status
  | _, _ => []

/-- `NULL`, or the address of an `int` in user memory. -/
def user_pointer (p : Word) : Bool := p = 0 || (int_bytes p).all user_address

/-- The status pointer of the call. -/
def Call.status : Call → Option Word
  | .wait status => some status
  | .join _ status => some status
  | _ => none

/-- User code passes no other status pointers. -/
def user_pointers (e : Event) : Bool :=
  match e with
  | .call (.wait status) => user_pointer status
  | .call (.thread_join _ status) => user_pointer status
  | _ => true

/-! ## The file name of `exec` -/

/-- The loop of `PROC_copy_user_string`, with room for `n` more bytes: the result, what was copied,
and the addresses that were read. -/
def copy_string (mem : Word → BitVec 8) : Nat → Word → Int × List (BitVec 8) × List Word
  | 0, _ => (-1, [0], [])
  | n + 1, src =>
    if mem src = 0 then (0, [0], [src])
    else
      let (ret, dst, reads) := copy_string mem n (src + 1)
      (ret, mem src :: dst, src :: reads)

def PROC_copy_user_string (mem : Word → BitVec 8) (src : Word) (dst_size : Nat) :
    Int × List (BitVec 8) × List Word :=
  if src = 0 ∨ dst_size = 0 then (-1, [], []) else copy_string mem (dst_size - 1) src

/-- The size of the array `filename` in `syscall_exec`. -/
def FILENAME_BYTES : Nat := 128

/-- The checks of `syscall_exec` before it copies the file name. -/
def exec_copies (proc_root : Bool) (t : Nat) (c : Core) : Bool :=
  proc_root && (c.thread.owner t).any fun owner => c.process.live_threads owner = 1

/-- The addresses that `syscall_exec` reads for its file name. -/
def exec_reads (proc_root : Bool) (mem : Word → BitVec 8) (filename : Word) (t : Nat) (c : Core) :
    List Word :=
  if exec_copies proc_root t c then (PROC_copy_user_string mem filename FILENAME_BYTES).2.2 else []

/-- The string at the address, or as much of it as is copied, lies in user memory. -/
def UserString (mem : Word → BitVec 8) (src : Word) (n : Nat) : Prop :=
  ∀ i < n, (∀ j < i, mem (src + BitVec.ofNat 64 j) ≠ 0) → user_address (src + BitVec.ofNat 64 i)

theorem add_ofNat_succ (src : Word) (i : Nat) :
    src + BitVec.ofNat 64 (i + 1) = src + 1 + BitVec.ofNat 64 i := by
  rw [Nat.add_comm, BitVec.ofNat_add, ← BitVec.add_assoc]
  rfl

/-- All that is read is in user memory if and only if the string is. -/
theorem copy_string.reads (mem : Word → BitVec 8) (n : Nat) (src : Word) :
    (∀ a ∈ (copy_string mem n src).2.2, user_address a) ↔ UserString mem src n := by
  induction n generalizing src with
  | zero => simp [copy_string, UserString]
  | succ n ih =>
    unfold copy_string UserString
    split
    · rename_i hend
      constructor
      · intro h i hi hj
        cases i with
        | zero => simpa using h src (by simp)
        | succ i => exact absurd (by simpa using hend) (hj 0 (Nat.succ_pos i))
      · intro h a ha
        obtain rfl : a = src := by simpa using ha
        simpa using h 0 (Nat.succ_pos n) nofun
    · rename_i hmore
      have hmem0 : mem (src + BitVec.ofNat 64 0) ≠ 0 := by simpa using hmore
      simp only [List.forall_mem_cons, ih]
      constructor
      · rintro ⟨h0, h⟩ i hi hj
        cases i with
        | zero => simpa using h0
        | succ i =>
          rw [add_ofNat_succ]
          refine h i (by omega) fun j hji => ?_
          rw [← add_ofNat_succ]
          exact hj (j + 1) (by omega)
      · intro h
        refine ⟨by simpa using h 0 (Nat.succ_pos n) nofun, fun i hi hj => ?_⟩
        rw [← add_ofNat_succ]
        refine h (i + 1) (by omega) fun j hji => ?_
        cases j with
        | zero => exact hmem0
        | succ j =>
          rw [add_ofNat_succ]
          exact hj j (by omega)

theorem exec_reads.user (proc_root : Bool) (mem : Word → BitVec 8) (filename : Word) (t : Nat)
    (c : Core) : (∀ a ∈ exec_reads proc_root mem filename t c, user_address a) ↔
      (exec_copies proc_root t c → filename ≠ 0 → UserString mem filename (FILENAME_BYTES - 1)) := by
  unfold exec_reads PROC_copy_user_string
  by_cases hchecks : exec_copies proc_root t c
  · by_cases hnull : filename = 0
    · simp [hnull]
    · rw [if_pos hchecks, if_neg (not_or.mpr ⟨hnull, nofun⟩), copy_string.reads]
      exact ⟨fun h _ _ => h, fun h => h hchecks hnull⟩
  · simp [hchecks]

/-! ## The copy of a string -/

/-- The text `l` and a terminator stand at the address. -/
def StringAt (mem : Word → BitVec 8) : Word → List (BitVec 8) → Prop
  | src, [] => mem src = 0
  | src, c :: l => mem src = c ∧ c ≠ 0 ∧ StringAt mem (src + 1) l

/-- The loop copies the whole string when its terminator is among the `n` bytes, and else the first
`n` bytes and a terminator of its own. It reads no byte behind the terminator. -/
theorem copy_string.spec {mem : Word → BitVec 8} {l : List (BitVec 8)} (n : Nat) (src : Word)
    (h : StringAt mem src l) :
    copy_string mem n src = (if l.length < n then 0 else -1, l.take n ++ [0],
      (List.range (min n (l.length + 1))).map fun i => src + BitVec.ofNat 64 i) := by
  induction n generalizing src l with
  | zero => simp [copy_string]
  | succ n ih =>
    cases l with
    | nil =>
      have hend : mem src = 0 := h
      rw [copy_string, if_pos hend]
      simp
    | cons c l =>
      obtain ⟨hc, hne, hrest⟩ := h
      have hmore : mem src ≠ 0 := hc ▸ hne
      have hreads : (fun i => src + BitVec.ofNat 64 i) ∘ Nat.succ = fun i => src + 1 + BitVec.ofNat 64 i :=
        funext (add_ofNat_succ src)
      rw [copy_string, if_neg hmore, ih (src + 1) hrest, hc, List.length_cons, Nat.succ_min_succ,
        List.range_succ_eq_map, List.map_cons, List.map_map, hreads, List.take_succ_cons,
        List.cons_append]
      simp

/-- For every string and every size of the buffer, the copy is exact unless the string just fills the
buffer. -/
theorem user_string_copy_is_exact_iff (mem : Word → BitVec 8) (src : Word) (l : List (BitVec 8))
    (dst_size : Nat) (hstr : StringAt mem src l) (hsrc : src ≠ 0) (hsize : 0 < dst_size) :
    (∀ ret dst reads, PROC_copy_user_string mem src dst_size = (ret, dst, reads) →
      (ret = 0 ↔ l.length + 1 ≤ dst_size) ∧ (ret = 0 → dst = l ++ [0]) ∧ (ret ≠ 0 → ret = -1) ∧
      0 ∈ dst ∧ dst.length ≤ dst_size ∧
      ∀ a ∈ reads, ∃ i ≤ l.length, a = src + BitVec.ofNat 64 i) ↔
    dst_size ≠ l.length + 1 := by
  have hcheck : ¬(src = 0 ∨ dst_size = 0) := not_or.mpr ⟨hsrc, by omega⟩
  rw [PROC_copy_user_string, if_neg hcheck, copy_string.spec (dst_size - 1) src hstr]
  constructor
  · intro hall hfull
    obtain ⟨hzero, -⟩ := hall _ _ _ rfl
    rw [if_neg (by omega)] at hzero
    exact absurd (hzero.mpr (by omega)) (by decide)
  · intro hne ret dst reads hrun
    cases hrun
    have hshort : (l.take (dst_size - 1) ++ [0]).length ≤ dst_size := by
      rw [List.length_append, List.length_take, List.length_singleton]
      omega
    refine ⟨?_, fun hret => ?_, fun hret => ?_, by simp, hshort, fun a ha => ?_⟩
    · by_cases hfits : l.length < dst_size - 1
      · rw [if_pos hfits]
        exact ⟨fun _ => by omega, fun _ => rfl⟩
      · rw [if_neg hfits]
        exact ⟨nofun, fun hle => by omega⟩
    · have hfits : l.length < dst_size - 1 := by
        by_contra hno
        rw [if_neg hno] at hret
        cases hret
      rw [List.take_of_length_le (by omega)]
    · by_cases hfits : l.length < dst_size - 1
      · rw [if_pos hfits] at hret
        exact absurd rfl hret
      · rw [if_neg hfits]
    · obtain ⟨i, hi, rfl⟩ := List.mem_map.mp ha
      rw [List.mem_range] at hi
      exact ⟨i, by omega, rfl⟩

/-- The string "ab" at address 1. -/
def ab_at_one (a : Word) : BitVec 8 := if a = 1 then 97 else if a = 2 then 98 else 0

/-- The string fits in a buffer of four bytes. -/
theorem user_string_copy_is_exact_ab :
    (PROC_copy_user_string ab_at_one 1 4).1 = 0 ∧
      (PROC_copy_user_string ab_at_one 1 4).2.1 = [97, 98, 0] := by
  have hstr : StringAt ab_at_one 1 [97, 98] := ⟨rfl, by decide, rfl, by decide, rfl⟩
  obtain ⟨hzero, hdst, -⟩ := (user_string_copy_is_exact_iff ab_at_one 1 [97, 98] 4 hstr (by decide)
    (by decide)).mpr (by decide) _ _ _ rfl
  have hret := hzero.mpr (by decide)
  exact ⟨hret, hdst hret⟩

/-- A buffer of three bytes has room for the text and its terminator, but the copy fails. -/
theorem user_string_copy_refuses_ab :
    StringAt ab_at_one 1 [97, 98] ∧ PROC_copy_user_string ab_at_one 1 3 = (-1, [97, 98, 0], [1, 2]) :=
  ⟨⟨rfl, by decide, rfl, by decide, rfl⟩, by decide⟩

/-! ## The status pointers of a run -/

/-- The pointers of all calls that threads are in are good ones. -/
def GoodPointers (c : Core) : Prop :=
  ∀ x call status, c.thread.allocated x → (c.thread.pc x).call = some call →
    call.status = some status → user_pointer status

/-- A status pointer was passed to the call in this step, or by a thread that is in the call. -/
theorem Call.From.pointer {call : Call} {pc : Pc} {status : Word} (h : call.From e pc)
    (hs : call.status = some status) (he : user_pointers e)
    (hin : pc.call = some call → user_pointer status) : user_pointer status := by
  cases call with
  | wait st =>
    cases hs
    rcases h with ⟨_, rfl⟩ | hpc
    · exact he
    · apply hin
      rw [hpc]
      rfl
  | join tid st =>
    cases hs
    rcases h with ⟨_, rfl⟩ | hpc
    · exact he
    · apply hin
      rw [hpc]
      rfl
  | lock | getc => cases hs

theorem Stop.in_call (hs : Stop e c Q t c' Q') (hx : c'.thread.allocated x) {call : Call}
    (hcall : (c'.thread.pc x).call = some call) : c.thread.allocated x ∧
      ((c.thread.pc x).call = some call ∨ x = t ∧ call.From e (c.thread.pc t)) := by
  cases hs with
  | @block q call' hpc huser hq hwait =>
    refine ⟨hx, ?_⟩
    simp only [Core.blocked_in] at hcall
    by_cases hxt : x = t
    · subst hxt
      rw [Function.update_self] at hcall
      cases hcall
      exact Or.inr ⟨rfl, hpc⟩
    · rw [Function.update_of_ne hxt] at hcall
      exact Or.inl hcall
  | exit_thread =>
    rw [isr_return_thread, Core.elect_frame] at hx hcall
    exact ⟨hx, Or.inl hcall⟩
  | @exit_process candidate p parent status c1 Q' hpc hmain ho hp hc1 =>
    obtain ⟨cr3, process_cr3, p4s, hframe⟩ := c1.torn_down_frame p status
    rw [isr_return_thread, Core.elect_frame, hframe] at hx hcall
    rcases hc1 with ⟨rfl, _⟩ | ⟨rfl, _⟩ <;> exact ⟨hx, Or.inl hcall⟩

theorem GoodPointers.move (hg : GoodPointers k.toCore) (h : Books tidy k Q none)
    (ha : k.thread.allocated t) (he : user_pointers e) (hm : Move e k.toCore Q t c' Q') :
    GoodPointers c' := by
  intro x call status hx hcall hs
  rcases hm.quiet h ha with hq | hstop
  · obtain ⟨hsame, hcall'⟩ := hq.in_call hx hcall
    exact hg x call status hsame.allocated hcall' hs
  · obtain ⟨hx', hcall' | ⟨rfl, hfrom⟩⟩ := hstop.in_call hx hcall
    · exact hg x call status hx' hcall' hs
    · exact hfrom.pointer hs he fun hin => hg x call status hx' hin hs

/-! ## The stores -/

/-- What a call of `t` stores when it returns: nothing, or an `int` at the pointer that it was
given. -/
def StoresAt (e : Event) (c c' : Core) (t : Nat) (r : Return) : Prop :=
  r.tid = c'.thread.tid t ∧ (r.stores = [] ∨
    ∃ call status, call.From e (c.thread.pc t) ∧ Call.status call = some status ∧ status ≠ 0 ∧
      r.stores = int_bytes status)

theorem stored_bytes {call : Call} {status : Word} {exit_status : Int} {r : Return}
    (hr : r.status = stored status exit_status) (hfrom : call.From e (c.thread.pc t))
    (hcall : r.call = .wait status ∧ call = .wait status ∨
      ∃ tid, r.call = .thread_join tid status ∧ call = .join tid status) :
    r.stores = [] ∨ ∃ call status, call.From e (c.thread.pc t) ∧ Call.status call = some status ∧
      status ≠ 0 ∧ r.stores = int_bytes status := by
  by_cases hnull : status = 0
  · left
    have hnone : r.status = none := hr.trans (if_neg (not_not_intro hnull))
    rcases hcall with ⟨h, _⟩ | ⟨tid, h, _⟩ <;> simp only [Return.stores, h, hnone]
  · have hsome : r.status = some exit_status := hr.trans (if_pos hnull)
    rcases hcall with ⟨h, rfl⟩ | ⟨tid, h, rfl⟩ <;>
      exact Or.inr ⟨_, status, hfrom, rfl, hnull, by simp only [Return.stores, h, hsome]⟩

/-- A call returns that stores nothing. -/
theorem stores_of_ret {c1 : Core} {call : Syscall} {value : Int} (hc1 : c1.returns = c.returns) :
    (c1.ret t call value none).returns = c.returns ∨
      ∃ r, (c1.ret t call value none).returns = r :: c.returns ∧
        StoresAt e c (c1.ret t call value none) t r := by
  refine Or.inr ⟨_, (Core.ret_returns _ _ _ _ _).trans (congrArg _ hc1), ?_, Or.inl ?_⟩
  · rw [Core.ret_thread]
  · unfold Return.stores
    split
    · rename_i hstatus
      cases hstatus
    · rename_i hstatus
      cases hstatus
    · rfl

/-- A move appends at most one return to the log, and what that stores is at the pointer. -/
theorem Move.stores (hm : Move e c Q t c' Q') :
    c'.returns = c.returns ∨ ∃ r, c'.returns = r :: c.returns ∧ StoresAt e c c' t r := by
  cases hm with
  | stop hs => exact Or.inl hs.returns
  | timer | key_ignored | key | resume =>
    left
    simp [Core.set_pc]
  | create_kthread | no_kthread | kthread | kthread_fails | exec | elf_load | elf_loaded | uthread =>
    exact Or.inl rfl
  | elf_fails => exact Or.inl (MMU_destroy_p4.returns _ _)
  | uthread_fails hpc hc1 => exact Or.inl ((MMU_destroy_p4.returns _ _).trans hc1.returns)
  | wait hpc hfrom =>
    exact Or.inr ⟨_, Core.ret_returns _ _ _ _ _, by rw [Core.ret_thread],
      stored_bytes rfl hfrom (Or.inl ⟨rfl, rfl⟩)⟩
  | join hpc hfrom =>
    exact Or.inr ⟨_, Core.ret_returns _ _ _ _ _, by rw [Core.ret_thread],
      stored_bytes rfl hfrom (Or.inr ⟨_, rfl, rfl⟩)⟩
  | yield => exact stores_of_ret (Core.elect_returns _ _)
  | unlock => exact stores_of_ret (Core.woken_returns _ _)
  | fork_fails hpc hp4 hc1 => exact stores_of_ret ((MMU_destroy_p4.returns _ _).trans hc1.returns)
  | exec_fails => exact stores_of_ret (MMU_destroy_p4.returns _ _)
  | exec_done hpc ho hc1 =>
    apply stores_of_ret
    split
    · rw [MMU_destroy_p4.returns, hc1]
    · rw [hc1]
  | _ => exact stores_of_ret rfl

/-- What the calls of a step store goes to the user memory of the caller, in the page table that is
loaded. -/
structure StoresInUser (k k' : Kernel) : Prop where
  user : ∀ r, k'.returns = r :: k.returns → ∀ a ∈ r.stores, user_address a
  caller : ∀ r, k'.returns = r :: k.returns → ∃ t, k.curr_proc = some t ∧ r.tid = k.thread.tid t ∧
    (k.thread.owner t ≠ some kernel_process →
      ∃ p, k.thread.owner t = some p ∧ k.UserProcess p ∧ k.cr3 = k.process.cr3 p)

theorem Move.stores_in_user {k' : Kernel} (hm : Move e k.toCore Q t k'.toCore Q')
    (h : Books tidy k Q none) (hcpu : Cpu k.toCore) (ht : k.curr_proc = some t)
    (hg : GoodPointers k.toCore) (hl : SpaceLifecycle k.toCore) (he : user_pointers e) :
    StoresInUser k k' := by
  have hstores : ∀ r, k'.returns = r :: k.returns → StoresAt e k.toCore k'.toCore t r := by
    intro r hr
    rcases hm.stores with hsame | ⟨r', hr', hat⟩
    · have := congrArg List.length (hr.symm.trans hsame)
      simp at this
    · obtain rfl : r = r' := (List.cons.inj (hr.symm.trans hr')).1
      exact hat
  constructor
  · intro r hr a ha
    obtain ⟨_, hnil | ⟨call, status, hfrom, hs, hnull, hbytes⟩⟩ := hstores r hr
    · rw [hnil] at ha
      cases ha
    · have hgood := hfrom.pointer hs he fun hin => hg t call status (hcpu.alive ht).1 hin hs
      rw [hbytes] at ha
      simp only [user_pointer, Bool.or_eq_true, decide_eq_true_eq] at hgood
      exact List.all_eq_true.mp (hgood.resolve_left hnull) a ha
  · intro r hr
    refine ⟨t, ht, ?_, fun huser => ?_⟩
    · rcases hm.quiet h (hcpu.alive ht).1 with hq | hstop
      · rw [(hstores r hr).1]
        exact (hq.kept t (hcpu.alive ht).1 (hcpu.alive ht).2).2.tid
      · have := congrArg List.length (hr.symm.trans hstop.returns)
        simp at this
    · rcases hl.cr3 with ⟨_, hkernel⟩ | ⟨t', p, ht', hp, hu, hcr3⟩
      · exact absurd (hkernel t ht) huser
      · obtain rfl : t' = t := Option.some.inj (ht'.symm.trans ht)
        exact ⟨p, hp, hu, hcr3⟩

/-- A step in order stores into the user memory of the caller. -/
theorem step_stores_in_user {k' : Kernel} (hbooks : Books False k Q none) (hcpu : Cpu k.toCore)
    (hg : GoodPointers k.toCore) (hl : SpaceLifecycle k.toCore)
    (hok : uninterrupted e k ∧ fresh_thread e k ∧ user_pointers e)
    (hstep : step fuel e k = some k') : StoresInUser k k' := by
  obtain ⟨t, ht, Q', hmove, _⟩ := step.moves hbooks hcpu hok.1 (fun u => hbooks.fresh hok.2.1)
    (fun hf => hf.elim) hstep
  exact hmove.stores_in_user hbooks hcpu ht hg hl hok.2.2

/-- As long as user code passes pointers to its own memory, `wait` and `thread_join` store into the
memory of the caller only, in every step that a run comes to. `exec` reads its file name from user
memory if and only if the string is there. -/
theorem user_pointers_respected (fuel : Nat) (kernel_p4 : Word) (es : List Event) (e : Event)
    (k k' : Kernel)
    (hm : Meets (step fuel) (fun e k => uninterrupted e k ∧ fresh_thread e k ∧ user_pointers e)
      es (started kernel_p4))
    (hrun : run (step fuel) es (started kernel_p4) = some k)
    (hok : uninterrupted e k ∧ fresh_thread e k ∧ user_pointers e)
    (hstep : step fuel e k = some k') :
    StoresInUser k k' ∧ ∀ proc_root mem filename t,
      (∀ a ∈ exec_reads proc_root mem filename t k.toCore, user_address a) ↔
        (exec_copies proc_root t k.toCore → filename ≠ 0 →
          UserString mem filename (FILENAME_BYTES - 1)) := by
  obtain ⟨Q, hbooks, hcpu, hg, hs, hl⟩ := run_in_order
    (J := fun c _ => GoodPointers c ∧ SpaceBooks c ∧ Loaded c)
    (fun e k (h : uninterrupted e k ∧ fresh_thread e k ∧ user_pointers e) => ⟨h.1, h.2.1⟩)
    ⟨(fun _ _ _ _ hcall => nomatch hcall), started_spaces kernel_p4, started_loaded kernel_p4⟩
    (fun e k k' Q t Q' hb _ hcpu ht hok ⟨hg, hs, hl⟩ hmove =>
      ⟨hg.move hb (hcpu.alive ht).1 hok.2.2 hmove, hs.move hb hcpu ht hl hmove,
        hl.move hb hcpu ht hs hmove⟩) hm hrun
  exact ⟨step_stores_in_user hbooks hcpu hg (hs.lifecycle hl hbooks hcpu) hok hstep,
    fun proc_root mem filename t => exec_reads.user proc_root mem filename t k.toCore⟩

/-- A child has ended. -/
def child_ended : List Event := boot ++ [fork, .timer, .call (.exit 7)]

/-- The parent passes the address of an `int` of its own to `wait`. -/
theorem user_pointers_respected_wait :
    ∃ k k', run (step 20) child_ended (started 0x1000) = some k ∧
      step 20 (.call (.wait 0x100000001000)) k = some k' ∧ StoresInUser k k' ∧
      k'.returns.head?.map Return.stores = some (int_bytes 0x100000001000) := by
  obtain ⟨k, hk⟩ := Option.isSome_iff_exists.mp
    (show (run (step 20) child_ended (started 0x1000)).isSome by decide +kernel)
  have hnext : (run (step 20) child_ended (started 0x1000)).all (fun k =>
      (uninterrupted (.call (.wait 0x100000001000)) k ∧
        fresh_thread (.call (.wait 0x100000001000)) k ∧
        user_pointers (.call (.wait 0x100000001000))) ∧
      (step 20 (.call (.wait 0x100000001000)) k).isSome ∧
      (step 20 (.call (.wait 0x100000001000)) k).all fun k' =>
        k'.returns.head?.map Return.stores = some (int_bytes 0x100000001000)) := by
    decide +kernel
  rw [hk, Option.all_some, decide_eq_true_iff] at hnext
  obtain ⟨hok, hsome, hstores⟩ := hnext
  obtain ⟨k', hk'⟩ := Option.isSome_iff_exists.mp hsome
  rw [hk', Option.all_some, decide_eq_true_iff] at hstores
  have hall := user_pointers_respected 20 0x1000 child_ended _ k k' (by decide +kernel) hk hok hk'
  exact ⟨k, k', hk, hk', hall.1, hstores⟩

/-- The parent passes an address in the memory of the kernel to `wait`, which stores there and frees
the child. A file name for `exec` is read from there as well. -/
theorem wait_stores_into_kernel_memory :
    ∃ k k', run (step 20) child_ended (started 0x1000) = some k ∧
      step 20 (.call (.wait 0x1000)) k = some k' ∧ ¬StoresInUser k k' ∧
      k.process.zombie 2 ∧ k'.process.allocated 2 = false ∧
      exec_reads true (fun _ => 0) 0x1000 2 k.toCore = [0x1000] ∧ user_address 0x1000 = false := by
  obtain ⟨k, hk⟩ := Option.isSome_iff_exists.mp
    (show (run (step 20) child_ended (started 0x1000)).isSome by decide +kernel)
  have hnext : (run (step 20) child_ended (started 0x1000)).all (fun k =>
      k.process.zombie 2 ∧ exec_reads true (fun _ => 0) 0x1000 2 k.toCore = [0x1000] ∧
      (step 20 (.call (.wait 0x1000)) k).isSome ∧
      (step 20 (.call (.wait 0x1000)) k).all fun k' => k'.process.allocated 2 = false ∧
        k'.returns = ⟨k.thread.tid 2, .wait 0x1000, k.process.pid 2, some 7⟩ :: k.returns) := by
    decide +kernel
  rw [hk, Option.all_some, decide_eq_true_iff] at hnext
  obtain ⟨hz, hreads, hsome, hafter⟩ := hnext
  obtain ⟨k', hk'⟩ := Option.isSome_iff_exists.mp hsome
  rw [hk', Option.all_some, decide_eq_true_iff] at hafter
  obtain ⟨hfreed, hlog⟩ := hafter
  refine ⟨k, k', hk, hk', fun h => ?_, hz, hfreed, hreads, by decide⟩
  have hkernel := h.user _ hlog 0x1000 (show 0x1000 ∈ int_bytes 0x1000 by decide)
  revert hkernel
  decide

end JamsOs
