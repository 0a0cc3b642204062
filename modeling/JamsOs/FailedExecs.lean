-- `exec`, from the file name in user memory to the new program. When it fails the caller goes on as
-- before, and when it succeeds the frames of the old program are free.
import JamsOs.FailedLoads
import JamsOs.UserPointers

namespace JamsOs.Exec

open Words RadixTree Linked

/-! ## Reading user memory -/

/-- The access at the address comes through: if the CPU finds no page, the fault handler gives a
reserved page its frame. Without a result the thread does not get any further. -/
def touch (a : Word) (s : Machine) : Option Machine :=
  if (walk 4 s.mem (frameOf s.cr3) a).getLast?.any present then some s
  else ISR14_PAGE_FAULT_HANDLER a s

def touch_all : List Word → Machine → Option Machine
  | [], s => some s
  | a :: reads, s => (touch a s).bind (touch_all reads)

/-! ## The call -/

/-- `struct syscall_frame`. -/
structure syscall_frame where
  r15 : Word
  r14 : Word
  r13 : Word
  r12 : Word
  rbp : Word
  rbx : Word
  r11 : Word
  r10 : Word
  r9 : Word
  r8 : Word
  rdi : Word
  rsi : Word
  rdx : Word
  rcx : Word
  rax : Word
  vector : Word
  err : Word
  rip : Word
  cs : Word
  rflags : Word
  rsp : Word
  ss : Word

/-- What `exec` uses of `struct process`. -/
structure ExecProcess where
  cr3 : Word
  live_threads : Nat

/-- What `exec` uses of `struct proc`. -/
structure ExecThread where
  ustack : Word
  owner : Option ExecProcess

/-- The return value, and what the call has made of the frame, of the thread and of the memory. -/
structure Execed where
  ret : Word
  frame : syscall_frame
  curr_proc : Option ExecThread
  loading : Loading

/-- The string up to its terminator. -/
def c_string (bytes : List (BitVec 8)) : List (BitVec 8) := bytes.takeWhile (· ≠ 0)

/-- `syscall_exec` after the program is loaded. The old address space is torn down when it is not the
current one any more. -/
def exec_switch (image : elf_image) (frame : syscall_frame) (t : ExecThread) (owner : ExecProcess)
    (l : Loading) : Option Execed :=
  let old_cr3 := owner.cr3
  let s := MMU_switch_p4 image.cr3 (CLI l.machine)
  let torn_down :=
    if old_cr3 ≠ 0 ∧ old_cr3 ≠ MMU_get_kernel_p4 s ∧ old_cr3 ≠ image.cr3 then
      MMU_destroy_userspace old_cr3 s
    else some s
  torn_down.map fun s =>
    { ret := 0
      frame := { frame with rip := image.entry, rsp := image.ustack_top, rdi := 0, rsi := 0, rdx := 0 }
      curr_proc := some { t with
        ustack := image.ustack_base
        owner := some { owner with cr3 := image.cr3 } }
      loading := ⟨restore_interrupts true s, l.calls⟩ }

/-- `proc_root` gives the file for a name, and `mem` the bytes that the thread finds in memory. -/
def syscall_exec (env : Env) (proc_root : Option (List (BitVec 8) → Option File))
    (mem : Word → BitVec 8) (frame : syscall_frame) (curr_proc : Option ExecThread) (l : Loading) :
    Option Execed :=
  match proc_root, curr_proc with
  | some root, some t =>
    match t.owner with
    | none => some ⟨-1, frame, curr_proc, l⟩
    | some owner =>
      if owner.live_threads ≠ 1 then some ⟨-1, frame, curr_proc, l⟩
      else
        let (ret, filename, reads) := PROC_copy_user_string mem frame.rdi FILENAME_BYTES
        match touch_all reads l.machine with
        | none => none
        | some s =>
          if ret < 0 then some ⟨-1, frame, curr_proc, ⟨s, l.calls⟩⟩
          else
            match env.elf_load_program (root (c_string filename)) ⟨s, l.calls⟩ with
            | none => none
            | some (none, l) => some ⟨-1, frame, curr_proc, l⟩
            | some (some image, l) => exec_switch image frame t owner l
  | _, _ => some ⟨-1, frame, curr_proc, l⟩

/-- The frame with which user code goes on. -/
def Execed.result (r : Execed) : syscall_frame := { r.frame with rax := r.ret }

/-! ## Page faults of the kernel on user memory -/

/-- The accesses have changed nothing but pages that were reserved, of the kernel or of the current
address space: they have a frame now. -/
structure Touched (live : List Word) (R : Multiset Nat) (s : Machine) (P : List Nat) (s' : Machine)
    (P' : List Nat) : Prop where
  sound : Sound s' live R P'
  pool : ∀ f ∈ P', f ∈ P
  taken : ∀ f ∈ P, f ∈ P' ∨ f ∈ treeFrames s'.mem (kernelTree s'.ptable_p4) ∨
    ∃ cr3 ∈ live, frameOf cr3 = frameOf s.cr3 ∧ f ∈ userFrames s'.mem (frameOf cr3)
  bytes : ∀ cr3 ∈ live, ∀ va, PML4_INDEX va ∈ userSlots →
    space_byte s'.mem (frameOf cr3) va = space_byte s.mem (frameOf cr3) va
  grows : ∀ cr3 ∈ live, userFrames s.mem (frameOf cr3) ≤ userFrames s'.mem (frameOf cr3)
  kernel_grows : treeFrames s.mem (kernelTree s.ptable_p4) ≤ treeFrames s'.mem (kernelTree s'.ptable_p4)
  kernel_cr3 : s'.kernel_cr3 = s.kernel_cr3
  cr3 : s'.cr3 = s.cr3

section

variable {live : List Word} {R : Multiset Nat} {s s1 s' : Machine} {P P1 P' : List Nat} {a : Word}
  {m m' : Nat → Frame} {p4 : Nat} {va : Word}

/-- The page table entry that a walk comes to is decided by the frames it reads. -/
theorem lookup_congr (h : ∀ f ∈ reads 4 m p4 va, m' f = m f) :
    lookup m' p4 va = lookup m p4 va ∧ ∀ e, lookup m p4 va = some e → m' e.1 = m e.1 := by
  have hstep : ∀ {k t}, (∀ f ∈ reads (k + 1) m t va, m' f = m f) → m' t = m t ∧
      ∀ c, nextTable k (m t (table_index (12 + 9 * k) va)) = some c →
        ∀ f ∈ reads k m c va, m' f = m f := by
    intro k t h
    refine ⟨h t List.mem_cons_self, fun c hc f hf => h f (List.mem_cons_of_mem _ ?_)⟩
    unfold nextTable at hc
    split at hc
    · next hl =>
      cases hc
      rw [if_pos hl]
      exact hf
    · cases hc
  obtain ⟨h4, h3⟩ := hstep h
  have h3 : ∀ c, nextTable 3 (m p4 (PML4_INDEX va)) = some c → ∀ f ∈ reads 3 m c va, m' f = m f := h3
  unfold lookup lookup_below
  rw [h4]
  rcases hpdpt : nextTable 3 (m p4 (PML4_INDEX va)) with _ | pdpt
  · exact ⟨rfl, nofun⟩
  obtain ⟨h3, h2⟩ := hstep (h3 pdpt hpdpt)
  have h2 : ∀ c, nextTable 2 (m pdpt (PDP_INDEX va)) = some c → ∀ f ∈ reads 2 m c va, m' f = m f := h2
  simp only [Option.bind_eq_bind, Option.bind_some]
  rw [h3]
  rcases hpd : nextTable 2 (m pdpt (PDP_INDEX va)) with _ | pd
  · exact ⟨rfl, nofun⟩
  obtain ⟨h2, h1⟩ := hstep (h2 pd hpd)
  have h1 : ∀ c, nextTable 1 (m pd (PD_INDEX va)) = some c → ∀ f ∈ reads 1 m c va, m' f = m f := h1
  simp only [Option.bind_some]
  rw [h2]
  rcases hpt : nextTable 1 (m pd (PD_INDEX va)) with _ | pt
  · exact ⟨rfl, nofun⟩
  refine ⟨rfl, fun e he => ?_⟩
  cases he
  exact h1 pt hpt pt List.mem_cons_self

theorem page_view_congr (h : ∀ f ∈ reads 4 m p4 va, m' f = m f) :
    page_view m' p4 va = page_view m p4 va := by
  obtain ⟨hlook, hrow⟩ := lookup_congr h
  have hword : page_word m' p4 va = page_word m p4 va := by
    unfold page_word
    rw [hlook]
    split
    · rfl
    · next e he => rw [hrow e he]
  unfold page_view
  rw [hword]
  rcases hc : childOf (page_word m p4 va) with _ | f
  · rfl
  · rw [Option.map_some, Option.map_some, h f (page_mem_reads ((page_eq m p4 va).trans hc))]
theorem Touched.refl (h : Sound s live R P) : Touched live R s P s P :=
  ⟨h, fun _ hf => hf, fun _ hf => Or.inl hf, fun _ _ _ _ => rfl, fun _ _ => le_rfl, le_rfl, rfl, rfl⟩

theorem Touched.trans (h : Touched live R s P s1 P1) (h' : Touched live R s1 P1 s' P') :
    Touched live R s P s' P' := by
  refine ⟨h'.sound, fun f hf => h.pool f (h'.pool f hf), fun f hf => ?_, fun cr3 hcr3 va hva => ?_,
    fun cr3 hcr3 => (h.grows cr3 hcr3).trans (h'.grows cr3 hcr3), h.kernel_grows.trans h'.kernel_grows,
    h'.kernel_cr3.trans h.kernel_cr3, h'.cr3.trans h.cr3⟩
  · rcases h.taken f hf with hf | hf | ⟨cr3, hcr3, hcur, hf⟩
    · rw [← h.cr3]
      exact h'.taken f hf
    · exact Or.inr (Or.inl (Multiset.mem_of_le h'.kernel_grows hf))
    · exact Or.inr (Or.inr ⟨cr3, hcr3, hcur, Multiset.mem_of_le (h'.grows cr3 hcr3) hf⟩)
  · rw [h'.bytes cr3 hcr3 va hva, h.bytes cr3 hcr3 va hva]

/-- A walk under the current P4 goes in the tree of the kernel or in that of the current address
space. -/
theorem walked_eq (h : Sound s live R P) (a : Word) : walked a s = kernelTree s.ptable_p4 ∨
    ∃ cr3 ∈ live, frameOf cr3 = frameOf s.cr3 ∧ walked a s = userTree (frameOf cr3) := by
  unfold walked
  split
  · rename_i hu
    obtain ⟨cr3, hcr3, hcur⟩ := h.current.resolve_left hu.2
    exact Or.inr ⟨cr3, hcr3, hcur.symm, by rw [hcur]⟩
  · exact Or.inl rfl

theorem ISR14_PAGE_FAULT_HANDLER.touched (h : Sound s live R P)
    (hrun : ISR14_PAGE_FAULT_HANDLER a s = some s') : ∃ P', Touched live R s P s' P' := by
  unfold ISR14_PAGE_FAULT_HANDLER travel_pagetable at hrun
  rw [travel_pagetable_in.of_lookup] at hrun
  rcases hlook : lookup s.mem (frameOf s.cr3) a with _ | e
  · simp [hlook] at hrun
  obtain ⟨hT, hlookT, hslotT⟩ := h.walked_lookup hlook
  have hwho := walked_eq h a
  generalize walked a s = T at hT hlookT hslotT hwho
  have hown := h.owns hT
  obtain ⟨r, s1, P1, hmake, -, -, hbut, -, hbyte, -⟩ := make_page_present.views hown hslotT hlookT
  rcases make_page_present.cases hown (slot_of_lookup hslotT hlookT) a with
    ⟨hp, hcase⟩ | ⟨habs, ⟨_, hcase⟩ | ⟨hd, ⟨_, hcase⟩ | hnew⟩⟩
  · simp [hlook, hp] at hrun
  · simp [hlook, hcase] at hrun
  · simp [hlook, hcase] at hrun
  obtain ⟨c, P', s2, rfl, hcase, htook, hchild⟩ := hnew
  rw [hcase] at hmake
  cases hmake
  simp only [hlook, hcase, hd, habs, Bool.not_false, Bool.and_self, if_true, Option.some.injEq] at hrun
  subst hrun
  have hedit := htook.edit hown (slot_of_lookup hslotT hlookT) (childOf_of_absent habs) hchild nofun
  have hex := hedit.exchanged
  -- the tree has one frame more, and the others are as they were
  have hT' : treeFrames s1.mem T = c ::ₘ treeFrames s.mem T := by
    have htotal := hedit.total
    rw [← Multiset.cons_coe, Multiset.add_cons, ← Multiset.cons_add] at htotal
    exact add_right_cancel htotal
  have hothers : ∀ U ∈ trees s.ptable_p4 live, U ≠ T → ∀ f ∈ treeFrames s.mem U, s1.mem f = s.mem f :=
    fun U hU hne => h.other_tree hT hU hne hex
  have hgrows : ∀ U ∈ trees s.ptable_p4 live, treeFrames s.mem U ≤ treeFrames s1.mem U := by
    intro U hU
    by_cases hUT : U = T
    · rw [hUT, hT']
      exact Multiset.le_cons_self _ _
    · rw [treeFrames_congr (hothers U hU hUT)]
  have hsound : Sound s1 live R P' := by
    refine h.edit hT hedit fun _ i _ => ?_
    rw [htook.off _ (h.table_ne_kernel hT (slot_of_lookup hslotT hlookT)) h.kernel_notMem_pool]
  refine ⟨P', hsound, fun f hf => List.mem_cons_of_mem _ hf, fun f hf => ?_, fun cr3 hcr3 va hva => ?_,
    fun cr3 hcr3 => hgrows _ (userTree_mem _ hcr3), ?_, hex.kernel_cr3, hex.cr3⟩
  · rcases List.mem_cons.mp hf with rfl | hf
    · have hmem : f ∈ treeFrames s1.mem T := by
        rw [hT']
        exact Multiset.mem_cons_self _ _
      rcases hwho with rfl | ⟨cr3, hcr3, hcur, rfl⟩
      · exact Or.inr (Or.inl (hex.ptable_p4 ▸ hmem))
      · exact Or.inr (Or.inr ⟨cr3, hcr3, hcur, hmem⟩)
    · exact Or.inl hf
  · unfold space_byte
    by_cases hU : userTree (frameOf cr3) = T
    · have hroot : T.root = frameOf cr3 := by rw [← hU]; rfl
      rw [hroot] at hbyte
      by_cases hpath : page_path va = page_path a
      · rw [page_view_of_path hpath, page_view_of_path hpath, hbyte]
      · have hview := hbut va (by rw [← hU]; exact hva) hpath
        rw [hroot] at hview
        rw [hview]
    · have hsame : ∀ f ∈ userFrames s.mem (frameOf cr3), s1.mem f = s.mem f :=
        hothers _ (userTree_mem _ hcr3) hU
      rw [page_view_congr fun f hf => hsame f (reads_subset_userFrames hva hf)]
  · rw [hex.ptable_p4]
    exact hgrows _ (kernelTree_mem _ _)

theorem touch.touched (h : Sound s live R P) (hrun : touch a s = some s') :
    ∃ P', Touched live R s P s' P' := by
  unfold touch at hrun
  split at hrun
  · cases hrun
    exact ⟨P, .refl h⟩
  · exact ISR14_PAGE_FAULT_HANDLER.touched h hrun

theorem touch_all.touched {as : List Word} (h : Sound s live R P) (hrun : touch_all as s = some s') :
    ∃ P', Touched live R s P s' P' := by
  induction as generalizing s P with
  | nil =>
    cases hrun
    exact ⟨P, .refl h⟩
  | cons a as ih =>
    obtain ⟨s1, hrun1, hrest⟩ := Option.bind_eq_some_iff.mp hrun
    obtain ⟨P1, h1⟩ := touch.touched h hrun1
    obtain ⟨P', h'⟩ := ih h1.sound hrest
    exact ⟨P', h1.trans h'⟩

/-! ## What failures leave behind -/

/-- Every frame that was free is free again, or belongs to the kernel's tables and heap, and every
live address space finds at its user addresses what it found before. -/
structure Restored (live : List Word) (R : Multiset Nat) (s : Machine) (P : List Nat) (s' : Machine)
    (P' : List Nat) : Prop where
  sound : Sound s' live R P'
  free : ∀ f ∈ P, f ∈ P' ∨ f ∈ treeFrames s'.mem (kernelTree s'.ptable_p4)
  access : ∀ cr3 ∈ live, ∀ va, PML4_INDEX va ∈ userSlots → SameAccess s.mem s'.mem (frameOf cr3) va

theorem Restored.of_reached (h : Reached live R [] s P [] s' P') : Restored live R s P s' P' := by
  refine ⟨h.sound, fun f hf => ?_, fun cr3 hcr3 va hva => ?_⟩
  · have hmem : f ∈ held s' [] + ↑P' := by
      rw [h.total]
      exact Multiset.mem_add.mpr (Or.inr hf)
    simp only [held, List.map_nil, List.sum_nil, add_zero, Multiset.mem_add] at hmem
    exact hmem.symm
  · exact sameAccess_of_reads fun f hf => h.others cr3 hcr3 f (reads_subset_userFrames hva hf)

theorem Restored.refl (h : Sound s live R P) : Restored live R s P s P := .of_reached (.refl h)

/-- The caller after an `exec` that failed: the file name may have been read, and nothing else has
happened to it. -/
structure Intact (live : List Word) (R : Multiset Nat) (frame : syscall_frame)
    (curr_proc : Option ExecThread) (s : Machine) (P : List Nat) (r : Execed) : Prop where
  curr_proc : r.curr_proc = curr_proc
  frame : r.result = { frame with rax := -1 }
  memory : ∃ s0 P0 P', Touched live R s P s0 P0 ∧ Restored live R s0 P0 r.loading.machine P'

/-- The memory after an `exec` that succeeded: the old address space is gone, and its frames are
free. -/
structure Replaced (live : List Word) (R : Multiset Nat) (old_cr3 : Word) (s : Machine) (r : Execed) :
    Prop where
  ret : r.ret = 0
  memory : ∃ cr3 P', Sound r.loading.machine (cr3 :: live.erase old_cr3) R P' ∧
    (r.curr_proc.bind ExecThread.owner).map ExecProcess.cr3 = some cr3 ∧
    ∀ f ∈ userFrames s.mem (frameOf old_cr3), f ∈ P'

/-- The switch to the new program. -/
theorem exec_switch.replaces {image : elf_image} {l : Loading} {owner : ExecProcess}
    (frame : syscall_frame) (t : ExecThread) (h : Sound l.machine ([image.cr3] ++ live) R P)
    (hold : owner.cr3 ∈ live) :
    ∃ r, exec_switch image frame t owner l = some r ∧ Replaced live R owner.cr3 l.machine r := by
  have hmem : owner.cr3 ∈ [image.cr3] ++ live := List.mem_append_right _ hold
  have hroot := Multiset.mem_cons_self (frameOf owner.cr3) (userForest l.machine.mem (frameOf owner.cr3))
  have hnew : frameOf owner.cr3 ≠ frameOf image.cr3 := by
    intro he
    exact h.head_apart hold hroot (he ▸ Multiset.mem_cons_self _ _)
  have hkernel : owner.cr3 ≠ l.machine.kernel_cr3 := by
    intro he
    refine trees_apart h.grove_nodup (kernelTree_mem _ _) (userTree_mem _ hmem)
      (kernelTree_ne_userTree _ _).symm (Sound.kernel_mem l.machine) ?_
    have hp4 : l.machine.ptable_p4 = frameOf owner.cr3 := by
      rw [he]
      rfl
    rw [hp4]
    exact hroot
  have hs : Sound (MMU_switch_p4 image.cr3 (CLI l.machine)) ([image.cr3] ++ live) R P :=
    (h.registers false l.machine.kernel_va).switch (Or.inr List.mem_cons_self)
  obtain ⟨s', P', hrun, hs', htotal, -, -⟩ := MMU_destroy_userspace.sound hs hmem hnew
  have hguard : owner.cr3 ≠ 0 ∧
      owner.cr3 ≠ MMU_get_kernel_p4 (MMU_switch_p4 image.cr3 (CLI l.machine)) ∧
      owner.cr3 ≠ image.cr3 :=
    ⟨h.nonzero _ hmem, hkernel, fun he => hnew (he ▸ rfl)⟩
  unfold exec_switch
  dsimp only
  rw [if_pos hguard, hrun]
  refine ⟨_, rfl, rfl, image.cr3, P', ?_, rfl, fun f hf => ?_⟩
  · have herase : ([image.cr3] ++ live).erase owner.cr3 = image.cr3 :: live.erase owner.cr3 :=
      List.erase_cons_tail (by simpa using fun he => hguard.2.2 he.symm)
    rw [herase] at hs'
    exact hs'.restore true
  · have hfree : f ∈ (↑P' : Multiset Nat) := by
      rw [htotal]
      exact Multiset.mem_add.mpr (Or.inl hf)
    exact hfree

/-- `exec` returns when the file name can be read. -/
theorem syscall_exec.returns {env : Env} (henv : ∀ k s, HeapMoves s (env.heap k s))
    {proc_root : Option (List (BitVec 8) → Option File)} {mem : Word → BitVec 8}
    {frame : syscall_frame} {curr_proc : Option ExecThread} {l : Loading}
    (hfiles : ∀ root, proc_root = some root → ∀ name f, root name = some f →
      ∀ ph ∈ file_headers f, UserRange ph.load_addr ph.mem_size)
    (howner : ∀ t owner, curr_proc = some t → t.owner = some owner → owner.cr3 ∈ live)
    (hcopy : touch_all (PROC_copy_user_string mem frame.rdi FILENAME_BYTES).2.2 l.machine = some s)
    (h : Sound l.machine live R P) (hzero : 0 ∉ P) :
    ∃ r, syscall_exec env proc_root mem frame curr_proc l = some r ∧
      (r.ret = -1 ∧ Intact live R frame curr_proc l.machine P r ∨
        ∃ t owner, curr_proc = some t ∧ t.owner = some owner ∧
          Replaced live R owner.cr3 l.machine r) := by
  have hfails : ∀ (l' : Loading) {s0 P0 P'}, Touched live R l.machine P s0 P0 →
      Restored live R s0 P0 l'.machine P' → ∃ r, some (⟨-1, frame, curr_proc, l'⟩ : Execed) = some r ∧
      (r.ret = -1 ∧ Intact live R frame curr_proc l.machine P r ∨
        ∃ t owner, curr_proc = some t ∧ t.owner = some owner ∧
          Replaced live R owner.cr3 l.machine r) :=
    fun _ _ _ _ ht hr => ⟨_, rfl, Or.inl ⟨rfl, rfl, rfl, _, _, _, ht, hr⟩⟩
  have hrefused := hfails l (.refl h) (.refl h)
  unfold syscall_exec
  rcases proc_root with _ | root
  · exact hrefused
  rcases curr_proc with _ | t
  · exact hrefused
  dsimp only
  rcases ht : t.owner with _ | owner
  · exact hrefused
  dsimp only
  by_cases hlive : owner.live_threads ≠ 1
  · rw [if_pos hlive]
    exact hrefused
  rw [if_neg hlive]
  rw [hcopy]
  dsimp only
  obtain ⟨P0, ht0⟩ := touch_all.touched h hcopy
  by_cases hlong : (PROC_copy_user_string mem frame.rdi FILENAME_BYTES).1 < 0
  · rw [if_pos hlong]
    exact hfails ⟨s, l.calls⟩ ht0 (.refl ht0.sound)
  rw [if_neg hlong]
  obtain ⟨image, l1, P1, hload, hr⟩ := Env.elf_load_program.reached (l := ⟨s, l.calls⟩) henv
    (root (c_string (PROC_copy_user_string mem frame.rdi FILENAME_BYTES).2.1))
    (hfiles root rfl _) ht0.sound fun h0 => hzero (ht0.pool 0 h0)
  rw [hload]
  rcases image with _ | image
  · exact hfails l1 ht0 (.of_reached hr)
  · have hold := howner t owner rfl ht
    obtain ⟨r, hrun, hret, cr3, P', hs, hcr3, hfree⟩ := exec_switch.replaces frame t hr.sound hold
    refine ⟨r, hrun, Or.inr ⟨t, owner, rfl, ht, hret, cr3, P', hs, hcr3, fun f hf => hfree f ?_⟩⟩
    have hsame : userFrames l1.machine.mem (frameOf owner.cr3) = userFrames s.mem (frameOf owner.cr3) :=
      treeFrames_congr (T := userTree (frameOf owner.cr3)) (hr.others _ hold)
    rw [hsame]
    exact Multiset.mem_of_le (ht0.grows _ hold) hf

end

end JamsOs.Exec
