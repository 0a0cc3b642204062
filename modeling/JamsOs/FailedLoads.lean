-- Loads that fail, at any point, and with any growth of the kernel heap in between: what was taken
-- for the new address space is given back, and no other address space is touched.
import JamsOs.LoadedImage

namespace JamsOs

open Words RadixTree Linked

/-! ## The loader among the other calls -/

/-- What happens around the calls of the loader. Before call `k` the heap may have taken pages or
given pages back; the buffer for program header `i` is granted or not; read `k` comes out whole as
far as the disk is concerned, or short. -/
structure Env where
  heap : Nat → Machine → Machine
  kmalloc_ok : Nat → Bool
  read_ok : Nat → Bool

/-- The machine, and the number of calls so far. -/
structure Loading where
  machine : Machine
  calls : Nat

namespace Env

variable (env : Env)

/-- A call of the memory manager. -/
def mmu {α : Type} (f : Machine → α × Machine) (l : Loading) : α × Loading :=
  let (a, s) := f (env.heap l.calls l.machine)
  (a, ⟨s, l.calls + 1⟩)

def ext2_file_read (len : Nat) (f : File) (l : Loading) : (Nat × (Nat → BitVec 8) × File) × Loading :=
  (if env.read_ok l.calls then JamsOs.ext2_file_read len f else (0, fun _ => 0, f),
    ⟨l.machine, l.calls + 1⟩)

/-- The heap gets the file back. -/
def close (l : Loading) : Loading := ⟨env.heap l.calls l.machine, l.calls + 1⟩

def elf_read_header (f : File) (l : Loading) : (Option ELF64_head × File) × Loading :=
  match env.ext2_file_read sizeof_head f l with
  | ((n, b, f), l) =>
    if n ≠ sizeof_head then ((none, f), l)
    else
      let header := ELF64_head.ofBytes b
      if header.magic ≠ ELF_MAGIC then ((none, f), l) else ((some header, f), l)

/-- The loop of `elf_load_segment`. -/
def load_loop (cr3 : Word) (remaining : Nat) (dst : Word) (f : File) (l : Loading) :
    (Bool × File) × Loading :=
  if 0 < remaining then
    let chunk := min remaining 4096
    match env.ext2_file_read chunk f l with
    | ((n, bounce, f), l) =>
      if n ≠ chunk then ((false, f), l)
      else
        match env.mmu (MMU_copy_to_user_as cr3 dst (some bounce) (BitVec.ofNat 64 chunk)) l with
        | (false, l) => ((false, f), l)
        | (true, l) => load_loop cr3 (remaining - chunk) (dst + BitVec.ofNat 64 chunk) f l
  else ((true, f), l)
termination_by remaining

def elf_load_segment (ph : ELF64_prog_head) (cr3 : Word) (kmalloc_ok : Bool) (f : File)
    (l : Loading) : (Bool × File) × Loading :=
  let (base, l) := env.mmu (MMU_alloc_at_as cr3 ph.load_addr ph.mem_size) l
  if base = 0 then ((false, f), l)
  else
    let f := (ext2_file_lseek (ph.file_offset.setWidth 32) f).2
    if 0 < ph.file_size && !kmalloc_ok then ((false, f), l)
    else
      match env.load_loop cr3 ph.file_size.toNat ph.load_addr f l with
      | ((false, f), l) => ((false, f), l)
      | ((true, f), l) =>
        if ph.file_size < ph.mem_size then
          let (ret, l) := env.mmu
            (MMU_zero_user_as cr3 (ph.load_addr + ph.file_size) (ph.mem_size - ph.file_size)) l
          ((ret, f), l)
        else ((true, f), l)

/-- The loop of `elf_load_segments` from program header `i` on, with `n` of them left. -/
def segments_loop (header : ELF64_head) (cr3 : Word) (i : Nat) :
    Nat → Word → File → Loading → (Bool × File) × Loading
  | 0, _, f, l => ((true, f), l)
  | n + 1, current_ph_pos, f, l =>
    let f := (ext2_file_lseek (current_ph_pos.setWidth 32) f).2
    match env.ext2_file_read sizeof_prog_head f l with
    | ((k, b, f), l) =>
      if k ≠ sizeof_prog_head then ((false, f), l)
      else
        let ph := ELF64_prog_head.ofBytes b
        let next := current_ph_pos + header.prog_ent_size.setWidth 64
        if ph.type = PT_LOAD then
          match env.elf_load_segment ph cr3 (env.kmalloc_ok i) f l with
          | ((false, f), l) => ((false, f), l)
          | ((true, f), l) => segments_loop header cr3 (i + 1) n next f l
        else segments_loop header cr3 (i + 1) n next f l

def destroy (cr3 : Word) (l : Loading) : Option Loading :=
  (MMU_destroy_userspace cr3 (env.heap l.calls l.machine)).map fun s => ⟨s, l.calls + 1⟩

/-- `none` for the file if there is none with the name, and `none` for the image if the load fails.
The tear-down may stop the CPU, and then there is no result at all. -/
def elf_load_program (file : Option File) (l : Loading) : Option (Option elf_image × Loading) :=
  match file with
  | none => some (none, env.close l)
  | some f =>
    match env.elf_read_header f l with
    | ((none, _), l) => some (none, env.close l)
    | ((some header, f), l) =>
      let (user_cr3, l) := env.mmu MMU_create_user_p4 l
      if user_cr3 = 0 then some (none, env.close l)
      else
        match env.segments_loop header user_cr3 0 header.prog_ent_num.toNat header.prog_table_pos f
          l with
        | ((false, _), l) => (env.destroy user_cr3 l).map fun l => (none, env.close l)
        | ((true, _), l) =>
          match env.mmu (elf_alloc_user_stack user_cr3) l with
          | (none, l) => (env.destroy user_cr3 l).map fun l => (none, env.close l)
          | (some (ustack_base, ustack_top), l) =>
            some (some ⟨user_cr3, header.prog_entry_pos, ustack_base, ustack_top⟩, env.close l)

end Env

/-! ## What a stretch of the load does -/

/-- A call of the heap: frames move between the kernel's tables and the free frames, and nothing else
is written. Frame 0 does not become free. -/
def HeapMoves (s s' : Machine) : Prop :=
  ∀ live R P, Sound s live R P → ∃ P', Sound s' live R P' ∧
    Exchanged (kernelTree s.ptable_p4) s P s' P' ∧ (0 ∉ P → 0 ∉ P')

theorem HeapMoves.refl (s : Machine) : HeapMoves s s := fun _ _ P h => ⟨P, h, .refl _ s P, id⟩

/-- The frames of the kernel's tables and heap, and those of the address spaces `own`. -/
def held (s : Machine) (own : List Word) : Multiset Nat :=
  treeFrames s.mem (kernelTree s.ptable_p4) +
    (own.map fun cr3 => userFrames s.mem (frameOf cr3)).sum

/-- The live address spaces are `own` and `live` before, and `own'` and `live` after. Those of `live`
keep their frames and what is in them, and all other frames that were free or held are free or
held. -/
structure Reached (live : List Word) (R : Multiset Nat) (own : List Word) (s : Machine) (P : List Nat)
    (own' : List Word) (s' : Machine) (P' : List Nat) : Prop where
  sound : Sound s' (own' ++ live) R P'
  total : held s' own' + ↑P' = held s own + ↑P
  others : ∀ cr3 ∈ live, ∀ f ∈ userFrames s.mem (frameOf cr3), s'.mem f = s.mem f
  kernel_cr3 : s'.kernel_cr3 = s.kernel_cr3
  cr3 : s'.cr3 = s.cr3

section

variable {live own own1 own' : List Word} {R : Multiset Nat} {s s1 s' : Machine} {P P1 P' : List Nat}
  {cr3 : Word} {T : Tree}

theorem Reached.refl (h : Sound s (own ++ live) R P) : Reached live R own s P own s P :=
  ⟨h, rfl, fun _ _ _ _ => rfl, rfl, rfl⟩

theorem Reached.trans (h : Reached live R own s P own1 s1 P1)
    (h' : Reached live R own1 s1 P1 own' s' P') : Reached live R own s P own' s' P' := by
  refine ⟨h'.sound, h'.total.trans h.total, fun cr3 hcr3 f hf => ?_,
    h'.kernel_cr3.trans h.kernel_cr3, h'.cr3.trans h.cr3⟩
  have hsame : userFrames s1.mem (frameOf cr3) = userFrames s.mem (frameOf cr3) :=
    treeFrames_congr (T := userTree (frameOf cr3)) (h.others cr3 hcr3)
  rw [h'.others cr3 hcr3 f (hsame ▸ hf), h.others cr3 hcr3 f hf]

/-- An exchange with one tree leaves the other trees alone. -/
theorem Sound.other_tree {U : Tree} (h : Sound s live R P) (hT : T ∈ trees s.ptable_p4 live)
    (hU : U ∈ trees s.ptable_p4 live) (hne : U ≠ T) (hex : Exchanged T s P s' P') :
    ∀ f ∈ treeFrames s.mem U, s'.mem f = s.mem f := fun f hf =>
  hex.off f (fun hin => trees_apart h.grove_nodup hT hU hne hin hf) (h.tree_notMem_pool hU hf)

/-- The new address space shares no frame with the others. -/
theorem Sound.head_apart {q : Word} {f : Nat} (h : Sound s (cr3 :: live) R P) (hq : q ∈ live)
    (hf : f ∈ userFrames s.mem (frameOf q)) : f ∉ userFrames s.mem (frameOf cr3) := by
  have hnd := h.grove_nodup
  rw [trees, List.map_cons, grove_cons, grove_cons, ← add_assoc, Multiset.nodup_add] at hnd
  have hrest : f ∈ grove s.mem (live.map fun cr3 => userTree (frameOf cr3)) :=
    mem_grove.mpr ⟨_, List.mem_map_of_mem hq, hf⟩
  exact fun hin => Multiset.disjoint_left.mp hnd.2.2 (Multiset.mem_add.mpr (Or.inr hin)) hrest

theorem Exchanged.ptable_p4 (h : Exchanged T s P s' P') : s'.ptable_p4 = s.ptable_p4 := by
  unfold Machine.ptable_p4
  rw [h.kernel_cr3]

theorem HeapMoves.reached (hcall : HeapMoves s s') (h : Sound s (own ++ live) R P) :
    ∃ P', Reached live R own s P own s' P' ∧ (0 ∉ P → 0 ∉ P') := by
  obtain ⟨P', hs, hex, hzero⟩ := hcall _ R P h
  have huser : ∀ cr3 ∈ own ++ live, ∀ f ∈ userFrames s.mem (frameOf cr3), s'.mem f = s.mem f :=
    fun cr3 hcr3 => h.other_tree (kernelTree_mem _ _) (userTree_mem _ hcr3)
      (kernelTree_ne_userTree _ _).symm hex
  refine ⟨P', ⟨hs, ?_, fun cr3 hcr3 => huser cr3 (List.mem_append_right _ hcr3), hex.kernel_cr3,
    hex.cr3⟩, hzero⟩
  have hown : (own.map fun cr3 => userFrames s'.mem (frameOf cr3)) =
      own.map fun cr3 => userFrames s.mem (frameOf cr3) :=
    List.map_congr_left fun cr3 hcr3 => treeFrames_congr (T := userTree (frameOf cr3))
      (huser cr3 (List.mem_append_left _ hcr3))
  unfold held
  rw [hown, hex.ptable_p4, add_right_comm, hex.total, add_right_comm]

/-- An edit of the new address space. -/
theorem Edit.reached (hedit : Edit (userTree (frameOf cr3)) s P s' P')
    (h : Sound s ([cr3] ++ live) R P) : Reached live R [cr3] s P [cr3] s' P' := by
  have hmem : cr3 ∈ [cr3] ++ live := List.mem_cons_self
  have hp4 := hedit.exchanged.ptable_p4
  have hkernel : treeFrames s'.mem (kernelTree s.ptable_p4) =
      treeFrames s.mem (kernelTree s.ptable_p4) :=
    treeFrames_congr (h.other_tree (userTree_mem _ hmem) (kernelTree_mem _ _)
      (kernelTree_ne_userTree _ _) hedit.exchanged)
  refine ⟨h.edit_user hmem hedit, ?_, fun q hq => ?_, hedit.regs.kernel_cr3, hedit.regs.cr3⟩
  · have htotal : userFrames s'.mem (frameOf cr3) + ↑P' = userFrames s.mem (frameOf cr3) + ↑P :=
      hedit.total
    simp only [held, hp4, hkernel, List.map_cons, List.map_nil, List.sum_cons, List.sum_nil,
      add_zero, add_assoc, htotal]
  · intro f hf
    exact hedit.off f (h.head_apart hq hf)
      (h.tree_notMem_pool (userTree_mem _ (List.mem_append_right _ hq)) hf)

theorem MMU_create_user_p4.reached (h : Sound s live R P) (hzero : 0 ∉ P) :
    ∃ cr3 s' P', MMU_create_user_p4 s = (cr3, s') ∧
      Reached live R [] s P (if cr3 = 0 then [] else [cr3]) s' P' := by
  cases P with
  | nil =>
    refine ⟨0, s, [], MMU_create_user_p4.spec_nil h.pool, ?_⟩
    rw [if_pos rfl]
    exact .refl h
  | cons c P1 =>
    have hc52 := h.pool.small c List.mem_cons_self
    have hc : c ≠ 0 := fun he => hzero (he ▸ List.mem_cons_self)
    obtain ⟨s', hrun, hs, hframes, hoff, hregs⟩ := MMU_create_user_p4.adds h hc
    refine ⟨_, s', P1, hrun, ?_⟩
    rw [if_neg fun he => hc ((frameAddr_eq_zero hc52).mp he)]
    have hold : ∀ T ∈ trees s.ptable_p4 live, ∀ f ∈ treeFrames s.mem T, s'.mem f = s.mem f :=
      fun T hT f hf => hoff f fun he => h.tree_notMem_pool hT hf (he ▸ List.mem_cons_self)
    refine ⟨hs, ?_, fun q hq => hold _ (userTree_mem _ hq), hregs.kernel_cr3, hregs.cr3⟩
    have hkernel := treeFrames_congr (hold _ (kernelTree_mem _ _))
    simp only [held, hregs.ptable_p4, hkernel, List.map_cons, List.map_nil, List.sum_cons,
      List.sum_nil, add_zero, frameOf_frameAddr hc52, hframes, add_assoc]
    rw [Multiset.singleton_add]
    rfl

/-- The tear-down of the new address space, which is not the current one. -/
theorem MMU_destroy_userspace.reached (h : Sound s ([cr3] ++ live) R P)
    (hcur : frameOf s.cr3 = s.ptable_p4 ∨ ∃ q ∈ live, frameOf s.cr3 = frameOf q) :
    ∃ s' P', MMU_destroy_userspace cr3 s = some s' ∧ Reached live R [cr3] s P [] s' P' := by
  have hmem : cr3 ∈ [cr3] ++ live := List.mem_cons_self
  have hroot : frameOf cr3 ∈ userFrames s.mem (frameOf cr3) := Multiset.mem_cons_self _ _
  have hapart : ∀ f ∈ treeFrames s.mem (kernelTree s.ptable_p4), f ∉ userFrames s.mem (frameOf cr3) :=
    fun f hf => trees_apart h.grove_nodup (kernelTree_mem _ _) (userTree_mem _ hmem)
      (kernelTree_ne_userTree _ _).symm hf
  have hne : frameOf cr3 ≠ frameOf s.cr3 := by
    intro he
    rcases hcur with hk | ⟨q, hq, hq'⟩
    · exact hapart _ (Sound.kernel_mem s) (hk ▸ he ▸ hroot)
    · exact h.head_apart hq (Multiset.mem_cons_self _ _) (hq' ▸ he ▸ hroot)
  obtain ⟨s', P', hrun, hs, htotal, hoff, hregs⟩ := MMU_destroy_userspace.sound h hmem hne
  rw [List.singleton_append, List.erase_cons_head] at hs
  refine ⟨s', P', hrun, hs, ?_, fun q hq f hf => hoff f (h.head_apart hq hf), hregs.kernel_cr3,
    hregs.cr3⟩
  have hkernel : treeFrames s'.mem (kernelTree s.ptable_p4) =
      treeFrames s.mem (kernelTree s.ptable_p4) := treeFrames_congr fun f hf => hoff f (hapart f hf)
  simp only [held, hregs.ptable_p4, hkernel, List.map_cons, List.map_nil, List.sum_cons,
    List.sum_nil, add_zero, htotal, add_assoc]

end

/-! ## The calls of the loader -/

section

variable {env : Env} {live own : List Word} {R : Multiset Nat} {P : List Nat} {l l' : Loading}
  {cr3 : Word} {f f' : File} {ph : ELF64_prog_head}

section

variable (henv : ∀ k s, HeapMoves s (env.heap k s))

include henv

theorem Env.close.reached (h : Sound l.machine (own ++ live) R P) :
    ∃ P', Reached live R own l.machine P own (env.close l).machine P' := by
  obtain ⟨P', hr, -⟩ := (henv l.calls l.machine).reached h
  exact ⟨P', hr⟩

/-- A call that edits the new address space. -/
theorem Env.mmu.reached {α : Type} (call : Machine → α × Machine)
    (h : Sound l.machine ([cr3] ++ live) R P)
    (hcall : ∀ s P, Owns (userTree (frameOf cr3)) s P → ∃ a s' P', call s = (a, s') ∧
      Edit (userTree (frameOf cr3)) s P s' P') :
    ∃ a l' P', env.mmu call l = (a, l') ∧ Reached live R [cr3] l.machine P [cr3] l'.machine P' := by
  obtain ⟨P1, hr1, -⟩ := (henv l.calls l.machine).reached h
  obtain ⟨a, s', P', hrun, hedit⟩ := hcall _ P1 (hr1.sound.owns (userTree_mem _ List.mem_cons_self))
  refine ⟨a, ⟨s', l.calls + 1⟩, P', ?_, hr1.trans (hedit.reached hr1.sound)⟩
  unfold Env.mmu
  rw [hrun]

/-- The bytes of the data that are in the file go to user space. -/
theorem Env.load_loop.reached (remaining : Nat) (dst : Word) (hdst : 2 ^ 44 ≤ dst.toNat)
    (hend : dst.toNat + (f.size.toNat - f.offset.toNat) ≤ 2 ^ 48)
    (h : Sound l.machine ([cr3] ++ live) R P) :
    ∃ r f' l' P', env.load_loop cr3 remaining dst f l = ((r, f'), l') ∧
      Reached live R [cr3] l.machine P [cr3] l'.machine P' ∧
      (r = true → skip_data remaining f = some f') := by
  induction remaining using Nat.strong_induction_on generalizing dst f l P with
  | _ remaining ih =>
    unfold Env.load_loop skip_data
    by_cases hpos : 0 < remaining
    swap
    · rw [if_neg hpos, if_neg hpos]
      exact ⟨true, f, l, P, rfl, .refl h, fun _ => rfl⟩
    rw [if_pos hpos, if_pos hpos]
    obtain ⟨chunk, hchunk⟩ : ∃ chunk, chunk = min remaining 4096 := ⟨_, rfl⟩
    rw [← hchunk]
    dsimp only
    unfold Env.ext2_file_read
    by_cases hok : env.read_ok l.calls = true
    swap
    · rw [if_neg hok]
      dsimp only
      rw [if_pos (by omega : 0 ≠ chunk)]
      exact ⟨false, f, _, P, rfl, .refl h, nofun⟩
    rw [if_pos hok]
    by_cases hwhole : f.offset.toNat + chunk ≤ f.size.toNat
    swap
    · have hshort : (JamsOs.ext2_file_read chunk f).1 ≠ chunk :=
        fun he => hwhole ((ext2_file_read.whole (by omega)).mp he)
      dsimp only
      rw [if_pos hshort]
      exact ⟨false, _, _, P, rfl, .refl h, nofun⟩
    obtain ⟨hread, hnext⟩ := ext2_file_read.next hwhole (by omega)
    rw [hread]
    dsimp only
    rw [if_neg (not_not_intro rfl), if_neg (not_not_intro rfl)]
    have hlen : (BitVec.ofNat 64 chunk).toNat = chunk := by
      rw [BitVec.toNat_ofNat]
      omega
    have hdst' : (dst + BitVec.ofNat 64 chunk).toNat = dst.toNat + chunk := add_toNat (by omega)
    obtain ⟨copied, l1, P1, hrun1, hr1⟩ := Env.mmu.reached
      (l := ⟨l.machine, l.calls + 1⟩) henv
      (MMU_copy_to_user_as cr3 dst (some fun i => f.bytes (f.offset.toNat + i))
        (BitVec.ofNat 64 chunk)) h fun s P hown =>
      MMU_copy_to_user_as.spec hown rfl (fun j hj => Or.inl (by
        rw [hlen] at hj
        have hj' : (dst + BitVec.ofNat 64 j).toNat = dst.toNat + j := add_toNat (by omega)
        exact PML4_INDEX_user (by omega) (by omega))) _
    rw [hrun1]
    cases copied with
    | false => exact ⟨false, _, l1, P1, rfl, hr1, nofun⟩
    | true =>
      obtain ⟨r, f', l', P', hrun, hr, hskip⟩ := ih (remaining - chunk) (by omega)
        (f := { f with offset := f.offset + BitVec.ofNat 64 chunk }) (dst + BitVec.ofNat 64 chunk)
        (by omega) (by dsimp only; omega) hr1.sound
      exact ⟨r, f', l', P', hrun, hr1.trans hr, hskip⟩

theorem Env.elf_load_segment.reached (hrange : UserRange ph.load_addr ph.mem_size)
    (h : Sound l.machine ([cr3] ++ live) R P) (kmalloc_ok : Bool) :
    ∃ r f' l' P', env.elf_load_segment ph cr3 kmalloc_ok f l = ((r, f'), l') ∧
      Reached live R [cr3] l.machine P [cr3] l'.machine P' ∧
      (r = true → skip_segment ph f = some f') := by
  have hlow := hrange.low
  have hhigh := hrange.high
  rw [VA_USER_BASE_toNat] at hlow
  unfold Env.elf_load_segment
  obtain ⟨base, l1, P1, hrun1, hr1⟩ := Env.mmu.reached henv
    (MMU_alloc_at_as cr3 ph.load_addr ph.mem_size) h fun s P hown =>
    MMU_alloc_at_as.spec hown rfl (hrange.reservesIn.mono fun _ hi => Or.inl hi)
  rw [hrun1]
  dsimp only
  by_cases hbase : base = 0
  · rw [if_pos hbase]
    exact ⟨false, f, l1, P1, rfl, hr1, nofun⟩
  rw [if_neg hbase]
  by_cases hbounce : (0 < ph.file_size && !kmalloc_ok) = true
  · rw [if_pos hbounce]
    exact ⟨false, _, l1, P1, rfl, hr1, nofun⟩
  rw [if_neg hbounce]
  have hsize := (ext2_file_lseek (ph.file_offset.setWidth 32) f).2.size.isLt
  obtain ⟨r2, f2, l2, P2, hrun2, hr2, hskip⟩ := Env.load_loop.reached henv ph.file_size.toNat
    ph.load_addr (f := (ext2_file_lseek (ph.file_offset.setWidth 32) f).2) hlow (by omega) hr1.sound
  rw [hrun2]
  have hr := hr1.trans hr2
  cases r2 with
  | false => exact ⟨false, f2, l2, P2, rfl, hr, nofun⟩
  | true =>
    dsimp only
    by_cases hmore : ph.file_size < ph.mem_size
    swap
    · rw [if_neg hmore]
      exact ⟨true, f2, l2, P2, rfl, hr, fun _ => hskip rfl⟩
    rw [if_pos hmore]
    have hrest := (hrange.rest (BitVec.le_of_lt hmore)).writesIn
    obtain ⟨ret, l3, P3, hrun3, hr3⟩ := Env.mmu.reached henv
      (MMU_zero_user_as cr3 (ph.load_addr + ph.file_size) (ph.mem_size - ph.file_size)) hr2.sound fun s P hown => MMU_zero_user_as.spec hown rfl (hrest.mono fun _ hi => Or.inl hi)
    rw [hrun3]
    exact ⟨ret, f2, l3, P3, rfl, hr.trans hr3, fun _ => hskip rfl⟩

/-- All segments are in user space, as far as the loader gets. -/
theorem Env.segments_loop.reached (header : ELF64_head) (n i : Nat) (pos : Word)
    (hin : ∀ ph ∈ loadable_headers header n pos f, UserRange ph.load_addr ph.mem_size)
    (h : Sound l.machine ([cr3] ++ live) R P) :
    ∃ r f' l' P', env.segments_loop header cr3 i n pos f l = ((r, f'), l') ∧
      Reached live R [cr3] l.machine P [cr3] l'.machine P' := by
  induction n generalizing i pos f l P with
  | zero => exact ⟨true, f, l, P, rfl, .refl h⟩
  | succ n ih =>
    unfold Env.segments_loop Env.ext2_file_read
    unfold loadable_headers at hin
    dsimp only at hin ⊢
    by_cases hok : env.read_ok l.calls = true
    swap
    · rw [if_neg hok]
      dsimp only
      rw [if_pos (by decide)]
      exact ⟨false, _, _, P, rfl, .refl h⟩
    rw [if_pos hok]
    obtain ⟨k, b, f1, hread⟩ : ∃ k b f1, JamsOs.ext2_file_read sizeof_prog_head
      (ext2_file_lseek (pos.setWidth 32) f).2 = (k, b, f1) := ⟨_, _, _, rfl⟩
    rw [hread] at hin ⊢
    dsimp only at hin ⊢
    by_cases hk : k = sizeof_prog_head
    swap
    · rw [if_pos hk]
      exact ⟨false, _, _, P, rfl, .refl h⟩
    rw [if_neg (not_not_intro hk)] at hin ⊢
    by_cases htype : (ELF64_prog_head.ofBytes b).type = PT_LOAD
    swap
    · rw [if_neg htype] at hin ⊢
      exact ih (i + 1) _ (l := ⟨l.machine, l.calls + 1⟩) hin h
    rw [if_pos htype] at hin ⊢
    obtain ⟨r1, f2, l1, P1, hrun1, hr1, hskip⟩ := Env.elf_load_segment.reached
      (l := ⟨l.machine, l.calls + 1⟩) (f := f1) henv (hin _ List.mem_cons_self) h (env.kmalloc_ok i)
    rw [hrun1]
    cases r1 with
    | false => exact ⟨false, f2, l1, P1, rfl, hr1⟩
    | true =>
      rw [hskip rfl] at hin
      obtain ⟨r, f', l', P', hrun, hr⟩ :=
        ih (i + 1) _ (fun ph hph => hin ph (List.mem_cons_of_mem _ hph)) hr1.sound
      exact ⟨r, f', l', P', hrun, hr1.trans hr⟩

end

/-- A header that is read is the one of the file. -/
theorem Env.elf_read_header.reads (env : Env) (f : File) (l : Loading) :
    ∃ header f1, env.elf_read_header f l = ((header, f1), ⟨l.machine, l.calls + 1⟩) ∧
      (header ≠ none → JamsOs.elf_read_header f = (header, f1)) := by
  unfold Env.elf_read_header Env.ext2_file_read JamsOs.elf_read_header
  dsimp only
  by_cases hok : env.read_ok l.calls = true
  swap
  · rw [if_neg hok]
    exact ⟨none, f, if_pos (by decide : 0 ≠ sizeof_head), fun hne => absurd rfl hne⟩
  rw [if_pos hok]
  split
  · exact ⟨none, _, rfl, fun hne => absurd rfl hne⟩
  split
  · exact ⟨none, _, rfl, fun hne => absurd rfl hne⟩
  · exact ⟨_, _, rfl, fun _ => rfl⟩

/-- The address space of an image. -/
def spaces (image : Option elf_image) : List Word := (image.map elf_image.cr3).toList

/-- A load always returns. Either there is one more address space, or the frames are as before but for
those of the heap. -/
theorem Env.elf_load_program.reached (henv : ∀ k s, HeapMoves s (env.heap k s)) (file : Option File)
    (hin : ∀ f, file = some f → ∀ ph ∈ file_headers f, UserRange ph.load_addr ph.mem_size)
    (h : Sound l.machine live R P) (hzero : 0 ∉ P) :
    ∃ image l' P', env.elf_load_program file l = some (image, l') ∧
      Reached live R [] l.machine P (spaces image) l'.machine P' := by
  have hcur := h.current
  have hclose : ∀ (image : Option elf_image) (l1 : Loading) {P1 : List Nat},
      Reached live R [] l.machine P (spaces image) l1.machine P1 →
      ∃ image' l' P', some (image, env.close l1) = some (image', l') ∧
        Reached live R [] l.machine P (spaces image') l'.machine P' := by
    intro image l1 P1 hr
    obtain ⟨P', hr'⟩ := Env.close.reached henv hr.sound
    exact ⟨image, _, P', rfl, hr.trans hr'⟩
  unfold Env.elf_load_program
  rcases file with _ | f
  · exact hclose none l (.refl h)
  have hin := hin f rfl
  dsimp only
  obtain ⟨header, f1, hread, hfile⟩ := Env.elf_read_header.reads env f l
  rw [hread]
  rcases header with _ | header
  · exact hclose none ⟨l.machine, l.calls + 1⟩ (.refl h)
  dsimp only
  unfold file_headers at hin
  rw [hfile nofun] at hin
  dsimp only at hin
  -- the new address space
  have hnone : Sound l.machine ([] ++ live) R P := h
  obtain ⟨P1, hr1, hz1⟩ := (henv (l.calls + 1) l.machine).reached hnone
  obtain ⟨cr3, s2, P2, hcreate, hr2⟩ := MMU_create_user_p4.reached hr1.sound (hz1 hzero)
  have hrun2 : env.mmu MMU_create_user_p4 ⟨l.machine, l.calls + 1⟩ = (cr3, ⟨s2, l.calls + 1 + 1⟩) := by
    unfold Env.mmu
    rw [hcreate]
  rw [hrun2]
  dsimp only
  by_cases hcr3 : cr3 = 0
  · rw [if_pos hcr3] at hr2 ⊢
    exact hclose none ⟨s2, l.calls + 1 + 1⟩ (hr1.trans hr2)
  rw [if_neg hcr3] at hr2 ⊢
  have hr2 := hr1.trans hr2
  -- what was done for it can be undone
  have hfail : ∀ {l3 : Loading} {P3 : List Nat},
      Reached live R [] l.machine P [cr3] l3.machine P3 →
      ∃ image l' P', (env.destroy cr3 l3).map (fun l => ((none : Option elf_image), env.close l)) =
        some (image, l') ∧ Reached live R [] l.machine P (spaces image) l'.machine P' := by
    intro l3 P3 hr3
    obtain ⟨P4, hr4, -⟩ := (henv l3.calls l3.machine).reached hr3.sound
    have hr4 := hr3.trans hr4
    have hp4 : (env.heap l3.calls l3.machine).ptable_p4 = l.machine.ptable_p4 := by
      unfold Machine.ptable_p4
      rw [hr4.kernel_cr3]
    obtain ⟨s5, P5, hrun5, hr5⟩ := MMU_destroy_userspace.reached hr4.sound (by
      rw [hr4.cr3, hp4]
      exact hcur)
    have hdestroy : env.destroy cr3 l3 = some ⟨s5, l3.calls + 1⟩ := by
      unfold Env.destroy
      rw [hrun5]
      rfl
    rw [hdestroy]
    exact hclose none ⟨s5, l3.calls + 1⟩ (hr4.trans hr5)
  obtain ⟨r3, f3, l3, P3, hrun3, hr3⟩ := Env.segments_loop.reached (l := ⟨s2, l.calls + 1 + 1⟩) henv
    header header.prog_ent_num.toNat 0 header.prog_table_pos hin hr2.sound
  rw [hrun3]
  have hr3 := hr2.trans hr3
  cases r3 with
  | false => exact hfail hr3
  | true =>
    dsimp only
    have hstack : UserRange VA_USTACK_BASE DEFAULT_STACK_BYTES := by decide
    obtain ⟨ustack, l4, P4, hrun4, hr4⟩ := Env.mmu.reached henv (elf_alloc_user_stack cr3)
      hr3.sound fun s P hown => by
        obtain ⟨base, s', P', hrun, hedit⟩ := MMU_alloc_at_as.spec hown rfl
          (hstack.reservesIn.mono fun _ hi => Or.inl hi)
        unfold elf_alloc_user_stack
        rw [hrun]
        by_cases hbase : base = 0
        · exact ⟨none, s', P', if_pos hbase, hedit⟩
        · exact ⟨_, s', P', if_neg hbase, hedit⟩
    rw [hrun4]
    have hr4 := hr3.trans hr4
    rcases ustack with _ | ⟨ustack_base, ustack_top⟩
    · exact hfail hr4
    · exact hclose (some ⟨cr3, header.prog_entry_pos, ustack_base, ustack_top⟩) l4 hr4

end

/-! ## The heap -/

/-- The calls that `kmalloc` and `kfree` make are such calls of the heap, where they keep the P4
entries that the address spaces share, and the kernel does not use frame 0. -/
theorem heap_step.heapMoves {e : HeapEvent} {w w' : Spaces} (hheap : ∀ e', e ≠ .space e')
    (hlive : w.live ≠ []) (hkeeps : KeepsP4 e w)
    (hzero : 0 ∉ treeFrames w.machine.mem (kernelTree w.machine.ptable_p4))
    (hstep : heap_step e w = some w') : HeapMoves w.machine w'.machine := by
  intro live R P h
  have hdone : ∀ {s' : Machine} {P' : List Nat}, Sound s' live R P' →
      Exchanged (kernelTree w.machine.ptable_p4) w.machine P s' P' →
      ∃ P', Sound s' live R P' ∧ Exchanged (kernelTree w.machine.ptable_p4) w.machine P s' P' ∧
        (0 ∉ P → 0 ∉ P') := by
    intro s' P' hs hex
    refine ⟨P', hs, hex, fun h0 hin => ?_⟩
    have hmem : 0 ∈ treeFrames s'.mem (kernelTree w.machine.ptable_p4) + ↑P' :=
      Multiset.mem_add.mpr (Or.inr hin)
    rw [hex.total, Multiset.mem_add] at hmem
    exact hmem.elim hzero h0
  cases e with
  | alloc_page =>
    simp only [heap_step] at hstep
    split at hstep
    · next hrange =>
      cases hstep
      obtain ⟨P', hs, hex⟩ := MMU_alloc_page.kernel h hrange fun _ => hkeeps.resolve_left hlive
      exact hdone hs hex
    · cases hstep
  | alloc_pages num =>
    simp only [heap_step] at hstep
    split at hstep
    · next hrange =>
      cases hstep
      obtain ⟨P', hs, hex⟩ := MMU_alloc_pages.kernel num h hrange fun _ => hkeeps.resolve_left hlive
      exact hdone hs hex
    · cases hstep
  | free_page vaddr =>
    simp only [heap_step] at hstep
    split at hstep
    · next hrange =>
      cases hstep
      obtain ⟨P', hs, hedit⟩ := MMU_free_page.one h hrange fun _ => hkeeps.resolve_left hlive
      exact hdone hs hedit.exchanged
    · cases hstep
  | free_pages vaddr num =>
    simp only [heap_step] at hstep
    split at hstep
    · next hrange =>
      cases hstep
      obtain ⟨P', hs, hex⟩ := MMU_free_pages.kernel h hrange fun _ => hkeeps.resolve_left hlive
      exact hdone hs hex
    · cases hstep
  | space e => exact absurd rfl (hheap e)

/-! ## Nothing happens in between -/

/-- The heap has all it needs, and the disk has no errors. -/
def Env.quiet (heap : Nat → Bool) : Env := ⟨fun _ s => s, heap, fun _ => true⟩

/-- The same result, file and machine. -/
def SameCall (r : (Bool × File) × Loading) (r' : Bool × File × Machine) : Prop :=
  (r.1.1, r.1.2, r.2.machine) = r'

section

variable (heap : Nat → Bool) (cr3 : Word)

theorem Env.quiet.load_loop (remaining : Nat) (dst : Word) (f : File) (l : Loading) :
    SameCall ((Env.quiet heap).load_loop cr3 remaining dst f l)
      (JamsOs.load_loop cr3 remaining dst f l.machine) := by
  induction remaining using Nat.strong_induction_on generalizing dst f l with
  | _ remaining ih =>
    unfold Env.load_loop JamsOs.load_loop
    by_cases hpos : 0 < remaining
    swap
    · rw [if_neg hpos, if_neg hpos]
      rfl
    rw [if_pos hpos, if_pos hpos]
    unfold Env.ext2_file_read Env.mmu Env.quiet
    dsimp only
    rw [if_pos rfl]
    split
    · rfl
    rcases MMU_copy_to_user_as cr3 dst (some (JamsOs.ext2_file_read (min remaining 4096) f).2.1)
      (BitVec.ofNat 64 (min remaining 4096)) l.machine with ⟨_ | _, s⟩
    · rfl
    · exact ih (remaining - min remaining 4096) (by omega) _ _ ⟨s, l.calls + 1 + 1⟩

theorem Env.quiet.elf_load_segment (ph : ELF64_prog_head) (kmalloc_ok : Bool) (f : File) (l : Loading) :
    SameCall ((Env.quiet heap).elf_load_segment ph cr3 kmalloc_ok f l)
      (JamsOs.elf_load_segment ph cr3 kmalloc_ok f l.machine) := by
  unfold Env.elf_load_segment JamsOs.elf_load_segment
  have hmmu : (Env.quiet heap).mmu (MMU_alloc_at_as cr3 ph.load_addr ph.mem_size) l =
    ((MMU_alloc_at_as cr3 ph.load_addr ph.mem_size l.machine).1,
      ⟨(MMU_alloc_at_as cr3 ph.load_addr ph.mem_size l.machine).2, l.calls + 1⟩) := rfl
  rw [hmmu]
  rcases MMU_alloc_at_as cr3 ph.load_addr ph.mem_size l.machine with ⟨base, s1⟩
  dsimp only
  split
  · rfl
  split
  · rfl
  have hloop := Env.quiet.load_loop heap cr3 ph.file_size.toNat ph.load_addr
    (ext2_file_lseek (ph.file_offset.setWidth 32) f).2 ⟨s1, l.calls + 1⟩
  unfold SameCall at hloop
  rw [← hloop]
  rcases (Env.quiet heap).load_loop cr3 ph.file_size.toNat ph.load_addr
    (ext2_file_lseek (ph.file_offset.setWidth 32) f).2 ⟨s1, l.calls + 1⟩ with ⟨⟨_ | _, f2⟩, l2⟩
  · rfl
  dsimp only
  split
  · rfl
  · rfl

theorem Env.quiet.segments_loop (header : ELF64_head) (n i : Nat) (pos : Word) (f : File) (l : Loading) :
    SameCall ((Env.quiet heap).segments_loop header cr3 i n pos f l)
      (JamsOs.segments_loop header cr3 heap i n pos f l.machine) := by
  induction n generalizing i pos f l with
  | zero => rfl
  | succ n ih =>
    unfold Env.segments_loop JamsOs.segments_loop
    have hread : (Env.quiet heap).ext2_file_read sizeof_prog_head
        (ext2_file_lseek (pos.setWidth 32) f).2 l =
      (JamsOs.ext2_file_read sizeof_prog_head (ext2_file_lseek (pos.setWidth 32) f).2,
        ⟨l.machine, l.calls + 1⟩) := rfl
    dsimp only
    rw [hread]
    rcases JamsOs.ext2_file_read sizeof_prog_head (ext2_file_lseek (pos.setWidth 32) f).2
      with ⟨k, b, f1⟩
    dsimp only
    split
    · rfl
    split
    swap
    · exact ih _ _ _ ⟨l.machine, l.calls + 1⟩
    have hseg := Env.quiet.elf_load_segment heap cr3 (.ofBytes b) (heap i) f1
      ⟨l.machine, l.calls + 1⟩
    unfold SameCall at hseg
    rw [← hseg]
    have hok : (Env.quiet heap).kmalloc_ok i = heap i := rfl
    rw [hok]
    rcases (Env.quiet heap).elf_load_segment (.ofBytes b) cr3 (heap i) f1 ⟨l.machine, l.calls + 1⟩
      with ⟨⟨_ | _, f2⟩, l2⟩
    · rfl
    · exact ih _ _ _ l2

end

end JamsOs
