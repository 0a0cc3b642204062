-- The laws of the program loader for the kernel. The loader takes load addresses and sizes
-- from the file as they are. As long as they stay out of the P4 entries that the new
-- address space shares with the kernel, it writes to no frame that was in use, whatever
-- else is in the file and wherever it fails.
import JamsOs.Elf64
import JamsOs.KernelHalf

namespace JamsOs

open Words RadixTree Linked

/-! ## What a file asks for -/

/-- The file after the data of a segment was read, when all of it is there. -/
def skip_data (remaining : Nat) (f : File) : Option File :=
  if 0 < remaining then
    let chunk := min remaining 4096
    match ext2_file_read chunk f with
    | (n, _, f) => if n ≠ chunk then none else skip_data (remaining - chunk) f
  else some f
termination_by remaining

/-- The file after a segment was loaded. -/
def skip_segment (ph : ELF64_prog_head) (f : File) : Option File :=
  skip_data ph.file_size.toNat (ext2_file_lseek (ph.file_offset.setWidth 32) f).2

/-- The loadable program headers that the loader gets to, if no call fails before. -/
def loadable_headers (header : ELF64_head) : Nat → Word → File → List ELF64_prog_head
  | 0, _, _ => []
  | n + 1, current_ph_pos, f =>
    let f := (ext2_file_lseek (current_ph_pos.setWidth 32) f).2
    match ext2_file_read sizeof_prog_head f with
    | (k, b, f) =>
      if k ≠ sizeof_prog_head then []
      else
        let ph := ELF64_prog_head.ofBytes b
        let next := current_ph_pos + header.prog_ent_size.setWidth 64
        if ph.type = PT_LOAD then
          ph :: (skip_segment ph f).elim [] (loadable_headers header n next)
        else loadable_headers header n next f

/-- The loadable program headers of a file. -/
def file_headers (f : File) : List ELF64_prog_head :=
  match elf_read_header f with
  | (none, _) => []
  | (some header, f) => loadable_headers header header.prog_ent_num.toNat header.prog_table_pos f

/-- The P4 entries of all pages and bytes that the loader touches for a segment are among `p`. -/
structure SegmentIn (p : Fin 512 → Prop) (ph : ELF64_prog_head) : Prop where
  reserves : ReservesIn p ph.load_addr ph.mem_size
  copies : WritesIn p ph.load_addr ph.file_size
  zeroes : ph.file_size < ph.mem_size →
    WritesIn p (ph.load_addr + ph.file_size) (ph.mem_size - ph.file_size)

/-- The P4 entry is not shared with the kernel: it belongs to user space, or the kernel has nothing
there. The identity mapping is shared, but no walk goes through it. -/
def Unshared (s : Machine) (i : Fin 512) : Prop :=
  i ∈ userSlots ∨ i = 0 ∨ present (s.mem s.ptable_p4 i) = false

section

variable {T : Tree} {s s' : Machine} {P P' : List Nat} {p q : Fin 512 → Prop}
  {cr3 : Word} {f f' : File} {ph : ELF64_prog_head}

theorem SegmentIn.mono (h : SegmentIn p ph) (hpq : ∀ i, p i → q i) : SegmentIn q ph :=
  ⟨h.reserves.mono hpq, h.copies.mono hpq, fun hlt => (h.zeroes hlt).mono hpq⟩

/-! ## Loading is an edit of the new address space -/

/-- The bytes of a range: those of its first part, and the rest. -/
theorem reach_shift {dst : Word} {n k : Nat} (h : ∀ j, j < n → p (PML4_INDEX (dst + BitVec.ofNat 64 j)))
    (hk : k ≤ n) : ∀ j, j < n - k → p (PML4_INDEX (dst + BitVec.ofNat 64 k + BitVec.ofNat 64 j)) := by
  intro j hj
  have hadd : dst + BitVec.ofNat 64 k + BitVec.ofNat 64 j = dst + BitVec.ofNat 64 (k + j) := by
    rw [BitVec.add_assoc, BitVec.ofNat_add]
  rw [hadd]
  exact h (k + j) (by omega)

theorem load_loop.spec (hroot : frameOf cr3 = T.root) (remaining : Nat) (dst : Word)
    (hva : ∀ j, j < remaining → Reach T s P (PML4_INDEX (dst + BitVec.ofNat 64 j)))
    (h : Owns T s P) :
    ∃ r f' s' P', load_loop cr3 remaining dst f s = (r, f', s') ∧ Edit T s P s' P' ∧
      (r = true → skip_data remaining f = some f') := by
  induction remaining using Nat.strong_induction_on generalizing dst f s P with
  | _ remaining ih =>
    unfold load_loop skip_data
    by_cases hpos : 0 < remaining
    swap
    · simp only [hpos, if_false]
      exact ⟨true, f, s, P, rfl, Edit.refl h, fun _ => rfl⟩
    simp only [hpos, if_true]
    obtain ⟨chunk, hchunk⟩ : ∃ chunk, chunk = min remaining 4096 := ⟨_, rfl⟩
    rw [← hchunk]
    obtain ⟨n, b, f1, hread⟩ : ∃ n b f1, ext2_file_read chunk f = (n, b, f1) := ⟨_, _, _, rfl⟩
    simp only [hread]
    by_cases hn : n = chunk
    swap
    · simp only [ne_eq, hn, not_false_eq_true, if_true]
      exact ⟨false, f1, s, P, rfl, Edit.refl h, by simp⟩
    simp only [ne_eq, hn, not_true_eq_false, if_false]
    have hlen : (BitVec.ofNat 64 chunk).toNat = chunk := by
      rw [BitVec.toNat_ofNat]
      omega
    have hw : WritesIn (Reach T s P) dst (BitVec.ofNat 64 chunk) := by
      intro j hj
      rw [hlen] at hj
      exact hva j (by omega)
    obtain ⟨r1, s1, P1, hrun1, hedit1⟩ := MMU_copy_to_user_as.spec h hroot hw (some b)
    simp only [hrun1]
    cases r1 with
    | false => exact ⟨false, f1, s1, P1, rfl, hedit1, by simp⟩
    | true =>
      obtain ⟨r, f', s', P', hrun, hedit, hskip⟩ := ih (remaining - chunk) (by omega)
        (dst + BitVec.ofNat 64 chunk)
        (fun j hj => hedit1.reach (reach_shift hva (by omega) j hj)) hedit1.owns (f := f1)
      exact ⟨r, f', s', P', hrun, hedit1.trans hedit, hskip⟩

theorem elf_load_segment.spec (hroot : frameOf cr3 = T.root) (hin : SegmentIn (Reach T s P) ph)
    (h : Owns T s P) (kmalloc_ok : Bool) :
    ∃ r f' s' P', elf_load_segment ph cr3 kmalloc_ok f s = (r, f', s') ∧ Edit T s P s' P' ∧
      (r = true → skip_segment ph f = some f') := by
  unfold elf_load_segment
  obtain ⟨base, s1, P1, hrun1, hedit1⟩ := MMU_alloc_at_as.spec h hroot hin.reserves
  simp only [hrun1]
  split
  · exact ⟨false, f, s1, P1, rfl, hedit1, nofun⟩
  split
  · exact ⟨false, _, s1, P1, rfl, hedit1, nofun⟩
  obtain ⟨r2, f2, s2, P2, hrun2, hedit2, hskip⟩ := load_loop.spec hroot ph.file_size.toNat
    ph.load_addr (fun j hj => hedit1.reach (hin.copies j hj)) hedit1.owns
    (f := (ext2_file_lseek (ph.file_offset.setWidth 32) f).2)
  simp only [hrun2]
  have hedit := hedit1.trans hedit2
  cases r2 with
  | false => exact ⟨false, f2, s2, P2, rfl, hedit, nofun⟩
  | true =>
    simp only
    split
    · rename_i hlt
      obtain ⟨r3, s3, P3, hrun3, hedit3⟩ := MMU_zero_user_as.spec hedit2.owns hroot
        ((hin.zeroes hlt).mono fun _ hi => hedit.reach hi)
      simp only [hrun3]
      exact ⟨r3, f2, s3, P3, rfl, hedit.trans hedit3, fun _ => hskip rfl⟩
    · exact ⟨true, f2, s2, P2, rfl, hedit, fun _ => hskip rfl⟩

theorem segments_loop.spec (header : ELF64_head) (heap : Nat → Bool) (hroot : frameOf cr3 = T.root)
    (n i : Nat) (pos : Word)
    (hin : ∀ ph ∈ loadable_headers header n pos f, SegmentIn (Reach T s P) ph) (h : Owns T s P) :
    ∃ r f' s' P', segments_loop header cr3 heap i n pos f s = (r, f', s') ∧ Edit T s P s' P' := by
  induction n generalizing i pos f s P with
  | zero => exact ⟨true, f, s, P, rfl, Edit.refl h⟩
  | succ n ih =>
    unfold segments_loop
    unfold loadable_headers at hin
    obtain ⟨k, b, f1, hread⟩ : ∃ k b f1, ext2_file_read sizeof_prog_head
      (ext2_file_lseek (pos.setWidth 32) f).2 = (k, b, f1) := ⟨_, _, _, rfl⟩
    simp only [hread] at hin ⊢
    split
    · exact ⟨false, f1, s, P, rfl, Edit.refl h⟩
    rename_i hk
    simp only [hk, if_false] at hin
    split
    · rename_i htype
      simp only [htype, if_true, List.mem_cons] at hin
      obtain ⟨r1, f2, s1, P1, hrun1, hedit1, hskip⟩ := elf_load_segment.spec hroot
        (hin _ (Or.inl rfl)) h (heap i) (f := f1)
      simp only [hrun1]
      cases r1 with
      | false => exact ⟨false, f2, s1, P1, rfl, hedit1⟩
      | true =>
        obtain ⟨r, f', s', P', hrun, hedit⟩ := ih (i + 1) _ (f := f2) (fun ph hph => by
          refine (hin ph (Or.inr ?_)).mono fun _ hi => hedit1.reach hi
          rw [hskip rfl]
          exact hph) hedit1.owns
        exact ⟨r, f', s', P', hrun, hedit1.trans hedit⟩
    · rename_i htype
      simp only [htype, if_false] at hin
      exact ih (i + 1) _ hin h

end

/-! ## The new address space -/

/-- The part of a new P4 that is not shared with the kernel. -/
def freshTree (s : Machine) (p4 : Nat) : Tree :=
  ⟨p4, Finset.univ.filter fun i => i ∈ userSlots ∨ present (s.mem s.ptable_p4 i) = false⟩

section

variable {s s1 s' : Machine} {live : List Word} {R : Multiset Nat} {P P1 P' : List Nat} {c f : Nat}
  {i : Fin 512} {va : Word}

theorem mem_freshTree : i ∈ (freshTree s c).slots ↔
    i ∈ userSlots ∨ present (s.mem s.ptable_p4 i) = false := by
  simp [freshTree]

/-- A new P4 owns no table yet. -/
theorem freshTree_empty (hnew : ∀ i, s1.mem c i = if i ∈ userSlots then 0 else s.mem s.ptable_p4 i)
    (hi : i ∈ (freshTree s c).slots) : childOf (s1.mem c i) = none := by
  rw [hnew i]
  split
  · exact childOf_zero
  · rename_i hu
    exact childOf_of_absent ((mem_freshTree.mp hi).resolve_left hu)

theorem freshTree_frames
    (hnew : ∀ i, s1.mem c i = if i ∈ userSlots then 0 else s.mem s.ptable_p4 i) :
    treeFrames s1.mem (freshTree s c) = {c} := by
  have hzero : forest childOf (freshTree s c).slots 3 s1.mem (freshTree s c).root = 0 :=
    forest_eq_zero fun i hi => freshTree_empty hnew hi
  unfold treeFrames
  rw [hzero]
  rfl

/-- What the loader starts from: a P4 whose part that is not shared with the kernel is empty. -/
theorem MMU_create_user_p4.fresh (h : Sound s live R (c :: P1)) :
    ∃ s1, MMU_create_user_p4 s = (frameAddr c, s1) ∧ Owns (freshTree s c) s1 P1 ∧
      treeFrames s1.mem (freshTree s c) = {c} ∧ (∀ f, f ≠ c → s1.mem f = s.mem f) ∧ SameRegs s s1 ∧
      ∀ i, Unshared s i → Reach (freshTree s c) s1 P1 i := by
  have hk : s.ptable_p4 ≠ c := fun he => h.kernel_notMem_pool (he ▸ List.mem_cons_self)
  obtain ⟨hcP, hnd⟩ := List.nodup_cons.mp h.pool_nodup
  obtain ⟨s1, hrun, hpool, hnew, hoff, hregs⟩ := MMU_create_user_p4.spec_cons h.pool hcP hk
  have hframes := freshTree_frames hnew
  refine ⟨s1, hrun, ⟨hpool, fun f hf => h.small f (List.mem_cons_of_mem _ hf), ?_, ?_⟩, hframes,
    hoff, hregs, ?_⟩
  · rw [hframes, Multiset.singleton_add]
    exact Multiset.nodup_cons.mpr ⟨hcP, hnd⟩
  · intro i hi hp
    have hnone : childOf (s1.mem (freshTree s c).root i) = none := freshTree_empty hnew hi
    rw [childOf_of_present hp] at hnone
    cases hnone
  · intro i hi
    rcases hi with hi | rfl | hi
    · exact Or.inl (mem_freshTree.mpr (Or.inl hi))
    · obtain ⟨d, hdR, hd, hbig⟩ := h.identity
      have hdP := h.rest_notMem_pool hdR
      have hdc : d ≠ c := fun he => hdP (he ▸ List.mem_cons_self)
      have h0 : (0 : Fin 512) ∉ userSlots := by
        rw [mem_userSlots]
        decide
      refine Or.inr ⟨d, ?_, ?_, ?_, fun hm => hdP (List.mem_cons_of_mem _ hm), ?_⟩
      · rw [mem_freshTree, not_or]
        exact ⟨h0, by simp [(childOf_eq_some.mp hd).1]⟩
      · have hrow := hnew 0
        rw [if_neg h0] at hrow
        exact (congrArg childOf hrow).trans hd
      · rw [hframes, Multiset.mem_singleton]
        exact hdc
      · rw [hoff d hdc]
        exact hbig
    · exact Or.inl (mem_freshTree.mpr (Or.inr hi))

end

/-- The rest of a range. -/
theorem UserRange.rest {vaddr size k : Word} (h : UserRange vaddr size) (hk : k ≤ size) :
    UserRange (vaddr + k) (size - k) := by
  have hk : k.toNat ≤ size.toNat := hk
  have hlow := h.low
  have hhigh := h.high
  have hadd : (vaddr + k).toNat = vaddr.toNat + k.toNat := by
    rw [BitVec.toNat_add]
    omega
  have hsub := BitVec.toNat_sub_of_le hk
  exact ⟨by omega, by omega⟩

/-- The kernel heap has one page, in frame 6, mapped at `VA_KHEAP_BASE`. -/
def heaped : Machine where
  mem := fun f i =>
    match f with
    | 1 => if i = 0 then 0x2203 else if i = 2 then 0x3203 else 0
    | 2 => 0x283
    | 3 => if i = 0 then 0x4203 else 0
    | 4 => if i = 0 then 0x5203 else 0
    | 5 => if i = 0 then 0x6003 else 0
    | _ => 0
  usable_regions := [⟨0x20000, 0x10000, true⟩]
  free_frames := INVALID_FRAME_ADDR
  kernel_cr3 := 0x1000
  kernel_va := 0x010000001000
  cr3 := 0x1000
  interrupts := true

/-- A file with one loadable segment of 8 bytes, from the start of the file. It announces
`prog_ent_num` program headers but has only one, and of the load address and the size in memory
two bytes are given. -/
def one_segment (prog_ent_num load_addr_5 mem_size_1 : BitVec 8) : File where
  size := 120
  offset := 0
  bytes := fun k =>
    if k = 0 then 0x7F else if k = 1 then 0x45 else if k = 2 then 0x4C else if k = 3 then 0x46
    else if k = 32 then 64 else if k = 54 then 56 else if k = 56 then prog_ent_num
    else if k = 64 then 1 else if k = 85 then load_addr_5 else if k = 96 then 8
    else if k = 105 then mem_size_1 else 0

end JamsOs
