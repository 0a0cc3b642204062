-- Well-formed programs are loaded, if there are enough free frames and the first of them is not
-- frame 0: `MMU_create_user_p4` returns the address of the new table, and 0 means that it failed.
import JamsOs.LoadedImage

namespace JamsOs

open Words RadixTree Placements

/-! ## Programs -/

/-- The pages of a segment. -/
def segment_pages (ph : ELF64_prog_head) : Nat := page_count ph.load_addr ph.mem_size

/-- The loadable program headers of a file, where its header puts them. -/
def File.segments (f : File) : List ELF64_prog_head :=
  loadable f.bytes (.ofBytes f.bytes) 0 (ELF64_head.ofBytes f.bytes).prog_ent_num.toNat

/-- A file with the magic number, whose program headers and whose data are in the file. The segments
are in user space and do not overlap, and do not overlap the stack. -/
structure File.WellFormed (f : File) : Prop where
  small : f.size.toNat < 2 ^ 31
  head : sizeof_head ≤ f.size.toNat
  magic : (ELF64_head.ofBytes f.bytes).magic = ELF_MAGIC
  headers : ∀ i < (ELF64_head.ofBytes f.bytes).prog_ent_num.toNat,
    (header_pos (.ofBytes f.bytes) i).toNat + sizeof_prog_head ≤ f.size.toNat
  data : ∀ ph ∈ f.segments, ph.file_offset.toNat + ph.file_size.toNat ≤ f.size.toNat
  sizes : ∀ ph ∈ f.segments, ph.file_size ≤ ph.mem_size ∧ 0 < ph.mem_size
  range : ∀ ph ∈ f.segments, UserRange ph.load_addr ph.mem_size
  apart : f.segments.Pairwise fun ph ph' =>
    (file_segment f.bytes ph).Apart 4096 (file_segment f.bytes ph')
  stack : ∀ ph ∈ f.segments, (file_segment f.bytes ph).Apart 4096 stack_piece

/-- The number of pages of each segment is an `int`. -/
def File.CountablePages (f : File) : Prop := ∀ ph ∈ f.segments, segment_pages ph < 2 ^ 31

/-- As many frames as a load may take: one for the P4, at most four for each page of the segments,
and six for the stack. -/
def File.frames (f : File) : Nat := 1 + (f.segments.map fun ph => 4 * segment_pages ph).sum + 6

section

variable {f : File} {ph : ELF64_prog_head}

theorem File.WellFormed.header_seekable (h : f.WellFormed) {i : Nat}
    (hi : i < (ELF64_head.ofBytes f.bytes).prog_ent_num.toNat) :
    Seekable f.size (header_pos (.ofBytes f.bytes) i) := by
  have hin := h.headers i hi
  have hsmall := h.small
  exact ⟨by omega, by omega⟩

theorem File.WellFormed.segment_seekable (h : f.WellFormed) (hph : ph ∈ f.segments) :
    Seekable f.size ph.file_offset := by
  have hin := h.data ph hph
  have hsmall := h.small
  exact ⟨by omega, by omega⟩

theorem File.WellFormed.wellSized (h : f.WellFormed) (hpages : f.CountablePages)
    (hph : ph ∈ f.segments) : ph.WellSized := by
  have hhigh := (h.range ph hph).high
  exact ⟨(h.sizes ph hph).1, by omega, hpages ph hph⟩

/-- The pages of a segment are in user space. -/
theorem covers_user {x : Nat} (h : UserRange ph.load_addr ph.mem_size)
    (hx : (file_segment f.bytes ph).Covers 4096 x) : 2 ^ 44 ≤ x ∧ x < 2 ^ 47 := by
  have hlow := h.low
  rw [VA_USER_BASE_toNat] at hlow
  have hhigh := h.high
  have h1 : ph.load_addr.toNat / 4096 ≤ x / 4096 := hx.1
  have h2 : x / 4096 < (ph.load_addr.toNat + ph.mem_size.toNat + 4096 - 1) / 4096 := hx.2
  omega

theorem covers_userSlot {x : Nat} (h : UserRange ph.load_addr ph.mem_size)
    (hx : (file_segment f.bytes ph).Covers 4096 x) :
    PML4_INDEX (BitVec.ofNat 64 x) ∈ userSlots := by
  obtain ⟨hlow, hhigh⟩ := covers_user h hx
  have hnat := ofNat_toNat_of_lt (show x < 2 ^ 48 by omega)
  exact PML4_INDEX_user (by omega) (by omega)

theorem userSlot_ne_zero {i : Fin 512} (h : i ∈ userSlots) : i ≠ 0 := by
  rintro rfl
  rw [mem_userSlots] at h
  exact absurd h (by decide)

theorem stack_userSlot {x : Nat} (hx : stack_piece.Covers 4096 x) :
    PML4_INDEX (BitVec.ofNat 64 x) ∈ userSlots := by
  have h1 : VA_USTACK_BASE.toNat / 4096 ≤ x / 4096 := hx.1
  have h2 : x / 4096 < (VA_USTACK_BASE.toNat + DEFAULT_STACK_BYTES.toNat + 4096 - 1) / 4096 := hx.2
  have hva : 2 ^ 44 ≤ VA_USTACK_BASE.toNat ∧
    VA_USTACK_BASE.toNat + DEFAULT_STACK_BYTES.toNat + 4096 ≤ 2 ^ 47 := by decide
  have hnat := ofNat_toNat_of_lt (show x < 2 ^ 48 by omega)
  exact PML4_INDEX_user (by omega) (by omega)

end

/-! ## The load succeeds -/

section

variable {s s1 s' : Machine} {live : List Word} {R : Multiset Nat} {P P1 : List Nat} {f f1 : File}
  {heap : Nat → Bool} {image : elf_image} {cr3 : Word}

/-- In a new address space the segments of a well-formed program can be loaded. -/
theorem File.WellFormed.canLoad (h : f.WellFormed) (hsame : SameFile f f1)
    (hempty : ∀ i ∈ userSlots, s1.mem (frameOf cr3) i = 0) (hheap : ∀ j, heap j = true)
    (hframes : f.frames ≤ 1 + P1.length) :
    CanLoad (spaceTree (frameOf cr3)) (contents s1.mem (frameOf cr3)) f1 (.ofBytes f.bytes) heap 0
      (ELF64_head.ofBytes f.bytes).prog_ent_num.toNat P1.length := by
  have hload : loadable f1.bytes (.ofBytes f.bytes) 0
      (ELF64_head.ofBytes f.bytes).prog_ent_num.toNat = f.segments := by
    rw [hsame.bytes]
    rfl
  refine ⟨fun j _ hj => ?_, fun j _ _ => hheap j, ?_, ?_, ?_, ?_, ?_, ?_⟩
  · rw [hsame.size]
    exact h.headers j (by omega)
  all_goals rw [hload]
  · intro ph hph _
    rw [hsame.size]
    exact h.data ph hph
  · intro ph hph
    have hlow := (h.range ph hph).low
    rw [VA_USER_BASE_toNat] at hlow
    omega
  · intro ph hph x hx
    rw [hsame.bytes] at hx
    exact mem_spaceTree_slots.mpr (userSlot_ne_zero (covers_userSlot (h.range ph hph) hx))
  · intro ph hph x hx
    rw [hsame.bytes] at hx
    exact contents_of_empty hempty (covers_userSlot (h.range ph hph) hx)
  · rw [hsame.bytes]
    exact h.apart
  · have hbound : 1 + (f.segments.map fun ph => 4 * segment_pages ph).sum + 6 ≤ 1 + P1.length := hframes
    have hsum : (f.segments.map fun ph => 4 * page_count ph.load_addr ph.mem_size).sum ≤ P1.length := by
      unfold segment_pages at hbound
      omega
    exact hsum

theorem elf_load_program.loads (h : Sound s live R P) (hzero : P.head? ≠ some 0)
    (hf : f.WellFormed) (hpages : f.CountablePages) (hstart : f.offset = 0)
    (hheap : ∀ j, heap j = true) (hframes : f.frames ≤ P.length) :
    ∃ image s', elf_load_program (some f) heap s = some (some image, s') := by
  obtain ⟨f1, hhead⟩ := (elf_read_header.reads hstart).mpr ⟨hf.head, rfl, hf.magic⟩
  have hsame := elf_read_header.same hhead
  obtain ⟨cr3, s1, hcreate⟩ : ∃ cr3 s1, MMU_create_user_p4 s = (cr3, s1) := ⟨_, _, rfl⟩
  have hcr3 : cr3 ≠ 0 := by
    cases P with
    | nil => simp [File.frames] at hframes
    | cons c P1 =>
      obtain ⟨s1', hrun, -⟩ := MMU_create_user_p4.fresh h
      rw [hcreate] at hrun
      cases hrun
      exact fun h0 => hzero (congrArg some ((frameAddr_eq_zero (h.pool.small c List.mem_cons_self)).mp h0))
  obtain ⟨P1, hlen, hspace, hempty⟩ := MMU_create_user_p4.space h hcreate hcr3
  have hfirst : header_pos (.ofBytes f.bytes) 0 = (ELF64_head.ofBytes f.bytes).prog_table_pos := by
    simp [header_pos]
  have hsegments : loadable f1.bytes (.ofBytes f.bytes) 0
      (ELF64_head.ofBytes f.bytes).prog_ent_num.toNat = f.segments := by
    rw [hsame.bytes]
    rfl
  obtain ⟨r, f2, s2, P2, hrun2, hedit2, hok2, hcan2⟩ := segments_loop.places (.ofBytes f.bytes) heap rfl
    (ELF64_head.ofBytes f.bytes).prog_ent_num.toNat 0 f1
    (fun j _ hj => by rw [hsame.size]; exact hf.header_seekable (by omega))
    (fun ph hp => by
      rw [hsegments] at hp
      rw [hsame.size]
      exact ⟨hf.segment_seekable hp, hf.wellSized hpages hp⟩) hspace.reach hspace.owns
  obtain ⟨rfl, hleft⟩ := hcan2 (hf.canLoad hsame hempty hheap (by omega))
  obtain ⟨-, hplaced⟩ := hok2 rfl
  rw [hsegments] at hleft hplaced
  obtain ⟨r3, s3, P3, hrun3, -, -, hcan3⟩ := elf_alloc_user_stack.places (hspace.edit hedit2)
  have hfits : Fits 4096 stack_piece (contents s2.mem (frameOf cr3)) := by
    intro x hx
    have hout := hplaced.outside (x := x) fun p hp hcov => by
      obtain ⟨ph, hph, rfl⟩ := List.mem_map.mp hp
      rw [hsame.bytes] at hcov
      exact hf.stack ph hph x hcov hx
    exact hout.trans (contents_of_empty hempty (stack_userSlot hx))
  have hr3 : r3 = true := hcan3 hfits (by
    have hbound : 1 + (f.segments.map fun ph => 4 * segment_pages ph).sum + 6 ≤ P.length := hframes
    have hleft : P1.length ≤ P2.length + (f.segments.map fun ph => 4 * segment_pages ph).sum := hleft
    omega)
  subst hr3
  rw [hfirst] at hrun2
  unfold elf_load_program elf_load_segments
  simp only [hhead, hcreate, hcr3, if_false, hrun2, hrun3]
  exact ⟨_, _, rfl⟩

end

end JamsOs
