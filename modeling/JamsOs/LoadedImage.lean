-- What a loaded program finds in memory. The contents of an address space are the bytes of its
-- reserved pages. A segment that is loaded is a piece that is placed where no page was
-- reserved, with the bytes of the file and zeros after them.
import JamsOs.Placements
import JamsOs.UserWrites
import JamsOs.LoaderIsolation

namespace JamsOs

open Words RadixTree Placements

/-! ## The contents of an address space -/

/-- The bytes of an address space, by addresses of 48 bits. -/
def contents (m : Nat → Frame) (p4 x : Nat) : Option (BitVec 8) :=
  if x < 2 ^ 48 then space_byte m p4 (BitVec.ofNat 64 x) else none

/-- The pages of a range, without data. -/
def blank (vaddr size : Word) : Piece (BitVec 8) := ⟨vaddr.toNat, size.toNat, 0, fun _ => 0⟩

/-- The number of pages of a range. -/
def page_count (vaddr size : Word) : Nat :=
  (vaddr.toNat + size.toNat + 4095) / 4096 - vaddr.toNat / 4096

section

variable {T : Tree} {s s' : Machine} {P P' : List Nat} {m m' : Nat → Frame} {cr3 vaddr size va va' : Word}
  {p4 x : Nat}

theorem space_byte_eq_none_iff :
    space_byte m p4 va = none ↔ reserved (page_word m p4 va) = false := by
  unfold space_byte page_byte page_view reserved
  rcases hp : present (page_word m p4 va) with _ | _
  · simp [childOf_of_absent hp]
  · simp [childOf_of_present hp]

theorem ofNat_toNat_of_lt (h : x < 2 ^ 48) : (BitVec.ofNat 64 x).toNat = x := by
  rw [BitVec.toNat_ofNat]
  omega

theorem PML4_INDEX_of_path (h : page_path va = page_path va') : PML4_INDEX va = PML4_INDEX va' := by
  simp only [page_path, List.cons.injEq] at h
  exact h.1

/-- The address space sees the same byte where the page looks the same. -/
theorem contents_of_view (h : page_view m' p4 (BitVec.ofNat 64 x) = page_view m p4 (BitVec.ofNat 64 x)) :
    contents m' p4 x = contents m p4 x := by
  unfold contents space_byte
  rw [h]

/-! ## Reserving a range -/

theorem num_pages_of_count (h : page_count vaddr size < 2 ^ 31) :
    num_pages vaddr size = page_count vaddr size := by
  rw [num_pages_eq]
  unfold page_count at h ⊢
  dsimp only
  split <;> omega

/-- The pages of a range are those that the loop goes over. -/
theorem covers_iff (hend : vaddr.toNat + size.toNat ≤ 2 ^ 48) :
    (blank vaddr size).Covers 4096 x ↔ x < 2 ^ 48 ∧ ∃ j < page_count vaddr size,
      page_path (BitVec.ofNat 64 x) = page_path (range_page (vaddr &&& PAGE_MASK) j) := by
  unfold Piece.Covers blank page_count
  dsimp only
  constructor
  · rintro ⟨h1, h2⟩
    have hx : x < 2 ^ 48 := by omega
    refine ⟨hx, x / 4096 - vaddr.toNat / 4096, by omega, ?_⟩
    rw [page_path_eq_iff, range_page_div, masked_div, ofNat_toNat_of_lt hx]
    omega
  · rintro ⟨hx, j, hj, hpath⟩
    rw [page_path_eq_iff, range_page_div, masked_div, ofNat_toNat_of_lt hx] at hpath
    omega

theorem covers_page (hend : vaddr.toNat + size.toNat ≤ 2 ^ 48) {j : Nat}
    (hj : j < page_count vaddr size) :
    (blank vaddr size).Covers 4096 ((vaddr.toNat / 4096 + j) * 4096) ∧
      page_path (BitVec.ofNat 64 ((vaddr.toNat / 4096 + j) * 4096)) =
        page_path (range_page (vaddr &&& PAGE_MASK) j) := by
  unfold page_count at hj
  have hx : (vaddr.toNat / 4096 + j) * 4096 < 2 ^ 48 := by omega
  refine ⟨?_, ?_⟩
  · unfold Piece.Covers blank
    dsimp only
    omega
  · rw [page_path_eq_iff, range_page_div, masked_div, ofNat_toNat_of_lt hx]
    omega

/-- The P4 entries of the pages of a range are those of the tree. -/
def SlotsIn (T : Tree) (p : Piece (BitVec 8)) : Prop :=
  ∀ x, p.Covers 4096 x → PML4_INDEX (BitVec.ofNat 64 x) ∈ T.slots

/-- A reservation that succeeds has placed the range. It succeeds where the pages are free and there
are frames for their tables. -/
theorem MMU_alloc_at_as.places (h : Owns T s P) (hroot : frameOf cr3 = T.root)
    (hreach : ∀ i, Reach T s P i) (hend : vaddr.toNat + size.toNat ≤ 2 ^ 48)
    (hcount : page_count vaddr size < 2 ^ 31) :
    ∃ r s' P', MMU_alloc_at_as cr3 vaddr size s = (bif r then vaddr &&& PAGE_MASK else 0, s') ∧
      Edit T s P s' P' ∧
      (r = true → SlotsIn T (blank vaddr size) ∧
        Fits 4096 (blank vaddr size) (contents s.mem T.root) ∧
        contents s'.mem T.root = place 4096 (blank vaddr size) (contents s.mem T.root)) ∧
      (SlotsIn T (blank vaddr size) → Fits 4096 (blank vaddr size) (contents s.mem T.root) →
        3 * page_count vaddr size ≤ P.length →
        r = true ∧ P.length ≤ P'.length + 3 * page_count vaddr size) := by
  obtain ⟨r, s', P', done, hrun, hedit, hle, hr, hres, hok⟩ :=
    MMU_alloc_at_as.views h hroot hreach vaddr size
  rw [num_pages_of_count hcount] at hle hr
  refine ⟨r, s', P', hrun, hedit, ?_, ?_⟩
  · intro hr1
    rw [hr.mp hr1] at hres
    refine ⟨?_, ?_, ?_⟩
    · intro x hx
      obtain ⟨_, j, hj, hpath⟩ := (covers_iff hend).mp hx
      rw [PML4_INDEX_of_path hpath]
      exact hres.slots j (Nat.zero_le j) (by omega)
    · intro x hx
      obtain ⟨hx48, j, hj, hpath⟩ := (covers_iff hend).mp hx
      rw [contents, if_pos hx48, space_byte_eq_none_iff, page_word_of_path hpath]
      exact hres.fresh j (Nat.zero_le j) (by omega)
    · funext x
      by_cases hx : (blank vaddr size).Covers 4096 x
      · obtain ⟨hx48, j, hj, hpath⟩ := (covers_iff hend).mp hx
        have hd := hres.demand j (Nat.zero_le j) (by omega)
        have ha := hres.absent j (Nat.zero_le j) (by omega)
        rw [place_of_covers hx, Piece.value_rest (by simp [blank]), contents, if_pos hx48, space_byte,
          page_view_of_path hpath]
        simp [page_byte, page_view, childOf_of_absent ha, hd]
      · rw [place_of_not_covers hx]
        by_cases hx48 : x < 2 ^ 48
        swap
        · rw [contents, contents, if_neg hx48, if_neg hx48]
        refine contents_of_view ?_
        rcases hreach (PML4_INDEX (BitVec.ofNat 64 x)) with hslot | ⟨pdpt, hb⟩
        · exact hres.other _ hslot fun j _ hj hpath =>
            hx ((covers_iff hend).mpr ⟨hx48, j, by omega, hpath⟩)
        · exact hedit.view_of_blocked hb
  · intro hslots hfits hframes
    rw [num_pages_of_count hcount] at hok
    refine hok (fun j hj => ?_) hframes
    obtain ⟨hcov, hpath⟩ := covers_page hend hj
    have hfree := hfits _ hcov
    rw [contents, if_pos ((covers_iff hend).mp hcov).1, space_byte_eq_none_iff,
      page_word_of_path hpath] at hfree
    rw [← PML4_INDEX_of_path hpath]
    exact ⟨hslots _ hcov, hfree⟩

/-! ## Writing to a range -/

/-- The contents after `n` bytes from address `a` on were written. -/
def overlay (a n : Nat) (src : Nat → BitVec 8) (c : Nat → Option (BitVec 8)) :
    Nat → Option (BitVec 8) := fun x =>
  if a ≤ x ∧ x < a + n then some (src (x - a)) else c x

/-- Bytes of a piece were written, and each page of the piece that needed a frame for it has taken
one. -/
structure Stored (T : Tree) (p : Piece (BitVec 8)) (a n : Nat) (src : Nat → BitVec 8) (s : Machine)
    (P : List Nat) (s' : Machine) (P' : List Nat) : Prop where
  bytes : contents s'.mem T.root = overlay a n src (contents s.mem T.root)
  frames : untouched s'.mem T.root p.base (p.base + p.size) + P.length =
    untouched s.mem T.root p.base (p.base + p.size) + P'.length

section

variable {p : Piece (BitVec 8)} {dst : Word} {len a n k : Nat} {src : Nat → BitVec 8}
  {c : Nat → Option (BitVec 8)}

theorem overlay_zero (a : Nat) (src : Nat → BitVec 8) (c : Nat → Option (BitVec 8)) :
    overlay a 0 src c = c := by
  funext x
  rw [overlay, if_neg (by omega)]

/-- Two writes of neighbouring ranges. -/
theorem overlay_append (a n k : Nat) (src : Nat → BitVec 8) (c : Nat → Option (BitVec 8)) :
    overlay (a + n) k (fun i => src (n + i)) (overlay a n src c) = overlay a (n + k) src c := by
  funext x
  unfold overlay
  by_cases h1 : a + n ≤ x ∧ x < a + n + k
  · have hk : n + (x - (a + n)) = x - a := by omega
    rw [if_pos h1, if_pos (by omega), ← hk]
  · rw [if_neg h1]
    by_cases h2 : a ≤ x ∧ x < a + n
    · rw [if_pos h2, if_pos (by omega)]
    · rw [if_neg h2, if_neg (by omega)]

theorem mem_page_numbers_iff {q b : Nat} :
    q ∈ page_numbers a b ↔ a < b ∧ a / 4096 ≤ q ∧ q ≤ (b - 1) / 4096 := by
  unfold page_numbers
  split
  · rw [Finset.mem_Icc]
    omega
  · simp only [Finset.notMem_empty, false_iff]
    omega

/-- A write to a part of a piece takes the frames that the part needs. -/
theorem untouched_after (hend : p.base + p.size ≤ 2 ^ 48) (hslots : SlotsIn T p)
    (hin : p.base ≤ dst.toNat ∧ dst.toNat + len ≤ p.base + p.size)
    (hwrote : Wrote T dst src len 0 m m') (hsame : SameOutside T dst len 0 m m') :
    untouched m' T.root p.base (p.base + p.size) + untouched m T.root dst.toNat (dst.toNat + len) =
      untouched m T.root p.base (p.base + p.size) := by
  have haddr : ∀ q ∈ page_numbers p.base (p.base + p.size), (page_addr q).toNat = q * 4096 := by
    intro q hq
    have hpages := mem_page_numbers_iff.mp hq
    exact page_addr_toNat (by omega)
  -- a page of the piece outside of the part keeps its word
  have hkeep : ∀ q ∈ page_numbers p.base (p.base + p.size),
      q ∉ page_numbers dst.toNat (dst.toNat + len) →
      page_word m' T.root (page_addr q) = page_word m T.root (page_addr q) := by
    intro q hq hout
    have hpages := mem_page_numbers_iff.mp hq
    have hqaddr := haddr q hq
    have hslot : PML4_INDEX (page_addr q) ∈ T.slots := by
      apply hslots
      unfold Piece.Covers
      omega
    refine congrArg Prod.fst (hsame (page_addr q) hslot fun j _ hj => ?_)
    have hbyte : (dst + BitVec.ofNat 64 j).toNat = dst.toNat + j := add_toNat (by omega)
    refine page_path_ne_of_div (by omega) (by omega) fun he => hout ?_
    rw [hbyte, hqaddr] at he
    exact mem_page_numbers_iff.mpr (by omega)
  -- a page of the part has a frame
  have hpart : ∀ q ∈ page_numbers p.base (p.base + p.size),
      q ∈ page_numbers dst.toNat (dst.toNat + len) →
      present (page_word m' T.root (page_addr q)) = true := by
    intro q hq hin
    have hpages := mem_page_numbers_iff.mp hin
    have hqaddr := haddr q hq
    have hbyte : (dst + BitVec.ofNat 64 (max dst.toNat (q * 4096) - dst.toNat)).toNat =
        dst.toNat + (max dst.toNat (q * 4096) - dst.toNat) := add_toNat (by omega)
    have hp := hwrote.present (max dst.toNat (q * 4096) - dst.toNat) (Nat.zero_le _) (by omega)
    rw [page_word_of_path (page_path_of_div (show _ = (page_addr q).toNat / 4096 by omega))] at hp
    exact hp
  have hrest : (page_numbers p.base (p.base + p.size)).filter
      (fun q => present (page_word m' T.root (page_addr q)) = false) =
      ((page_numbers p.base (p.base + p.size)).filter
          fun q => present (page_word m T.root (page_addr q)) = false) \
        (page_numbers dst.toNat (dst.toNat + len)).filter
          fun q => present (page_word m T.root (page_addr q)) = false := by
    ext q
    simp only [Finset.mem_filter, Finset.mem_sdiff, not_and]
    constructor
    · rintro ⟨hq, habs⟩
      have hout : q ∉ page_numbers dst.toNat (dst.toNat + len) := by
        intro hin
        rw [hpart q hq hin] at habs
        cases habs
      rw [hkeep q hq hout] at habs
      exact ⟨⟨hq, habs⟩, fun hin => absurd hin hout⟩
    · rintro ⟨⟨hq, habs⟩, hout⟩
      rw [hkeep q hq fun hin => hout hin habs]
      exact ⟨hq, habs⟩
  unfold untouched
  rw [hrest]
  refine Finset.card_sdiff_add_card_eq_card (Finset.filter_subset_filter _ fun q hq => ?_)
  have hpages := mem_page_numbers_iff.mp hq
  exact mem_page_numbers_iff.mpr (by omega)

/-- The address space, after the loop ended well, for a part of a piece whose pages are in the tree.
The loop ends well where all pages of the piece are reserved and there are frames for them. -/
theorem write_user_loop.stores (src : Nat → BitVec 8) (h : Owns T s P) (hroot : frameOf cr3 = T.root)
    (hreach : ∀ i, Reach T s P i) (hend : p.base + p.size ≤ 2 ^ 48) (hslots : SlotsIn T p)
    (hin : p.base ≤ dst.toNat ∧ dst.toNat + len ≤ p.base + p.size) :
    ∃ r s' P', write_user_loop cr3 dst src len 0 s = (r, s') ∧ Edit T s P s' P' ∧
      (r = true → Stored T p dst.toNat len src s P s' P') ∧
      ((∀ x, p.Covers 4096 x → contents s.mem T.root x ≠ none) →
        untouched s.mem T.root p.base (p.base + p.size) ≤ P.length → r = true) := by
  have hbyte : ∀ j < len, (dst + BitVec.ofNat 64 j).toNat = dst.toNat + j := fun j hj =>
    add_toNat (by omega)
  have hcovers : ∀ j < len, p.Covers 4096 (dst.toNat + j) := fun j hj =>
    Piece.covers_of_lt (by decide) (by omega) (by omega)
  have haddr : ∀ j < len, BitVec.ofNat 64 (dst.toNat + j) = dst + BitVec.ofNat 64 j := by
    intro j hj
    apply BitVec.eq_of_toNat_eq
    rw [ofNat_toNat_of_lt (by omega), hbyte j hj]
  have hva : ∀ j < len, PML4_INDEX (dst + BitVec.ofNat 64 j) ∈ T.slots := by
    intro j hj
    rw [← haddr j hj]
    exact hslots _ (hcovers j hj)
  obtain ⟨r, s', P', hrun, hedit, hcan, hsame, hok⟩ :=
    write_user_loop.views src hroot (by omega) hva 0 h
  refine ⟨r, s', P', hrun, hedit, ?_, ?_⟩
  · intro hr
    obtain ⟨hwrote, hframes⟩ := hok hr
    refine ⟨?_, ?_⟩
    · funext x
      by_cases hx : x < 2 ^ 48
      swap
      · rw [contents, overlay, contents, if_neg hx, if_neg (by omega), if_neg hx]
      rcases hreach (PML4_INDEX (BitVec.ofNat 64 x)) with hslot | ⟨pdpt, hb⟩
      · have hx' := ofNat_toNat_of_lt hx
        have hb := hwrote.bytes (BitVec.ofNat 64 x) (by omega) hslot
        rw [hx'] at hb
        rw [contents, if_pos hx, hb, overlay, contents, if_pos hx, Nat.add_zero]
      · rw [contents_of_view (hedit.view_of_blocked hb), overlay, if_neg]
        intro hrange
        refine hb.other (hslots x ?_)
        exact Piece.covers_of_lt (by decide) (by omega) (by omega)
    · have hafter := untouched_after hend hslots hin hwrote hsame
      rw [Nat.add_zero] at hframes
      omega
  · intro hall hframes
    refine hcan.mpr ⟨fun j _ hj => ?_, ?_⟩
    · have hbyte := hall _ (hcovers j hj)
      rw [contents, if_pos (by omega), haddr j hj, ne_eq, space_byte_eq_none_iff] at hbyte
      simpa using hbyte
    · refine (Finset.card_le_card (Finset.filter_subset_filter _ fun q hq => ?_)).trans hframes
      have hpages := mem_page_numbers_iff.mp hq
      exact mem_page_numbers_iff.mpr (by omega)

theorem Stored.masked (h : Stored T p a n src (CLI s) P s' P') (b : Bool) :
    Stored T p a n src s P (restore_interrupts b s') P' :=
  ⟨by rw [restore_interrupts_mem]; exact h.bytes, by rw [restore_interrupts_mem]; exact h.frames⟩

theorem MMU_copy_to_user_as_eq (cr3 dst len : Word) (src : Nat → BitVec 8) (s : Machine) :
    MMU_copy_to_user_as cr3 dst (some src) len s =
      ((write_user_loop cr3 dst src len.toNat 0 (CLI s)).1,
        restore_interrupts s.interrupts (write_user_loop cr3 dst src len.toNat 0 (CLI s)).2) := rfl

theorem MMU_zero_user_as_eq (cr3 dst len : Word) (s : Machine) :
    MMU_zero_user_as cr3 dst len s =
      ((write_user_loop cr3 dst (fun _ => 0) len.toNat 0 (CLI s)).1,
        restore_interrupts s.interrupts (write_user_loop cr3 dst (fun _ => 0) len.toNat 0 (CLI s)).2) :=
  rfl

theorem MMU_copy_to_user_as.stores (src : Nat → BitVec 8) (h : Owns T s P)
    (hroot : frameOf cr3 = T.root) (hreach : ∀ i, Reach T s P i) (hend : p.base + p.size ≤ 2 ^ 48)
    (hslots : SlotsIn T p) (hin : p.base ≤ dst.toNat ∧ dst.toNat + len ≤ p.base + p.size) :
    ∃ r s' P', MMU_copy_to_user_as cr3 dst (some src) (BitVec.ofNat 64 len) s = (r, s') ∧
      Edit T s P s' P' ∧ (r = true → Stored T p dst.toNat len src s P s' P') ∧
      ((∀ x, p.Covers 4096 x → contents s.mem T.root x ≠ none) →
        untouched s.mem T.root p.base (p.base + p.size) ≤ P.length → r = true) := by
  have hlen : (BitVec.ofNat 64 len).toNat = len := by
    rw [BitVec.toNat_ofNat]
    omega
  obtain ⟨r, s', P', hrun, hedit, hok, hcan⟩ := write_user_loop.stores src h.CLI hroot
    (fun i => (hreach i).CLI) hend hslots hin
  refine ⟨r, restore_interrupts s.interrupts s', P', ?_, hedit.masked, fun hr => (hok hr).masked _, hcan⟩
  rw [← hlen] at hrun
  rw [MMU_copy_to_user_as_eq, hrun]

theorem MMU_zero_user_as.stores {len : Word} (h : Owns T s P) (hroot : frameOf cr3 = T.root)
    (hreach : ∀ i, Reach T s P i) (hend : p.base + p.size ≤ 2 ^ 48) (hslots : SlotsIn T p)
    (hin : p.base ≤ dst.toNat ∧ dst.toNat + len.toNat ≤ p.base + p.size) :
    ∃ r s' P', MMU_zero_user_as cr3 dst len s = (r, s') ∧ Edit T s P s' P' ∧
      (r = true → Stored T p dst.toNat len.toNat (fun _ => 0) s P s' P') ∧
      ((∀ x, p.Covers 4096 x → contents s.mem T.root x ≠ none) →
        untouched s.mem T.root p.base (p.base + p.size) ≤ P.length → r = true) := by
  obtain ⟨r, s', P', hrun, hedit, hok, hcan⟩ := write_user_loop.stores (fun _ => 0) h.CLI hroot
    (fun i => (hreach i).CLI) hend hslots hin
  refine ⟨r, restore_interrupts s.interrupts s', P', ?_, hedit.masked, fun hr => (hok hr).masked _, hcan⟩
  rw [MMU_zero_user_as_eq, hrun]

theorem Stored.trans {s1 : Machine} {P1 : List Nat} (h : Stored T p a n src s P s1 P1)
    (h' : Stored T p (a + n) k (fun i => src (n + i)) s1 P1 s' P') :
    Stored T p a (n + k) src s P s' P' := by
  refine ⟨?_, ?_⟩
  · rw [h'.bytes, h.bytes, overlay_append]
  · have h1 := h.frames
    have h2 := h'.frames
    omega

/-- A write to reserved pages leaves them reserved. -/
theorem Stored.in_use (h : Stored T p a n src s P s' P') (hx : contents s.mem T.root x ≠ none) :
    contents s'.mem T.root x ≠ none := by
  rw [h.bytes, overlay]
  split
  · exact nofun
  · exact hx

/-! ## Segments -/

/-- The file has the same bytes. -/
structure SameFile (f f' : File) : Prop where
  size : f'.size = f.size
  bytes : f'.bytes = f.bytes

theorem SameFile.trans {f f1 f' : File} (h : SameFile f f1) (h' : SameFile f1 f') : SameFile f f' :=
  ⟨h'.size.trans h.size, h'.bytes.trans h.bytes⟩

theorem ext2_file_read.same (len : Nat) (f : File) : SameFile f (ext2_file_read len f).2.2 := by
  unfold ext2_file_read
  split
  · exact ⟨rfl, rfl⟩
  · exact ⟨rfl, rfl⟩

theorem ext2_file_lseek.same (offset : BitVec 32) (f : File) :
    SameFile f (ext2_file_lseek offset f).2 := by
  unfold ext2_file_lseek
  split
  · exact ⟨rfl, rfl⟩
  · exact ⟨rfl, rfl⟩

/-- The rest of a segment's data is in the file. -/
def Available (f : File) (remaining : Nat) : Prop :=
  0 < remaining → f.offset.toNat + remaining ≤ f.size.toNat

/-- A read gives all it was asked for exactly when that much is left in the file. -/
theorem ext2_file_read.whole {f : File} {len : Nat} (hlen : 0 < len) :
    (ext2_file_read len f).1 = len ↔ f.offset.toNat + len ≤ f.size.toNat := by
  unfold ext2_file_read
  split
  · dsimp only
    omega
  · dsimp only
    omega

theorem ext2_file_read.next {f : File} {len : Nat} (h : f.offset.toNat + len ≤ f.size.toNat)
    (hlen : 0 < len) :
    ext2_file_read len f = (len, fun i => f.bytes (f.offset.toNat + i),
      { f with offset := f.offset + BitVec.ofNat 64 len }) ∧
    (f.offset + BitVec.ofNat 64 len).toNat = f.offset.toNat + len := by
  have hsize := f.size.isLt
  refine ⟨?_, add_toNat (by omega)⟩
  unfold ext2_file_read
  rw [if_neg (by omega)]
  dsimp only
  rw [Nat.min_eq_left (by omega)]

/-- The loop has written the rest of the data when it ends well. -/
theorem load_loop.stores (hroot : frameOf cr3 = T.root) (hend : p.base + p.size ≤ 2 ^ 48)
    (hslots : SlotsIn T p) (remaining : Nat) (dst : Word) (f : File)
    (hin : p.base ≤ dst.toNat ∧ dst.toNat + remaining ≤ p.base + p.size)
    (hreach : ∀ i, Reach T s P i) (h : Owns T s P) :
    ∃ r f' s' P', load_loop cr3 remaining dst f s = (r, f', s') ∧ Edit T s P s' P' ∧ SameFile f f' ∧
      (r = true → Available f remaining ∧
        Stored T p dst.toNat remaining (fun i => f.bytes (f.offset.toNat + i)) s P s' P') ∧
      (Available f remaining → (∀ x, p.Covers 4096 x → contents s.mem T.root x ≠ none) →
        untouched s.mem T.root p.base (p.base + p.size) ≤ P.length → r = true) := by
  induction remaining using Nat.strong_induction_on generalizing dst f s P with
  | _ remaining ih =>
    unfold load_loop
    by_cases hpos : 0 < remaining
    swap
    · have h0 : remaining = 0 := by omega
      subst h0
      refine ⟨true, f, s, P, rfl, Edit.refl h, ⟨rfl, rfl⟩, fun _ => ⟨fun hlt => absurd hlt hpos, ?_, rfl⟩,
        fun _ _ _ => rfl⟩
      rw [overlay_zero]
    rw [if_pos hpos]
    obtain ⟨chunk, hchunk⟩ : ∃ chunk, chunk = min remaining 4096 := ⟨_, rfl⟩
    rw [← hchunk]
    by_cases hread : (ext2_file_read chunk f).1 = chunk
    swap
    · obtain ⟨k, b, f1, hrun⟩ : ∃ k b f1, ext2_file_read chunk f = (k, b, f1) := ⟨_, _, _, rfl⟩
      rw [hrun] at hread
      have hread : k ≠ chunk := hread
      have hsame := ext2_file_read.same chunk f
      rw [hrun] at hsame
      simp only [hrun, ne_eq, hread, not_false_eq_true, if_true]
      refine ⟨false, f1, s, P, rfl, Edit.refl h, hsame, by simp, fun havail => ?_⟩
      have hrest := havail hpos
      have hwhole := (ext2_file_read.whole (f := f) (by omega)).mpr (show _ + chunk ≤ _ by omega)
      rw [hrun] at hwhole
      exact absurd hwhole hread
    have havail1 := (ext2_file_read.whole (by omega)).mp hread
    obtain ⟨hrun1, hoff1⟩ := ext2_file_read.next havail1 (by omega)
    simp only [hrun1, ne_eq, not_true_eq_false, if_false]
    have hchunk : p.base ≤ dst.toNat ∧ dst.toNat + chunk ≤ p.base + p.size := by omega
    obtain ⟨r1, s1, P1, hrun2, hedit1, hok1, hcan1⟩ := MMU_copy_to_user_as.stores
      (fun i => f.bytes (f.offset.toNat + i)) h hroot hreach hend hslots hchunk
    simp only [hrun2]
    cases r1 with
    | false =>
      exact ⟨false, _, s1, P1, rfl, hedit1, ⟨rfl, rfl⟩, by simp,
        fun _ hall hframes => hcan1 hall hframes⟩
    | true =>
      have hstored := hok1 rfl
      have hdst : (dst + BitVec.ofNat 64 chunk).toNat = dst.toNat + chunk := add_toNat (by omega)
      obtain ⟨r, f', s', P', hrun, hedit, hsame, hok, hcan⟩ := ih (remaining - chunk) (by omega)
        (dst + BitVec.ofNat 64 chunk) { f with offset := f.offset + BitVec.ofNat 64 chunk }
        (by omega) (fun i => hedit1.reach (hreach i)) hedit1.owns
      refine ⟨r, f', s', P', hrun, hedit1.trans hedit, ⟨hsame.size, hsame.bytes⟩, fun hr => ?_,
        fun havail hall hframes => ?_⟩
      · obtain ⟨havail, hrest⟩ := hok hr
        refine ⟨fun _ => ?_, ?_⟩
        · by_cases hlast : 0 < remaining - chunk
          · have hrest := havail hlast
            dsimp only at hrest
            omega
          · omega
        · have hbytes : (fun i => f.bytes (f.offset.toNat + (chunk + i))) =
              fun i => f.bytes ((f.offset + BitVec.ofNat 64 chunk).toNat + i) := by
            funext i
            rw [hoff1, Nat.add_assoc]
          have hwhole := hstored.trans (k := remaining - chunk) (by
            rw [hbytes, ← hdst]
            exact hrest)
          rw [Nat.add_sub_cancel' (by omega)] at hwhole
          exact hwhole
      · refine hcan (fun hlast => ?_) (fun x hx => hstored.in_use (hall x hx)) ?_
        · have hrest := havail hpos
          dsimp only
          omega
        · have hcount := hstored.frames
          omega

/-- What a segment puts into memory, with the data from the position of the file on. -/
def segment (ph : ELF64_prog_head) (f : File) : Piece (BitVec 8) where
  base := ph.load_addr.toNat
  size := ph.mem_size.toNat
  filled := ph.file_size.toNat
  data := fun k => f.bytes (f.offset.toNat + k)

/-- The segment ends below 2^48, and its number of pages is an `int`. -/
structure ELF64_prog_head.WellSized (ph : ELF64_prog_head) : Prop where
  file : ph.file_size ≤ ph.mem_size
  addr : ph.load_addr.toNat + ph.mem_size.toNat ≤ 2 ^ 48
  pages : page_count ph.load_addr ph.mem_size < 2 ^ 31

/-- The data over the pages that were reserved for it. -/
theorem overlay_blank {base size filled : Nat} (hfile : filled ≤ size) (data z : Nat → BitVec 8)
    (c : Nat → Option (BitVec 8)) :
    overlay base filled data (place 4096 ⟨base, size, 0, z⟩ c) =
      place 4096 ⟨base, size, filled, data⟩ c := by
  funext x
  unfold overlay place Piece.value
  by_cases hdata : base ≤ x ∧ x < base + filled
  · have hcov : (Piece.mk base size filled data).Covers 4096 x :=
      Piece.covers_of_lt (by decide) hdata.1 (by dsimp only; omega)
    rw [if_pos hdata, if_pos hcov, if_pos hdata]
  · have hnone : ¬(base ≤ x ∧ x < base + 0) := by omega
    simp only [if_neg hdata, if_neg hnone]
    rfl

/-- The zeros after the data are there already. -/
theorem overlay_rest {base size filled : Nat} (data : Nat → BitVec 8) (c : Nat → Option (BitVec 8)) :
    overlay (base + filled) (size - filled) (fun _ => 0) (place 4096 ⟨base, size, filled, data⟩ c) =
      place 4096 ⟨base, size, filled, data⟩ c := by
  funext x
  unfold overlay
  split
  · have hcov : (Piece.mk base size filled data).Covers 4096 x :=
      Piece.covers_of_lt (by decide) (by dsimp only; omega) (by dsimp only; omega)
    rw [place_of_covers hcov, Piece.value_rest (by dsimp only; omega)]
  · rfl

/-- The number of pages of a range bounds those that need a frame. -/
theorem untouched_le_count (m : Nat → Frame) (p4 : Nat) (vaddr size : Word) :
    untouched m p4 vaddr.toNat (vaddr.toNat + size.toNat) ≤ page_count vaddr size := by
  refine (Finset.card_filter_le _ _).trans ?_
  unfold page_numbers page_count
  split
  · rw [Nat.card_Icc]
    omega
  · exact Nat.zero_le _

/-- A segment that is loaded is placed with its data. It is loaded where its pages are free, its data
is in the file, and there are frames for its pages and their tables. -/
theorem elf_load_segment.places {ph : ELF64_prog_head} (hroot : frameOf cr3 = T.root)
    (hph : ph.WellSized) (kmalloc_ok : Bool) (f : File) (hreach : ∀ i, Reach T s P i)
    (h : Owns T s P) :
    let f1 := (ext2_file_lseek (ph.file_offset.setWidth 32) f).2
    ∃ r f' s' P', elf_load_segment ph cr3 kmalloc_ok f s = (r, f', s') ∧ Edit T s P s' P' ∧
      SameFile f f' ∧
      (r = true → Available f1 ph.file_size.toNat ∧
        Fits 4096 (segment ph f1) (contents s.mem T.root) ∧
        contents s'.mem T.root = place 4096 (segment ph f1) (contents s.mem T.root)) ∧
      (Available f1 ph.file_size.toNat → kmalloc_ok = true → 4096 ≤ ph.load_addr.toNat →
        SlotsIn T (segment ph f1) → Fits 4096 (segment ph f1) (contents s.mem T.root) →
        4 * page_count ph.load_addr ph.mem_size ≤ P.length →
        r = true ∧ P.length ≤ P'.length + 4 * page_count ph.load_addr ph.mem_size) := by
  intro f1
  have hfile : ph.file_size.toNat ≤ ph.mem_size.toNat := hph.file
  have hmem := ph.mem_size.isLt
  have haddr := hph.addr
  have hsame1 : SameFile f f1 := ext2_file_lseek.same _ f
  obtain ⟨r1, s1, P1, hrun1, hedit1, hok1, hcan1⟩ :=
    MMU_alloc_at_as.places h hroot hreach haddr hph.pages
  unfold elf_load_segment
  simp only [hrun1]
  cases r1 with
  | false =>
    refine ⟨false, f, s1, P1, by simp, hedit1, ⟨rfl, rfl⟩, nofun, ?_⟩
    intro _ _ _ hslots hfits hframes
    exact absurd (hcan1 hslots hfits (by omega)).1 nofun
  | true =>
    obtain ⟨hslots, hfits, hplace⟩ := hok1 rfl
    simp only [cond_true]
    by_cases hbase : ph.load_addr &&& PAGE_MASK = 0
    · refine ⟨false, f, s1, P1, by rw [if_pos hbase], hedit1, ⟨rfl, rfl⟩, nofun, ?_⟩
      intro _ _ hlow
      have hmask := masked_toNat ph.load_addr
      rw [hbase] at hmask
      simp at hmask
      omega
    rw [if_neg hbase]
    by_cases hheap : (decide (0 < ph.file_size) && !kmalloc_ok) = true
    · refine ⟨false, f1, s1, P1, by rw [if_pos hheap], hedit1, hsame1, nofun, ?_⟩
      intro _ hk
      simp [hk] at hheap
    rw [if_neg hheap]
    have hreach1 : ∀ i, Reach T s1 P1 i := fun i => hedit1.reach (hreach i)
    have hall : ∀ x, (blank ph.load_addr ph.mem_size).Covers 4096 x → contents s1.mem T.root x ≠ none := by
      intro x hx
      rw [hplace, place_of_covers hx]
      exact nofun
    have hcount := untouched_le_count s1.mem T.root ph.load_addr ph.mem_size
    obtain ⟨r2, f2, s2, P2, hrun2, hedit2, hsame2, hok2, hcan2⟩ := load_loop.stores hroot haddr hslots
      ph.file_size.toNat ph.load_addr f1 ⟨le_rfl, by simpa [blank] using hfile⟩ hreach1 hedit1.owns
    have hrun2 : load_loop cr3 ph.file_size.toNat ph.load_addr
      (ext2_file_lseek (ph.file_offset.setWidth 32) f).2 s1 = (r2, f2, s2) := hrun2
    simp only [hrun2]
    cases r2 with
    | false =>
      refine ⟨false, f2, s2, P2, rfl, hedit1.trans hedit2, hsame1.trans hsame2, nofun, ?_⟩
      intro havail _ _ _ _ hframes
      obtain ⟨_, hleft⟩ := hcan1 hslots hfits (by omega)
      exact absurd (hcan2 havail hall (hcount.trans (by omega))) nofun
    | true =>
      obtain ⟨havail, hstored⟩ := hok2 rfl
      have hdata : contents s2.mem T.root = place 4096 (segment ph f1) (contents s.mem T.root) := by
        rw [hstored.bytes, hplace]
        exact overlay_blank hfile _ _ _
      have hcount2 := hstored.frames
      dsimp only [blank] at hcount2
      simp only
      by_cases hbss : ph.file_size < ph.mem_size
      swap
      · rw [if_neg hbss]
        refine ⟨true, f2, s2, P2, rfl, hedit1.trans hedit2, hsame1.trans hsame2,
          fun _ => ⟨havail, hfits, hdata⟩, ?_⟩
        intro _ _ _ _ _ hframes
        obtain ⟨_, hleft⟩ := hcan1 hslots hfits (by omega)
        exact ⟨rfl, by omega⟩
      rw [if_pos hbss]
      have hdst : (ph.load_addr + ph.file_size).toNat = ph.load_addr.toNat + ph.file_size.toNat := by
        rw [BitVec.toNat_add]
        omega
      have hlen : (ph.mem_size - ph.file_size).toNat = ph.mem_size.toNat - ph.file_size.toNat :=
        BitVec.toNat_sub_of_le hfile
      have htail : (blank ph.load_addr ph.mem_size).base ≤ (ph.load_addr + ph.file_size).toNat ∧
          (ph.load_addr + ph.file_size).toNat + (ph.mem_size - ph.file_size).toNat ≤
            (blank ph.load_addr ph.mem_size).base + (blank ph.load_addr ph.mem_size).size := by
        dsimp only [blank]
        omega
      obtain ⟨r3, s3, P3, hrun3, hedit3, hok3, hcan3⟩ := MMU_zero_user_as.stores hedit2.owns hroot
        (fun i => hedit2.reach (hreach1 i)) haddr hslots htail
      simp only [hrun3]
      refine ⟨r3, f2, s3, P3, rfl, (hedit1.trans hedit2).trans hedit3, hsame1.trans hsame2, ?_, ?_⟩
      · intro hr3
        refine ⟨havail, hfits, ?_⟩
        rw [(hok3 hr3).bytes, hdata, hdst, hlen]
        exact overlay_rest _ _
      · intro _ _ _ _ _ hframes
        obtain ⟨_, hleft⟩ := hcan1 hslots hfits (by omega)
        have hr3 := hcan3 (fun x hx => hstored.in_use (hall x hx)) (by dsimp only [blank]; omega)
        have hcount3 := (hok3 hr3).frames
        dsimp only [blank] at hcount3
        exact ⟨hr3, by omega⟩

/-! ## All segments -/

/-- The position of program header `i`, in 64-bit arithmetic. -/
def header_pos (header : ELF64_head) (i : Nat) : Word :=
  header.prog_table_pos + BitVec.ofNat 64 i * header.prog_ent_size.setWidth 64

/-- Program header `i` of a file with the given bytes. -/
def header_at (bytes : Nat → BitVec 8) (header : ELF64_head) (i : Nat) : ELF64_prog_head :=
  .ofBytes fun k => bytes ((header_pos header i).toNat + k)

/-- The program headers `i`, ..., `i + n - 1` that are of type `PT_LOAD`. -/
def loadable (bytes : Nat → BitVec 8) (header : ELF64_head) (i n : Nat) : List ELF64_prog_head :=
  ((List.range' i n).map (header_at bytes header)).filter (·.type = PT_LOAD)

/-- What a program header asks for, in a file with the given bytes. -/
def file_segment (bytes : Nat → BitVec 8) (ph : ELF64_prog_head) : Piece (BitVec 8) where
  base := ph.load_addr.toNat
  size := ph.mem_size.toNat
  filled := ph.file_size.toNat
  data := fun k => bytes (ph.file_offset.toNat + k)

/-- An `int` holds the position, and it is not behind the end of the file. -/
structure Seekable (size : BitVec 32) (pos : Word) : Prop where
  int : pos.toNat < 2 ^ 31
  inside : pos.toNat ≤ size.toNat

theorem ext2_file_lseek.seeks {f : File} {pos : Word} (h : Seekable f.size pos) :
    (ext2_file_lseek (pos.setWidth 32) f).2 = { f with offset := pos } := by
  have h31 := h.int
  have hin := h.inside
  have hpos : (pos.setWidth 32).toNat = pos.toNat := by
    rw [BitVec.toNat_setWidth]
    omega
  have hle : ¬f.size < pos.setWidth 32 := by
    rw [BitVec.lt_def]
    omega
  have hext : (pos.setWidth 32).signExtend 64 = pos := by
    apply BitVec.eq_of_toNat_eq
    have hmsb : (pos.setWidth 32).msb = false := by
      rw [BitVec.msb_eq_decide, hpos, decide_eq_false_iff_not]
      omega
    rw [BitVec.signExtend_eq_setWidth_of_msb_false hmsb, BitVec.toNat_setWidth, hpos]
    omega
  unfold ext2_file_lseek
  rw [if_neg hle, hext]

theorem header_pos_succ (header : ELF64_head) (i : Nat) :
    header_pos header i + header.prog_ent_size.setWidth 64 = header_pos header (i + 1) := by
  unfold header_pos
  rw [BitVec.add_assoc, BitVec.ofNat_add, BitVec.add_mul, BitVec.one_mul]

theorem loadable_succ (bytes : Nat → BitVec 8) (header : ELF64_head) (i n : Nat) :
    loadable bytes header i (n + 1) =
      if (header_at bytes header i).type = PT_LOAD then
        header_at bytes header i :: loadable bytes header (i + 1) n
      else loadable bytes header (i + 1) n := by
  unfold loadable
  rw [List.range'_succ, List.map_cons, List.filter_cons]
  simp only [decide_eq_true_eq]

/-- The data of a segment is in the file. -/
def DataIn (size : BitVec 32) (ph : ELF64_prog_head) : Prop :=
  0 < ph.file_size.toNat → ph.file_offset.toNat + ph.file_size.toNat ≤ size.toNat

/-- What is needed to load the segments from header `i` on. -/
structure CanLoad (T : Tree) (c : Nat → Option (BitVec 8)) (f : File) (header : ELF64_head)
    (heap : Nat → Bool) (i n frames : Nat) : Prop where
  headers : ∀ j, i ≤ j → j < i + n → (header_pos header j).toNat + sizeof_prog_head ≤ f.size.toNat
  heap : ∀ j, i ≤ j → j < i + n → heap j = true
  data : ∀ ph ∈ loadable f.bytes header i n, DataIn f.size ph
  low : ∀ ph ∈ loadable f.bytes header i n, 4096 ≤ ph.load_addr.toNat
  slots : ∀ ph ∈ loadable f.bytes header i n, SlotsIn T (file_segment f.bytes ph)
  fits : ∀ ph ∈ loadable f.bytes header i n, Fits 4096 (file_segment f.bytes ph) c
  apart : (loadable f.bytes header i n).Pairwise fun ph ph' =>
    (file_segment f.bytes ph).Apart 4096 (file_segment f.bytes ph')
  frames : ((loadable f.bytes header i n).map fun ph => 4 * page_count ph.load_addr ph.mem_size).sum ≤
    frames

/-- What is needed to load the segments behind the first one. -/
theorem CanLoad.tail {f f' : File} {header : ELF64_head} {heap : Nat → Bool} {i frames frames' : Nat}
    (h : CanLoad T c f header heap i (n + 1) frames) (hsame : SameFile f f')
    (htype : (header_at f.bytes header i).type = PT_LOAD)
    (hframes : frames ≤ frames' + 4 * page_count (header_at f.bytes header i).load_addr
      (header_at f.bytes header i).mem_size) :
    CanLoad T (place 4096 (file_segment f.bytes (header_at f.bytes header i)) c) f' header heap (i + 1) n
      frames' := by
  have hlist := loadable_succ f.bytes header i n
  rw [if_pos htype] at hlist
  have htail : ∀ ph ∈ loadable f.bytes header (i + 1) n, ph ∈ loadable f.bytes header i (n + 1) := by
    intro ph hp
    rw [hlist]
    exact List.mem_cons_of_mem _ hp
  have hapart := h.apart
  have hsum := h.frames
  rw [hlist, List.pairwise_cons] at hapart
  rw [hlist, List.map_cons, List.sum_cons] at hsum
  constructor
  · rw [hsame.size]
    exact fun j h1 h2 => h.headers j (by omega) (by omega)
  · exact fun j h1 h2 => h.heap j (by omega) (by omega)
  all_goals rw [hsame.bytes]
  · rw [hsame.size]
    exact fun ph hp => h.data ph (htail ph hp)
  · exact fun ph hp => h.low ph (htail ph hp)
  · exact fun ph hp => h.slots ph (htail ph hp)
  · exact fun ph hp => (h.fits ph (htail ph hp)).after (hapart.1 ph hp)
  · exact hapart.2
  · omega

theorem CanLoad.skip {f f' : File} {header : ELF64_head} {heap : Nat → Bool} {i frames : Nat}
    (h : CanLoad T c f header heap i (n + 1) frames) (hsame : SameFile f f')
    (htype : (header_at f.bytes header i).type ≠ PT_LOAD) :
    CanLoad T c f' header heap (i + 1) n frames := by
  have hlist := loadable_succ f.bytes header i n
  rw [if_neg htype] at hlist
  obtain ⟨h1, h2, h3, h4, h5, h6, h7, h8⟩ := h
  rw [hlist] at h3 h4 h5 h6 h7 h8
  constructor
  · rw [hsame.size]
    exact fun j hj1 hj2 => h1 j (by omega) (by omega)
  · exact fun j hj1 hj2 => h2 j (by omega) (by omega)
  all_goals rw [hsame.bytes]
  · rw [hsame.size]
    exact h3
  · exact h4
  · exact h5
  · exact h6
  · exact h7
  · exact h8

/-- The segments that are loaded are placed one after the other, with their data. -/
theorem segments_loop.places (header : ELF64_head) (heap : Nat → Bool) (hroot : frameOf cr3 = T.root)
    (n i : Nat) (f : File) (hpos : ∀ j, i ≤ j → j < i + n → Seekable f.size (header_pos header j))
    (hph : ∀ ph ∈ loadable f.bytes header i n, Seekable f.size ph.file_offset ∧ ph.WellSized)
    (hreach : ∀ i, Reach T s P i) (h : Owns T s P) :
    ∃ r f' s' P', segments_loop header cr3 heap i n (header_pos header i) f s = (r, f', s') ∧
      Edit T s P s' P' ∧
      (r = true → (∀ ph ∈ loadable f.bytes header i n, DataIn f.size ph) ∧
        Placements.Placed 4096 (contents s.mem T.root) ((loadable f.bytes header i n).map (file_segment f.bytes))
          (contents s'.mem T.root)) ∧
      (CanLoad T (contents s.mem T.root) f header heap i n P.length → r = true ∧
        P.length ≤ P'.length + ((loadable f.bytes header i n).map fun ph =>
          4 * page_count ph.load_addr ph.mem_size).sum) := by
  induction n generalizing i f s P with
  | zero =>
    exact ⟨true, f, s, P, rfl, Edit.refl h, fun _ => ⟨nofun, .nil _⟩, fun _ => ⟨rfl, by simp [loadable]⟩⟩
  | succ n ih =>
    have hseek := hpos i le_rfl (by omega)
    unfold segments_loop
    rw [ext2_file_lseek.seeks hseek, header_pos_succ]
    by_cases hwhole : (header_pos header i).toNat + sizeof_prog_head ≤ f.size.toNat
    swap
    · obtain ⟨k, b, f1, hread⟩ : ∃ k b f1, ext2_file_read sizeof_prog_head
        { f with offset := header_pos header i } = (k, b, f1) := ⟨_, _, _, rfl⟩
      have hk : k ≠ sizeof_prog_head := by
        intro he
        refine hwhole ((ext2_file_read.whole (f := { f with offset := header_pos header i })
          (by decide)).mp ?_)
        rw [hread]
        exact he
      simp only [hread, ne_eq, hk, not_false_eq_true, if_true]
      refine ⟨false, f1, s, P, rfl, Edit.refl h, nofun, fun hcan => ?_⟩
      exact absurd (hcan.headers i le_rfl (by omega)) hwhole
    obtain ⟨hread, -⟩ := ext2_file_read.next (f := { f with offset := header_pos header i }) hwhole
      (by decide)
    simp only [hread, ne_eq, not_true_eq_false, if_false]
    have hat : ELF64_prog_head.ofBytes (fun k => f.bytes ((header_pos header i).toNat + k)) =
      header_at f.bytes header i := rfl
    have hlist := loadable_succ f.bytes header i n
    obtain ⟨f1, hf1⟩ : ∃ f1 : File, f1 = { f with
      offset := header_pos header i + BitVec.ofNat 64 sizeof_prog_head } := ⟨_, rfl⟩
    have hsame1 : SameFile f f1 := by
      rw [hf1]
      exact ⟨rfl, rfl⟩
    rw [hat, ← hf1]
    by_cases htype : (header_at f.bytes header i).type = PT_LOAD
    · rw [if_pos htype] at hlist
      obtain ⟨hoff, hsized⟩ := hph _ (by rw [hlist]; exact List.mem_cons_self)
      rw [← hsame1.size] at hoff
      obtain ⟨r1, f2, s1, P1, hrun1, hedit1, hsame2, hok1, hcan1⟩ :=
        elf_load_segment.places hroot hsized (heap i) f1 hreach h
      have hseg : segment (header_at f.bytes header i)
          { f1 with offset := (header_at f.bytes header i).file_offset } =
          file_segment f.bytes (header_at f.bytes header i) := by
        rw [hf1]
        rfl
      rw [ext2_file_lseek.seeks hoff, hseg] at hok1 hcan1
      have hsame := hsame1.trans hsame2
      simp only [htype, if_true, hrun1]
      cases r1 with
      | false =>
        refine ⟨false, f2, s1, P1, rfl, hedit1, nofun, fun hcan => ?_⟩
        have hmem : header_at f.bytes header i ∈ loadable f.bytes header i (n + 1) := by
          rw [hlist]
          exact List.mem_cons_self
        have hsum := hcan.frames
        rw [hlist, List.map_cons, List.sum_cons] at hsum
        refine absurd (hcan1 ?_ (hcan.heap i le_rfl (by omega)) (hcan.low _ hmem) (hcan.slots _ hmem)
          (hcan.fits _ hmem) (by omega)).1 nofun
        rw [hf1]
        exact hcan.data _ hmem
      | true =>
        obtain ⟨havail, hfits, hplace⟩ := hok1 rfl
        obtain ⟨r, f', s', P', hrun, hedit, hok, hcan⟩ := ih (i + 1) f2
          (fun j h1 h2 => by rw [hsame.size]; exact hpos j (by omega) (by omega))
          (fun ph hp => by
            rw [hsame.bytes] at hp
            rw [hsame.size]
            exact hph ph (by rw [hlist]; exact List.mem_cons_of_mem _ hp))
          (fun i => hedit1.reach (hreach i)) hedit1.owns
        refine ⟨r, f', s', P', hrun, hedit1.trans hedit, fun hr => ?_, fun hload => ?_⟩
        · obtain ⟨hdata, hplaced⟩ := hok hr
          rw [hsame.bytes, hsame.size] at hdata
          rw [hsame.bytes, hplace] at hplaced
          rw [hlist]
          refine ⟨fun ph hp => ?_, .cons hfits hplaced⟩
          rcases List.mem_cons.mp hp with rfl | hp
          · rw [hf1] at havail
            exact havail
          · exact hdata ph hp
        · have hmem : header_at f.bytes header i ∈ loadable f.bytes header i (n + 1) := by
            rw [hlist]
            exact List.mem_cons_self
          have hsum := hload.frames
          rw [hlist, List.map_cons, List.sum_cons] at hsum
          have hleft := (hcan1 havail (hload.heap i le_rfl (by omega)) (hload.low _ hmem)
            (hload.slots _ hmem) (hload.fits _ hmem) (by omega)).2
          have hrest := hload.tail hsame htype hleft
          rw [← hplace] at hrest
          obtain ⟨hr, hleft2⟩ := hcan hrest
          rw [hsame.bytes] at hleft2
          rw [hlist, List.map_cons, List.sum_cons]
          exact ⟨hr, by omega⟩
    · rw [if_neg htype] at hlist
      simp only [htype, if_false]
      obtain ⟨r, f', s', P', hrun, hedit, hok, hcan⟩ := ih (i + 1) f1
        (fun j h1 h2 => by rw [hsame1.size]; exact hpos j (by omega) (by omega))
        (fun ph hp => by
          rw [hsame1.bytes] at hp
          rw [hsame1.size]
          exact hph ph (by rw [hlist]; exact hp)) hreach h
      rw [hsame1.bytes, hsame1.size] at hok
      rw [hsame1.bytes] at hcan
      rw [hlist]
      exact ⟨r, f', s', P', hrun, hedit, hok, fun hload => hcan (hload.skip hsame1 htype)⟩

end

end

/-! ## The whole program -/

/-- The pages of the user stack. -/
def stack_piece : Piece (BitVec 8) := blank VA_USTACK_BASE DEFAULT_STACK_BYTES

section

variable {s s1 s' : Machine} {live : List Word} {R : Multiset Nat} {P : List Nat} {f f1 : File}
  {heap : Nat → Bool} {image : elf_image} {header : ELF64_head} {cr3 : Word} {m : Nat → Frame}

theorem elf_read_header.same (h : elf_read_header f = (some header, f1)) : SameFile f f1 := by
  have hsame := ext2_file_read.same sizeof_head f
  unfold elf_read_header at h
  rcases ext2_file_read sizeof_head f with ⟨n, b, f2⟩
  dsimp only at h hsame
  split at h
  · cases h
  · split at h
    · cases h
    · cases h
      exact hsame

/-- The header is the start of the file, and says that it is one. -/
theorem elf_read_header.reads (hstart : f.offset = 0) :
    (∃ f1, elf_read_header f = (some header, f1)) ↔
      sizeof_head ≤ f.size.toNat ∧ header = .ofBytes f.bytes ∧ header.magic = ELF_MAGIC := by
  have h0 : f.offset.toNat = 0 := by
    rw [hstart]
    rfl
  unfold elf_read_header
  by_cases hwhole : sizeof_head ≤ f.size.toNat
  · have havail : f.offset.toNat + sizeof_head ≤ f.size.toNat := by omega
    obtain ⟨hread, -⟩ := ext2_file_read.next havail (by decide)
    have hbytes : (fun i => f.bytes (f.offset.toNat + i)) = f.bytes := by
      funext i
      rw [h0, Nat.zero_add]
    rw [hread, hbytes]
    simp only [ne_eq, not_true_eq_false, if_false]
    by_cases hmagic : (ELF64_head.ofBytes f.bytes).magic = ELF_MAGIC
    · rw [if_neg (not_not_intro hmagic)]
      constructor
      · rintro ⟨f1, h⟩
        cases h
        exact ⟨hwhole, rfl, hmagic⟩
      · rintro ⟨_, rfl, _⟩
        exact ⟨_, rfl⟩
    · rw [if_pos hmagic]
      constructor
      · rintro ⟨f1, h⟩
        cases h
      · rintro ⟨_, rfl, hm⟩
        exact absurd hm hmagic
  · have hk : (ext2_file_read sizeof_head f).1 ≠ sizeof_head := fun he =>
      hwhole (by have := (ext2_file_read.whole (by decide)).mp he; omega)
    generalize ext2_file_read sizeof_head f = r at hk ⊢
    obtain ⟨n, b, f2⟩ := r
    have hk : n ≠ sizeof_head := hk
    simp only [ne_eq, hk, not_false_eq_true, if_true]
    constructor
    · rintro ⟨f1, h⟩
      cases h
    · exact fun h => absurd h.1 hwhole

/-- The calls of a load that succeeds. -/
theorem elf_load_program.calls (hrun : elf_load_program (some f) heap s = some (some image, s')) :
    ∃ header f1 s1 f2 s2, elf_read_header f = (some header, f1) ∧
      MMU_create_user_p4 s = (image.cr3, s1) ∧ image.cr3 ≠ 0 ∧ image.entry = header.prog_entry_pos ∧
      elf_load_segments f1 header image.cr3 heap s1 = (true, f2, s2) ∧
      elf_alloc_user_stack image.cr3 s2 = (some (image.ustack_base, image.ustack_top), s') := by
  unfold elf_load_program at hrun
  rcases hhead : elf_read_header f with ⟨_ | header, f1⟩
  · simp [hhead] at hrun
  rcases hcreate : MMU_create_user_p4 s with ⟨cr3, s1⟩
  simp only [hhead, hcreate] at hrun
  split at hrun
  · simp at hrun
  rename_i hcr3
  rcases hsegs : elf_load_segments f1 header cr3 heap s1 with ⟨_ | _, f2, s2⟩
  · simp only [hsegs, Option.map_eq_some_iff] at hrun
    obtain ⟨_, _, hr⟩ := hrun
    cases hr
  rcases hstack : elf_alloc_user_stack cr3 s2 with ⟨_ | ⟨base, top⟩, s3⟩
  · simp only [hsegs, hstack, Option.map_eq_some_iff] at hrun
    obtain ⟨_, _, hr⟩ := hrun
    cases hr
  simp only [hsegs, hstack, Option.some.injEq, Prod.mk.injEq] at hrun
  obtain ⟨rfl, rfl⟩ := hrun
  exact ⟨header, f1, s1, f2, s2, rfl, rfl, hcr3, rfl, hsegs, hstack⟩

/-- A new address space has nothing in user space. -/
theorem MMU_create_user_p4.space (h : Sound s live R P) (hrun : MMU_create_user_p4 s = (cr3, s1))
    (hcr3 : cr3 ≠ 0) :
    ∃ P1, P.length = P1.length + 1 ∧ WholeSpace s1 P1 cr3 ∧
      ∀ i ∈ userSlots, s1.mem (frameOf cr3) i = 0 := by
  obtain ⟨cr3', s1', R', P', hsome, ⟨hsound, -, -⟩⟩ := MMU_create_user_p4.sound h
  rw [hrun] at hsome
  cases hsome
  rw [if_neg hcr3] at hsound
  cases P with
  | nil =>
    rw [MMU_create_user_p4.spec_nil h.pool] at hrun
    cases hrun
    exact absurd rfl hcr3
  | cons c P1 =>
    have hk : s.ptable_p4 ≠ c := fun he => h.kernel_notMem_pool (he ▸ List.mem_cons_self)
    obtain ⟨s1', hrun', hpool, hnew, -, -⟩ :=
      MMU_create_user_p4.spec_cons h.pool (List.nodup_cons.mp h.pool_nodup).1 hk
    rw [hrun] at hrun'
    cases hrun'
    rw [frameOf_frameAddr (h.pool.small c List.mem_cons_self)]
    refine ⟨P', ?_, hsound.wholeSpace List.mem_cons_self, fun i hi => ?_⟩
    · rw [hsound.pool.unique hpool]
      rfl
    · rw [hnew i, if_pos hi]

theorem contents_of_empty {p4 x : Nat} (hempty : ∀ i ∈ userSlots, m p4 i = 0)
    (hx : PML4_INDEX (BitVec.ofNat 64 x) ∈ userSlots) : contents m p4 x = none := by
  have hlook : lookup m p4 (BitVec.ofNat 64 x) = none := by
    unfold lookup
    rw [hempty _ hx, nextTable_zero]
    rfl
  unfold contents
  rw [space_byte_eq_none_iff.mpr (by rw [page_word_of_none hlook, reserved_zero]), ite_self]

theorem WholeSpace.edit {P P' : List Nat} (h : WholeSpace s P cr3)
    (hedit : Edit (spaceTree (frameOf cr3)) s P s' P') : WholeSpace s' P' cr3 := by
  refine ⟨hedit.owns, ?_⟩
  rcases hedit.reach (h.reach 0) with hr | hb
  · exact absurd rfl (mem_spaceTree_slots.mp hr)
  · exact hb

/-- The stack of a program that is loaded. -/
theorem elf_alloc_user_stack.places {P : List Nat} (h : WholeSpace s P cr3) :
    ∃ r s' P', elf_alloc_user_stack cr3 s =
        (if r then some (VA_USTACK_BASE, VA_USTACK_BASE + DEFAULT_STACK_BYTES) else none, s') ∧
      Edit (spaceTree (frameOf cr3)) s P s' P' ∧
      (r = true → Fits 4096 stack_piece (contents s.mem (frameOf cr3)) ∧
        contents s'.mem (frameOf cr3) = place 4096 stack_piece (contents s.mem (frameOf cr3))) ∧
      (Fits 4096 stack_piece (contents s.mem (frameOf cr3)) → 6 ≤ P.length → r = true) := by
  have hend : VA_USTACK_BASE.toNat + DEFAULT_STACK_BYTES.toNat ≤ 2 ^ 48 := by decide
  have hcount : page_count VA_USTACK_BASE DEFAULT_STACK_BYTES < 2 ^ 31 := by decide
  obtain ⟨r, s', P', hrun, hedit, hok, hcan⟩ := MMU_alloc_at_as.places h.owns rfl h.reach hend hcount
  have hslots : SlotsIn (spaceTree (frameOf cr3)) stack_piece := by
    intro x hx
    have hrange : 2 ^ 44 ≤ x ∧ x < 2 ^ 47 := by
      unfold Piece.Covers at hx
      have hbase : stack_piece.base = VA_USTACK_BASE.toNat := rfl
      have hsize : stack_piece.size = 8192 := rfl
      have hva : VA_USTACK_BASE.toNat / 4096 * 4096 = VA_USTACK_BASE.toNat ∧
        2 ^ 44 ≤ VA_USTACK_BASE.toNat ∧ VA_USTACK_BASE.toNat + 8192 ≤ 2 ^ 47 := by decide
      omega
    have hx' := ofNat_toNat_of_lt (show x < 2 ^ 48 by omega)
    rw [mem_spaceTree_slots]
    intro h0
    have huser : PML4_INDEX (BitVec.ofNat 64 x) ∈ userSlots :=
      PML4_INDEX_user (by omega) (by omega)
    rw [h0, mem_userSlots] at huser
    exact absurd huser (by decide)
  refine ⟨r, s', P', ?_, hedit, fun hr => ⟨(hok hr).2.1, (hok hr).2.2⟩,
    fun hfits hframes => (hcan hslots hfits hframes).1⟩
  unfold elf_alloc_user_stack
  rw [hrun]
  cases r with
  | false => rfl
  | true => rfl

end

end JamsOs
