-- The laws of the boot information in the layout that GRUB emits: one memory map, and then one list of
-- sections. The table of regions holds exactly the usable frames without those of the kernel, as
-- long as no address wraps when it is rounded to pages.
import JamsOs.BootMemory

namespace JamsOs

open Words

variable {b : BootInfo} {T : List MemRegion} {es : List MmapEntry} {ss : List SectHead} {f i j n : Nat}

/-! ## Tables that hold exactly what they should -/

/-- The frame is one of the pages of the section, with its ends rounded to pages. -/
def SectHead.Rounds (s : SectHead) (f : Nat) : Prop := RoundedPage s.addr.toNat s.size.toNat f

/-- The table holds the frames of the entries `es` without those of the sections `ss`, and uses no
more slots than there are entries and sections. -/
structure Exact (es : List MmapEntry) (ss : List SectHead) (T : List MemRegion) : Prop
    extends Table T where
  covers : ∀ f, Covers T f ↔ (∃ e ∈ es, e.Holds f) ∧ ∀ s ∈ ss, ¬s.Rounds f
  apart : SlotsApart T
  used : used_slots T ≤ es.length + ss.length

theorem slot_no_regions (i : Nat) : slot no_regions i = no_region := by
  by_cases hi : i < no_regions.length
  · rw [slot_eq_getElem hi]
    exact List.getElem_replicate _
  · exact slot_of_length_le (Nat.le_of_not_lt hi)

theorem exact_no_regions : Exact [] [] no_regions := by
  have hparsed := parsed_no_regions
  refine ⟨hparsed.toTable, fun f => ⟨fun hf => ?_, ?_⟩, hparsed.apart List.Pairwise.nil, by decide⟩
  · obtain ⟨e, he, _⟩ := hparsed.inside f hf
    cases he
  · rintro ⟨⟨e, he, _⟩, _⟩
    cases he

/-- An entry is added in a slot that is free. -/
theorem Exact.add_entry (h : Exact es [] T) {e : MmapEntry} (hfirst : e.addr.toNat + 4095 < 2 ^ 64)
    (hfit : e.addr.toNat + e.size.toNat < 2 ^ 64) (hdisjoint : ∀ e' ∈ es, e'.Disjoint e)
    (hi : i < MAX_REGIONS) (hfree : (slot T i).valid = false) :
    Exact (es ++ [e]) [] (add_usable_region e.addr e.size i T) ∧
      ∀ j, j ≠ i → slot (add_usable_region e.addr e.size i T) j = slot T j := by
  obtain ⟨htable, hslots, hused⟩ := add_usable_region.spec (i := i) h.toTable hfirst hfit
  have hother : ∀ j, j ≠ i → slot (add_usable_region e.addr e.size i T) j = slot T j := by
    intro j hj
    rcases hslots j with ⟨he, _⟩ | ⟨he, _⟩
    · exact he
    · exact absurd he hj
  have hself : ∀ f, (slot (add_usable_region e.addr e.size i T) i).Has f ↔ e.Holds f := by
    intro f
    rcases hslots i with ⟨he, hnone⟩ | ⟨_, hhas⟩
    · rw [he]
      refine ⟨fun hf => ?_, fun hf => absurd hf (hnone hi rfl f)⟩
      have hvalid := hf.1
      rw [hfree] at hvalid
      cases hvalid
    · exact hhas f
  have hcovers : ∀ f, Covers (add_usable_region e.addr e.size i T) f ↔ Covers T f ∨ e.Holds f := by
    intro f
    constructor
    · rintro ⟨j, hf⟩
      by_cases hj : j = i
      · subst hj
        exact Or.inr ((hself f).mp hf)
      · rw [hother j hj] at hf
        exact Or.inl ⟨j, hf⟩
    · rintro (⟨j, hf⟩ | hf)
      · refine ⟨j, ?_⟩
        rw [hother j]
        · exact hf
        · rintro rfl
          have hvalid := hf.1
          rw [hfree] at hvalid
          cases hvalid
      · exact ⟨i, (hself f).mpr hf⟩
  refine ⟨⟨htable, fun f => ?_, ?_, ?_⟩, hother⟩
  · rw [hcovers f, h.covers f]
    simp only [List.mem_append, List.mem_singleton, List.not_mem_nil, false_implies, implies_true,
      and_true]
    constructor
    · rintro (⟨e', he', hin⟩ | hin)
      · exact ⟨e', Or.inl he', hin⟩
      · exact ⟨e, Or.inr rfl, hin⟩
    · rintro ⟨e', he' | rfl, hin⟩
      · exact Or.inl ⟨e', he', hin⟩
      · exact Or.inr hin
  · refine h.apart.change (i := i) fun k => ?_
    by_cases hk : k = i
    · refine Or.inr ⟨hk, fun f hf m _ hm => ?_⟩
      rw [hk] at hf
      obtain ⟨⟨e', he', hin⟩, _⟩ := (h.covers f).mp ⟨m, hm⟩
      exact hdisjoint e' he' f hin ((hself f).mp hf)
    · exact Or.inl (hother k hk)
  · have := h.used
    simp only [List.length_append, List.length_singleton, List.length_nil] at this ⊢
    omega

/-- The section does not begin below the last page of the address space and end in it. -/
def SectHead.Fits (s : SectHead) : Prop :=
  s.addr.toNat + s.size.toNat + 4095 < 2 ^ 64 ∨ 2 ^ 64 ≤ s.addr.toNat + 4096

/-- A section in the last page wraps when it is rounded, and leaves all regions as they are. None of
them has this page. -/
theorem remove_region.last_page {addr size : Word}
    (hfit : addr.toNat + size.toNat < 2 ^ 64) (hwrap : 2 ^ 64 ≤ addr.toNat + size.toNat + 4095) :
    remove_region addr (addr + size) T = T := by
  have hsum : (addr + size).toNat = addr.toNat + size.toNat := by
    rw [BitVec.toNat_add]
    exact Nat.mod_eq_of_lt hfit
  have hzero : (addr + size + PAGE_SIZE - 1) &&& ~~~(PAGE_SIZE - 1) = 0 := by
    apply BitVec.eq_of_toNat_eq
    have hadd : (addr + size + PAGE_SIZE - 1).toNat = addr.toNat + size.toNat + 4095 - 2 ^ 64 := by
      have heq : addr + size + PAGE_SIZE - 1 = addr + size + 4095#64 := by
        rw [BitVec.sub_eq_add_neg, BitVec.add_assoc (addr + size)]
        rfl
      rw [heq, BitVec.toNat_add, hsum, BitVec.toNat_ofNat]
      omega
    have h0 : (0 : Word).toNat = 0 := rfl
    rw [page_down, hadd, h0]
    omega
  have hstep : ∀ i T, remove_from_slot (addr &&& ~~~(PAGE_SIZE - 1)) 0 T i = T := by
    intro i T
    unfold remove_from_slot
    dsimp only
    split
    · rfl
    · refine if_pos (Or.inl ?_)
      rw [BitVec.le_def]
      exact Nat.zero_le _
  unfold remove_region
  dsimp only
  rw [hzero]
  generalize List.range MAX_REGIONS = is
  induction is with
  | nil => rfl
  | cons i is ih =>
    rw [List.foldl_cons, hstep]
    exact ih

theorem Table.below_last (h : Table T) (hf : Covers T f) : f + 1 < 2 ^ 52 := by
  obtain ⟨i, hf⟩ := hf
  obtain ⟨a, n, hp⟩ := (h.sound i).pages hf.1
  have := (hp.has_iff hf.1).mp hf
  have := hp.lt
  omega

/-- A section is removed while one slot is free. -/
theorem Exact.remove_section (h : Exact es ss T) {s : SectHead}
    (hend : s.addr.toNat + s.size.toNat < 2 ^ 64) (hfit : s.Fits)
    (hroom : es.length + ss.length < MAX_REGIONS) :
    Exact es (ss ++ [s]) (remove_region s.addr (s.addr + s.size) T) := by
  have hsections : ∀ f, ((∃ e ∈ es, e.Holds f) ∧ ∀ s' ∈ ss ++ [s], ¬s'.Rounds f) ↔
      Covers T f ∧ ¬s.Rounds f := by
    intro f
    rw [h.covers f, and_assoc]
    refine and_congr_right fun _ => ?_
    simp only [List.mem_append, List.mem_singleton]
    constructor
    · exact fun hall => ⟨fun s' hs' => hall s' (Or.inl hs'), hall s (Or.inr rfl)⟩
    · rintro ⟨hall, hs⟩ s' (hs' | rfl)
      · exact hall s' hs'
      · exact hs
  have hused := h.used
  have hlen : (ss ++ [s]).length = ss.length + 1 := by simp
  by_cases hwrap : s.addr.toNat + s.size.toNat + 4095 < 2 ^ 64
  · obtain ⟨htable, hcov, hapart, hrest⟩ := remove_region.exact h.toTable hwrap
    obtain ⟨hused', hkeeps⟩ := hrest h.apart fun _ => by omega
    refine ⟨htable, fun f => ?_, hapart h.apart, by omega⟩
    rw [hsections f]
    exact ⟨hcov f, fun hf => hkeeps f hf.1 hf.2⟩
  · rw [remove_region.last_page hend (by omega)]
    refine ⟨h.toTable, fun f => ?_, h.apart, by omega⟩
    rw [hsections f, iff_self_and]
    intro hf hrounds
    have hlast := h.toTable.below_last hf
    have hpage := hrounds.1
    rcases hfit with hfit | hfit
    · exact hwrap hfit
    · omega

/-! ## The loops -/

/-- The loop over the entries, as far as it has come: the slots from there on are free. -/
theorem mmap_loop.exact {tag : Nat} (n : Nat) (hn : n ≤ MAX_REGIONS) (entry : Nat → MmapEntry)
    (hentry : ∀ i < n, entry i = .ofBytes b (tag + sizeof_mmap_tag + i * sizeof_mmap_entry))
    (hfit : ∀ i < n, (entry i).type = REGION_OS_USE →
      (entry i).addr.toNat + 4095 < 2 ^ 64 ∧ (entry i).addr.toNat + (entry i).size.toNat < 2 ^ 64)
    (hdisjoint : ∀ i j, i < j → j < n → (entry i).Disjoint (entry j)) :
    Exact (((List.range n).map entry).filter (·.type = REGION_OS_USE)) []
        ((List.range n).foldl (parse_mmap_entry b tag) no_regions) ∧
      ∀ j, n ≤ j → (slot ((List.range n).foldl (parse_mmap_entry b tag) no_regions) j).valid = false := by
  induction n with
  | zero =>
    refine ⟨exact_no_regions, fun j _ => ?_⟩
    have hslot : (slot no_regions j).valid = false := by
      rw [slot_no_regions]
      rfl
    exact hslot
  | succ n ih =>
    obtain ⟨hexact, hfree⟩ := ih (by omega) (fun i hi => hentry i (by omega))
      (fun i hi => hfit i (by omega)) fun i j hij hj => hdisjoint i j hij (by omega)
    simp only [List.range_succ, List.foldl_append, List.foldl_cons, List.foldl_nil, List.map_append,
      List.map_cons, List.map_nil, List.filter_append]
    generalize (List.range n).foldl (parse_mmap_entry b tag) no_regions = T at hexact hfree ⊢
    unfold parse_mmap_entry
    rw [← hentry n (Nat.lt_succ_self n)]
    by_cases hu : (entry n).type = REGION_OS_USE
    · rw [if_pos hu, List.filter_cons_of_pos (by simpa using hu), List.filter_nil]
      obtain ⟨hfirst, hend⟩ := hfit n (Nat.lt_succ_self n) hu
      have hdis : ∀ e' ∈ ((List.range n).map entry).filter (·.type = REGION_OS_USE),
          e'.Disjoint (entry n) := by
        intro e' he'
        obtain ⟨i, hi, rfl⟩ := List.mem_map.mp (List.mem_filter.mp he').1
        exact hdisjoint i n (List.mem_range.mp hi) (Nat.lt_succ_self n)
      obtain ⟨hnew, hother⟩ := hexact.add_entry hfirst hend hdis (by omega) (hfree n le_rfl)
      refine ⟨hnew, fun j hj => ?_⟩
      rw [hother j (by omega)]
      exact hfree j (by omega)
    · rw [if_neg hu, List.filter_cons_of_neg (by simpa using hu), List.filter_nil, List.append_nil]
      exact ⟨hexact, fun j hj => hfree j (by omega)⟩

theorem elf_loop.exact {tag : Nat} (h : Exact es [] T) (n : Nat)
    (hroom : es.length + n ≤ MAX_REGIONS) (sect : Nat → SectHead)
    (hsect : ∀ i < n, sect i = .ofBytes b (tag + sizeof_elf_tag + i * sizeof_sect_head))
    (hend : ∀ i < n, (sect i).addr.toNat + (sect i).size.toNat < 2 ^ 64)
    (hfit : ∀ i < n, (sect i).Fits) :
    Exact es ((List.range n).map sect) ((List.range n).foldl (parse_section b tag) T) := by
  induction n with
  | zero => exact h
  | succ n ih =>
    have hn := ih (by omega) (fun i hi => hsect i (by omega)) (fun i hi => hend i (by omega))
      fun i hi => hfit i (by omega)
    simp only [List.range_succ, List.foldl_append, List.foldl_cons, List.foldl_nil, List.map_append,
      List.map_cons, List.map_nil]
    unfold parse_section
    rw [← hsect n (Nat.lt_succ_self n)]
    refine hn.remove_section (hend n (Nat.lt_succ_self n)) (hfit n (Nat.lt_succ_self n)) ?_
    rw [List.length_map, List.length_range]
    omega

/-! ## The whole walk -/

/-- No byte lies in both entries. -/
def MmapEntry.Apart (e e' : MmapEntry) : Prop :=
  ∀ x, e.addr.toNat ≤ x ∧ x < e.addr.toNat + e.size.toNat →
    ¬(e'.addr.toNat ≤ x ∧ x < e'.addr.toNat + e'.size.toNat)

theorem MmapEntry.Apart.disjoint {e e' : MmapEntry} (h : e.Apart e') : e.Disjoint e' := by
  rintro f ⟨h1, h2⟩ ⟨h3, h4⟩
  exact h (f * 4096) ⟨h1, by omega⟩ ⟨h3, by omega⟩

/-- A boot information with the memory map `m` before the list of sections `e`, and other tags around
them. The entries are disjoint, there are no more entries and sections than slots, and no range
wraps. -/
structure GrubLayout (b : BootInfo) (pre mid post : List Nat) (m e : Nat) : Prop where
  tags : Tags b (total_size b).toNat sizeof_mboot_fixed (pre ++ m :: (mid ++ e :: post))
  mmap : tag_type b m = TAG_TYPE_MMAP
  mmap_size : sizeof_mmap_tag ≤ (tag_size b m).toNat
  entry_size : (entry_size b m).toNat = sizeof_mmap_entry
  elf : tag_type b e = TAG_TYPE_ELF
  sect_size : (size_sect b e).toNat = sizeof_sect_head
  elf_size : sizeof_elf_tag + (num_sect b e).toNat * sizeof_sect_head ≤ (tag_size b e).toNat
  others : ∀ t ∈ pre ++ mid ++ post, tag_type b t ≠ TAG_TYPE_MMAP ∧ tag_type b t ≠ TAG_TYPE_ELF
  count : mmap_count b m + (num_sect b e).toNat ≤ MAX_REGIONS
  apart : (mmap_entries b m).Pairwise MmapEntry.Apart
  entries_end : ∀ x ∈ mmap_entries b m, x.addr.toNat + x.size.toNat < 2 ^ 64
  sections_end : ∀ s ∈ kernel_sections b e, s.addr.toNat + s.size.toNat < 2 ^ 64

/-- No usable entry begins in the last page of the address space, and no section begins below it and
ends in it. -/
structure RoundsSafely (b : BootInfo) (m e : Nat) : Prop where
  entries : ∀ x ∈ usable_entries b m, x.addr.toNat + 4095 < 2 ^ 64
  sections : ∀ s ∈ kernel_sections b e, s.Fits

theorem parse_other_tags {ts : List Nat}
    (h : ∀ t ∈ ts, tag_type b t ≠ TAG_TYPE_MMAP ∧ tag_type b t ≠ TAG_TYPE_ELF) :
    ts.foldlM (parse_tag b) T = some T := by
  induction ts with
  | nil => rfl
  | cons t ts ih =>
    obtain ⟨hm, he⟩ := h t List.mem_cons_self
    have hskip : parse_tag b T t = some T := by
      rw [parse_tag, if_neg hm, if_neg he]
    rw [List.foldlM_cons, hskip]
    exact ih fun t ht => h t (List.mem_cons_of_mem _ ht)

theorem parse_mmap_tag.exact {tag : Nat} (htype : tag_type b tag = TAG_TYPE_MMAP)
    (hsize : sizeof_mmap_tag ≤ (tag_size b tag).toNat)
    (hentry : (entry_size b tag).toNat = sizeof_mmap_entry) (hcount : mmap_count b tag ≤ MAX_REGIONS)
    (hapart : (mmap_entries b tag).Pairwise MmapEntry.Apart)
    (hend : ∀ e ∈ mmap_entries b tag, e.addr.toNat + e.size.toNat < 2 ^ 64)
    (hfirst : ∀ e ∈ usable_entries b tag, e.addr.toNat + 4095 < 2 ^ 64) :
    ∃ T, parse_mmap_tag b tag no_regions = some T ∧ Exact (usable_entries b tag) [] T := by
  have h0 : JamsOs.entry_size b tag ≠ 0 := by
    intro h0
    rw [h0] at hentry
    cases hentry
  have huse : usable_entries b tag = (mmap_entries b tag).filter (·.type = REGION_OS_USE) :=
    if_pos htype
  unfold parse_mmap_tag
  rw [if_neg h0, mmap_num_eq hsize hentry.ge]
  refine ⟨_, rfl, ?_⟩
  rw [huse] at hfirst ⊢
  rw [mmap_entries, hentry] at hapart hend hfirst ⊢
  rw [List.pairwise_map] at hapart
  refine (mmap_loop.exact (mmap_count b tag) hcount _ (fun _ _ => rfl) ?_ ?_).1
  · intro i hi hu
    have hmem := List.mem_map_of_mem (f := fun i =>
      MmapEntry.ofBytes b (tag + sizeof_mmap_tag + i * sizeof_mmap_entry)) (List.mem_range.mpr hi)
    exact ⟨hfirst _ (List.mem_filter.mpr ⟨hmem, decide_eq_true hu⟩), hend _ hmem⟩
  · intro i j hij hj
    rw [List.pairwise_iff_getElem] at hapart
    have hpair := hapart i j (by rw [List.length_range]; omega) (by rw [List.length_range]; omega) hij
    rw [List.getElem_range, List.getElem_range] at hpair
    exact hpair.disjoint

/-- The walk over a boot information in this layout. -/
theorem parse_mboot_tags.exact {pre mid post : List Nat} {m e : Nat} {s : Machine}
    (h : GrubLayout b pre mid post m e) (hround : RoundsSafely b m e)
    (hs : s.usable_regions = no_regions) :
    ∃ T, parse_mboot_tags b s = some { s with usable_regions := T } ∧
      Exact (usable_entries b m) (kernel_sections b e) T := by
  obtain ⟨T1, hT1, h1⟩ := parse_mmap_tag.exact h.mmap h.mmap_size h.entry_size (by have := h.count; omega)
    h.apart h.entries_end hround.entries
  have hsections : kernel_sections b e = (List.range (num_sect b e).toNat).map fun i =>
      SectHead.ofBytes b (e + sizeof_elf_tag + i * sizeof_sect_head) := by
    rw [kernel_sections, if_pos h.elf, h.sect_size]
  have hmem : ∀ i < (num_sect b e).toNat,
      SectHead.ofBytes b (e + sizeof_elf_tag + i * sizeof_sect_head) ∈ kernel_sections b e := by
    intro i hi
    rw [hsections]
    exact List.mem_map.mpr ⟨i, List.mem_range.mpr hi, rfl⟩
  have hentries : (usable_entries b m).length ≤ mmap_count b m := by
    rw [usable_entries, if_pos h.mmap]
    refine (List.length_filter_le _ _).trans ?_
    rw [mmap_entries, List.length_map, List.length_range]
  have h2 := elf_loop.exact h1 (num_sect b e).toNat (by have := h.count; omega) _ (fun _ _ => rfl)
    (fun i hi => h.sections_end _ (hmem i hi)) fun i hi => hround.sections _ (hmem i hi)
  rw [← hsections] at h2
  refine ⟨parse_elf_tag b e T1, ?_, h2⟩
  -- the tags in the order of the walk
  have hpre : pre.foldlM (parse_tag b) no_regions = some no_regions :=
    parse_other_tags fun t ht => h.others t (by simp [ht])
  have hmid : mid.foldlM (parse_tag b) T1 = some T1 :=
    parse_other_tags fun t ht => h.others t (by simp [ht])
  have hpost : post.foldlM (parse_tag b) (parse_elf_tag b e T1) = some (parse_elf_tag b e T1) :=
    parse_other_tags fun t ht => h.others t (by simp [ht])
  have hm : parse_tag b no_regions m = some T1 := by
    rw [parse_tag, if_pos h.mmap, hT1]
  have he : parse_tag b T1 e = some (parse_elf_tag b e T1) := by
    rw [parse_tag, if_neg (by rw [h.elf]; decide), if_pos h.elf]
  have hlen := h.tags.length_le
  unfold parse_mboot_tags
  rw [parse_tags.spec h.tags (by decide) (total_size b).isLt _ (by omega), hs]
  simp only [List.foldlM_append, List.foldlM_cons, Option.bind_eq_bind, hpre, hm, hmid, he, hpost,
    Option.bind_some, Option.map_some]

/-- A usable entry in the last page of the address space, and a kernel without sections. -/
def last_page : BootInfo :=
  boot_bytes [mmap_bytes 24 [(0xFFFFFFFFFFFFFF9C, 50, 1)], elf_bytes []]

end JamsOs
