-- The laws of page faults under preemption. A frame that the allocator handed out belongs
-- to the page it was taken for, however the threads are interleaved, as long as no switch
-- strikes inside `MMU_pf_alloc`. One switch there is enough to hand a frame out twice.
import JamsOs.FaultSteps
import JamsOs.KernelHalf

namespace JamsOs

open Words RadixTree Linked

/-! ## The allocator in steps -/

/-- What the rest of `MMU_pf_alloc` comes to when nothing else runs. -/
def alloc_finish (pc : AllocPc) (s : Machine) : Word × Machine :=
  match pc with
  | .head => MMU_pf_alloc s
  | .next node => (node, { s with free_frames := s.load node })
  | .store node next => (node, { s with free_frames := next })
  | .valid i =>
    match take_region (s.usable_regions.drop i) with
    | some (frame, rest) => (frame, { s with usable_regions := s.usable_regions.take i ++ rest })
    | none => (INVALID_FRAME_ADDR, s)
  | .size i =>
    let r := s.region i
    if r.size = PAGE_SIZE then (r.addr, s.set_region i { r with valid := false })
    else (r.addr, s.set_region i { r with addr := r.addr + PAGE_SIZE, size := r.size - PAGE_SIZE })
  | .last i =>
    let r := s.region i
    (r.addr, s.set_region i { r with valid := false })
  | .last_addr i => ((s.region i).addr, s)
  | .addr i =>
    let r := s.region i
    (r.addr, s.set_region i { r with addr := r.addr + PAGE_SIZE, size := r.size - PAGE_SIZE })
  | .move i frame =>
    let r := s.region i
    (frame, s.set_region i { r with addr := r.addr + PAGE_SIZE, size := r.size - PAGE_SIZE })
  | .shrink i frame =>
    let r := s.region i
    (frame, s.set_region i { r with size := r.size - PAGE_SIZE })

section

variable {s s' : Machine} {pc pc' : AllocPc} {frame : Word} {i : Nat} {r : MemRegion}

theorem region_set_region (s : Machine) (hi : i < s.usable_regions.length) (r : MemRegion) :
    (s.set_region i r).region i = r := by
  simp [Machine.region, Machine.set_region, hi]

theorem set_region_of_length_le (s : Machine) (hi : s.usable_regions.length ≤ i) (r : MemRegion) :
    s.set_region i r = s := by
  unfold Machine.set_region
  rw [List.set_eq_of_length_le hi]

theorem set_region_set_region (s : Machine) (r r' : MemRegion) :
    (s.set_region i r).set_region i r' = s.set_region i r' := by
  simp [Machine.set_region]

theorem alloc_finish_valid (h : s.usable_regions[i]? = some r) :
    alloc_finish (.valid i) s =
      if r.valid then alloc_finish (.size i) s else alloc_finish (.valid (i + 1)) s := by
  obtain ⟨hi, hr⟩ := List.getElem?_eq_some_iff.mp h
  have hregion : s.region i = r := by
    simp [Machine.region, h]
  have hdrop : s.usable_regions.drop i = r :: s.usable_regions.drop (i + 1) := by
    rw [List.drop_eq_getElem_cons hi, hr]
  have hset : ∀ r', s.set_region i r' =
      { s with usable_regions := s.usable_regions.take i ++ r' :: s.usable_regions.drop (i + 1) } := by
    intro r'
    unfold Machine.set_region
    rw [List.set_eq_take_append_cons_drop, if_pos hi]
  have htake : s.usable_regions.take (i + 1) = s.usable_regions.take i ++ [r] := by
    rw [List.take_add_one, h]
    rfl
  simp only [alloc_finish, hdrop, take_region, hregion, hset, htake]
  cases hv : r.valid with
  | true =>
    by_cases hs : r.size = PAGE_SIZE
    · simp [hs]
    · simp [hs]
  | false =>
    rcases take_region (s.usable_regions.drop (i + 1)) with _ | ⟨p, rest⟩
    · simp
    · simp

/-- A step of the allocator changes nothing but the regions, until the last one, and leaves the
same rest to be done. -/
theorem alloc_step_next (h : alloc_step pc s = (.inl pc', s')) :
    alloc_finish pc' s' = alloc_finish pc s ∧
      s' = { s with usable_regions := s'.usable_regions } := by
  cases pc with
  | head =>
    simp only [alloc_step] at h
    split at h
    · rename_i hfree
      cases h
      refine ⟨?_, rfl⟩
      simp [alloc_finish, MMU_pf_alloc, hfree]
    · rename_i hfree
      cases h
      refine ⟨?_, rfl⟩
      rcases htake : take_region s.usable_regions with _ | ⟨p, rest⟩
      · simp [alloc_finish, MMU_pf_alloc, hfree, htake]
      · simp [alloc_finish, MMU_pf_alloc, hfree, htake]
  | next node =>
    cases h
    exact ⟨rfl, rfl⟩
  | store node next => cases h
  | valid i =>
    simp only [alloc_step] at h
    rcases hr : s.usable_regions[i]? with _ | r
    · simp [hr] at h
    · simp only [hr] at h
      rw [alloc_finish_valid hr]
      split at h
      · rename_i hv
        cases h
        exact ⟨by rw [if_pos hv], rfl⟩
      · rename_i hv
        cases h
        exact ⟨by rw [if_neg hv], rfl⟩
  | size i =>
    simp only [alloc_step] at h
    split at h
    · rename_i hs
      cases h
      exact ⟨by simp [alloc_finish, hs], rfl⟩
    · rename_i hs
      cases h
      exact ⟨by simp [alloc_finish, hs], rfl⟩
  | last i =>
    cases h
    refine ⟨?_, rfl⟩
    by_cases hi : i < s.usable_regions.length
    · simp [alloc_finish, region_set_region s hi]
    · simp [alloc_finish, set_region_of_length_le s (Nat.le_of_not_lt hi)]
  | last_addr i => cases h
  | addr i =>
    cases h
    exact ⟨rfl, rfl⟩
  | move i frame =>
    cases h
    refine ⟨?_, rfl⟩
    by_cases hi : i < s.usable_regions.length
    · simp [alloc_finish, region_set_region s hi, set_region_set_region]
    · simp [alloc_finish, set_region_of_length_le s (Nat.le_of_not_lt hi)]
  | shrink i frame => cases h

theorem alloc_step_last (h : alloc_step pc s = (.inr frame, s')) :
    alloc_finish pc s = (frame, s') := by
  cases pc with
  | head =>
    simp only [alloc_step] at h
    split at h <;> cases h
  | next node => cases h
  | store node next =>
    cases h
    rfl
  | valid i =>
    simp only [alloc_step] at h
    rcases hr : s.usable_regions[i]? with _ | r
    · simp only [hr] at h
      cases h
      have hdrop : s.usable_regions.drop i = [] :=
        List.drop_eq_nil_of_le (List.getElem?_eq_none_iff.mp hr)
      simp [alloc_finish, hdrop, take_region]
    · simp only [hr] at h
      split at h <;> cases h
  | size i =>
    simp only [alloc_step] at h
    split at h <;> cases h
  | last i => cases h
  | last_addr i =>
    cases h
    rfl
  | addr i => cases h
  | move i frame => cases h
  | shrink i frame =>
    cases h
    rfl

/-- The memory accesses that `MMU_pf_alloc` has still to make, at most. -/
def alloc_rank (pc : AllocPc) (s : Machine) : Nat :=
  match pc with
  | .head => s.usable_regions.length + 6
  | .next _ => 2
  | .store _ _ => 1
  | .valid i => s.usable_regions.length - i + 5
  | .size _ => 4
  | .last _ => 2
  | .last_addr _ => 1
  | .addr _ => 3
  | .move _ _ => 2
  | .shrink _ _ => 1

theorem alloc_rank_lt (h : alloc_step pc s = (.inl pc', s')) : alloc_rank pc' s' < alloc_rank pc s := by
  cases pc with
  | head =>
    simp only [alloc_step] at h
    split at h
    · cases h
      simp [alloc_rank]
    · cases h
      simp [alloc_rank]
  | next => cases h; simp [alloc_rank]
  | store => cases h
  | valid i =>
    simp only [alloc_step] at h
    rcases hr : s.usable_regions[i]? with _ | r
    · simp [hr] at h
    · obtain ⟨hi, _⟩ := List.getElem?_eq_some_iff.mp hr
      simp only [hr] at h
      split at h
      · cases h
        simp only [alloc_rank]
        omega
      · cases h
        simp only [alloc_rank]
        omega
  | size =>
    simp only [alloc_step] at h
    split at h
    · cases h
      simp [alloc_rank]
    · cases h
      simp [alloc_rank]
  | last => cases h; simp [alloc_rank]
  | last_addr => cases h
  | addr => cases h; simp [alloc_rank]
  | move => cases h; simp [alloc_rank]
  | shrink => cases h

end

/-! ## The handler in steps -/

/-- The handler runs on with no other thread in between. -/
def Alone : FaultPc × Machine → FaultPc × Machine → Prop :=
  Relation.ReflTransGen fun a b => fault_step a.1 a.2 = some b

section

variable {s s' : Machine} {j : Job} {frame : Word}

theorem alloc_alone (pc : AllocPc) (h : alloc_finish pc s = (frame, s'))
    (hframe : frame ≠ INVALID_FRAME_ADDR) : Alone (.alloc j pc, s) (.zero j frame 0, s') := by
  induction hn : alloc_rank pc s using Nat.strong_induction_on generalizing pc s with
  | h n ih =>
    subst hn
    rcases ha : alloc_step pc s with ⟨pc' | frame', s1⟩
    · obtain ⟨hfinish, _⟩ := alloc_step_next ha
      refine .head ?_ (ih _ (alloc_rank_lt ha) pc' (hfinish.trans h) rfl)
      simp [fault_step, ha]
    · have hlast := alloc_step_last ha
      rw [h] at hlast
      cases hlast
      refine .single ?_
      simp [fault_step, ha, hframe]

theorem zero_alone (k : Nat) (hk : k ≤ 512) (hz : ∀ i : Fin 512, i.val < k → s.mem (frameOf frame) i = 0) :
    Alone (.zero j frame k, s) (.load j frame .phys_addr, s.zero_frame (frameOf frame)) := by
  induction hn : 512 - k generalizing k s with
  | zero =>
    have hrow : s.zero_frame (frameOf frame) = s := by
      have hmem : (fun _ => 0) = s.mem (frameOf frame) := by
        funext i
        exact (hz i (by omega)).symm
      unfold Machine.zero_frame
      rw [hmem, Function.update_eq_self]
    rw [hrow]
    refine .single ?_
    simp [fault_step, show ¬ k < 512 by omega]
  | succ n ih =>
    have hlt : k < 512 := by omega
    have hstep : Alone (.zero j frame (k + 1), { s with mem := setWord s.mem (frameOf frame) ⟨k, hlt⟩ 0 })
        (.load j frame .phys_addr, s.zero_frame (frameOf frame)) := by
      have h := ih (s := { s with mem := setWord s.mem (frameOf frame) ⟨k, hlt⟩ 0 }) (k + 1) (by omega)
        (fun i hi => ?_) (by omega)
      · simpa only [Machine.zero_frame, setWord, Function.update_idem] using h
      · by_cases hik : i = ⟨k, hlt⟩
        · rw [hik]
          exact setWord_same _ _ _ _
        · refine (setWord_word_of_ne _ _ hik _).trans (hz i ?_)
          have hne : i.val ≠ k := fun he => hik (Fin.ext he)
          omega
    refine .head ?_ hstep
    simp [fault_step, hlt]

theorem entry_set_entry (s : Machine) (e : EntryPtr) (w : Word) : (s.set_entry e w).entry e = w :=
  setWord_same _ _ _ _

theorem set_entry_set_entry (s : Machine) (e : EntryPtr) (w w' : Word) :
    (s.set_entry e w).set_entry e w' = s.set_entry e w' := by
  simp [Machine.set_entry, setWord]

theorem set_entry_entry (s : Machine) (e : EntryPtr) : s.set_entry e (s.entry e) = s := by
  simp [Machine.set_entry, Machine.entry, setWord]

/-- The five fields, one after the other. -/
theorem fields_alone (s : Machine) (j : Job) (frame : Word) :
    Alone (.load j frame .phys_addr, s)
      (.outside, s.set_entry j.p1 (backed_entry (s.entry j.p1) frame j.va)) := by
  have hfield : ∀ (field next : EntryField) (w : Word), field.next = some next →
      Alone (.load j frame field, s.set_entry j.p1 w)
        (.load j frame next, s.set_entry j.p1 (field.set w frame j.va)) := by
    intro field next w hnext
    refine .head (b := (.store j frame field w, s.set_entry j.p1 w)) ?_ (.single ?_)
    · simp [fault_step, entry_set_entry]
    · simp [fault_step, hnext, set_entry_set_entry]
  have hlast : ∀ w : Word, Alone (.load j frame .demand, s.set_entry j.p1 w)
      (.outside, s.set_entry j.p1 (setFlag w 9 false)) := by
    intro w
    refine .head (b := (.store j frame .demand w, s.set_entry j.p1 w)) ?_ (.single ?_)
    · simp [fault_step, entry_set_entry]
    · simp [fault_step, EntryField.next, EntryField.set, set_entry_set_entry]
  have hstart := hfield .phys_addr .present (s.entry j.p1) rfl
  rw [set_entry_entry] at hstart
  exact (((hstart.trans (hfield .present .rw _ rfl)).trans (hfield .rw .us _ rfl)).trans
    (hfield .us .demand _ rfl)).trans (hlast _)

/-- With no other thread in between, the steps of the handler come to what the handler does. -/
theorem handler_alone {va : Word} (h : ISR14_PAGE_FAULT_HANDLER va s = some s') :
    Alone (.walk va, s) (.outside, s') := by
  unfold ISR14_PAGE_FAULT_HANDLER at h
  rcases hwalk : travel_pagetable va false s with ⟨_ | p1, s1⟩
  · simp [hwalk] at h
  simp only [hwalk] at h
  split at h
  · rename_i htest
    obtain ⟨hdemand, habsent⟩ : demand (s1.entry p1) = true ∧ present (s1.entry p1) = false := by
      simpa using htest
    simp only [make_page_present, habsent, hdemand, Bool.false_eq_true, Bool.not_true,
      if_false] at h
    rcases halloc : MMU_pf_alloc s1 with ⟨frame, s2⟩
    simp only [halloc] at h
    by_cases hframe : frame = INVALID_FRAME_ADDR
    · simp [hframe] at h
    simp only [hframe, if_false] at h
    cases h
    have hstart : Alone (.walk va, s) (.alloc ⟨va, p1⟩ .head, s1) := by
      refine .head (b := (.test ⟨va, p1⟩, s1)) (by simp [fault_step, hwalk]) ?_
      refine .head (b := (.check_present ⟨va, p1⟩, s1)) (by simp [fault_step, htest]) ?_
      refine .head (b := (.check_demand ⟨va, p1⟩, s1)) (by simp [fault_step, habsent]) ?_
      exact .single (by simp [fault_step, hdemand])
    refine (hstart.trans (alloc_alone .head halloc hframe)).trans ?_
    exact (zero_alone 0 (by omega) (fun _ hi => absurd hi (by omega))).trans (fields_alone _ _ _)
  · cases h

end

/-! ## Page-table entries -/

/-- An entry of a page table of one of the trees. -/
def Leaf (s : Machine) (live : List Word) (e : EntryPtr) : Prop :=
  ∃ T ∈ trees s.ptable_p4 live, TreeSlot T s.mem 0 e.1 e.2

section

variable {s s' : Machine} {live : List Word} {R R' : Multiset Nat} {P P' : List Nat} {T : Tree}
  {e e' : EntryPtr} {f k t : Nat} {j : Fin 512} {w : Word}

theorem Sound.table_notMem (h : Sound s live R P) (hT : T ∈ trees s.ptable_p4 live)
    (hslot : TreeSlot T s.mem k t j) : t ∉ R ∧ t ∉ P :=
  ⟨fun hR => h.rest_notMem_tree hT hR hslot.table_mem, h.tree_notMem_pool hT hslot.table_mem⟩

theorem page_mem_tree (hslot : TreeSlot T s.mem 0 e.1 e.2) (hc : childOf (s.entry e) = some f) :
    f ∈ treeFrames s.mem T := by
  refine Multiset.mem_cons_of_mem (hslot.sub_subset ?_)
  have hc : childOf (s.mem e.1 e.2) = some f := hc
  rw [sub_of_some hc]
  exact root_mem_frames _ _ _

/-- The frame of a page is neither free nor in another use. -/
theorem Sound.page_notMem (h : Sound s live R P) (he : Leaf s live e)
    (hc : childOf (s.entry e) = some f) : f ∉ R ∧ f ∉ P := by
  obtain ⟨T, hT, hslot⟩ := he
  have hmem := page_mem_tree hslot hc
  exact ⟨fun hR => h.rest_notMem_tree hT hR hmem, h.tree_notMem_pool hT hmem⟩

/-- The frame of a page is no table. -/
theorem Sound.table_ne_page (h : Sound s live R P) (he : Leaf s live e)
    (hc : childOf (s.entry e) = some f) (hT : T ∈ trees s.ptable_p4 live)
    (hslot : TreeSlot T s.mem k t j) : t ≠ f := by
  obtain ⟨U, hU, hleaf⟩ := he
  by_cases hUT : T = U
  · subst hUT
    exact (hleaf.child_ne_table hc hslot (h.owns hT).tree_nodup (by omega)).symm
  · rintro rfl
    exact trees_apart h.grove_nodup hU hT hUT (page_mem_tree hleaf hc) hslot.table_mem

/-- A table above the page tables is no page table. -/
theorem Sound.upper_ne_leaf (h : Sound s live R P) (he : Leaf s live e)
    (hT : T ∈ trees s.ptable_p4 live) (hslot : TreeSlot T s.mem k t j) (hk : 0 < k) : t ≠ e.1 := by
  obtain ⟨U, hU, hleaf⟩ := he
  rintro rfl
  by_cases hUT : T = U
  · subst hUT
    have := hslot.height_unique hleaf (h.owns hT).tree_nodup
    omega
  · exact trees_apart h.grove_nodup hU hT hUT hleaf.table_mem hslot.table_mem

/-- Two present pages with the same frame are the same page. -/
theorem Sound.page_unique (h : Sound s live R P) (he : Leaf s live e) (he' : Leaf s live e')
    (hc : childOf (s.entry e) = some f) (hc' : childOf (s.entry e') = some f) : e = e' := by
  obtain ⟨T, hT, hslot⟩ := he
  obtain ⟨U, hU, hslot'⟩ := he'
  by_cases hUT : U = T
  · subst hUT
    obtain ⟨h1, h2⟩ := hslot.child_unique hc hslot' hc' (h.owns hT).tree_nodup
    exact Prod.ext h1 h2
  · exact absurd (page_mem_tree hslot' hc')
      (trees_apart h.grove_nodup hT hU hUT (page_mem_tree hslot hc))

theorem Leaf.congr (he : Leaf s live e) (hk : s'.ptable_p4 = s.ptable_p4)
    (hm : ∀ T ∈ trees s.ptable_p4 live, ∀ k t j, TreeSlot T s.mem k t j → 0 < k →
      s'.mem t = s.mem t) : Leaf s' live e := by
  obtain ⟨T, hT, hslot⟩ := he
  refine ⟨T, by rw [hk]; exact hT, hslot.congr fun k x j hx hk => ?_⟩
  exact hm T hT k x j hx hk

/-! ## Changes -/

/-- A frame whose contents nobody else relies on: it has another use than the identity mapping, or
it backs a page. -/
def Spare (s : Machine) (live : List Word) (R : Multiset Nat) (f : Nat) : Prop :=
  (f ∈ R ∧ childOf (s.mem s.ptable_p4 0) ≠ some f) ∨
    ∃ e, Leaf s live e ∧ childOf (s.entry e) = some f

theorem Sound.table_ne_spare (h : Sound s live R P) (hf : Spare s live R f)
    (hT : T ∈ trees s.ptable_p4 live) (hslot : TreeSlot T s.mem k t j) : t ≠ f := by
  rcases hf with ⟨hR, _⟩ | ⟨e, he, hc⟩
  · rintro rfl
    exact (h.table_notMem hT hslot).1 hR
  · exact h.table_ne_page he hc hT hslot

/-- The contents of such a frame may change. -/
theorem Sound.scribble (h : Sound s live R P) (hf : Spare s live R f) (x : Frame) :
    Sound { s with mem := Function.update s.mem f x } live R P := by
  rcases hf with ⟨hR, hid⟩ | ⟨e, ⟨T, hT, hslot⟩, hc⟩
  · have hne : ∀ g, g ≠ f → Function.update s.mem f x g = s.mem g :=
      fun g hg => Function.update_of_ne hg _ _
    refine h.off_trees (h.pool.congr rfl rfl fun g hg => hne g ?_) rfl h.small ?_ ?_ rfl rfl
    · rintro rfl
      exact h.rest_notMem_pool hR hg
    · intro T hT g hg
      refine hne g ?_
      rintro rfl
      exact h.rest_notMem_tree hT hR hg
    · intro c hcR hc
      refine ⟨hcR, hne c ?_⟩
      rintro rfl
      exact hid hc
  · obtain ⟨hp, rfl⟩ := childOf_eq_some.mp hc
    refine h.edit hT (edit_of_write (h.owns hT) hslot hp) fun _ i _ => ?_
    have hne : s.ptable_p4 ≠ pfn (s.entry e) := by
      have hroot : TreeSlot (kernelTree s.ptable_p4) s.mem 3 s.ptable_p4 1 :=
        .root ((mem_kernelTree_slots _).mpr (by decide))
      exact h.table_ne_page ⟨T, hT, hslot⟩ hc (kernelTree_mem _ _) hroot
    exact congrFun (Function.update_of_ne hne _ _) i

theorem entry_set_entry_of_ne (s : Machine) (he : e' ≠ e) (w : Word) :
    (s.set_entry e w).entry e' = s.entry e' := by
  unfold Machine.set_entry Machine.entry
  by_cases h1 : e'.1 = e.1
  · rw [h1]
    exact setWord_word_of_ne _ _ (fun h2 => he (Prod.ext h1 h2)) _
  · exact congrFun (setWord_of_ne h1 _ _) _

/-- A page-table entry is overwritten. The frame that it named gets another use, and the frame that
it names now had another use before. -/
theorem Sound.relink (h : Sound s live R P) (he : Leaf s live e)
    (hex : R' + sub childOf 0 s.mem w = R + sub childOf 0 s.mem (s.entry e))
    (hid : ∀ c ∈ R, childOf (s.mem s.ptable_p4 0) = some c → c ∈ R') :
    Sound (s.set_entry e w) live R' P := by
  obtain ⟨T, hT, hslot⟩ := he
  have hown := h.owns hT
  obtain ⟨hR, hP⟩ := h.table_notMem hT hslot
  have hrow : ∀ j, j ≠ e.2 → (s.set_entry e w).mem e.1 j = s.mem e.1 j :=
    fun j hj => setWord_word_of_ne _ _ hj _
  have hoff : ∀ f, f ≠ e.1 → (s.set_entry e w).mem f = s.mem f := fun f hf => setWord_of_ne hf _ _
  have hti : (s.set_entry e w).mem e.1 e.2 = w := setWord_same _ _ _ _
  have hsub : ∀ m : Nat → Frame, sub childOf 0 m w = sub childOf 0 s.mem w := by
    intro m
    unfold sub
    rcases childOf w with _ | c
    · rfl
    · exact (frames_zero _ _).trans (frames_zero _ _).symm
  have hforest := forest_exchange_at hslot hown.tree_nodup hrow fun f _ hf _ => hoff f hf
  rw [hti, hsub] at hforest
  have htotal : R' + treeFrames (s.set_entry e w).mem T = R + treeFrames s.mem T := by
    refine add_right_cancel (b := sub childOf 0 s.mem (s.mem e.1 e.2)) ?_
    unfold treeFrames
    rw [Multiset.add_cons, Multiset.add_cons, Multiset.cons_add, Multiset.cons_add, add_assoc,
      hforest, add_comm (forest childOf T.slots 3 s.mem T.root), ← add_assoc, hex, add_right_comm]
    rfl
  have hnd : (R + treeFrames s.mem T + ↑P).Nodup := by
    obtain ⟨rest, hperm⟩ := exists_rest hT
    have hnd := h.nodup
    rw [grove_perm hperm, grove_cons, ← add_assoc] at hnd
    refine Multiset.nodup_of_le ?_ hnd
    exact add_le_add_left (Multiset.le_add_right _ _) _
  rw [← htotal, add_assoc] at hnd
  refine h.replace hT ⟨h.pool.set_entry hP w, h.small, (Multiset.nodup_add.mp hnd).2.1, ?_⟩ ?_ ?_ ?_
    (SameRegs.set_entry _ _ _) hid ?_
  · exact plain_of_slot hown hslot hrow (fun f _ hf _ => hoff f hf) fun _ => ⟨nofun, trivial⟩
  · rw [htotal]
  · exact fun f hf _ => hoff f fun he => hf (he ▸ hslot.table_mem)
  · exact fun i _ => congrFun (hoff _ (hown.root_ne hslot (by omega))) i
  · exact fun _ i _ => congrFun (hoff _ (h.table_ne_kernel hT hslot)) i

/-! ## Frames in hand -/

/-- A frame that was taken for a page. It backs that page, or it has no use yet, or it was replaced
by the frame of another thread that handled the same fault. -/
structure TakenFor (s : Machine) (live : List Word) (R : Multiset Nat) (f : Nat) (e : EntryPtr) :
    Prop where
  page : Leaf s live e
  held : f ∈ R ∨ childOf (s.entry e) = some f
  other : childOf (s.mem s.ptable_p4 0) ≠ some f
  small : f < 2 ^ 40

theorem TakenFor.spare (h : TakenFor s live R f e) : Spare s live R f := by
  rcases h.held with hR | hc
  · exact Or.inl ⟨hR, h.other⟩
  · exact Or.inr ⟨e, h.page, hc⟩

theorem Sound.taken_notMem (h : Sound s live R P) (ht : TakenFor s live R f e) : f ∉ P := by
  rcases ht.held with hR | hc
  · exact h.rest_notMem_pool hR
  · exact (h.page_notMem ht.page hc).2

/-- What a thread in the handler relies on: its frame was taken for its page, and once it has set
the address, so was the frame that the entry names. -/
def PcOk (s : Machine) (live : List Word) (owner : Nat → Option EntryPtr) : FaultPc → Prop
  | .outside => True
  | .walk _ => True
  | .test j => Leaf s live j.p1
  | .check_present j => Leaf s live j.p1
  | .check_demand j => Leaf s live j.p1
  | .alloc j _ => Leaf s live j.p1
  | .zero j frame _ => owner (frameOf frame) = some j.p1
  | .load j frame field => owner (frameOf frame) = some j.p1 ∧
      (field ≠ .phys_addr → owner (pfn (s.entry j.p1)) = some j.p1)
  | .store j frame field w => owner (frameOf frame) = some j.p1 ∧
      (field ≠ .phys_addr → owner (pfn w) = some j.p1 ∧ owner (pfn (s.entry j.p1)) = some j.p1)

theorem PcOk.mono {owner owner' : Nat → Option EntryPtr} {pc : FaultPc} (h : PcOk s live owner pc)
    (hleaf : ∀ e, Leaf s live e → Leaf s' live e)
    (hown : ∀ f e, owner f = some e → owner' f = some e)
    (hentry : ∀ e, owner (pfn (s.entry e)) = some e → owner' (pfn (s'.entry e)) = some e) :
    PcOk s' live owner' pc := by
  cases pc with
  | outside => trivial
  | walk => trivial
  | test => exact hleaf _ h
  | check_present => exact hleaf _ h
  | check_demand => exact hleaf _ h
  | alloc => exact hleaf _ h
  | zero => exact hown _ _ h
  | load => exact ⟨hown _ _ h.1, fun hf => hentry _ (h.2 hf)⟩
  | store => exact ⟨hown _ _ h.1, fun hf => ⟨hown _ _ (h.2 hf).1, hentry _ (h.2 hf).2⟩⟩

/-- The machine and the threads in the handler, with the frames that they have taken. -/
structure Tracked (s : Machine) (live : List Word) (R : Multiset Nat) (P : List Nat)
    (owner : Nat → Option EntryPtr) (pcs : Nat → FaultPc) : Prop where
  sound : Sound s live R P
  taken : ∀ f e, owner f = some e → TakenFor s live R f e
  ok : ∀ t, PcOk s live owner (pcs t)

variable {owner : Nat → Option EntryPtr} {pcs : Nat → FaultPc}

section

variable (h : Tracked s live R P owner pcs)

include h

theorem Tracked.advance {t : Nat} {pc : FaultPc} (hpc : PcOk s live owner pc) :
    Tracked s live R P owner (Function.update pcs t pc) := by
  refine ⟨h.sound, h.taken, fun t' => ?_⟩
  by_cases ht : t' = t
  · subst ht
    rw [Function.update_self]
    exact hpc
  · rw [Function.update_of_ne ht]
    exact h.ok t'

theorem Tracked.switch {cr3 : Word} (hcr3 : cr3 = s.kernel_cr3 ∨ cr3 ∈ live) :
    Tracked (MMU_switch_p4 cr3 s) live R P owner pcs := by
  refine ⟨h.sound.switch hcr3, fun f e hf => ?_, fun t => (h.ok t).mono (fun _ he => he)
    (fun _ _ hf => hf) fun _ he => he⟩
  obtain ⟨hpage, hheld, hother, hsmall⟩ := h.taken f e hf
  exact ⟨hpage, hheld, hother, hsmall⟩

/-- The contents of a frame change that no table relies on. -/
theorem Tracked.scribble (hf : Spare s live R f) (x : Frame) :
    Tracked { s with mem := Function.update s.mem f x } live R P owner pcs := by
  have htable : ∀ T ∈ trees s.ptable_p4 live, ∀ k t j, TreeSlot T s.mem k t j →
      Function.update s.mem f x t = s.mem t := fun T hT k t j hslot =>
    Function.update_of_ne (h.sound.table_ne_spare hf hT hslot) _ _
  have hleaf : ∀ e, Leaf s live e → Leaf { s with mem := Function.update s.mem f x } live e :=
    fun e he => he.congr rfl fun T hT k t j hslot _ => htable T hT k t j hslot
  have hentry : ∀ e, Leaf s live e →
      Machine.entry { s with mem := Function.update s.mem f x } e = s.entry e := by
    rintro e ⟨T, hT, hslot⟩
    exact congrFun (htable T hT _ _ _ hslot) e.2
  have hroot : Function.update s.mem f x s.ptable_p4 = s.mem s.ptable_p4 :=
    htable _ (kernelTree_mem _ _) 3 _ 1 (.root ((mem_kernelTree_slots _).mpr (by decide)))
  refine ⟨h.sound.scribble hf x, fun g e hg => ?_, fun t => (h.ok t).mono hleaf
    (fun _ _ hg => hg) fun e he => ?_⟩
  · obtain ⟨hpage, hheld, hother, hsmall⟩ := h.taken g e hg
    refine ⟨hleaf e hpage, by rw [hentry e hpage]; exact hheld, ?_, hsmall⟩
    intro hc
    exact hother ((congrArg childOf (congrFun hroot 0)).symm.trans hc)
  · rw [hentry e (h.taken _ e he).page]
    exact he

/-- A page-table entry gets the address of a frame that was taken for its page. -/
theorem Tracked.relink (hw : owner (pfn w) = some e) :
    ∃ R', Tracked (s.set_entry e w) live R' P owner pcs := by
  have htaken := h.taken _ e hw
  have he := htaken.page
  have hle : sub childOf 0 s.mem w ≤ R + sub childOf 0 s.mem (s.entry e) := by
    rcases hc : childOf w with _ | c
    · rw [sub_of_none hc]
      exact Multiset.zero_le _
    · rw [sub_of_some hc, frames_zero, Multiset.singleton_le, Multiset.mem_add]
      rw [(childOf_eq_some.mp hc).2] at htaken
      refine htaken.held.imp_right fun hold => ?_
      rw [sub_of_some hold, frames_zero]
      exact Multiset.mem_singleton_self c
  have hex := tsub_add_cancel_of_le hle
  -- a frame in use by the threads stays so, or the entry names it now
  have hkept : ∀ g, g ∈ R ∨ childOf (s.entry e) = some g →
      g ∈ R + sub childOf 0 s.mem (s.entry e) - sub childOf 0 s.mem w ∨ childOf w = some g := by
    intro g hg
    have hmem : g ∈ R + sub childOf 0 s.mem (s.entry e) := by
      refine Multiset.mem_add.mpr (hg.imp_right fun hold => ?_)
      rw [sub_of_some hold, frames_zero]
      exact Multiset.mem_singleton_self g
    rw [← hex, Multiset.mem_add] at hmem
    refine hmem.imp_right fun hnew => ?_
    rcases hc : childOf w with _ | c
    · rw [sub_of_none hc] at hnew
      exact absurd hnew (Multiset.notMem_zero g)
    · rw [sub_of_some hc, frames_zero, Multiset.mem_singleton] at hnew
      rw [hnew]
  have hid : ∀ c ∈ R, childOf (s.mem s.ptable_p4 0) = some c →
      c ∈ R + sub childOf 0 s.mem (s.entry e) - sub childOf 0 s.mem w := by
    intro c hcR hc
    refine (hkept c (Or.inl hcR)).resolve_right fun hnew => htaken.other ?_
    rw [(childOf_eq_some.mp hnew).2]
    exact hc
  have hsame := entry_set_entry s e w
  have hne : ∀ e', e' ≠ e → (s.set_entry e w).entry e' = s.entry e' :=
    fun e' he' => entry_set_entry_of_ne s he' w
  have hleaf : ∀ e', Leaf s live e' → Leaf (s.set_entry e w) live e' := fun e' he' =>
    he'.congr rfl fun T hT k t j hslot hk => setWord_of_ne (h.sound.upper_ne_leaf he hT hslot hk) _ _
  have hroot : (s.set_entry e w).mem s.ptable_p4 = s.mem s.ptable_p4 := by
    obtain ⟨T, hT, hslot⟩ := he
    exact setWord_of_ne (h.sound.table_ne_kernel hT hslot) _ _
  refine ⟨_, h.sound.relink he hex hid, fun g e' hg => ?_, fun t => (h.ok t).mono hleaf
    (fun _ _ hg => hg) fun e' he' => ?_⟩
  · obtain ⟨hpage, hheld, hother, hsmall⟩ := h.taken g e' hg
    refine ⟨hleaf e' hpage, ?_, ?_, hsmall⟩
    · by_cases hee : e' = e
      · subst hee
        rw [hsame]
        exact hkept g hheld
      · rw [hne e' hee]
        rcases hheld with hR | hc
        · refine (hkept g (Or.inl hR)).imp_right fun hnew => absurd ?_ hee
          rw [(childOf_eq_some.mp hnew).2, hg, Option.some.injEq] at hw
          exact hw
        · exact Or.inr hc
    · intro hc
      exact hother ((congrArg childOf (congrFun hroot 0)).symm.trans hc)
  · by_cases hee : e' = e
    · subst hee
      rw [hsame]
      exact hw
    · rw [hne e' hee]
      exact he'

/-- The allocator hands out a frame that nobody else has. -/
theorem Tracked.alloc {frame : Word} (he : Leaf s live e) (halloc : MMU_pf_alloc s = (frame, s'))
    (hframe : frame ≠ INVALID_FRAME_ADDR) :
    ∃ R' P' owner', Tracked s' live R' P' owner' pcs ∧ owner' (frameOf frame) = some e ∧
      s'.kernel_cr3 = s.kernel_cr3 := by
  cases P with
  | nil =>
    rw [MMU_pf_alloc.spec_nil h.sound.pool] at halloc
    cases halloc
    exact absurd rfl hframe
  | cons c P =>
    obtain ⟨ff, rs, heq, hpool⟩ := MMU_pf_alloc.spec_cons h.sound.pool
    rw [heq] at halloc
    cases halloc
    have hc : c < 2 ^ 40 := h.sound.small c List.mem_cons_self
    have hsound : Sound { s with free_frames := ff, usable_regions := rs } live (c ::ₘ R) P := by
      refine h.sound.off_pool hpool ?_ (fun _ hf => Multiset.mem_cons_of_mem hf)
        (fun _ hf => List.mem_cons_of_mem _ hf) (fun _ _ => rfl) rfl rfl
      rw [Multiset.cons_add, ← Multiset.add_cons]
      rfl
    have hnew : ∀ f e', owner f = some e' → f ≠ c := by
      rintro f e' hf rfl
      exact h.sound.taken_notMem (h.taken f e' hf) List.mem_cons_self
    have hold : ∀ f e', owner f = some e' → Function.update owner c (some e) f = some e' := by
      intro f e' hf
      rw [Function.update_of_ne (hnew f e' hf)]
      exact hf
    refine ⟨c ::ₘ R, P, Function.update owner c (some e), ⟨hsound, ?_, ?_⟩, ?_, rfl⟩
    · intro f e' hf
      by_cases hfc : f = c
      · subst hfc
        rw [Function.update_self, Option.some.injEq] at hf
        subst hf
        refine ⟨he, Or.inl (Multiset.mem_cons_self f R), fun hid => ?_, hc⟩
        obtain ⟨d, hdR, hd, _⟩ := h.sound.identity
        have hfd : some d = some f := hd.symm.trans hid
        cases hfd
        exact h.sound.rest_notMem_pool hdR List.mem_cons_self
      · rw [Function.update_of_ne hfc] at hf
        obtain ⟨hpage, hheld, hother, hsmall⟩ := h.taken f e' hf
        exact ⟨hpage, hheld.imp_left Multiset.mem_cons_of_mem, hother, hsmall⟩
    · exact fun t => (h.ok t).mono (fun _ he' => he') hold fun e' he' => hold _ e' he'
    · rw [frameOf_frameAddr (by omega), Function.update_self]

end

/-! ## Runs -/

/-- The thread is inside `MMU_pf_alloc`. -/
def FaultPc.allocating : FaultPc → Bool
  | .alloc _ _ => true
  | _ => false

/-- The machine `s` is the machine `m` before the call of `MMU_pf_alloc` that the thread is in. -/
def BeforeAlloc (s m : Machine) : FaultPc → Prop
  | .alloc _ a =>
    alloc_finish a m = MMU_pf_alloc s ∧ m = { s with usable_regions := m.usable_regions }
  | _ => m = s

/-- A step in the handler keeps track of all frames. -/
theorem Tracked.fault_step {m m' : Machine} {pc pc' : FaultPc} {t : Nat}
    (h : Tracked s live R P owner pcs) (hpc : PcOk s live owner pc) (hm : BeforeAlloc s m pc)
    (hstep : fault_step pc m = some (pc', m')) :
    ∃ s' R' P' owner', Tracked s' live R' P' owner' (Function.update pcs t pc') ∧
      BeforeAlloc s' m' pc' ∧ m'.kernel_cr3 = m.kernel_cr3 := by
  cases pc with
  | outside => cases hstep
  | walk va =>
    cases hm
    simp only [JamsOs.fault_step, travel_pagetable, travel_pagetable_in.of_lookup] at hstep
    rcases hlook : lookup s.mem (frameOf s.cr3) va with _ | p1
    · simp [hlook] at hstep
    · simp only [hlook] at hstep
      cases hstep
      exact ⟨s, R, P, owner, h.advance (h.sound.slot_of_lookup hlook), rfl, rfl⟩
  | test j =>
    cases hm
    simp only [JamsOs.fault_step] at hstep
    split at hstep
    · cases hstep
      exact ⟨s, R, P, owner, h.advance hpc, rfl, rfl⟩
    · cases hstep
  | check_present j =>
    cases hm
    simp only [JamsOs.fault_step] at hstep
    split at hstep
    · cases hstep
      exact ⟨s, R, P, owner, h.advance trivial, rfl, rfl⟩
    · cases hstep
      exact ⟨s, R, P, owner, h.advance hpc, rfl, rfl⟩
  | check_demand j =>
    cases hm
    simp only [JamsOs.fault_step] at hstep
    split at hstep
    · cases hstep
    · cases hstep
      exact ⟨s, R, P, owner, h.advance hpc, ⟨rfl, rfl⟩, rfl⟩
  | alloc j a =>
    obtain ⟨hfinish, hregions⟩ := hm
    have hk : m.kernel_cr3 = s.kernel_cr3 := by rw [hregions]
    simp only [JamsOs.fault_step] at hstep
    rcases ha : alloc_step a m with ⟨a' | frame, m1⟩
    · simp only [ha] at hstep
      cases hstep
      obtain ⟨hnext, hm'⟩ := alloc_step_next ha
      refine ⟨s, R, P, owner, h.advance hpc, ⟨hnext.trans hfinish, ?_⟩, by rw [hm']⟩
      rw [hm', hregions]
    · simp only [ha] at hstep
      split at hstep
      · cases hstep
      · rename_i hframe
        cases hstep
        have halloc : MMU_pf_alloc s = (frame, m') := hfinish.symm.trans (alloc_step_last ha)
        obtain ⟨R', P', owner', h', hown, hk'⟩ := h.alloc hpc halloc hframe
        exact ⟨m', R', P', owner', h'.advance hown, rfl, hk'.trans hk.symm⟩
  | zero j frame k =>
    cases hm
    simp only [JamsOs.fault_step] at hstep
    split at hstep
    · cases hstep
      exact ⟨_, R, P, owner, (h.scribble (h.taken _ _ hpc).spare _).advance hpc, rfl, rfl⟩
    · cases hstep
      exact ⟨s, R, P, owner, h.advance ⟨hpc, fun hf => absurd rfl hf⟩, rfl, rfl⟩
  | load j frame field =>
    cases hm
    cases hstep
    exact ⟨s, R, P, owner, h.advance ⟨hpc.1, fun hf => ⟨hpc.2 hf, hpc.2 hf⟩⟩, rfl, rfl⟩
  | store j frame field w =>
    cases hm
    have hw : owner (pfn (field.set w frame j.va)) = some j.p1 := by
      cases field with
      | phys_addr =>
        rw [EntryField.set, phys_to_pfn, pfn_set_pfn (h.taken _ _ hpc.1).small]
        exact hpc.1
      | present => rw [EntryField.set, pfn_setFlag _ (by omega)]; exact (hpc.2 nofun).1
      | rw => rw [EntryField.set, pfn_setFlag _ (by omega)]; exact (hpc.2 nofun).1
      | us => rw [EntryField.set, pfn_setFlag _ (by omega)]; exact (hpc.2 nofun).1
      | demand => rw [EntryField.set, pfn_setFlag _ (by omega)]; exact (hpc.2 nofun).1
    obtain ⟨R', h'⟩ := h.relink hw
    simp only [JamsOs.fault_step] at hstep
    split at hstep
    · cases hstep
      refine ⟨_, R', P, owner, h'.advance ⟨hpc.1, fun _ => ?_⟩, rfl, rfl⟩
      rw [entry_set_entry]
      exact hw
    · cases hstep
      exact ⟨_, R', P, owner, h'.advance trivial, rfl, rfl⟩

/-- All frames are accounted for, and no thread but the current one is in the allocator. -/
structure Safe (live : List Word) (w : FaultSystem) : Prop where
  tracked : ∃ s R P owner, Tracked s live R P owner w.pc ∧
    BeforeAlloc s w.machine (w.pc w.current)
  alone : ∀ t, t ≠ w.current → (w.pc t).allocating = false
  spaces : ∀ t, w.cr3 t = w.machine.kernel_cr3 ∨ w.cr3 t ∈ live

/-- No switch strikes a thread inside `MMU_pf_alloc`. -/
def AllocUnbroken : FaultEvent → FaultSystem → Prop
  | .switch _, w => (w.pc w.current).allocating = false
  | _, _ => True

instance (ev : FaultEvent) (w : FaultSystem) : Decidable (AllocUnbroken ev w) :=
  match ev with
  | .switch _ => inferInstanceAs (Decidable ((w.pc w.current).allocating = false))
  | .fault _ _ => .isTrue trivial
  | .step => .isTrue trivial
  | .write _ _ => .isTrue trivial

theorem BeforeAlloc.of_not_allocating {m : Machine} {pc : FaultPc} (h : BeforeAlloc s m pc)
    (hpc : pc.allocating = false) : m = s := by
  cases pc with
  | alloc => cases hpc
  | _ => exact h

theorem beforeAlloc_self {pc : FaultPc} (hpc : pc.allocating = false) : BeforeAlloc s s pc := by
  cases pc with
  | alloc => cases hpc
  | _ => rfl

theorem Safe.switch {x : FaultSystem} {t : Nat} (h : Safe live x)
    (hpc : (x.pc x.current).allocating = false) :
    Safe live { x with current := t, machine := { x.machine with cr3 := x.cr3 t } } := by
  obtain ⟨⟨s, R, P, owner, htr, hb⟩, halone, hspaces⟩ := h
  have hm := hb.of_not_allocating hpc
  have hall : ∀ t', (x.pc t').allocating = false := by
    intro t'
    by_cases ht : t' = x.current
    · rw [ht]
      exact hpc
    · exact halone t' ht
  have hcr3 : x.cr3 t = s.kernel_cr3 ∨ x.cr3 t ∈ live := by
    rw [← hm]
    exact hspaces t
  refine ⟨⟨MMU_switch_p4 (x.cr3 t) s, R, P, owner, htr.switch hcr3, ?_⟩, fun t' _ => hall t', hspaces⟩
  rw [hm]
  exact beforeAlloc_self (hall t)

theorem fault_system_step_keeps_safe (ev : FaultEvent) (x x' : FaultSystem) (h : Safe live x)
    (hok : AllocUnbroken ev x) (hstep : fault_system_step ev x = some x') : Safe live x' := by
  have halone : ∀ pc t, t ≠ x.current →
      (Function.update x.pc x.current pc t).allocating = false := by
    intro pc t ht
    rw [Function.update_of_ne ht]
    exact h.alone t ht
  cases ev with
  | fault va interrupts =>
    simp only [fault_system_step] at hstep
    split at hstep
    · rename_i hout
      cases hstep
      obtain ⟨s, R, P, owner, htr, hb⟩ := h.tracked
      rw [hout] at hb
      refine ⟨⟨s, R, P, owner, htr.advance trivial, ?_⟩, halone _, h.spaces⟩
      simp only [Function.update_self]
      exact hb
    · cases hstep
  | step =>
    simp only [fault_system_step, Option.bind_eq_bind, Option.bind_eq_some_iff] at hstep
    obtain ⟨⟨pc', m'⟩, hfault, hstep⟩ := hstep
    cases hstep
    obtain ⟨s, R, P, owner, htr, hb⟩ := h.tracked
    obtain ⟨s', R', P', owner', htr', hb', hk⟩ :=
      htr.fault_step (t := x.current) (htr.ok x.current) hb hfault
    refine ⟨⟨s', R', P', owner', htr', ?_⟩, halone _, by rw [hk]; exact h.spaces⟩
    simp only [Function.update_self]
    exact hb'
  | write va v =>
    simp only [fault_system_step] at hstep
    split at hstep
    · rename_i f hout hat
      cases hstep
      obtain ⟨s, R, P, owner, htr, hb⟩ := h.tracked
      rw [hout] at hb
      have hm : x.machine = s := hb
      simp only [Machine.frame_at, travel_pagetable, travel_pagetable_in.of_lookup] at hat
      rcases hlook : lookup x.machine.mem (frameOf x.machine.cr3) va with _ | e
      · simp [hlook] at hat
      · simp only [hlook, Option.ite_none_right_eq_some, Option.some.injEq] at hat
        rw [hm] at hlook hat
        have hspare : Spare s live R f :=
          Or.inr ⟨e, htr.sound.slot_of_lookup hlook, childOf_eq_some.mpr hat⟩
        refine ⟨⟨{ s with mem := setWord s.mem f (wordOf va) v }, R, P, owner,
          htr.scribble hspare _, ?_⟩, h.alone, h.spaces⟩
        rw [hout, hm]
        rfl
    · cases hstep
  | switch t =>
    simp only [fault_system_step] at hstep
    split at hstep
    · cases hstep
      exact h.switch hok
    · split at hstep
      · cases hstep
        exact h.switch hok
      · cases hstep

/-- The page with the page-table entry `e` is present and backed by the frame `f`. -/
def Backs (s : Machine) (live : List Word) (f : Nat) (e : EntryPtr) : Prop :=
  ∃ cr3 va, (cr3 = s.kernel_cr3 ∨ cr3 ∈ live) ∧
    (travel_pagetable_in cr3 va false s).1 = some e ∧
    present (s.entry e) = true ∧ pfn (s.entry e) = f

theorem Sound.leaf_of_backs (h : Sound s live R P) (hb : Backs s live f e) :
    Leaf s live e ∧ childOf (s.entry e) = some f := by
  obtain ⟨cr3, va, hcr3, hwalk, hpage⟩ := hb
  rw [travel_pagetable_in.of_lookup] at hwalk
  exact ⟨(h.switch hcr3).slot_of_lookup hwalk, childOf_eq_some.mpr hpage⟩

theorem BeforeAlloc.same {m : Machine} {pc : FaultPc} (h : BeforeAlloc s m pc) :
    m = { s with usable_regions := m.usable_regions } := by
  cases pc with
  | alloc => exact h.2
  | _ =>
    cases h
    rfl

end

/-- From any sound machine whose threads are all outside of the handler, in every run of page
faults in which no switch strikes inside `MMU_pf_alloc`: no frame backs two pages, and no
frame of the free list backs a page. -/
theorem no_frame_is_handed_out_twice (w0 w : FaultSystem) (live : List Word) (R : Multiset Nat)
    (P : List Nat) (es : List FaultEvent) (h : Sound w0.machine live R P)
    (hout : ∀ t, w0.pc t = .outside)
    (hspaces : ∀ t, w0.cr3 t = w0.machine.kernel_cr3 ∨ w0.cr3 t ∈ live)
    (hmeets : Runs.Meets fault_system_step AllocUnbroken es w0)
    (hrun : Runs.run fault_system_step es w0 = some w) :
    (∀ f e e', Backs w.machine live f e → Backs w.machine live f e' → e = e') ∧
      ∃ chain, FreeList w.machine chain ∧ ∀ f e, Backs w.machine live f e → f ∉ chain := by
  have hstart : Safe live w0 := by
    refine ⟨⟨w0.machine, R, P, fun _ => none, ⟨h, nofun, fun t => ?_⟩, ?_⟩, fun t _ => ?_, hspaces⟩
    · rw [hout t]
      trivial
    · rw [hout]
      rfl
    · rw [hout t]
      rfl
  obtain ⟨s, R', P', owner, htr, hb⟩ := (Runs.run_keeps_of_meets
    (fun ev x x' hx hok hstep => fault_system_step_keeps_safe ev x x' hx hok hstep) hstart hmeets
    hrun).tracked
  have hm := hb.same
  have hback : ∀ f e, Backs w.machine live f e → Leaf s live e ∧ childOf (s.entry e) = some f := by
    intro f e hfe
    refine htr.sound.leaf_of_backs ?_
    obtain ⟨cr3, va, hcr3, hwalk, hpage⟩ := hfe
    rw [travel_pagetable_in.of_lookup] at hwalk
    rw [hm] at hcr3 hwalk hpage
    exact ⟨cr3, va, hcr3, by rw [travel_pagetable_in.of_lookup]; exact hwalk, hpage⟩
  obtain ⟨chain, hchain, hP⟩ := htr.sound.pool.listed
  refine ⟨fun f e e' he he' => ?_, chain, by rw [hm]; exact hchain, fun f e he hf => ?_⟩
  · obtain ⟨hl, hc⟩ := hback f e he
    obtain ⟨hl', hc'⟩ := hback f e' he'
    exact htr.sound.page_unique hl hl' hc hc'
  · obtain ⟨hl, hc⟩ := hback f e he
    refine (htr.sound.page_notMem hl hc).2 ?_
    rw [hP]
    exact List.mem_append_left _ hf

theorem oneSpace_kernelTree : treeFrames oneSpace.mem (kernelTree 1) = {1} := by
  have hroot : (kernelTree 1).root = 1 := rfl
  have hnone : ∀ j ∈ (kernelTree 1).slots, childOf (oneSpace.mem 1 j) = none := by
    intro j hj
    simp [oneSpace, (mem_kernelTree_slots 1).mp hj]
  rw [treeFrames, hroot, forest_eq_zero hnone]
  rfl

theorem oneSpace_sound : Sound oneSpace [0x8000] {2} [32, 33, 34, 35, 36, 37] := by
  have hp4 : oneSpace.ptable_p4 = 1 := rfl
  have h8 : frameOf 0x8000 = 8 := rfl
  have htrees : trees oneSpace.ptable_p4 [0x8000] = [kernelTree 1, userTree 8] := rfl
  have huser : treeFrames oneSpace.mem (userTree 8) = {8, 9, 10, 11, 12} := oneSpace_userFrames
  refine ⟨oneSpace_pool, by decide, ?_, ?_, ?_, ?_, ?_, Or.inl rfl, ?_, 2, by decide, by decide, ?_⟩
  · rw [htrees, grove_cons, grove_cons, oneSpace_kernelTree, huser, grove, List.map_nil,
      List.sum_nil]
    decide
  · rw [htrees]
    intro T hT
    rcases List.mem_cons.mp hT with rfl | hT
    · intro i hi hp
      have hroot : (kernelTree 1).root = 1 := rfl
      rw [hroot] at hp
      simp [oneSpace, (mem_kernelTree_slots 1).mp hi] at hp
    · rw [List.mem_singleton.mp hT]
      exact oneSpace_wellFormed.plain
  · intro cr3 hcr3
    rw [List.mem_singleton.mp hcr3]
    decide
  · intro cr3 hcr3
    rw [List.mem_singleton.mp hcr3]
    decide
  · intro cr3 hcr3
    rw [List.mem_singleton.mp hcr3, h8]
    decide
  · intro cr3 hcr3 i hi
    rw [List.mem_singleton.mp hcr3, h8, hp4]
    have h32 : i ≠ 32 := by
      rintro rfl
      exact hi ((mem_userSlots 32).mpr (by decide))
    simp [oneSpace, h32]
  · intro j
    have hj : oneSpace.mem 2 j = 0x283 := rfl
    rw [hj]
    decide

/-- A fault at a page that is reserved in the address space at 0x8000. -/
theorem handler_alone_oneSpace :
    ∃ s', ISR14_PAGE_FAULT_HANDLER 0x100000001000 { oneSpace with cr3 := 0x8000 } = some s' ∧
      Alone (.walk 0x100000001000, { oneSpace with cr3 := 0x8000 }) (.outside, s') := by
  obtain ⟨s', hrun⟩ := Option.isSome_iff_exists.mp (show (ISR14_PAGE_FAULT_HANDLER 0x100000001000
    { oneSpace with cr3 := 0x8000 }).isSome by decide +kernel)
  exact ⟨s', hrun, handler_alone hrun⟩

/-- Two threads of the address space at 0x8000, both outside of the handler. -/
def two_threads : FaultSystem where
  machine := oneSpace
  pc := fun _ => .outside
  cr3 := fun _ => 0x8000
  interrupts := fun _ => true
  current := 0

/-- The first thread faults and makes `n` steps in the handler. Then the second one faults and makes
`m` steps, and the first one goes on for `k` steps. -/
def two_faults (n m k : Nat) : List FaultEvent :=
  .switch 0 :: .fault 0x100000001000 true :: (List.replicate n .step ++
    .switch 1 :: .fault 0x100000002000 true :: (List.replicate m .step ++
      .switch 0 :: List.replicate k .step))

/-- The first thread is preempted while it zeroes its frame, and the second one takes another. -/
theorem no_frame_is_handed_out_twice_oneSpace :
    ∃ w, Runs.run fault_system_step (two_faults 11 11 3) two_threads = some w ∧
      ∀ f e e', Backs w.machine [0x8000] f e → Backs w.machine [0x8000] f e' → e = e' := by
  have hdone : (Runs.run fault_system_step (two_faults 11 11 3) two_threads).map
      FaultSystem.current = some 0 := by
    decide +kernel
  obtain ⟨w, hrun, _⟩ := Option.map_eq_some_iff.mp hdone
  have hmeets : Runs.Meets fault_system_step AllocUnbroken (two_faults 11 11 3) two_threads := by
    decide +kernel
  exact ⟨w, hrun, (no_frame_is_handed_out_twice two_threads w [0x8000] {2} _ _ oneSpace_sound
    (fun _ => rfl) (fun _ => Or.inr (List.mem_singleton_self _)) hmeets hrun).1⟩

/-- The first thread is preempted inside `MMU_pf_alloc`, after it has read the address of the
region. The second one reads the same address, and in the end the frame there backs both pages. -/
theorem preempted_faults_share_a_frame :
    ∃ w, Runs.run fault_system_step (two_faults 8 527 519) two_threads = some w ∧
      Backs w.machine [0x8000] 32 (11, 1) ∧ Backs w.machine [0x8000] 32 (11, 2) := by
  have hpages : (Runs.run fault_system_step (two_faults 8 527 519) two_threads).map (fun w =>
      ((travel_pagetable_in 0x8000 0x100000001000 false w.machine).1,
        (travel_pagetable_in 0x8000 0x100000002000 false w.machine).1,
        w.machine.entry (11, 1), w.machine.entry (11, 2))) =
      some (some (11, 1), some (11, 2), 0x20201, 0x20201) := by
    decide +kernel
  obtain ⟨w, hrun, hw⟩ := Option.map_eq_some_iff.mp hpages
  simp only [Prod.mk.injEq] at hw
  obtain ⟨hwalk1, hwalk2, he1, he2⟩ := hw
  have hlive : (0x8000 : Word) ∈ [0x8000] := List.mem_singleton_self _
  refine ⟨w, hrun, ⟨_, _, Or.inr hlive, hwalk1, ?_⟩, _, _, Or.inr hlive, hwalk2, ?_⟩
  · rw [he1]
    decide
  · rw [he2]
    decide

end JamsOs
