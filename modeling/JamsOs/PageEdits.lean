-- The edits of a page-table tree. Whatever the page-table code does to an address space,
-- it changes single entries of tables that the address space owns, and it moves frames
-- between these tables and the pool. Each function of `vpages.c` that maps pages is
-- shown to be such an edit.
import JamsOs.Teardown

namespace JamsOs

open Words RadixTree

/-! ## Trees and what they own -/

/-- A P4 with those of its entries that count: the user half of an address space, or the
part of the kernel's P4 that is not the identity mapping. -/
structure Tree where
  root : Nat
  slots : Finset (Fin 512)

/-- The P4 and the frames below those entries. -/
def treeFrames (m : Nat → Frame) (T : Tree) : Multiset Nat :=
  T.root ::ₘ forest childOf T.slots 3 m T.root

/-- The user half of the address space with this P4. -/
def userTree (p4 : Nat) : Tree := ⟨p4, userSlots⟩

/-- The frames of the tree are distinct and none of them is free, and it maps no huge page.
The free frames have physical addresses of 52 bits. -/
structure Owns (T : Tree) (s : Machine) (P : List Nat) : Prop where
  pool : Pool s P
  small : ∀ f ∈ P, f < 2 ^ 40
  nodup : (treeFrames s.mem T + ↑P).Nodup
  plain : ∀ i ∈ T.slots, Plain false 3 s.mem (s.mem T.root i)

/-- The machine `s'` comes from `s` by changes of the tree `T` alone. The frames of the tree
and the free frames stay the same in total, and no other frame is written. -/
structure Edit (T : Tree) (s : Machine) (P : List Nat) (s' : Machine) (P' : List Nat) : Prop where
  owns : Owns T s' P'
  total : treeFrames s'.mem T + ↑P' = treeFrames s.mem T + ↑P
  off : ∀ f, f ∉ treeFrames s.mem T → f ∉ P → s'.mem f = s.mem f
  low : ∀ i, i ∉ T.slots → s'.mem T.root i = s.mem T.root i
  regs : SameRegs s s'

section

variable {T : Tree} {s s1 s' : Machine} {P P1 P' : List Nat} {k t : Nat} {i : Fin 512}

theorem Edit.refl (h : Owns T s P) : Edit T s P s P :=
  ⟨h, rfl, fun _ _ _ => rfl, fun _ _ => rfl, SameRegs.refl s⟩

theorem Edit.trans (h : Edit T s P s1 P1) (h' : Edit T s1 P1 s' P') : Edit T s P s' P' := by
  refine ⟨h'.owns, h'.total.trans h.total, ?_, ?_, h.regs.trans h'.regs⟩
  · intro f hf hP
    have hf1 : f ∉ treeFrames s1.mem T + ↑P1 := by
      rw [h.total, Multiset.mem_add, not_or]
      exact ⟨hf, hP⟩
    rw [Multiset.mem_add, not_or] at hf1
    rw [h'.off f hf1.1 hf1.2, h.off f hf hP]
  · intro i hi
    rw [h'.low i hi, h.low i hi]

/-- The frames of the tree and the free frames stay the same in total, and no other frame is
written. The variables of the kernel and the flags may change. -/
structure Exchanged (T : Tree) (s : Machine) (P : List Nat) (s' : Machine) (P' : List Nat) : Prop where
  total : treeFrames s'.mem T + ↑P' = treeFrames s.mem T + ↑P
  off : ∀ f, f ∉ treeFrames s.mem T → f ∉ P → s'.mem f = s.mem f
  kernel_cr3 : s'.kernel_cr3 = s.kernel_cr3
  cr3 : s'.cr3 = s.cr3

theorem Edit.exchanged (h : Edit T s P s' P') : Exchanged T s P s' P' :=
  ⟨h.total, h.off, h.regs.kernel_cr3, h.regs.cr3⟩

theorem Exchanged.refl (T : Tree) (s : Machine) (P : List Nat) : Exchanged T s P s P :=
  ⟨rfl, fun _ _ _ => rfl, rfl, rfl⟩

theorem Exchanged.trans (h : Exchanged T s P s1 P1) (h' : Exchanged T s1 P1 s' P') :
    Exchanged T s P s' P' := by
  refine ⟨h'.total.trans h.total, fun f hf hP => ?_, h'.kernel_cr3.trans h.kernel_cr3,
    h'.cr3.trans h.cr3⟩
  have hf1 : f ∉ treeFrames s1.mem T + ↑P1 := by
    rw [h.total, Multiset.mem_add, not_or]
    exact ⟨hf, hP⟩
  rw [Multiset.mem_add, not_or] at hf1
  rw [h'.off f hf1.1 hf1.2, h.off f hf hP]

theorem Owns.tree_nodup (h : Owns T s P) : (treeFrames s.mem T).Nodup :=
  (Multiset.nodup_add.mp h.nodup).1

theorem Owns.notMem_pool {f : Nat} (h : Owns T s P) (hf : f ∈ treeFrames s.mem T) : f ∉ P :=
  Multiset.disjoint_left.mp (Multiset.nodup_add.mp h.nodup).2.2 hf

/-- Huge pages after the change of one entry of a tree. -/
theorem NoBig.kept {m m' : Nat → Frame} {K r : Nat} (hat : At childOf m K r (k + 1) t)
    (hnd : (frames childOf K m r).Nodup) (h : NoBig K m r) (hrow : ∀ j, j ≠ i → m' t j = m t j)
    (hoff : ∀ f ∈ frames childOf K m r, f ≠ t → f ∉ sub childOf k m (m t i) → m' f = m f)
    (hnew : 0 < k → Plain true k m' (m' t i)) : NoBig K m' r := by
  generalize hk : k + 1 = n at hat
  induction hat with
  | here =>
    subst hk
    rename_i t
    cases k with
    | zero => trivial
    | succ k =>
      intro j hj
      by_cases hji : j = i
      · subst hji
        obtain ⟨hb, hn⟩ := hnew (by omega) hj
        exact ⟨hb rfl, hn⟩
      · rw [hrow j hji] at hj ⊢
        obtain ⟨hb, hn⟩ := h j hj
        refine ⟨hb, hn.congr fun f hf => ?_⟩
        have hfj : f ∈ sub childOf (k + 1) m (m t j) := by
          rw [sub_of_some (childOf_of_present hj)]
          exact mem_frames_of_mem_tables hf
        have hfor : f ∈ forest childOf Finset.univ (k + 1) m t :=
          mem_forest_of_mem_sub (Finset.mem_univ j) hfj
        refine hoff f ?_ (fun he => root_notMem_forest hnd (he ▸ hfor)) ?_
        · rw [frames_succ]
          exact Multiset.mem_cons_of_mem hfor
        · intro hfi
          exact notMem_sub_of_ne (forest_nodup hnd) (Finset.mem_univ i) (Finset.mem_univ j) hji
            hfi hfj
  | @down K r n t c j hc hat ih =>
    subst hk
    rw [frames_succ] at hnd hoff
    have hmr : m' r = m r := root_kept hnd (Finset.mem_univ j) hc hat hoff
    have hcn := child_nodup hnd (Finset.mem_univ j) hc
    cases K with
    | zero => cases hat
    | succ K =>
      intro j' hj'
      rw [hmr] at hj' ⊢
      obtain ⟨hb, hn⟩ := h j' hj'
      refine ⟨hb, ?_⟩
      by_cases hjj : j' = j
      · subst hjj
        rw [(childOf_eq_some.mp hc).2] at hn ⊢
        refine ih hcn hn hrow (fun f hf => hoff f ?_) hnew rfl
        exact Multiset.mem_cons_of_mem (mem_forest_of_child (Finset.mem_univ j') hc hf)
      · refine hn.congr fun f hf => ?_
        refine other_kept hnd (Finset.mem_univ j) hc hat hoff (Finset.mem_univ j') hjj ?_
        rw [sub_of_some (childOf_of_present hj')]
        exact mem_frames_of_mem_tables hf

/-- The entry is one of the tree, and leads to trees of height `k`. -/
abbrev TreeSlot (T : Tree) (m : Nat → Frame) (k t : Nat) (i : Fin 512) : Prop :=
  SlotAt childOf m T.slots 3 T.root k t i

section

variable (h : Owns T s P) (hslot : TreeSlot T s.mem k t i)

include h hslot

theorem plain_of_slot (hrow : ∀ j, j ≠ i → s'.mem t j = s.mem t j)
    (hoff : ∀ f ∈ treeFrames s.mem T, f ≠ t → f ∉ sub childOf k s.mem (s.mem t i) →
      s'.mem f = s.mem f)
    (hnew : Plain (hasBig k) k s'.mem (s'.mem t i)) :
    ∀ j ∈ T.slots, Plain false 3 s'.mem (s'.mem T.root j) := by
  intro j hj
  obtain ⟨hr, hfor⟩ := Multiset.nodup_cons.mp h.tree_nodup
  have hin : ∀ f ∈ sub childOf 3 s.mem (s.mem T.root j), f ∈ forest childOf T.slots 3 s.mem T.root :=
    fun f hf => mem_forest_of_mem_sub hj hf
  cases hslot with
  | root hi =>
    by_cases hji : j = i
    · subst hji
      exact hnew
    · rw [hrow j hji]
      refine (h.plain j hj).congr fun f hf => ?_
      exact hoff f (Multiset.mem_cons_of_mem (hin f hf)) (fun he => hr (he ▸ hin f hf))
        fun hfi => notMem_sub_of_ne hfor hi hj hji hfi hf
  | @below j0 _ c _ _ hj0 hc hat =>
    have hmr : s'.mem T.root = s.mem T.root := root_kept h.tree_nodup hj0 hc hat hoff
    rw [hmr]
    by_cases hjj : j = j0
    · subst hjj
      intro hp
      obtain ⟨_, hpc⟩ := childOf_eq_some.mp hc
      obtain ⟨hb, hn⟩ := h.plain j hj hp
      refine ⟨hb, ?_⟩
      rw [hpc] at hn ⊢
      refine hn.kept hat (child_nodup h.tree_nodup hj hc) hrow (fun f hf => hoff f ?_) ?_
      · exact Multiset.mem_cons_of_mem (mem_forest_of_child hj hc hf)
      intro hk hp'
      have hk3 := hat.height_le
      have hbig : hasBig k = true := by
        unfold hasBig
        simp
        omega
      obtain ⟨hb', hn'⟩ := hnew hp'
      exact ⟨fun _ => hb' hbig, hn'⟩
    · exact (h.plain j hj).congr fun f hf => other_kept h.tree_nodup hj0 hc hat hoff hj hjj hf

/-- One entry of a tree changes, and the frames below it and the free frames stay the same in
total: every change that the page-table code makes is of this kind. -/
theorem edit_of_slot (hrow : ∀ j, j ≠ i → s'.mem t j = s.mem t j)
    (hoff : ∀ f, f ≠ t → f ∉ sub childOf k s.mem (s.mem t i) → f ∉ P → s'.mem f = s.mem f)
    (hpool : Pool s' P') (hsmall : ∀ f ∈ P', f < 2 ^ 40)
    (hex : sub childOf k s'.mem (s'.mem t i) + ↑P' = sub childOf k s.mem (s.mem t i) + ↑P)
    (hnew : Plain (hasBig k) k s'.mem (s'.mem t i)) (hregs : SameRegs s s') :
    Edit T s P s' P' := by
  have hoffT : ∀ f ∈ treeFrames s.mem T, f ≠ t → f ∉ sub childOf k s.mem (s.mem t i) →
      s'.mem f = s.mem f := fun f hf hft hfs => hoff f hft hfs (h.notMem_pool hf)
  have hexT := forest_exchange_at hslot h.tree_nodup hrow hoffT
  have htotal : treeFrames s'.mem T + ↑P' = treeFrames s.mem T + ↑P := by
    unfold treeFrames
    rw [Multiset.cons_add, Multiset.cons_add]
    refine congrArg _ (add_right_cancel (b := sub childOf k s.mem (s.mem t i)) ?_)
    rw [add_right_comm, hexT, add_assoc, hex, add_assoc, add_comm (↑P : Multiset Nat)]
  refine ⟨⟨hpool, hsmall, by rw [htotal]; exact h.nodup, plain_of_slot h hslot hrow hoffT hnew⟩,
    htotal, ?_, ?_, hregs⟩
  · intro f hf hP
    refine hoff f (fun he => hf (he ▸ hslot.table_mem)) (fun hm => ?_) hP
    exact hf (Multiset.mem_cons_of_mem (hslot.sub_subset hm))
  · intro j hj
    cases hslot with
    | root hi => exact hrow j fun he => hj (he ▸ hi)
    | @below j0 _ c _ _ hj0 hc hat =>
      have hmr : s'.mem T.root = s.mem T.root := root_kept h.tree_nodup hj0 hc hat hoffT
      rw [hmr]

/-- A table below the P4 is not the P4. -/
theorem Owns.root_ne (hk : k ≠ 3) : T.root ≠ t :=
  (hslot.table_ne_root h.tree_nodup hk).symm

theorem slot_kept
    (hoff : ∀ f, f ≠ t → f ∉ sub childOf k s.mem (s.mem t i) → f ∉ P → s'.mem f = s.mem f) :
    TreeSlot T s'.mem k t i :=
  hslot.kept h.tree_nodup fun f hf hft hfs => hoff f hft hfs (h.notMem_pool hf)

end

/-! ## A new frame below an entry -/

/-- The frame `c` was taken from the pool and zeroed, and the entry was set to `w`. -/
structure TookFrame (s : Machine) (t : Nat) (i : Fin 512) (c : Nat) (P : List Nat) (w : Word)
    (s' : Machine) : Prop where
  pool : Pool s' P
  mem : s'.mem = setWord (Function.update s.mem c fun _ => 0) t i w
  regs : SameRegs s s'

section

variable {c : Nat} {w : Word}

theorem Owns.table_ne (h : Owns T s (c :: P)) (hslot : TreeSlot T s.mem k t i) : t ≠ c :=
  fun he => h.notMem_pool hslot.table_mem (he ▸ List.mem_cons_self)

/-- The allocation and the two writes that follow it. -/
theorem link_frame (h : Owns T s (c :: P)) (hslot : TreeSlot T s.mem k t i) :
    ∃ s1, MMU_pf_alloc s = (frameAddr c, s1) ∧ (s1.zero_frame c).entry (t, i) = s.mem t i ∧
      ∀ w, TookFrame s t i c P w ((s1.zero_frame c).set_entry (t, i) w) := by
  have hct := h.table_ne hslot
  have hcP : c ∉ P := (List.nodup_cons.mp (Multiset.nodup_add.mp h.nodup).2.1).1
  obtain ⟨s1, heq, hpool, hmem, hregs⟩ := MMU_pf_alloc.spec_take h.pool
  refine ⟨s1, heq, ?_, fun w => ⟨?_, ?_, ?_⟩⟩
  · simp only [Machine.entry, zero_frame_mem, Function.update_of_ne hct, hmem]
  · refine (hpool.zero_frame hcP).set_entry (fun hm => ?_) _
    exact h.notMem_pool hslot.table_mem (List.mem_cons_of_mem _ hm)
  · rw [set_entry_mem, zero_frame_mem, hmem]
  · exact (hregs.trans (SameRegs.zero_frame s1 c)).trans (SameRegs.set_entry _ _ _)

section

variable (hl : TookFrame s t i c P w s')

include hl

theorem TookFrame.entry : s'.mem t i = w := by
  rw [hl.mem, setWord_same]

theorem TookFrame.zero (hct : t ≠ c) : s'.mem c = fun _ => 0 := by
  rw [hl.mem, setWord_of_ne hct.symm, Function.update_self]

theorem TookFrame.row (hct : t ≠ c) (j : Fin 512) (hj : j ≠ i) :
    s'.mem t j = s.mem t j := by
  rw [hl.mem, setWord_word_of_ne _ _ hj, Function.update_of_ne hct]

theorem TookFrame.off (f : Nat) (hft : f ≠ t) (hf : f ∉ c :: P) :
    s'.mem f = s.mem f := by
  have hfc : f ≠ c := fun he => hf (he ▸ List.mem_cons_self)
  rw [hl.mem, setWord_of_ne hft, Function.update_of_ne hfc]

/-- An entry that led nowhere leads to the new frame. -/
theorem TookFrame.edit (h : Owns T s (c :: P)) (hslot : TreeSlot T s.mem k t i)
    (hold : childOf (s.mem t i) = none) (hchild : childOf w = some c)
    (hbig : hasBig k = true → big_page w = false) :
    Edit T s (c :: P) s' P := by
  have hct := h.table_ne hslot
  have hzero : ∀ j, childOf (s'.mem c j) = none := by
    intro j
    rw [hl.zero hct]
    exact childOf_zero
  have hframes : frames childOf k s'.mem c = {c} := by
    cases k with
    | zero => exact frames_zero _ _
    | succ k =>
      rw [frames_succ, forest_eq_zero fun j _ => hzero j]
      rfl
  refine edit_of_slot h hslot (hl.row hct) (fun f hft _ hf => hl.off f hft hf) hl.pool
    (fun f hf => h.small f (List.mem_cons_of_mem _ hf)) ?_ ?_ hl.regs
  · rw [hl.entry, sub_of_none hold, sub_of_some hchild, hframes, zero_add, Multiset.singleton_add]
    rfl
  · rw [hl.entry]
    intro _
    refine ⟨hbig, ?_⟩
    rw [(childOf_eq_some.mp hchild).2]
    cases k with
    | zero => trivial
    | succ k =>
      cases k with
      | zero => trivial
      | succ k =>
        intro j hj
        rw [hl.zero hct] at hj
        simp at hj

theorem TookFrame.slot (h : Owns T s (c :: P)) (hslot : TreeSlot T s.mem k t i) :
    TreeSlot T s'.mem k t i :=
  slot_kept h hslot fun f hf _ => hl.off f hf

end

end

/-! ## The walk -/

/-- The table is there already, or it cannot be made, or it is made of the first free frame. -/
theorem get_or_alloc_entry.cases (h : Owns T s P) (hslot : TreeSlot T s.mem (k + 1) t i)
    (user : Bool) :
    (∃ c, childOf (s.mem t i) = some c ∧
      get_or_alloc_entry (hasBig (k + 1)) (t, i) user s = (some c, s)) ∨
    childOf (s.mem t i) = none ∧ (P = [] ∧
        get_or_alloc_entry (hasBig (k + 1)) (t, i) user s = (none, s) ∨
      ∃ c P' w s', P = c :: P' ∧
        get_or_alloc_entry (hasBig (k + 1)) (t, i) user s = (some c, s') ∧
        TookFrame s t i c P' w s' ∧ childOf w = some c ∧ allocated w = true ∧
        (hasBig (k + 1) = true → big_page w = false)) := by
  unfold get_or_alloc_entry
  by_cases hp : present (s.entry (t, i)) = true
  · simp only [hp, Bool.not_true, Bool.false_eq_true, if_false]
    exact Or.inl ⟨_, childOf_of_present hp, rfl⟩
  have hp' : present (s.mem t i) = false := by simpa [Machine.entry] using hp
  refine Or.inr ⟨childOf_of_absent hp', ?_⟩
  simp only [hp, Bool.not_false, if_true]
  cases P with
  | nil =>
    simp only [MMU_pf_alloc.spec_nil h.pool, if_true]
    exact Or.inl ⟨trivial, trivial⟩
  | cons c P =>
    have hc40 := h.small c List.mem_cons_self
    have hc52 := h.pool.small c List.mem_cons_self
    obtain ⟨s1, heq, hentry, hlink⟩ := link_frame h hslot
    simp only [heq, frameAddr_ne_invalid hc52, if_false, phys_to_pfn, frameOf_frameAddr hc52, hentry]
    obtain ⟨w, hw⟩ : ∃ w, w = link_entry (hasBig (k + 1)) (s.mem t i) (frameAddr c) user := ⟨_, rfl⟩
    have hchild : childOf w = some c := by
      rw [hw, childOf_link_entry (by rw [frameOf_frameAddr hc52]; exact hc40),
        frameOf_frameAddr hc52]
    rw [← hw]
    refine Or.inr ⟨c, P, w, _, rfl, ?_, hlink w, hchild, ?_, ?_⟩
    · rw [Machine.entry, (hlink w).entry, (childOf_eq_some.mp hchild).2]
    · rw [hw]
      exact allocated_link_entry _ _ _ _
    · intro hb
      rw [hw, hb]
      exact big_page_link_entry _ _ _

theorem get_or_alloc_entry.spec (h : Owns T s P) (hslot : TreeSlot T s.mem (k + 1) t i)
    (user : Bool) :
    ∃ r s' P', get_or_alloc_entry (hasBig (k + 1)) (t, i) user s = (r, s') ∧ Edit T s P s' P' ∧
      TreeSlot T s'.mem (k + 1) t i ∧ (∀ c, r = some c → childOf (s'.mem t i) = some c) ∧
      ∀ f, f ≠ t → f ∉ P → s'.mem f = s.mem f := by
  rcases get_or_alloc_entry.cases h hslot user with ⟨c, hc, hrun⟩ | ⟨hnone, ⟨_, hrun⟩ | hnew⟩
  · refine ⟨_, s, P, hrun, Edit.refl h, hslot, ?_, fun _ _ _ => rfl⟩
    intro c' hc'
    cases hc'
    exact hc
  · exact ⟨none, s, P, hrun, Edit.refl h, hslot, nofun, fun _ _ _ => rfl⟩
  · obtain ⟨c, P', w, s', rfl, hrun, hl, hchild, _, hbig⟩ := hnew
    refine ⟨_, s', P', hrun, hl.edit h hslot hnone hchild hbig, hl.slot h hslot, ?_, hl.off⟩
    intro c' hc'
    cases hc'
    rw [hl.entry]
    exact hchild

theorem travel_level.spec (h : Owns T s P) (hslot : TreeSlot T s.mem (k + 1) t i)
    (create user : Bool) :
    ∃ r s' P', travel_level (hasBig (k + 1)) (get_or_alloc_entry (hasBig (k + 1))) create (t, i)
        user s = (r, s') ∧ Edit T s P s' P' ∧
      TreeSlot T s'.mem (k + 1) t i ∧ (∀ c, r = some c → childOf (s'.mem t i) = some c) ∧
      ∀ f, f ≠ t → f ∉ P → s'.mem f = s.mem f := by
  have hstop : ∃ r s' P', ((none, s) : Option Nat × Machine) = (r, s') ∧ Edit T s P s' P' ∧
      TreeSlot T s'.mem (k + 1) t i ∧ (∀ c, r = some c → childOf (s'.mem t i) = some c) ∧
      ∀ f, f ≠ t → f ∉ P → s'.mem f = s.mem f :=
    ⟨none, s, P, rfl, Edit.refl h, hslot, nofun, fun _ _ _ => rfl⟩
  unfold travel_level
  split
  · exact hstop
  · split
    · split
      · exact get_or_alloc_entry.spec h hslot user
      · exact hstop
    · exact get_or_alloc_entry.spec h hslot user

/-- The walk from the PDPT on. -/
def travel_below (va : Word) (create : Bool) (pdpt : Nat) (s : Machine) : Option EntryPtr × Machine :=
  let is_user := decide (VA_USER_BASE ≤ va)
  match travel_level true get_or_alloc_PD_entry create (pdpt, PDP_INDEX va) is_user s with
  | (none, s) => (none, s)
  | (some pd, s) =>
    match travel_level true get_or_alloc_PT_entry create (pd, PD_INDEX va) is_user s with
    | (none, s) => (none, s)
    | (some pt, s) => (some (pt, PT_INDEX va), s)

theorem travel_pagetable_in_eq (cr3 va : Word) (create : Bool) (s : Machine) :
    travel_pagetable_in cr3 va create s =
      match travel_level false get_or_alloc_PDPT_entry create (frameOf cr3, PML4_INDEX va)
        (decide (VA_USER_BASE ≤ va)) s with
      | (none, s) => (none, s)
      | (some pdpt, s) => travel_below va create pdpt s := by
  unfold travel_pagetable_in
  rfl

/-- The walk from the PDPT on changes only the tree, and never the P4. -/
theorem travel_below.spec {pdpt : Nat} (h : Owns T s P)
    (hslots : ∀ j, TreeSlot T s.mem 2 pdpt j) (va : Word) (create : Bool) :
    ∃ r s' P', travel_below va create pdpt s = (r, s') ∧ Edit T s P s' P' ∧
      (∀ e, r = some e → TreeSlot T s'.mem 0 e.1 e.2) ∧ s'.mem T.root = s.mem T.root := by
  obtain ⟨r1, s1, P1, hrun1, hedit1, hslot1, hchild1, hoff1⟩ :=
    travel_level.spec h (hslots (PDP_INDEX va)) create (decide (VA_USER_BASE ≤ va))
  have hrun1 : travel_level true get_or_alloc_PD_entry create (pdpt, PDP_INDEX va)
    (decide (VA_USER_BASE ≤ va)) s = (r1, s1) := hrun1
  have hroot1 : s1.mem T.root = s.mem T.root :=
    hoff1 _ (h.root_ne (hslots 0) (by omega)) (h.notMem_pool (Multiset.mem_cons_self _ _))
  unfold travel_below
  rcases r1 with _ | pd
  · simp only [hrun1]
    exact ⟨none, s1, P1, rfl, hedit1, nofun, hroot1⟩
  have hpd := hslot1.into (hchild1 pd rfl) (PD_INDEX va)
  obtain ⟨r2, s2, P2, hrun2, hedit2, hslot2, hchild2, hoff2⟩ :=
    travel_level.spec hedit1.owns hpd create (decide (VA_USER_BASE ≤ va))
  have hrun2 : travel_level true get_or_alloc_PT_entry create (pd, PD_INDEX va)
    (decide (VA_USER_BASE ≤ va)) s1 = (r2, s2) := hrun2
  have hroot2 : s2.mem T.root = s.mem T.root := by
    rw [hoff2 _ (hedit1.owns.root_ne hpd (by omega))
      (hedit1.owns.notMem_pool (Multiset.mem_cons_self _ _)), hroot1]
  simp only [hrun1, hrun2]
  rcases r2 with _ | pt
  · exact ⟨none, s2, P2, rfl, hedit1.trans hedit2, nofun, hroot2⟩
  · refine ⟨_, s2, P2, rfl, hedit1.trans hedit2, ?_, hroot2⟩
    intro e he
    cases he
    exact hslot2.into (hchild2 pt rfl) (PT_INDEX va)

theorem travel_level.of_present (has_big create user : Bool) {e : EntryPtr}
    (hp : present (s.entry e) = true) (hb : (has_big && big_page (s.entry e)) = false) :
    travel_level has_big (get_or_alloc_entry has_big) create e user s =
      (some (pfn (s.entry e)), s) := by
  simp [travel_level, get_or_alloc_entry, hp, hb]

/-- A walk whose P4 entry is there goes on at the PDPT. -/
theorem travel_pagetable_in.of_present {cr3 va : Word} {pdpt : Nat} (create : Bool)
    (hc : childOf (s.mem (frameOf cr3) (PML4_INDEX va)) = some pdpt) :
    travel_pagetable_in cr3 va create s = travel_below va create pdpt s := by
  obtain ⟨hp, hpfn⟩ := childOf_eq_some.mp hc
  have htop := travel_level.of_present (s := s) (e := (frameOf cr3, PML4_INDEX va)) false create
    (decide (VA_USER_BASE ≤ va)) hp rfl
  have htop : travel_level false get_or_alloc_PDPT_entry create (frameOf cr3, PML4_INDEX va)
    (decide (VA_USER_BASE ≤ va)) s = (some (pfn (s.mem (frameOf cr3) (PML4_INDEX va))), s) := htop
  rw [travel_pagetable_in_eq, htop, hpfn]

/-- A walk ends at a PDPT of huge pages. -/
theorem travel_pagetable_in.of_huge {cr3 va : Word} {pdpt : Nat} (create : Bool)
    (hc : childOf (s.mem (frameOf cr3) (PML4_INDEX va)) = some pdpt)
    (hbig : ∀ j, present (s.mem pdpt j) = true ∧ big_page (s.mem pdpt j) = true) :
    travel_pagetable_in cr3 va create s = (none, s) := by
  obtain ⟨hp, hb⟩ := hbig (PDP_INDEX va)
  rw [travel_pagetable_in.of_present create hc]
  simp [travel_below, travel_level, Machine.entry, hp, hb]

/-- The P4 entry is not of the tree: it leads to a PDPT of huge pages that has another use, as the
identity mapping does. -/
structure Blocked (T : Tree) (s : Machine) (P : List Nat) (i : Fin 512) (pdpt : Nat) : Prop where
  other : i ∉ T.slots
  child : childOf (s.mem T.root i) = some pdpt
  notMem_tree : pdpt ∉ treeFrames s.mem T
  notMem_pool : pdpt ∉ P
  huge : ∀ j, present (s.mem pdpt j) = true ∧ big_page (s.mem pdpt j) = true

/-- A walk through this P4 entry stays in the tree, or ends at once. -/
def Reach (T : Tree) (s : Machine) (P : List Nat) (i : Fin 512) : Prop :=
  i ∈ T.slots ∨ ∃ pdpt, Blocked T s P i pdpt

theorem Edit.reach (h : Edit T s P s' P') (hr : Reach T s P i) : Reach T s' P' i := by
  rcases hr with hi | ⟨pdpt, hb⟩
  · exact Or.inl hi
  · have hmem : pdpt ∉ treeFrames s'.mem T + ↑P' := by
      rw [h.total, Multiset.mem_add, not_or]
      exact ⟨hb.notMem_tree, hb.notMem_pool⟩
    rw [Multiset.mem_add, not_or] at hmem
    refine Or.inr ⟨pdpt, hb.other, ?_, hmem.1, hmem.2, ?_⟩
    · rw [h.low i hb.other]
      exact hb.child
    · rw [h.off pdpt hb.notMem_tree hb.notMem_pool]
      exact hb.huge

/-- The walk changes only the tree that it walks in, and ends at a page-table entry of it. -/
theorem travel_pagetable_in.spec {cr3 va : Word} (h : Owns T s P) (hroot : frameOf cr3 = T.root)
    (hva : Reach T s P (PML4_INDEX va)) (create : Bool) :
    ∃ r s' P', travel_pagetable_in cr3 va create s = (r, s') ∧ Edit T s P s' P' ∧
      ∀ e, r = some e → TreeSlot T s'.mem 0 e.1 e.2 := by
  rcases hva with hva | ⟨pdpt, hb⟩
  swap
  · have hc := hb.child
    rw [← hroot] at hc
    exact ⟨none, s, P, travel_pagetable_in.of_huge create hc hb.huge, Edit.refl h, nofun⟩
  rw [travel_pagetable_in_eq, hroot]
  obtain ⟨r1, s1, P1, hrun1, hedit1, hslot1, hchild1, _⟩ :=
    travel_level.spec h (.root hva) create (decide (VA_USER_BASE ≤ va))
  have hrun1 : travel_level false get_or_alloc_PDPT_entry create (T.root, PML4_INDEX va)
    (decide (VA_USER_BASE ≤ va)) s = (r1, s1) := hrun1
  rw [hrun1]
  rcases r1 with _ | pdpt
  · exact ⟨none, s1, P1, rfl, hedit1, nofun⟩
  · obtain ⟨r, s', P', hrun, hedit, hslot, _⟩ :=
      travel_below.spec hedit1.owns (hslot1.into (hchild1 pdpt rfl)) va create
    exact ⟨r, s', P', hrun, hedit1.trans hedit, hslot⟩

/-! ## The walk without `CREATE_MODE` -/

/-- The table that an entry leads to. -/
def nextTable (k : Nat) (w : Word) : Option Nat := if leads k w then some (pfn w) else none

/-- The walk from the PDPT on, as a function of the memory. -/
def lookup_below (m : Nat → Frame) (pdpt : Nat) (va : Word) : Option EntryPtr := do
  let pd ← nextTable 2 (m pdpt (PDP_INDEX va))
  let pt ← nextTable 1 (m pd (PD_INDEX va))
  some (pt, PT_INDEX va)

/-- The walk, as a function of the memory. -/
def lookup (m : Nat → Frame) (p4 : Nat) (va : Word) : Option EntryPtr := do
  let pdpt ← nextTable 3 (m p4 (PML4_INDEX va))
  lookup_below m pdpt va

theorem travel_level.of_lookup (k : Nat) (e : EntryPtr) (user : Bool) (s : Machine) :
    travel_level (hasBig k) (get_or_alloc_entry (hasBig k)) false e user s =
      (nextTable k (s.entry e), s) := by
  unfold travel_level get_or_alloc_entry nextTable leads
  cases hp : present (s.entry e) with
  | false => simp
  | true =>
    cases hb : (hasBig k && big_page (s.entry e)) with
    | false => simp [hb]
    | true => simp [hb]

theorem travel_below.of_lookup (va : Word) (pdpt : Nat) (s : Machine) :
    travel_below va false pdpt s = (lookup_below s.mem pdpt va, s) := by
  have h2 := travel_level.of_lookup 2 (pdpt, PDP_INDEX va) (decide (VA_USER_BASE ≤ va)) s
  have h2 : travel_level true get_or_alloc_PD_entry false (pdpt, PDP_INDEX va)
    (decide (VA_USER_BASE ≤ va)) s = (nextTable 2 (s.mem pdpt (PDP_INDEX va)), s) := h2
  unfold travel_below lookup_below
  simp only [h2]
  rcases nextTable 2 (s.mem pdpt (PDP_INDEX va)) with _ | pd
  · rfl
  have h1 := travel_level.of_lookup 1 (pd, PD_INDEX va) (decide (VA_USER_BASE ≤ va)) s
  have h1 : travel_level true get_or_alloc_PT_entry false (pd, PD_INDEX va)
    (decide (VA_USER_BASE ≤ va)) s = (nextTable 1 (s.mem pd (PD_INDEX va)), s) := h1
  simp only [h1, Option.bind_eq_bind, Option.bind_some]
  rcases nextTable 1 (s.mem pd (PD_INDEX va)) with _ | pt
  · rfl
  · rfl

theorem travel_pagetable_in.of_lookup (cr3 va : Word) (s : Machine) :
    travel_pagetable_in cr3 va false s = (lookup s.mem (frameOf cr3) va, s) := by
  have h3 := travel_level.of_lookup 3 (frameOf cr3, PML4_INDEX va) (decide (VA_USER_BASE ≤ va)) s
  have h3 : travel_level false get_or_alloc_PDPT_entry false (frameOf cr3, PML4_INDEX va)
    (decide (VA_USER_BASE ≤ va)) s = (nextTable 3 (s.mem (frameOf cr3) (PML4_INDEX va)), s) := h3
  rw [travel_pagetable_in_eq, h3]
  unfold lookup
  rcases nextTable 3 (s.mem (frameOf cr3) (PML4_INDEX va)) with _ | pdpt
  · rfl
  · exact travel_below.of_lookup va pdpt s

theorem childOf_of_nextTable {w : Word} {c : Nat} (h : nextTable k w = some c) :
    leads k w = true ∧ childOf w = some c := by
  unfold nextTable at h
  split at h
  · rename_i hl
    cases h
    exact ⟨hl, childOf_of_leads hl⟩
  · cases h

theorem lookup_eq_some {m : Nat → Frame} {p4 : Nat} {e : EntryPtr}
    {va : Word} (h : lookup m p4 va = some e) :
    ∃ pdpt pd, nextTable 3 (m p4 (PML4_INDEX va)) = some pdpt ∧
      nextTable 2 (m pdpt (PDP_INDEX va)) = some pd ∧
      nextTable 1 (m pd (PD_INDEX va)) = some e.1 ∧ e.2 = PT_INDEX va := by
  unfold lookup lookup_below at h
  obtain ⟨pdpt, h3, h⟩ := Option.bind_eq_some_iff.mp h
  obtain ⟨pd, h2, h⟩ := Option.bind_eq_some_iff.mp h
  obtain ⟨pt, h1, h⟩ := Option.bind_eq_some_iff.mp h
  cases h
  exact ⟨pdpt, pd, h3, h2, h1, rfl⟩

theorem slot_of_lookup {va : Word} {e : EntryPtr} (hva : PML4_INDEX va ∈ T.slots)
    (hlook : lookup s.mem T.root va = some e) : TreeSlot T s.mem 0 e.1 e.2 := by
  obtain ⟨pdpt, pd, h3, h2, h1, _⟩ := lookup_eq_some hlook
  have hs3 : TreeSlot T s.mem 3 T.root (PML4_INDEX va) := .root hva
  have hs2 := hs3.into (childOf_of_nextTable h3).2 (PDP_INDEX va)
  have hs1 := hs2.into (childOf_of_nextTable h2).2 (PD_INDEX va)
  exact hs1.into (childOf_of_nextTable h1).2 e.2

/-! ## Reserving and backing pages -/

/-- A page-table entry that names no frame is overwritten by another one. -/
theorem edit_of_reserved {e : EntryPtr} {w : Word} (h : Owns T s P)
    (hslot : TreeSlot T s.mem 0 e.1 e.2) (hold : childOf (s.entry e) = none)
    (hw : childOf w = none) : Edit T s P (s.set_entry e w) P := by
  have hti : (s.set_entry e w).mem e.1 e.2 = w := setWord_same _ _ _ _
  have hold : childOf (s.mem e.1 e.2) = none := hold
  refine edit_of_slot h hslot ?_ ?_ (h.pool.set_entry (h.notMem_pool hslot.table_mem) w) h.small
    ?_ ?_ (SameRegs.set_entry _ _ _)
  · exact fun j hj => setWord_word_of_ne _ _ hj _
  · exact fun f hf _ _ => setWord_of_ne hf _ _
  · rw [hti, sub_of_none hw, sub_of_none hold]
  · intro _
    exact ⟨nofun, trivial⟩

theorem demand_page_in.spec {cr3 va : Word} (h : Owns T s P) (hroot : frameOf cr3 = T.root)
    (hva : Reach T s P (PML4_INDEX va)) :
    ∃ r s' P', demand_page_in cr3 va s = (r, s') ∧ Edit T s P s' P' := by
  obtain ⟨r1, s1, P1, hrun1, hedit1, hslot1⟩ := travel_pagetable_in.spec h hroot hva true
  unfold demand_page_in
  rw [hrun1]
  rcases r1 with _ | p1
  · exact ⟨false, s1, P1, rfl, hedit1⟩
  simp only
  split
  · exact ⟨false, s1, P1, rfl, hedit1⟩
  · rename_i hfree
    rw [Bool.or_eq_true, not_or] at hfree
    have habs : present (s1.entry p1) = false := by simpa using hfree.2
    exact ⟨true, _, P1, rfl, hedit1.trans (edit_of_reserved hedit1.owns (hslot1 p1 rfl)
      (childOf_of_absent habs) (childOf_reserved_entry _))⟩

theorem reserve_loop.spec {cr3 : Word} (base : Word) (hroot : frameOf cr3 = T.root) (n i : Nat)
    (hva : ∀ j, i ≤ j → j < i + n →
      Reach T s P (PML4_INDEX (base + BitVec.ofNat 64 j * PAGE_SIZE)))
    (h : Owns T s P) : ∃ r s' P', reserve_loop cr3 base i n s = (r, s') ∧ Edit T s P s' P' := by
  induction n generalizing i s P with
  | zero => exact ⟨true, s, P, rfl, Edit.refl h⟩
  | succ n ih =>
    obtain ⟨r1, s1, P1, hrun1, hedit1⟩ := demand_page_in.spec h hroot (hva i (by omega) (by omega))
    unfold reserve_loop
    rw [hrun1]
    cases r1 with
    | false => exact ⟨false, s1, P1, rfl, hedit1⟩
    | true =>
      obtain ⟨r, s', P', hrun, hedit⟩ := ih (i + 1)
        (fun j h1 h2 => hedit1.reach (hva j (by omega) (by omega))) hedit1.owns
      exact ⟨r, s', P', hrun, hedit1.trans hedit⟩

/-- A present page is left as it is, and a reserved one gets the first free frame. -/
theorem make_page_present.cases {e : EntryPtr} (h : Owns T s P)
    (hslot : TreeSlot T s.mem 0 e.1 e.2) (va : Word) :
    present (s.entry e) = true ∧ make_page_present (some e) va s = (true, s) ∨
    present (s.entry e) = false ∧
      (demand (s.entry e) = false ∧ make_page_present (some e) va s = (false, s) ∨
       demand (s.entry e) = true ∧ (P = [] ∧ make_page_present (some e) va s = (false, s) ∨
        ∃ c P' s', P = c :: P' ∧ make_page_present (some e) va s = (true, s') ∧
          TookFrame s e.1 e.2 c P' (backed_entry (s.entry e) (frameAddr c) va) s' ∧
          childOf (backed_entry (s.entry e) (frameAddr c) va) = some c)) := by
  unfold make_page_present
  by_cases hp : present (s.entry e) = true
  · simp only [hp, if_true]
    exact Or.inl ⟨trivial, trivial⟩
  have habs : present (s.entry e) = false := by simpa using hp
  refine Or.inr ⟨habs, ?_⟩
  simp only [habs, Bool.false_eq_true, if_false]
  by_cases hd : demand (s.entry e) = true
  swap
  · have hd' : demand (s.entry e) = false := by simpa using hd
    simp only [hd', Bool.not_false, if_true]
    exact Or.inl ⟨trivial, trivial⟩
  simp only [hd, Bool.not_true, Bool.false_eq_true, if_false]
  refine Or.inr ⟨trivial, ?_⟩
  cases P with
  | nil =>
    simp only [MMU_pf_alloc.spec_nil h.pool, if_true]
    exact Or.inl ⟨trivial, trivial⟩
  | cons c P =>
    have hc40 := h.small c List.mem_cons_self
    have hc52 := h.pool.small c List.mem_cons_self
    obtain ⟨s1, heq, hentry, hlink⟩ := link_frame h hslot
    have hentry : (s1.zero_frame c).entry e = s.entry e := hentry
    simp only [heq, frameAddr_ne_invalid hc52, if_false, phys_to_pfn, frameOf_frameAddr hc52, hentry]
    refine Or.inr ⟨c, P, _, rfl, rfl, hlink _, ?_⟩
    rw [childOf_backed_entry (by rw [frameOf_frameAddr hc52]; exact hc40), frameOf_frameAddr hc52]

theorem make_page_present.spec {e : EntryPtr} (h : Owns T s P) (hslot : TreeSlot T s.mem 0 e.1 e.2)
    (va : Word) :
    ∃ r s' P', make_page_present (some e) va s = (r, s') ∧ Edit T s P s' P' ∧
      TreeSlot T s'.mem 0 e.1 e.2 ∧ (r = true → present (s'.entry e) = true) ∧
      ∀ f, f ≠ e.1 → f ∉ P → s'.mem f = s.mem f := by
  rcases make_page_present.cases h hslot va with
    ⟨hp, hrun⟩ | ⟨habs, ⟨_, hrun⟩ | ⟨_, ⟨_, hrun⟩ | hnew⟩⟩
  · exact ⟨true, s, P, hrun, Edit.refl h, hslot, fun _ => hp, fun _ _ _ => rfl⟩
  · exact ⟨false, s, P, hrun, Edit.refl h, hslot, nofun, fun _ _ _ => rfl⟩
  · exact ⟨false, s, P, hrun, Edit.refl h, hslot, nofun, fun _ _ _ => rfl⟩
  · obtain ⟨c, P', s', rfl, hrun, hl, hchild⟩ := hnew
    refine ⟨true, s', P', hrun, hl.edit h hslot (childOf_of_absent habs) hchild nofun,
      hl.slot h hslot, ?_, hl.off⟩
    intro _
    rw [Machine.entry, hl.entry]
    exact (childOf_eq_some.mp hchild).1

/-! ## Writing to pages -/

theorem sub_of_page {e : EntryPtr} (hp : present (s.entry e) = true) :
    sub childOf 0 s.mem (s.mem e.1 e.2) = {pfn (s.entry e)} := by
  have hchild : childOf (s.mem e.1 e.2) = some (pfn (s.entry e)) := childOf_of_present hp
  rw [sub_of_some hchild, frames_zero]

theorem Owns.table_ne_pfn {e : EntryPtr} (h : Owns T s P) (hslot : TreeSlot T s.mem 0 e.1 e.2)
    (hp : present (s.entry e) = true) : e.1 ≠ pfn (s.entry e) := by
  intro he
  apply hslot.table_notMem h.tree_nodup
  rw [sub_of_page hp, Multiset.mem_singleton]
  exact he

/-- The contents of a page of the tree are overwritten. -/
theorem edit_of_write {e : EntryPtr} {x : Frame} (h : Owns T s P)
    (hslot : TreeSlot T s.mem 0 e.1 e.2) (hp : present (s.entry e) = true) :
    Edit T s P { s with mem := Function.update s.mem (pfn (s.entry e)) x } P := by
  have hchild : childOf (s.mem e.1 e.2) = some (pfn (s.entry e)) := childOf_of_present hp
  have hsub := sub_of_page hp
  have hne := h.table_ne_pfn hslot hp
  have hmem : pfn (s.entry e) ∈ treeFrames s.mem T := by
    refine Multiset.mem_cons_of_mem (hslot.sub_subset ?_)
    rw [hsub, Multiset.mem_singleton]
  have hrow : Function.update s.mem (pfn (s.entry e)) x e.1 = s.mem e.1 := Function.update_of_ne hne _ _
  refine edit_of_slot h hslot ?_ ?_ ?_ h.small ?_ ?_ ⟨rfl, rfl, rfl, rfl⟩
  · intro j _
    simp only [hrow]
  · intro f _ hf _
    rw [hsub, Multiset.mem_singleton] at hf
    exact Function.update_of_ne hf _ _
  · refine h.pool.congr rfl rfl ?_
    intro f hf
    have hfp : f ≠ pfn (s.entry e) := fun he => h.notMem_pool hmem (he ▸ hf)
    exact Function.update_of_ne hfp _ _
  · simp only [hrow]
    rw [sub_of_some hchild, sub_of_some hchild, frames_zero, frames_zero]
  · intro _
    exact ⟨nofun, trivial⟩

theorem edit_of_write_bytes {e : EntryPtr} (h : Owns T s P) (hslot : TreeSlot T s.mem 0 e.1 e.2)
    (hp : present (s.entry e) = true) (off n : Nat) (bytes : Nat → BitVec 8) :
    Edit T s P { s with mem := write_bytes s.mem (pfn (s.entry e)) off n bytes } P :=
  edit_of_write h hslot hp

theorem write_user_loop.spec {cr3 dst : Word} (src : Nat → BitVec 8) (len : Nat)
    (hroot : frameOf cr3 = T.root)
    (hva : ∀ j, j < len → Reach T s P (PML4_INDEX (dst + BitVec.ofNat 64 j))) (done : Nat)
    (h : Owns T s P) :
    ∃ r s' P', write_user_loop cr3 dst src len done s = (r, s') ∧ Edit T s P s' P' := by
  induction hn : len - done using Nat.strong_induction_on generalizing done s P with
  | _ n ih =>
    unfold write_user_loop
    by_cases hlt : done < len
    · obtain ⟨r1, s1, P1, hrun1, hedit1, hslot1⟩ :=
        travel_pagetable_in.spec h hroot (hva done hlt) false
      rw [dif_pos hlt]
      simp only [hrun1]
      rcases r1 with _ | p1
      · exact ⟨false, s1, P1, rfl, hedit1⟩
      obtain ⟨r2, s2, P2, hrun2, hedit2, hslot2, hpres2, _⟩ :=
        make_page_present.spec hedit1.owns (hslot1 p1 rfl) (dst + BitVec.ofNat 64 done)
      simp only [hrun2]
      cases r2 with
      | false => exact ⟨false, s2, P2, rfl, hedit1.trans hedit2⟩
      | true =>
        have hoffset : (dst + BitVec.ofNat 64 done).toNat % 4096 < 4096 := Nat.mod_lt _ (by decide)
        obtain ⟨chunk, hchunk⟩ : ∃ chunk, chunk =
          min (4096 - (dst + BitVec.ofNat 64 done).toNat % 4096) (len - done) := ⟨_, rfl⟩
        simp only [← hchunk]
        have hedit3 := edit_of_write_bytes hedit2.owns hslot2 (hpres2 rfl)
          ((dst + BitVec.ofNat 64 done).toNat % 4096) chunk fun k => src (done + k)
        have hedit := (hedit1.trans hedit2).trans hedit3
        obtain ⟨r, s', P', hrun, hedit'⟩ := ih (len - (done + chunk)) (by omega)
          (fun j hj => hedit.reach (hva j hj)) (done + chunk) hedit3.owns rfl
        exact ⟨r, s', P', hrun, hedit.trans hedit'⟩
    · rw [dif_neg hlt]
      exact ⟨true, s, P, rfl, Edit.refl h⟩

/-! ## The calls on another address space -/

theorem Owns.congr (h : Owns T s P) (hm : s'.mem = s.mem) (hf : s'.free_frames = s.free_frames)
    (hr : s'.usable_regions = s.usable_regions) : Owns T s' P := by
  refine ⟨h.pool.congr hf hr fun f _ => by rw [hm], h.small, ?_, ?_⟩
  · rw [hm]
    exact h.nodup
  · rw [hm]
    exact h.plain

theorem Owns.CLI (h : Owns T s P) : Owns T (CLI s) P := h.congr rfl rfl rfl

theorem Owns.restore_interrupts (h : Owns T s P) (b : Bool) : Owns T (restore_interrupts b s) P := by
  unfold JamsOs.restore_interrupts
  split
  · exact h.congr rfl rfl rfl
  · exact h

/-- A call masks the interrupts, and restores them when it is done. -/
theorem Edit.masked (h : Edit T (CLI s) P s' P') :
    Edit T s P (restore_interrupts s.interrupts s') P' := by
  refine ⟨h.owns.restore_interrupts _, ?_, ?_, ?_, restore_interrupts_CLI s s' h.regs⟩
  · rw [restore_interrupts_mem]
    exact h.total
  · rw [restore_interrupts_mem]
    exact h.off
  · rw [restore_interrupts_mem]
    exact h.low

/-- The number of turns of the loop of `reserve_pages_at`. -/
def num_pages (vaddr size : Word) : Nat :=
  ((((((vaddr + size + PAGE_SIZE - 1) &&& PAGE_MASK) - (vaddr &&& PAGE_MASK)) / PAGE_SIZE).setWidth
    32).toInt).toNat

/-- The P4 entries of all pages that a call on the range reserves are among `p`. -/
def ReservesIn (p : Fin 512 → Prop) (vaddr size : Word) : Prop :=
  ∀ j, j < num_pages vaddr size →
    p (PML4_INDEX ((vaddr &&& PAGE_MASK) + BitVec.ofNat 64 j * PAGE_SIZE))

/-- The P4 entries of all bytes that a call on the range writes are among `p`. -/
def WritesIn (p : Fin 512 → Prop) (dst len : Word) : Prop :=
  ∀ j, j < len.toNat → p (PML4_INDEX (dst + BitVec.ofNat 64 j))

theorem ReservesIn.mono {p q : Fin 512 → Prop} {vaddr size : Word} (h : ReservesIn p vaddr size)
    (hpq : ∀ i, p i → q i) : ReservesIn q vaddr size := fun j hj => hpq _ (h j hj)

theorem WritesIn.mono {p q : Fin 512 → Prop} {dst len : Word} (h : WritesIn p dst len)
    (hpq : ∀ i, p i → q i) : WritesIn q dst len := fun j hj => hpq _ (h j hj)

theorem Reach.CLI (h : Reach T s P i) : Reach T (CLI s) P i :=
  h.imp_right fun ⟨pdpt, hb⟩ => ⟨pdpt, hb.1, hb.2, hb.3, hb.4, hb.5⟩

theorem MMU_alloc_at_as.spec {cr3 vaddr size : Word} (h : Owns T s P) (hroot : frameOf cr3 = T.root)
    (hva : ReservesIn (Reach T s P) vaddr size) :
    ∃ r s' P', MMU_alloc_at_as cr3 vaddr size s = (r, s') ∧ Edit T s P s' P' := by
  obtain ⟨r, s', P', hrun, hedit⟩ := reserve_loop.spec (vaddr &&& PAGE_MASK) hroot
    (num_pages vaddr size) 0 (fun j _ hj => (hva j (by omega)).CLI) h.CLI
  have hrun : reserve_loop cr3 (vaddr &&& PAGE_MASK) 0 (((((((vaddr + size + PAGE_SIZE - 1) &&&
    PAGE_MASK) - (vaddr &&& PAGE_MASK)) / PAGE_SIZE).setWidth 32).toInt).toNat) (CLI s) =
    (r, s') := hrun
  unfold MMU_alloc_at_as reserve_pages_at
  simp only [hrun]
  cases r with
  | true => exact ⟨_, _, P', rfl, hedit.masked⟩
  | false => exact ⟨_, _, P', rfl, hedit.masked⟩

theorem write_user_range_as.spec {cr3 dst len : Word} (h : Owns T s P)
    (hroot : frameOf cr3 = T.root) (hva : WritesIn (Reach T s P) dst len) (src : Option (Nat → BitVec 8))
    (zero : Bool) :
    ∃ r s' P', write_user_range_as cr3 dst src len zero s = (r, s') ∧ Edit T s P s' P' := by
  unfold write_user_range_as
  split
  · exact ⟨false, s, P, rfl, Edit.refl h⟩
  · exact write_user_loop.spec _ len.toNat hroot hva 0 h

theorem MMU_copy_to_user_as.spec {cr3 dst len : Word} (h : Owns T s P)
    (hroot : frameOf cr3 = T.root) (hva : WritesIn (Reach T s P) dst len) (src : Option (Nat → BitVec 8)) :
    ∃ r s' P', MMU_copy_to_user_as cr3 dst src len s = (r, s') ∧ Edit T s P s' P' := by
  obtain ⟨r, s', P', hrun, hedit⟩ := write_user_range_as.spec h.CLI hroot
    (hva.mono fun _ hi => hi.CLI) src false
  unfold MMU_copy_to_user_as
  simp only [hrun]
  exact ⟨r, _, P', rfl, hedit.masked⟩

theorem MMU_zero_user_as.spec {cr3 dst len : Word} (h : Owns T s P)
    (hroot : frameOf cr3 = T.root) (hva : WritesIn (Reach T s P) dst len) :
    ∃ r s' P', MMU_zero_user_as cr3 dst len s = (r, s') ∧ Edit T s P s' P' := by
  obtain ⟨r, s', P', hrun, hedit⟩ := write_user_range_as.spec h.CLI hroot
    (hva.mono fun _ hi => hi.CLI) none true
  unfold MMU_zero_user_as
  simp only [hrun]
  exact ⟨r, _, P', rfl, hedit.masked⟩

end

/-! ## Ranges of user space -/

/-- The range lies between `VA_USER_BASE` and 2^47. -/
structure UserRange (vaddr size : Word) : Prop where
  low : VA_USER_BASE.toNat ≤ vaddr.toNat
  high : vaddr.toNat + size.toNat ≤ 2 ^ 47

instance (vaddr size : Word) : Decidable (UserRange vaddr size) :=
  decidable_of_iff (VA_USER_BASE.toNat ≤ vaddr.toNat ∧ vaddr.toNat + size.toNat ≤ 2 ^ 47)
    ⟨fun h => ⟨h.1, h.2⟩, fun h => ⟨h.1, h.2⟩⟩

theorem PML4_INDEX_user {va : Word} (hlow : 2 ^ 44 ≤ va.toNat) (hhigh : va.toNat < 2 ^ 48) :
    PML4_INDEX va ∈ userSlots := by
  rw [mem_userSlots]
  unfold PML4_INDEX table_index
  simp only
  omega

theorem VA_USER_BASE_toNat : VA_USER_BASE.toNat = 2 ^ 44 := rfl

theorem UserRange.writesIn {dst len : Word} (h : UserRange dst len) :
    WritesIn (· ∈ userSlots) dst len := by
  intro j hj
  have hlow := h.low
  have hhigh := h.high
  rw [VA_USER_BASE_toNat] at hlow
  apply PML4_INDEX_user <;> rw [BitVec.toNat_add, BitVec.toNat_ofNat] <;> omega

theorem masked_toNat (p : Word) : (p &&& PAGE_MASK).toNat = p.toNat / 4096 * 4096 := by
  rw [masked_eq, frameAddr_toNat (frameOf_lt _)]
  rfl

/-- The conversion to `int` never makes the number of pages larger. -/
theorem toInt_toNat_le (x : Word) : ((x.setWidth 32).toInt).toNat ≤ x.toNat := by
  have h : (x.setWidth 32).toNat ≤ x.toNat := by
    rw [BitVec.toNat_setWidth]
    exact Nat.mod_le _ _
  rw [BitVec.toInt_eq_toNat_cond]
  split <;> omega

theorem UserRange.reservesIn {vaddr size : Word} (h : UserRange vaddr size) :
    ReservesIn (· ∈ userSlots) vaddr size := by
  intro j hj
  have hlow := h.low
  have hhigh := h.high
  rw [VA_USER_BASE_toNat] at hlow
  have hlast : (vaddr + size + PAGE_SIZE - 1).toNat = vaddr.toNat + size.toNat + 4095 := by
    have hone : (1 : Word).toNat = 1 := rfl
    rw [BitVec.toNat_sub, BitVec.toNat_add, BitVec.toNat_add, PAGE_SIZE_toNat, hone]
    omega
  have hn : num_pages vaddr size ≤
      ((vaddr.toNat + size.toNat + 4095) / 4096 * 4096 - vaddr.toNat / 4096 * 4096) / 4096 := by
    refine (toInt_toNat_le _).trans (Nat.le_of_eq ?_)
    rw [BitVec.toNat_udiv, PAGE_SIZE_toNat, BitVec.toNat_sub_of_le, masked_toNat, masked_toNat,
      hlast]
    rw [BitVec.le_def, masked_toNat, masked_toNat, hlast]
    omega
  have hpage : ((vaddr &&& PAGE_MASK) + BitVec.ofNat 64 j * PAGE_SIZE).toNat =
      vaddr.toNat / 4096 * 4096 + j * 4096 := by
    rw [BitVec.toNat_add, BitVec.toNat_mul, masked_toNat, PAGE_SIZE_toNat, BitVec.toNat_ofNat]
    omega
  apply PML4_INDEX_user
  · rw [hpage]
    omega
  · rw [hpage]
    omega

end JamsOs
