-- The laws of the kernel half. Every P4 has its own copies of the kernel's P4 entries below
-- user space, and shares the tables below them. The kernel heap changes these tables under
-- whichever P4 is current, so all address spaces agree on the kernel half as long as no P4
-- entry is made or cleared while such a copy exists.
import JamsOs.AddressSpaces

namespace JamsOs

open Words RadixTree

section

variable {s s' : Machine} {live : List Word} {R : Multiset Nat} {P P' : List Nat} {va va' : Word}
  {T : Tree} {k t c pdpt : Nat} {i : Fin 512}

/-! ## The walk below user space -/

/-- Below user space every P4 that can be current has the kernel's entries. -/
theorem Sound.current_of_none (h : Sound s [] R P) : frameOf s.cr3 = s.ptable_p4 := by
  rcases h.current with hcur | ⟨_, hcr3, _⟩
  · exact hcur
  · cases hcr3

theorem kernel_slots {m : Nat → Frame} {p4 : Nat} (h0 : i ≠ 0)
    (hc : childOf (m p4 i) = some pdpt) (j : Fin 512) : TreeSlot (kernelTree p4) m 2 pdpt j := by
  have hslot : TreeSlot (kernelTree p4) m 3 p4 i := .root ((mem_kernelTree_slots p4).mpr h0)
  exact hslot.into hc j

/-- The walk ends at the huge pages of the identity mapping. -/
theorem Sound.travel_identity (h : Sound s live R P) (h0 : PML4_INDEX va = 0) (create : Bool) :
    travel_pagetable va create s = (none, s) := by
  obtain ⟨c, _, hc, hbig⟩ := h.identity
  refine travel_pagetable_in.of_huge create ?_ hbig
  rw [h0, h.current_row (by rw [mem_userSlots]; decide)]
  exact hc

/-- Below user space the walk changes only the kernel's tree. Where the P4 entry is there, it
leaves all P4s as they are. -/
theorem travel_pagetable.kernel (h : Sound s live R P) (hlow : PML4_INDEX va ∉ userSlots)
    (hready : live ≠ [] → present (s.mem s.ptable_p4 (PML4_INDEX va)) = true) (create : Bool) :
    ∃ r s' P', travel_pagetable va create s = (r, s') ∧
      Edit (kernelTree s.ptable_p4) s P s' P' ∧
      (∀ e, r = some e → TreeSlot (kernelTree s.ptable_p4) s'.mem 0 e.1 e.2) ∧
      (live ≠ [] → s'.mem s.ptable_p4 = s.mem s.ptable_p4) := by
  have hown := h.owns (kernelTree_mem s.ptable_p4 live)
  by_cases h0 : PML4_INDEX va = 0
  · exact ⟨none, s, P, h.travel_identity h0 create, Edit.refl hown, nofun, fun _ => rfl⟩
  by_cases hl : live = []
  · subst hl
    obtain ⟨r, s', P', hrun, hedit, hslot⟩ := travel_pagetable_in.spec hown
      h.current_of_none (Or.inl ((mem_kernelTree_slots _).mpr h0)) create
    exact ⟨r, s', P', hrun, hedit, hslot, fun hne => absurd rfl hne⟩
  have hc := childOf_of_present (hready hl)
  obtain ⟨r, s', P', hrun, hedit, hslot, hroot⟩ :=
    travel_below.spec hown (kernel_slots h0 hc) va create
  refine ⟨r, s', P', ?_, hedit, hslot, fun _ => hroot⟩
  unfold travel_pagetable
  rw [travel_pagetable_in.of_present create (by rw [h.current_row hlow]; exact hc)]
  exact hrun

/-! ## Reserving heap pages -/

theorem demand_page.kernel (h : Sound s live R P) (hlow : PML4_INDEX va ∉ userSlots)
    (hready : live ≠ [] → present (s.mem s.ptable_p4 (PML4_INDEX va)) = true) :
    ∃ r s' P', demand_page va s = (r, s') ∧ Sound s' live R P' ∧
      Edit (kernelTree s.ptable_p4) s P s' P' ∧
      (live ≠ [] → s'.mem s.ptable_p4 = s.mem s.ptable_p4) := by
  have hK := kernelTree_mem s.ptable_p4 live
  obtain ⟨r1, s1, P1, hrun1, hedit1, hslot1, hroot1⟩ := travel_pagetable.kernel h hlow hready true
  have hstop : Sound s1 live R P1 := h.edit hK hedit1 fun hl i _ => by rw [hroot1 hl]
  have hrun1 : travel_pagetable_in s.cr3 va true s = (r1, s1) := hrun1
  unfold demand_page demand_page_in
  rw [hrun1]
  rcases r1 with _ | e
  · exact ⟨false, s1, P1, rfl, hstop, hedit1, hroot1⟩
  simp only
  split
  · exact ⟨false, s1, P1, rfl, hstop, hedit1, hroot1⟩
  · rename_i hfree
    rw [Bool.or_eq_true, not_or] at hfree
    have habs : present (s1.entry e) = false := by simpa using hfree.2
    have hedit := hedit1.trans (edit_of_reserved hedit1.owns (hslot1 e rfl)
      (childOf_of_absent habs) (childOf_reserved_entry (s1.entry e)))
    have hne : s.ptable_p4 ≠ e.1 := hedit1.owns.root_ne (hslot1 e rfl) (by omega)
    have hroot : live ≠ [] → (s1.set_entry e (reserved_entry (s1.entry e))).mem s.ptable_p4 =
        s.mem s.ptable_p4 := by
      intro hl
      rw [set_entry_mem, setWord_of_ne hne, hroot1 hl]
    exact ⟨true, _, P1, rfl, h.edit hK hedit fun hl i _ => by rw [hroot hl], hedit, hroot⟩

theorem SameRegs.ptable_p4 (h : SameRegs s s') : s'.ptable_p4 = s.ptable_p4 := by
  unfold Machine.ptable_p4
  rw [h.kernel_cr3]

theorem alloc_pages_loop.kernel (base : Word) (n i : Nat)
    (hlow : ∀ j, i ≤ j → j < i + n → PML4_INDEX (base + BitVec.ofNat 64 j * PAGE_SIZE) ∉ userSlots)
    (hready : live ≠ [] → ∀ j, i ≤ j → j < i + n →
      present (s.mem s.ptable_p4 (PML4_INDEX (base + BitVec.ofNat 64 j * PAGE_SIZE))) = true)
    (h : Sound s live R P) :
    ∃ r s' P', alloc_pages_loop base i n s = (r, s') ∧ Sound s' live R P' ∧
      Exchanged (kernelTree s.ptable_p4) s P s' P' := by
  induction n generalizing i s P with
  | zero => exact ⟨true, s, P, rfl, h, .refl _ s P⟩
  | succ n ih =>
    obtain ⟨r1, s1, P1, hrun1, hs1, hedit1, hroot⟩ := demand_page.kernel h
      (hlow i (by omega) (by omega)) fun hl => hready hl i (by omega) (by omega)
    have hp4 := hedit1.regs.ptable_p4
    unfold alloc_pages_loop
    rw [hrun1]
    cases r1 with
    | false => exact ⟨false, s1, P1, rfl, hs1, hedit1.exchanged⟩
    | true =>
      obtain ⟨r, s', P', hrun, hs, hex⟩ :=
        ih (i + 1) (fun j h1 h2 => hlow j (by omega) (by omega)) (fun hl j h1 h2 => by
          rw [hp4, hroot hl]
          exact hready hl j (by omega) (by omega)) hs1
      rw [hp4] at hex
      exact ⟨r, s', P', hrun, hs, hedit1.exchanged.trans hex⟩

/-! ## Giving pages and tables back -/

/-- The frame that an entry names is freed and the entry is cleared. -/
def unlink (e : EntryPtr) (c : Nat) (s : Machine) : Machine :=
  (MMU_pf_free (pfn_to_phys c) s).set_entry e 0

theorem unlink.spec (h : Owns T s P) (hslot : TreeSlot T s.mem k t i)
    (hc : childOf (s.mem t i) = some c) (honly : frames childOf k s.mem c = {c}) :
    Edit T s P (unlink (t, i) c s) (c :: P) ∧
      (∀ j, j ≠ i → (unlink (t, i) c s).mem t j = s.mem t j) ∧
      ∀ f, f ≠ t → f ≠ c → (unlink (t, i) c s).mem f = s.mem f := by
  have hsub : sub childOf k s.mem (s.mem t i) = {c} := by rw [sub_of_some hc, honly]
  have hct : t ≠ c := by
    intro he
    refine hslot.table_notMem h.tree_nodup ?_
    rw [hsub, he]
    exact Multiset.mem_singleton_self c
  have hcT : c ∈ treeFrames s.mem T := by
    refine Multiset.mem_cons_of_mem (hslot.sub_subset ?_)
    rw [hsub]
    exact Multiset.mem_singleton_self c
  have hc40 : c < 2 ^ 40 := by
    rw [← (childOf_eq_some.mp hc).2]
    exact pfn_lt _
  have htP : t ∉ c :: P := by
    rw [List.mem_cons, not_or]
    exact ⟨hct, h.notMem_pool hslot.table_mem⟩
  obtain ⟨heq, hpool⟩ := MMU_pf_free.spec h.pool (by omega : c < 2 ^ 52) (h.notMem_pool hcT)
  have hmem : (unlink (t, i) c s).mem = setWord (setWord s.mem c 0 s.free_frames) t i 0 := by
    unfold unlink pfn_to_phys
    rw [set_entry_mem, heq]
  have hrow : ∀ j, j ≠ i → (unlink (t, i) c s).mem t j = s.mem t j := by
    intro j hj
    rw [hmem, setWord_word_of_ne _ _ hj, setWord_of_ne hct]
  have hoff : ∀ f, f ≠ t → f ≠ c → (unlink (t, i) c s).mem f = s.mem f := by
    intro f hft hfc
    rw [hmem, setWord_of_ne hft, setWord_of_ne hfc]
  have hti : (unlink (t, i) c s).mem t i = 0#64 := by
    rw [hmem, setWord_same]
    rfl
  refine ⟨edit_of_slot h hslot hrow ?_ ?_ ?_ ?_ ?_ ?_, hrow, hoff⟩
  · intro f hft hfs _
    rw [hsub, Multiset.mem_singleton] at hfs
    exact hoff f hft hfs
  · exact hpool.set_entry htP 0
  · intro f hf
    rcases List.mem_cons.mp hf with rfl | hf
    · exact hc40
    · exact h.small f hf
  · rw [hti, sub_of_none childOf_zero, hsub, zero_add, Multiset.singleton_add]
    rfl
  · intro hp
    rw [hti, present_zero] at hp
    cases hp
  · unfold unlink pfn_to_phys
    rw [heq]
    exact ⟨rfl, rfl, rfl, rfl⟩

/-! ## Pages that are kept -/

/-- The walk for `va` ends at a page-table entry in use: reserved, or with its frame. -/
def Held (m : Nat → Frame) (p4 : Nat) (va : Word) : Prop :=
  ∃ e, lookup m p4 va = some e ∧ m e.1 e.2 ≠ 0

/-- The indices of a virtual address, from the P4 on: equal for addresses of one page. -/
def page_path (va : Word) : List (Fin 512) :=
  [PML4_INDEX va, PDP_INDEX va, PD_INDEX va, PT_INDEX va]

/-- The tables that a walk goes through. -/
theorem lookup_of_tables {m : Nat → Frame} {p4 pd pt : Nat}
    (h3 : nextTable 3 (m p4 (PML4_INDEX va)) = some pdpt)
    (h2 : nextTable 2 (m pdpt (PDP_INDEX va)) = some pd)
    (h1 : nextTable 1 (m pd (PD_INDEX va)) = some pt) :
    lookup m p4 va = some (pt, PT_INDEX va) := by
  simp [lookup, lookup_below, h3, h2, h1]

theorem ne_zero_of_nextTable {w : Word} (h : nextTable k w = some c) : w ≠ 0 := by
  rintro rfl
  have hp := (childOf_eq_some.mp (childOf_of_nextTable h).2).1
  rw [show (0 : Word) = 0#64 from rfl, present_zero] at hp
  cases hp

/-- Clearing the entry of a page, or of a table with nothing in it, keeps every other page that is
in use. -/
theorem Held.kept {m' : Nat → Frame} {e : EntryPtr} (h : Owns T s P)
    (hslot : TreeSlot T s.mem k t i)
    (hempty : k = 0 ∨ ∀ c, childOf (s.mem t i) = some c → ∀ j, s.mem c j = 0)
    (hrow : ∀ j, j ≠ i → m' t j = s.mem t j)
    (hoff : ∀ f, f ≠ t → childOf (s.mem t i) ≠ some f → m' f = s.mem f)
    (hva : PML4_INDEX va ∈ T.slots) (hlook : lookup s.mem T.root va = some e)
    (huse : s.mem e.1 e.2 ≠ 0) (hne : k = 0 → e ≠ (t, i)) : Held m' T.root va := by
  obtain ⟨pdpt, pd, h3, h2, h1, hPT⟩ := lookup_eq_some hlook
  have hs3 : TreeSlot T s.mem 3 T.root (PML4_INDEX va) := .root hva
  have hs2 := hs3.into (childOf_of_nextTable h3).2 (PDP_INDEX va)
  have hs1 := hs2.into (childOf_of_nextTable h2).2 (PD_INDEX va)
  have hs0 := hs1.into (childOf_of_nextTable h1).2 e.2
  -- a table on the way has an entry in use, so it is not the frame that is freed
  have hfreed : ∀ k' x j, TreeSlot T s.mem k' x j → s.mem x j ≠ 0 →
      childOf (s.mem t i) ≠ some x := by
    intro k' x j hx hj hc
    rcases hempty with rfl | hz
    · exact hslot.child_ne_table hc hx h.tree_nodup (by omega) rfl
    · exact hj (hz x hc j)
  -- and where the walk goes on, the entry is not the one that is cleared
  have hpass : ∀ k' x j y, TreeSlot T s.mem (k' + 1) x j → nextTable (k' + 1) (s.mem x j) = some y →
      childOf (s.mem t i) ≠ some y → m' x j = s.mem x j := by
    intro k' x j y hx hy hyc
    by_cases hxt : x = t
    · subst hxt
      refine hrow j ?_
      rintro rfl
      exact hyc (childOf_of_nextTable hy).2
    · rw [hoff x hxt (hfreed _ x j hx (ne_zero_of_nextTable hy))]
  have hpd := ne_zero_of_nextTable h2
  have hpt := ne_zero_of_nextTable h1
  refine ⟨e, ?_, ?_⟩
  · have hm3 := hpass 2 _ _ _ hs3 h3 (hfreed _ _ _ hs2 hpd)
    have hm2 := hpass 1 _ _ _ hs2 h2 (hfreed _ _ _ hs1 hpt)
    have hm1 := hpass 0 _ _ _ hs1 h1 (hfreed _ _ _ hs0 huse)
    rw [lookup_of_tables (by rw [hm3]; exact h3) (by rw [hm2]; exact h2) (by rw [hm1]; exact h1),
      ← hPT]
  · by_cases het : e.1 = t
    · have hk : k = 0 := by
        rw [← het] at hslot
        exact hslot.height_unique hs0 h.tree_nodup
      rw [het, hrow e.2 fun he => hne hk (Prod.ext het he), ← het]
      exact huse
    · rw [hoff e.1 het (hfreed _ _ _ hs0 huse)]
      exact huse

/-! ## Freeing the empty tables -/

theorem page_table_empty_iff (x : Frame) : page_table_empty x = true ↔ ∀ j, x j = 0 := by
  simp [page_table_empty]

/-- The table that an entry names is given back when all its entries are 0. -/
def free_if_empty (e : EntryPtr) (c : Nat) (s : Machine) : Machine :=
  if page_table_empty (s.mem c) then unlink e c s else s

theorem free_empty_tables_eq (va : Word) (s : Machine) :
    free_empty_tables va s =
      let e4 := (frameOf s.cr3, PML4_INDEX va)
      if !present (s.entry e4) || !allocated (s.entry e4) then s
      else
        let pdpt := pfn (s.entry e4)
        let e3 := (pdpt, PDP_INDEX va)
        if !present (s.entry e3) || big_page (s.entry e3) || !allocated (s.entry e3) then s
        else
          let pd := pfn (s.entry e3)
          let e2 := (pd, PD_INDEX va)
          if !present (s.entry e2) || big_page (s.entry e2) || !allocated (s.entry e2) then s
          else
            free_if_empty e4 pdpt (free_if_empty e3 pd (free_if_empty e2 (pfn (s.entry e2)) s)) := by
  unfold free_empty_tables free_if_empty unlink
  rfl

/-- The tables above stay, and so does every page in use. -/
theorem free_if_empty.spec (h : Owns T s P) (hslot : TreeSlot T s.mem (k + 1) t i)
    (hc : childOf (s.mem t i) = some c) :
    ∃ P', Edit T s P (free_if_empty (t, i) c s) P' ∧
      (∀ k' x j, TreeSlot T s.mem k' x j → k + 1 < k' → (free_if_empty (t, i) c s).mem x = s.mem x) ∧
      ∀ va, PML4_INDEX va ∈ T.slots → Held s.mem T.root va →
        Held (free_if_empty (t, i) c s).mem T.root va := by
  unfold free_if_empty
  split
  · rename_i hempty
    have hz := (page_table_empty_iff _).mp hempty
    have honly : frames childOf (k + 1) s.mem c = {c} := by
      rw [frames_succ, forest_eq_zero]
      · rfl
      · intro j _
        rw [hz j]
        exact childOf_zero
    obtain ⟨hedit, hrow, hoff⟩ := unlink.spec h hslot hc honly
    refine ⟨c :: P, hedit, ?_, ?_⟩
    · intro k' x j hx hk
      have hxc := (hslot.child_ne_table hc hx h.tree_nodup (by omega)).symm
      refine hoff x ?_ hxc
      rintro rfl
      have := hslot.height_unique hx h.tree_nodup
      omega
    · rintro va hva ⟨e, hlook, huse⟩
      refine Held.kept h hslot (Or.inr ?_) hrow ?_ hva hlook huse nofun
      · intro c' hc' j
        rw [hc] at hc'
        cases hc'
        exact hz j
      · exact fun f hft hf => hoff f hft fun he => hf (he ▸ hc)
  · exact ⟨P, Edit.refl h, fun _ _ _ _ _ => rfl, fun _ _ hheld => hheld⟩

/-- Where a page of the same P4 entry is in use, its PDPT is not empty. -/
theorem pdpt_in_use {m : Nat → Frame} {p4 : Nat} (hheld : Held m p4 va')
    (hc : childOf (m p4 (PML4_INDEX va')) = some pdpt) : page_table_empty (m pdpt) = false := by
  obtain ⟨e, hlook, _⟩ := hheld
  obtain ⟨pdpt', pd, h3, h2, _, _⟩ := lookup_eq_some hlook
  rw [(childOf_of_nextTable h3).2] at hc
  cases hc
  rw [Bool.eq_false_iff]
  intro hempty
  exact ne_zero_of_nextTable h2 ((page_table_empty_iff _).mp hempty _)

/-- Freeing the empty tables of the kernel half. While there are address spaces, a page in use
keeps the P4 entry. -/
theorem free_empty_tables.kernel (h : Sound s live R P) (hlow : PML4_INDEX va ∉ userSlots)
    (hkeep : live ≠ [] →
      ∃ va', PML4_INDEX va' = PML4_INDEX va ∧ Held s.mem s.ptable_p4 va') :
    ∃ P', Edit (kernelTree s.ptable_p4) s P (free_empty_tables va s) P' ∧
      (live ≠ [] → (free_empty_tables va s).mem s.ptable_p4 = s.mem s.ptable_p4) ∧
      ∀ va', PML4_INDEX va' ≠ 0 → Held s.mem s.ptable_p4 va' →
        Held (free_empty_tables va s).mem s.ptable_p4 va' := by
  have hown := h.owns (kernelTree_mem s.ptable_p4 live)
  have hrow4 : s.entry (frameOf s.cr3, PML4_INDEX va) = s.mem s.ptable_p4 (PML4_INDEX va) :=
    h.current_row hlow
  have hstop : ∃ P', Edit (kernelTree s.ptable_p4) s P s P' ∧
      (live ≠ [] → s.mem s.ptable_p4 = s.mem s.ptable_p4) ∧
      ∀ va', PML4_INDEX va' ≠ 0 → Held s.mem s.ptable_p4 va' → Held s.mem s.ptable_p4 va' :=
    ⟨P, Edit.refl hown, fun _ => rfl, fun _ _ hheld => hheld⟩
  rw [free_empty_tables_eq]
  simp only [hrow4]
  split
  · exact hstop
  rename_i hp4
  split
  · exact hstop
  rename_i hp3
  split
  · exact hstop
  rename_i hp2
  simp only [Bool.or_eq_true, Bool.not_eq_true', not_or, Bool.not_eq_false] at hp4 hp3 hp2
  obtain ⟨pdpt, hpdpt⟩ : ∃ pdpt, pdpt = pfn (s.mem s.ptable_p4 (PML4_INDEX va)) := ⟨_, rfl⟩
  rw [← hpdpt] at hp3 hp2 ⊢
  have hc4 : childOf (s.mem s.ptable_p4 (PML4_INDEX va)) = some pdpt := by
    rw [hpdpt]
    exact childOf_of_present hp4.1
  -- the identity mapping has huge pages only
  have h0 : PML4_INDEX va ≠ 0 := by
    intro h0
    obtain ⟨c, _, hc, hbig⟩ := h.identity
    rw [h0, hc] at hc4
    cases hc4
    exact absurd (hbig (PDP_INDEX va)).2 hp3.1.2
  have hs4 : TreeSlot (kernelTree s.ptable_p4) s.mem 3 s.ptable_p4 (PML4_INDEX va) :=
    .root ((mem_kernelTree_slots _).mpr h0)
  have hs3 := hs4.into hc4 (PDP_INDEX va)
  have hc3 : childOf (s.mem pdpt (PDP_INDEX va)) = some (pfn (s.entry (pdpt, PDP_INDEX va))) :=
    childOf_of_present hp3.1.1
  obtain ⟨pd, hpd⟩ : ∃ pd, pd = pfn (s.entry (pdpt, PDP_INDEX va)) := ⟨_, rfl⟩
  rw [← hpd] at hp2 hc3 ⊢
  have hs2 := hs3.into hc3 (PD_INDEX va)
  have hc2 : childOf (s.mem pd (PD_INDEX va)) = some (pfn (s.entry (pd, PD_INDEX va))) :=
    childOf_of_present hp2.1.1
  -- the page table
  obtain ⟨P1, hedit1, habove1, hheld1⟩ := free_if_empty.spec hown hs2 hc2
  obtain ⟨s1, hs1⟩ : ∃ s1, s1 = free_if_empty (pd, PD_INDEX va) (pfn (s.entry (pd, PD_INDEX va))) s :=
    ⟨_, rfl⟩
  rw [← hs1] at hedit1 habove1 hheld1 ⊢
  have hroot1 : s1.mem s.ptable_p4 = s.mem s.ptable_p4 := habove1 _ _ _ hs4 (by omega)
  have hc3' : childOf (s1.mem pdpt (PDP_INDEX va)) = some pd := by
    rw [habove1 _ _ _ hs3 (by omega)]
    exact hc3
  have hc4' : childOf (s1.mem s.ptable_p4 (PML4_INDEX va)) = some pdpt := by
    rw [hroot1]
    exact hc4
  have hs4' : TreeSlot (kernelTree s.ptable_p4) s1.mem 3 s.ptable_p4 (PML4_INDEX va) :=
    .root ((mem_kernelTree_slots _).mpr h0)
  -- the page directory
  obtain ⟨P2, hedit2, habove2, hheld2⟩ :=
    free_if_empty.spec hedit1.owns (hs4'.into hc4' (PDP_INDEX va)) hc3'
  obtain ⟨s2, hs2'⟩ : ∃ s2, s2 = free_if_empty (pdpt, PDP_INDEX va) pd s1 := ⟨_, rfl⟩
  rw [← hs2'] at hedit2 habove2 hheld2 ⊢
  have hroot2 : s2.mem s.ptable_p4 = s.mem s.ptable_p4 := by
    rw [habove2 _ _ _ hs4' (by omega), hroot1]
  have hc4'' : childOf (s2.mem s.ptable_p4 (PML4_INDEX va)) = some pdpt := by
    rw [hroot2]
    exact hc4
  have hheld : ∀ va', PML4_INDEX va' ≠ 0 → Held s.mem s.ptable_p4 va' →
      Held s2.mem s.ptable_p4 va' := by
    intro va' hva' hh
    have hslots := (mem_kernelTree_slots s.ptable_p4).mpr hva'
    exact hheld2 va' hslots (hheld1 va' hslots hh)
  -- the PDPT
  by_cases hl : live = []
  · subst hl
    obtain ⟨P3, hedit3, _, hheld3⟩ := free_if_empty.spec hedit2.owns
      (.root ((mem_kernelTree_slots _).mpr h0)) hc4''
    rw [h.current_of_none]
    refine ⟨P3, (hedit1.trans hedit2).trans hedit3, fun hne => absurd rfl hne, ?_⟩
    intro va' hva' hh
    exact hheld3 va' ((mem_kernelTree_slots _).mpr hva') (hheld va' hva' hh)
  · obtain ⟨va', hva', hh⟩ := hkeep hl
    have hfull : page_table_empty (s2.mem pdpt) = false := by
      refine pdpt_in_use (hheld va' (by rw [hva']; exact h0) hh) ?_
      rw [hva']
      exact hc4''
    have hsame : free_if_empty (frameOf s.cr3, PML4_INDEX va) pdpt s2 = s2 := by
      simp [free_if_empty, hfull]
    rw [hsame]
    exact ⟨P2, hedit1.trans hedit2, fun _ => hroot2, hheld⟩

/-! ## Freeing heap pages -/

/-- The page table entry is cleared, and its frame is freed when it has one. -/
def clear_page (e : EntryPtr) (s : Machine) : Machine :=
  (if present (s.entry e) then MMU_pf_free (pfn_to_phys (pfn (s.entry e))) s else s).set_entry e 0

theorem clear_page.spec {e : EntryPtr} (h : Owns T s P) (hslot : TreeSlot T s.mem 0 e.1 e.2) :
    ∃ P', Edit T s P (clear_page e s) P' ∧ (clear_page e s).mem T.root = s.mem T.root ∧
      ∀ va e', PML4_INDEX va ∈ T.slots → lookup s.mem T.root va = some e' → s.mem e'.1 e'.2 ≠ 0 →
        e' ≠ e → Held (clear_page e s).mem T.root va := by
  have hroot := h.root_ne hslot (by omega)
  by_cases hp : present (s.entry e) = true
  · have hc : childOf (s.mem e.1 e.2) = some (pfn (s.entry e)) := childOf_of_present hp
    have hrun : clear_page e s = unlink e (pfn (s.entry e)) s := by
      simp [clear_page, unlink, hp]
    obtain ⟨hedit, hrow, hoff⟩ := unlink.spec h hslot hc (frames_zero _ _)
    have hroot' : T.root ≠ pfn (s.entry e) := by
      intro he
      refine (Multiset.nodup_cons.mp h.tree_nodup).1 (hslot.sub_subset ?_)
      rw [sub_of_some hc, he]
      exact root_mem_frames _ _ _
    rw [hrun]
    refine ⟨_, hedit, hoff _ hroot hroot', ?_⟩
    intro va e' hva hlook huse hne
    refine Held.kept h hslot (Or.inl rfl) hrow ?_ hva hlook huse fun _ => hne
    exact fun f hft hf => hoff f hft fun he => hf (he ▸ hc)
  · have habs : present (s.entry e) = false := by simpa using hp
    have hrun : clear_page e s = s.set_entry e 0 := by
      simp [clear_page, habs]
    rw [hrun]
    refine ⟨P, edit_of_reserved h hslot (childOf_of_absent habs) childOf_zero, ?_, ?_⟩
    · rw [set_entry_mem, setWord_of_ne hroot]
    · intro va e' hva hlook huse hne
      refine Held.kept h hslot (Or.inl rfl) ?_ ?_ hva hlook huse fun _ => hne
      · exact fun j hj => setWord_word_of_ne _ _ hj _
      · exact fun f hft _ => setWord_of_ne hft _ _

theorem MMU_free_page_eq (vaddr : Word) (s : Machine) :
    MMU_free_page vaddr s =
      match lookup s.mem (frameOf s.cr3) (vaddr &&& PAGE_MASK) with
      | none => s
      | some e => free_empty_tables (vaddr &&& PAGE_MASK) (clear_page e s) := by
  unfold MMU_free_page travel_pagetable
  simp only [travel_pagetable_in.of_lookup]
  rcases lookup s.mem (frameOf s.cr3) (vaddr &&& PAGE_MASK) with _ | e
  · rfl
  · rfl

/-- Two walks that end at the same entry are for the same page. -/
theorem page_path_of_lookup {e : EntryPtr} (h : Owns T s P) (hva : PML4_INDEX va ∈ T.slots)
    (hva' : PML4_INDEX va' ∈ T.slots) (h1 : lookup s.mem T.root va = some e)
    (h2 : lookup s.mem T.root va' = some e) : page_path va = page_path va' := by
  have hpath : ∀ {va}, lookup s.mem T.root va = some e →
      follow childOf s.mem T.root [PML4_INDEX va, PDP_INDEX va, PD_INDEX va] = some e.1 ∧
        e.2 = PT_INDEX va := by
    intro va hlook
    obtain ⟨pdpt, pd, h3, h2, h1, hPT⟩ := lookup_eq_some hlook
    simp [follow, (childOf_of_nextTable h3).2, (childOf_of_nextTable h2).2,
      (childOf_of_nextTable h1).2, hPT]
  have hS : ∀ {va}, PML4_INDEX va ∈ T.slots →
      ∀ i ∈ [PML4_INDEX va, PDP_INDEX va, PD_INDEX va].head?, i ∈ T.slots := by
    intro va hva i hi
    cases hi
    exact hva
  have heq := follow_unique h.tree_nodup (hpath h1).1 (hpath h2).1 (hS hva) (hS hva') (by simp)
    (by simp)
  have hPT : PT_INDEX va = PT_INDEX va' := (hpath h1).2.symm.trans (hpath h2).2
  simp only [List.cons.injEq, and_true] at heq
  simp [page_path, heq, hPT]

/-- Below user space a walk under any P4 ends in the kernel's tree. -/
theorem Sound.kernel_lookup {e : EntryPtr} (h : Sound s live R P) (hlow : PML4_INDEX va ∉ userSlots)
    (hlook : lookup s.mem (frameOf s.cr3) va = some e) :
    lookup s.mem s.ptable_p4 va = some e ∧ TreeSlot (kernelTree s.ptable_p4) s.mem 0 e.1 e.2 := by
  have hkernel : walked va s = kernelTree s.ptable_p4 := by
    unfold walked
    exact if_neg fun hu => hlow hu.1
  obtain ⟨_, hlook, hva⟩ := h.walked_lookup hlook
  rw [hkernel] at hlook hva
  exact ⟨hlook, JamsOs.slot_of_lookup hva hlook⟩

/-- While there are address spaces, another page in use keeps the P4 entry of the freed page. -/
theorem MMU_free_page.kernel {vaddr : Word} (h : Sound s live R P)
    (hlow : PML4_INDEX (vaddr &&& PAGE_MASK) ∉ userSlots)
    (hkeep : live ≠ [] → present (s.mem s.ptable_p4 (PML4_INDEX (vaddr &&& PAGE_MASK))) = true →
      ∃ va', PML4_INDEX va' = PML4_INDEX (vaddr &&& PAGE_MASK) ∧
        page_path va' ≠ page_path (vaddr &&& PAGE_MASK) ∧ Held s.mem s.ptable_p4 va') :
    ∃ P', Sound (MMU_free_page vaddr s) live R P' ∧
      Edit (kernelTree s.ptable_p4) s P (MMU_free_page vaddr s) P' ∧
      (live ≠ [] → (MMU_free_page vaddr s).mem s.ptable_p4 = s.mem s.ptable_p4) ∧
      ∀ va', page_path va' ≠ page_path (vaddr &&& PAGE_MASK) →
        Held s.mem s.ptable_p4 va' → Held (MMU_free_page vaddr s).mem s.ptable_p4 va' := by
  rw [MMU_free_page_eq]
  generalize vaddr &&& PAGE_MASK = va at hlow hkeep ⊢
  rcases hlook : lookup s.mem (frameOf s.cr3) va with _ | e
  · exact ⟨P, h, .refl (h.owns (kernelTree_mem _ _)), fun _ => rfl, fun _ _ hheld => hheld⟩
  simp only
  have hK := kernelTree_mem s.ptable_p4 live
  obtain ⟨hlook', hslot⟩ := h.kernel_lookup hlow hlook
  have h0 := h.lookup_ne_zero hlook'
  obtain ⟨P1, hedit1, hroot1, hclear⟩ := clear_page.spec (h.owns hK) hslot
  have hroot1 : (clear_page e s).mem s.ptable_p4 = s.mem s.ptable_p4 := hroot1
  have hp4 := hedit1.regs.ptable_p4
  have hsound1 : Sound (clear_page e s) live R P1 := by
    refine h.edit hK hedit1 fun _ i _ => ?_
    rw [hroot1]
  have hheld1 : ∀ va', page_path va' ≠ page_path va →
      Held s.mem s.ptable_p4 va' → Held (clear_page e s).mem s.ptable_p4 va' := by
    rintro va' hne ⟨e', he', huse⟩
    have hva' := (mem_kernelTree_slots s.ptable_p4).mpr (h.lookup_ne_zero he')
    refine hclear va' e' hva' he' huse ?_
    rintro rfl
    exact hne (page_path_of_lookup (h.owns hK) hva' ((mem_kernelTree_slots _).mpr h0) he' hlook')
  have hkeep1 : live ≠ [] → ∃ va', PML4_INDEX va' = PML4_INDEX va ∧
      Held (clear_page e s).mem (clear_page e s).ptable_p4 va' := by
    intro hl
    obtain ⟨pdpt, pd, h3, _, _, _⟩ := lookup_eq_some hlook'
    obtain ⟨va', hva', hne, hh⟩ := hkeep hl (childOf_eq_some.mp (childOf_of_nextTable h3).2).1
    refine ⟨va', hva', ?_⟩
    rw [hp4]
    exact hheld1 va' hne hh
  obtain ⟨P2, hedit2, hroot2, hheld2⟩ := free_empty_tables.kernel hsound1 hlow hkeep1
  refine ⟨P2, hsound1.edit (kernelTree_mem _ _) hedit2 ?_, hedit1.trans (hp4 ▸ hedit2), ?_, ?_⟩
  · intro hl i _
    rw [hroot2 hl]
  · rw [hp4, hroot1] at hroot2
    exact hroot2
  · rw [hp4] at hheld2
    intro va' hne hh
    have hva' : PML4_INDEX va' ≠ 0 := by
      obtain ⟨_, hlook1, _⟩ := hh
      exact h.lookup_ne_zero hlook1
    exact hheld2 va' hva' (hheld1 va' hne hh)

/-! ## Ranges of heap pages -/

/-- Page `j` of the range from `base` on. -/
def range_page (base : Word) (j : Nat) : Word := base + BitVec.ofNat 64 j * PAGE_SIZE

/-- The P4 entries of the pages are there. -/
def HasSlots (s : Machine) (base : Word) (n : Nat) : Prop :=
  ∀ j < n, present (s.mem s.ptable_p4 (PML4_INDEX (range_page base j))) = true

/-- Each P4 entry of the pages that is there has a page in use outside of the range. -/
def KeepsSlots (s : Machine) (base : Word) (n : Nat) : Prop :=
  ∀ j < n, present (s.mem s.ptable_p4 (PML4_INDEX (range_page base j))) = true →
    ∃ va', PML4_INDEX va' = PML4_INDEX (range_page base j) ∧ Held s.mem s.ptable_p4 va' ∧
      ∀ j' < n, page_path va' ≠ page_path (range_page base j')

/-- The range does not reach into user space. -/
def KernelRange (base : Word) (n : Nat) : Prop := base.toNat + n * 4096 ≤ VA_USER_BASE.toNat

instance (base : Word) (n : Nat) : Decidable (KernelRange base n) :=
  inferInstanceAs (Decidable (_ ≤ _))

theorem PML4_INDEX_kernel (h : va.toNat < VA_USER_BASE.toNat) : PML4_INDEX va ∉ userSlots := by
  rw [VA_USER_BASE_toNat] at h
  rw [mem_userSlots]
  unfold PML4_INDEX table_index
  simp only
  omega

theorem range_page_toNat {base : Word} {n j : Nat} (h : KernelRange base n) (hj : j < n) :
    (range_page base j).toNat = base.toNat + j * 4096 := by
  unfold KernelRange at h
  rw [VA_USER_BASE_toNat] at h
  unfold range_page
  rw [BitVec.toNat_add, BitVec.toNat_mul, PAGE_SIZE_toNat, BitVec.toNat_ofNat]
  omega

theorem range_page_zero (base : Word) : range_page base 0 = base := by
  simp [range_page]

theorem KernelRange.low {base : Word} {n j : Nat} (h : KernelRange base n) (hj : j < n) :
    PML4_INDEX (range_page base j) ∉ userSlots := by
  apply PML4_INDEX_kernel
  rw [range_page_toNat h hj]
  unfold KernelRange at h
  omega

/-- A page of a range that starts at a page is at a page itself. -/
theorem range_page_masked {base : Word} {n j : Nat} (h : KernelRange base n) (hj : j < n)
    (hbase : base.toNat % 4096 = 0) : range_page base j &&& PAGE_MASK = range_page base j := by
  apply BitVec.eq_of_toNat_eq
  rw [masked_toNat, range_page_toNat h hj]
  omega

theorem free_pages_loop.kernel {base : Word} {N : Nat} (hrange : KernelRange base N)
    (hbase : base.toNat % 4096 = 0) (n i : Nat) (hn : i + n = N)
    (hkeep : live ≠ [] → KeepsSlots s base N) (h : Sound s live R P) :
    ∃ P', Sound (free_pages_loop base i n s) live R P' ∧
      Exchanged (kernelTree s.ptable_p4) s P (free_pages_loop base i n s) P' := by
  induction n generalizing i s P with
  | zero => exact ⟨P, h, .refl _ s P⟩
  | succ n ih =>
    have hi : i < N := by omega
    have hmask := range_page_masked hrange hi hbase
    have hkeep1 : live ≠ [] → present (s.mem s.ptable_p4 (PML4_INDEX (range_page base i))) = true →
        ∃ va', PML4_INDEX va' = PML4_INDEX (range_page base i) ∧
          page_path va' ≠ page_path (range_page base i) ∧ Held s.mem s.ptable_p4 va' := by
      intro hl hp
      obtain ⟨va', hva', hh, hne⟩ := hkeep hl i hi hp
      exact ⟨va', hva', hne i hi, hh⟩
    have hlow := hrange.low hi
    rw [← hmask] at hkeep1 hlow
    obtain ⟨P1, hs1, hedit1, hroot, hheld⟩ := MMU_free_page.kernel h hlow hkeep1
    rw [hmask] at hheld
    have hp4 := hedit1.regs.ptable_p4
    have hstep : free_pages_loop base i (n + 1) s =
        free_pages_loop base (i + 1) n (MMU_free_page (range_page base i) s) := rfl
    -- the pages outside of the range are still in use
    have hkeep' : live ≠ [] → KeepsSlots (MMU_free_page (range_page base i) s) base N := by
      intro hl j hj hp
      rw [hp4, hroot hl] at hp
      obtain ⟨va', hva', hh, hne⟩ := hkeep hl j hj hp
      refine ⟨va', hva', ?_, hne⟩
      rw [hp4]
      exact hheld va' (hne i hi) hh
    obtain ⟨P', hs, hex⟩ := ih (i + 1) (by omega) hkeep' hs1
    rw [hp4] at hex
    rw [hstep]
    exact ⟨P', hs, hedit1.exchanged.trans hex⟩

/-- Interrupts and `kernel_va` play no role in the invariant. -/
theorem Sound.registers (h : Sound s live R P) (b : Bool) (kernel_va : Word) :
    Sound { s with interrupts := b, kernel_va := kernel_va } live R P :=
  h.off_pool (h.pool.congr rfl rfl fun _ _ => rfl) rfl (fun _ hf => hf) (fun _ hf => hf)
    (fun _ _ => rfl) rfl rfl

theorem Sound.restore (h : Sound s live R P) (b : Bool) :
    Sound (restore_interrupts b s) live R P := by
  unfold restore_interrupts
  split
  · exact h.registers true s.kernel_va
  · exact h

theorem Exchanged.set_va (h : Exchanged T s P s' P') (kernel_va : Word) :
    Exchanged T s P { s' with kernel_va := kernel_va } P' := ⟨h.1, h.2, h.3, h.4⟩

theorem Exchanged.restore (h : Exchanged T s P s' P') (b : Bool) :
    Exchanged T s P (restore_interrupts b s') P' := by
  unfold restore_interrupts
  split
  · exact ⟨h.1, h.2, h.3, h.4⟩
  · exact h

theorem MMU_alloc_pages.kernel (num : BitVec 32) (h : Sound s live R P)
    (hrange : KernelRange s.kernel_va num.toInt.toNat)
    (hready : live ≠ [] → HasSlots s s.kernel_va num.toInt.toNat) :
    ∃ P', Sound (MMU_alloc_pages num s).2 live R P' ∧
      Exchanged (kernelTree s.ptable_p4) s P (MMU_alloc_pages num s).2 P' := by
  have hcli : Sound (CLI s) live R P := h.registers false s.kernel_va
  obtain ⟨r, s', P', hrun, hs, hex⟩ := alloc_pages_loop.kernel (s := CLI s) s.kernel_va num.toInt.toNat 0
    (fun j _ hj => hrange.low (by omega)) (fun hl j _ hj => hready hl j (by omega)) hcli
  have hex : Exchanged (kernelTree s.ptable_p4) s P s' P' := ⟨hex.1, hex.2, hex.3, hex.4⟩
  unfold MMU_alloc_pages
  simp only [hrun]
  cases r with
  | false => exact ⟨P', hs.restore _, hex.restore _⟩
  | true => exact ⟨P', (hs.registers s'.interrupts _).restore _, (hex.set_va _).restore _⟩

theorem MMU_alloc_page.kernel (h : Sound s live R P) (hrange : KernelRange s.kernel_va 1)
    (hready : live ≠ [] → HasSlots s s.kernel_va 1) :
    ∃ P', Sound (MMU_alloc_page s).2 live R P' ∧
      Exchanged (kernelTree s.ptable_p4) s P (MMU_alloc_page s).2 P' := by
  have hcli : Sound (CLI s) live R P := h.registers false s.kernel_va
  have hlow := hrange.low (show 0 < 1 by omega)
  have hslot := fun hl => hready hl 0 (by omega)
  rw [range_page_zero] at hlow hslot
  obtain ⟨r, s', P', hrun, hs, hedit, _⟩ := demand_page.kernel hcli hlow hslot
  have hex : Exchanged (kernelTree s.ptable_p4) s P s' P' :=
    ⟨hedit.total, hedit.off, hedit.regs.kernel_cr3, hedit.regs.cr3⟩
  unfold MMU_alloc_page
  simp only [hrun]
  cases r with
  | false => exact ⟨P', hs.restore _, hex.restore _⟩
  | true => exact ⟨P', (hs.registers s'.interrupts _).restore _, (hex.set_va _).restore _⟩

theorem MMU_free_pages.kernel {vaddr : Word} {num : BitVec 32} (h : Sound s live R P)
    (hrange : KernelRange (vaddr &&& PAGE_MASK) num.toInt.toNat)
    (hkeep : live ≠ [] → KeepsSlots s (vaddr &&& PAGE_MASK) num.toInt.toNat) :
    ∃ P', Sound (MMU_free_pages vaddr num s) live R P' ∧
      Exchanged (kernelTree s.ptable_p4) s P (MMU_free_pages vaddr num s) P' := by
  refine free_pages_loop.kernel hrange ?_ _ 0 (by omega) hkeep h
  rw [masked_toNat]
  omega

theorem MMU_free_page.one {vaddr : Word} (h : Sound s live R P)
    (hrange : KernelRange (vaddr &&& PAGE_MASK) 1)
    (hkeep : live ≠ [] → KeepsSlots s (vaddr &&& PAGE_MASK) 1) :
    ∃ P', Sound (MMU_free_page vaddr s) live R P' ∧
      Edit (kernelTree s.ptable_p4) s P (MMU_free_page vaddr s) P' := by
  have hlow := hrange.low (show 0 < 1 by omega)
  rw [range_page_zero] at hlow
  obtain ⟨P', hs, hedit, -⟩ := MMU_free_page.kernel h hlow fun hl hp => by
    obtain ⟨va', hva', hh, hne⟩ := hkeep hl 0 (by omega) (by
      rw [range_page_zero]
      exact hp)
    have hne := hne 0 (by omega)
    rw [range_page_zero] at hva' hne
    exact ⟨va', hva', hne, hh⟩
  exact ⟨P', hs, hedit⟩

end

/-! ## Runs -/

/-- What is done to the kernel heap and to the address spaces. -/
inductive HeapEvent where
  | alloc_page
  | alloc_pages (num : BitVec 32)
  | free_page (vaddr : Word)
  | free_pages (vaddr : Word) (num : BitVec 32)
  | space (e : SpaceEvent)

/-- One event. The heap is what lies below user space, and its calls run under the P4 that is
current. -/
def heap_step : HeapEvent → Spaces → Option Spaces
  | .alloc_page, w =>
    if KernelRange w.machine.kernel_va 1 then
      some { w with machine := (MMU_alloc_page w.machine).2 }
    else none
  | .alloc_pages num, w =>
    if KernelRange w.machine.kernel_va num.toInt.toNat then
      some { w with machine := (MMU_alloc_pages num w.machine).2 }
    else none
  | .free_page vaddr, w =>
    if KernelRange (vaddr &&& PAGE_MASK) 1 then
      some { w with machine := MMU_free_page vaddr w.machine }
    else none
  | .free_pages vaddr num, w =>
    if KernelRange (vaddr &&& PAGE_MASK) num.toInt.toNat then
      some { w with machine := MMU_free_pages vaddr num w.machine }
    else none
  | .space e, w => space_step e w

/-- While there are address spaces, pages are taken only where the P4 entry is there already, and
given back only where another page in use keeps the P4 entry. -/
def KeepsP4 : HeapEvent → Spaces → Prop
  | .alloc_page, w => w.live = [] ∨ HasSlots w.machine w.machine.kernel_va 1
  | .alloc_pages num, w =>
    w.live = [] ∨ HasSlots w.machine w.machine.kernel_va num.toInt.toNat
  | .free_page vaddr, w => w.live = [] ∨ KeepsSlots w.machine (vaddr &&& PAGE_MASK) 1
  | .free_pages vaddr num, w =>
    w.live = [] ∨ KeepsSlots w.machine (vaddr &&& PAGE_MASK) num.toInt.toNat
  | .space _, _ => True

theorem heap_step_keeps_sound (e : HeapEvent) (w w' : Spaces)
    (h : ∃ R P, Sound w.machine w.live R P) (hok : KeepsP4 e w) (hstep : heap_step e w = some w') :
    ∃ R P, Sound w'.machine w'.live R P := by
  cases e with
  | alloc_page =>
    obtain ⟨R, P, h⟩ := h
    simp only [heap_step] at hstep
    split at hstep
    · rename_i hrange
      cases hstep
      obtain ⟨P', hs, _⟩ := MMU_alloc_page.kernel h hrange fun hl => hok.resolve_left hl
      exact ⟨R, P', hs⟩
    · cases hstep
  | alloc_pages num =>
    obtain ⟨R, P, h⟩ := h
    simp only [heap_step] at hstep
    split at hstep
    · rename_i hrange
      cases hstep
      obtain ⟨P', hs, _⟩ := MMU_alloc_pages.kernel num h hrange fun hl => hok.resolve_left hl
      exact ⟨R, P', hs⟩
    · cases hstep
  | free_page vaddr =>
    obtain ⟨R, P, h⟩ := h
    simp only [heap_step] at hstep
    split at hstep
    · rename_i hrange
      cases hstep
      obtain ⟨P', hs, _⟩ := MMU_free_page.one h hrange fun hl => hok.resolve_left hl
      exact ⟨R, P', hs⟩
    · cases hstep
  | free_pages vaddr num =>
    obtain ⟨R, P, h⟩ := h
    simp only [heap_step] at hstep
    split at hstep
    · rename_i hrange
      cases hstep
      obtain ⟨P', hs, _⟩ := MMU_free_pages.kernel h hrange fun hl => hok.resolve_left hl
      exact ⟨R, P', hs⟩
    · cases hstep
  | space e => exact space_step_keeps_sound e w w' h hstep

/-- Two P4s with the same entry for an address translate it in the same way. -/
theorem access_of_row {m : Nat → Frame} {p4 p4' : Nat} {va : Word}
    (h : m p4' (PML4_INDEX va) = m p4 (PML4_INDEX va)) :
    walk 4 m p4' va = walk 4 m p4 va ∧ page 4 m p4' va = page 4 m p4 va := by
  have h : m p4' (table_index (12 + 9 * 3) va) = m p4 (table_index (12 + 9 * 3) va) := h
  unfold walk page
  simp only [h, and_self]

/-- From a machine with no address space yet, in every run of heap calls, page faults, switches and
calls on address spaces that neither makes nor clears a P4 entry below user space while there
are address spaces, all address spaces and the kernel translate every kernel address alike. -/
theorem kernel_half_is_coherent (s : Machine) (R : Multiset Nat) (P0 : List Nat)
    (es : List HeapEvent) (w : Spaces) (h : Sound s [] R P0)
    (hmeets : Runs.Meets heap_step KeepsP4 es ⟨s, []⟩)
    (hrun : Runs.run heap_step es ⟨s, []⟩ = some w) :
    ∀ cr3 ∈ w.live, ∀ va, va.toNat < VA_USER_BASE.toNat →
      walk 4 w.machine.mem (frameOf cr3) va = walk 4 w.machine.mem w.machine.ptable_p4 va ∧
      page 4 w.machine.mem (frameOf cr3) va = page 4 w.machine.mem w.machine.ptable_p4 va := by
  obtain ⟨R', P, hs⟩ := Runs.run_keeps_of_meets
    (I := fun w : Spaces => ∃ R P, Sound w.machine w.live R P)
    (fun e w w' h hok hstep => heap_step_keeps_sound e w w' h hok hstep) ⟨R, P0, h⟩ hmeets hrun
  intro cr3 hcr3 va hva
  exact access_of_row (hs.shared cr3 hcr3 _ (PML4_INDEX_kernel hva))

/-- The heap gets its first page before there is an address space, and its second one after that. -/
theorem kernel_half_is_coherent_booted :
    ∃ w, Runs.run heap_step [.alloc_page, .space .create, .alloc_page] ⟨booted, []⟩ = some w ∧
      w.live = [0x23000] ∧
      ∀ cr3 ∈ w.live, ∀ va, va.toNat < VA_USER_BASE.toNat →
        walk 4 w.machine.mem (frameOf cr3) va = walk 4 w.machine.mem w.machine.ptable_p4 va := by
  have hlive : (Runs.run heap_step [.alloc_page, .space .create, .alloc_page] ⟨booted, []⟩).map
      Spaces.live = some [0x23000] := by
    decide +kernel
  obtain ⟨w, hrun, hw⟩ := Option.map_eq_some_iff.mp hlive
  have hmeets : Runs.Meets heap_step KeepsP4 [.alloc_page, .space .create, .alloc_page]
      ⟨booted, []⟩ := by
    refine ⟨Or.inl rfl, fun w1 h1 => ⟨trivial, fun w2 h2 => ⟨Or.inr ?_, fun _ _ => trivial⟩⟩⟩
    have hslot : (Runs.run heap_step [.alloc_page, .space .create] ⟨booted, []⟩).map (fun w =>
        present (w.machine.mem w.machine.ptable_p4 (PML4_INDEX w.machine.kernel_va))) = some true := by
      decide +kernel
    simp only [Runs.run, h1, h2, Option.bind_some, Option.map_some, Option.some.injEq] at hslot
    intro j hj
    have hj0 : j = 0 := by omega
    rw [hj0, range_page_zero]
    exact hslot
  exact ⟨w, hrun, hw, fun cr3 hcr3 va hva =>
    (kernel_half_is_coherent booted {2} unpagedPool _ w booted_sound hmeets hrun cr3 hcr3 va hva).1⟩

/-- An address space is made before the heap gets its first page: the new P4 entry is missing in
the P4 of that address space. -/
theorem heap_growth_is_not_shared :
    ∃ w, Runs.run heap_step [.space .create, .alloc_page] ⟨booted, []⟩ = some w ∧
      0x20000 ∈ w.live ∧
      walk 4 w.machine.mem (frameOf 0x20000) VA_KHEAP_BASE ≠
        walk 4 w.machine.mem w.machine.ptable_p4 VA_KHEAP_BASE := by
  have hrun : (Runs.run heap_step [.space .create, .alloc_page] ⟨booted, []⟩).map
      (fun w => decide (0x20000 ∈ w.live ∧ walk 4 w.machine.mem (frameOf 0x20000) VA_KHEAP_BASE ≠
        walk 4 w.machine.mem w.machine.ptable_p4 VA_KHEAP_BASE)) = some true := by
    decide +kernel
  obtain ⟨w, hrun, hw⟩ := Option.map_eq_some_iff.mp hrun
  exact ⟨w, hrun, of_decide_eq_true hw⟩

end JamsOs
