-- What the pages of an address space hold. A page has its word in a page table and, where
-- this word names a frame, the contents of that frame. Each function of `vpages.c` that
-- maps pages is described by what it does to these two.
import JamsOs.KernelHalf

namespace JamsOs

open Words RadixTree

/-! ## Pages by their addresses -/

/-- The word for the page of `va` in its page table, or 0 when it has no page table. -/
def page_word (m : Nat → Frame) (p4 : Nat) (va : Word) : Word :=
  match lookup m p4 va with
  | none => 0
  | some e => m e.1 e.2

/-- The page is reserved: on demand, or with a frame. -/
def reserved (w : Word) : Bool := demand w || present w

/-- The word for a page, and the contents of its frame. -/
def page_view (m : Nat → Frame) (p4 : Nat) (va : Word) : Word × Option Frame :=
  (page_word m p4 va, (childOf (page_word m p4 va)).map m)

/-- The tables that a walk from a table of height `k + 1` would have to make. -/
def missing_below : Nat → (Nat → Frame) → Nat → Word → Nat
  | 0, _, _, _ => 0
  | k + 1, m, t, va =>
    match nextTable (k + 1) (m t (table_index (12 + 9 * (k + 1)) va)) with
    | none => k + 1
    | some c => missing_below k m c va

/-- The tables that reserving the page of `va` would have to make. -/
def missing (m : Nat → Frame) (p4 : Nat) (va : Word) : Nat := missing_below 3 m p4 va

section

variable {T : Tree} {s s1 s' : Machine} {P P1 P' : List Nat} {k t c : Nat} {i : Fin 512}
  {m m' : Nat → Frame} {w va va' : Word} {e : EntryPtr} {path : List (Fin 512)}

theorem page_path_eq_iff :
    page_path va = page_path va' ↔ va.toNat / 4096 % 2 ^ 36 = va'.toNat / 4096 % 2 ^ 36 := by
  simp only [page_path, PML4_INDEX, PDP_INDEX, PD_INDEX, PT_INDEX, table_index, List.cons.injEq,
    Fin.mk.injEq, and_true]
  omega

theorem lookup_of_path {p4 : Nat} (h : page_path va = page_path va') :
    lookup m p4 va = lookup m p4 va' := by
  simp only [page_path, List.cons.injEq, and_true] at h
  unfold lookup lookup_below
  rw [h.1, h.2.1, h.2.2.1, h.2.2.2]

theorem page_view_of_path {p4 : Nat} (h : page_path va = page_path va') :
    page_view m p4 va = page_view m p4 va' := by
  unfold page_view page_word
  rw [lookup_of_path h]

theorem page_word_of_lookup {p4 : Nat} (h : lookup m p4 va = some e) :
    page_word m p4 va = m e.1 e.2 := by
  rw [page_word, h]

theorem page_view_of_none {p4 : Nat} (h : lookup m p4 va = none) : page_view m p4 va = (0, none) := by
  rw [page_view, page_word, h]
  rfl

theorem nextTable_of_plain (h : Plain (hasBig k) k m w) : nextTable k w = childOf w := by
  unfold nextTable
  rcases hp : present w with _ | _
  · rw [leads_of_absent hp, childOf_of_absent hp]
    rfl
  · rw [leads_of_plain h hp, childOf_of_present hp]
    rfl

theorem At.noBig {K r : Nat} (h : At childOf m K r (k + 1) t) (hb : NoBig K m r) :
    NoBig (k + 1) m t := by
  generalize hn : k + 1 = n at h ⊢
  induction h with
  | here => exact hb
  | @down K r n t c j hc hat ih =>
    subst hn
    cases K with
    | zero => cases hat
    | succ K =>
      obtain ⟨hp, hpfn⟩ := childOf_eq_some.mp hc
      refine ih ?_ rfl
      rw [← hpfn]
      exact (hb j hp).2

/-- No entry of a tree maps a huge page. -/
theorem plain_slot (hplain : ∀ i ∈ T.slots, Plain false 3 m (m T.root i))
    (hslot : TreeSlot T m k t i) : Plain (hasBig k) k m (m t i) := by
  cases hslot with
  | root hi => exact hplain i hi
  | @below j _ c _ _ hj hc hat =>
    obtain ⟨hp, hpfn⟩ := childOf_eq_some.mp hc
    have hb := (hplain j hj hp).2
    rw [hpfn] at hb
    exact plain_below (At.noBig hat hb) i

/-- The walk follows the entries of the tree. -/
theorem lookup_eq_follow (hplain : ∀ i ∈ T.slots, Plain false 3 m (m T.root i))
    (hva : PML4_INDEX va ∈ T.slots) :
    lookup m T.root va = (follow childOf m T.root [PML4_INDEX va, PDP_INDEX va, PD_INDEX va]).map
      fun t => (t, PT_INDEX va) := by
  have hs3 : TreeSlot T m 3 T.root (PML4_INDEX va) := .root hva
  simp only [lookup, lookup_below, follow, nextTable_of_plain (plain_slot hplain hs3)]
  rcases h3 : childOf (m T.root (PML4_INDEX va)) with _ | pdpt
  · rfl
  have hs2 := hs3.into h3 (PDP_INDEX va)
  simp only [Option.bind_eq_bind, Option.bind_some, nextTable_of_plain (plain_slot hplain hs2)]
  rcases h2 : childOf (m pdpt (PDP_INDEX va)) with _ | pd
  · rfl
  have hs1 := hs2.into h2 (PD_INDEX va)
  simp only [Option.bind_some, nextTable_of_plain (plain_slot hplain hs1)]
  rcases childOf (m pd (PD_INDEX va)) with _ | pt
  · rfl
  · rfl

theorem page_path_eq (va : Word) :
    page_path va = [PML4_INDEX va, PDP_INDEX va, PD_INDEX va] ++ [PT_INDEX va] := rfl

/-- The table of a page, by its path. -/
theorem Owns.pathTo (h : Owns T s P) (hva : PML4_INDEX va ∈ T.slots)
    (hlook : lookup s.mem T.root va = some e) :
    e.2 = PT_INDEX va ∧ PathTo childOf s.mem T.slots 3 T.root 0 e.1 e.2
      [PML4_INDEX va, PDP_INDEX va, PD_INDEX va] := by
  rw [lookup_eq_follow h.plain hva] at hlook
  obtain ⟨pt, hf, he⟩ := Option.map_eq_some_iff.mp hlook
  cases he
  refine ⟨rfl, h.tree_nodup, hf, ?_, rfl⟩
  intro j hj
  cases hj
  exact hva

/-! ## Pages that look the same -/

/-- One entry changes, and the frames below it. A page whose walk does not go through the entry
looks the same. -/
theorem page_view_kept (h : Owns T s P) (hpath : PathTo childOf s.mem T.slots 3 T.root k t i path)
    (hrow : ∀ j, j ≠ i → m' t j = s.mem t j)
    (hoff : ∀ f ∈ treeFrames s.mem T, f ≠ t → f ∉ sub childOf k s.mem (s.mem t i) →
      m' f = s.mem f)
    (hplain : ∀ j ∈ T.slots, Plain false 3 m' (m' T.root j)) (hva : PML4_INDEX va ∈ T.slots)
    (hne : ¬ path ++ [i] <+: page_path va) :
    page_view m' T.root va = page_view s.mem T.root va := by
  have hS : ∀ j ∈ (page_path va).head?, j ∈ T.slots := by
    intro j hj
    cases hj
    exact hva
  have hlen := hpath.length
  have hne3 : ¬ path ++ [i] <+: [PML4_INDEX va, PDP_INDEX va, PD_INDEX va] := by
    intro hpre
    exact hne (hpre.trans (List.prefix_append _ _))
  have hfollow := hpath.follow_kept hrow hoff (head_of_append hS) (by simp) hne3
  rw [page_path_eq] at hS
  rcases hf : follow childOf s.mem T.root [PML4_INDEX va, PDP_INDEX va, PD_INDEX va] with _ | pt
  · rw [page_view_of_none (by rw [lookup_eq_follow hplain hva, hfollow, hf]; rfl),
      page_view_of_none (by rw [lookup_eq_follow h.plain hva, hf]; rfl)]
  have hword : m' pt (PT_INDEX va) = s.mem pt (PT_INDEX va) :=
    hpath.entry_kept hrow hoff hf (head_of_append hS) (by simp) hne
  have hlook : lookup s.mem T.root va = some (pt, PT_INDEX va) := by
    rw [lookup_eq_follow h.plain hva, hf]
    rfl
  have hlook' : lookup m' T.root va = some (pt, PT_INDEX va) := by
    rw [lookup_eq_follow hplain hva, hfollow, hf]
    rfl
  unfold page_view
  rw [page_word_of_lookup hlook, page_word_of_lookup hlook', hword]
  rcases hc : childOf (s.mem pt (PT_INDEX va)) with _ | f
  · rfl
  -- the frame of the page is none of those that change
  have hpage : follow childOf s.mem T.root (page_path va) = some f := follow_append hf hc
  rw [Option.map_some, Option.map_some, hpath.frame_kept hoff hpage hS (by simp [page_path]) hne]
  rintro rfl
  simp only [page_path, List.length_cons, List.length_nil] at hlen
  omega

/-- A page below an entry that leads nowhere, or to a table of zeros, is not there. -/
theorem page_view_of_dead (hplain : ∀ j ∈ T.slots, Plain false 3 m (m T.root j))
    (hva : PML4_INDEX va ∈ T.slots) (hleads : follow childOf m T.root path = some t)
    (hthrough : path ++ [i] <+: page_path va) (hlen : path.length < 3)
    (hdead : ∀ c, childOf (m t i) = some c → ∀ j, m c j = 0) :
    page_view m T.root va = (0, none) := by
  have hpre : path ++ [i] <+: [PML4_INDEX va, PDP_INDEX va, PD_INDEX va] := by
    refine List.prefix_of_prefix_length_le hthrough (List.prefix_append _ [PT_INDEX va]) ?_
    simp only [List.length_append, List.length_cons, List.length_nil]
    omega
  obtain ⟨rest, hrest⟩ := hpre
  have hfollow : follow childOf m T.root [PML4_INDEX va, PDP_INDEX va, PD_INDEX va] =
      (childOf (m t i)).bind fun c => follow childOf m c rest := by
    rw [← hrest, follow_append_path, follow_concat, hleads]
    rfl
  rcases hc : childOf (m t i) with _ | c
  · rw [hc] at hfollow
    exact page_view_of_none (by rw [lookup_eq_follow hplain hva, hfollow]; rfl)
  rw [hc, Option.bind_some] at hfollow
  cases rest with
  | nil =>
    have hlook : lookup m T.root va = some (c, PT_INDEX va) := by
      rw [lookup_eq_follow hplain hva, hfollow]
      rfl
    rw [page_view, page_word_of_lookup hlook, hdead c hc]
    rfl
  | cons j rest =>
    have hnone : follow childOf m c (j :: rest) = none := by
      rw [follow, hdead c hc]
      rfl
    rw [hnone] at hfollow
    exact page_view_of_none (by rw [lookup_eq_follow hplain hva, hfollow]; rfl)

/-- All pages of the tree look the same. -/
def SamePages (T : Tree) (m m' : Nat → Frame) : Prop :=
  ∀ va, PML4_INDEX va ∈ T.slots → page_view m' T.root va = page_view m T.root va

/-- All pages of the tree but that of `va` look the same. -/
def SameBut (T : Tree) (va : Word) (m m' : Nat → Frame) : Prop :=
  ∀ va', PML4_INDEX va' ∈ T.slots → page_path va' ≠ page_path va →
    page_view m' T.root va' = page_view m T.root va'

theorem SamePages.refl (T : Tree) (m : Nat → Frame) : SamePages T m m := fun _ _ => rfl

theorem SamePages.trans {m1 : Nat → Frame} (h : SamePages T m m1) (h' : SamePages T m1 m') :
    SamePages T m m' := fun va hva => (h' va hva).trans (h va hva)

theorem SamePages.word (h : SamePages T m m') (hva : PML4_INDEX va ∈ T.slots) :
    page_word m' T.root va = page_word m T.root va := congrArg Prod.fst (h va hva)

/-- Entries above the page tables change from leading nowhere to leading nowhere: no page changes. -/
theorem samePages_of_dead (h : Owns T s P) (hslot : TreeSlot T s.mem (k + 1) t i)
    (hrow : ∀ j, j ≠ i → s'.mem t j = s.mem t j)
    (hoff : ∀ f ∈ treeFrames s.mem T, f ≠ t → f ∉ sub childOf (k + 1) s.mem (s.mem t i) →
      s'.mem f = s.mem f)
    (hplain : ∀ j ∈ T.slots, Plain false 3 s'.mem (s'.mem T.root j))
    (hold : ∀ c, childOf (s.mem t i) = some c → ∀ j, s.mem c j = 0)
    (hnew : ∀ c, childOf (s'.mem t i) = some c → ∀ j, s'.mem c j = 0) :
    SamePages T s.mem s'.mem := by
  intro va hva
  obtain ⟨path, hpath⟩ := hslot.pathTo h.tree_nodup
  have hlen := hpath.length
  by_cases hthrough : path ++ [i] <+: page_path va
  · have hleads : follow childOf s'.mem T.root path = some t := by
      rw [hpath.follow_kept hrow hoff (head_of_append hpath.head) (by omega), hpath.leads]
      intro hpre
      have := hpre.length_le
      rw [List.length_append, List.length_singleton] at this
      omega
    rw [page_view_of_dead h.plain hva hpath.leads hthrough (by omega) hold,
      page_view_of_dead hplain hva hleads hthrough (by omega) hnew]
  · exact page_view_kept h hpath hrow hoff hplain hva hthrough

/-- A word of a page table, or the frame below it, changes: only this page looks different. -/
theorem sameBut_of_page (h : Owns T s P) (hva : PML4_INDEX va ∈ T.slots)
    (hlook : lookup s.mem T.root va = some e)
    (hplain : ∀ j ∈ T.slots, Plain false 3 m' (m' T.root j))
    (hrow : ∀ j, j ≠ e.2 → m' e.1 j = s.mem e.1 j)
    (hoff : ∀ f ∈ treeFrames s.mem T, f ≠ e.1 → f ∉ sub childOf 0 s.mem (s.mem e.1 e.2) →
      m' f = s.mem f) :
    SameBut T va s.mem m' ∧ lookup m' T.root va = some e := by
  obtain ⟨he, hpath⟩ := h.pathTo hva hlook
  have hpp : [PML4_INDEX va, PDP_INDEX va, PD_INDEX va] ++ [e.2] = page_path va := by
    rw [he]
    rfl
  refine ⟨?_, ?_⟩
  · intro va' hva' hne
    refine page_view_kept h hpath hrow hoff hplain hva' ?_
    rw [hpp]
    exact fun hpre => hne (hpre.eq_of_length rfl).symm
  · have hfollow := hpath.follow_kept hrow hoff (head_of_append hpath.head) (by simp) (by
      intro hpre
      have := hpre.length_le
      simp at this)
    rw [lookup_eq_follow hplain hva, hfollow, hpath.leads, Option.map_some, ← he]

/-! ## The walk that makes tables -/

theorem nextTable_zero (k : Nat) : nextTable k 0 = none := by
  have hp : present 0 = false := present_zero
  rw [nextTable, leads_of_absent hp]
  rfl

theorem missing_below_of_none
    (h : nextTable (k + 1) (m t (table_index (12 + 9 * (k + 1)) va)) = none) :
    missing_below (k + 1) m t va = k + 1 := by
  simp only [missing_below, h]

theorem missing_below_of_some
    (h : nextTable (k + 1) (m t (table_index (12 + 9 * (k + 1)) va)) = some c) :
    missing_below (k + 1) m t va = missing_below k m c va := by
  simp only [missing_below, h]

theorem missing_below_of_zero (hz : m t = fun _ => 0) : missing_below k m t va = k := by
  cases k with
  | zero => rfl
  | succ k =>
    apply missing_below_of_none
    rw [hz, nextTable_zero]

/-- A new table below an entry that led nowhere. -/
theorem TookFrame.samePages (hl : TookFrame s t i c P w s') (h : Owns T s (c :: P))
    (hslot : TreeSlot T s.mem (k + 1) t i) (hold : childOf (s.mem t i) = none)
    (hchild : childOf w = some c) (hbig : hasBig (k + 1) = true → big_page w = false) :
    SamePages T s.mem s'.mem := by
  have hct := h.table_ne hslot
  refine samePages_of_dead h hslot (hl.row hct) ?_ (hl.edit h hslot hold hchild hbig).owns.plain ?_ ?_
  · exact fun f hf hft _ => hl.off f hft (h.notMem_pool hf)
  · intro c' hc'
    rw [hold] at hc'
    cases hc'
  · intro c' hc' j
    rw [hl.entry, hchild] at hc'
    cases hc'
    rw [hl.zero hct]

/-- In a tree the walk never stops at a huge page. -/
theorem travel_level.of_plain {get : EntryPtr → Bool → Machine → Option Nat × Machine} (user : Bool)
    (h : Plain (hasBig k) k s.mem (s.entry e)) :
    travel_level (hasBig k) get true e user s = get e user s := by
  have hb : (hasBig k && present (s.entry e) && big_page (s.entry e)) = false := by
    rcases hk : hasBig k with _ | _
    · rfl
    rcases hp : present (s.entry e) with _ | _
    · rfl
    · rw [(h hp).1 hk]
      rfl
  unfold travel_level
  rw [hb]
  simp

/-- One level of the walk. No page changes, and each new table is one of those that were missing. -/
theorem travel_level.creates (h : Owns T s P) (va : Word)
    (hslot : TreeSlot T s.mem (k + 1) t (table_index (12 + 9 * (k + 1)) va)) (user : Bool) :
    ∃ r s' P', travel_level (hasBig (k + 1)) (get_or_alloc_entry (hasBig (k + 1))) true
        (t, table_index (12 + 9 * (k + 1)) va) user s = (r, s') ∧
      Edit T s P s' P' ∧ SamePages T s.mem s'.mem ∧ (∀ f, f ≠ t → f ∉ P → s'.mem f = s.mem f) ∧
      (r = none → P.length < missing_below (k + 1) s.mem t va) ∧
      ∀ c, r = some c →
        nextTable (k + 1) (s'.mem t (table_index (12 + 9 * (k + 1)) va)) = some c ∧
        TreeSlot T s'.mem (k + 1) t (table_index (12 + 9 * (k + 1)) va) ∧
        missing_below k s'.mem c va + P.length = missing_below (k + 1) s.mem t va + P'.length := by
  have hplain := plain_slot h.plain hslot
  have hnext := nextTable_of_plain hplain
  rw [travel_level.of_plain user hplain]
  rcases get_or_alloc_entry.cases h hslot user with ⟨c, hc, hrun⟩ | ⟨hnone, ⟨rfl, hrun⟩ | hnew⟩
  · refine ⟨some c, s, P, hrun, Edit.refl h, SamePages.refl T _, fun _ _ _ => rfl, nofun, ?_⟩
    intro c' hc'
    cases hc'
    rw [hc] at hnext
    exact ⟨hnext, hslot, by rw [missing_below_of_some hnext]⟩
  · refine ⟨none, s, [], hrun, Edit.refl h, SamePages.refl T _, fun _ _ _ => rfl, ?_, nofun⟩
    intro _
    rw [hnone] at hnext
    rw [missing_below_of_none hnext]
    exact Nat.succ_pos k
  · obtain ⟨c, P', w, s', rfl, hrun, hl, hchild, _, hbig⟩ := hnew
    have hedit := hl.edit h hslot hnone hchild hbig
    have hslot' := hl.slot h hslot
    refine ⟨some c, s', P', hrun, hedit, hl.samePages h hslot hnone hchild hbig, hl.off, nofun, ?_⟩
    intro c' hc'
    cases hc'
    refine ⟨?_, hslot', ?_⟩
    · rw [nextTable_of_plain (plain_slot hedit.owns.plain hslot'), hl.entry, hchild]
    · rw [hnone] at hnext
      rw [missing_below_of_zero (hl.zero (h.table_ne hslot)), missing_below_of_none hnext,
        List.length_cons]
      omega

/-- The walk in `CREATE_MODE` fails only when there are not enough frames for the missing tables. -/
theorem travel_pagetable_in.creates {cr3 : Word} (h : Owns T s P) (hroot : frameOf cr3 = T.root)
    (hva : PML4_INDEX va ∈ T.slots) :
    ∃ r s' P', travel_pagetable_in cr3 va true s = (r, s') ∧ Edit T s P s' P' ∧
      SamePages T s.mem s'.mem ∧ (r = none → P.length < missing s.mem T.root va) ∧
      ∀ e, r = some e → lookup s'.mem T.root va = some e ∧
        P.length = missing s.mem T.root va + P'.length := by
  obtain ⟨user, huser⟩ : ∃ user, user = decide (VA_USER_BASE ≤ va) := ⟨_, rfl⟩
  rw [travel_pagetable_in_eq, hroot, ← huser]
  -- the P4
  obtain ⟨r1, s1, P1, hrun1, hedit1, hsame1, _, hnone1, hsome1⟩ :=
    travel_level.creates h va (k := 2) (.root hva) user
  have hrun1 : travel_level false get_or_alloc_PDPT_entry true (T.root, PML4_INDEX va) user s =
    (r1, s1) := hrun1
  rw [hrun1]
  rcases r1 with _ | pdpt
  · exact ⟨none, s1, P1, rfl, hedit1, hsame1, fun _ => hnone1 rfl, by simp⟩
  obtain ⟨hnext1, hslot1, hcount1⟩ := hsome1 pdpt rfl
  have hcount1 : missing_below 2 s1.mem pdpt va + P.length =
    missing s.mem T.root va + P1.length := hcount1
  have hpdpt := hslot1.into (childOf_of_nextTable hnext1).2
  -- the PDPT
  obtain ⟨r2, s2, P2, hrun2, hedit2, hsame2, hoff2, hnone2, hsome2⟩ :=
    travel_level.creates hedit1.owns va (k := 1) (hpdpt _) user
  have hrun2 : travel_level true get_or_alloc_PD_entry true (pdpt, PDP_INDEX va) user s1 =
    (r2, s2) := hrun2
  have hroot2 : s2.mem T.root = s1.mem T.root :=
    hoff2 _ (hedit1.owns.root_ne (hpdpt 0) (by omega))
      (hedit1.owns.notMem_pool (Multiset.mem_cons_self _ _))
  simp only [travel_below, ← huser, hrun2]
  rcases r2 with _ | pd
  · refine ⟨none, s2, P2, rfl, hedit1.trans hedit2, hsame1.trans hsame2, ?_, by simp⟩
    intro _
    have hless : P1.length < missing_below 2 s1.mem pdpt va := hnone2 rfl
    omega
  obtain ⟨hnext2, hslot2, hcount2⟩ := hsome2 pd rfl
  have hcount2 : missing_below 1 s2.mem pd va + P1.length =
    missing_below 2 s1.mem pdpt va + P2.length := hcount2
  have hpd := hslot2.into (childOf_of_nextTable hnext2).2
  -- the page directory
  obtain ⟨r3, s3, P3, hrun3, hedit3, hsame3, hoff3, hnone3, hsome3⟩ :=
    travel_level.creates hedit2.owns va (k := 0) (hpd _) user
  have hrun3 : travel_level true get_or_alloc_PT_entry true (pd, PD_INDEX va) user s2 =
    (r3, s3) := hrun3
  have hroot3 : s3.mem T.root = s2.mem T.root :=
    hoff3 _ (hedit2.owns.root_ne (hpd 0) (by omega))
      (hedit2.owns.notMem_pool (Multiset.mem_cons_self _ _))
  have hpdpt3 : s3.mem pdpt = s2.mem pdpt := by
    refine hoff3 _ ?_ (hedit2.owns.notMem_pool hslot2.table_mem)
    rintro rfl
    exact absurd (hslot2.height_unique (hpd (PD_INDEX va)) hedit2.owns.tree_nodup) (by omega)
  simp only [hrun3]
  have hedit := (hedit1.trans hedit2).trans hedit3
  have hsame := (hsame1.trans hsame2).trans hsame3
  rcases r3 with _ | pt
  · refine ⟨none, s3, P3, rfl, hedit, hsame, ?_, by simp⟩
    intro _
    have hless : P2.length < missing_below 1 s2.mem pd va := hnone3 rfl
    omega
  obtain ⟨hnext3, _, hcount3⟩ := hsome3 pt rfl
  refine ⟨_, s3, P3, rfl, hedit, hsame, by simp, ?_⟩
  have hp4 : nextTable 3 (s3.mem T.root (PML4_INDEX va)) = some pdpt := by
    rw [hroot3, hroot2]
    exact hnext1
  have hp3 : nextTable 2 (s3.mem pdpt (PDP_INDEX va)) = some pd := by
    rw [hpdpt3]
    exact hnext2
  intro e he
  cases he
  refine ⟨lookup_of_tables hp4 hp3 hnext3, ?_⟩
  have hcount3 : 0 + P2.length = missing_below 1 s2.mem pd va + P3.length := hcount3
  omega

/-! ## Reserving pages -/

theorem SameBut.of_same {m1 : Nat → Frame} (h : SamePages T m m1) (h' : SameBut T va m1 m') :
    SameBut T va m m' := fun va' hva' hne => (h' va' hva' hne).trans (h va' hva')

theorem SameBut.word (h : SameBut T va m m') (hva' : PML4_INDEX va' ∈ T.slots)
    (hne : page_path va' ≠ page_path va) : page_word m' T.root va' = page_word m T.root va' :=
  congrArg Prod.fst (h va' hva' hne)

/-- A page of the tree can be reserved when it is not reserved yet and its missing tables can be
made. -/
structure CanReserve (T : Tree) (m : Nat → Frame) (P : List Nat) (va : Word) : Prop where
  slot : PML4_INDEX va ∈ T.slots
  free : reserved (page_word m T.root va) = false
  frames : missing m T.root va ≤ P.length

theorem Blocked.lookup {pdpt : Nat} (h : Blocked T s P (PML4_INDEX va) pdpt) :
    lookup s.mem T.root va = none := by
  have hleads : ∀ j, nextTable 2 (s.mem pdpt j) = none := by
    intro j
    obtain ⟨hp, hb⟩ := h.huge j
    simp [nextTable, leads, hasBig, hp, hb]
  have hnext : nextTable 3 (s.mem T.root (PML4_INDEX va)) = some pdpt := by
    obtain ⟨hp, hpfn⟩ := childOf_eq_some.mp h.child
    simp [nextTable, leads, hasBig, hp, hpfn]
  simp [JamsOs.lookup, lookup_below, hnext, hleads]

/-- The pages outside of a tree are parts of huge ones, and stay so. -/
theorem Edit.view_of_blocked {pdpt : Nat} (h : Edit T s P s' P')
    (hb : Blocked T s P (PML4_INDEX va) pdpt) :
    page_view s'.mem T.root va = page_view s.mem T.root va := by
  rcases h.reach (Or.inr ⟨pdpt, hb⟩) with hi | ⟨pdpt', hb'⟩
  · exact absurd hi hb.other
  · rw [page_view_of_none hb'.lookup, page_view_of_none hb.lookup]

/-- A call either reserves the page and nothing else, or no page looks different after it. -/
theorem demand_page_in.views {cr3 : Word} (h : Owns T s P) (hroot : frameOf cr3 = T.root)
    (hreach : Reach T s P (PML4_INDEX va)) :
    ∃ r s' P', demand_page_in cr3 va s = (r, s') ∧ Edit T s P s' P' ∧
      (r = true ↔ CanReserve T s.mem P va) ∧
      (r = false → SamePages T s.mem s'.mem) ∧
      (r = true → SameBut T va s.mem s'.mem ∧
        demand (page_word s'.mem T.root va) = true ∧ present (page_word s'.mem T.root va) = false ∧
        P.length = missing s.mem T.root va + P'.length) := by
  unfold demand_page_in
  rcases hreach with hva | ⟨pdpt, hb⟩
  swap
  · rw [travel_pagetable_in.of_huge true (by rw [hroot]; exact hb.child) hb.huge]
    exact ⟨false, s, P, rfl, Edit.refl h, ⟨nofun, fun hc => absurd hc.slot hb.other⟩,
      fun _ => SamePages.refl T _, nofun⟩
  obtain ⟨r1, s1, P1, hrun1, hedit1, hsame1, hnone1, hsome1⟩ :=
    travel_pagetable_in.creates h hroot hva
  rw [hrun1]
  rcases r1 with _ | e
  · have hless := hnone1 rfl
    exact ⟨false, s1, P1, rfl, hedit1, ⟨nofun, fun hc => absurd hc.frames (by omega)⟩,
      fun _ => hsame1, nofun⟩
  obtain ⟨hlook, hcount⟩ := hsome1 e rfl
  have hword : s1.entry e = page_word s.mem T.root va := by
    rw [← hsame1.word hva, page_word_of_lookup hlook]
    rfl
  simp only [hword]
  by_cases hres : reserved (page_word s.mem T.root va) = true
  · have hif : (demand (page_word s.mem T.root va) || present (page_word s.mem T.root va)) = true :=
      hres
    rw [if_pos hif]
    refine ⟨false, s1, P1, rfl, hedit1, ⟨nofun, fun hc => ?_⟩, fun _ => hsame1, nofun⟩
    rw [hc.free] at hres
    cases hres
  have hfree : reserved (page_word s.mem T.root va) = false := by simpa using hres
  have hif : ¬(demand (page_word s.mem T.root va) || present (page_word s.mem T.root va)) = true :=
    hres
  rw [if_neg hif]
  have habs : present (s1.entry e) = false := by
    rw [hword]
    exact (Bool.or_eq_false_iff.mp hfree).2
  have hslot := slot_of_lookup hva hlook
  have hedit2 := edit_of_reserved hedit1.owns hslot (childOf_of_absent habs)
    (childOf_reserved_entry (page_word s.mem T.root va))
  obtain ⟨hbut, hlook'⟩ := sameBut_of_page hedit1.owns hva hlook hedit2.owns.plain
    (fun j hj => setWord_word_of_ne _ _ hj _) (fun f _ hf _ => setWord_of_ne hf _ _)
  have hnew : page_word (s1.set_entry e (reserved_entry (page_word s.mem T.root va))).mem T.root va =
      reserved_entry (page_word s.mem T.root va) := by
    rw [page_word_of_lookup hlook']
    exact setWord_same _ _ _ _
  refine ⟨true, _, P1, rfl, hedit1.trans hedit2, ⟨fun _ => ⟨hva, hfree, by omega⟩, fun _ => rfl⟩,
    nofun, ?_⟩
  intro _
  rw [hnew]
  exact ⟨hbut.of_same hsame1, demand_reserved_entry _, present_reserved_entry _, hcount⟩

/-- The pages `i`, ..., `i + n - 1` of the range from `base` on were free and are reserved now, and
no other page looks different. -/
structure ReservesPages (T : Tree) (base : Word) (i n : Nat) (m m' : Nat → Frame) : Prop where
  slots : ∀ j, i ≤ j → j < i + n → PML4_INDEX (range_page base j) ∈ T.slots
  fresh : ∀ j, i ≤ j → j < i + n → reserved (page_word m T.root (range_page base j)) = false
  demand : ∀ j, i ≤ j → j < i + n → demand (page_word m' T.root (range_page base j)) = true
  absent : ∀ j, i ≤ j → j < i + n → present (page_word m' T.root (range_page base j)) = false
  other : ∀ va, PML4_INDEX va ∈ T.slots →
    (∀ j, i ≤ j → j < i + n → page_path va ≠ page_path (range_page base j)) →
    page_view m' T.root va = page_view m T.root va

theorem ReservesPages.zero (T : Tree) (base : Word) (i : Nat) (h : SamePages T m m') :
    ReservesPages T base i 0 m m' :=
  ⟨fun _ h1 h2 => by omega, fun _ h1 h2 => by omega, fun _ h1 h2 => by omega,
    fun _ h1 h2 => by omega, fun va hva _ => h va hva⟩

/-- A first page and then the pages behind it. The page is reserved after the first call, so no
later page of the range can be the same page again. -/
theorem ReservesPages.cons {m1 : Nat → Frame} {base : Word} {j n : Nat}
    (hslot : PML4_INDEX (range_page base j) ∈ T.slots)
    (hfree : reserved (page_word m T.root (range_page base j)) = false)
    (hd : JamsOs.demand (page_word m1 T.root (range_page base j)) = true)
    (hp : present (page_word m1 T.root (range_page base j)) = false)
    (hbut : SameBut T (range_page base j) m m1) (hrest : ReservesPages T base (j + 1) n m1 m') :
    ReservesPages T base j (n + 1) m m' := by
  have hne : ∀ k, j + 1 ≤ k → k < j + (n + 1) →
      page_path (range_page base k) ≠ page_path (range_page base j) := by
    intro k h1 h2 heq
    have hk := hrest.fresh k h1 (by omega)
    rw [page_word, lookup_of_path heq, ← page_word, reserved, hd] at hk
    cases hk
  have hfirst : page_view m' T.root (range_page base j) = page_view m1 T.root (range_page base j) :=
    hrest.other _ hslot fun k h1 h2 he => hne k h1 (by omega) he.symm
  have hword : page_word m' T.root (range_page base j) = page_word m1 T.root (range_page base j) :=
    congrArg Prod.fst hfirst
  refine ⟨?_, ?_, ?_, ?_, ?_⟩
  · intro k h1 h2
    by_cases hkj : k = j
    · rw [hkj]
      exact hslot
    · exact hrest.slots k (by omega) (by omega)
  · intro k h1 h2
    by_cases hkj : k = j
    · rw [hkj]
      exact hfree
    · have hk := hrest.fresh k (by omega) (by omega)
      rw [hbut.word (hrest.slots k (by omega) (by omega)) (hne k (by omega) h2)] at hk
      exact hk
  · intro k h1 h2
    by_cases hkj : k = j
    · rw [hkj, hword]
      exact hd
    · exact hrest.demand k (by omega) (by omega)
  · intro k h1 h2
    by_cases hkj : k = j
    · rw [hkj, hword]
      exact hp
    · exact hrest.absent k (by omega) (by omega)
  · intro va hva hother
    rw [hrest.other va hva fun k h1 h2 => hother k (by omega) (by omega)]
    exact hbut va hva (hother j le_rfl (by omega))

/-- The loop reserves pages up to the first one that cannot be reserved. -/
theorem reserve_loop.views {cr3 : Word} (base : Word) (hroot : frameOf cr3 = T.root) (n i : Nat)
    (hreach : ∀ j, i ≤ j → j < i + n → Reach T s P (PML4_INDEX (range_page base j)))
    (h : Owns T s P) :
    ∃ r s' P' done, reserve_loop cr3 base i n s = (r, s') ∧ Edit T s P s' P' ∧ done ≤ n ∧
      (r = true ↔ done = n) ∧ ReservesPages T base i done s.mem s'.mem ∧
      (0 < n → (0 < done ↔ CanReserve T s.mem P (range_page base i))) := by
  induction n generalizing i s P with
  | zero =>
    refine ⟨true, s, P, 0, rfl, Edit.refl h, le_rfl, ⟨fun _ => rfl, fun _ => rfl⟩, ?_, by simp⟩
    exact .zero T base i (SamePages.refl T _)
  | succ n ih =>
    obtain ⟨r1, s1, P1, hrun1, hedit1, hcan, hfail, hok⟩ :=
      demand_page_in.views h hroot (hreach i le_rfl (by omega))
    have hrun1 : demand_page_in cr3 (base + BitVec.ofNat 64 i * PAGE_SIZE) s = (r1, s1) := hrun1
    unfold reserve_loop
    rw [hrun1]
    cases r1 with
    | false =>
      refine ⟨false, s1, P1, 0, rfl, hedit1, Nat.zero_le _, ⟨by simp, by simp⟩, ?_, fun _ => ?_⟩
      · exact .zero T base i (hfail rfl)
      · exact ⟨fun h0 => absurd h0 (lt_irrefl 0), fun hc => absurd (hcan.mpr hc) (by simp)⟩
    | true =>
      obtain ⟨hbut, hd, hp, _⟩ := hok rfl
      obtain ⟨r, s', P', done, hrun, hedit, hle, hr, hres, _⟩ :=
        ih (i + 1) (fun j h1 h2 => hedit1.reach (hreach j (by omega) (by omega))) hedit1.owns
      refine ⟨r, s', P', done + 1, hrun, hedit1.trans hedit, by omega, ?_, ?_, fun _ => ?_⟩
      · rw [hr]
        omega
      · exact .cons (hcan.mp rfl).slot (hcan.mp rfl).free hd hp hbut hres
      · exact ⟨fun _ => hcan.mp rfl, fun _ => Nat.succ_pos done⟩

theorem missing_below_le (k : Nat) (m : Nat → Frame) (t : Nat) (va : Word) :
    missing_below k m t va ≤ k := by
  induction k generalizing t with
  | zero => exact le_rfl
  | succ k ih =>
    rw [missing_below]
    split
    · exact le_rfl
    · exact (ih _).trans (Nat.le_succ k)

/-- Free pages can be reserved when there are three frames for each of them, and then no more frames
are taken. -/
theorem reserve_loop.succeeds {cr3 : Word} (base : Word) (hroot : frameOf cr3 = T.root) (n i : Nat)
    (hslots : ∀ j, i ≤ j → j < i + n → PML4_INDEX (range_page base j) ∈ T.slots)
    (hne : ∀ j k, i ≤ j → j < k → k < i + n →
      page_path (range_page base k) ≠ page_path (range_page base j))
    (hfree : ∀ j, i ≤ j → j < i + n →
      reserved (page_word s.mem T.root (range_page base j)) = false)
    (hframes : 3 * n ≤ P.length) (h : Owns T s P) :
    (reserve_loop cr3 base i n s).1 = true ∧
      ∀ P', Pool (reserve_loop cr3 base i n s).2 P' → P.length ≤ P'.length + 3 * n := by
  induction n generalizing i s P with
  | zero =>
    refine ⟨rfl, fun P' hpool => ?_⟩
    rw [h.pool.unique hpool]
    omega
  | succ n ih =>
    have hslot := hslots i le_rfl (by omega)
    obtain ⟨r1, s1, P1, hrun1, hedit1, hcan, _, hok⟩ := demand_page_in.views h hroot (Or.inl hslot)
    have hmissing : missing s.mem T.root (range_page base i) ≤ 3 := missing_below_le 3 _ _ _
    have hr1 : r1 = true := hcan.mpr ⟨hslot, hfree i le_rfl (by omega), by omega⟩
    subst hr1
    obtain ⟨hbut, _, _, hcount⟩ := hok rfl
    have hrun1 : demand_page_in cr3 (base + BitVec.ofNat 64 i * PAGE_SIZE) s = (true, s1) := hrun1
    unfold reserve_loop
    rw [hrun1]
    have hfree1 : ∀ j, i + 1 ≤ j → j < i + 1 + n →
        reserved (page_word s1.mem T.root (range_page base j)) = false := by
      intro j h1 h2
      rw [hbut.word (hslots j (by omega) (by omega)) (hne i j le_rfl (by omega) (by omega))]
      exact hfree j (by omega) (by omega)
    obtain ⟨hok, hleft⟩ := ih (i + 1) (fun j h1 h2 => hslots j (by omega) (by omega))
      (fun j k h1 h2 h3 => hne j k (by omega) h2 (by omega)) hfree1 (by omega) hedit1.owns
    refine ⟨hok, fun P' hpool => ?_⟩
    have hless := hleft P' hpool
    omega

/-- The loop of `MMU_alloc_pages` is that of `reserve_pages_at` under the current P4. -/
theorem alloc_pages_loop_eq (base : Word) (hroot : frameOf s.cr3 = T.root) (n i : Nat)
    (hreach : ∀ j, i ≤ j → j < i + n → Reach T s P (PML4_INDEX (range_page base j)))
    (h : Owns T s P) : alloc_pages_loop base i n s = reserve_loop s.cr3 base i n s := by
  induction n generalizing i s P with
  | zero => rfl
  | succ n ih =>
    obtain ⟨r1, s1, P1, hrun1, hedit1⟩ :=
      demand_page_in.spec h hroot (hreach i le_rfl (by omega))
    have hrun1 : demand_page_in s.cr3 (base + BitVec.ofNat 64 i * PAGE_SIZE) s = (r1, s1) := hrun1
    unfold alloc_pages_loop reserve_loop demand_page
    rw [hrun1]
    cases r1 with
    | false => rfl
    | true =>
      have hcr3 := hedit1.regs.cr3
      have hih := ih (s := s1) (by rw [hcr3]; exact hroot) (i + 1)
        (fun j h1 h2 => hedit1.reach (hreach j (by omega) (by omega))) hedit1.owns
      rw [hcr3] at hih
      exact hih

end

end JamsOs
