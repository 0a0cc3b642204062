-- The laws of the heap's page tables. As long as every reservation succeeds, a table below the P4 is
-- there exactly while a reserved page lies below it, so that freeing what was reserved gives back
-- all frames.
import JamsOs.PrunedPaths
import JamsOs.Reservations

namespace JamsOs

open Words RadixTree PrunedPaths

/-! ## The words of the page tables -/

/-- The words of the tables of a tree, by their paths from the P4 on. -/
def words (T : Tree) (m : Nat → Frame) : List (Fin 512) → Word := wordAt childOf m T.root

/-- The entry leads to a table that `free_empty_tables` may free. -/
def OwnTable (w : Word) : Prop := present w = true ∧ allocated w = true

/-- The tables of the tree are those that reserved pages need, except for the first `n` tables on
the path `q`. -/
abbrev NeededBut (T : Tree) (n : Nat) (q : List (Fin 512)) (m : Nat → Frame) : Prop :=
  PrunedBut T.slots 4 OwnTable (fun w => reserved w = true) n q (words T m)

section

variable {T : Tree} {s s1 s' : Machine} {P P1 P' : List Nat} {k t c n : Nat} {i : Fin 512}
  {m m' : Nat → Frame} {w va va' : Word} {e : EntryPtr} {path p q : List (Fin 512)}

theorem childOf_none : childOf (0 : Word) = none := childOf_zero

theorem follow_eq_words (hp : p ≠ []) : follow childOf m T.root p = childOf (words T m p) :=
  follow_eq_wordAt childOf_none hp

theorem page_word_eq_words (hplain : ∀ i ∈ T.slots, Plain false 3 m (m T.root i))
    (hva : PML4_INDEX va ∈ T.slots) : page_word m T.root va = words T m (page_path va) := by
  unfold page_word words
  rw [page_path_eq, wordAt_concat, lookup_eq_follow hplain hva]
  rcases follow childOf m T.root [PML4_INDEX va, PDP_INDEX va, PD_INDEX va] with _ | pt
  · rfl
  · rfl

/-- The change of one entry, seen in the words of the tree. -/
theorem sets_of_path (hpath : PathTo childOf m T.slots 3 T.root k t i path)
    (hrow : ∀ j, j ≠ i → m' t j = m t j)
    (hoff : ∀ f ∈ treeFrames m T, f ≠ t → f ∉ sub childOf k m (m t i) → m' f = m f)
    (hold : k ≠ 0 → ∀ c, childOf (m t i) = some c → ∀ j, m c j = 0)
    (hnew : k ≠ 0 → ∀ c, childOf (m' t i) = some c → ∀ j, m' c j = 0) :
    Sets T.slots 4 (path ++ [i]) (m' t i) (words T m) (words T m') := by
  have hword : ∀ p, Valid T.slots 4 p →
      words T m' p = if p = path ++ [i] then m' t i else words T m p := fun p hp =>
    hpath.wordAt_eq childOf_none hrow hoff hold hnew hp.ne_nil hp.length hp.head
  have hself : Valid T.slots 4 (path ++ [i]) := by
    refine ⟨by simp, ?_, hpath.head⟩
    have := hpath.length
    rw [List.length_append, List.length_singleton]
    omega
  refine ⟨?_, ?_⟩
  · rw [hword _ hself, if_pos rfl]
  · intro p hp hne
    rw [hword p hp, if_neg hne]

/-- A word of a page table is overwritten. -/
theorem sets_of_entry (w : Word) (h : Owns T s P) (hva : PML4_INDEX va ∈ T.slots)
    (hlook : lookup s.mem T.root va = some e) :
    Sets T.slots 4 (page_path va) w (words T s.mem) (words T (s.set_entry e w).mem) := by
  obtain ⟨he, hpath⟩ := h.pathTo hva hlook
  have hword : (s.set_entry e w).mem e.1 e.2 = w := setWord_same _ _ _ _
  have hrow : ∀ j, j ≠ e.2 → (s.set_entry e w).mem e.1 j = s.mem e.1 j := fun j hj =>
    setWord_word_of_ne _ _ hj _
  have hset := sets_of_path hpath hrow (fun f _ hf _ => setWord_of_ne hf _ _)
    (fun h0 => absurd rfl h0) (fun h0 => absurd rfl h0)
  rw [hword, he] at hset
  exact hset

theorem TookFrame.sets (hl : TookFrame s t i c P w s') (h : Owns T s (c :: P))
    (hpath : PathTo childOf s.mem T.slots 3 T.root k t i path) (hold : childOf (s.mem t i) = none)
    (hchild : childOf w = some c) :
    Sets T.slots 4 (path ++ [i]) w (words T s.mem) (words T s'.mem) := by
  have hct := h.table_ne hpath.slotAt
  have hset := sets_of_path hpath (hl.row hct) (fun f hf hft _ => hl.off f hft (h.notMem_pool hf))
    (fun _ c' hc' => by rw [hold] at hc'; cases hc') (fun _ c' hc' j => by
      rw [hl.entry, hchild] at hc'
      cases hc'
      rw [hl.zero hct])
  rw [hl.entry] at hset
  exact hset

/-- The entries on the way to a page. -/
theorem Owns.path_to_p4 (h : Owns T s P) (hva : PML4_INDEX va ∈ T.slots) :
    PathTo childOf s.mem T.slots 3 T.root 3 T.root (PML4_INDEX va) [] := by
  refine ⟨h.tree_nodup, rfl, ?_, rfl⟩
  intro j hj
  cases hj
  exact hva

theorem Owns.path_to_pdpt (h : Owns T s P) (hva : PML4_INDEX va ∈ T.slots)
    (hleads : follow childOf s.mem T.root [PML4_INDEX va] = some t) :
    PathTo childOf s.mem T.slots 3 T.root 2 t (PDP_INDEX va) [PML4_INDEX va] :=
  ⟨h.tree_nodup, hleads, (h.path_to_p4 hva).head, rfl⟩

theorem Owns.path_to_pd (h : Owns T s P) (hva : PML4_INDEX va ∈ T.slots)
    (hleads : follow childOf s.mem T.root [PML4_INDEX va, PDP_INDEX va] = some t) :
    PathTo childOf s.mem T.slots 3 T.root 1 t (PD_INDEX va) [PML4_INDEX va, PDP_INDEX va] :=
  ⟨h.tree_nodup, hleads, (h.path_to_p4 hva).head, rfl⟩

/-! ## Making the tables of a page -/

/-- No word in use changes, and no word of a page. -/
def Grows (T : Tree) (m m' : Nat → Frame) : Prop :=
  ∀ p, Valid T.slots 4 p → words T m p ≠ 0 ∨ p.length = 4 → words T m' p = words T m p

theorem Grows.refl (T : Tree) (m : Nat → Frame) : Grows T m m := fun _ _ _ => rfl

theorem Grows.trans {m1 : Nat → Frame} (h : Grows T m m1) (h' : Grows T m1 m') : Grows T m m' := by
  intro p hp hor
  have hfirst := h p hp hor
  rw [h' p hp (by rw [hfirst]; exact hor), hfirst]

/-- One level of the walk in `CREATE_MODE`. -/
theorem travel_level.grows (h : Owns T s P)
    (hpath : PathTo childOf s.mem T.slots 3 T.root (k + 1) t i path) (hpre : path ++ [i] <+: q)
    (hneed : NeededBut T 3 q s.mem) (user : Bool) :
    ∃ r s' P', travel_level (hasBig (k + 1)) (get_or_alloc_entry (hasBig (k + 1))) true (t, i) user s
        = (r, s') ∧ Edit T s P s' P' ∧ NeededBut T 3 q s'.mem ∧ Grows T s.mem s'.mem ∧
      ∀ c, r = some c → follow childOf s'.mem T.root (path ++ [i]) = some c := by
  have hslot := hpath.slotAt
  have hlen := hpath.length
  rw [travel_level.of_plain user (plain_slot h.plain hslot)]
  rcases get_or_alloc_entry.cases h hslot user with ⟨c, hc, hrun⟩ | ⟨hnone, ⟨rfl, hrun⟩ | hnew⟩
  · refine ⟨some c, s, P, hrun, Edit.refl h, hneed, Grows.refl T _, ?_⟩
    intro c' hc'
    cases hc'
    exact follow_append hpath.leads hc
  · exact ⟨none, s, [], hrun, Edit.refl h, hneed, Grows.refl T _, nofun⟩
  · obtain ⟨c, P', w, s', rfl, hrun, hl, hchild, halloc, hbig⟩ := hnew
    have hset := hl.sets h hpath hnone hchild
    have hplen : (path ++ [i]).length = path.length + 1 := by simp
    refine ⟨some c, s', P', hrun, hl.edit h hslot hnone hchild hbig, ?_, ?_, ?_⟩
    · exact hneed.link hset ⟨(childOf_eq_some.mp hchild).1, halloc⟩ hpre (by omega) (by omega)
    · intro p hp hor
      refine hset.2 p hp ?_
      rintro rfl
      -- an entry in use leads to a table of its own, and this one leads nowhere
      have hword : words T s.mem (path ++ [i]) = s.mem t i := by
        rw [words, wordAt_concat, hpath.leads]
        rfl
      have hne : words T s.mem (path ++ [i]) ≠ 0 := hor.resolve_right (by omega)
      have hpres := (hneed.inner _ hp (by omega) hne).1.1
      rw [hword] at hpres
      rw [childOf_of_present hpres] at hnone
      cases hnone
    · intro c' hc'
      cases hc'
      rw [follow_eq_words (by simp), hset.1, hchild]

theorem valid_page_path (hva : PML4_INDEX va ∈ T.slots) : Valid T.slots 4 (page_path va) := by
  refine ⟨by simp [page_path], by simp [page_path], ?_⟩
  intro i hi
  cases hi
  exact hva

/-- The walk in `CREATE_MODE`, when it comes to an end. -/
theorem travel_pagetable_in.grows {cr3 : Word} (h : Owns T s P) (hroot : frameOf cr3 = T.root)
    (hva : PML4_INDEX va ∈ T.slots) (hneed : NeededBut T 3 (page_path va) s.mem) :
    ∃ r s' P', travel_pagetable_in cr3 va true s = (r, s') ∧ Edit T s P s' P' ∧
      NeededBut T 3 (page_path va) s'.mem ∧ Grows T s.mem s'.mem ∧
      ∀ e, r = some e → lookup s'.mem T.root va = some e := by
  obtain ⟨user, huser⟩ : ∃ user, user = decide (VA_USER_BASE ≤ va) := ⟨_, rfl⟩
  have hvalid := valid_page_path hva
  have hpre : ∀ n, (page_path va).take n <+: page_path va := fun n => List.take_prefix n _
  rw [travel_pagetable_in_eq, hroot, ← huser]
  -- the P4
  obtain ⟨r1, s1, P1, hrun1, hedit1, hneed1, hg1, hsome1⟩ :=
    travel_level.grows h (h.path_to_p4 hva) (hpre 1) hneed user
  have hrun1 : travel_level false get_or_alloc_PDPT_entry true (T.root, PML4_INDEX va) user s =
    (r1, s1) := hrun1
  rw [hrun1]
  rcases r1 with _ | pdpt
  · exact ⟨none, s1, P1, rfl, hedit1, hneed1, hg1, nofun⟩
  have hf1 := hsome1 pdpt rfl
  -- the PDPT
  obtain ⟨r2, s2, P2, hrun2, hedit2, hneed2, hg2, hsome2⟩ :=
    travel_level.grows hedit1.owns (hedit1.owns.path_to_pdpt hva hf1) (hpre 2) hneed1 user
  have hrun2 : travel_level true get_or_alloc_PD_entry true (pdpt, PDP_INDEX va) user s1 =
    (r2, s2) := hrun2
  simp only [travel_below, ← huser, hrun2]
  rcases r2 with _ | pd
  · exact ⟨none, s2, P2, rfl, hedit1.trans hedit2, hneed2, hg1.trans hg2, nofun⟩
  have hf2 := hsome2 pd rfl
  -- the page directory
  obtain ⟨r3, s3, P3, hrun3, hedit3, hneed3, hg3, hsome3⟩ :=
    travel_level.grows hedit2.owns (hedit2.owns.path_to_pd hva hf2) (hpre 3) hneed2 user
  have hrun3 : travel_level true get_or_alloc_PT_entry true (pd, PD_INDEX va) user s2 =
    (r3, s3) := hrun3
  simp only [hrun3]
  have hedit := (hedit1.trans hedit2).trans hedit3
  have hg := (hg1.trans hg2).trans hg3
  rcases r3 with _ | pt
  · exact ⟨none, s3, P3, rfl, hedit, hneed3, hg, nofun⟩
  refine ⟨_, s3, P3, rfl, hedit, hneed3, hg, ?_⟩
  intro e he
  cases he
  have hf3 : follow childOf s3.mem T.root [PML4_INDEX va, PDP_INDEX va, PD_INDEX va] = some pt :=
    hsome3 pt rfl
  rw [lookup_eq_follow hedit.owns.plain hva, hf3]
  rfl

/-! ## Steps of the heap -/

/-- A step from a machine to another that changes only the tree, after which the tables are again
those needed. The words of a page that was reserved, and of the tables above it, are as before
unless the page is one of `A`. -/
structure HeapStep (T : Tree) (A : List (Fin 512) → Prop) (s : Machine) (P : List Nat) (s' : Machine)
    (P' : List Nat) : Prop where
  owns : Owns T s' P'
  total : treeFrames s'.mem T + ↑P' = treeFrames s.mem T + ↑P
  reach : ∀ i, Reach T s P i → Reach T s' P' i
  cr3 : s'.cr3 = s.cr3
  needed : NeededBut T 0 [] s'.mem
  kept : ∀ p0, Valid T.slots 4 p0 → p0.length = 4 → words T s.mem p0 ≠ 0 → ¬A p0 →
    ∀ p, p ≠ [] → p <+: p0 → words T s'.mem p = words T s.mem p

variable {A B : List (Fin 512) → Prop}

theorem HeapStep.refl (h : Owns T s P) (hneed : NeededBut T 0 [] s.mem) : HeapStep T A s P s P :=
  ⟨h, rfl, fun _ hr => hr, rfl, hneed, fun _ _ _ _ _ _ _ _ => rfl⟩

theorem HeapStep.mono (h : HeapStep T A s P s' P') (hAB : ∀ p, A p → B p) : HeapStep T B s P s' P' :=
  ⟨h.owns, h.total, h.reach, h.cr3, h.needed, fun p0 hp0 hlen hne hB =>
    h.kept p0 hp0 hlen hne fun hA => hB (hAB p0 hA)⟩

theorem HeapStep.trans (h : HeapStep T A s P s1 P1) (h' : HeapStep T A s1 P1 s' P') :
    HeapStep T A s P s' P' := by
  refine ⟨h'.owns, h'.total.trans h.total, fun i hr => h'.reach i (h.reach i hr),
    h'.cr3.trans h.cr3, h'.needed, ?_⟩
  intro p0 hp0 hlen hne hA p hp hpre
  have hp0' := h.kept p0 hp0 hlen hne hA p0 hp0.ne_nil (List.prefix_refl _)
  rw [h'.kept p0 hp0 hlen (by rw [hp0']; exact hne) hA p hp hpre, h.kept p0 hp0 hlen hne hA p hp hpre]

/-- A call masks the interrupts and moves `kernel_va`, which plays no role here. -/
theorem HeapStep.masked (h : HeapStep T A (CLI s) P s1 P') (ints_enabled : Bool) (kernel_va : Word) :
    HeapStep T A s P (restore_interrupts ints_enabled { s1 with kernel_va := kernel_va }) P' := by
  obtain ⟨s2, hs2⟩ : ∃ s2, s2 = restore_interrupts ints_enabled { s1 with kernel_va := kernel_va } :=
    ⟨_, rfl⟩
  have hm : s2.mem = s1.mem := by
    rw [hs2, restore_interrupts_mem]
  have hc : s2.cr3 = s1.cr3 := by
    rw [hs2, restore_interrupts]
    split
    · rfl
    · rfl
  have howns : Owns T s2 P' := by
    have hva : Owns T { s1 with kernel_va := kernel_va } P' := h.owns.congr rfl rfl rfl
    rw [hs2]
    exact hva.restore_interrupts ints_enabled
  rw [← hs2]
  refine ⟨howns, ?_, ?_, hc.trans h.cr3, ?_, ?_⟩
  · rw [hm]
    exact h.total
  · intro i hi
    refine (h.reach i hi.CLI).imp_right fun ⟨pdpt, hb⟩ => ⟨pdpt, hb.other, ?_, ?_, hb.notMem_pool, ?_⟩
    · rw [hm]
      exact hb.child
    · rw [hm]
      exact hb.notMem_tree
    · rw [hm]
      exact hb.huge
  · rw [hm]
    exact h.needed
  · rw [hm]
    exact h.kept

/-- Above a word in use there are only words in use. -/
theorem words_ne_zero (hp0 : words T m q ≠ 0) (hp : p ≠ []) (hpre : p <+: q) : words T m p ≠ 0 := by
  obtain ⟨rest, rfl⟩ := hpre
  by_cases hrest : rest = []
  · subst hrest
    rwa [List.append_nil] at hp0
  · intro h0
    have hchild : childOf (words T m p) ≠ none := child_of_wordAt_ne childOf_none hp0 hp hrest
    rw [h0] at hchild
    exact hchild childOf_none

/-! ## Reserving a page -/

theorem reserved_entry_ne_zero (w : Word) : reserved_entry w ≠ 0 := by
  intro h0
  have hd := demand_reserved_entry w
  rw [h0] at hd
  cases hd

theorem demand_page_in.step {cr3 : Word} (h : Owns T s P) (hroot : frameOf cr3 = T.root)
    (hreach : ∀ i, Reach T s P i) (hneed : NeededBut T 0 [] s.mem)
    (hrun : demand_page_in cr3 va s = (true, s')) : ∃ P', HeapStep T (fun _ => False) s P s' P' := by
  unfold demand_page_in at hrun
  rcases hreach (PML4_INDEX va) with hva | ⟨pdpt, hb⟩
  swap
  · rw [travel_pagetable_in.of_huge true (by rw [hroot]; exact hb.child) hb.huge] at hrun
    cases hrun
  obtain ⟨r, s1, P1, hrun1, hedit1, hneed1, hg, hlook⟩ :=
    travel_pagetable_in.grows h hroot hva (hneed.weaken 3 (page_path va))
  rw [hrun1] at hrun
  rcases r with _ | e
  · cases hrun
  have hlook := hlook e rfl
  have hvalid := valid_page_path hva
  have hword : s1.entry e = words T s.mem (page_path va) := by
    rw [← hg _ hvalid (Or.inr rfl), ← page_word_eq_words hedit1.owns.plain hva,
      page_word_of_lookup hlook]
    rfl
  dsimp only at hrun
  split at hrun
  · cases hrun
  · rename_i hfree
    cases hrun
    have hfree : ¬reserved (s1.entry e) = true := hfree
    -- the page was not in use at all
    have hzero : words T s.mem (page_path va) = 0 := by
      by_contra hne
      rw [hword] at hfree
      exact hfree (hneed.leaf _ hvalid rfl hne)
    have habs : present (s1.entry e) = false := by
      have hr := Bool.eq_false_iff.mpr hfree
      exact (Bool.or_eq_false_iff.mp hr).2
    have hset := sets_of_entry (reserved_entry (s1.entry e)) hedit1.owns hva hlook
    have hedit2 := edit_of_reserved hedit1.owns (slot_of_lookup hva hlook) (childOf_of_absent habs)
      (childOf_reserved_entry (s1.entry e))
    have hedit := hedit1.trans hedit2
    refine ⟨P1, hedit.owns, hedit.total, fun i hr => hedit.reach hr, hedit.regs.cr3, ?_, ?_⟩
    · refine PrunedBut.weaken (hneed1.set_leaf hset rfl ?_ (reserved_entry_ne_zero _)) 0 []
      simp [reserved, demand_reserved_entry]
    · intro p0 hp0 hlen hne _ p hp hpre
      have hpne := words_ne_zero hne hp hpre
      have hpv := hp0.above hpre hp
      have hpva : p ≠ page_path va := by
        rintro rfl
        exact hpne hzero
      exact (hset.2 p hpv hpva).trans (hg p hpv (Or.inl hpne))

theorem alloc_pages_loop.step (base : Word) (n i : Nat) (hroot : frameOf s.cr3 = T.root)
    (h : Owns T s P) (hreach : ∀ i, Reach T s P i) (hneed : NeededBut T 0 [] s.mem)
    (hrun : alloc_pages_loop base i n s = (true, s')) :
    ∃ P', HeapStep T (fun _ => False) s P s' P' := by
  induction n generalizing i s P with
  | zero =>
    cases hrun
    exact ⟨P, HeapStep.refl h hneed⟩
  | succ n ih =>
    unfold alloc_pages_loop demand_page at hrun
    rcases hpage : demand_page_in s.cr3 (base + BitVec.ofNat 64 i * PAGE_SIZE) s with ⟨_ | _, s1⟩
    · rw [hpage] at hrun
      cases hrun
    · rw [hpage] at hrun
      obtain ⟨P1, hstep⟩ := demand_page_in.step h hroot hreach hneed hpage
      obtain ⟨P', hrest⟩ := ih (i + 1) (by rw [hstep.cr3]; exact hroot) hstep.owns
        (fun i => hstep.reach i (hreach i)) hstep.needed hrun
      exact ⟨P', hstep.trans hrest⟩

/-! ## Touching a page -/

theorem backed_entry_ne_zero (w frame va : Word) : backed_entry w frame va ≠ 0 := by
  intro h0
  have hp := present_backed_entry w frame va
  rw [h0] at hp
  cases hp

theorem ISR14_PAGE_FAULT_HANDLER.step (h : Owns T s P) (hroot : frameOf s.cr3 = T.root)
    (hreach : ∀ i, Reach T s P i) (hneed : NeededBut T 0 [] s.mem)
    (hrun : ISR14_PAGE_FAULT_HANDLER va s = some s') :
    ∃ P', HeapStep T (· = page_path va) s P s' P' := by
  unfold ISR14_PAGE_FAULT_HANDLER travel_pagetable at hrun
  rw [travel_pagetable_in.of_lookup, hroot] at hrun
  rcases hlook : lookup s.mem T.root va with _ | e
  · rw [hlook] at hrun
    cases hrun
  rcases hreach (PML4_INDEX va) with hva | ⟨pdpt, hb⟩
  swap
  · rw [hb.lookup] at hlook
    cases hlook
  rw [hlook] at hrun
  dsimp only at hrun
  obtain ⟨he, hpath⟩ := h.pathTo hva hlook
  have hpp : [PML4_INDEX va, PDP_INDEX va, PD_INDEX va] ++ [e.2] = page_path va := by
    rw [he]
    rfl
  split at hrun
  swap
  · cases hrun
  rename_i hfault
  simp only [Bool.and_eq_true, Bool.not_eq_true'] at hfault
  rcases make_page_present.cases h hpath.slotAt va with
    ⟨hp, _⟩ | ⟨habs, ⟨hd, _⟩ | ⟨_, ⟨_, hfail⟩ | hnew⟩⟩
  · rw [hfault.2] at hp
    cases hp
  · rw [hfault.1] at hd
    cases hd
  · rw [hfail] at hrun
    cases hrun
  · obtain ⟨c, P', s2, rfl, hok, hl, hchild⟩ := hnew
    rw [hok] at hrun
    cases hrun
    have hold := childOf_of_absent habs
    have hset := hl.sets h hpath hold hchild
    rw [hpp] at hset
    have hedit := hl.edit h hpath.slotAt hold hchild nofun
    refine ⟨P', hedit.owns, hedit.total, fun i hr => hedit.reach hr, hedit.regs.cr3, ?_, ?_⟩
    · refine PrunedBut.weaken ((hneed.weaken 3 (page_path va)).set_leaf hset rfl ?_
        (backed_entry_ne_zero _ _ _)) 0 []
      simp [reserved, present_backed_entry]
    · intro p0 hp0 hlen hne hA p hp hpre
      refine hset.2 p (hp0.above hpre hp) ?_
      rintro rfl
      exact hA (hpre.eq_of_length (by rw [hlen]; rfl)).symm

/-! ## Freeing a page -/

/-- Words are cleared only above the pages. -/
def Shrinks (T : Tree) (m m' : Nat → Frame) : Prop :=
  ∀ p, Valid T.slots 4 p → words T m' p = words T m p ∨ (words T m' p = 0 ∧ p.length < 4)

theorem Shrinks.trans {m1 : Nat → Frame} (h : Shrinks T m m1) (h' : Shrinks T m1 m') :
    Shrinks T m m' := by
  intro p hp
  rcases h' p hp with heq | hzero
  · rw [heq]
    exact h p hp
  · exact Or.inr hzero

theorem unlink_entry (e : EntryPtr) (c : Nat) (s : Machine) : (unlink e c s).mem e.1 e.2 = 0 :=
  setWord_same _ _ _ _

/-- A frame that is given back, seen in the words of the tree. -/
theorem unlink.sets (h : Owns T s P) (hpath : PathTo childOf s.mem T.slots 3 T.root k t i path)
    (hc : childOf (s.mem t i) = some c) (hempty : k ≠ 0 → ∀ j, s.mem c j = 0) :
    Edit T s P (unlink (t, i) c s) (c :: P) ∧
      Sets T.slots 4 (path ++ [i]) 0 (words T s.mem) (words T (unlink (t, i) c s).mem) := by
  have honly : frames childOf k s.mem c = {c} := by
    cases k with
    | zero => exact frames_zero _ _
    | succ k =>
      rw [frames_succ, forest_eq_zero]
      · rfl
      · intro j _
        rw [hempty (by omega) j]
        exact childOf_zero
  have hzero : (unlink (t, i) c s).mem t i = 0 := unlink_entry (t, i) c s
  obtain ⟨hedit, hrow, hoff⟩ := unlink.spec h hpath.slotAt hc honly
  refine ⟨hedit, ?_⟩
  have hset := sets_of_path hpath hrow
    (fun f _ hft hf => hoff f hft fun he => hf (by rw [sub_of_some hc, honly, he]; simp))
    (fun hk c' hc' => by
      rw [hc] at hc'
      cases hc'
      exact hempty hk)
    (fun _ c' hc' => by
      rw [hzero, childOf_none] at hc'
      cases hc')
  rw [hzero] at hset
  exact hset

theorem clear_page.sets (h : Owns T s P) (hva : PML4_INDEX va ∈ T.slots)
    (hlook : lookup s.mem T.root va = some e) :
    ∃ P', Edit T s P (clear_page e s) P' ∧
      Sets T.slots 4 (page_path va) 0 (words T s.mem) (words T (clear_page e s).mem) := by
  obtain ⟨he, hpath⟩ := h.pathTo hva hlook
  have hpp : [PML4_INDEX va, PDP_INDEX va, PD_INDEX va] ++ [e.2] = page_path va := by
    rw [he]
    rfl
  by_cases hp : present (s.entry e) = true
  · have hrun : clear_page e s = unlink e (pfn (s.entry e)) s := by
      simp [clear_page, unlink, hp]
    obtain ⟨hedit, hset⟩ := unlink.sets h hpath (childOf_of_present hp) (fun h0 => absurd rfl h0)
    rw [hpp] at hset
    rw [hrun]
    exact ⟨_, hedit, hset⟩
  · have habs : present (s.entry e) = false := by simpa using hp
    have hrun : clear_page e s = s.set_entry e 0 := by
      simp [clear_page, habs]
    rw [hrun]
    exact ⟨P, edit_of_reserved h hpath.slotAt (childOf_of_absent habs) childOf_zero,
      sets_of_entry 0 h hva hlook⟩

theorem words_concat (hleads : follow childOf m T.root path = some t) (j : Fin 512) :
    words T m (path ++ [j]) = m t j := by
  rw [words, wordAt_concat, hleads]
  rfl

/-- The last table of the path that may be needed no longer. -/
theorem free_if_empty.prunes (h : Owns T s P)
    (hpath : PathTo childOf s.mem T.slots 3 T.root (k + 1) t i path)
    (hc : childOf (s.mem t i) = some c) (hpre : path ++ [i] <+: q)
    (hneed : NeededBut T (path ++ [i]).length q s.mem) :
    ∃ P', Edit T s P (free_if_empty (t, i) c s) P' ∧
      NeededBut T path.length q (free_if_empty (t, i) c s).mem ∧
      Shrinks T s.mem (free_if_empty (t, i) c s).mem ∧
      ∀ p, Valid T.slots 4 p → p ≠ path ++ [i] →
        words T (free_if_empty (t, i) c s).mem p = words T s.mem p := by
  have hlen := hpath.length
  have hplen : (path ++ [i]).length = path.length + 1 := by simp
  have hpred : path.length = (path ++ [i]).length - 1 := by omega
  have hvalid : Valid T.slots 4 (path ++ [i]) := ⟨by simp, by omega, hpath.head⟩
  unfold free_if_empty
  split
  · rename_i hempty
    have hz := (page_table_empty_iff _).mp hempty
    obtain ⟨hedit, hset⟩ := unlink.sets h hpath hc fun _ => hz
    refine ⟨_, hedit, ?_, ?_, hset.2⟩
    · rw [hpred]
      exact hneed.prune hset hpre (by omega)
    · intro p hp
      by_cases he : p = path ++ [i]
      · rw [he]
        exact Or.inr ⟨hset.1, by omega⟩
      · exact Or.inl (hset.2 p hp he)
  · rename_i hfull
    obtain ⟨j, hj⟩ : ∃ j, s.mem c j ≠ 0 := by
      by_contra hnone
      push Not at hnone
      exact hfull ((page_table_empty_iff _).mpr hnone)
    refine ⟨P, Edit.refl h, ?_, fun _ _ => Or.inl rfl, fun _ _ _ => rfl⟩
    rw [hpred]
    refine hneed.keep hvalid hpre (by omega) (j := j) ?_
    rw [words_concat (follow_append hpath.leads hc)]
    exact hj

theorem free_empty_tables.prunes (h : Owns T s P) (hroot : frameOf s.cr3 = T.root)
    (hva : PML4_INDEX va ∈ T.slots) (hlook : lookup s.mem T.root va = some e)
    (hneed : NeededBut T 3 (page_path va) s.mem) :
    ∃ P', Edit T s P (free_empty_tables va s) P' ∧
      NeededBut T 0 (page_path va) (free_empty_tables va s).mem ∧
      Shrinks T s.mem (free_empty_tables va s).mem := by
  obtain ⟨pdpt, pd, h3, h2, h1, _⟩ := lookup_eq_some hlook
  obtain ⟨hl3, hc3⟩ := childOf_of_nextTable h3
  obtain ⟨hl2, hc2⟩ := childOf_of_nextTable h2
  obtain ⟨hl1, hc1⟩ := childOf_of_nextTable h1
  have hvalid := valid_page_path hva
  have hpre : ∀ n, (page_path va).take n <+: page_path va := fun n => List.take_prefix n _
  have hf2 : follow childOf s.mem T.root [PML4_INDEX va] = some pdpt := by simp [follow, hc3]
  have hf1 : follow childOf s.mem T.root [PML4_INDEX va, PDP_INDEX va] = some pd := by
    simp [follow, hc3, hc2]
  -- no entry on the way ends the function early
  have htable : ∀ path {t i k c}, follow childOf s.mem T.root path = some t →
      path ++ [i] <+: page_path va → path.length + 1 < 4 → nextTable k (s.mem t i) = some c →
      (present (s.mem t i) = true ∧ allocated (s.mem t i) = true) ∧ pfn (s.mem t i) = c := by
    intro path t i k c hleads hq hlen hnext
    have hw := words_concat (T := T) hleads i
    have hne : words T s.mem (path ++ [i]) ≠ 0 := by
      rw [hw]
      exact ne_zero_of_nextTable hnext
    have hown := (hneed.inner _ (hvalid.above hq (by simp)) (by simp; omega) hne).1
    rw [hw] at hown
    exact ⟨hown, (childOf_eq_some.mp (childOf_of_nextTable hnext).2).2⟩
  obtain ⟨⟨hp3, ha3⟩, hpfn3⟩ := htable [] rfl (hpre 1) (by simp) h3
  obtain ⟨⟨hp2, ha2⟩, hpfn2⟩ := htable _ hf2 (hpre 2) (by simp) h2
  obtain ⟨⟨hp1, ha1⟩, hpfn1⟩ := htable _ hf1 (hpre 3) (by simp) h1
  have hb2 : big_page (s.mem pdpt (PDP_INDEX va)) = false := by
    simpa [leads, hasBig, hp2] using hl2
  have hb1 : big_page (s.mem pd (PD_INDEX va)) = false := by
    simpa [leads, hasBig, hp1] using hl1
  have hrun : free_empty_tables va s = free_if_empty (T.root, PML4_INDEX va) pdpt
      (free_if_empty (pdpt, PDP_INDEX va) pd (free_if_empty (pd, PD_INDEX va) e.1 s)) := by
    rw [free_empty_tables_eq, hroot]
    simp [Machine.entry, hp3, ha3, hpfn3, hp2, ha2, hb2, hpfn2, hp1, ha1, hb1, hpfn1]
  rw [hrun]
  -- the page table
  obtain ⟨P1, hedit1, hneed1, hsh1, hsame1⟩ := free_if_empty.prunes h
    (h.path_to_pd hva hf1) hc1 (hpre 3) hneed
  obtain ⟨s1, hs1⟩ : ∃ s1, s1 = free_if_empty (pd, PD_INDEX va) e.1 s := ⟨_, rfl⟩
  rw [← hs1] at hedit1 hneed1 hsh1 hsame1 ⊢
  have hkeep1 : ∀ p, p ≠ [] → p <+: page_path va → p.length < 3 →
      follow childOf s1.mem T.root p = follow childOf s.mem T.root p := by
    intro p hp hq hlen
    rw [follow_eq_words hp, follow_eq_words hp, hsame1 p (hvalid.above hq hp)]
    rintro rfl
    simp at hlen
  have hf2' : follow childOf s1.mem T.root [PML4_INDEX va] = some pdpt := by
    rw [hkeep1 [PML4_INDEX va] (by simp) (hpre 1) (by simp), hf2]
  have hc2' : childOf (s1.mem pdpt (PDP_INDEX va)) = some pd := by
    have hstep := hkeep1 [PML4_INDEX va, PDP_INDEX va] (by simp) (hpre 2) (by simp)
    rw [hf1, ← List.singleton_append, follow_concat, hf2'] at hstep
    exact hstep
  -- the page directory
  obtain ⟨P2, hedit2, hneed2, hsh2, hsame2⟩ := free_if_empty.prunes hedit1.owns
    (hedit1.owns.path_to_pdpt hva hf2') hc2' (hpre 2) hneed1
  obtain ⟨s2, hs2⟩ : ∃ s2, s2 = free_if_empty (pdpt, PDP_INDEX va) pd s1 := ⟨_, rfl⟩
  rw [← hs2] at hedit2 hneed2 hsh2 hsame2 ⊢
  have hc3' : childOf (s2.mem T.root (PML4_INDEX va)) = some pdpt := by
    have hw := hsame2 [PML4_INDEX va] (hvalid.above (hpre 1) (by simp)) (by simp)
    have hstep : childOf (words T s2.mem [PML4_INDEX va]) = some pdpt := by
      rw [hw, ← follow_eq_words (by simp), hf2']
    exact hstep
  -- the PDPT
  obtain ⟨P3, hedit3, hneed3, hsh3, _⟩ := free_if_empty.prunes hedit2.owns
    (hedit2.owns.path_to_p4 hva) hc3' (hpre 1) hneed2
  exact ⟨P3, (hedit1.trans hedit2).trans hedit3, hneed3, (hsh1.trans hsh2).trans hsh3⟩

theorem MMU_free_page.step (h : Owns T s P) (hroot : frameOf s.cr3 = T.root)
    (hreach : ∀ i, Reach T s P i) (hneed : NeededBut T 0 [] s.mem) (vaddr : Word) :
    ∃ P', HeapStep T (· = page_path (vaddr &&& PAGE_MASK)) s P (MMU_free_page vaddr s) P' := by
  rw [MMU_free_page_eq, hroot]
  generalize vaddr &&& PAGE_MASK = va
  rcases hlook : lookup s.mem T.root va with _ | e
  · exact ⟨P, HeapStep.refl h hneed⟩
  rcases hreach (PML4_INDEX va) with hva | ⟨pdpt, hb⟩
  swap
  · rw [hb.lookup] at hlook
    cases hlook
  dsimp only
  obtain ⟨P1, hedit1, hset⟩ := clear_page.sets h hva hlook
  have hvalid := valid_page_path hva
  have hlook1 : lookup (clear_page e s).mem T.root va = some e := by
    have hpre : [PML4_INDEX va, PDP_INDEX va, PD_INDEX va] <+: page_path va := List.prefix_append _ _
    rw [lookup_eq_follow hedit1.owns.plain hva]
    rw [lookup_eq_follow h.plain hva] at hlook
    rw [← hlook, follow_eq_words (by simp), follow_eq_words (by simp),
      hset.2 _ (hvalid.above hpre (by simp)) (by simp [page_path])]
  have hneed1 := (hneed.weaken 0 (page_path va)).clear_leaf hset rfl
  have hroot1 : frameOf (clear_page e s).cr3 = T.root := by
    rw [hedit1.regs.cr3]
    exact hroot
  obtain ⟨P2, hedit2, hneed2, hsh⟩ := free_empty_tables.prunes hedit1.owns hroot1 hva hlook1 hneed1
  have hedit := hedit1.trans hedit2
  refine ⟨P2, hedit.owns, hedit.total, fun i hr => hedit.reach hr, hedit.regs.cr3,
    hneed2.weaken 0 [], ?_⟩
  intro p0 hp0 hlen hne hA p hp hpre
  have hpage : ∀ p, p ≠ [] → p <+: p0 → words T (clear_page e s).mem p = words T s.mem p := by
    intro p hp hpre
    refine hset.2 p (hp0.above hpre hp) ?_
    rintro rfl
    exact hA (hpre.eq_of_length (by rw [hlen]; rfl)).symm
  -- the page is still there, so nothing above it was cleared
  have hstays : words T (free_empty_tables va (clear_page e s)).mem p0 ≠ 0 := by
    rcases hsh p0 hp0 with heq | ⟨_, hshort⟩
    · rw [heq, hpage p0 hp0.ne_nil (List.prefix_refl _)]
      exact hne
    · omega
  rcases hsh p (hp0.above hpre hp) with heq | ⟨hzero, _⟩
  · rw [heq, hpage p hp hpre]
  · exact absurd hzero (words_ne_zero hstays hp hpre)

theorem free_pages_loop.step (base : Word) (n i : Nat) (hroot : frameOf s.cr3 = T.root)
    (h : Owns T s P) (hreach : ∀ i, Reach T s P i) (hneed : NeededBut T 0 [] s.mem) :
    ∃ P', HeapStep T (fun p => ∃ j, i ≤ j ∧ j < i + n ∧
      p = page_path (range_page base j &&& PAGE_MASK)) s P (free_pages_loop base i n s) P' := by
  induction n generalizing i s P with
  | zero => exact ⟨P, HeapStep.refl h hneed⟩
  | succ n ih =>
    obtain ⟨P1, hstep⟩ := MMU_free_page.step h hroot hreach hneed (range_page base i)
    obtain ⟨P', hrest⟩ := ih (i + 1) (by rw [hstep.cr3]; exact hroot) hstep.owns
      (fun i => hstep.reach i (hreach i)) hstep.needed
    refine ⟨P', (hstep.mono ?_).trans (hrest.mono ?_)⟩
    · rintro p rfl
      exact ⟨i, le_rfl, by omega, rfl⟩
    · rintro p ⟨j, h1, h2, hj⟩
      exact ⟨j, by omega, by omega, hj⟩

/-! ## The frames of a tree by their paths -/

end

/-! ## Runs -/

/-- What is done to the heap under one page table. -/
inductive HeapCall where
  | alloc_page
  | alloc_pages (num : BitVec 32)
  | touch (va : Word)
  | free_page (vaddr : Word)
  | free_pages (vaddr : Word) (num : BitVec 32)

/-- One call. A reservation has to succeed, and a page that is touched has to be reserved and
without a frame, so that the page fault handler gives it one. -/
def heap_call : HeapCall → Machine → Option Machine
  | .alloc_page, s => if (MMU_alloc_page s).1 = 0 then none else some (MMU_alloc_page s).2
  | .alloc_pages num, s =>
    if (MMU_alloc_pages num s).1 = 0 then none else some (MMU_alloc_pages num s).2
  | .touch va, s => ISR14_PAGE_FAULT_HANDLER va s
  | .free_page vaddr, s => some (MMU_free_page vaddr s)
  | .free_pages vaddr num, s => some (MMU_free_pages vaddr num s)

/-- The paths of the pages that a call touches or frees. -/
def HeapCall.Uses : HeapCall → List (Fin 512) → Prop
  | .alloc_page, _ => False
  | .alloc_pages _, _ => False
  | .touch va, p => p = page_path va
  | .free_page vaddr, p => p = page_path (vaddr &&& PAGE_MASK)
  | .free_pages vaddr num, p =>
    ∃ j < num.toInt.toNat, p = page_path (range_page (vaddr &&& PAGE_MASK) j)

section

variable {T : Tree} {s s' : Machine} {P P' : List Nat}

theorem page_path_masked (va : Word) : page_path (va &&& PAGE_MASK) = page_path va := by
  rw [page_path_eq_iff, masked_div]

theorem heap_call.step {c : HeapCall} (h : Owns T s P) (hroot : frameOf s.cr3 = T.root)
    (hreach : ∀ i, Reach T s P i) (hneed : NeededBut T 0 [] s.mem) (hrun : heap_call c s = some s') :
    ∃ P', HeapStep T c.Uses s P s' P' := by
  cases c with
  | alloc_page =>
    simp only [heap_call] at hrun
    split at hrun
    · cases hrun
    rename_i hok
    cases hrun
    unfold MMU_alloc_page demand_page at hok ⊢
    dsimp only at hok ⊢
    rcases hpage : demand_page_in (CLI s).cr3 s.kernel_va (CLI s) with ⟨_ | _, s1⟩
    · rw [hpage] at hok
      exact absurd rfl hok
    obtain ⟨P', hstep⟩ := demand_page_in.step h.CLI hroot (fun i => (hreach i).CLI) hneed hpage
    exact ⟨P', (hstep.masked _ _).mono fun _ => False.elim⟩
  | alloc_pages num =>
    simp only [heap_call] at hrun
    split at hrun
    · cases hrun
    rename_i hok
    cases hrun
    unfold MMU_alloc_pages at hok ⊢
    dsimp only at hok ⊢
    rcases hpage : alloc_pages_loop s.kernel_va 0 num.toInt.toNat (CLI s) with ⟨_ | _, s1⟩
    · rw [hpage] at hok
      exact absurd rfl hok
    obtain ⟨P', hstep⟩ := alloc_pages_loop.step (s := CLI s) s.kernel_va num.toInt.toNat 0 hroot
      h.CLI (fun i => (hreach i).CLI) hneed hpage
    exact ⟨P', (hstep.masked _ _).mono fun _ => False.elim⟩
  | touch va => exact ISR14_PAGE_FAULT_HANDLER.step h hroot hreach hneed hrun
  | free_page vaddr =>
    cases hrun
    exact MMU_free_page.step h hroot hreach hneed vaddr
  | free_pages vaddr num =>
    cases hrun
    obtain ⟨P', hstep⟩ := free_pages_loop.step (vaddr &&& PAGE_MASK) num.toInt.toNat 0 hroot h hreach
      hneed
    refine ⟨P', hstep.mono ?_⟩
    rintro p ⟨j, _, hj, rfl⟩
    exact ⟨j, by omega, page_path_masked _⟩

/-- A whole run is a step, of all pages that one of its calls uses. -/
theorem heap_calls.step (calls : List HeapCall) (h : Owns T s P) (hroot : frameOf s.cr3 = T.root)
    (hreach : ∀ i, Reach T s P i) (hneed : NeededBut T 0 [] s.mem)
    (hrun : Runs.run heap_call calls s = some s') :
    ∃ P', HeapStep T (fun p => ∃ c ∈ calls, c.Uses p) s P s' P' := by
  induction calls generalizing s P with
  | nil =>
    cases hrun
    exact ⟨P, HeapStep.refl h hneed⟩
  | cons c calls ih =>
    obtain ⟨s1, hcall, hrest⟩ := Option.bind_eq_some_iff.mp hrun
    obtain ⟨P1, hstep⟩ := heap_call.step h hroot hreach hneed hcall
    obtain ⟨P', hsteps⟩ := ih hstep.owns (by rw [hstep.cr3]; exact hroot)
      (fun i => hstep.reach i (hreach i)) hstep.needed hrest
    refine ⟨P', (hstep.mono ?_).trans (hsteps.mono ?_)⟩
    · exact fun p hp => ⟨c, List.mem_cons_self, hp⟩
    · rintro p ⟨c', hc', hp⟩
      exact ⟨c', List.mem_cons_of_mem _ hc', hp⟩

/-! ## Tables and free frames -/

/-- The frame that a path of indices leads to from the current P4: a P3, P2 or P1 table after one,
two or three indices, and a page with a frame after four. -/
def frame_at (s : Machine) (path : List (Fin 512)) : Option Nat :=
  follow childOf s.mem (frameOf s.cr3) path

end

end JamsOs
