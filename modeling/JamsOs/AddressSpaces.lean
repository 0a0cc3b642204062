-- The laws of the address spaces together. The kernel has one page-table tree and each
-- live address space has one of its own for its user half. Whatever the calls do, these
-- trees and the free frames never overlap, so each frame has one role at most and no
-- address space can reach into another.
import JamsOs.Fork
import JamsOs.PageEdits

namespace JamsOs

open Words RadixTree Linked

/-! ## The trees of the system -/

/-- The kernel's P4 without the entry of the identity mapping. -/
def kernelTree (p4 : Nat) : Tree := ⟨p4, Finset.univ.erase 0⟩

/-- The tree of the kernel, and the user halves of the live address spaces. -/
def trees (p4 : Nat) (live : List Word) : List Tree :=
  kernelTree p4 :: live.map fun cr3 => userTree (frameOf cr3)

/-- All frames of some trees. -/
def grove (m : Nat → Frame) (ts : List Tree) : Multiset Nat := (ts.map (treeFrames m)).sum

section

variable {m m' : Nat → Frame} {T U : Tree} {ts ts' : List Tree} {f : Nat}

theorem grove_cons (m : Nat → Frame) (T : Tree) (ts : List Tree) :
    grove m (T :: ts) = treeFrames m T + grove m ts := by
  simp [grove]

theorem grove_perm (h : ts.Perm ts') : grove m ts = grove m ts' := (h.map _).sum_eq

theorem mem_grove : f ∈ grove m ts ↔ ∃ T ∈ ts, f ∈ treeFrames m T := by
  induction ts with
  | nil => simp [grove]
  | cons T ts ih => simp [grove_cons, Multiset.mem_add, ih]

theorem treeFrames_congr (h : ∀ f ∈ treeFrames m T, m' f = m f) :
    treeFrames m' T = treeFrames m T := by
  unfold treeFrames
  rw [forest_congr]
  · intro i _
    rw [h T.root (Multiset.mem_cons_self _ _)]
  · exact fun f hf => h f (Multiset.mem_cons_of_mem hf)

theorem grove_congr (h : ∀ f ∈ grove m ts, m' f = m f) : grove m' ts = grove m ts := by
  unfold grove
  congr 1
  apply List.map_congr_left
  intro T hT
  exact treeFrames_congr fun f hf => h f (mem_grove.mpr ⟨T, hT, hf⟩)

/-- One tree of the system, and the others. -/
theorem exists_rest (h : T ∈ ts) : ∃ rest, ts.Perm (T :: rest) := by
  obtain ⟨l1, l2, rfl⟩ := List.append_of_mem h
  exact ⟨l1 ++ l2, List.perm_middle⟩

/-- Two trees of a system without duplicates share no frame. -/
theorem trees_apart (hnd : (grove m ts).Nodup) (hT : T ∈ ts) (hU : U ∈ ts) (hne : U ≠ T)
    (hf : f ∈ treeFrames m T) : f ∉ treeFrames m U := by
  obtain ⟨rest, hperm⟩ := exists_rest hT
  rw [grove_perm hperm, grove_cons, Multiset.nodup_add] at hnd
  have hrest : U ∈ rest := by
    rcases List.mem_cons.mp (hperm.mem_iff.mp hU) with h | h
    · exact absurd h hne
    · exact h
  intro hfU
  exact Multiset.disjoint_left.mp hnd.2.2 hf (mem_grove.mpr ⟨U, hrest, hfU⟩)

end

/-! ## The invariant -/

/-- The trees and the free frames do not overlap, nor with the frames `R` that have another
use: the kernel's own and those that were lost. All P4s have the kernel's entries below user
space, and the current P4 is the kernel's or a live one. -/
structure Sound (s : Machine) (live : List Word) (R : Multiset Nat) (P : List Nat) : Prop where
  pool : Pool s P
  small : ∀ f ∈ P, f < 2 ^ 40
  nodup : (R + grove s.mem (trees s.ptable_p4 live) + ↑P).Nodup
  plain : ∀ T ∈ trees s.ptable_p4 live, ∀ i ∈ T.slots, Plain false 3 s.mem (s.mem T.root i)
  nonzero : ∀ cr3 ∈ live, cr3 ≠ 0
  aligned : ∀ cr3 ∈ live, cr3.toNat % 4096 = 0
  fits : ∀ cr3 ∈ live, frameOf cr3 < 2 ^ 40
  current : frameOf s.cr3 = s.ptable_p4 ∨ ∃ cr3 ∈ live, frameOf s.cr3 = frameOf cr3
  shared : ∀ cr3 ∈ live, ∀ i, i ∉ userSlots → s.mem (frameOf cr3) i = s.mem s.ptable_p4 i
  identity : ∃ c ∈ R, childOf (s.mem s.ptable_p4 0) = some c ∧
    ∀ j, present (s.mem c j) = true ∧ big_page (s.mem c j) = true

section

variable {s s' : Machine} {live : List Word} {R R' : Multiset Nat} {P P' : List Nat} {T U : Tree}
  {cr3 : Word} {f : Nat}

theorem userTree_mem (p4 : Nat) (h : cr3 ∈ live) : userTree (frameOf cr3) ∈ trees p4 live :=
  List.mem_cons_of_mem _ (List.mem_map_of_mem h)

theorem kernelTree_mem (p4 : Nat) (live : List Word) : kernelTree p4 ∈ trees p4 live :=
  List.mem_cons_self

theorem Sound.grove_nodup (h : Sound s live R P) :
    (grove s.mem (trees s.ptable_p4 live)).Nodup :=
  (Multiset.nodup_add.mp (Multiset.nodup_add.mp h.nodup).1).2.1

theorem Sound.pool_nodup (h : Sound s live R P) : P.Nodup := (Multiset.nodup_add.mp h.nodup).2.1

theorem Sound.tree_notMem_pool (h : Sound s live R P) (hT : T ∈ trees s.ptable_p4 live)
    (hf : f ∈ treeFrames s.mem T) : f ∉ P :=
  Multiset.disjoint_left.mp (Multiset.nodup_add.mp h.nodup).2.2
    (Multiset.mem_add.mpr (Or.inr (mem_grove.mpr ⟨T, hT, hf⟩)))

theorem Sound.rest_notMem_tree (h : Sound s live R P) (hT : T ∈ trees s.ptable_p4 live)
    (hf : f ∈ R) : f ∉ treeFrames s.mem T := fun hfT =>
  Multiset.disjoint_left.mp (Multiset.nodup_add.mp (Multiset.nodup_add.mp h.nodup).1).2.2 hf
    (mem_grove.mpr ⟨T, hT, hfT⟩)

theorem Sound.rest_notMem_pool (h : Sound s live R P) (hf : f ∈ R) : f ∉ P :=
  Multiset.disjoint_left.mp (Multiset.nodup_add.mp h.nodup).2.2 (Multiset.mem_add.mpr (Or.inl hf))

/-- The P4 of the kernel is in its tree, so it is neither free nor that of another space. -/
theorem Sound.kernel_mem (s : Machine) : s.ptable_p4 ∈ treeFrames s.mem (kernelTree s.ptable_p4) :=
  Multiset.mem_cons_self _ _

theorem Sound.owns (h : Sound s live R P) (hT : T ∈ trees s.ptable_p4 live) : Owns T s P := by
  refine ⟨h.pool, h.small, ?_, h.plain T hT⟩
  obtain ⟨rest, hperm⟩ := exists_rest hT
  have hg := h.grove_nodup
  rw [grove_perm hperm, grove_cons] at hg
  exact Multiset.nodup_add.mpr ⟨(Multiset.nodup_add.mp hg).1, h.pool_nodup,
    Multiset.disjoint_left.mpr fun hf => h.tree_notMem_pool hT hf⟩

/-- One tree changes, and may exchange frames with the free ones and with those in another use. The
invariant holds on when the entries of the kernel's P4 below user space stay as they are, or
there is no address space that has copies of them. -/
theorem Sound.replace {R' : Multiset Nat} (h : Sound s live R P) (hT : T ∈ trees s.ptable_p4 live)
    (hown : Owns T s' P')
    (htotal : R' + treeFrames s'.mem T + ↑P' = R + treeFrames s.mem T + ↑P)
    (hoff : ∀ f, f ∉ treeFrames s.mem T → f ∉ P → s'.mem f = s.mem f)
    (hroot : ∀ i, i ∉ T.slots → s'.mem T.root i = s.mem T.root i) (hregs : SameRegs s s')
    (hid : ∀ c ∈ R, childOf (s.mem s.ptable_p4 0) = some c → c ∈ R')
    (hlow : live ≠ [] → ∀ i, i ∉ userSlots → s'.mem s.ptable_p4 i = s.mem s.ptable_p4 i) :
    Sound s' live R' P' := by
  have hk : s'.ptable_p4 = s.ptable_p4 := by
    unfold Machine.ptable_p4
    rw [hregs.kernel_cr3]
  have hother : ∀ U ∈ trees s.ptable_p4 live, U ≠ T → ∀ f ∈ treeFrames s.mem U,
      s'.mem f = s.mem f := by
    intro U hU hne f hf
    exact hoff f (trees_apart h.grove_nodup hU hT hne.symm hf) (h.tree_notMem_pool hU hf)
  have hR : ∀ f ∈ R, s'.mem f = s.mem f := fun f hf =>
    hoff f (h.rest_notMem_tree hT hf) (h.rest_notMem_pool hf)
  have hall : R' + grove s'.mem (trees s.ptable_p4 live) + ↑P' =
      R + grove s.mem (trees s.ptable_p4 live) + ↑P := by
    obtain ⟨rest, hperm⟩ := exists_rest hT
    have hg := h.grove_nodup
    rw [grove_perm hperm, grove_cons, Multiset.nodup_add] at hg
    have hrest : grove s'.mem rest = grove s.mem rest := by
      apply grove_congr
      intro f hf
      obtain ⟨U, hU, hfU⟩ := mem_grove.mp hf
      refine hoff f (fun hm => Multiset.disjoint_left.mp hg.2.2 hm hf) ?_
      exact h.tree_notMem_pool (hperm.mem_iff.mpr (List.mem_cons_of_mem _ hU)) hfU
    rw [grove_perm hperm, grove_perm hperm, grove_cons, grove_cons, hrest, ← add_assoc,
      add_right_comm, htotal, add_right_comm, ← add_assoc]
  refine ⟨hown.pool, hown.small, ?_, ?_, h.nonzero, h.aligned, h.fits, ?_, ?_, ?_⟩
  · rw [hk, hall]
    exact h.nodup
  · rw [hk]
    intro U hU i hi
    by_cases hUT : U = T
    · subst hUT
      exact hown.plain i hi
    · rw [hother U hU hUT U.root (Multiset.mem_cons_self _ _)]
      refine (h.plain U hU i hi).congr fun f hf => hother U hU hUT f ?_
      exact Multiset.mem_cons_of_mem (mem_forest_of_mem_sub hi hf)
  · rw [hk, hregs.cr3]
    exact h.current
  · rw [hk]
    intro cr3 hcr3 i hi
    rw [hlow (List.ne_nil_of_mem hcr3) i hi, ← h.shared cr3 hcr3 i hi]
    by_cases hUT : userTree (frameOf cr3) = T
    · subst hUT
      exact hroot i hi
    · have hrow : s'.mem (frameOf cr3) = s.mem (frameOf cr3) :=
        hother _ (userTree_mem _ hcr3) hUT _ (Multiset.mem_cons_self _ _)
      rw [hrow]
  · have hzero : s'.mem s.ptable_p4 0 = s.mem s.ptable_p4 0 := by
      by_cases hl : live = []
      · subst hl
        have hTK : T = kernelTree s.ptable_p4 := List.mem_singleton.mp hT
        subst hTK
        exact hroot 0 (Finset.notMem_erase 0 _)
      · exact hlow hl 0 (by rw [mem_userSlots]; decide)
    rw [hk, hzero]
    obtain ⟨c, hcR, hc, hbig⟩ := h.identity
    refine ⟨c, hid c hcR hc, hc, ?_⟩
    rw [hR c hcR]
    exact hbig

/-- An edit of one tree exchanges frames with the free ones only. -/
theorem Sound.edit (h : Sound s live R P) (hT : T ∈ trees s.ptable_p4 live)
    (hedit : Edit T s P s' P')
    (hlow : live ≠ [] → ∀ i, i ∉ userSlots → s'.mem s.ptable_p4 i = s.mem s.ptable_p4 i) :
    Sound s' live R P' := by
  refine h.replace hT hedit.owns ?_ hedit.off hedit.low hedit.regs (fun _ hc _ => hc) hlow
  rw [add_assoc, hedit.total, ← add_assoc]

theorem kernelTree_ne_userTree (p q : Nat) : kernelTree p ≠ userTree q := by
  intro he
  have hslots : Finset.univ.erase 0 = userSlots := congrArg Tree.slots he
  have h1 : (1 : Fin 512) ∈ Finset.univ.erase 0 := by simp
  rw [hslots, mem_userSlots] at h1
  exact absurd h1 (by decide)

/-- An edit of the user half of a live address space keeps the invariant. -/
theorem Sound.edit_user (h : Sound s live R P) (hcr3 : cr3 ∈ live)
    (hedit : Edit (userTree (frameOf cr3)) s P s' P') : Sound s' live R P' := by
  have hT := userTree_mem s.ptable_p4 hcr3
  have hK := kernelTree_mem s.ptable_p4 live
  have hrow : s'.mem s.ptable_p4 = s.mem s.ptable_p4 := by
    refine hedit.off _ ?_ (h.tree_notMem_pool hK (Sound.kernel_mem s))
    exact trees_apart h.grove_nodup hK hT (kernelTree_ne_userTree _ _).symm (Sound.kernel_mem s)
  exact h.edit hT hedit fun _ i _ => by rw [hrow]

/-! ## Page faults -/

theorem mem_kernelTree_slots {i : Fin 512} (p4 : Nat) : i ∈ (kernelTree p4).slots ↔ i ≠ 0 := by
  simp [kernelTree]

theorem lookup_root {m : Nat → Frame} {p4 p4' : Nat} {va : Word}
    (h : m p4' (PML4_INDEX va) = m p4 (PML4_INDEX va)) : lookup m p4' va = lookup m p4 va := by
  unfold lookup
  rw [h]

/-- The tree in which the walk of `va` goes. Below user space it is the kernel's, whichever P4 is
current. -/
@[irreducible] def walked (va : Word) (s : Machine) : Tree :=
  if PML4_INDEX va ∈ userSlots ∧ frameOf s.cr3 ≠ s.ptable_p4 then userTree (frameOf s.cr3)
  else kernelTree s.ptable_p4

section

variable (h : Sound s live R P)

include h

theorem Sound.current_row {i : Fin 512} (hi : i ∉ userSlots) :
    s.mem (frameOf s.cr3) i = s.mem s.ptable_p4 i := by
  rcases h.current with hcur | ⟨cr3, hcr3, hcur⟩
  · rw [hcur]
  · rw [hcur]
    exact h.shared cr3 hcr3 i hi

/-- No walk goes through the identity mapping. -/
theorem Sound.lookup_ne_zero {va : Word} {e : EntryPtr}
    (hlook : lookup s.mem s.ptable_p4 va = some e) : PML4_INDEX va ≠ 0 := by
  intro h0
  obtain ⟨pdpt, pd, h3, h2, _, _⟩ := lookup_eq_some hlook
  obtain ⟨c, _, hc, hbig⟩ := h.identity
  have hc3 := (childOf_of_nextTable h3).2
  rw [h0, hc] at hc3
  cases hc3
  have hl := (childOf_of_nextTable h2).1
  simp [leads, hasBig, (hbig (PDP_INDEX va)).2] at hl

theorem Sound.walked_lookup {va : Word} {e : EntryPtr}
    (hlook : lookup s.mem (frameOf s.cr3) va = some e) :
    walked va s ∈ trees s.ptable_p4 live ∧ lookup s.mem (walked va s).root va = some e ∧
      PML4_INDEX va ∈ (walked va s).slots := by
  unfold walked
  split
  · rename_i hu
    obtain ⟨cr3, hcr3, hcur⟩ := h.current.resolve_left hu.2
    exact ⟨hcur ▸ userTree_mem _ hcr3, hlook, hu.1⟩
  · rename_i hk
    have hrow : s.mem (frameOf s.cr3) (PML4_INDEX va) = s.mem s.ptable_p4 (PML4_INDEX va) := by
      by_cases hcur : frameOf s.cr3 = s.ptable_p4
      · rw [hcur]
      · exact h.current_row fun hi => hk ⟨hi, hcur⟩
    rw [lookup_root hrow] at hlook
    exact ⟨kernelTree_mem _ _, hlook, (mem_kernelTree_slots _).mpr (h.lookup_ne_zero hlook)⟩

/-- Every page-table entry that a walk finds belongs to one of the trees. -/
theorem Sound.slot_of_lookup {va : Word} {e : EntryPtr}
    (hlook : lookup s.mem (frameOf s.cr3) va = some e) :
    ∃ T ∈ trees s.ptable_p4 live, TreeSlot T s.mem 0 e.1 e.2 := by
  obtain ⟨hT, hlook', hva⟩ := h.walked_lookup hlook
  exact ⟨_, hT, JamsOs.slot_of_lookup hva hlook'⟩

/-- A page table is never the kernel's P4. -/
theorem Sound.table_ne_kernel {e : EntryPtr} (hT : T ∈ trees s.ptable_p4 live)
    (hslot : TreeSlot T s.mem 0 e.1 e.2) : s.ptable_p4 ≠ e.1 := by
  have hK := kernelTree_mem s.ptable_p4 live
  intro he
  by_cases hTK : T = kernelTree s.ptable_p4
  · subst hTK
    exact hslot.table_ne_root (h.owns hT).tree_nodup (by omega) he.symm
  · have hmem : s.ptable_p4 ∈ treeFrames s.mem T := by
      rw [he]
      exact hslot.table_mem
    exact trees_apart h.grove_nodup hK hT hTK (Sound.kernel_mem s) hmem

/-- A page fault changes the tree that was walked. -/
theorem ISR14_PAGE_FAULT_HANDLER.edits {va : Word}
    (hrun : ISR14_PAGE_FAULT_HANDLER va s = some s') :
    ∃ P', Edit (walked va s) s P s' P' ∧ walked va s ∈ trees s.ptable_p4 live ∧
      Sound s' live R P' := by
  unfold ISR14_PAGE_FAULT_HANDLER travel_pagetable at hrun
  rw [travel_pagetable_in.of_lookup] at hrun
  rcases hlook : lookup s.mem (frameOf s.cr3) va with _ | e
  · simp [hlook] at hrun
  obtain ⟨hT, hlook', hva⟩ := h.walked_lookup hlook
  have hslot := slot_of_lookup hva hlook'
  obtain ⟨r, s1, P1, hmake, hedit, _, _, hoff⟩ := make_page_present.spec (h.owns hT) hslot va
  simp only [hlook, hmake] at hrun
  split at hrun
  · cases r with
    | false => cases hrun
    | true =>
      cases hrun
      refine ⟨P1, hedit, hT, h.edit hT hedit fun _ i _ => ?_⟩
      rw [hoff _ (h.table_ne_kernel hT hslot)
        (h.tree_notMem_pool (kernelTree_mem _ _) (Sound.kernel_mem s))]
  · cases hrun

/-! ## Making, cloning and tearing down -/

theorem Sound.kernel_notMem_pool : s.ptable_p4 ∉ P :=
  h.tree_notMem_pool (kernelTree_mem _ _) (Sound.kernel_mem s)

/-- The trees and the identity mapping are not written: they stay, and the frames that are no
longer free have another use. -/
theorem Sound.off_trees {R' : Multiset Nat} (hpool : Pool s' P') (htotal : R' + ↑P' = R + ↑P)
    (hsmall : ∀ f ∈ P', f < 2 ^ 40)
    (htree : ∀ T ∈ trees s.ptable_p4 live, ∀ f ∈ treeFrames s.mem T, s'.mem f = s.mem f)
    (hid : ∀ c ∈ R, childOf (s.mem s.ptable_p4 0) = some c → c ∈ R' ∧ s'.mem c = s.mem c)
    (hk : s'.kernel_cr3 = s.kernel_cr3) (hc : s'.cr3 = s.cr3) : Sound s' live R' P' := by
  have hk : s'.ptable_p4 = s.ptable_p4 := by
    unfold Machine.ptable_p4
    rw [hk]
  have hgrove : grove s'.mem (trees s.ptable_p4 live) = grove s.mem (trees s.ptable_p4 live) := by
    apply grove_congr
    intro f hf
    obtain ⟨T, hT, hfT⟩ := mem_grove.mp hf
    exact htree T hT f hfT
  have hrow : s'.mem s.ptable_p4 = s.mem s.ptable_p4 :=
    htree _ (kernelTree_mem _ _) _ (Sound.kernel_mem s)
  refine ⟨hpool, hsmall, ?_, ?_, h.nonzero, h.aligned, h.fits, ?_, ?_, ?_⟩
  · rw [hk, hgrove, add_right_comm, htotal, add_right_comm]
    exact h.nodup
  · rw [hk]
    intro T hT i hi
    rw [htree T hT T.root (Multiset.mem_cons_self _ _)]
    refine (h.plain T hT i hi).congr fun f hf => htree T hT f ?_
    exact Multiset.mem_cons_of_mem (mem_forest_of_mem_sub hi hf)
  · rw [hk, hc]
    exact h.current
  · rw [hk, hrow]
    intro cr3 hcr3 i hi
    have hp4 : s'.mem (frameOf cr3) = s.mem (frameOf cr3) :=
      htree _ (userTree_mem _ hcr3) _ (Multiset.mem_cons_self _ _)
    rw [hp4]
    exact h.shared cr3 hcr3 i hi
  · rw [hk, hrow]
    obtain ⟨c, hcR, hc, hbig⟩ := h.identity
    obtain ⟨hcR', hmem⟩ := hid c hcR hc
    refine ⟨c, hcR', hc, ?_⟩
    rw [hmem]
    exact hbig

/-- Only free frames are written: the trees stay, and the frames that are no longer free are
lost. -/
theorem Sound.off_pool {R' : Multiset Nat} (hpool : Pool s' P') (htotal : R' + ↑P' = R + ↑P)
    (hR : ∀ f ∈ R, f ∈ R') (hP : ∀ f ∈ P', f ∈ P) (hoff : ∀ f, f ∉ P → s'.mem f = s.mem f)
    (hk : s'.kernel_cr3 = s.kernel_cr3) (hc : s'.cr3 = s.cr3) : Sound s' live R' P' :=
  h.off_trees hpool htotal (fun f hf => h.small f (hP f hf)) (fun _ hT f hf => hoff f (h.tree_notMem_pool hT hf))
    (fun c hcR _ => ⟨hR c hcR, hoff c (h.rest_notMem_pool hcR)⟩) hk hc

/-- The frames of a space that is no longer counted as live are in some other use. -/
theorem Sound.forget (hcr3 : cr3 ∈ live) (hcur : frameOf cr3 ≠ frameOf s.cr3) :
    Sound s (live.erase cr3) (R + userFrames s.mem (frameOf cr3)) P := by
  have hperm : (trees s.ptable_p4 live).Perm
      (userTree (frameOf cr3) :: trees s.ptable_p4 (live.erase cr3)) := by
    have hmap := (List.perm_cons_erase hcr3).map fun cr3 => userTree (frameOf cr3)
    unfold trees
    exact (hmap.cons _).trans (List.Perm.swap _ _ _)
  have hlive : ∀ c ∈ live.erase cr3, c ∈ live := fun c hc => List.mem_of_mem_erase hc
  refine ⟨h.pool, h.small, ?_, fun T hT => h.plain T (hperm.mem_iff.mpr (List.mem_cons_of_mem _ hT)),
    fun c hc => h.nonzero c (hlive c hc), fun c hc => h.aligned c (hlive c hc),
    fun c hc => h.fits c (hlive c hc), ?_, fun c hc => h.shared c (hlive c hc), ?_⟩
  · have hnd := h.nodup
    rw [grove_perm hperm, grove_cons, ← add_assoc] at hnd
    exact hnd
  · refine h.current.imp_right ?_
    rintro ⟨c, hc, he⟩
    refine ⟨c, (List.mem_erase_of_ne ?_).mpr hc, he⟩
    rintro rfl
    exact hcur he.symm
  · obtain ⟨d, hdR, hd⟩ := h.identity
    exact ⟨d, Multiset.mem_add.mpr (Or.inl hdR), hd⟩

/-- A new address space made from free frames joins the live ones. -/
theorem Sound.add {c : Nat} {A : List Nat} (hsplit : P = c :: A ++ P') (hpool : Pool s' P')
    (htotal : userFrames s'.mem c = c ::ₘ ↑A)
    (hplain : ∀ i ∈ userSlots, Plain false 3 s'.mem (s'.mem c i))
    (hkernel : ∀ i, i ∉ userSlots → s'.mem c i = s.mem s.ptable_p4 i)
    (hoff : ∀ f, f ∉ c :: A → s'.mem f = s.mem f) (hk : s'.kernel_cr3 = s.kernel_cr3)
    (hc : s'.cr3 = s.cr3) (hzero : c ≠ 0) : Sound s' (frameAddr c :: live) R P' := by
  have hin : ∀ f ∈ c :: A, f ∈ P := by
    intro f hf
    rw [hsplit]
    exact List.mem_append_left _ hf
  have hc40 : c < 2 ^ 40 := h.small c (hin c List.mem_cons_self)
  have hc52 : c < 2 ^ 52 := by omega
  have hframe : frameOf (frameAddr c) = c := frameOf_frameAddr hc52
  -- the frames taken are first set aside, and then given to the new tree
  have hrest : Sound s' live (R + (c ::ₘ ↑A)) P' := by
    refine h.off_pool hpool ?_ (fun f hf => Multiset.mem_add.mpr (Or.inl hf)) ?_
      (fun f hf => hoff f fun hm => hf (hin f hm)) hk hc
    · rw [hsplit, add_assoc]
      rfl
    · intro f hf
      rw [hsplit]
      exact List.mem_append_right _ hf
  have hkeep : s'.ptable_p4 = s.ptable_p4 := by
    unfold Machine.ptable_p4
    rw [hk]
  have hrow : s'.mem s.ptable_p4 = s.mem s.ptable_p4 :=
    hoff _ fun hm => h.kernel_notMem_pool (hin _ hm)
  have hperm : (trees s'.ptable_p4 (frameAddr c :: live)).Perm
      (userTree c :: trees s'.ptable_p4 live) := by
    unfold trees
    rw [List.map_cons, hframe]
    exact List.Perm.swap _ _ _
  refine ⟨hpool, hrest.small, ?_, ?_, ?_, ?_, ?_, ?_, ?_, ?_⟩
  · rw [grove_perm hperm, grove_cons]
    have hu : treeFrames s'.mem (userTree c) = c ::ₘ ↑A := htotal
    rw [hu, ← add_assoc R]
    exact hrest.nodup
  · intro T hT
    rcases List.mem_cons.mp (hperm.mem_iff.mp hT) with rfl | hT
    · exact hplain
    · exact hrest.plain T hT
  · intro cr3 hcr3
    rcases List.mem_cons.mp hcr3 with rfl | hcr3
    · exact fun he => hzero ((frameAddr_eq_zero hc52).mp he)
    · exact h.nonzero cr3 hcr3
  · intro cr3 hcr3
    rcases List.mem_cons.mp hcr3 with rfl | hcr3
    · rw [frameAddr_toNat hc52]
      omega
    · exact h.aligned cr3 hcr3
  · intro cr3 hcr3
    rcases List.mem_cons.mp hcr3 with rfl | hcr3
    · rw [hframe]
      exact hc40
    · exact h.fits cr3 hcr3
  · rcases hrest.current with hcur | ⟨cr3, hcr3, hcur⟩
    · exact Or.inl hcur
    · exact Or.inr ⟨cr3, List.mem_cons_of_mem _ hcr3, hcur⟩
  · intro cr3 hcr3 i hi
    rcases List.mem_cons.mp hcr3 with rfl | hcr3
    · rw [hframe, hkernel i hi, hkeep, hrow]
    · exact hrest.shared cr3 hcr3 i hi
  · rw [hkeep, hrow]
    obtain ⟨d, hdR, hd, hbig⟩ := h.identity
    refine ⟨d, hdR, hd, ?_⟩
    rw [hoff d fun hm => h.rest_notMem_pool hdR (hin d hm)]
    exact hbig

end

/-- A new address space has one frame, its P4. -/
theorem MMU_create_user_p4.adds {c : Nat} (h : Sound s live R (c :: P)) (hc : c ≠ 0) :
    ∃ s', MMU_create_user_p4 s = (frameAddr c, s') ∧ Sound s' (frameAddr c :: live) R P ∧
      userFrames s'.mem c = {c} ∧ (∀ f, f ≠ c → s'.mem f = s.mem f) ∧ SameRegs s s' := by
  have hk : s.ptable_p4 ≠ c := fun he => h.kernel_notMem_pool (he ▸ List.mem_cons_self)
  obtain ⟨s', hrun, hpool, hnew, hoff, hregs⟩ :=
    MMU_create_user_p4.spec_cons h.pool (List.nodup_cons.mp h.pool_nodup).1 hk
  have hempty : ∀ i ∈ userSlots, s'.mem c i = 0 := by
    intro i hi
    rw [hnew i, if_pos hi]
  have hframes : userFrames s'.mem c = {c} := by
    rw [userFrames, userForest, forest_eq_zero]
    · rfl
    · intro i hi
      rw [hempty i hi]
      exact childOf_zero
  refine ⟨s', hrun, h.add (A := []) rfl hpool hframes ?_ ?_ ?_ hregs.kernel_cr3 hregs.cr3 hc, hframes,
    hoff, hregs⟩
  · intro i hi hp
    rw [hempty i hi] at hp
    simp at hp
  · intro i hi
    rw [hnew i, if_neg hi]
  · exact fun f hf => hoff f fun he => hf (he ▸ List.mem_cons_self)

/-- What a call does that makes an address space. A result of 0 is a failure. Only free frames are
written, and a new address space has those that are not free any more. -/
structure Made (s : Machine) (live : List Word) (R : Multiset Nat) (P : List Nat) (cr3 : Word)
    (s' : Machine) (R' : Multiset Nat) (P' : List Nat) : Prop where
  sound : Sound s' (if cr3 = 0 then live else cr3 :: live) R' P'
  off : ∀ f, f ∉ P → s'.mem f = s.mem f
  frames : cr3 ≠ 0 → R' = R ∧ userFrames s'.mem (frameOf cr3) + ↑P' = (↑P : Multiset Nat)

theorem Sound.none_made (h : Sound s' live R' P') (hoff : ∀ f, f ∉ P → s'.mem f = s.mem f) :
    Made s live R P 0 s' R' P' :=
  ⟨by rwa [if_pos rfl], hoff, fun h0 => absurd rfl h0⟩

theorem MMU_create_user_p4.sound (h : Sound s live R P) :
    ∃ cr3 s' R' P', MMU_create_user_p4 s = (cr3, s') ∧ Made s live R P cr3 s' R' P' := by
  cases P with
  | nil =>
    rw [MMU_create_user_p4.spec_nil h.pool]
    exact ⟨0, s, R, [], rfl, h.none_made fun _ _ => rfl⟩
  | cons c P1 =>
    have hc52 := h.pool.small c List.mem_cons_self
    have hne : ∀ f, f ∉ c :: P1 → f ≠ c := fun f hf he => hf (he ▸ List.mem_cons_self)
    by_cases hc : c = 0
    · have hk : s.ptable_p4 ≠ c := hne _ h.kernel_notMem_pool
      obtain ⟨s1, hrun, hpool, -, hoff, hregs⟩ :=
        MMU_create_user_p4.spec_cons h.pool (List.nodup_cons.mp h.pool_nodup).1 hk
      have hoff' : ∀ f, f ∉ c :: P1 → s1.mem f = s.mem f := fun f hf => hoff f (hne f hf)
      rw [(frameAddr_eq_zero hc52).mpr hc] at hrun
      refine ⟨0, s1, c ::ₘ R, P1, hrun, Sound.none_made ?_ hoff'⟩
      refine h.off_pool hpool ?_ (fun f hf => Multiset.mem_cons_of_mem hf)
        (fun f hf => List.mem_cons_of_mem _ hf) hoff' hregs.kernel_cr3 hregs.cr3
      rw [← Multiset.cons_coe, Multiset.cons_add, Multiset.add_cons]
    · obtain ⟨s1, hrun, hs, hframes, hoff, -⟩ := MMU_create_user_p4.adds h hc
      refine ⟨_, s1, R, P1, hrun, ?_, fun f hf => hoff f (hne f hf), fun _ => ⟨rfl, ?_⟩⟩
      · rwa [if_neg fun he => hc ((frameAddr_eq_zero hc52).mp he)]
      · rw [frameOf_frameAddr hc52, hframes]
        rfl

theorem Sound.cloneReady (h : Sound s live R P) (hcr3 : cr3 ∈ live) : CloneReady s P cr3 :=
  ⟨h.pool, ⟨h.aligned cr3 hcr3, (h.owns (userTree_mem _ hcr3)).nodup,
    h.plain _ (userTree_mem _ hcr3)⟩, h.small, h.kernel_notMem_pool⟩

theorem Sound.current_notMem_pool (h : Sound s live R P) : frameOf s.cr3 ∉ P := by
  rcases h.current with hcur | ⟨cr3, hcr3, hcur⟩
  · rw [hcur]
    exact h.kernel_notMem_pool
  · rw [hcur]
    exact h.tree_notMem_pool (userTree_mem _ hcr3) (Multiset.mem_cons_self _ _)

theorem Sound.interrupts (h : Sound s live R P) (b : Bool) :
    Sound (restore_interrupts b (CLI s)) live R P := by
  have hpool : Pool (CLI s) P := h.pool.congr rfl rfl fun _ _ => rfl
  refine h.off_pool (hpool.restore_interrupts b) rfl (fun _ hf => hf) (fun _ hf => hf) ?_ ?_ ?_
  · intro f _
    rw [restore_interrupts_mem]
    rfl
  · unfold restore_interrupts
    split <;> rfl
  · unfold restore_interrupts
    split <;> rfl

theorem MMU_clone_userspace.sound (h : Sound s live R P) (hcr3 : cr3 ∈ live) :
    ∃ child s' R' P', MMU_clone_userspace cr3 s = some (child, s') ∧
      Made s live R P child s' R' P' := by
  have hready := h.cloneReady hcr3
  have hmasked : ∀ f, f ∉ P → (restore_interrupts s.interrupts (CLI s)).mem f = s.mem f :=
    fun f _ => congrFun (restore_interrupts_mem _ _) f
  by_cases hr : refused s cr3
  · exact ⟨0, _, R, P, MMU_clone_userspace.of_refused hr, (h.interrupts _).none_made hmasked⟩
  cases P with
  | nil =>
    exact ⟨0, _, R, [], MMU_clone_userspace.of_nil hready hr, (h.interrupts _).none_made hmasked⟩
  | cons c P1 =>
    have hc52 := h.pool.small c List.mem_cons_self
    by_cases hc : c = 0
    · subst hc
      obtain ⟨s', hrun, hpool, hoff, hregs⟩ := MMU_clone_userspace.of_zero hready hr
      refine ⟨0, s', 0 ::ₘ R, P1, hrun, Sound.none_made ?_ hoff⟩
      refine h.off_pool hpool ?_ (fun f hf => Multiset.mem_cons_of_mem hf)
        (fun f hf => List.mem_cons_of_mem _ hf) hoff hregs.kernel_cr3 hregs.cr3
      rw [← Multiset.cons_coe, Multiset.cons_add, Multiset.add_cons]
    rcases MMU_clone_userspace.of_cons hready hr hc h.current_notMem_pool with
      ⟨s1, A, P', hrun, hclone⟩ | ⟨s1, P', hrun, hpool, hperm, hoff, hregs⟩
    · refine ⟨_, _, R, P', hrun, ?_, fun f hf => ?_, fun _ => ⟨rfl, ?_⟩⟩
      · rw [if_neg fun he => hc ((frameAddr_eq_zero hc52).mp he)]
        have hregs := restore_interrupts_CLI s s1 hclone.regs
        refine h.add hclone.split (hclone.pool.restore_interrupts _) ?_ ?_ ?_ ?_ hregs.kernel_cr3
          hregs.cr3 hc
        all_goals rw [restore_interrupts_mem]
        · exact hclone.total
        · exact fun i hi => (hclone.copied i hi).plain (hready.space.plain i hi)
        · exact hclone.kernel
        · exact hclone.off
      · rw [restore_interrupts_mem]
        refine hclone.off f fun hm => hf ?_
        rw [hclone.split]
        exact List.mem_append_left _ hm
      · rw [restore_interrupts_mem, frameOf_frameAddr hc52, hclone.total, hclone.split]
        rfl
    · refine ⟨0, s1, R, P', hrun, Sound.none_made ?_ hoff⟩
      refine h.off_pool hpool ?_ (fun _ hf => hf) (fun f hf => hperm.mem_iff.mp hf) hoff
        hregs.kernel_cr3 hregs.cr3
      rw [Multiset.coe_eq_coe.mpr hperm]

theorem MMU_destroy_userspace.sound (h : Sound s live R P) (hcr3 : cr3 ∈ live)
    (hcur : frameOf cr3 ≠ frameOf s.cr3) :
    ∃ s' P', MMU_destroy_userspace cr3 s = some s' ∧ Sound s' (live.erase cr3) R P' ∧
      (↑P' : Multiset Nat) = userFrames s.mem (frameOf cr3) + ↑P ∧
      (∀ f, f ∉ userFrames s.mem (frameOf cr3) → s'.mem f = s.mem f) ∧ SameRegs s s' := by
  have hT := userTree_mem s.ptable_p4 hcr3
  have hK := kernelTree_mem s.ptable_p4 live
  have hkT : s.ptable_p4 ∉ userFrames s.mem (frameOf cr3) :=
    trees_apart h.grove_nodup hK hT (kernelTree_ne_userTree _ _).symm (Sound.kernel_mem s)
  have hmay : MayDestroy s cr3 := by
    refine ⟨h.nonzero cr3 hcr3, ?_, hcur⟩
    intro he
    exact hkT (he ▸ Multiset.mem_cons_self _ _)
  obtain ⟨s', P', hrun, hpool, htotal, hoff, hregs⟩ :=
    MMU_destroy_userspace.spec h.pool (h.cloneReady hcr3).space hmay
  have hleft := h.forget hcr3 hcur
  refine ⟨s', P', hrun, hleft.off_trees hpool ?_ ?_ ?_ ?_ hregs.kernel_cr3 hregs.cr3, htotal, hoff,
    hregs⟩
  · rw [htotal, add_assoc]
  · intro f hf
    have hf' : f ∈ (↑P' : Multiset Nat) := hf
    rw [htotal, Multiset.mem_add, userFrames, Multiset.mem_cons] at hf'
    rcases hf' with (rfl | hf') | hf'
    · exact h.fits cr3 hcr3
    · obtain ⟨i, _, hsub⟩ := mem_forest.mp hf'
      exact lt_of_mem_sub hsub
    · exact h.small f hf'
  · intro T hT f hf
    exact hoff f fun hm => hleft.rest_notMem_tree hT (Multiset.mem_add.mpr (Or.inr hm)) hf
  · intro c _ hc
    obtain ⟨d, hdR, hd, _⟩ := h.identity
    obtain rfl := Option.some.inj (hd.symm.trans hc)
    exact ⟨hdR, hoff d (h.rest_notMem_tree hT hdR)⟩

end

/-! ## After boot -/

section

variable {s : Machine} {P : List Nat} {p4 p3 : Nat}

theorem present_identity_entry (i : Fin 512) : present (identity_entry i) = true := by
  unfold identity_entry present
  rw [getFlag_setFlag_of_ne _ _ _ _ (by omega)]
  rw [set_pfn, getFlag_setBits _ _ _ _ (by omega)]
  rw [getFlag_setFlag_of_ne _ _ _ _ (by omega), getFlag_setFlag_of_ne _ _ _ _ (by omega),
    getFlag_setFlag_of_ne _ _ _ _ (by omega), getFlag_setFlag_self _ _ _ (by omega)]

theorem big_page_identity_entry (i : Fin 512) : big_page (identity_entry i) = true := by
  unfold identity_entry big_page
  rw [getFlag_setFlag_of_ne _ _ _ _ (by omega)]
  rw [set_pfn, getFlag_setBits _ _ _ _ (by omega), getFlag_setFlag_self _ _ _ (by omega)]

theorem MMU_init_p4 (p4 p3 : Nat) (s : Machine) (h4 : p4 < 2 ^ 52) :
    (MMU_init p4 p3 s).ptable_p4 = p4 := frameOf_frameAddr h4

theorem MMU_init_row (s : Machine) (hne : p4 ≠ p3) (i : Fin 512) :
    (MMU_init p4 p3 s).mem p4 i = if i = 0 then link_entry false 0 (frameAddr p3) false else 0 := by
  simp [MMU_init, make_identity_map, pfn_to_phys, hne]

/-- The machine after `MMU_init`: no address space yet, and nothing in the kernel's P4 but the
identity mapping. -/
theorem MMU_init.sound (hpool : Pool s P) (hsmall : ∀ f ∈ P, f < 2 ^ 40) (hnd : P.Nodup)
    (h4 : p4 ∉ P) (h3 : p3 ∉ P) (hne : p4 ≠ p3) (hlt : p4 < 2 ^ 40 ∧ p3 < 2 ^ 40) :
    Sound (MMU_init p4 p3 s) [] {p3} P := by
  have hp4 := MMU_init_p4 p4 p3 s (by omega)
  have hrow : ∀ i ∈ (kernelTree p4).slots, (MMU_init p4 p3 s).mem p4 i = 0#64 := by
    intro i hi
    rw [MMU_init_row s hne, if_neg (Finset.ne_of_mem_erase hi)]
    rfl
  have htree : treeFrames (MMU_init p4 p3 s).mem (kernelTree p4) = {p4} := by
    unfold treeFrames
    rw [forest_eq_zero]
    · rfl
    · intro i hi
      have hi0 : (MMU_init p4 p3 s).mem (kernelTree p4).root i = 0#64 := hrow i hi
      rw [hi0]
      exact childOf_zero
  refine ⟨?_, hsmall, ?_, ?_, nofun, nofun, nofun, Or.inl rfl, nofun, p3, ?_, ?_, ?_⟩
  · refine hpool.congr rfl rfl fun f hf => ?_
    have hf4 : f ≠ p4 := fun he => h4 (he ▸ hf)
    have hf3 : f ≠ p3 := fun he => h3 (he ▸ hf)
    simp [MMU_init, make_identity_map, hf4, hf3]
  · rw [hp4, trees, List.map_nil, grove_cons, htree, grove, List.map_nil, List.sum_nil, add_zero]
    refine Multiset.nodup_add.mpr ⟨?_, hnd, ?_⟩
    · simpa using hne.symm
    · rw [Multiset.disjoint_left]
      intro f hf
      rcases Multiset.mem_add.mp hf with hf | hf
      · rw [Multiset.mem_singleton.mp hf]
        exact h3
      · rw [Multiset.mem_singleton.mp hf]
        exact h4
  · rw [hp4, trees, List.map_nil]
    intro T hT i hi hp
    rw [List.mem_singleton.mp hT] at hi hp
    have hi0 : (MMU_init p4 p3 s).mem (kernelTree p4).root i = 0#64 := hrow i hi
    rw [hi0] at hp
    simp at hp
  · exact Multiset.mem_singleton_self p3
  · have hf : frameOf (frameAddr p3) = p3 := frameOf_frameAddr (by omega)
    rw [hp4, MMU_init_row s hne, if_pos rfl, childOf_link_entry (by rw [hf]; exact hlt.2), hf]
  · have hp3 : (MMU_init p4 p3 s).mem p3 = identity_entry := by
      simp [MMU_init, make_identity_map]
    rw [hp3]
    exact fun j => ⟨present_identity_entry j, big_page_identity_entry j⟩

end

/-! ## Runs -/

/-- The machine and the CR3 values of the live address spaces. -/
structure Spaces where
  machine : Machine
  live : List Word

/-- What is done to the address spaces. A page fault happens under the current P4. -/
inductive SpaceEvent where
  | create
  | alloc_at (cr3 vaddr size : Word)
  | copy_to_user (cr3 dst : Word) (src : Option (Nat → BitVec 8)) (len : Word)
  | zero_user (cr3 dst len : Word)
  | fault (va : Word)
  | switch (cr3 : Word)
  | clone (cr3 : Word)
  | destroy (cr3 : Word)

/-- The live address spaces after one more was asked for: a result of 0 is a failure. -/
def with_space (cr3 : Word) (s : Machine) (live : List Word) : Spaces :=
  ⟨s, if cr3 = 0 then live else cr3 :: live⟩

/-- One event. The calls are on live address spaces and on ranges of user space, and only an
address space that is not current is torn down. -/
def space_step : SpaceEvent → Spaces → Option Spaces
  | .create, w =>
    let (cr3, s) := MMU_create_user_p4 w.machine
    some (with_space cr3 s w.live)
  | .alloc_at cr3 vaddr size, w =>
    if cr3 ∈ w.live ∧ UserRange vaddr size then
      some { w with machine := (MMU_alloc_at_as cr3 vaddr size w.machine).2 }
    else none
  | .copy_to_user cr3 dst src len, w =>
    if cr3 ∈ w.live ∧ UserRange dst len then
      some { w with machine := (MMU_copy_to_user_as cr3 dst src len w.machine).2 }
    else none
  | .zero_user cr3 dst len, w =>
    if cr3 ∈ w.live ∧ UserRange dst len then
      some { w with machine := (MMU_zero_user_as cr3 dst len w.machine).2 }
    else none
  | .fault va, w =>
    (ISR14_PAGE_FAULT_HANDLER va w.machine).map fun s => { w with machine := s }
  | .switch cr3, w =>
    if cr3 = MMU_get_kernel_p4 w.machine ∨ cr3 ∈ w.live then
      some { w with machine := MMU_switch_p4 cr3 w.machine }
    else none
  | .clone cr3, w =>
    if cr3 ∈ w.live then
      (MMU_clone_userspace cr3 w.machine).map fun (child, s) => with_space child s w.live
    else none
  | .destroy cr3, w =>
    if cr3 ∈ w.live ∧ frameOf cr3 ≠ frameOf w.machine.cr3 then
      (MMU_destroy_userspace cr3 w.machine).map fun s => ⟨s, w.live.erase cr3⟩
    else none

theorem Sound.switch {s : Machine} {live : List Word} {R : Multiset Nat} {P : List Nat} {cr3 : Word}
    (h : Sound s live R P) (hcr3 : cr3 = s.kernel_cr3 ∨ cr3 ∈ live) :
    Sound (MMU_switch_p4 cr3 s) live R P := by
  refine ⟨h.pool.congr rfl rfl fun _ _ => rfl, h.small, h.nodup, h.plain, h.nonzero, h.aligned,
    h.fits, ?_, h.shared, h.identity⟩
  rcases hcr3 with rfl | hcr3
  · exact Or.inl rfl
  · exact Or.inr ⟨cr3, hcr3, rfl⟩

/-- The address space whose user half an event may change. -/
def SpaceEvent.target : SpaceEvent → Option Word
  | .alloc_at cr3 _ _ => some cr3
  | .copy_to_user cr3 _ _ _ => some cr3
  | .zero_user cr3 _ _ => some cr3
  | _ => none

theorem space_step.edits {e : SpaceEvent} {w w' : Spaces} {R : Multiset Nat} {P : List Nat}
    {cr3 : Word} (h : Sound w.machine w.live R P) (hstep : space_step e w = some w')
    (he : e.target = some cr3) :
    cr3 ∈ w.live ∧ w'.live = w.live ∧
      ∃ P', Edit (userTree (frameOf cr3)) w.machine P w'.machine P' := by
  cases e <;> simp only [SpaceEvent.target, Option.some.injEq, reduceCtorEq] at he
  all_goals
    subst he
    simp only [space_step, Option.ite_none_right_eq_some, Option.some.injEq] at hstep
    obtain ⟨⟨hcr3, hrange⟩, rfl⟩ := hstep
    refine ⟨hcr3, rfl, ?_⟩
  · obtain ⟨r, s', P', hrun, hedit⟩ := MMU_alloc_at_as.spec (h.owns (userTree_mem _ hcr3)) rfl
      (hrange.reservesIn.mono fun _ hi => Or.inl hi)
    exact ⟨P', by rwa [hrun]⟩
  · obtain ⟨r, s', P', hrun, hedit⟩ := MMU_copy_to_user_as.spec (h.owns (userTree_mem _ hcr3)) rfl
      (hrange.writesIn.mono fun _ hi => Or.inl hi) _
    exact ⟨P', by rwa [hrun]⟩
  · obtain ⟨r, s', P', hrun, hedit⟩ := MMU_zero_user_as.spec (h.owns (userTree_mem _ hcr3)) rfl
      (hrange.writesIn.mono fun _ hi => Or.inl hi)
    exact ⟨P', by rwa [hrun]⟩

theorem space_step_keeps_sound (e : SpaceEvent) (w w' : Spaces)
    (h : ∃ R P, Sound w.machine w.live R P) (hstep : space_step e w = some w') :
    ∃ R P, Sound w'.machine w'.live R P := by
  obtain ⟨R, P, h⟩ := h
  cases e with
  | create =>
    obtain ⟨cr3, s', R', P', hrun, hs⟩ := MMU_create_user_p4.sound h
    simp only [space_step, hrun, Option.some.injEq] at hstep
    subst hstep
    exact ⟨R', P', hs.sound⟩
  | alloc_at | copy_to_user | zero_user =>
    obtain ⟨hcr3, hlive, P', hedit⟩ := space_step.edits h hstep rfl
    rw [hlive]
    exact ⟨R, P', h.edit_user hcr3 hedit⟩
  | fault va =>
    simp only [space_step, Option.map_eq_some_iff] at hstep
    obtain ⟨s', hrun, rfl⟩ := hstep
    obtain ⟨P', -, -, hs⟩ := ISR14_PAGE_FAULT_HANDLER.edits h hrun
    exact ⟨R, P', hs⟩
  | switch cr3 =>
    simp only [space_step] at hstep
    split at hstep
    · rename_i hg
      cases hstep
      exact ⟨R, P, h.switch hg⟩
    · cases hstep
  | clone cr3 =>
    simp only [space_step] at hstep
    split at hstep
    · rename_i hg
      obtain ⟨child, s', R', P', hrun, hs⟩ := MMU_clone_userspace.sound h hg
      simp only [hrun, Option.map_some, Option.some.injEq] at hstep
      subst hstep
      exact ⟨R', P', hs.sound⟩
    · cases hstep
  | destroy cr3 =>
    simp only [space_step] at hstep
    split at hstep
    · rename_i hg
      obtain ⟨s', P', hrun, hs, -⟩ := MMU_destroy_userspace.sound h hg.1 hg.2
      simp only [hrun, Option.map_some, Option.some.injEq] at hstep
      subst hstep
      exact ⟨R, P', hs⟩
    · cases hstep

/-! ## The roles of a frame -/

/-- What a frame can be: free, a table of the user half of an address space, or a user page of
one. A table or page is named by the path of indices that leads to it, so the empty path is
the P4. -/
inductive Role where
  | free
  | table (cr3 : Word) (path : List (Fin 512))
  | page (cr3 : Word) (path : List (Fin 512))

/-- The path starts in user space and leads to the frame. -/
def Leads (w : Spaces) (cr3 : Word) (path : List (Fin 512)) (f : Nat) : Prop :=
  cr3 ∈ w.live ∧ (∀ i ∈ path.head?, i ∈ userSlots) ∧
    follow childOf w.machine.mem (frameOf cr3) path = some f

/-- The frame has the role, when `P` are the free frames. -/
def HasRole (w : Spaces) (P : List Nat) (f : Nat) : Role → Prop
  | .free => f ∈ P
  | .table cr3 path => path.length ≤ 3 ∧ Leads w cr3 path f
  | .page cr3 path => path.length = 4 ∧ Leads w cr3 path f

section

variable {w : Spaces} {R : Multiset Nat} {P : List Nat} {cr3 cr3' : Word} {f : Nat}
  {path path' : List (Fin 512)}

theorem mem_tree_of_leads (h : Leads w cr3 path f) (hlen : path.length ≤ 4) :
    f ∈ treeFrames w.machine.mem (userTree (frameOf cr3)) := by
  obtain ⟨_, hslots, hfollow⟩ := h
  cases path with
  | nil =>
    cases hfollow
    exact Multiset.mem_cons_self _ _
  | cons i path =>
    exact Multiset.mem_cons_of_mem
      (mem_forest_of_follow hfollow (hslots i rfl) (Nat.le_of_succ_le_succ hlen))

theorem userTree_injective (h : Sound w.machine w.live R P) (h1 : cr3 ∈ w.live) (h2 : cr3' ∈ w.live)
    (he : userTree (frameOf cr3) = userTree (frameOf cr3')) : cr3 = cr3' := by
  have hroot : frameOf cr3 = frameOf cr3' := congrArg Tree.root he
  rw [← frameAddr_frameOf (h.aligned cr3 h1), hroot, frameAddr_frameOf (h.aligned cr3' h2)]

/-- Two paths to the same frame are the same path of the same address space. -/
theorem leads_unique (h : Sound w.machine w.live R P) (h1 : Leads w cr3 path f)
    (h2 : Leads w cr3' path' f) (hlen : path.length ≤ 4) (hlen' : path'.length ≤ 4) :
    cr3 = cr3' ∧ path = path' := by
  have hm1 := mem_tree_of_leads h1 hlen
  have hm2 := mem_tree_of_leads h2 hlen'
  have hcr3 : cr3 = cr3' := by
    by_contra hne
    refine trees_apart h.grove_nodup (userTree_mem _ h1.1) (userTree_mem _ h2.1) ?_ hm1 hm2
    exact fun he => hne (userTree_injective h h2.1 h1.1 he).symm
  subst hcr3
  refine ⟨rfl, ?_⟩
  exact follow_unique (h.owns (userTree_mem _ h1.1)).tree_nodup h1.2.2 h2.2.2 h1.2.1 h2.2.1 hlen
    hlen'

theorem role_unique (h : Sound w.machine w.live R P) {r r' : Role} (h1 : HasRole w P f r)
    (h2 : HasRole w P f r') : r = r' := by
  have hfree : ∀ {cr3 path}, Leads w cr3 path f → path.length ≤ 4 → f ∉ P :=
    fun hl hlen => h.tree_notMem_pool (userTree_mem _ hl.1) (mem_tree_of_leads hl hlen)
  cases r with
  | free =>
    cases r' with
    | free => rfl
    | table cr3' path' => exact absurd h1 (hfree h2.2 (by have := h2.1; omega))
    | page cr3' path' => exact absurd h1 (hfree h2.2 (by have := h2.1; omega))
  | table cr3 path =>
    have hlen : path.length ≤ 4 := by have := h1.1; omega
    cases r' with
    | free => exact absurd h2 (hfree h1.2 hlen)
    | table cr3' path' =>
      obtain ⟨rfl, rfl⟩ := leads_unique h h1.2 h2.2 hlen (by have := h2.1; omega)
      rfl
    | page cr3' path' =>
      obtain ⟨rfl, rfl⟩ := leads_unique h h1.2 h2.2 hlen (by have := h2.1; omega)
      have h3 := h1.1
      have h4 := h2.1
      omega
  | page cr3 path =>
    have hlen : path.length ≤ 4 := by have := h1.1; omega
    cases r' with
    | free => exact absurd h2 (hfree h1.2 hlen)
    | table cr3' path' =>
      obtain ⟨rfl, rfl⟩ := leads_unique h h1.2 h2.2 hlen (by have := h2.1; omega)
      have h3 := h1.1
      have h4 := h2.1
      omega
    | page cr3' path' =>
      obtain ⟨rfl, rfl⟩ := leads_unique h h1.2 h2.2 hlen (by have := h2.1; omega)
      rfl

/-- The contents of a user page of one address space are not read through another. -/
theorem write_is_private (h : Sound w.machine w.live R P) (h1 : cr3 ∈ w.live) (h2 : cr3' ∈ w.live)
    (hne : cr3 ≠ cr3') {va va' : Word} (hva : PML4_INDEX va ∈ userSlots)
    (hva' : PML4_INDEX va' ∈ userSlots) (hpage : page 4 w.machine.mem (frameOf cr3) va = some f)
    (x : Frame) :
    SameAccess w.machine.mem (Function.update w.machine.mem f x) (frameOf cr3') va' := by
  apply sameAccess_of_reads
  intro g hg
  have hmem : f ∈ treeFrames w.machine.mem (userTree (frameOf cr3)) :=
    reads_subset_userFrames hva (page_mem_reads hpage)
  have hmem' : g ∈ treeFrames w.machine.mem (userTree (frameOf cr3')) :=
    reads_subset_userFrames hva' hg
  refine Function.update_of_ne ?_ _ _
  rintro rfl
  refine trees_apart h.grove_nodup (userTree_mem _ h1) (userTree_mem _ h2) ?_ hmem hmem'
  exact fun he => hne (userTree_injective h h2 h1 he).symm

end

/-- From a machine with no address space yet, whatever is done to the address spaces, each frame
has one role at most. A write to a user page of one address space therefore changes nothing
that another one reads at a user address. -/
theorem each_frame_has_one_role (s : Machine) (R : Multiset Nat) (P0 : List Nat)
    (es : List SpaceEvent) (w : Spaces) (h : Sound s [] R P0)
    (hrun : Runs.run space_step es ⟨s, []⟩ = some w) :
    ∃ P, Pool w.machine P ∧ P.Nodup ∧
      (∀ f r r', HasRole w P f r → HasRole w P f r' → r = r') ∧
      ∀ cr3 ∈ w.live, ∀ cr3' ∈ w.live, cr3 ≠ cr3' →
        ∀ va va', PML4_INDEX va ∈ userSlots → PML4_INDEX va' ∈ userSlots →
          ∀ f, page 4 w.machine.mem (frameOf cr3) va = some f → ∀ x,
            SameAccess w.machine.mem (Function.update w.machine.mem f x) (frameOf cr3') va' := by
  obtain ⟨R', P, hs⟩ := Runs.run_keeps
    (I := fun w : Spaces => ∃ R P, Sound w.machine w.live R P)
    (fun e w w' h hstep => space_step_keeps_sound e w w' h hstep) ⟨R, P0, h⟩ hrun
  refine ⟨P, hs.pool, hs.pool_nodup, fun f r r' h1 h2 => role_unique hs h1 h2, ?_⟩
  intro cr3 h1 cr3' h2 hne va va' hva hva' f hpage x
  exact write_is_private hs h1 h2 hne hva hva' hpage x

/-- A machine before paging is set up: the 16 frames from 32 on are free. -/
def unpaged : Machine where
  mem := fun _ _ => 0
  usable_regions := [⟨0x20000, 0x10000, true⟩]
  free_frames := INVALID_FRAME_ADDR
  kernel_cr3 := 0
  kernel_va := 0
  cr3 := 0
  interrupts := true

def unpagedPool : List Nat := [32, 33, 34, 35, 36, 37, 38, 39, 40, 41, 42, 43, 44, 45, 46, 47]

theorem unpaged_pool : Pool unpaged unpagedPool := by
  refine ⟨by decide, ?_, [], chain_nil_iff.mpr rfl, by decide⟩
  intro r hr
  rw [unpaged, List.mem_singleton] at hr
  subst hr
  exact ⟨fun _ => by decide, fun _ => by decide, fun _ => by decide⟩

/-- A machine after boot, with the kernel's P4 in frame 1 and the identity mapping in frame 2. -/
def booted : Machine := MMU_init 1 2 unpaged

theorem booted_sound : Sound booted [] {2} unpagedPool :=
  MMU_init.sound unpaged_pool (by decide) (by decide) (by decide) (by decide) (by decide) (by decide)

/-- An address space is made, gets a page reserved, and is cloned. -/
theorem each_frame_has_one_role_booted :
    ∃ w, Runs.run space_step [.create, .alloc_at 0x20000 VA_USER_BASE 0x1000, .clone 0x20000]
        ⟨booted, []⟩ = some w ∧
      w.live = [0x24000, 0x20000] ∧
      ∃ P, Pool w.machine P ∧ ∀ f r r', HasRole w P f r → HasRole w P f r' → r = r' := by
  have hlive : (Runs.run space_step [.create, .alloc_at 0x20000 VA_USER_BASE 0x1000,
      .clone 0x20000] ⟨booted, []⟩).map Spaces.live = some [0x24000, 0x20000] := by
    decide +kernel
  obtain ⟨w, hrun, hw⟩ := Option.map_eq_some_iff.mp hlive
  obtain ⟨P, hpool, _, hrole, _⟩ :=
    each_frame_has_one_role booted {2} unpagedPool _ w booted_sound hrun
  exact ⟨w, hrun, hw, P, hpool, hrole⟩

end JamsOs
