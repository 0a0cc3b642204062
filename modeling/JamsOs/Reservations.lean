-- The laws of reserving pages. A range that is reserved in an address space covers the pages
-- of the range it was asked for, as long as the `int` holds their number. A range of the
-- kernel heap that cannot be reserved leaves its first pages reserved.
import JamsOs.PageContents

namespace JamsOs

open Words RadixTree

/-! ## All pages of an address space -/

/-- The P4 without the entry of the identity mapping: the pages of the kernel and those of the
process. -/
def spaceTree (p4 : Nat) : Tree := ⟨p4, Finset.univ.erase 0⟩

/-- The address space owns its tables and pages, and its first P4 entry leads to the huge pages
of the identity mapping. -/
structure WholeSpace (s : Machine) (P : List Nat) (cr3 : Word) : Prop where
  owns : Owns (spaceTree (frameOf cr3)) s P
  identity : ∃ pdpt, Blocked (spaceTree (frameOf cr3)) s P 0 pdpt

section

variable {s s' : Machine} {P P' : List Nat} {cr3 : Word} {live : List Word} {R : Multiset Nat}

theorem mem_spaceTree_slots {p4 : Nat} {i : Fin 512} : i ∈ (spaceTree p4).slots ↔ i ≠ 0 := by
  simp [spaceTree]

theorem WholeSpace.reach (h : WholeSpace s P cr3) (i : Fin 512) :
    Reach (spaceTree (frameOf cr3)) s P i := by
  by_cases hi : i = 0
  · rw [hi]
    exact Or.inr h.identity
  · exact Or.inl (mem_spaceTree_slots.mpr hi)

/-- A live address space has its own user half and shares the rest with the kernel. -/
theorem Sound.space_frames (h : Sound s live R P) (hcr3 : cr3 ∈ live) :
    treeFrames s.mem (spaceTree (frameOf cr3)) ≤
      grove s.mem (trees s.ptable_p4 live) := by
  have hshared : forest childOf ((Finset.univ.erase 0).filter (· ∉ userSlots)) 3 s.mem (frameOf cr3) ≤
      treeFrames s.mem (kernelTree s.ptable_p4) := by
    rw [forest_of_rows fun i hi => h.shared cr3 hcr3 i (Finset.mem_filter.mp hi).2]
    exact (forest_mono (Finset.filter_subset _ _)).trans (Multiset.le_cons_self _ _)
  have hown : frameOf cr3 ::ₘ
      forest childOf ((Finset.univ.erase 0).filter (· ∈ userSlots)) 3 s.mem (frameOf cr3) ≤
      treeFrames s.mem (userTree (frameOf cr3)) := by
    refine Multiset.cons_le_cons _ (forest_mono ?_)
    exact fun i hi => (Finset.mem_filter.mp hi).2
  have hrest : treeFrames s.mem (userTree (frameOf cr3)) ≤
      grove s.mem (live.map fun cr3 => userTree (frameOf cr3)) := by
    obtain ⟨rest, hperm⟩ := exists_rest (List.mem_map_of_mem (f := fun cr3 => userTree (frameOf cr3)) hcr3)
    rw [grove_perm hperm, grove_cons]
    exact Multiset.le_add_right _ _
  unfold trees
  rw [grove_cons, add_comm]
  unfold treeFrames spaceTree
  rw [← forest_filter (· ∈ userSlots), ← Multiset.cons_add]
  exact add_le_add (hown.trans hrest) hshared

theorem Sound.wholeSpace (h : Sound s live R P) (hcr3 : cr3 ∈ live) : WholeSpace s P cr3 := by
  have hle := h.space_frames hcr3
  have hrow : ∀ i, i ∉ userSlots → s.mem (frameOf cr3) i = s.mem s.ptable_p4 i := h.shared cr3 hcr3
  have h0 : (0 : Fin 512) ∉ userSlots := by
    rw [mem_userSlots]
    decide
  refine ⟨⟨h.pool, h.small, ?_, ?_⟩, ?_⟩
  · have hnd := h.nodup
    rw [add_assoc] at hnd
    refine Multiset.nodup_of_le (add_le_add hle le_rfl) (Multiset.nodup_add.mp hnd).2.1
  · intro i hi
    by_cases hu : i ∈ userSlots
    · exact h.plain _ (userTree_mem _ hcr3) i hu
    · have hr : s.mem (spaceTree (frameOf cr3)).root i = s.mem s.ptable_p4 i := hrow i hu
      rw [hr]
      exact h.plain _ (kernelTree_mem _ _) i hi
  · obtain ⟨c, hc, hchild, hbig⟩ := h.identity
    have hrow0 : s.mem (spaceTree (frameOf cr3)).root 0 = s.mem s.ptable_p4 0 := hrow 0 h0
    refine ⟨c, ?_, ?_, ?_, h.rest_notMem_pool hc, hbig⟩
    · rw [mem_spaceTree_slots]
      exact fun hne => hne rfl
    · rw [hrow0]
      exact hchild
    · intro hmem
      obtain ⟨T, hT, hf⟩ := mem_grove.mp (Multiset.mem_of_le hle hmem)
      exact h.rest_notMem_tree hT hc hf

theorem Sound.wholeSpace_kernel (h : Sound s live R P) : WholeSpace s P s.kernel_cr3 := by
  obtain ⟨c, hc, hchild, hbig⟩ := h.identity
  refine ⟨h.owns (kernelTree_mem _ _), c, ?_, hchild, ?_, h.rest_notMem_pool hc, hbig⟩
  · rw [mem_spaceTree_slots]
    exact fun hne => hne rfl
  · exact h.rest_notMem_tree (kernelTree_mem s.ptable_p4 live) hc

end

/-! ## Ranges of pages -/

section

variable {T : Tree} {s s' : Machine} {P P' : List Nat} {cr3 vaddr size va base : Word}
  {i j k n : Nat}

theorem range_page_div (base : Word) (j : Nat) :
    (range_page base j).toNat / 4096 = (base.toNat / 4096 + j) % 2 ^ 52 := by
  have hb := base.isLt
  unfold range_page
  rw [BitVec.toNat_add, BitVec.toNat_mul, PAGE_SIZE_toNat, BitVec.toNat_ofNat]
  omega

/-- Pages of a range are different pages, as long as the range does not go around. -/
theorem range_page_ne (h1 : j < k) (h2 : k < j + 2 ^ 36) :
    page_path (range_page base k) ≠ page_path (range_page base j) := by
  rw [ne_eq, page_path_eq_iff, range_page_div, range_page_div]
  omega

theorem reserve_pages_at_eq (cr3 vaddr size : Word) (s : Machine) :
    reserve_pages_at cr3 vaddr size s =
      match reserve_loop cr3 (vaddr &&& PAGE_MASK) 0 (num_pages vaddr size) s with
      | (true, s) => (vaddr &&& PAGE_MASK, s)
      | (false, s) => (0, s) := rfl

/-- The number of turns of the loop: the pages from the first to the last, as an `int`. -/
theorem num_pages_eq (vaddr size : Word) :
    num_pages vaddr size =
      let n := ((vaddr.toNat + size.toNat + 4095) / 4096 - vaddr.toNat / 4096) % 2 ^ 32
      if n < 2 ^ 31 then n else 0 := by
  have hv := vaddr.isLt
  have hs := size.isLt
  have hone : (1 : Word).toNat = 1 := rfl
  have hlast : (vaddr + size + PAGE_SIZE - 1).toNat =
      (vaddr.toNat + size.toNat + 4095) % 2 ^ 64 := by
    rw [BitVec.toNat_sub, BitVec.toNat_add, BitVec.toNat_add, PAGE_SIZE_toNat, hone]
    omega
  have hcount : ((((vaddr + size + PAGE_SIZE - 1) &&& PAGE_MASK) - (vaddr &&& PAGE_MASK)) /
      PAGE_SIZE).toNat % 2 ^ 32 =
      ((vaddr.toNat + size.toNat + 4095) / 4096 - vaddr.toNat / 4096) % 2 ^ 32 := by
    rw [BitVec.toNat_udiv, PAGE_SIZE_toNat, BitVec.toNat_sub, masked_toNat, masked_toNat, hlast]
    omega
  unfold num_pages
  rw [BitVec.toInt_eq_toNat_cond, BitVec.toNat_setWidth, hcount]
  dsimp only
  split <;> split <;> omega

/-- The page of `va` has a byte of the range. -/
def Touches (vaddr size va : Word) : Prop :=
  ∃ x : Word, vaddr.toNat ≤ x.toNat ∧ x.toNat < vaddr.toNat + size.toNat ∧
    page_path va = page_path x

theorem masked_div (vaddr : Word) : (vaddr &&& PAGE_MASK).toNat / 4096 = vaddr.toNat / 4096 := by
  rw [masked_toNat]
  omega

theorem num_pages_lt (vaddr size : Word) : num_pages vaddr size < 2 ^ 31 := by
  rw [num_pages_eq]
  dsimp only
  split <;> omega

/-- The call reserves the pages of the range up to the first one that cannot be reserved. Free pages
can be reserved when there are three frames for each of them. -/
theorem MMU_alloc_at_as.views (h : Owns T s P) (hroot : frameOf cr3 = T.root)
    (hreach : ∀ i, Reach T s P i) (vaddr size : Word) :
    ∃ r s' P' done, MMU_alloc_at_as cr3 vaddr size s = (bif r then vaddr &&& PAGE_MASK else 0, s') ∧
      Edit T s P s' P' ∧ done ≤ num_pages vaddr size ∧
      (r = true ↔ done = num_pages vaddr size) ∧
      ReservesPages T (vaddr &&& PAGE_MASK) 0 done s.mem s'.mem ∧
      ((∀ j < num_pages vaddr size, PML4_INDEX (range_page (vaddr &&& PAGE_MASK) j) ∈ T.slots ∧
          reserved (page_word s.mem T.root (range_page (vaddr &&& PAGE_MASK) j)) = false) →
        3 * num_pages vaddr size ≤ P.length →
        r = true ∧ P.length ≤ P'.length + 3 * num_pages vaddr size) := by
  obtain ⟨r, s', P', done, hrun, hedit, hle, hr, hres, _⟩ := reserve_loop.views
    (vaddr &&& PAGE_MASK) hroot (num_pages vaddr size) 0 (fun _ _ _ => (hreach _).CLI) h.CLI
  have hok : (∀ j < num_pages vaddr size, PML4_INDEX (range_page (vaddr &&& PAGE_MASK) j) ∈ T.slots ∧
      reserved (page_word s.mem T.root (range_page (vaddr &&& PAGE_MASK) j)) = false) →
      3 * num_pages vaddr size ≤ P.length →
      r = true ∧ P.length ≤ P'.length + 3 * num_pages vaddr size := by
    intro hfree hframes
    have hn := num_pages_lt vaddr size
    obtain ⟨hok, hleft⟩ := reserve_loop.succeeds (s := CLI s) (vaddr &&& PAGE_MASK) hroot
      (num_pages vaddr size) 0 (fun j _ hj => (hfree j (by omega)).1)
      (fun j k _ hjk hk => range_page_ne hjk (by omega)) (fun j _ hj => (hfree j (by omega)).2)
      hframes h.CLI
    rw [hrun] at hok hleft
    exact ⟨hok, hleft P' hedit.owns.pool⟩
  have hmem := restore_interrupts_mem s.interrupts s'
  unfold MMU_alloc_at_as
  simp only [reserve_pages_at_eq, hrun]
  cases r with
  | true => exact ⟨true, _, P', done, rfl, hedit.masked, hle, hr, by rw [hmem]; exact hres, hok⟩
  | false => exact ⟨false, _, P', done, rfl, hedit.masked, hle, hr, by rw [hmem]; exact hres, hok⟩

/-- What becomes of the reservation of a page. -/
theorem ReservesPages.reserved_iff (h : ReservesPages T base 0 n s.mem s'.mem)
    (hedit : Edit T s P s' P') (hreach : ∀ i, Reach T s P i) (va : Word) :
    reserved (page_word s'.mem T.root va) = true ↔
      reserved (page_word s.mem T.root va) = true ∨
        ∃ j < n, page_path va = page_path (range_page base j) := by
  by_cases hin : ∃ j < n, page_path va = page_path (range_page base j)
  · obtain ⟨j, hj, hpath⟩ := hin
    have hd := h.demand j (Nat.zero_le j) (by omega)
    have hword : reserved (page_word s'.mem T.root va) = true := by
      unfold page_word at hd ⊢
      rw [lookup_of_path hpath, reserved, hd]
      rfl
    exact ⟨fun _ => Or.inr ⟨j, hj, hpath⟩, fun _ => hword⟩
  · have hview : page_view s'.mem T.root va = page_view s.mem T.root va := by
      rcases hreach (PML4_INDEX va) with hva | ⟨pdpt, hb⟩
      · exact h.other va hva fun j _ hj hpath => hin ⟨j, by omega, hpath⟩
      · exact hedit.view_of_blocked hb
    have hword : page_word s'.mem T.root va = page_word s.mem T.root va := congrArg Prod.fst hview
    rw [hword]
    exact ⟨Or.inl, fun hor => hor.resolve_right hin⟩

/-- The page is reserved in the address space. -/
def Reserved (s : Machine) (cr3 va : Word) : Prop :=
  reserved (page_word s.mem (frameOf cr3) va) = true

instance (s : Machine) (cr3 va : Word) : Decidable (Reserved s cr3 va) :=
  inferInstanceAs (Decidable (_ = _))

/-- A call that gives a base has reserved all pages that its loop went over. -/
theorem MMU_alloc_at_as.reserves (h : WholeSpace s P cr3) (vaddr size : Word)
    (hbase : (MMU_alloc_at_as cr3 vaddr size s).1 ≠ 0) :
    (MMU_alloc_at_as cr3 vaddr size s).1 = vaddr &&& PAGE_MASK ∧
      (∀ j < num_pages vaddr size,
        PML4_INDEX (range_page (vaddr &&& PAGE_MASK) j) ≠ 0 ∧
        ¬Reserved s cr3 (range_page (vaddr &&& PAGE_MASK) j)) ∧
      ∀ va, Reserved (MMU_alloc_at_as cr3 vaddr size s).2 cr3 va ↔
        Reserved s cr3 va ∨
          ∃ j < num_pages vaddr size, page_path va = page_path (range_page (vaddr &&& PAGE_MASK) j) := by
  obtain ⟨r, s', P', done, hrun, hedit, _, hr, hres, _⟩ :=
    MMU_alloc_at_as.views h.owns rfl h.reach vaddr size
  rw [hrun] at hbase ⊢
  cases r with
  | false => exact absurd rfl hbase
  | true =>
    rw [hr.mp rfl] at hres
    refine ⟨rfl, ?_, hres.reserved_iff hedit h.reach⟩
    intro j hj
    refine ⟨mem_spaceTree_slots.mp (hres.slots j (Nat.zero_le j) (by omega)), ?_⟩
    have hfresh := hres.fresh j (Nat.zero_le j) (by omega)
    unfold Reserved
    rw [Bool.not_eq_true]
    exact hfresh

end

section

variable {s s' : Machine} {P P' : List Nat} {num : BitVec 32}

theorem MMU_alloc_pages.views (h : WholeSpace s P s.cr3) (num : BitVec 32) :
    ∃ r s' P' done, Edit (spaceTree (frameOf s.cr3)) s P s' P' ∧
      (MMU_alloc_pages num s).1 = (bif r then s.kernel_va else 0) ∧
      (MMU_alloc_pages num s).2.mem = s'.mem ∧
      (r = false → (MMU_alloc_pages num s).2.kernel_va = s.kernel_va) ∧
      done ≤ num.toInt.toNat ∧ (r = true ↔ done = num.toInt.toNat) ∧
      ReservesPages (spaceTree (frameOf s.cr3)) s.kernel_va 0 done s.mem s'.mem ∧
      (0 < num.toInt.toNat →
        (0 < done ↔ CanReserve (spaceTree (frameOf s.cr3)) s.mem P s.kernel_va)) := by
  have hreach : ∀ j, 0 ≤ j → j < 0 + num.toInt.toNat →
      Reach (spaceTree (frameOf s.cr3)) (CLI s) P (PML4_INDEX (range_page s.kernel_va j)) :=
    fun _ _ _ => (h.reach _).CLI
  have hroot : frameOf s.cr3 = (spaceTree (frameOf s.cr3)).root := rfl
  obtain ⟨r, s1, P', done, hrun, hedit, hle, hr, hres, hfirst⟩ := reserve_loop.views
    s.kernel_va hroot num.toInt.toNat 0 hreach h.owns.CLI
  have hloop : alloc_pages_loop s.kernel_va 0 num.toInt.toNat (CLI s) = (r, s1) :=
    (alloc_pages_loop_eq s.kernel_va rfl _ 0 hreach h.owns.CLI).trans hrun
  rw [range_page_zero] at hfirst
  have hva := hedit.masked.regs.kernel_va
  refine ⟨r, restore_interrupts s.interrupts s1, P', done, hedit.masked, ?_⟩
  rw [restore_interrupts_mem]
  unfold MMU_alloc_pages
  simp only [hloop]
  cases r with
  | false => exact ⟨rfl, restore_interrupts_mem _ _, fun _ => hva, hle, hr, hres, hfirst⟩
  | true => exact ⟨rfl, restore_interrupts_mem _ _, by simp, hle, hr, hres, hfirst⟩

/-- Free pages of the heap can be reserved when there are three frames for each of them. -/
theorem MMU_alloc_pages.succeeds (h : WholeSpace s P s.cr3)
    (hfree : ∀ j < num.toInt.toNat, PML4_INDEX (range_page s.kernel_va j) ≠ 0 ∧
      ¬Reserved s s.cr3 (range_page s.kernel_va j))
    (hframes : 3 * num.toInt.toNat ≤ P.length) : (MMU_alloc_pages num s).1 = s.kernel_va := by
  have hn : num.toInt.toNat < 2 ^ 31 := by
    have := num.toInt_lt
    omega
  have hloop := alloc_pages_loop_eq s.kernel_va (s := CLI s) rfl num.toInt.toNat 0
    (fun j _ hj => Or.inl (mem_spaceTree_slots.mpr (hfree j (by omega)).1)) h.owns.CLI
  have hroot : frameOf s.cr3 = (spaceTree (frameOf s.cr3)).root := rfl
  have hok := reserve_loop.succeeds (s := CLI s) s.kernel_va hroot num.toInt.toNat 0
    (fun j _ hj => mem_spaceTree_slots.mpr (hfree j (by omega)).1)
    (fun j k _ hjk hk => range_page_ne hjk (by omega))
    (fun j _ hj => Bool.eq_false_iff.mpr (hfree j (by omega)).2) hframes h.owns.CLI
  unfold MMU_alloc_pages
  rcases hrun : alloc_pages_loop s.kernel_va 0 num.toInt.toNat (CLI s) with ⟨r, s1⟩
  have hr : r = true := by
    rw [hloop] at hrun
    have hrun : reserve_loop s.cr3 s.kernel_va 0 num.toInt.toNat (CLI s) = (r, s1) := hrun
    rw [hrun] at hok
    exact hok.1
  subst hr
  simp only [hrun]

/-- A call for pages of the heap that gives NULL leaves `kernel_va` as it is. The reserved pages are
those from before exactly when already the first page of the range could not be reserved.
After that, and only then, the same call succeeds once there are enough free frames, on the
condition that the pages of the range were free. -/
theorem failed_heap_reservation_undone (s : Machine) (P : List Nat) (num : BitVec 32)
    (h : WholeSpace s P s.cr3) (hn : 0 < num.toInt) (hnull : (MMU_alloc_pages num s).1 = 0) :
    (MMU_alloc_pages num s).2.kernel_va = s.kernel_va ∧
    ((∀ va, Reserved (MMU_alloc_pages num s).2 s.cr3 va ↔ Reserved s s.cr3 va) ↔
      ¬CanReserve (spaceTree (frameOf s.cr3)) s.mem P s.kernel_va) ∧
    ((∀ j < num.toInt.toNat, PML4_INDEX (range_page s.kernel_va j) ≠ 0 ∧
        ¬Reserved s s.cr3 (range_page s.kernel_va j)) →
      ∀ s2 P2, WholeSpace s2 P2 s2.cr3 → s2.cr3 = s.cr3 → s2.kernel_va = s.kernel_va →
        (∀ va, Reserved s2 s.cr3 va ↔ Reserved (MMU_alloc_pages num s).2 s.cr3 va) →
        3 * num.toInt.toNat ≤ P2.length →
        ((MMU_alloc_pages num s2).1 ≠ 0 ↔
          ¬CanReserve (spaceTree (frameOf s.cr3)) s.mem P s.kernel_va)) := by
  have hpos : 0 < num.toInt.toNat := by omega
  obtain ⟨r, s', P', done, hedit, hval, hmem, hva, _, hr, hres, hfirst⟩ :=
    MMU_alloc_pages.views h num
  have hfirst := hfirst hpos
  have hnonzero : CanReserve (spaceTree (frameOf s.cr3)) s.mem P s.kernel_va → s.kernel_va ≠ 0 := by
    intro hcan h0
    have hslot := mem_spaceTree_slots.mp hcan.slot
    rw [h0] at hslot
    exact hslot rfl
  have hfailed : r = false := by
    by_contra hrt
    have hrt : r = true := by simpa using hrt
    rw [hval, hrt] at hnull
    exact hnonzero (hfirst.mp (by rw [hr.mp hrt]; exact hpos)) hnull
  have hafter : ∀ va, Reserved (MMU_alloc_pages num s).2 s.cr3 va ↔
      Reserved s s.cr3 va ∨ ∃ j < done, page_path va = page_path (range_page s.kernel_va j) := by
    intro va
    unfold Reserved
    rw [hmem]
    exact hres.reserved_iff hedit h.reach va
  -- the first page is reserved by the call when it can be
  have hfirst_reserved : CanReserve (spaceTree (frameOf s.cr3)) s.mem P s.kernel_va →
      Reserved (MMU_alloc_pages num s).2 s.cr3 s.kernel_va := by
    intro hcan
    refine (hafter _).mpr (Or.inr ⟨0, hfirst.mpr hcan, ?_⟩)
    rw [range_page_zero]
  have hsame : ¬CanReserve (spaceTree (frameOf s.cr3)) s.mem P s.kernel_va →
      ∀ va, Reserved (MMU_alloc_pages num s).2 s.cr3 va ↔ Reserved s s.cr3 va := by
    intro hcan va
    have hdone : ¬0 < done := fun hd => hcan (hfirst.mp hd)
    rw [hafter va, or_iff_left]
    rintro ⟨j, hj, _⟩
    omega
  refine ⟨hva hfailed, ⟨?_, hsame⟩, ?_⟩
  · intro hall hcan
    have hbefore := (hall _).mp (hfirst_reserved hcan)
    have hfree := hcan.free
    unfold Reserved at hbefore
    rw [show (spaceTree (frameOf s.cr3)).root = frameOf s.cr3 from rfl, hbefore] at hfree
    cases hfree
  · intro hfree s2 P2 h2 hcr3 hva2 hres2 hframes
    constructor
    · intro hok hcan
      obtain ⟨r2, s2', P2', done2, _, hval2, _, _, _, hr2, _, hfirst2⟩ := MMU_alloc_pages.views h2 num
      have hr2t : r2 = true := by
        by_contra hrf
        have hrf : r2 = false := by simpa using hrf
        rw [hval2, hrf] at hok
        exact hok rfl
      have hcan2 := (hfirst2 hpos).mp (by rw [hr2.mp hr2t]; exact hpos)
      have hbefore := (hres2 _).mpr (hfirst_reserved hcan)
      have hfree2 := hcan2.free
      rw [hva2, hcr3] at hfree2
      unfold Reserved at hbefore
      rw [show (spaceTree (frameOf s.cr3)).root = frameOf s.cr3 from rfl, hbefore] at hfree2
      cases hfree2
    · intro hcan
      have hfree2 : ∀ j < num.toInt.toNat, PML4_INDEX (range_page s2.kernel_va j) ≠ 0 ∧
          ¬Reserved s2 s2.cr3 (range_page s2.kernel_va j) := by
        intro j hj
        rw [hva2, hcr3, hres2, hsame hcan]
        exact hfree j hj
      rw [MMU_alloc_pages.succeeds h2 hfree2 hframes]
      intro h0
      have hslot := (hfree2 0 hpos).1
      rw [range_page_zero, h0] at hslot
      exact hslot rfl

end

/-- A machine after boot with a region of `size` bytes to take frames from. The heap comes to the
last page of a P4 entry next. -/
def scarce (size : Word) : Machine :=
  { MMU_init 1 2 { unpaged with usable_regions := [⟨0x20000, size, true⟩] } with
    kernel_va := 0x017FFFFFF000 }

theorem scarce_wholeSpace : WholeSpace (scarce 0x2000) [32, 33] (scarce 0x2000).cr3 := by
  have hpool : Pool { unpaged with usable_regions := [⟨0x20000, 0x2000, true⟩] } [32, 33] := by
    refine ⟨by decide, ?_, [], Linked.chain_nil_iff.mpr rfl, by decide⟩
    intro r hr
    rw [List.mem_singleton] at hr
    subst hr
    exact ⟨fun _ => by decide, fun _ => by decide, fun _ => by decide⟩
  have hsound : Sound (MMU_init 1 2 { unpaged with usable_regions := [⟨0x20000, 0x2000, true⟩] }) []
      {2} [32, 33] := MMU_init.sound hpool (by decide) (by decide) (by decide) (by decide) (by decide)
    (by decide)
  exact (hsound.registers true 0x017FFFFFF000).wholeSpace_kernel

/-- Two frames are too few for the tables of the first page, so the call fails at once. -/
theorem failed_heap_reservation_undone_scarce :
    (MMU_alloc_pages 1 (scarce 0x2000)).1 = 0 ∧
      ∀ va, Reserved (MMU_alloc_pages 1 (scarce 0x2000)).2 (scarce 0x2000).cr3 va ↔
        Reserved (scarce 0x2000) (scarce 0x2000).cr3 va := by
  have hnull : (MMU_alloc_pages 1 (scarce 0x2000)).1 = 0 := by
    decide +kernel
  obtain ⟨_, hiff, _⟩ := failed_heap_reservation_undone (scarce 0x2000) [32, 33] 1
    scarce_wholeSpace (by decide) hnull
  refine ⟨hnull, hiff.mpr fun hcan => absurd hcan.frames ?_⟩
  decide +kernel

/-- Three frames are enough for the first page but not for the second one, in the next P4 entry. -/
theorem failed_heap_reservation_keeps_a_page :
    (MMU_alloc_pages 2 (scarce 0x3000)).1 = 0 ∧
      ¬Reserved (scarce 0x3000) (scarce 0x3000).cr3 0x017FFFFFF000 ∧
      Reserved (MMU_alloc_pages 2 (scarce 0x3000)).2 (scarce 0x3000).cr3 0x017FFFFFF000 := by
  decide +kernel

end JamsOs
