-- The page tables as trees of frames. What each operation on an entry does to its
-- fields, which frames an address space owns, and where the walk leads.
import JamsOs.FramePool
import JamsOs.RadixTree
import JamsOs.VPages

namespace JamsOs

open Words RadixTree

/-! ## The fields of an entry -/

@[simp] theorem present_zero : present 0#64 = false := getFlag_zero 0
@[simp] theorem demand_zero : demand 0#64 = false := getFlag_zero 9

@[simp] theorem present_set_pfn (w : Word) (f : Nat) : present (set_pfn w f) = present w :=
  getFlag_setBits _ _ _ _ (by omega)

@[simp] theorem demand_set_pfn (w : Word) (f : Nat) : demand (set_pfn w f) = demand w :=
  getFlag_setBits _ _ _ _ (by omega)

@[simp] theorem big_page_set_pfn (w : Word) (f : Nat) : big_page (set_pfn w f) = big_page w :=
  getFlag_setBits _ _ _ _ (by omega)

theorem pfn_lt (w : Word) : pfn w < 2 ^ 40 := (getBits w 12 40).isLt

theorem pfn_set_pfn {f : Nat} (h : f < 2 ^ 40) (w : Word) : pfn (set_pfn w f) = f := by
  unfold pfn set_pfn
  rw [getBits_setBits_self _ _ _ (by omega), BitVec.toNat_ofNat]
  exact Nat.mod_eq_of_lt h

theorem set_pfn_set_pfn (w : Word) (f g : Nat) : set_pfn (set_pfn w f) g = set_pfn w g :=
  setBits_setBits_self _ _ _ _

/-- A flag is a bit below the frame number, so neither changes the other. -/
theorem pfn_setFlag (w : Word) {i : Nat} (h : i < 12) (b : Bool) : pfn (setFlag w i b) = pfn w := by
  unfold pfn
  rw [getBits_setFlag _ _ _ _ (by omega)]

theorem present_link_entry (has_big : Bool) (w frame : Word) (user : Bool) :
    present (link_entry has_big w frame user) = true := by
  unfold link_entry present
  cases has_big <;>
    simp only [if_true, Bool.false_eq_true, if_false, ne_eq, OfNat.ofNat_ne_zero,
      not_false_eq_true, getFlag_setFlag_of_ne, getFlag_setFlag_self, Nat.zero_lt_succ,
      one_ne_zero]

theorem allocated_link_entry (has_big : Bool) (w frame : Word) (user : Bool) :
    allocated (link_entry has_big w frame user) = true := getFlag_setFlag_self _ _ _ (by omega)

theorem big_page_link_entry (w frame : Word) (user : Bool) :
    big_page (link_entry true w frame user) = false := by
  unfold link_entry big_page
  simp only [if_true]
  rw [getFlag_setFlag_of_ne _ _ _ _ (by omega), getFlag_setFlag_self _ _ _ (by omega)]

theorem pfn_link_entry {frame : Word} (h : frameOf frame < 2 ^ 40) (has_big : Bool) (w : Word)
    (user : Bool) : pfn (link_entry has_big w frame user) = frameOf frame := by
  unfold link_entry phys_to_pfn
  cases has_big <;>
    simp only [if_true, Bool.false_eq_true, if_false, pfn_setFlag _ (show 0 < 12 by omega),
      pfn_setFlag _ (show 1 < 12 by omega), pfn_setFlag _ (show 2 < 12 by omega),
      pfn_setFlag _ (show 7 < 12 by omega), pfn_setFlag _ (show 9 < 12 by omega), pfn_set_pfn h]

theorem present_reserved_entry (w : Word) : present (reserved_entry w) = false := by
  unfold reserved_entry
  rw [present_set_pfn]
  exact getFlag_setFlag_self _ _ _ (by omega)

theorem demand_reserved_entry (w : Word) : demand (reserved_entry w) = true := by
  unfold reserved_entry
  rw [demand_set_pfn]
  unfold demand
  rw [getFlag_setFlag_of_ne _ _ _ _ (by omega)]
  exact getFlag_setFlag_self _ _ _ (by omega)

theorem present_backed_entry (w frame va : Word) : present (backed_entry w frame va) = true := by
  unfold backed_entry present
  rw [getFlag_setFlag_of_ne _ _ _ _ (by omega), getFlag_setFlag_of_ne _ _ _ _ (by omega),
    getFlag_setFlag_of_ne _ _ _ _ (by omega), getFlag_setFlag_self _ _ _ (by omega)]

theorem pfn_backed_entry {frame : Word} (h : frameOf frame < 2 ^ 40) (w va : Word) :
    pfn (backed_entry w frame va) = frameOf frame := by
  unfold backed_entry phys_to_pfn
  simp only [pfn_setFlag _ (show 0 < 12 by omega), pfn_setFlag _ (show 1 < 12 by omega),
    pfn_setFlag _ (show 2 < 12 by omega), pfn_setFlag _ (show 9 < 12 by omega), pfn_set_pfn h]

/-- Masking an address gives the address of its frame. -/
theorem masked_eq (p : Word) : p &&& PAGE_MASK = frameAddr (frameOf p) := by
  apply BitVec.eq_of_toNat_eq
  rw [frameAddr_toNat (frameOf_lt p)]
  exact toNat_and_not_mask p 12

/-! ## The frames that an entry leads to -/

/-- The frame that a present entry names. -/
def childOf (w : Word) : Option Nat := if present w then some (pfn w) else none

theorem childOf_of_present {w : Word} (h : present w = true) : childOf w = some (pfn w) := by
  simp [childOf, h]

theorem childOf_of_absent {w : Word} (h : present w = false) : childOf w = none := by
  simp [childOf, h]

theorem childOf_eq_some {w : Word} {c : Nat} : childOf w = some c ↔ present w = true ∧ pfn w = c := by
  unfold childOf
  split <;> simp_all

@[simp] theorem childOf_zero : childOf 0#64 = none := childOf_of_absent present_zero

theorem childOf_link_entry {frame : Word} (h : frameOf frame < 2 ^ 40) (has_big : Bool) (w : Word)
    (user : Bool) : childOf (link_entry has_big w frame user) = some (frameOf frame) := by
  rw [childOf_of_present (present_link_entry _ _ _ _), pfn_link_entry h]

theorem childOf_reserved_entry (w : Word) : childOf (reserved_entry w) = none :=
  childOf_of_absent (present_reserved_entry w)

theorem childOf_backed_entry {frame : Word} (h : frameOf frame < 2 ^ 40) (w va : Word) :
    childOf (backed_entry w frame va) = some (frameOf frame) := by
  rw [childOf_of_present (present_backed_entry _ _ _), pfn_backed_entry h]

/-- The P4 entries of user space, as a set. -/
def userSlots : Finset (Fin 512) := Finset.univ.filter (PML4_INDEX VA_USER_BASE ≤ ·)

theorem mem_userSlots (i : Fin 512) : i ∈ userSlots ↔ 32 ≤ i.val := by
  unfold userSlots
  rw [Finset.mem_filter]
  simp only [Finset.mem_univ, true_and]
  exact Iff.rfl

theorem mem_user_slots (i : Fin 512) : i ∈ user_slots ↔ i ∈ userSlots := by
  simp [user_slots, userSlots]

theorem user_slots_nodup : user_slots.Nodup := (List.nodup_finRange 512).filter _

/-- The frames below the user half of a P4: three levels of tables and the pages. -/
def userForest (m : Nat → Frame) (p4 : Nat) : Multiset Nat := forest childOf userSlots 3 m p4

/-- The frames of a user address space: its P4, its user tables and its present pages. -/
def userFrames (m : Nat → Frame) (p4 : Nat) : Multiset Nat := p4 ::ₘ userForest m p4

/-- A frame below an entry has a number of 40 bits, since an entry holds no more. -/
theorem lt_of_mem_sub {k f : Nat} {m : Nat → Frame} {w : Word} (h : f ∈ sub childOf k m w) :
    f < 2 ^ 40 := by
  induction k generalizing w with
  | zero =>
    rcases hc : childOf w with _ | c
    · simp [sub_of_none hc] at h
    · rw [sub_of_some hc, frames_zero, Multiset.mem_singleton] at h
      rw [h, ← (childOf_eq_some.mp hc).2]
      exact pfn_lt w
  | succ k ih =>
    rcases hc : childOf w with _ | c
    · simp [sub_of_none hc] at h
    · rw [sub_of_some hc, frames_succ, Multiset.mem_cons] at h
      rcases h with h | h
      · rw [h, ← (childOf_eq_some.mp hc).2]
        exact pfn_lt w
      · obtain ⟨i, _, hf⟩ := mem_forest.mp h
        exact ih hf

/-- No table below a table of height `k` has an entry for a huge page. The entries of a
page table itself have no such bit. -/
def NoBig : Nat → (Nat → Frame) → Nat → Prop
  | 0, _, _ => True
  | 1, _, _ => True
  | k + 2, m, t => ∀ i, present (m t i) = true →
      big_page (m t i) = false ∧ NoBig (k + 1) m (pfn (m t i))

theorem NoBig.congr {k t : Nat} {m m' : Nat → Frame} (h : NoBig k m t)
    (hm : ∀ f ∈ tables childOf k m t, m' f = m f) : NoBig k m' t := by
  induction k generalizing t with
  | zero => trivial
  | succ k ih =>
    cases k with
    | zero => trivial
    | succ k =>
      have ht : m' t = m t := hm t (root_mem_tables _ _ t)
      intro i hi
      rw [ht] at hi ⊢
      obtain ⟨h1, h2⟩ := h i hi
      exact ⟨h1, ih h2 fun f hf => hm f (tables_of_child (childOf_of_present hi) hf)⟩

/-- The entry maps no huge page, and nothing below it does. -/
def Plain (has_big : Bool) (k : Nat) (m : Nat → Frame) (w : Word) : Prop :=
  present w = true → (has_big = true → big_page w = false) ∧ NoBig k m (pfn w)

theorem Plain.congr {has_big : Bool} {k : Nat} {m m' : Nat → Frame} {w : Word}
    (h : Plain has_big k m w) (hm : ∀ f ∈ sub childOf k m w, m' f = m f) :
    Plain has_big k m' w := by
  intro hp
  obtain ⟨hb, hn⟩ := h hp
  refine ⟨hb, hn.congr fun f hf => hm f ?_⟩
  rw [sub_of_some (childOf_of_present hp)]
  exact mem_frames_of_mem_tables hf

theorem plain_of_noBig {k t : Nat} {m : Nat → Frame} (h : NoBig (k + 2) m t) (i : Fin 512) :
    Plain true (k + 1) m (m t i) := fun hpres => ⟨fun _ => (h i hpres).1, (h i hpres).2⟩

/-! ## The walk of the CPU -/

/-- Whether an entry that leads to a tree of height `k` has the bit for a huge page: only the
entries of the middle two levels do. -/
def hasBig (k : Nat) : Bool := k == 1 || k == 2

/-- The entry of a table of height `k + 1` leads to a table of height `k`, or to a page when
`k` is 0. -/
def leads (k : Nat) (w : Word) : Bool := present w && !(hasBig k && big_page w)

/-- The entries that a walk for `va` from a table of height `k` meets. It stops at an entry
that is not present or maps a huge page. -/
def walk : Nat → (Nat → Frame) → Nat → Word → List Word
  | 0, _, _, _ => []
  | k + 1, m, t, va =>
    let w := m t (table_index (12 + 9 * k) va)
    w :: if leads k w then walk k m (pfn w) va else []

/-- The frame of the page that the walk comes to. -/
def page : Nat → (Nat → Frame) → Nat → Word → Option Nat
  | 0, _, t, _ => some t
  | k + 1, m, t, va =>
    let w := m t (table_index (12 + 9 * k) va)
    if leads k w then page k m (pfn w) va else none

/-- The frames that an access at `va` depends on: the tables of the walk, and the page. -/
def reads : Nat → (Nat → Frame) → Nat → Word → List Nat
  | 0, _, t, _ => [t]
  | k + 1, m, t, va =>
    let w := m t (table_index (12 + 9 * k) va)
    t :: if leads k w then reads k m (pfn w) va else []

section

variable {k t f : Nat} {m m' : Nat → Frame} {va w : Word}

theorem leads_of_plain (hp : Plain (hasBig k) k m w) (h : present w = true) : leads k w = true := by
  obtain ⟨hb, _⟩ := hp h
  unfold leads
  rcases hk : hasBig k with _ | _
  · simp [h]
  · simp [h, hb hk]

theorem leads_of_absent (h : present w = false) : leads k w = false := by
  simp [leads, h]

theorem plain_below (h : NoBig (k + 1) m t) (i : Fin 512) : Plain (hasBig k) k m (m t i) := by
  cases k with
  | zero => exact fun _ => ⟨nofun, trivial⟩
  | succ k => exact fun hp => ⟨fun _ => (plain_of_noBig h i hp).1 rfl, (plain_of_noBig h i hp).2⟩

theorem childOf_of_leads (h : leads k w = true) : childOf w = some (pfn w) := by
  unfold leads at h
  rw [Bool.and_eq_true] at h
  exact childOf_of_present h.1

theorem page_mem_reads (h : page k m t va = some f) : f ∈ reads k m t va := by
  induction k generalizing t with
  | zero =>
    cases h
    exact List.mem_singleton_self f
  | succ k ih =>
    simp only [page] at h
    split at h
    · rename_i hl
      simp only [reads, hl, if_true]
      exact List.mem_cons_of_mem _ (ih h)
    · cases h

theorem reads_subset_frames (h : f ∈ reads k m t va) : f ∈ frames childOf k m t := by
  induction k generalizing t with
  | zero =>
    rw [reads, List.mem_singleton] at h
    rw [frames_zero, Multiset.mem_singleton]
    exact h
  | succ k ih =>
    simp only [reads, List.mem_cons] at h
    rcases h with rfl | h
    · exact root_mem_frames _ _ _
    · split at h
      · rename_i hl
        exact frames_of_child (childOf_of_leads hl) (ih h)
      · simp at h

/-- What a walk finds, and the page that it comes to, are decided by the frames it reads. -/
theorem access_congr (h : ∀ f ∈ reads k m t va, m' f = m f) :
    walk k m' t va = walk k m t va ∧ page k m' t va = page k m t va := by
  induction k generalizing t with
  | zero => exact ⟨rfl, rfl⟩
  | succ k ih =>
    simp only [reads, List.mem_cons] at h
    simp only [walk, page, h t (Or.inl rfl)]
    split
    · rename_i hl
      rw [if_pos hl] at h
      obtain ⟨h1, h2⟩ := ih fun f hf => h f (Or.inr hf)
      exact ⟨by rw [h1], h2⟩
    · exact ⟨rfl, rfl⟩

end

/-- An access at a user address depends only on the frames of the user address space. -/
theorem reads_subset_userFrames {m : Nat → Frame} {p4 f : Nat} {va : Word}
    (hva : PML4_INDEX va ∈ userSlots) (h : f ∈ reads 4 m p4 va) : f ∈ userFrames m p4 := by
  rw [userFrames, Multiset.mem_cons]
  rw [reads, List.mem_cons] at h
  refine h.imp_right fun h => ?_
  split at h
  · rename_i hl
    exact mem_forest_of_child hva (childOf_of_leads hl) (reads_subset_frames h)
  · simp at h

/-! ## What an operation leaves alone -/

/-- The static variables of `vpages.c`, CR3 and the interrupt flag are the same. -/
structure SameRegs (s s' : Machine) : Prop where
  kernel_cr3 : s'.kernel_cr3 = s.kernel_cr3
  kernel_va : s'.kernel_va = s.kernel_va
  cr3 : s'.cr3 = s.cr3
  interrupts : s'.interrupts = s.interrupts

theorem SameRegs.refl (s : Machine) : SameRegs s s := ⟨rfl, rfl, rfl, rfl⟩

theorem SameRegs.trans {s s' s'' : Machine} (h : SameRegs s s') (h' : SameRegs s' s'') :
    SameRegs s s'' :=
  ⟨h'.1.trans h.1, h'.2.trans h.2, h'.3.trans h.3, h'.4.trans h.4⟩

@[simp] theorem set_entry_mem (s : Machine) (e : EntryPtr) (w : Word) :
    (s.set_entry e w).mem = setWord s.mem e.1 e.2 w := rfl

@[simp] theorem zero_frame_mem (s : Machine) (f : Nat) :
    (s.zero_frame f).mem = Function.update s.mem f fun _ => 0 := rfl

theorem SameRegs.set_entry (s : Machine) (e : EntryPtr) (w : Word) : SameRegs s (s.set_entry e w) :=
  ⟨rfl, rfl, rfl, rfl⟩

theorem SameRegs.zero_frame (s : Machine) (f : Nat) : SameRegs s (s.zero_frame f) :=
  ⟨rfl, rfl, rfl, rfl⟩

theorem Pool.set_entry {s : Machine} {P : List Nat} {e : EntryPtr} (h : Pool s P) (he : e.1 ∉ P)
    (w : Word) : Pool (s.set_entry e w) P := by
  refine h.congr rfl rfl ?_
  intro f hf
  have hfe : f ≠ e.1 := fun heq => he (heq ▸ hf)
  exact setWord_of_ne hfe _ _

theorem Pool.zero_frame {s : Machine} {P : List Nat} {c : Nat} (h : Pool s P) (hc : c ∉ P) :
    Pool (s.zero_frame c) P := by
  refine h.congr rfl rfl ?_
  intro f hf
  have hfc : f ≠ c := fun heq => hc (heq ▸ hf)
  exact Function.update_of_ne hfc _ _

/-- An allocation, by what the page-table code sees of it. -/
theorem MMU_pf_alloc.spec_take {s : Machine} {c : Nat} {P : List Nat} (h : Pool s (c :: P)) :
    ∃ s1, MMU_pf_alloc s = (frameAddr c, s1) ∧ Pool s1 P ∧ s1.mem = s.mem ∧ SameRegs s s1 := by
  obtain ⟨ff, rs, heq, hpool⟩ := MMU_pf_alloc.spec_cons h
  exact ⟨_, heq, hpool, rfl, rfl, rfl, rfl, rfl⟩

end JamsOs
