-- The laws of the boot information: which frames the table of regions holds after the walk over
-- the tags. They are usable frames, and hold no part of the kernel, as long as the entries of the
-- memory map have the size of `struct mmap_entry` and no usable entry that comes after a list of
-- sections gives their pages back.
import JamsOs.FramePool
import JamsOs.Multiboot

namespace JamsOs

open Words

variable {b : BootInfo} {T T' : List MemRegion} {r : MemRegion} {f i j tag : Nat}

/-! ## Regions as ranges of frames -/

/-- The frame belongs to the region. -/
def MemRegion.Has (r : MemRegion) (f : Nat) : Prop :=
  r.valid = true ∧ r.addr.toNat ≤ f * 4096 ∧ f * 4096 < r.addr.toNat + r.size.toNat

/-- The region ends below 2^64. -/
structure MemRegion.Sound (r : MemRegion) : Prop extends r.Ok where
  no_wrap : r.valid = true → r.addr.toNat + r.size.toNat < 2 ^ 64

theorem MemRegion.sound_of_invalid (h : r.valid = false) : r.Sound := by
  constructor
  · constructor <;> simp [h]
  · simp [h]

/-- The region has the `n` pages from page `a` on. -/
structure MemRegion.Pages (r : MemRegion) (a n : Nat) : Prop where
  addr : r.addr.toNat = a * 4096
  size : r.size.toNat = n * 4096
  pos : 0 < n
  lt : a + n < 2 ^ 52

theorem MemRegion.Pages.sound {a n : Nat} (h : r.Pages a n) : r.Sound := by
  obtain ⟨ha, hn, hpos, hlt⟩ := h
  refine ⟨⟨fun _ => ?_, fun _ => ?_, fun _ => ?_⟩, fun _ => ?_⟩ <;> omega

theorem MemRegion.Pages.has_iff {a n : Nat} (h : r.Pages a n) (hv : r.valid = true) :
    r.Has f ↔ a ≤ f ∧ f < a + n := by
  unfold MemRegion.Has
  rw [and_iff_right hv, h.addr, h.size]
  omega

/-- A region is a range. -/
theorem has_between {f g x : Nat} (hf : r.Has f) (hg : r.Has g) (h1 : f ≤ x) (h2 : x ≤ g) : r.Has x := by
  obtain ⟨hv, hlow, _⟩ := hf
  obtain ⟨_, _, hhigh⟩ := hg
  refine ⟨hv, hlow.trans ?_, lt_of_le_of_lt ?_ hhigh⟩
  · exact Nat.mul_le_mul_right 4096 h1
  · exact Nat.mul_le_mul_right 4096 h2

theorem MemRegion.Sound.pages (h : r.Sound) (hv : r.valid = true) : ∃ a n, r.Pages a n := by
  have ha := h.aligned hv
  have hw := h.whole hv
  have hpos := h.nonempty hv
  have hlt := h.no_wrap hv
  exact ⟨r.addr.toNat / 4096, r.size.toNat / 4096, by omega, by omega, by omega, by omega⟩

/-! ## Slots -/

/-- The region in a slot of the table. -/
def slot (T : List MemRegion) (i : Nat) : MemRegion := T.getD i no_region

theorem not_has_no_region : ¬no_region.Has f := fun h => nomatch h.1

theorem slot_set (hi : i < T.length) (r : MemRegion) (j : Nat) :
    slot (T.set i r) j = if j = i then r else slot T j := by
  unfold slot
  by_cases hj : j = i
  · subst hj
    rw [if_pos rfl, List.getD_eq_getElem?_getD, List.getElem?_set_self hi]
    rfl
  · rw [if_neg hj, List.getD_eq_getElem?_getD, List.getD_eq_getElem?_getD,
      List.getElem?_set_ne (Ne.symm hj)]

theorem slot_set_self (hi : i < T.length) (r : MemRegion) : slot (T.set i r) i = r := by
  rw [slot_set hi, if_pos rfl]

theorem slot_set_of_ne (hi : i < T.length) (r : MemRegion) (hj : j ≠ i) :
    slot (T.set i r) j = slot T j := by
  rw [slot_set hi, if_neg hj]

theorem slot_of_length_le (h : T.length ≤ i) : slot T i = no_region := by
  unfold slot
  rw [List.getD_eq_getElem?_getD, List.getElem?_eq_none h]
  rfl

theorem slot_eq_getElem (hi : i < T.length) : slot T i = T[i] := by
  unfold slot
  rw [List.getD_eq_getElem?_getD, List.getElem?_eq_getElem hi]
  rfl

/-- A table of the right size, with sound regions. -/
structure Table (T : List MemRegion) : Prop where
  length : T.length = MAX_REGIONS
  sound : ∀ i, (slot T i).Sound

/-- Some region of the table has the frame. -/
def Covers (T : List MemRegion) (f : Nat) : Prop := ∃ i, (slot T i).Has f

/-- No frame is in two regions. -/
def SlotsApart (T : List MemRegion) : Prop :=
  ∀ i j f, (slot T i).Has f → (slot T j).Has f → i = j

/-- The number of slots in use. -/
def used_slots (T : List MemRegion) : Nat := T.countP (·.valid)

theorem used_slots_set_le (T : List MemRegion) (i : Nat) (r : MemRegion) :
    used_slots (T.set i r) ≤ used_slots T + 1 := by
  unfold used_slots
  by_cases hi : i < T.length
  · rw [List.countP_set hi]
    split <;> split <;> omega
  · rw [List.set_eq_of_length_le (Nat.le_of_not_lt hi)]
    omega

/-- A region is replaced by another one in its slot. -/
theorem used_slots_set_of_valid (hv : (slot T i).valid = true) (r : MemRegion) :
    used_slots (T.set i r) ≤ used_slots T := by
  by_cases hi : i < T.length
  · rw [slot_eq_getElem hi] at hv
    have hpos : 0 < T.countP (·.valid) := List.countP_pos_iff.mpr ⟨_, List.getElem_mem hi, hv⟩
    unfold used_slots
    rw [List.countP_set hi, if_pos hv]
    split <;> omega
  · rw [List.set_eq_of_length_le (Nat.le_of_not_lt hi)]

theorem Table.set (h : Table T) (hi : i < MAX_REGIONS) (hr : r.Sound) : Table (T.set i r) := by
  have hi' : i < T.length := h.length ▸ hi
  refine ⟨List.length_set.trans h.length, fun j => ?_⟩
  rw [slot_set hi']
  split
  · exact hr
  · exact h.sound j

theorem page_down (x : Word) : (x &&& ~~~(PAGE_SIZE - 1)).toNat = x.toNat / 4096 * 4096 :=
  toNat_and_not_mask x 12

theorem page_up {x : Word} (h : x.toNat + 4095 < 2 ^ 64) :
    ((x + PAGE_SIZE - 1) &&& ~~~(PAGE_SIZE - 1)).toNat = (x.toNat + 4095) / 4096 * 4096 := by
  have hadd : (x + PAGE_SIZE - 1).toNat = x.toNat + 4095 := by
    have heq : x + PAGE_SIZE - 1 = x + 4095#64 := by
      rw [BitVec.sub_eq_add_neg, BitVec.add_assoc]
      rfl
    rw [heq, BitVec.toNat_add]
    exact Nat.mod_eq_of_lt h
  rw [page_down, hadd]

/-! ## Adding a region -/

/-- The whole pages between two addresses. -/
def WholePage (addr size f : Nat) : Prop := addr ≤ f * 4096 ∧ (f + 1) * 4096 ≤ addr + size

/-- A slot of the table has the whole pages of the range, and the others stay. The slot stays as
well when there are none. -/
theorem add_usable_region.spec {addr size : Word} (h : Table T)
    (hfirst : addr.toNat + 4095 < 2 ^ 64) (hfit : addr.toNat + size.toNat < 2 ^ 64) :
    Table (add_usable_region addr size i T) ∧
    (∀ j, slot (add_usable_region addr size i T) j = slot T j ∧
        (i < MAX_REGIONS → j = i → ∀ f, ¬WholePage addr.toNat size.toNat f) ∨
      j = i ∧ ∀ f, (slot (add_usable_region addr size i T) j).Has f ↔
        WholePage addr.toNat size.toNat f) ∧
    used_slots (add_usable_region addr size i T) ≤ used_slots T + 1 := by
  have hsum : (addr + size).toNat = addr.toNat + size.toNat := by
    rw [BitVec.toNat_add]
    exact Nat.mod_eq_of_lt (by omega)
  have hstart := page_up (x := addr) (by omega)
  have hend := page_down (addr + size)
  rw [hsum] at hend
  unfold add_usable_region
  simp only
  split
  · rename_i hle
    rw [BitVec.le_def, hstart, hend] at hle
    refine ⟨h, fun j => Or.inl ⟨rfl, fun _ _ f hf => ?_⟩, Nat.le_succ _⟩
    unfold WholePage at hf
    omega
  · rename_i hlt
    split
    · rename_i hi
      exact ⟨h, fun j => Or.inl ⟨rfl, fun hlt => absurd hi (Nat.not_le_of_lt hlt)⟩, Nat.le_succ _⟩
    · rename_i hi
      have hi : i < MAX_REGIONS := Nat.lt_of_not_le hi
      rw [BitVec.le_def, hstart, hend] at hlt
      have hpages : MemRegion.Pages ⟨(addr + PAGE_SIZE - 1) &&& ~~~(PAGE_SIZE - 1),
          ((addr + size) &&& ~~~(PAGE_SIZE - 1)) - ((addr + PAGE_SIZE - 1) &&& ~~~(PAGE_SIZE - 1)), true⟩
          ((addr.toNat + 4095) / 4096)
          ((addr.toNat + size.toNat) / 4096 - (addr.toNat + 4095) / 4096) := by
        refine ⟨hstart, ?_, by omega, by omega⟩
        rw [BitVec.toNat_sub_of_le (by rw [BitVec.le_def, hstart, hend]; omega), hstart, hend]
        omega
      refine ⟨h.set hi hpages.sound, fun j => ?_, used_slots_set_le _ _ _⟩
      by_cases hj : j = i
      · refine Or.inr ⟨hj, fun f => ?_⟩
        subst hj
        rw [slot_set_self (h.length ▸ hi), hpages.has_iff rfl]
        unfold WholePage
        omega
      · exact Or.inl ⟨slot_set_of_ne (h.length ▸ hi) _ hj, fun _ he => absurd he hj⟩

/-! ## Removing a range of pages -/

/-- One slot changes, and has no frame of another one afterwards. -/
theorem SlotsApart.change (h : SlotsApart T)
    (hT : ∀ k, slot T' k = slot T k ∨
      k = i ∧ ∀ f, (slot T' k).Has f → ∀ m, m ≠ i → ¬(slot T m).Has f) : SlotsApart T' := by
  intro k m f hk hm
  by_contra hne
  rcases hT k with hk' | ⟨rfl, hk'⟩
  · rw [hk'] at hk
    rcases hT m with hm' | ⟨rfl, hm'⟩
    · rw [hm'] at hm
      exact hne (h k m f hk hm)
    · exact hm' f hm k hne hk
  · rcases hT m with hm' | ⟨rfl, _⟩
    · rw [hm'] at hm
      exact hk' f hk m (Ne.symm hne) hm
    · exact hne rfl

/-- The region has frames on both sides of the range from `lo` to `hi`, so that it will be split. -/
def MemRegion.Around (r : MemRegion) (lo hi : Nat) : Prop :=
  ∃ f g, r.Has f ∧ r.Has g ∧ f < lo ∧ hi ≤ g

/-- The slot `i` has lost the pages from `lo` to `hi`, and a free slot may have got the part behind
them. No other page is lost, as long as there is a free slot where one is needed. -/
structure SlotCleared (lo hi i : Nat) (T T' : List MemRegion) : Prop where
  table : Table T'
  self : ∀ f, (slot T' i).Has f → (slot T i).Has f ∧ ¬(lo ≤ f ∧ f < hi)
  other : ∀ j, j ≠ i → slot T' j = slot T j ∨ ∀ f, (slot T' j).Has f → (slot T i).Has f ∧ hi ≤ f
  apart : SlotsApart T → SlotsApart T'
  keeps : ((slot T i).Around lo hi → used_slots T < MAX_REGIONS) →
    ∀ f, Covers T f → ((slot T i).Has f → ¬(lo ≤ f ∧ f < hi)) → Covers T' f
  used : used_slots T' ≤ used_slots T ∨
    used_slots T' ≤ used_slots T + 1 ∧ (slot T i).Around lo hi

variable {lo hi : Nat} {start fin : Word}

theorem SlotCleared.refl (h : Table T) (hi' : ∀ f, (slot T i).Has f → ¬(lo ≤ f ∧ f < hi)) :
    SlotCleared lo hi i T T :=
  ⟨h, fun f hf => ⟨hf, hi' f hf⟩, fun _ _ => Or.inl rfl, id, fun _ _ hf _ => hf, Or.inl le_rfl⟩

/-- The region in the slot is cut down. -/
theorem SlotCleared.set (h : Table T) (hi' : i < MAX_REGIONS) (hv : (slot T i).valid = true)
    (hr : r.Sound) (hcut : ∀ f, r.Has f → (slot T i).Has f ∧ ¬(lo ≤ f ∧ f < hi))
    (hrest : ((slot T i).Around lo hi → used_slots T < MAX_REGIONS) →
      ∀ f, (slot T i).Has f → ¬(lo ≤ f ∧ f < hi) → r.Has f) :
    SlotCleared lo hi i T (T.set i r) := by
  have hlen : i < T.length := h.length ▸ hi'
  refine ⟨h.set hi' hr, ?_, fun j hj => Or.inl (slot_set_of_ne hlen r hj), fun ha => ?_, ?_,
    Or.inl (used_slots_set_of_valid hv r)⟩
  · rw [slot_set_self hlen]
    exact hcut
  · refine ha.change (i := i) fun k => ?_
    by_cases hk : k = i
    · refine Or.inr ⟨hk, fun f hf m hm hmf => hm ?_⟩
      rw [hk, slot_set_self hlen] at hf
      exact ha m i f hmf (hcut f hf).1
    · exact Or.inl (slot_set_of_ne hlen r hk)
  · rintro hroom f ⟨k, hf⟩ hout
    refine ⟨k, ?_⟩
    by_cases hk : k = i
    · subst hk
      rw [slot_set_self hlen]
      exact hrest hroom f hf (hout hf)
    · rw [slot_set_of_ne hlen r hk]
      exact hf

/-- The region in the slot is cut down, and the part behind the range goes to a free slot. -/
theorem SlotCleared.split (h : Table T) (hi' : i < MAX_REGIONS) (hv : (slot T i).valid = true)
    (hr : r.Sound) (hcut : ∀ f, r.Has f → (slot T i).Has f ∧ f < lo) (hle : lo ≤ hi)
    (hj : j < MAX_REGIONS) (hji : j ≠ i) (hfree : (slot T j).valid = false) {addr size : Word}
    (hfirst : addr.toNat + 4095 < 2 ^ 64) (hfit : addr.toNat + size.toNat < 2 ^ 64)
    (hnew : ∀ f, WholePage addr.toNat size.toNat f ↔ (slot T i).Has f ∧ hi ≤ f)
    (hrest : ∀ f, (slot T i).Has f → f < lo → r.Has f) (haround : (slot T i).Around lo hi) :
    SlotCleared lo hi i T (add_usable_region addr size j (T.set i r)) := by
  have hlen : i < T.length := h.length ▸ hi'
  obtain ⟨htable, hslots, hused⟩ := add_usable_region.spec (i := j) (h.set hi' hr) hfirst hfit
  have hself : slot (add_usable_region addr size j (T.set i r)) i = r := by
    rcases hslots i with ⟨he, _⟩ | ⟨hij, _⟩
    · rw [he, slot_set_self hlen]
    · exact absurd hij.symm hji
  have hother : ∀ m, m ≠ i → slot (add_usable_region addr size j (T.set i r)) m = slot T m ∨
      m = j ∧ ∀ f, (slot (add_usable_region addr size j (T.set i r)) m).Has f ↔
        (slot T i).Has f ∧ hi ≤ f := by
    intro m hm
    rcases hslots m with ⟨he, _⟩ | ⟨hmj, hhas⟩
    · rw [he]
      exact Or.inl (slot_set_of_ne hlen r hm)
    · exact Or.inr ⟨hmj, fun f => (hhas f).trans (hnew f)⟩
  refine ⟨htable, ?_, ?_, fun ha => ?_, ?_, ?_⟩
  · intro f hf
    rw [hself] at hf
    obtain ⟨hin, hlo⟩ := hcut f hf
    exact ⟨hin, by omega⟩
  · intro m hm
    exact (hother m hm).imp_right fun ⟨_, hhas⟩ f hf => (hhas f).mp hf
  · intro k m f hk hm
    by_contra hkm
    -- the pieces of the region are on the two sides of the range
    have hpiece : ∀ k, (slot (add_usable_region addr size j (T.set i r)) k).Has f →
        (slot T k).Has f ∧ k ≠ i ∨ k = i ∧ (slot T i).Has f ∧ f < lo ∨
          k = j ∧ (slot T i).Has f ∧ hi ≤ f := by
      intro k hk
      by_cases hki : k = i
      · subst hki
        rw [hself] at hk
        exact Or.inr (Or.inl ⟨rfl, hcut f hk⟩)
      · rcases hother k hki with he | ⟨hkj, hhas⟩
        · rw [he] at hk
          exact Or.inl ⟨hk, hki⟩
        · exact Or.inr (Or.inr ⟨hkj, (hhas f).mp hk⟩)
    rcases hpiece k hk with ⟨hk', hki⟩ | ⟨rfl, hk', hlow⟩ | ⟨rfl, hk', hhigh⟩
    · rcases hpiece m hm with ⟨hm', _⟩ | ⟨_, hm', _⟩ | ⟨_, hm', _⟩
      · exact hkm (ha k m f hk' hm')
      · exact hki (ha k i f hk' hm')
      · exact hki (ha k i f hk' hm')
    · rcases hpiece m hm with ⟨hm', hmi⟩ | ⟨hmi, _⟩ | ⟨_, _, hhigh⟩
      · exact hmi (ha m k f hm' hk')
      · exact hkm hmi.symm
      · omega
    · rcases hpiece m hm with ⟨hm', hmi⟩ | ⟨_, _, hlow⟩ | ⟨hmj, _⟩
      · exact hmi (ha m i f hm' hk')
      · omega
      · exact hkm hmj.symm
  · rintro _ f ⟨k, hf⟩ hout
    by_cases hki : k = i
    · subst hki
      by_cases hlow : f < lo
      · refine ⟨k, ?_⟩
        rw [hself]
        exact hrest f hf hlow
      · have hwhole : WholePage addr.toNat size.toNat f := (hnew f).mpr ⟨hf, by have := hout hf; omega⟩
        refine ⟨j, ?_⟩
        rcases hslots j with ⟨_, hnone⟩ | ⟨_, hhas⟩
        · exact absurd hwhole (hnone hj rfl f)
        · exact (hhas f).mpr hwhole
    · refine ⟨k, ?_⟩
      rcases hother k hki with he | ⟨rfl, _⟩
      · rw [he]
        exact hf
      · have hvalid := hf.1
        rw [hfree] at hvalid
        cases hvalid
  · refine Or.inr ⟨?_, haround⟩
    have := used_slots_set_of_valid hv r
    omega

/-- A slot that is free, and is not the one that was just written. -/
theorem free_slot (hi' : i < T.length) (hr : r.valid = true)
    (hj : (T.set i r).findIdx? (!·.valid) = some j) :
    j < T.length ∧ j ≠ i ∧ (slot T j).valid = false := by
  obtain ⟨hlt, hfree, _⟩ := List.findIdx?_eq_some_iff_getElem.mp hj
  have hji : j ≠ i := by
    rintro rfl
    rw [List.getElem_set_self] at hfree
    simp [hr] at hfree
  rw [List.length_set] at hlt
  rw [List.getElem_set_of_ne hji.symm] at hfree
  refine ⟨hlt, hji, ?_⟩
  rw [slot_eq_getElem hlt]
  simpa using hfree

/-- Where no slot is free, all are used. -/
theorem used_slots_of_full (hi' : i < T.length) (hv : (slot T i).valid = true)
    (hnone : (T.set i r).findIdx? (!·.valid) = none) : used_slots T = T.length := by
  rw [List.findIdx?_eq_none_iff] at hnone
  unfold used_slots
  rw [List.countP_eq_length]
  intro x hx
  obtain ⟨k, hk, rfl⟩ := List.mem_iff_getElem.mp hx
  by_cases hki : k = i
  · subst hki
    rwa [slot_eq_getElem hi'] at hv
  · have hmem : T[k] ∈ T.set i r := by
      rw [List.mem_iff_getElem]
      exact ⟨k, by rw [List.length_set]; exact hk, List.getElem_set_of_ne (Ne.symm hki) _ _⟩
    simpa using hnone _ hmem

theorem remove_from_slot.spec (h : Table T) (hi' : i < MAX_REGIONS) (hlo : start.toNat = lo * 4096)
    (hhi : fin.toNat = hi * 4096) (hle : lo ≤ hi) :
    SlotCleared lo hi i T (remove_from_slot start fin T i) := by
  obtain ⟨r, hr⟩ : ∃ r, slot T i = r := ⟨_, rfl⟩
  have hget : T.getD i no_region = r := hr
  unfold remove_from_slot
  simp only [hget]
  split
  · rename_i hv
    refine .refl h fun f hf => ?_
    simp [hr ▸ hf.1] at hv
  rename_i hv
  have hv : r.valid = true := by simpa using hv
  obtain ⟨a, n, hp⟩ := (hr ▸ h.sound i).pages hv
  obtain ⟨ha, hn, hpos, hlt⟩ := id hp
  have hend : (r.addr + r.size).toNat = (a + n) * 4096 := by
    rw [BitVec.toNat_add, ha, hn]
    omega
  have hhas : ∀ f, (slot T i).Has f ↔ a ≤ f ∧ f < a + n := fun f => hr ▸ hp.has_iff hv
  -- what is left of the region on either side of the range
  have hright : hi < a + n → (r.addr + r.size - fin).toNat = (a + n - hi) * 4096 := by
    intro h1
    rw [BitVec.toNat_sub_of_le (by rw [BitVec.le_def]; omega), hend, hhi]
    omega
  have hleft : a < lo → lo < a + n → MemRegion.Pages ⟨r.addr, start - r.addr, r.valid⟩ a (lo - a) := by
    intro h1 h2
    refine ⟨ha, ?_, by omega, by omega⟩
    rw [BitVec.toNat_sub_of_le (by rw [BitVec.le_def]; omega), hlo, ha]
    omega
  simp only [BitVec.le_def, BitVec.lt_def, hlo, hhi, hend, ha]
  have hv' : (slot T i).valid = true := hr ▸ hv
  split
  · exact .refl h fun f hf => by have := (hhas f).mp hf; omega
  rename_i hover
  split
  · refine .set h hi' hv' (MemRegion.sound_of_invalid rfl) (fun f hf => nomatch hf.1) ?_
    intro _ f hf hout
    have := (hhas f).mp hf
    omega
  rename_i hfull
  split
  · have hcut : MemRegion.Pages ⟨fin, r.addr + r.size - fin, r.valid⟩ hi (a + n - hi) :=
      ⟨hhi, hright (by omega), by omega, by omega⟩
    have hiff := fun f => hcut.has_iff (f := f) hv
    refine .set h hi' hv' hcut.sound (fun f hf => ?_) fun _ f hf hout => ?_
    · have := (hiff f).mp hf
      rw [hhas]
      omega
    · have := (hhas f).mp hf
      rw [hiff]
      omega
  rename_i hfront
  have hcut := hleft (by omega) (by omega)
  have hiff := fun f => hcut.has_iff (f := f) hv
  split
  · refine .set h hi' hv' hcut.sound (fun f hf => ?_) fun _ f hf hout => ?_
    · have := (hiff f).mp hf
      rw [hhas]
      omega
    · have := (hhas f).mp hf
      rw [hiff]
      omega
  rename_i hback
  have hsize := hright (by omega)
  have haround : (slot T i).Around lo hi :=
    ⟨a, a + n - 1, (hhas _).mpr (by omega), (hhas _).mpr (by omega), by omega, by omega⟩
  split
  · rename_i j hj
    obtain ⟨hjlen, hji, hfree⟩ := free_slot (h.length ▸ hi') (by exact hv) hj
    refine .split h hi' hv' hcut.sound (fun f hf => ?_) hle (h.length ▸ hjlen) hji hfree ?_ ?_
      (fun f => ?_) (fun f hf hlow => ?_) haround
    · have := (hiff f).mp hf
      rw [hhas]
      omega
    · rw [hhi]
      omega
    · rw [hhi, hsize]
      omega
    · unfold WholePage
      rw [hhi, hsize, hhas]
      omega
    · have := (hhas f).mp hf
      rw [hiff]
      omega
  · rename_i hnone
    refine .set h hi' hv' hcut.sound (fun f hf => ?_) fun hroom => ?_
    · have := (hiff f).mp hf
      rw [hhas]
      omega
    · have hall := used_slots_of_full (h.length ▸ hi') hv' hnone
      rw [h.length] at hall
      exact absurd (hroom haround) (by omega)

/-- The pages of the range are in none of the first slots after as many turns. -/
theorem remove_slots_loop (h : Table T) (hlo : start.toNat = lo * 4096) (hhi : fin.toNat = hi * 4096)
    (hle : lo ≤ hi) (n : Nat) (hn : n ≤ MAX_REGIONS) :
    let T' := (List.range n).foldl (remove_from_slot start fin) T
    Table T' ∧ (∀ f, Covers T' f → Covers T f) ∧
      (∀ i < n, ∀ f, (slot T' i).Has f → ¬(lo ≤ f ∧ f < hi)) ∧ (SlotsApart T → SlotsApart T') := by
  induction n with
  | zero => exact ⟨h, fun _ hf => hf, fun _ hi => absurd hi (Nat.not_lt_zero _), id⟩
  | succ n ih =>
    obtain ⟨htable, hcov, hclear, hapart⟩ := ih (by omega)
    simp only [List.range_succ, List.foldl_append, List.foldl_cons, List.foldl_nil]
    generalize (List.range n).foldl (remove_from_slot start fin) T = T1 at *
    have hstep := remove_from_slot.spec (i := n) htable (by omega) hlo hhi hle
    refine ⟨hstep.table, ?_, ?_, fun ha => hstep.apart (hapart ha)⟩
    · rintro f ⟨j, hf⟩
      by_cases hj : j = n
      · subst hj
        exact hcov f ⟨j, (hstep.self f hf).1⟩
      · rcases hstep.other j hj with he | hnew
        · exact hcov f ⟨j, he ▸ hf⟩
        · exact hcov f ⟨n, (hnew f hf).1⟩
    · intro j hj f hf
      by_cases hjn : j = n
      · subst hjn
        exact (hstep.self f hf).2
      · rcases hstep.other j hjn with he | hnew
        · exact hclear j (by omega) f (he ▸ hf)
        · have := (hnew f hf).2
          omega

/-- No page outside of the range is lost, as long as one slot is free for a region with pages on both
sides of the range. At most one region has them, so at most one slot more is used. -/
theorem remove_slots_keep (h : Table T) (ha : SlotsApart T)
    (hroom : (∃ k, (slot T k).Around lo hi) → used_slots T < MAX_REGIONS) (hlo : start.toNat = lo * 4096) (hhi : fin.toNat = hi * 4096) (hle : lo ≤ hi) (n : Nat)
    (hn : n ≤ MAX_REGIONS) :
    let T' := (List.range n).foldl (remove_from_slot start fin) T
    (∀ f, Covers T f → ¬(lo ≤ f ∧ f < hi) → Covers T' f) ∧
      (used_slots T' ≤ used_slots T ∨
        used_slots T' ≤ used_slots T + 1 ∧ ∀ k, n ≤ k → ¬(slot T' k).Around lo hi) ∧
      ∀ k, n ≤ k → (slot T' k).Around lo hi → (slot T k).Around lo hi := by
  induction n with
  | zero => exact ⟨fun _ hf _ => hf, Or.inl le_rfl, fun _ _ hk => hk⟩
  | succ n ih =>
    obtain ⟨hkeeps, hused, hfirst⟩ := ih (by omega)
    obtain ⟨htable, _, _, hapart⟩ := remove_slots_loop h hlo hhi hle n (by omega)
    simp only [List.range_succ, List.foldl_append, List.foldl_cons, List.foldl_nil]
    generalize (List.range n).foldl (remove_from_slot start fin) T = T1 at *
    have hstep := remove_from_slot.spec (i := n) htable (by omega) hlo hhi hle
    generalize remove_from_slot start fin T1 n = T2 at hstep ⊢
    -- a region behind the slot that has pages on both sides had them before
    have hbefore : ∀ k, n + 1 ≤ k → (slot T2 k).Around lo hi → (slot T1 k).Around lo hi := by
      intro k hk haround
      rcases hstep.other k (by omega) with he | hnew
      · rwa [he] at haround
      · obtain ⟨f, _, hf, _, hlow, _⟩ := haround
        have := (hnew f hf).2
        omega
    have hroom1 : (slot T1 n).Around lo hi → used_slots T1 < MAX_REGIONS := by
      intro haround
      rcases hused with hle1 | ⟨_, hnone⟩
      · exact lt_of_le_of_lt hle1 (hroom ⟨n, hfirst n le_rfl haround⟩)
      · exact absurd haround (hnone n le_rfl)
    refine ⟨fun f hf hout => hstep.keeps hroom1 f (hkeeps f hf hout) fun _ => hout, ?_,
      fun k hk hk' => hfirst k (by omega) (hbefore k hk hk')⟩
    rcases hused with hle1 | ⟨hle1, hnone⟩
    · rcases hstep.used with hle2 | ⟨hle2, haround⟩
      · exact Or.inl (by omega)
      · refine Or.inr ⟨by omega, fun k hk hk' => ?_⟩
        -- two regions with pages on both sides would share the last page before the range
        obtain ⟨f, g, hf, hg, hlow, hhigh⟩ := haround
        obtain ⟨f', g', hf', hg', hlow', hhigh'⟩ := hbefore k hk hk'
        have hshared := hapart ha n k (max f f') (has_between hf hg (by omega) (by omega))
          (has_between hf' hg' (by omega) (by omega))
        omega
    · refine Or.inr ⟨?_, fun k hk hk' => hnone k (by omega) (hbefore k hk hk')⟩
      rcases hstep.used with hle2 | ⟨_, haround⟩
      · omega
      · exact absurd haround (hnone n le_rfl)

/-- The page holds a byte between the addresses. -/
def TouchedPage (addr size f : Nat) : Prop := 0 < size ∧ addr < (f + 1) * 4096 ∧ f * 4096 < addr + size

/-- The page is one of the range when its ends are rounded to pages. -/
def RoundedPage (addr size f : Nat) : Prop := addr / 4096 ≤ f ∧ f < (addr + size + 4095) / 4096

/-- The pages of the range are taken out of the table. Nothing is added, and nothing else is lost as
long as one slot is free when it is needed. -/
theorem remove_region.exact {addr size : Word} (h : Table T)
    (hfit : addr.toNat + size.toNat + 4095 < 2 ^ 64) :
    let T' := remove_region addr (addr + size) T
    Table T' ∧ (∀ f, Covers T' f → Covers T f ∧ ¬RoundedPage addr.toNat size.toNat f) ∧
      (SlotsApart T → SlotsApart T') ∧
      (SlotsApart T → ((∃ k, (slot T k).Around (addr.toNat / 4096)
          ((addr.toNat + size.toNat + 4095) / 4096)) → used_slots T < MAX_REGIONS) →
        used_slots T' ≤ used_slots T + 1 ∧
        ∀ f, Covers T f → ¬RoundedPage addr.toNat size.toNat f → Covers T' f) := by
  have hsum : (addr + size).toNat = addr.toNat + size.toNat := by
    rw [BitVec.toNat_add]
    exact Nat.mod_eq_of_lt (by omega)
  have hend := page_up (x := addr + size) (by omega)
  rw [hsum] at hend
  obtain ⟨htable, hcov, hclear, hapart⟩ := remove_slots_loop h (page_down addr) hend (by omega)
    MAX_REGIONS le_rfl
  refine ⟨htable, fun f hf => ⟨hcov f hf, ?_⟩, hapart, fun ha hroom => ?_⟩
  · rintro ⟨h1, h2⟩
    obtain ⟨i, hi⟩ := hf
    by_cases hlt : i < MAX_REGIONS
    · exact hclear i hlt f hi ⟨h1, h2⟩
    · unfold remove_region at hi
      rw [slot_of_length_le (by rw [htable.length]; omega)] at hi
      exact not_has_no_region hi
  · obtain ⟨hkeeps, hused, -⟩ := remove_slots_keep h ha hroom (page_down addr) hend (by omega)
      MAX_REGIONS le_rfl
    refine ⟨?_, hkeeps⟩
    rcases hused with hle | ⟨hle, _⟩
    · exact hle.trans (Nat.le_succ _)
    · exact hle

/-- No page of the range is left in the table, and nothing else is added. -/
theorem remove_region.spec {addr size : Word} (h : Table T)
    (hfit : addr.toNat + size.toNat + 4095 < 2 ^ 64) :
    let T' := remove_region addr (addr + size) T
    Table T' ∧ (∀ f, Covers T' f → Covers T f ∧ ¬TouchedPage addr.toNat size.toNat f) ∧
      (SlotsApart T → SlotsApart T') := by
  obtain ⟨htable, hcov, hapart, _⟩ := remove_region.exact h hfit
  refine ⟨htable, fun f hf => ⟨(hcov f hf).1, ?_⟩, hapart⟩
  rintro ⟨_, h1, h2⟩
  exact (hcov f hf).2 ⟨by omega, by omega⟩

/-! ## The tags of the boot information -/

/-- The number of entries of a memory map. -/
def mmap_count (b : BootInfo) (tag : Nat) : Nat :=
  ((tag_size b tag).toNat - sizeof_mmap_tag) / (entry_size b tag).toNat

/-- The entries of a memory map, `entry_size` bytes apart. -/
def mmap_entries (b : BootInfo) (tag : Nat) : List MmapEntry :=
  (List.range (mmap_count b tag)).map fun i =>
    .ofBytes b (tag + sizeof_mmap_tag + i * (entry_size b tag).toNat)

/-- The entries that the memory map leaves to the operating system. -/
def usable_entries (b : BootInfo) (tag : Nat) : List MmapEntry :=
  if tag_type b tag = TAG_TYPE_MMAP then
    (mmap_entries b tag).filter (·.type = REGION_OS_USE)
  else []

/-- The sections of the kernel, `size_sect` bytes apart. -/
def kernel_sections (b : BootInfo) (tag : Nat) : List SectHead :=
  if tag_type b tag = TAG_TYPE_ELF then
    (List.range (num_sect b tag).toNat).map fun i =>
      .ofBytes b (tag + sizeof_elf_tag + i * (size_sect b tag).toNat)
  else []

/-- The frame lies wholly in the entry. -/
def MmapEntry.Holds (e : MmapEntry) (f : Nat) : Prop := WholePage e.addr.toNat e.size.toNat f

/-- The frame holds a byte of the section. -/
def SectHead.Touches (s : SectHead) (f : Nat) : Prop := TouchedPage s.addr.toNat s.size.toNat f

/-- The tags from `off` on, each one on the next multiple of 8. -/
inductive Tags (b : BootInfo) (fin : Nat) : Nat → List Nat → Prop
  | nil {off : Nat} (h : fin ≤ off) : Tags b fin off []
  | cons {off next : Nat} {ts : List Nat} (hlt : off < fin) (hsize : 8 ≤ (tag_size b off).toNat)
      (hfit : off + (tag_size b off).toNat ≤ fin)
      (hnext : next = off + ((tag_size b off).toNat + 7) / 8 * 8) (hrest : Tags b fin next ts) :
      Tags b fin off (off :: ts)

/-- A boot information with the tags `ts`. No range reaches the last page below 2^64. -/
structure WellFormed (b : BootInfo) (ts : List Nat) : Prop where
  tags : Tags b (total_size b).toNat sizeof_mboot_fixed ts
  mmap : ∀ t ∈ ts, tag_type b t = TAG_TYPE_MMAP → sizeof_mmap_tag ≤ (tag_size b t).toNat ∧
    (entry_size b t).toNat % 8 = 0 ∧ sizeof_mmap_entry ≤ (entry_size b t).toNat
  elf : ∀ t ∈ ts, tag_type b t = TAG_TYPE_ELF → (size_sect b t).toNat = sizeof_sect_head ∧
    sizeof_elf_tag + (num_sect b t).toNat * sizeof_sect_head ≤ (tag_size b t).toNat
  entries_fit : ∀ t ∈ ts, ∀ e ∈ usable_entries b t, e.addr.toNat + e.size.toNat + 4095 < 2 ^ 64
  sections_fit : ∀ t ∈ ts, ∀ s ∈ kernel_sections b t, s.addr.toNat + s.size.toNat + 4095 < 2 ^ 64

theorem tag_step_eq (h : (tag_size b tag).toNat + 7 < 2 ^ 32) :
    tag_step b tag = ((tag_size b tag).toNat + 7) / 8 * 8 := by
  unfold tag_step
  have hmask : ~~~(7 : BitVec 32) = ~~~(BitVec.ofNat 32 (2 ^ 3 - 1)) := rfl
  have hadd : (tag_size b tag + 7).toNat = (tag_size b tag).toNat + 7 := by
    rw [BitVec.toNat_add]
    exact Nat.mod_eq_of_lt h
  rw [hmask, toNat_and_not_mask, hadd]
  rfl

/-- The walk meets each tag once, in order. -/
theorem parse_tags.spec {fin off : Nat} {ts : List Nat} (h : Tags b fin off ts) (hoff : 7 ≤ off)
    (hfin : fin < 2 ^ 32) (fuel : Nat) (hfuel : ts.length < fuel) (T : List MemRegion) :
    parse_tags b fin fuel off T = ts.foldlM (parse_tag b) T := by
  induction h generalizing fuel T with
  | nil hle =>
    obtain ⟨n, rfl⟩ : ∃ n, fuel = n + 1 := ⟨fuel - 1, by simp at hfuel; omega⟩
    unfold parse_tags
    rw [if_neg (by omega)]
    rfl
  | cons hlt hsize hfit hnext hrest ih =>
    obtain ⟨n, rfl⟩ : ∃ n, fuel = n + 1 := ⟨fuel - 1, by omega⟩
    unfold parse_tags
    rw [if_pos hlt, tag_step_eq (by omega), ← hnext, List.foldlM_cons]
    congr 1
    funext T1
    exact ih (by omega) n (by simpa using hfuel) T1

theorem Tags.length_le {fin off : Nat} {ts : List Nat} (h : Tags b fin off ts) :
    ts.length ≤ fin - off := by
  induction h with
  | nil => simp
  | cons hlt hsize hfit hnext hrest ih =>
    rw [List.length_cons]
    omega

/-! ## What the table holds -/

/-- No frame lies in both entries. -/
def MmapEntry.Disjoint (e e' : MmapEntry) : Prop := ∀ f, e.Holds f → ¬e'.Holds f

/-- The entry gives no page of the section away. -/
def MmapEntry.Spares (e : MmapEntry) (s : SectHead) : Prop := ∀ f, e.Holds f → ¬s.Touches f

/-- The table after the entries `es` were added and the sections `ss` removed. -/
structure Parsed (es : List MmapEntry) (ss : List SectHead) (T : List MemRegion) : Prop
    extends Table T where
  inside : ∀ f, Covers T f → ∃ e ∈ es, e.Holds f
  outside : ∀ f, Covers T f → ∀ s ∈ ss, ¬s.Touches f
  apart : es.Pairwise MmapEntry.Disjoint → SlotsApart T

variable {es : List MmapEntry} {ss : List SectHead}

theorem parsed_no_regions : Parsed [] [] no_regions := by
  have hslot : ∀ i, slot no_regions i = no_region := by
    intro i
    by_cases hi : i < no_regions.length
    · rw [slot_eq_getElem hi]
      exact List.getElem_replicate _
    · exact slot_of_length_le (Nat.le_of_not_lt hi)
  have hnone : ∀ f, ¬Covers no_regions f := by
    rintro f ⟨i, hf⟩
    rw [hslot] at hf
    exact not_has_no_region hf
  refine ⟨⟨List.length_replicate, fun i => ?_⟩, fun f hf => absurd hf (hnone f), nofun, ?_⟩
  · rw [hslot]
    exact MemRegion.sound_of_invalid rfl
  · intro _ i j f hf
    exact absurd ⟨i, hf⟩ (hnone f)

/-- A usable entry is added that spares the sections so far. -/
theorem Parsed.add_entry (h : Parsed es ss T) {e : MmapEntry}
    (hfit : e.addr.toNat + e.size.toNat + 4095 < 2 ^ 64) (hspares : ∀ s ∈ ss, e.Spares s) (i : Nat) :
    Parsed (es ++ [e]) ss (add_usable_region e.addr e.size i T) := by
  have hfirst : e.addr.toNat + 4095 < 2 ^ 64 := by omega
  have hend : e.addr.toNat + e.size.toNat < 2 ^ 64 := by omega
  obtain ⟨htable, hslots, _⟩ := add_usable_region.spec (i := i) h.toTable hfirst hend
  have hcov : ∀ f, Covers (add_usable_region e.addr e.size i T) f → Covers T f ∨ e.Holds f := by
    rintro f ⟨j, hf⟩
    rcases hslots j with ⟨he, _⟩ | ⟨_, hnew⟩
    · exact Or.inl ⟨j, he ▸ hf⟩
    · exact Or.inr ((hnew f).mp hf)
  refine ⟨htable, fun f hf => ?_, fun f hf s hs => ?_, fun hd => ?_⟩
  · rcases hcov f hf with hT | hnew
    · obtain ⟨e', he', hin⟩ := h.inside f hT
      exact ⟨e', List.mem_append_left _ he', hin⟩
    · exact ⟨e, List.mem_append_right _ (List.mem_singleton_self e), hnew⟩
  · rcases hcov f hf with hT | hnew
    · exact h.outside f hT s hs
    · exact hspares s hs f hnew
  · obtain ⟨hes, _, hnew⟩ := List.pairwise_append.mp hd
    refine (h.apart hes).change (i := i) fun k => ?_
    rcases hslots k with ⟨he, _⟩ | ⟨hk, hnew'⟩
    · exact Or.inl he
    · refine Or.inr ⟨hk, fun f hf m _ hm => ?_⟩
      obtain ⟨e', he', hin⟩ := h.inside f ⟨m, hm⟩
      exact hnew e' he' e (List.mem_singleton_self e) f hin ((hnew' f).mp hf)

/-- A section is removed. -/
theorem Parsed.remove_section (h : Parsed es ss T) {s : SectHead}
    (hfit : s.addr.toNat + s.size.toNat + 4095 < 2 ^ 64) :
    Parsed es (ss ++ [s]) (remove_region s.addr (s.addr + s.size) T) := by
  obtain ⟨htable, hcov, hapart⟩ := remove_region.spec h.toTable hfit
  refine ⟨htable, fun f hf => h.inside f (hcov f hf).1, fun f hf s' hs' => ?_,
    fun hd => hapart (h.apart hd)⟩
  rcases List.mem_append.mp hs' with hs' | hs'
  · exact h.outside f (hcov f hf).1 s' hs'
  · obtain rfl := List.mem_singleton.mp hs'
    exact (hcov f hf).2

/-! ## The loops over entries and sections -/

theorem mmap_num_eq (hsize : sizeof_mmap_tag ≤ (tag_size b tag).toNat)
    (hentry : 24 ≤ (entry_size b tag).toNat) : (mmap_num b tag).toNat = mmap_count b tag := by
  have hlt := (tag_size b tag).isLt
  have hle : mmap_count b tag ≤ (tag_size b tag).toNat / 24 := by
    unfold mmap_count
    exact Nat.div_le_div (Nat.sub_le _ _) hentry (by decide)
  have hwide : ∀ x : BitVec 32, (x.setWidth 64).toNat = x.toNat := by
    intro x
    have := x.isLt
    rw [BitVec.toNat_setWidth]
    exact Nat.mod_eq_of_lt (by omega)
  have hsub : ((tag_size b tag).setWidth 64 - BitVec.ofNat 64 sizeof_mmap_tag).toNat =
      (tag_size b tag).toNat - sizeof_mmap_tag := by
    have h16 : (BitVec.ofNat 64 sizeof_mmap_tag).toNat = sizeof_mmap_tag := rfl
    rw [BitVec.toNat_sub_of_le (by rw [BitVec.le_def, hwide, h16]; exact hsize), hwide, h16]
  unfold mmap_num
  rw [BitVec.toInt_setWidth, BitVec.toNat_udiv, hsub, hwide]
  change (Int.bmod (mmap_count b tag) (2 ^ 32)).toNat = _
  rw [Int.bmod_eq_of_le (by omega) (by omega)]
  rfl

/-- The loop over the entries of a memory map, as far as it has come. -/
theorem mmap_loop (h : Parsed es ss T) (n : Nat) (entry : Nat → MmapEntry)
    (hentry : ∀ i < n, entry i = .ofBytes b (tag + sizeof_mmap_tag + i * sizeof_mmap_entry))
    (hfit : ∀ i < n, (entry i).type = REGION_OS_USE →
      (entry i).addr.toNat + (entry i).size.toNat + 4095 < 2 ^ 64 ∧ ∀ s ∈ ss, (entry i).Spares s) :
    Parsed (es ++ ((List.range n).map entry).filter (·.type = REGION_OS_USE)) ss
      ((List.range n).foldl (parse_mmap_entry b tag) T) := by
  induction n with
  | zero => simpa using h
  | succ n ih =>
    have hn := ih (fun i hi => hentry i (by omega)) fun i hi => hfit i (by omega)
    simp only [List.range_succ, List.foldl_append, List.foldl_cons, List.foldl_nil, List.map_append,
      List.map_cons, List.map_nil, List.filter_append, ← List.append_assoc]
    unfold parse_mmap_entry
    rw [← hentry n (Nat.lt_succ_self n)]
    by_cases hu : (entry n).type = REGION_OS_USE
    · obtain ⟨hfits, hspares⟩ := hfit n (Nat.lt_succ_self n) hu
      rw [if_pos hu, List.filter_cons_of_pos (by simpa using hu), List.filter_nil]
      exact hn.add_entry hfits hspares n
    · rw [if_neg hu, List.filter_cons_of_neg (by simpa using hu), List.filter_nil, List.append_nil]
      exact hn

theorem parse_mmap_tag.spec (h : Parsed es ss T) (htype : tag_type b tag = TAG_TYPE_MMAP)
    (hsize : sizeof_mmap_tag ≤ (tag_size b tag).toNat)
    (hentry : (entry_size b tag).toNat = sizeof_mmap_entry)
    (hfit : ∀ e ∈ usable_entries b tag, e.addr.toNat + e.size.toNat + 4095 < 2 ^ 64)
    (hspares : ∀ e ∈ usable_entries b tag, ∀ s ∈ ss, e.Spares s) :
    ∃ T', parse_mmap_tag b tag T = some T' ∧ Parsed (es ++ usable_entries b tag) ss T' := by
  have h0 : entry_size b tag ≠ 0 := by
    intro h0
    rw [h0] at hentry
    cases hentry
  unfold parse_mmap_tag
  rw [if_neg h0, mmap_num_eq hsize hentry.ge]
  refine ⟨_, rfl, ?_⟩
  have huse : usable_entries b tag = (mmap_entries b tag).filter (·.type = REGION_OS_USE) :=
    if_pos htype
  have hmem : ∀ i < mmap_count b tag,
      (MmapEntry.ofBytes b (tag + sizeof_mmap_tag + i * sizeof_mmap_entry)).type = REGION_OS_USE →
      MmapEntry.ofBytes b (tag + sizeof_mmap_tag + i * sizeof_mmap_entry) ∈ usable_entries b tag := by
    intro i hi hu
    rw [huse, List.mem_filter, mmap_entries, hentry]
    exact ⟨List.mem_map_of_mem (List.mem_range.mpr hi), decide_eq_true hu⟩
  rw [huse, mmap_entries, hentry]
  exact mmap_loop h _ _ (fun _ _ => rfl)
    fun i hi hu => ⟨hfit _ (hmem i hi hu), hspares _ (hmem i hi hu)⟩

theorem parse_elf_tag.spec (h : Parsed es ss T) (htype : tag_type b tag = TAG_TYPE_ELF)
    (hsize : (size_sect b tag).toNat = sizeof_sect_head)
    (hfit : ∀ s ∈ kernel_sections b tag, s.addr.toNat + s.size.toNat + 4095 < 2 ^ 64) :
    Parsed es (ss ++ kernel_sections b tag) (parse_elf_tag b tag T) := by
  unfold kernel_sections at hfit ⊢
  unfold parse_elf_tag
  rw [if_pos htype, hsize] at hfit ⊢
  generalize (num_sect b tag).toNat = n at hfit ⊢
  induction n with
  | zero => simpa using h
  | succ n ih =>
    simp only [List.range_succ, List.map_append, List.map_cons, List.map_nil, List.mem_append,
      List.mem_singleton, List.foldl_append, List.foldl_cons, List.foldl_nil,
      ← List.append_assoc] at hfit ⊢
    exact (ih fun s hs => hfit s (Or.inl hs)).remove_section (hfit _ (Or.inr rfl))

/-! ## The whole walk -/

/-- No usable entry gives a page back that a list of sections before it took out. -/
def KeepsRemoved (b : BootInfo) (ts : List Nat) : Prop :=
  ts.Pairwise fun t u => ∀ s ∈ kernel_sections b t, ∀ e ∈ usable_entries b u, e.Spares s

theorem parse_tag.spec (h : Parsed es ss T)
    (hmmap : tag_type b tag = TAG_TYPE_MMAP → sizeof_mmap_tag ≤ (tag_size b tag).toNat ∧
      (entry_size b tag).toNat = sizeof_mmap_entry)
    (helf : tag_type b tag = TAG_TYPE_ELF → (size_sect b tag).toNat = sizeof_sect_head)
    (hentries : ∀ e ∈ usable_entries b tag, e.addr.toNat + e.size.toNat + 4095 < 2 ^ 64)
    (hsections : ∀ s ∈ kernel_sections b tag, s.addr.toNat + s.size.toNat + 4095 < 2 ^ 64)
    (hspares : ∀ e ∈ usable_entries b tag, ∀ s ∈ ss, e.Spares s) :
    ∃ T', parse_tag b T tag = some T' ∧
      Parsed (es ++ usable_entries b tag) (ss ++ kernel_sections b tag) T' := by
  unfold parse_tag
  by_cases hm : tag_type b tag = TAG_TYPE_MMAP
  · have hnot : kernel_sections b tag = [] := if_neg (by rw [hm]; decide)
    rw [if_pos hm, hnot, List.append_nil]
    exact parse_mmap_tag.spec h hm (hmmap hm).1 (hmmap hm).2 hentries hspares
  · have hnot : usable_entries b tag = [] := if_neg hm
    rw [if_neg hm, hnot, List.append_nil]
    by_cases he : tag_type b tag = TAG_TYPE_ELF
    · rw [if_pos he]
      exact ⟨_, rfl, parse_elf_tag.spec h he (helf he) hsections⟩
    · have hnone : kernel_sections b tag = [] := if_neg he
      rw [if_neg he, hnone, List.append_nil]
      exact ⟨T, rfl, h⟩

theorem parse_all_tags {ts : List Nat} (hw : ∀ t ∈ ts,
      (tag_type b t = TAG_TYPE_MMAP → sizeof_mmap_tag ≤ (tag_size b t).toNat ∧
        (entry_size b t).toNat = sizeof_mmap_entry) ∧
      (tag_type b t = TAG_TYPE_ELF → (size_sect b t).toNat = sizeof_sect_head) ∧
      (∀ e ∈ usable_entries b t, e.addr.toNat + e.size.toNat + 4095 < 2 ^ 64) ∧
      (∀ s ∈ kernel_sections b t, s.addr.toNat + s.size.toNat + 4095 < 2 ^ 64))
    (hkeeps : KeepsRemoved b ts) (h : Parsed es ss T)
    (hspares : ∀ t ∈ ts, ∀ e ∈ usable_entries b t, ∀ s ∈ ss, e.Spares s) :
    ∃ T', ts.foldlM (parse_tag b) T = some T' ∧
      Parsed (es ++ ts.flatMap (usable_entries b)) (ss ++ ts.flatMap (kernel_sections b)) T' := by
  induction ts generalizing es ss T with
  | nil => exact ⟨T, rfl, by simpa using h⟩
  | cons t ts ih =>
    obtain ⟨hmmap, helf, hentries, hsections⟩ := hw t List.mem_cons_self
    obtain ⟨hfirst, hrest⟩ := List.pairwise_cons.mp hkeeps
    obtain ⟨T1, hT1, h1⟩ := parse_tag.spec h hmmap helf hentries hsections
      (hspares t List.mem_cons_self)
    obtain ⟨T', hT', h'⟩ := ih (fun u hu => hw u (List.mem_cons_of_mem _ hu)) hrest h1
      (fun u hu e he s hs => by
        rcases List.mem_append.mp hs with hs | hs
        · exact hspares u (List.mem_cons_of_mem _ hu) e he s hs
        · exact hfirst u hu s hs e he)
    refine ⟨T', ?_, by simpa [List.flatMap_cons, List.append_assoc] using h'⟩
    rw [List.foldlM_cons, hT1]
    exact hT'

/-- The walk over a boot information ends with a table of usable frames without the kernel. -/
theorem parse_mboot_tags.spec {ts : List Nat} {s : Machine} (hw : WellFormed b ts)
    (hentry : ∀ t ∈ ts, tag_type b t = TAG_TYPE_MMAP → (entry_size b t).toNat = sizeof_mmap_entry)
    (hkeeps : KeepsRemoved b ts) (hs : s.usable_regions = no_regions) :
    ∃ T, parse_mboot_tags b s = some { s with usable_regions := T } ∧
      Parsed (ts.flatMap (usable_entries b)) (ts.flatMap (kernel_sections b)) T := by
  have htotal := (total_size b).isLt
  have hlen := hw.tags.length_le
  obtain ⟨T, hT, hparsed⟩ := parse_all_tags
    (fun t ht => ⟨fun hm => ⟨(hw.mmap t ht hm).1, hentry t ht hm⟩, fun he => (hw.elf t ht he).1,
      hw.entries_fit t ht, hw.sections_fit t ht⟩) hkeeps parsed_no_regions
    fun _ _ _ _ s hs => absurd hs List.not_mem_nil
  refine ⟨T, ?_, by simpa using hparsed⟩
  unfold parse_mboot_tags
  rw [parse_tags.spec hw.tags (by decide) htotal _ (by omega), hs, hT]
  rfl

/-- The `n` bytes of a number, little-endian. -/
def le (n v : Nat) : List (BitVec 8) := (List.range n).map fun i => BitVec.ofNat 8 (v / 256 ^ i)

def tag_bytes (type : Nat) (body : List (BitVec 8)) : List (BitVec 8) :=
  le 4 type ++ le 4 (8 + body.length) ++ body ++ List.replicate ((8 - body.length % 8) % 8) 0

/-- A memory map with entries of the given size. -/
def mmap_bytes (entry_size : Nat) (entries : List (Nat × Nat × Nat)) : List (BitVec 8) :=
  tag_bytes 6 (le 4 entry_size ++ le 4 0 ++ entries.flatMap fun (addr, size, type) =>
    le 8 addr ++ le 8 size ++ le 4 type ++ List.replicate (entry_size - 20) 0)

/-- A list of sections, each one with its address and size. -/
def elf_bytes (sections : List (Nat × Nat)) : List (BitVec 8) :=
  tag_bytes 9 (le 4 sections.length ++ le 4 64 ++ le 4 0 ++ sections.flatMap fun (addr, size) =>
    List.replicate 16 0 ++ le 8 addr ++ List.replicate 8 0 ++ le 8 size ++ List.replicate 24 0)

def boot_bytes (tags : List (List (BitVec 8))) : BootInfo := fun i =>
  (le 4 (8 + tags.flatten.length + 8) ++ le 4 0 ++ tags.flatten ++ tag_bytes 0 []).getD i 0

end JamsOs
