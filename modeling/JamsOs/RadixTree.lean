-- Trees of tables in a memory of frames. A table is one frame, with one entry for each
-- index, and an entry may name the frame of a child. The frames of a tree are counted as
-- a multiset, so that `Nodup` says at once that no two tables overlap, that no table is a
-- page, and that the graph is a tree.
import Mathlib.Algebra.BigOperators.Group.Multiset.Basic
import Mathlib.Algebra.Order.BigOperators.Group.Finset
import Mathlib.Algebra.Order.Group.Multiset
import Mathlib.Data.Fintype.BigOperators
import Mathlib.Tactic

namespace RadixTree

/-! ## Sums of multisets without duplicates -/

section Sums

variable {ι : Type} {S : Finset ι} {g : ι → Multiset Nat}

theorem mem_sum_of_mem {i : ι} {a : Nat} (hi : i ∈ S) (ha : a ∈ g i) : a ∈ ∑ j ∈ S, g j :=
  Multiset.mem_sum.mpr ⟨i, hi, ha⟩

variable [DecidableEq ι]

theorem nodup_of_sum_nodup {i : ι} (h : (∑ j ∈ S, g j).Nodup) (hi : i ∈ S) : (g i).Nodup := by
  rw [← Finset.add_sum_erase S g hi, Multiset.nodup_add] at h
  exact h.1

/-- Two summands of a sum without duplicates share no element. -/
theorem notMem_of_sum_nodup {i j : ι} {a : Nat} (h : (∑ j ∈ S, g j).Nodup) (hi : i ∈ S)
    (hj : j ∈ S) (hij : j ≠ i) (ha : a ∈ g i) : a ∉ g j := by
  rw [← Finset.add_sum_erase S g hi, Multiset.nodup_add] at h
  intro haj
  exact Multiset.disjoint_left.mp h.2.2 ha (mem_sum_of_mem (Finset.mem_erase.mpr ⟨hij, hj⟩) haj)

/-- When one summand changes, the sum changes by as much. -/
theorem sum_exchange {g' : ι → Multiset Nat} {i : ι} {a b : Multiset Nat} (hi : i ∈ S)
    (hoff : ∀ j ∈ S, j ≠ i → g' j = g j) (hon : g' i + a = g i + b) :
    (∑ j ∈ S, g' j) + a = (∑ j ∈ S, g j) + b := by
  have hrest : ∑ j ∈ S.erase i, g' j = ∑ j ∈ S.erase i, g j := by
    apply Finset.sum_congr rfl
    intro j hj
    exact hoff j (Finset.mem_of_mem_erase hj) (Finset.ne_of_mem_erase hj)
  rw [← Finset.add_sum_erase S g' hi, ← Finset.add_sum_erase S g hi, hrest, add_right_comm, hon,
    add_right_comm]

end Sums

/-! ## The frames of a tree -/

variable {ι W : Type} [Fintype ι] (child : W → Option Nat)

/-- The frames of the tree of height `k` with root `r`. A tree of height 0 is a page. -/
def frames : Nat → (Nat → ι → W) → Nat → Multiset Nat
  | 0, _, r => {r}
  | k + 1, m, r => r ::ₘ ∑ i, (child (m r i)).elim 0 (frames k m)

/-- The frames of the tree that are tables, not pages. -/
def tables : Nat → (Nat → ι → W) → Nat → Multiset Nat
  | 0, _, _ => 0
  | k + 1, m, r => r ::ₘ ∑ i, (child (m r i)).elim 0 (tables k m)

/-- The frames of the tree of height `k` that an entry names: none when it names no child. -/
def sub (k : Nat) (m : Nat → ι → W) (w : W) : Multiset Nat := (child w).elim 0 (frames child k m)

/-- The frames below the entries `S` of the table `r`. -/
def forest (S : Finset ι) (k : Nat) (m : Nat → ι → W) (r : Nat) : Multiset Nat :=
  ∑ i ∈ S, sub child k m (m r i)

variable {child} {m m' : Nat → ι → W} {k K r t f : Nat} {i : ι} {S : Finset ι}

theorem frames_zero (m : Nat → ι → W) (r : Nat) : frames child 0 m r = {r} := rfl

theorem frames_succ (k : Nat) (m : Nat → ι → W) (r : Nat) :
    frames child (k + 1) m r = r ::ₘ forest child Finset.univ k m r := rfl

theorem sub_of_none {w : W} (h : child w = none) : sub child k m w = 0 := by
  simp [sub, h]

theorem sub_of_some {w : W} {c : Nat} (h : child w = some c) :
    sub child k m w = frames child k m c := by
  simp [sub, h]

theorem mem_forest : f ∈ forest child S k m r ↔ ∃ i ∈ S, f ∈ sub child k m (m r i) :=
  Multiset.mem_sum

theorem mem_forest_of_mem_sub (hi : i ∈ S) (h : f ∈ sub child k m (m r i)) :
    f ∈ forest child S k m r := mem_forest.mpr ⟨i, hi, h⟩

theorem mem_forest_of_child {c : Nat} (hi : i ∈ S) (hc : child (m r i) = some c)
    (h : f ∈ frames child k m c) : f ∈ forest child S k m r := by
  refine mem_forest_of_mem_sub hi ?_
  rw [sub_of_some hc]
  exact h

/-- A table none of whose entries names a child has nothing below it. -/
theorem forest_eq_zero (h : ∀ i ∈ S, child (m r i) = none) : forest child S k m r = 0 :=
  Finset.sum_eq_zero fun i hi => sub_of_none (h i hi)

/-- A table with a single child has below it what stands below that child. -/
theorem forest_of_only (hi : i ∈ S) (h : ∀ j ∈ S, j ≠ i → child (m r j) = none) :
    forest child S k m r = sub child k m (m r i) :=
  Finset.sum_eq_single_of_mem i hi fun j hj hne => sub_of_none (h j hj hne)

/-- The frames of a tree whose root has a single child. -/
theorem frames_of_only {c : Nat} (hc : child (m r i) = some c)
    (h : ∀ j, j ≠ i → child (m r j) = none) :
    frames child (k + 1) m r = r ::ₘ frames child k m c := by
  rw [frames_succ, forest_of_only (Finset.mem_univ i) fun j _ hj => h j hj, sub_of_some hc]

theorem forest_mono {S' : Finset ι} (h : S ⊆ S') : forest child S k m r ≤ forest child S' k m r :=
  Finset.sum_le_sum_of_subset h

/-- Two tables with the same entries have the same frames below them. -/
theorem forest_of_rows {r' : Nat} (h : ∀ i ∈ S, m r' i = m r i) :
    forest child S k m r' = forest child S k m r := by
  apply Finset.sum_congr rfl
  intro i hi
  rw [h i hi]

theorem forest_filter (p : ι → Prop) [DecidablePred p] :
    forest child (S.filter p) k m r + forest child (S.filter fun i => ¬p i) k m r =
      forest child S k m r := Finset.sum_filter_add_sum_filter_not S p _

theorem root_mem_frames (k : Nat) (m : Nat → ι → W) (r : Nat) : r ∈ frames child k m r := by
  cases k with
  | zero => exact Multiset.mem_singleton_self r
  | succ k => exact Multiset.mem_cons_self r _

theorem root_mem_tables (k : Nat) (m : Nat → ι → W) (r : Nat) : r ∈ tables child (k + 1) m r :=
  Multiset.mem_cons_self r _

theorem mem_frames_of_mem_tables (h : f ∈ tables child k m r) : f ∈ frames child k m r := by
  induction k generalizing r with
  | zero => simp [tables] at h
  | succ k ih =>
    rw [tables, Multiset.mem_cons] at h
    rw [frames_succ, Multiset.mem_cons]
    rcases h with h | h
    · exact Or.inl h
    · right
      obtain ⟨i, hi, hf⟩ := Multiset.mem_sum.mp h
      refine mem_sum_of_mem hi ?_
      rcases hc : child (m r i) with _ | c
      · simp [hc] at hf
      · simp only [hc, Option.elim_some] at hf
        rw [sub_of_some hc]
        exact ih hf

theorem tables_of_child {c : Nat} (hc : child (m r i) = some c) (h : f ∈ tables child k m c) :
    f ∈ tables child (k + 1) m r := by
  rw [tables, Multiset.mem_cons]
  right
  refine mem_sum_of_mem (Finset.mem_univ i) ?_
  simpa [hc] using h

theorem frames_of_child {c : Nat} (hc : child (m r i) = some c) (h : f ∈ frames child k m c) :
    f ∈ frames child (k + 1) m r := by
  rw [frames_succ]
  exact Multiset.mem_cons_of_mem (mem_forest_of_child (Finset.mem_univ i) hc h)

/-- The frames of a tree are decided by its tables. -/
theorem frames_congr (h : ∀ f ∈ tables child k m r, m' f = m f) :
    frames child k m' r = frames child k m r := by
  induction k generalizing r with
  | zero => rfl
  | succ k ih =>
    have hr : m' r = m r := h r (Multiset.mem_cons_self r _)
    rw [frames_succ, frames_succ]
    unfold forest
    rw [hr]
    refine congrArg _ (Finset.sum_congr rfl ?_)
    intro i _
    rcases hc : child (m r i) with _ | c
    · rw [sub_of_none hc, sub_of_none hc]
    · rw [sub_of_some hc, sub_of_some hc]
      exact ih fun f hf => h f (tables_of_child hc hf)

theorem sub_congr {w : W} (h : ∀ f ∈ sub child k m w, m' f = m f) :
    sub child k m' w = sub child k m w := by
  rcases hc : child w with _ | c
  · rw [sub_of_none hc, sub_of_none hc]
  · rw [sub_of_some hc] at h
    rw [sub_of_some hc, sub_of_some hc]
    exact frames_congr fun f hf => h f (mem_frames_of_mem_tables hf)

theorem forest_congr (hr : ∀ i ∈ S, m' r i = m r i)
    (h : ∀ f ∈ forest child S k m r, m' f = m f) :
    forest child S k m' r = forest child S k m r := by
  unfold forest
  apply Finset.sum_congr rfl
  intro i hi
  rw [hr i hi]
  exact sub_congr fun f hf => h f (mem_sum_of_mem hi hf)

/-! ## A node of a tree -/

/-- `t` is the root of a tree of height `k` inside the tree of height `K` with root `r`. -/
inductive At (child : W → Option Nat) (m : Nat → ι → W) : Nat → Nat → Nat → Nat → Prop
  | here {k t : Nat} : At child m k t k t
  | down {K r k t c : Nat} {i : ι} :
      child (m r i) = some c → At child m K c k t → At child m (K + 1) r k t

omit [Fintype ι] in
theorem At.height_le (h : At child m K r k t) : k ≤ K := by
  induction h with
  | here => exact Nat.le_refl _
  | down _ _ ih => omega

theorem At.mem_frames (h : At child m K r k t) : t ∈ frames child K m r := by
  induction h with
  | here => exact root_mem_frames _ _ _
  | down hc _ ih => exact frames_of_child hc ih

theorem At.frames_subset (h : At child m K r k t) (hf : f ∈ frames child k m t) :
    f ∈ frames child K m r := by
  induction h with
  | here => exact hf
  | down hc _ ih => exact frames_of_child hc (ih hf)

omit [Fintype ι] in
theorem At.into {c : Nat} (h : At child m K r (k + 1) t) (hc : child (m t i) = some c) :
    At child m K r k c := by
  generalize hk : k + 1 = n at h
  induction h with
  | here =>
    subst hk
    exact .down hc .here
  | down hd _ ih => exact .down hd (ih hc hk)

theorem At.sub_subset (h : At child m K r (k + 1) t) (hf : f ∈ sub child k m (m t i)) :
    f ∈ frames child K m r := by
  rcases hc : child (m t i) with _ | c
  · simp [sub_of_none hc] at hf
  · rw [sub_of_some hc] at hf
    exact (h.into hc).frames_subset hf

/-! ## The change of one entry -/

/-- The root of a tree without duplicates is not below itself. -/
theorem root_notMem_forest (hnd : (frames child (k + 1) m r).Nodup) :
    r ∉ forest child Finset.univ k m r := by
  rw [frames_succ, Multiset.nodup_cons] at hnd
  exact hnd.1

theorem forest_nodup (hnd : (frames child (k + 1) m r).Nodup) :
    (forest child Finset.univ k m r).Nodup := by
  rw [frames_succ, Multiset.nodup_cons] at hnd
  exact hnd.2

variable [DecidableEq ι]

theorem sub_nodup_of_forest (hnd : (forest child S k m r).Nodup) (hi : i ∈ S) :
    (sub child k m (m r i)).Nodup :=
  nodup_of_sum_nodup (g := fun i => sub child k m (m r i)) hnd hi

/-- What stands below one entry is not below another entry of the same table. -/
theorem notMem_sub_of_ne {j : ι} (hnd : (forest child S k m r).Nodup) (hi : i ∈ S) (hj : j ∈ S)
    (hij : j ≠ i) (hf : f ∈ sub child k m (m r i)) : f ∉ sub child k m (m r j) :=
  notMem_of_sum_nodup (g := fun i => sub child k m (m r i)) hnd hi hj hij hf

/-- When entry `i` of a table changes, and nothing else that its other entries name, the
frames below the table change by the frames below that entry. -/
theorem forest_exchange (hnd : (forest child S k m t).Nodup) (hi : i ∈ S)
    (hrow : ∀ j ∈ S, j ≠ i → m' t j = m t j)
    (hoff : ∀ f ∈ forest child S k m t, f ∉ sub child k m (m t i) → m' f = m f) :
    forest child S k m' t + sub child k m (m t i) =
      forest child S k m t + sub child k m' (m' t i) := by
  refine sum_exchange hi ?_ (add_comm _ _)
  intro j hj hji
  rw [hrow j hj hji]
  apply sub_congr
  intro f hf
  exact hoff f (mem_sum_of_mem hj hf) fun hfi => notMem_sub_of_ne hnd hi hj hji hfi hf

section

variable {c : Nat} {j : ι} (hnd : (r ::ₘ forest child S K m r).Nodup) (hj : j ∈ S)
  (hc : child (m r j) = some c)

include hnd hj hc

theorem child_nodup : (frames child K m c).Nodup := by
  have hsub := sub_nodup_of_forest (Multiset.nodup_cons.mp hnd).2 hj
  rwa [sub_of_some hc] at hsub

variable (hat : At child m K c (k + 1) t)
  (hoff : ∀ f ∈ r ::ₘ forest child S K m r, f ≠ t → f ∉ sub child k m (m t i) → m' f = m f)

include hat hoff

omit [DecidableEq ι] in
/-- When an entry of the table `t` changes, with what is below it, a table above `t` stays. -/
theorem root_kept : m' r = m r := by
  have hr := (Multiset.nodup_cons.mp hnd).1
  refine hoff r (Multiset.mem_cons_self r _) ?_
    fun hm => hr (mem_forest_of_child hj hc (hat.sub_subset hm))
  rintro rfl
  exact hr (mem_forest_of_child hj hc hat.mem_frames)

/-- So does all that stands below its other entries. -/
theorem other_kept {j' : ι} (hj' : j' ∈ S) (hne : j' ≠ j) (hf : f ∈ sub child K m (m r j')) :
    m' f = m f := by
  have hfc : ∀ g ∈ frames child K m c, f ≠ g := by
    rintro g hg rfl
    refine notMem_sub_of_ne (Multiset.nodup_cons.mp hnd).2 hj hj' hne ?_ hf
    rw [sub_of_some hc]
    exact hg
  exact hoff f (Multiset.mem_cons_of_mem (mem_forest_of_mem_sub hj' hf)) (hfc t hat.mem_frames)
    fun hm => hfc f (hat.sub_subset hm) rfl

/-- The frames below that table change as those below its child do. -/
theorem forest_exchange_below (hex : frames child K m' c + sub child k m (m t i) =
      frames child K m c + sub child k m' (m' t i)) :
    forest child S K m' r + sub child k m (m t i) =
      forest child S K m r + sub child k m' (m' t i) := by
  have hmr := root_kept hnd hj hc hat hoff
  refine sum_exchange hj ?_ ?_
  · intro j' hj' hne
    rw [hmr]
    exact sub_congr fun f hf => other_kept hnd hj hc hat hoff hj' hne hf
  · rw [hmr, sub_of_some hc, sub_of_some hc]
    exact hex

end

/-- The same for the change of one entry of a table anywhere in a tree. -/
theorem frames_exchange (hat : At child m K r (k + 1) t) (hnd : (frames child K m r).Nodup)
    (hrow : ∀ j, j ≠ i → m' t j = m t j)
    (hoff : ∀ f ∈ frames child K m r, f ≠ t → f ∉ sub child k m (m t i) → m' f = m f) :
    frames child K m' r + sub child k m (m t i) =
      frames child K m r + sub child k m' (m' t i) := by
  generalize hk : k + 1 = n at hat
  induction hat with
  | here =>
    subst hk
    rename_i t
    have ht := root_notMem_forest hnd
    rw [frames_succ, frames_succ, Multiset.cons_add, Multiset.cons_add]
    refine congrArg _ (forest_exchange (forest_nodup hnd) (Finset.mem_univ i)
      (fun j _ hj => hrow j hj) ?_)
    intro f hf hfi
    have hft : f ≠ t := fun he => ht (he ▸ hf)
    exact hoff f (Multiset.mem_cons_of_mem hf) hft hfi
  | @down K r n t c j hc hat ih =>
    subst hk
    have hcn := child_nodup hnd (Finset.mem_univ j) hc
    have ih := ih hcn hrow (fun f hf => hoff f (frames_of_child hc hf)) rfl
    rw [frames_succ, frames_succ, Multiset.cons_add, Multiset.cons_add]
    exact congrArg _ (forest_exchange_below hnd (Finset.mem_univ j) hc hat hoff ih)

/-- A table below a change of one of its entries keeps its place. -/
theorem At.kept (hat : At child m K r (k + 1) t) (hnd : (frames child K m r).Nodup)
    (hoff : ∀ f ∈ frames child K m r, f ≠ t → f ∉ sub child k m (m t i) → m' f = m f) :
    At child m' K r (k + 1) t := by
  generalize hk : k + 1 = n at hat
  induction hat with
  | here => exact .here
  | @down K r n t c j hc hat ih =>
    subst hk
    have hmr : m' r = m r := root_kept hnd (Finset.mem_univ j) hc hat hoff
    have hcn := child_nodup hnd (Finset.mem_univ j) hc
    exact .down (by rw [hmr]; exact hc) (ih hcn (fun f hf => hoff f (frames_of_child hc hf)) rfl)

/-! ## The entries of a rooted forest -/

/-- The entry `i` of the table `t` leads to trees of height `k`. The table is the root `r`,
where only the entries `S` count, or it stands below one of these. -/
inductive SlotAt (child : W → Option Nat) (m : Nat → ι → W) (S : Finset ι) (K r : Nat) :
    Nat → Nat → ι → Prop
  | root {i : ι} : i ∈ S → SlotAt child m S K r K r i
  | below {j i : ι} {c k t : Nat} :
      j ∈ S → child (m r j) = some c → At child m K c (k + 1) t → SlotAt child m S K r k t i

omit [Fintype ι] [DecidableEq ι] in
/-- From an entry to the entries of the table that it names. -/
theorem SlotAt.into {c : Nat} (h : SlotAt child m S K r (k + 1) t i) (hc : child (m t i) = some c)
    (j : ι) : SlotAt child m S K r k c j := by
  generalize hk : k + 1 = n at h
  cases h with
  | root hi =>
    subst hk
    exact .below hi hc .here
  | below hj hd hat =>
    subst hk
    exact .below hj hd (hat.into hc)

omit [DecidableEq ι] in
theorem SlotAt.table_mem (h : SlotAt child m S K r k t i) : t ∈ r ::ₘ forest child S K m r := by
  cases h with
  | root => exact Multiset.mem_cons_self _ _
  | below hj hc hat => exact Multiset.mem_cons_of_mem (mem_forest_of_child hj hc hat.mem_frames)

omit [DecidableEq ι] in
/-- Only the entries of the root lead to trees of full height. -/
theorem SlotAt.table_ne_root (h : SlotAt child m S K r k t i)
    (hnd : (r ::ₘ forest child S K m r).Nodup) (hk : k ≠ K) : t ≠ r := by
  rintro rfl
  cases h with
  | root => exact hk rfl
  | below hj hc hat =>
    exact (Multiset.nodup_cons.mp hnd).1 (mem_forest_of_child hj hc hat.mem_frames)

omit [DecidableEq ι] in
theorem SlotAt.sub_subset (h : SlotAt child m S K r k t i) (hf : f ∈ sub child k m (m t i)) :
    f ∈ forest child S K m r := by
  cases h with
  | root hi => exact mem_forest_of_mem_sub hi hf
  | below hj hc hat => exact mem_forest_of_child hj hc (hat.sub_subset hf)

section

variable (h : SlotAt child m S K r k t i) (hnd : (r ::ₘ forest child S K m r).Nodup)

include h hnd

/-- The table of an entry is not below that entry. -/
theorem SlotAt.table_notMem : t ∉ sub child k m (m t i) := by
  obtain ⟨hr, hfor⟩ := Multiset.nodup_cons.mp hnd
  cases h with
  | root hi => exact fun hm => hr (mem_forest_of_mem_sub hi hm)
  | @below j _ c _ _ hj hc hat =>
    have hcn := child_nodup hnd hj hc
    clear hr hfor hnd hj hc
    generalize hk : k + 1 = n at hat
    induction hat with
    | here =>
      subst hk
      intro hm
      exact root_notMem_forest hcn (mem_forest_of_mem_sub (Finset.mem_univ _) hm)
    | @down K r n t c j hc hat ih =>
      have hcn' := sub_nodup_of_forest (forest_nodup hcn) (Finset.mem_univ j)
      rw [sub_of_some hc] at hcn'
      exact ih hcn' hk

/-- When one entry of a rooted forest changes, with nothing else that other entries name, the
frames of the forest change by the frames below that entry. -/
theorem forest_exchange_at (hrow : ∀ j, j ≠ i → m' t j = m t j)
    (hoff : ∀ f ∈ r ::ₘ forest child S K m r, f ≠ t → f ∉ sub child k m (m t i) → m' f = m f) :
    forest child S K m' r + sub child k m (m t i) =
      forest child S K m r + sub child k m' (m' t i) := by
  obtain ⟨hr, hfor⟩ := Multiset.nodup_cons.mp hnd
  cases h with
  | root hi =>
    refine forest_exchange hfor hi (fun j _ hj => hrow j hj) ?_
    intro f hf hfi
    exact hoff f (Multiset.mem_cons_of_mem hf) (fun he => hr (he ▸ hf)) hfi
  | @below j _ c _ _ hj hc hat =>
    refine forest_exchange_below hnd hj hc hat hoff ?_
    refine frames_exchange hat (child_nodup hnd hj hc) hrow fun f hf => hoff f ?_
    exact Multiset.mem_cons_of_mem (mem_forest_of_child hj hc hf)

/-- The entry that changes keeps its place. -/
theorem SlotAt.kept
    (hoff : ∀ f ∈ r ::ₘ forest child S K m r, f ≠ t → f ∉ sub child k m (m t i) → m' f = m f) :
    SlotAt child m' S K r k t i := by
  cases h with
  | root hi => exact .root hi
  | @below j _ c _ _ hj hc hat =>
    have hmr : m' r = m r := root_kept hnd hj hc hat hoff
    refine .below hj (by rw [hmr]; exact hc)
      (hat.kept (i := i) (child_nodup hnd hj hc) fun f hf => hoff f ?_)
    exact Multiset.mem_cons_of_mem (mem_forest_of_child hj hc hf)

end

omit [Fintype ι] [DecidableEq ι] in
theorem At.congr (h : At child m K r k t) (hm : ∀ k' x, At child m K r k' x → k < k' → m' x = m x) :
    At child m' K r k t := by
  induction h with
  | here => exact .here
  | @down K r k t c i hc hat ih =>
    have hroot : m' r = m r := hm (K + 1) r .here (Nat.lt_succ_of_le hat.height_le)
    refine .down (i := i) (by rw [hroot]; exact hc) (ih fun k' x hx hk => ?_)
    exact hm k' x (.down hc hx) hk

omit [Fintype ι] [DecidableEq ι] in
/-- An entry stays in the tree as long as the tables above its own stay as they are. -/
theorem SlotAt.congr (h : SlotAt child m S K r k t i)
    (hm : ∀ k' x j, SlotAt child m S K r k' x j → k < k' → m' x = m x) :
    SlotAt child m' S K r k t i := by
  cases h with
  | root hi => exact .root hi
  | @below j _ c _ _ hj hc hat =>
    have hroot : m' r = m r := hm K r j (.root hj) hat.height_le
    refine .below hj (by rw [hroot]; exact hc) (hat.congr fun k' x hx hk => ?_)
    cases k' with
    | zero => omega
    | succ k' => exact hm k' x j (.below hj hc hx) (by omega)

/-! ## Paths -/

/-- The frame that a path of indices leads to. -/
def follow (child : W → Option Nat) (m : Nat → ι → W) : Nat → List ι → Option Nat
  | r, [] => some r
  | r, i :: path => (child (m r i)).bind fun c => follow child m c path

omit [DecidableEq ι] in
theorem mem_frames_of_follow {path : List ι} (h : follow child m r path = some f)
    (hlen : path.length ≤ k) : f ∈ frames child k m r := by
  induction path generalizing r k with
  | nil =>
    cases h
    exact root_mem_frames _ _ _
  | cons i path ih =>
    obtain ⟨c, hc, hf⟩ := Option.bind_eq_some_iff.mp h
    cases k with
    | zero => simp at hlen
    | succ k => exact frames_of_child hc (ih hf (by simpa using hlen))

omit [DecidableEq ι] in
theorem mem_forest_of_follow {path : List ι} (h : follow child m r (i :: path) = some f) (hi : i ∈ S)
    (hlen : path.length ≤ k) : f ∈ forest child S k m r := by
  obtain ⟨c, hc, hf⟩ := Option.bind_eq_some_iff.mp h
  refine mem_forest_of_mem_sub hi ?_
  rw [sub_of_some hc]
  exact mem_frames_of_follow hf hlen

/-- The paths that start with entries `S` of the root and lead to the same frame are the same
path. -/
theorem follow_unique {path path' : List ι} (hnd : (r ::ₘ forest child S k m r).Nodup)
    (h : follow child m r path = some f) (h' : follow child m r path' = some f)
    (hS : ∀ i ∈ path.head?, i ∈ S) (hS' : ∀ i ∈ path'.head?, i ∈ S)
    (hlen : path.length ≤ k + 1) (hlen' : path'.length ≤ k + 1) : path = path' := by
  obtain ⟨hr, hfor⟩ := Multiset.nodup_cons.mp hnd
  induction path generalizing path' r k S with
  | nil =>
    cases h
    cases path' with
    | nil => rfl
    | cons j path' =>
      simp only [List.length_cons, Nat.add_le_add_iff_right] at hlen'
      exact absurd (mem_forest_of_follow h' (hS' j rfl) hlen') hr
  | cons i path ih =>
    simp only [List.length_cons, Nat.add_le_add_iff_right] at hlen
    have hi := hS i rfl
    cases path' with
    | nil =>
      cases h'
      exact absurd (mem_forest_of_follow h hi hlen) hr
    | cons j path' =>
      simp only [List.length_cons, Nat.add_le_add_iff_right] at hlen'
      have hj := hS' j rfl
      obtain ⟨c, hc, hf⟩ := Option.bind_eq_some_iff.mp h
      obtain ⟨c', hc', hf'⟩ := Option.bind_eq_some_iff.mp h'
      have hmem : f ∈ sub child k m (m r i) := by
        rw [sub_of_some hc]
        exact mem_frames_of_follow hf hlen
      have hmem' : f ∈ sub child k m (m r j) := by
        rw [sub_of_some hc']
        exact mem_frames_of_follow hf' hlen'
      have hij : j = i := by
        by_contra hne
        exact notMem_sub_of_ne hfor hi hj hne hmem hmem'
      subst hij
      rw [hc] at hc'
      cases hc'
      have hcn := sub_nodup_of_forest hfor hj
      rw [sub_of_some hc] at hcn
      cases k with
      | zero =>
        rw [List.length_eq_zero_iff.mp (Nat.le_zero.mp hlen),
          List.length_eq_zero_iff.mp (Nat.le_zero.mp hlen')]
      | succ k =>
        rw [frames_succ] at hcn
        obtain ⟨hr', hfor'⟩ := Multiset.nodup_cons.mp hcn
        rw [ih hcn hf hf' (fun _ _ => Finset.mem_univ _) (fun _ _ => Finset.mem_univ _) hlen hlen'
          hr' hfor']

omit [Fintype ι] [DecidableEq ι] in
theorem At.exists_path (h : At child m K r k t) :
    ∃ path, follow child m r path = some t ∧ path.length + k = K := by
  induction h with
  | here => exact ⟨[], rfl, by simp⟩
  | @down K r k t c i hc _ ih =>
    obtain ⟨path, hf, hlen⟩ := ih
    refine ⟨i :: path, ?_, ?_⟩
    · rw [follow, hc]
      exact hf
    · rw [List.length_cons]
      omega

omit [Fintype ι] [DecidableEq ι] in
/-- The path to the table of an entry. The height of the entry fixes its length. -/
theorem SlotAt.exists_path (h : SlotAt child m S K r k t i) :
    ∃ path, follow child m r path = some t ∧ (∀ j ∈ (path ++ [i]).head?, j ∈ S) ∧
      path.length + k = K := by
  cases h with
  | root hi =>
    refine ⟨[], rfl, ?_, by simp⟩
    intro j hj
    cases hj
    exact hi
  | @below j _ c _ _ hj hc hat =>
    obtain ⟨path, hf, hlen⟩ := hat.exists_path
    refine ⟨j :: path, ?_, ?_, ?_⟩
    · rw [follow, hc]
      exact hf
    · intro i hi
      cases hi
      exact hj
    · rw [List.length_cons]
      omega

omit [Fintype ι] [DecidableEq ι] in
theorem head_of_append {path : List ι} (h : ∀ j ∈ (path ++ [i]).head?, j ∈ S) :
    ∀ j ∈ path.head?, j ∈ S := by
  cases path with
  | nil => exact nofun
  | cons j path => exact h

omit [Fintype ι] [DecidableEq ι] in
theorem follow_append {path : List ι} {c : Nat} (h : follow child m r path = some t)
    (hc : child (m t i) = some c) : follow child m r (path ++ [i]) = some c := by
  induction path generalizing r with
  | nil =>
    cases h
    rw [List.nil_append, follow, hc]
    rfl
  | cons j path ih =>
    obtain ⟨d, hd, hf⟩ := Option.bind_eq_some_iff.mp h
    rw [List.cons_append, follow, hd]
    exact ih hf

theorem SlotAt.height_unique {k' : Nat} {i' : ι} (h : SlotAt child m S K r k t i)
    (h' : SlotAt child m S K r k' t i') (hnd : (r ::ₘ forest child S K m r).Nodup) : k = k' := by
  obtain ⟨path, hf, hS, hlen⟩ := h.exists_path
  obtain ⟨path', hf', hS', hlen'⟩ := h'.exists_path
  have heq := follow_unique hnd hf hf' (head_of_append hS) (head_of_append hS') (by omega)
    (by omega)
  subst heq
  omega

/-- A table is not what an entry of another height leads to. -/
theorem SlotAt.child_ne_table {k' t' c : Nat} {i' : ι} (h : SlotAt child m S K r k t i)
    (hc : child (m t i) = some c) (h' : SlotAt child m S K r k' t' i')
    (hnd : (r ::ₘ forest child S K m r).Nodup) (hk : k ≠ k' + 1) : c ≠ t' := by
  rintro rfl
  obtain ⟨path, hf, hS, hlen⟩ := h.exists_path
  obtain ⟨path', hf', hS', hlen'⟩ := h'.exists_path
  have hlen1 : (path ++ [i]).length + k = K + 1 := by
    rw [List.length_append, List.length_singleton]
    omega
  have heq := follow_unique hnd (follow_append hf hc) hf' hS (head_of_append hS') (by omega)
    (by omega)
  rw [heq] at hlen1
  omega

/-- Two entries that lead to the same frame are the same entry. -/
theorem SlotAt.child_unique {k' t' c : Nat} {i' : ι} (h : SlotAt child m S K r k t i)
    (hc : child (m t i) = some c) (h' : SlotAt child m S K r k' t' i')
    (hc' : child (m t' i') = some c) (hnd : (r ::ₘ forest child S K m r).Nodup) :
    t = t' ∧ i = i' := by
  obtain ⟨path, hf, hS, hlen⟩ := h.exists_path
  obtain ⟨path', hf', hS', hlen'⟩ := h'.exists_path
  have heq := follow_unique hnd (follow_append hf hc) (follow_append hf' hc') hS hS'
    (by rw [List.length_append, List.length_singleton]; omega)
    (by rw [List.length_append, List.length_singleton]; omega)
  obtain ⟨rfl, hi⟩ := List.append_inj' heq rfl
  rw [hf] at hf'
  exact ⟨Option.some.inj hf', List.singleton_injective hi⟩

/-! ## What a change of one entry keeps -/

omit [Fintype ι] [DecidableEq ι] in
theorem follow_concat (path : List ι) (j : ι) :
    follow child m r (path ++ [j]) = (follow child m r path).bind fun t => child (m t j) := by
  induction path generalizing r with
  | nil =>
    rw [List.nil_append, follow, follow, Option.bind_some]
    rcases child (m r j) with _ | c
    · rfl
    · rfl
  | cons i path ih =>
    rw [List.cons_append, follow, follow]
    rcases child (m r i) with _ | c
    · rfl
    · exact ih

omit [Fintype ι] [DecidableEq ι] in
theorem follow_append_path (path path' : List ι) :
    follow child m r (path ++ path') = (follow child m r path).bind fun t => follow child m t path' := by
  induction path generalizing r with
  | nil => rfl
  | cons i path ih =>
    rw [List.cons_append, follow, follow]
    rcases child (m r i) with _ | c
    · rfl
    · exact ih

omit [DecidableEq ι] in
theorem exists_follow_of_mem_frames (h : f ∈ frames child k m r) :
    ∃ path, follow child m r path = some f ∧ path.length ≤ k := by
  induction k generalizing r with
  | zero =>
    rw [frames_zero, Multiset.mem_singleton] at h
    exact ⟨[], by rw [follow, h], le_rfl⟩
  | succ k ih =>
    rw [frames_succ, Multiset.mem_cons] at h
    rcases h with rfl | h
    · exact ⟨[], rfl, Nat.zero_le _⟩
    · obtain ⟨i, _, hf⟩ := mem_forest.mp h
      rcases hc : child (m r i) with _ | c
      · rw [sub_of_none hc] at hf
        exact absurd hf (Multiset.notMem_zero _)
      · rw [sub_of_some hc] at hf
        obtain ⟨path, hpath, hlen⟩ := ih hf
        refine ⟨i :: path, ?_, Nat.succ_le_succ hlen⟩
        rw [follow, hc]
        exact hpath

/-- The entry `i` of the table at the end of `path`, with what is known of its place. -/
structure PathTo (child : W → Option Nat) (m : Nat → ι → W) (S : Finset ι) (K r k t : Nat) (i : ι)
    (path : List ι) : Prop where
  nodup : (r ::ₘ forest child S K m r).Nodup
  leads : follow child m r path = some t
  head : ∀ j ∈ (path ++ [i]).head?, j ∈ S
  length : path.length + k = K

section

variable {path q : List ι}

omit [DecidableEq ι] in
theorem SlotAt.pathTo (h : SlotAt child m S K r k t i) (hnd : (r ::ₘ forest child S K m r).Nodup) :
    ∃ path, PathTo child m S K r k t i path := by
  obtain ⟨path, hf, hS, hlen⟩ := h.exists_path
  exact ⟨path, hnd, hf, hS, hlen⟩

omit [Fintype ι] [DecidableEq ι] in
theorem At.of_follow (h : follow child m r path = some t) (hlen : path.length + k = K) :
    At child m K r k t := by
  induction path generalizing r K with
  | nil =>
    cases h
    rw [List.length_nil, Nat.zero_add] at hlen
    subst hlen
    exact .here
  | cons i path ih =>
    obtain ⟨c, hc, hrest⟩ := Option.bind_eq_some_iff.mp h
    rw [List.length_cons] at hlen
    obtain rfl : K = path.length + k + 1 := by omega
    exact .down hc (ih hrest rfl)

omit [DecidableEq ι] in
theorem PathTo.slotAt (h : PathTo child m S K r k t i path) : SlotAt child m S K r k t i := by
  obtain ⟨_, hleads, hhead, hlen⟩ := h
  cases path with
  | nil =>
    cases hleads
    rw [List.length_nil, Nat.zero_add] at hlen
    subst hlen
    exact .root (hhead i rfl)
  | cons j path =>
    obtain ⟨c, hc, hrest⟩ := Option.bind_eq_some_iff.mp hleads
    rw [List.length_cons] at hlen
    exact .below (hhead j rfl) hc (At.of_follow hrest (by omega))

/-- A path that does not go through the entry leads to no frame below it. -/
theorem PathTo.notMem_sub (h : PathTo child m S K r k t i path) (hq : follow child m r q = some f)
    (hS : ∀ j ∈ q.head?, j ∈ S) (hlen : q.length ≤ K + 1) (hne : ¬ path ++ [i] <+: q) :
    f ∉ sub child k m (m t i) := by
  intro hf
  rcases hc : child (m t i) with _ | c
  · rw [sub_of_none hc] at hf
    exact Multiset.notMem_zero _ hf
  rw [sub_of_some hc] at hf
  obtain ⟨rest, hrest, hrlen⟩ := exists_follow_of_mem_frames hf
  have hthrough : follow child m r (path ++ [i] ++ rest) = some f := by
    rw [follow_append_path, follow_append h.leads hc]
    exact hrest
  have hplen := h.length
  have heq : q = path ++ [i] ++ rest := by
    refine follow_unique h.nodup hq hthrough hS ?_ hlen ?_
    · intro j hj
      refine h.head j ?_
      rw [List.head?_append_of_ne_nil _ (by simp)] at hj
      exact hj
    · simp only [List.length_append, List.length_singleton]
      omega
  exact hne ⟨rest, heq.symm⟩

omit [DecidableEq ι] in
theorem mem_of_follow (hq : follow child m r q = some f) (hS : ∀ j ∈ q.head?, j ∈ S)
    (hlen : q.length ≤ K + 1) : f ∈ r ::ₘ forest child S K m r := by
  cases q with
  | nil =>
    cases hq
    exact Multiset.mem_cons_self _ _
  | cons j q =>
    refine Multiset.mem_cons_of_mem (mem_forest_of_follow hq (hS j rfl) ?_)
    rw [List.length_cons] at hlen
    omega

/-- The frame at the end of another path is not written. -/
theorem PathTo.frame_kept (h : PathTo child m S K r k t i path)
    (hoff : ∀ f ∈ r ::ₘ forest child S K m r, f ≠ t → f ∉ sub child k m (m t i) → m' f = m f)
    (hq : follow child m r q = some f) (hS : ∀ j ∈ q.head?, j ∈ S) (hlen : q.length ≤ K + 1)
    (hne : ¬ path ++ [i] <+: q) (hpath : q ≠ path) : m' f = m f := by
  have hplen := h.length
  refine hoff f (mem_of_follow hq hS hlen) ?_ (h.notMem_sub hq hS hlen hne)
  rintro rfl
  exact hpath (follow_unique h.nodup hq h.leads hS (head_of_append h.head) hlen (by omega))

section

variable (h : PathTo child m S K r k t i path) (hrow : ∀ j, j ≠ i → m' t j = m t j)
  (hoff : ∀ f ∈ r ::ₘ forest child S K m r, f ≠ t → f ∉ sub child k m (m t i) → m' f = m f)

include h hrow hoff

/-- Nor is any other entry of a table. -/
theorem PathTo.entry_kept {j : ι} (hq : follow child m r q = some f) (hS : ∀ j ∈ q.head?, j ∈ S)
    (hlen : q.length ≤ K + 1) (hne : ¬ path ++ [i] <+: q ++ [j]) : m' f j = m f j := by
  by_cases hpath : q = path
  · subst hpath
    rw [h.leads] at hq
    cases hq
    refine hrow j ?_
    rintro rfl
    exact hne (List.prefix_refl _)
  · rw [h.frame_kept hoff hq hS hlen (fun hpre => hne (hpre.trans (List.prefix_append _ _))) hpath]

/-- A path that does not go through the entry leads where it led. -/
theorem PathTo.follow_kept (hS : ∀ j ∈ q.head?, j ∈ S) (hlen : q.length ≤ K + 1)
    (hne : ¬ path ++ [i] <+: q) :
    follow child m' r q = follow child m r q := by
  induction q using List.reverseRecOn with
  | nil => rfl
  | append_singleton q j ih =>
    rw [List.length_append, List.length_singleton] at hlen
    have hih := ih (head_of_append hS) (by omega)
      fun hpre => hne (hpre.trans (List.prefix_append _ _))
    rw [follow_concat, follow_concat, hih]
    rcases hq : follow child m r q with _ | f
    · rfl
    · rw [Option.bind_some, Option.bind_some,
        h.entry_kept hrow hoff hq (head_of_append hS) (by omega) hne]

end

end

/-! ## The words of a tree by their paths -/

section

variable [Zero W] {path p q : List ι}

/-- The entry that the last index of a path names, or 0 when the path leads to no table. -/
def wordAt (child : W → Option Nat) (m : Nat → ι → W) : Nat → List ι → W
  | _, [] => 0
  | r, [i] => m r i
  | r, i :: j :: path => (child (m r i)).elim 0 fun c => wordAt child m c (j :: path)

omit [Fintype ι] [DecidableEq ι] in
theorem wordAt_concat (path : List ι) (j : ι) :
    wordAt child m r (path ++ [j]) = (follow child m r path).elim 0 fun t => m t j := by
  induction path generalizing r with
  | nil => rfl
  | cons i path ih =>
    obtain ⟨x, rest, hrest⟩ : ∃ x rest, path ++ [j] = x :: rest := by
      cases path with
      | nil => exact ⟨j, [], rfl⟩
      | cons x rest => exact ⟨x, rest ++ [j], rfl⟩
    rw [List.cons_append, hrest, wordAt, follow, ← hrest]
    rcases child (m r i) with _ | c
    · rfl
    · exact ih

omit [Fintype ι] [DecidableEq ι] in
/-- A path leads where its last entry does. -/
theorem follow_eq_wordAt (hz : child 0 = none) (hp : p ≠ []) :
    follow child m r p = child (wordAt child m r p) := by
  rcases List.eq_nil_or_concat' p with rfl | ⟨q, j, rfl⟩
  · exact absurd rfl hp
  · rw [follow_concat, wordAt_concat]
    rcases follow child m r q with _ | t
    · exact hz.symm
    · rfl

omit [Fintype ι] [DecidableEq ι] in
/-- Where an entry is in use, the entries above it lead on. -/
theorem child_of_wordAt_ne (hz : child 0 = none) (h : wordAt child m r (p ++ q) ≠ 0) (hp : p ≠ [])
    (hq : q ≠ []) : child (wordAt child m r p) ≠ none := by
  intro hnone
  rcases List.eq_nil_or_concat' q with rfl | ⟨q', j, rfl⟩
  · exact hq rfl
  · rw [← List.append_assoc, wordAt_concat, follow_append_path, follow_eq_wordAt hz hp, hnone] at h
    exact h rfl

omit [Fintype ι] [DecidableEq ι] in
/-- Below an entry that leads nowhere, or to a table of zeros, there is nothing in use. -/
theorem wordAt_of_dead (hz : child 0 = none) (hleads : follow child m r path = some t)
    (hdead : ∀ c, child (m t i) = some c → ∀ j, m c j = 0) (hp : path ++ [i] <+: q) (j : ι) :
    wordAt child m r (q ++ [j]) = 0 := by
  obtain ⟨rest, rfl⟩ := hp
  rw [wordAt_concat, follow_append_path, follow_concat, hleads, Option.bind_some]
  rcases hc : child (m t i) with _ | c
  · rfl
  rw [Option.bind_some]
  cases rest with
  | nil => exact hdead c hc j
  | cons x rest =>
    rw [follow, hdead c hc, hz]
    rfl

/-- One entry changes, from leading nowhere to leading nowhere: no other word of the tree changes. -/
theorem PathTo.wordAt_eq (h : PathTo child m S K r k t i path) (hz : child 0 = none)
    (hrow : ∀ j, j ≠ i → m' t j = m t j)
    (hoff : ∀ f ∈ r ::ₘ forest child S K m r, f ≠ t → f ∉ sub child k m (m t i) → m' f = m f)
    (hold : k ≠ 0 → ∀ c, child (m t i) = some c → ∀ j, m c j = 0)
    (hnew : k ≠ 0 → ∀ c, child (m' t i) = some c → ∀ j, m' c j = 0)
    (hp : p ≠ []) (hlen : p.length ≤ K + 1) (hS : ∀ j ∈ p.head?, j ∈ S) :
    wordAt child m' r p = if p = path ++ [i] then m' t i else wordAt child m r p := by
  rcases List.eq_nil_or_concat' p with rfl | ⟨q, j, rfl⟩
  · exact absurd rfl hp
  have hplen := h.length
  have hqS := head_of_append hS
  rw [List.length_append, List.length_singleton] at hlen
  have hself : ∀ {q}, path ++ [i] <+: q → ¬ path = q := by
    rintro q hpre rfl
    have := hpre.length_le
    rw [List.length_append, List.length_singleton] at this
    omega
  by_cases hthrough : path ++ [i] <+: q
  · have hqlen := hthrough.length_le
    rw [List.length_append, List.length_singleton] at hqlen
    have hne : q ++ [j] ≠ path ++ [i] := by
      intro he
      exact hself hthrough (List.append_inj' he rfl).1.symm
    have hleads : follow child m' r path = some t := by
      rw [h.follow_kept hrow hoff (head_of_append h.head) (by omega) fun hpre => hself hpre rfl, h.leads]
    rw [if_neg hne, wordAt_of_dead hz hleads (hnew (by omega)) hthrough,
      wordAt_of_dead hz h.leads (hold (by omega)) hthrough]
  · rw [wordAt_concat, wordAt_concat, h.follow_kept hrow hoff hqS (by omega) hthrough]
    by_cases he : q ++ [j] = path ++ [i]
    · obtain ⟨rfl, hj⟩ := List.append_inj' he rfl
      cases hj
      rw [if_pos rfl, h.leads]
      rfl
    · rw [if_neg he]
      rcases hq : follow child m r q with _ | f
      · rfl
      · refine h.entry_kept hrow hoff hq hqS (by omega) ?_
        rw [List.prefix_concat_iff, not_or]
        exact ⟨fun heq => he heq.symm, hthrough⟩

end

-- The sums run over every index, so they are never to be unfolded by unification.
attribute [irreducible] frames tables forest

end RadixTree
