-- The laws of cloning a user address space. `MMU_clone_userspace` fills a new tree of
-- tables from the free frames, page by page. At every point the frames it took are
-- exactly those of the half-made tree, so a failure half way can be undone, and a
-- success is an exact copy.
import JamsOs.Teardown

namespace JamsOs

open Words RadixTree Linked

/-! ## Copies of trees -/

/-- The entry `w'` is made from `w`: where it names a frame it has the same flags, and the
frame is a copy of the one that `w` names. When `ok` holds it is a full copy, so an entry
of a page table, a `leaf`, is also reserved just when `w` is. -/
structure EntryCopy (ok leaf : Bool) (below : Nat → Nat → Prop) (w w' : Word) : Prop where
  linked : present w' = true → present w = true ∧ w' = set_pfn w (pfn w') ∧ below (pfn w) (pfn w')
  full : ok = true → present w' = present w
  reserved : ok = true → leaf = true → present w = false →
    w' = w ∨ demand w = false ∧ demand w' = false

/-- The tree of height `k` at `d` in the memory `m'` is made from the one at `a` in `m`. -/
def Copy (ok : Bool) : Nat → (Nat → Frame) → Nat → (Nat → Frame) → Nat → Prop
  | 0, m, a, m', d => m' d = m a
  | k + 1, m, a, m', d =>
    ∀ i, EntryCopy ok (k == 0) (fun a d => Copy ok k m a m' d) (m a i) (m' d i)

section

variable {ok leaf : Bool} {below below' : Nat → Nat → Prop} {w w' : Word} {k a d : Nat}
  {m m' n n' : Nat → Frame}

theorem EntryCopy.imp (h : EntryCopy ok leaf below w w')
    (hb : present w = true → present w' = true → below (pfn w) (pfn w') → below' (pfn w) (pfn w')) :
    EntryCopy ok leaf below' w w' := by
  refine ⟨?_, h.full, h.reserved⟩
  intro hp
  obtain ⟨h1, h2, h3⟩ := h.linked hp
  exact ⟨h1, h2, hb h1 hp h3⟩

theorem EntryCopy.weaken (h : EntryCopy true leaf below w w') : EntryCopy ok leaf below w w' :=
  ⟨h.linked, fun _ => h.full rfl, fun _ => h.reserved rfl⟩

/-- An entry that was not filled is a part of a copy that failed. -/
theorem entryCopy_of_absent (h : present w' = false) : EntryCopy false leaf below w w' :=
  ⟨fun hp => by simp [h] at hp, nofun, nofun⟩

theorem Copy.weaken (h : Copy true k m a m' d) : Copy ok k m a m' d := by
  induction k generalizing a d with
  | zero => exact h
  | succ k ih => exact fun i => ((h i).imp fun _ _ hb => ih hb).weaken

/-- A copy depends on the frames of the two trees only. -/
theorem Copy.congr (h : Copy ok k m a m' d) (hm : ∀ f ∈ frames childOf k m a, n f = m f)
    (hm' : ∀ f ∈ frames childOf k m' d, n' f = m' f) : Copy ok k n a n' d := by
  induction k generalizing a d with
  | zero =>
    have ha := hm a (root_mem_frames _ _ _)
    have hd := hm' d (root_mem_frames _ _ _)
    unfold Copy at h ⊢
    rw [ha, hd, h]
  | succ k ih =>
    intro i
    rw [hm a (root_mem_frames _ _ _), hm' d (root_mem_frames _ _ _)]
    apply (h i).imp
    intro hp hp' hb
    exact ih hb (fun f hf => hm f (frames_of_child (childOf_of_present hp) hf))
      fun f hf => hm' f (frames_of_child (childOf_of_present hp') hf)

/-- The flags are copied, so a copy maps a huge page only where the original does. -/
theorem Copy.noBig (h : Copy ok k m a m' d) (hb : NoBig k m a) : NoBig k m' d := by
  induction k generalizing a d with
  | zero => trivial
  | succ k ih =>
    cases k with
    | zero => trivial
    | succ k =>
      intro i hp
      obtain ⟨hp1, hw, hbelow⟩ := (h i).linked hp
      obtain ⟨hb1, hb2⟩ := hb i hp1
      refine ⟨?_, ih hbelow hb2⟩
      rw [hw, big_page_set_pfn]
      exact hb1

theorem EntryCopy.plain {has_big : Bool} (h : EntryCopy ok leaf (fun a d => Copy ok k m a m' d) w w')
    (hp : Plain has_big k m w) : Plain has_big k m' w' := by
  intro hpres
  obtain ⟨hp1, hw, hbelow⟩ := h.linked hpres
  obtain ⟨hb, hn⟩ := hp hp1
  refine ⟨?_, hbelow.noBig hn⟩
  rw [hw, big_page_set_pfn]
  exact hb

end

/-! ## The entries of a table -/

/-- What the loop over the entries `is` of the table `a` does to the table `d`: the frames
`A` are taken from the pool, and they are just the frames that are new below `d`. -/
structure Cloned (S : Finset (Fin 512)) (k d a : Nat) (is : List (Fin 512)) (s : Machine)
    (P : List Nat) (ok : Bool) (s' : Machine) (A P' : List Nat) : Prop where
  split : P = A ++ P'
  pool : Pool s' P'
  total : forest childOf S k s'.mem d = forest childOf S k s.mem d + ↑A
  copied : ∀ i ∈ is, EntryCopy ok (k == 0) (fun a d => Copy ok k s.mem a s'.mem d)
    (s.mem a i) (s'.mem d i)
  row : ∀ j, j ∉ is → s'.mem d j = s.mem d j
  off : ∀ f, f ≠ d → f ∉ A → s'.mem f = s.mem f
  regs : SameRegs s s'

/-- Before the loop over the entries `is`: the table `d` is still empty there, it is not
free, and the table `a` with the frames below it is neither free nor `d`. -/
structure MayClone (S : Finset (Fin 512)) (k d a : Nat) (is : List (Fin 512)) (s : Machine)
    (P : List Nat) : Prop where
  pool : Pool s P
  small : ∀ f ∈ P, f < 2 ^ 40
  nodup : (d ::ₘ (forest childOf S k s.mem d + ↑P)).Nodup
  slots : ∀ i ∈ is, i ∈ S
  empty : ∀ i ∈ is, s.mem d i = 0
  table : a ≠ d ∧ a ∉ P
  below : ∀ i ∈ is, ∀ f ∈ sub childOf k s.mem (s.mem a i), f ≠ d ∧ f ∉ P

section

variable {S : Finset (Fin 512)} {k d a : Nat} {i : Fin 512} {is : List (Fin 512)}
  {s s1 s' : Machine} {P P1 P' A A1 A2 : List Nat} {ok has_big : Bool}

theorem Cloned.mem_pool {f : Nat} (h : Cloned S k d a is s P ok s' A P') (hf : f ∈ A) : f ∈ P := by
  rw [h.split]
  exact List.mem_append_left _ hf

/-- The source is not written. -/
theorem Cloned.same_table (h : Cloned S k d a is s P ok s' A P') (ht : a ≠ d ∧ a ∉ P) :
    s'.mem a = s.mem a := h.off a ht.1 fun ha => ht.2 (h.mem_pool ha)

theorem Cloned.same_below {w : Word} (h : Cloned S k d a is s P ok s' A P')
    (hb : ∀ f ∈ sub childOf k s.mem w, f ≠ d ∧ f ∉ P) :
    ∀ f ∈ sub childOf k s.mem w, s'.mem f = s.mem f :=
  fun f hf => h.off f (hb f hf).1 fun ha => (hb f hf).2 (h.mem_pool ha)

theorem MayClone.cons (h : MayClone S k d a (i :: is) s P) : MayClone S k d a [i] s P where
  pool := h.pool
  small := h.small
  nodup := h.nodup
  slots j hj := h.slots j (List.mem_cons.mpr (Or.inl (List.mem_singleton.mp hj)))
  empty j hj := h.empty j (List.mem_cons.mpr (Or.inl (List.mem_singleton.mp hj)))
  table := h.table
  below j hj := h.below j (List.mem_cons.mpr (Or.inl (List.mem_singleton.mp hj)))

/-- What a turn leaves for the turns that follow. -/
theorem MayClone.next (h : MayClone S k d a (i :: is) s P) (hi : i ∉ is)
    (h1 : Cloned S k d a [i] s P true s1 A1 P1) : MayClone S k d a is s1 P1 := by
  have hsub : ∀ f ∈ P1, f ∈ P := fun f hf => by
    rw [h1.split]
    exact List.mem_append_right _ hf
  have hbelow : ∀ j ∈ is, ∀ f ∈ sub childOf k s.mem (s.mem a j), f ≠ d ∧ f ∉ P :=
    fun j hj => h.below j (List.mem_cons_of_mem _ hj)
  refine ⟨h1.pool, fun f hf => h.small f (hsub f hf), ?_, fun j hj => h.slots j
    (List.mem_cons_of_mem _ hj), ?_, ⟨h.table.1, fun ha => h.table.2 (hsub a ha)⟩, ?_⟩
  · have htotal : forest childOf S k s1.mem d + ↑P1 = forest childOf S k s.mem d + ↑P := by
      rw [h1.total, h1.split, add_assoc, Multiset.coe_add]
    rw [htotal]
    exact h.nodup
  · intro j hj
    rw [h1.row j fun he => hi (List.mem_singleton.mp he ▸ hj)]
    exact h.empty j (List.mem_cons_of_mem _ hj)
  · intro j hj f hf
    rw [h1.same_table h.table, sub_congr (h1.same_below (hbelow j hj))] at hf
    exact ⟨(hbelow j hj f hf).1, fun hP => (hbelow j hj f hf).2 (hsub f hP)⟩

/-- A turn that fails ends the loop, with the entries that are left still empty. -/
theorem Cloned.fail (h : MayClone S k d a (i :: is) s P)
    (h1 : Cloned S k d a [i] s P false s' A P') : Cloned S k d a (i :: is) s P false s' A P' := by
  refine ⟨h1.split, h1.pool, h1.total, ?_, ?_, h1.off, h1.regs⟩
  · intro j hj
    by_cases hji : j = i
    · exact h1.copied j (List.mem_singleton.mpr hji)
    · apply entryCopy_of_absent
      rw [h1.row j fun he => hji (List.mem_singleton.mp he), h.empty j hj]
      exact present_zero
  · intro j hj
    exact h1.row j fun he => hj (List.mem_cons.mpr (Or.inl (List.mem_singleton.mp he)))

/-- A turn and the turns that follow. The later ones take other frames, so the copy that the
first one made stays. -/
theorem Cloned.append (h : MayClone S k d a (i :: is) s P) (hi : i ∉ is)
    (h1 : Cloned S k d a [i] s P true s1 A1 P1) (h2 : Cloned S k d a is s1 P1 ok s' A2 P') :
    Cloned S k d a (i :: is) s P ok s' (A1 ++ A2) P' := by
  have hnext := h.next hi h1
  refine ⟨by rw [h1.split, h2.split, List.append_assoc], h2.pool, ?_, ?_, ?_, ?_,
    h1.regs.trans h2.regs⟩
  · rw [h2.total, h1.total, add_assoc, Multiset.coe_add]
  · intro j hj
    by_cases hji : j = i
    · subst hji
      rw [h2.row j hi]
      apply ((h1.copied j (List.mem_singleton_self j)).imp _).weaken
      intro _ hp hcopy
      refine Copy.weaken (hcopy.congr (fun _ _ => rfl) ?_)
      intro f hf
      have hfor : f ∈ forest childOf S k s1.mem d :=
        mem_forest_of_child (h.slots j List.mem_cons_self) (childOf_of_present hp) hf
      obtain ⟨hd, hrest⟩ := Multiset.nodup_cons.mp hnext.nodup
      apply h2.off
      · rintro rfl
        exact hd (Multiset.mem_add.mpr (Or.inl hfor))
      · intro hfA
        exact Multiset.disjoint_left.mp (Multiset.nodup_add.mp hrest).2.2 hfor (h2.mem_pool hfA)
    · have hjis : j ∈ is := (List.mem_cons.mp hj).resolve_left hji
      have hcopied := h2.copied j hjis
      rw [h1.same_table h.table] at hcopied
      apply hcopied.imp
      intro hp _ hcopy
      refine hcopy.congr ?_ fun _ _ => rfl
      have hsub : sub childOf k s.mem (s.mem a j) = frames childOf k s.mem (pfn (s.mem a j)) :=
        sub_of_some (childOf_of_present hp)
      have hsame := h1.same_below (h.below j hj)
      rw [hsub] at hsame
      have hframes : frames childOf k s1.mem (pfn (s.mem a j)) =
          frames childOf k s.mem (pfn (s.mem a j)) :=
        frames_congr fun f hf => hsame f (mem_frames_of_mem_tables hf)
      rw [hframes]
      exact fun f hf => (hsame f hf).symm
  · intro j hj
    rw [h2.row j fun he => hj (List.mem_cons_of_mem _ he),
      h1.row j fun he => hj (List.mem_cons.mpr (Or.inl (List.mem_singleton.mp he)))]
  · intro f hfd hf
    rw [List.mem_append, not_or] at hf
    rw [h2.off f hfd hf.2, h1.off f hfd hf.1]

/-- From one turn to the whole loop, by induction on the entries that are left. -/
theorem clone_loop.spec {body : Fin 512 → Machine → Bool × Machine}
    (hbody : ∀ s P i, MayClone S k d a [i] s P → Plain has_big k s.mem (s.mem a i) →
      ∃ ok s' A P', body i s = (ok, s') ∧ Cloned S k d a [i] s P ok s' A P')
    (is : List (Fin 512)) (his : is.Nodup) (s : Machine) (P : List Nat)
    (h : MayClone S k d a is s P) (hplain : ∀ i ∈ is, Plain has_big k s.mem (s.mem a i)) :
    ∃ ok s' A P', entries_loop body is s = (ok, s') ∧ Cloned S k d a is s P ok s' A P' := by
  induction is generalizing s P with
  | nil =>
    exact ⟨true, s, [], P, rfl, rfl, h.pool, by simp, by simp, fun _ _ => rfl, fun _ _ _ => rfl,
      SameRegs.refl s⟩
  | cons i is ih =>
    obtain ⟨hi, his⟩ := List.nodup_cons.mp his
    obtain ⟨ok, s1, A1, P1, hrun, h1⟩ := hbody s P i h.cons (hplain i List.mem_cons_self)
    cases ok with
    | false =>
      refine ⟨false, s1, A1, P1, ?_, h1.fail h⟩
      rw [entries_loop, hrun]
    | true =>
      have hplain1 : ∀ j ∈ is, Plain has_big k s1.mem (s1.mem a j) := by
        intro j hj
        rw [h1.same_table h.table]
        exact (hplain j (List.mem_cons_of_mem _ hj)).congr
          (h1.same_below (h.below j (List.mem_cons_of_mem _ hj)))
      obtain ⟨ok, s', A2, P', hrest, h2⟩ := ih his s1 P1 (h.next hi h1) hplain1
      refine ⟨ok, s', A1 ++ A2, P', ?_, h1.append h hi h2⟩
      rw [entries_loop, hrun]
      exact hrest

/-! ## One turn -/

/-- A turn that takes no frame and writes nothing. -/
theorem cloned_of_same (h : MayClone S k d a [i] s P)
    (hcopy : EntryCopy ok (k == 0) (fun a d => Copy ok k s.mem a s.mem d) (s.mem a i) 0) :
    Cloned S k d a [i] s P ok s [] P := by
  refine ⟨rfl, h.pool, by simp, ?_, fun _ _ => rfl, fun _ _ _ => rfl, SameRegs.refl s⟩
  intro j hj
  rw [List.mem_singleton.mp hj, h.empty i (List.mem_singleton_self i)]
  exact hcopy

/-- A turn that takes the frame `c`, fills it and what is below it, and links it. -/
theorem cloned_of_linked {c : Nat} (h : MayClone S k d a [i] s P)
    (hpres : present (s.mem a i) = true) (hsplit : P = c :: A1 ++ P') (hpool : Pool s' P')
    (hframes : frames childOf k s'.mem c = c ::ₘ ↑A1) (hcopy : Copy ok k s.mem (pfn (s.mem a i)) s'.mem c)
    (hentry : s'.mem d i = set_pfn (s.mem a i) c) (hrow : ∀ j, j ≠ i → s'.mem d j = s.mem d j)
    (hoff : ∀ f, f ≠ d → f ∉ c :: A1 → s'.mem f = s.mem f) (hregs : SameRegs s s') :
    Cloned S k d a [i] s P ok s' (c :: A1) P' := by
  have hi := List.mem_singleton_self i
  have hc : c < 2 ^ 40 := h.small c (by rw [hsplit]; exact List.mem_cons_self)
  have hpfn : pfn (s'.mem d i) = c := by rw [hentry, pfn_set_pfn hc]
  have hpres' : present (s'.mem d i) = true := by rw [hentry, present_set_pfn, hpres]
  obtain ⟨hd, hrest⟩ := Multiset.nodup_cons.mp h.nodup
  obtain ⟨hfor, _, hdis⟩ := Multiset.nodup_add.mp hrest
  refine ⟨hsplit, hpool, ?_, ?_, ?_, hoff, hregs⟩
  · have hex : forest childOf S k s'.mem d + sub childOf k s.mem (s.mem d i) =
        forest childOf S k s.mem d + sub childOf k s'.mem (s'.mem d i) := by
      refine forest_exchange hfor (h.slots i hi) (fun j _ hj => hrow j hj) ?_
      intro f hf _
      refine hoff f (fun he => hd (Multiset.mem_add.mpr (Or.inl (he ▸ hf)))) fun hA => ?_
      refine Multiset.disjoint_left.mp hdis hf ?_
      rw [hsplit]
      exact List.mem_append_left _ hA
    have hnone : childOf (s.mem d i) = none := by
      rw [h.empty i hi]
      exact childOf_zero
    rwa [sub_of_none hnone, add_zero, sub_of_some (childOf_of_present hpres'), hpfn,
      hframes] at hex
  · intro j hj
    rw [List.mem_singleton.mp hj]
    refine ⟨fun _ => ⟨hpres, by rw [hpfn, hentry], by rw [hpfn]; exact hcopy⟩,
      fun _ => hpres'.trans hpres.symm, ?_⟩
    intro _ _ hn
    simp [hpres] at hn
  · intro j hj
    exact hrow j fun he => hj (List.mem_singleton.mpr he)

theorem MayClone.notMem_pool (h : MayClone S k d a is s P) : d ∉ P := fun hd =>
  (Multiset.nodup_cons.mp h.nodup).1 (Multiset.mem_add.mpr (Or.inr hd))

theorem MayClone.pool_nodup (h : MayClone S k d a is s P) : P.Nodup :=
  (Multiset.nodup_add.mp (Multiset.nodup_cons.mp h.nodup).2).2.1

theorem clone_page.spec (h : MayClone S 0 d a [i] s P) :
    ∃ ok s' A P', clone_page d a i s = (ok, s') ∧ Cloned S 0 d a [i] s P ok s' A P' := by
  have hi := List.mem_singleton_self i
  have hdP := h.notMem_pool
  have hsrc : ∀ m w, setWord m d i w a = m a := fun m w => setWord_of_ne h.table.1 i w
  obtain ⟨s0, hs0⟩ : ∃ s0, s0 = s.set_entry (d, i) (s.mem a i) := ⟨_, rfl⟩
  have hmem0 : s0.mem = setWord s.mem d i (s.mem a i) := by rw [hs0]; rfl
  have hpool0 : Pool s0 P := by rw [hs0]; exact h.pool.set_entry hdP _
  have hregs0 : SameRegs s s0 := by rw [hs0]; exact SameRegs.set_entry s _ _
  have ha0 : s0.mem a = s.mem a := by rw [hmem0, hsrc]
  unfold clone_page
  rw [← hs0]
  by_cases hpres : present (s.mem a i) = true
  · simp only [ha0, hpres, Bool.not_true, Bool.false_and, Bool.false_eq_true, if_false, if_true]
    have hg := h.below i hi (pfn (s.mem a i)) (by
      rw [sub_of_some (childOf_of_present hpres)]
      exact root_mem_frames _ _ _)
    cases P with
    | nil =>
      simp only [MMU_pf_alloc.spec_nil hpool0, if_true]
      refine ⟨false, s, [], [], ?_, cloned_of_same h (entryCopy_of_absent present_zero)⟩
      have hzero : setWord (setWord s.mem d i (s.mem a i)) d i 0 = s.mem := by
        unfold setWord
        rw [Function.update_self, Function.update_idem, Function.update_idem,
          ← h.empty i hi, Function.update_eq_self, Function.update_eq_self]
      rw [hs0]
      unfold Machine.set_entry
      simp only [hzero]
    | cons c P1 =>
      have hc52 := h.pool.small c List.mem_cons_self
      have hcd : c ≠ d := fun he => hdP (he ▸ List.mem_cons_self)
      obtain ⟨s1, heq, hpool1, hmem1, hregs1⟩ := MMU_pf_alloc.spec_take hpool0
      rw [hmem0] at hmem1
      simp only [heq, frameAddr_ne_invalid hc52, if_false, frameOf_frameAddr hc52, phys_to_pfn,
        hmem1, hsrc, setWord_of_ne hg.1, Function.update_of_ne hcd.symm, setWord_same]
      have hcP1 : c ∉ P1 := (List.nodup_cons.mp h.pool_nodup).1
      have hdP1 : d ∉ P1 := fun hd => hdP (List.mem_cons_of_mem _ hd)
      refine ⟨true, _, [c], P1, rfl, cloned_of_linked h hpres rfl ?_ ?_ ?_ ?_ ?_ ?_ ?_⟩
      · refine Pool.set_entry (e := (d, i)) ?_ hdP1 _
        refine hpool1.congr rfl rfl ?_
        intro f hf
        have hfc : f ≠ c := fun he => hcP1 (he ▸ hf)
        rw [hmem1]
        exact Function.update_of_ne hfc _ _
      · rw [frames_zero]
        rfl
      · simp only [Copy, set_entry_mem, setWord_of_ne hcd, Function.update_self]
      · simp only [set_entry_mem, setWord_same]
      · intro j hj
        simp only [set_entry_mem, setWord_word_of_ne _ _ hj, Function.update_of_ne hcd.symm]
      · intro f hfd hfc
        have hfc : f ≠ c := fun he => hfc (List.mem_singleton.mpr he)
        simp only [set_entry_mem, setWord_of_ne hfd, Function.update_of_ne hfc]
      · exact (hregs0.trans hregs1).trans ⟨rfl, rfl, rfl, rfl⟩
  · have hpres' : present (s.mem a i) = false := by simpa using hpres
    simp only [ha0, hpres', Bool.not_false, Bool.true_and, Bool.not_eq_true', Bool.false_eq_true,
      if_false]
    cases hdem : demand (s.mem a i) with
    | false =>
      simp only [if_true]
      refine ⟨true, s, [], P, rfl, cloned_of_same h ⟨fun hp => ?_, fun _ => ?_, fun _ _ _ => ?_⟩⟩
      · simp at hp
      · simp [hpres']
      · exact Or.inr ⟨hdem, demand_zero⟩
    | true =>
      simp only [Bool.true_eq_false, if_false]
      have hrow : ∀ j, j ≠ i → s0.mem d j = s.mem d j := by
        intro j hj
        rw [hmem0, setWord_word_of_ne _ _ hj]
      have hoff : ∀ f, f ≠ d → s0.mem f = s.mem f := by
        intro f hf
        rw [hmem0, setWord_of_ne hf]
      have hentry : s0.mem d i = s.mem a i := by rw [hmem0, setWord_same]
      refine ⟨true, s0, [], P, rfl, rfl, hpool0, ?_, ?_, ?_, fun f hf _ => hoff f hf, hregs0⟩
      · obtain ⟨hd, hrest⟩ := Multiset.nodup_cons.mp h.nodup
        have hex : forest childOf S 0 s0.mem d + sub childOf 0 s.mem (s.mem d i) =
            forest childOf S 0 s.mem d + sub childOf 0 s0.mem (s0.mem d i) :=
          forest_exchange (Multiset.nodup_add.mp hrest).1 (h.slots i hi) (fun j _ hj => hrow j hj)
            fun f hf _ => hoff f fun he => hd (Multiset.mem_add.mpr (Or.inl (he ▸ hf)))
        have hnone : childOf (s.mem d i) = none := by
          rw [h.empty i hi]
          exact childOf_zero
        rw [hentry, sub_of_none hnone, sub_of_none (childOf_of_absent hpres')] at hex
        simpa using hex
      · intro j hj
        rw [List.mem_singleton.mp hj, hentry]
        refine ⟨fun hp => ?_, fun _ => rfl, fun _ _ _ => Or.inl rfl⟩
        simp [hpres'] at hp
      · exact fun j hj => hrow j fun he => hj (List.mem_singleton.mpr he)

/-- What filling the empty table `d` from the tree of height `k` at `a` does. -/
structure ClonedTree (k d a : Nat) (s : Machine) (P : List Nat) (ok : Bool) (s' : Machine)
    (A P' : List Nat) : Prop where
  split : P = A ++ P'
  pool : Pool s' P'
  total : frames childOf k s'.mem d = d ::ₘ ↑A
  copied : Copy ok k s.mem a s'.mem d
  off : ∀ f, f ≠ d → f ∉ A → s'.mem f = s.mem f
  regs : SameRegs s s'

/-- The function fills a table of height `k`. -/
def Clones (k : Nat) (clone : Nat → Nat → Machine → Bool × Machine) : Prop :=
  ∀ d a s P, Pool s P → (∀ f ∈ P, f < 2 ^ 40) → (d ::ₘ (↑P : Multiset Nat)).Nodup →
    (∀ i, s.mem d i = 0) → (∀ f ∈ frames childOf k s.mem a, f ≠ d ∧ f ∉ P) → NoBig k s.mem a →
    ∃ ok s' A P', clone d a s = (ok, s') ∧ ClonedTree k d a s P ok s' A P'

theorem clone_table.spec {clone_below : Nat → Nat → Machine → Bool × Machine}
    (hbelow : Clones k clone_below) (hk : 0 < k) (h : MayClone S k d a [i] s P)
    (hplain : Plain has_big k s.mem (s.mem a i)) :
    ∃ ok s' A P', clone_table has_big clone_below d a i s = (ok, s') ∧
      Cloned S k d a [i] s P ok s' A P' := by
  have hi := List.mem_singleton_self i
  have hdP := h.notMem_pool
  have hleaf : (k == 0) = false := by simp; omega
  unfold clone_table
  by_cases hpres : present (s.mem a i) = true
  · obtain ⟨hb, hnb⟩ := hplain hpres
    have hbig : (has_big && big_page (s.mem a i)) = false := by
      cases has_big with
      | false => rfl
      | true => simpa using hb rfl
    have hsub : sub childOf k s.mem (s.mem a i) = frames childOf k s.mem (pfn (s.mem a i)) :=
      sub_of_some (childOf_of_present hpres)
    have hsrc := h.below i hi
    rw [hsub] at hsrc
    simp only [hpres, hbig, Bool.not_true, Bool.false_eq_true, if_false]
    cases P with
    | nil =>
      simp only [MMU_pf_alloc.spec_nil h.pool, if_true]
      exact ⟨false, s, [], [], rfl, cloned_of_same h (entryCopy_of_absent present_zero)⟩
    | cons c P1 =>
      have hc52 := h.pool.small c List.mem_cons_self
      have hcP1 : c ∉ P1 := (List.nodup_cons.mp h.pool_nodup).1
      have hdP1 : d ∉ P1 := fun hd => hdP (List.mem_cons_of_mem _ hd)
      have hcd : c ≠ d := fun he => hdP (he ▸ List.mem_cons_self)
      have hac : a ≠ c := fun he => h.table.2 (he ▸ List.mem_cons_self)
      obtain ⟨s1, heq, hpool1, hmem1, hregs1⟩ := MMU_pf_alloc.spec_take h.pool
      simp only [heq, frameAddr_ne_invalid hc52, if_false, frameOf_frameAddr hc52, phys_to_pfn]
      -- the machine with the new table zeroed and linked, before it is filled
      have ha1 : (s1.zero_frame c).mem a = s.mem a := by
        rw [zero_frame_mem, Function.update_of_ne hac, hmem1]
      rw [ha1]
      obtain ⟨s2, hs2⟩ : ∃ s2, s2 = (s1.zero_frame c).set_entry (d, i) (set_pfn (s.mem a i) c) :=
        ⟨_, rfl⟩
      have hmem2 : s2.mem = setWord (Function.update s.mem c fun _ => 0) d i
          (set_pfn (s.mem a i) c) := by
        rw [hs2, set_entry_mem, zero_frame_mem, hmem1]
      have hoff2 : ∀ f, f ≠ d → f ≠ c → s2.mem f = s.mem f := by
        intro f hfd hfc
        rw [hmem2, setWord_of_ne hfd, Function.update_of_ne hfc]
      have hpool2 : Pool s2 P1 := by
        rw [hs2]
        exact (hpool1.zero_frame hcP1).set_entry hdP1 _
      have hregs2 : SameRegs s s2 := by
        rw [hs2]
        exact (hregs1.trans (SameRegs.zero_frame s1 c)).trans (SameRegs.set_entry _ _ _)
      have hsame : ∀ f ∈ frames childOf k s.mem (pfn (s.mem a i)), s2.mem f = s.mem f := by
        intro f hf
        refine hoff2 f (hsrc f hf).1 fun he => (hsrc f hf).2 (he ▸ List.mem_cons_self)
      have hframes : frames childOf k s2.mem (pfn (s.mem a i)) =
          frames childOf k s.mem (pfn (s.mem a i)) :=
        frames_congr fun f hf => hsame f (mem_frames_of_mem_tables hf)
      rw [← hs2, hoff2 a h.table.1 hac]
      obtain ⟨ok, s', A1, P', hrun, h2⟩ := hbelow c (pfn (s.mem a i)) s2 P1 hpool2
        (fun f hf => h.small f (List.mem_cons_of_mem _ hf)) h.pool_nodup
        (by intro j; rw [hmem2, setWord_of_ne hcd, Function.update_self])
        (by
          rw [hframes]
          intro f hf
          have hfP := (hsrc f hf).2
          exact ⟨fun he => hfP (he ▸ List.mem_cons_self), fun hm => hfP (List.mem_cons_of_mem _ hm)⟩)
        (hnb.congr fun f hf => hsame f (mem_frames_of_mem_tables hf))
      have hdA : d ∉ A1 := fun hd => hdP1 (by rw [h2.split]; exact List.mem_append_left _ hd)
      have hd' : s'.mem d = s2.mem d := h2.off d hcd.symm hdA
      refine ⟨ok, s', c :: A1, P', hrun, cloned_of_linked h hpres ?_ h2.pool h2.total ?_ ?_ ?_ ?_
        (hregs2.trans h2.regs)⟩
      · rw [h2.split]
        rfl
      · refine h2.copied.congr ?_ fun _ _ => rfl
        rw [hframes]
        exact fun f hf => (hsame f hf).symm
      · rw [hd', hmem2, setWord_same]
      · intro j hj
        rw [hd', hmem2, setWord_word_of_ne _ _ hj, Function.update_of_ne hcd.symm]
      · intro f hfd hf
        rw [List.mem_cons, not_or] at hf
        rw [h2.off f hf.1 hf.2, hoff2 f hfd hf.1]
  · have hpres' : present (s.mem a i) = false := by simpa using hpres
    simp only [hpres', Bool.not_false, if_true]
    refine ⟨true, s, [], P, rfl, cloned_of_same h ⟨fun hp => ?_, fun _ => ?_, fun _ hl => ?_⟩⟩
    · simp at hp
    · simp [hpres']
    · simp [hleaf] at hl

end

/-! ## The three levels -/

/-- A loop over all entries fills the table. -/
theorem clones_of_body {k : Nat} {clone : Nat → Nat → Machine → Bool × Machine} (has_big : Bool)
    (body : Nat → Nat → Fin 512 → Machine → Bool × Machine)
    (hbody : ∀ d a s P i, MayClone Finset.univ k d a [i] s P →
      Plain has_big k s.mem (s.mem a i) →
      ∃ ok s' A P', body d a i s = (ok, s') ∧ Cloned Finset.univ k d a [i] s P ok s' A P')
    (hplain : ∀ m t, NoBig (k + 1) m t → ∀ i, Plain has_big k m (m t i))
    (hloop : ∀ d a s, clone d a s = entries_loop (body d a) (List.finRange 512) s) :
    Clones (k + 1) clone := by
  intro d a s P hpool hsmall hnd hempty hsrc hnb
  have hzero : forest childOf Finset.univ k s.mem d = 0 := by
    apply forest_eq_zero
    intro i _
    rw [hempty i]
    exact childOf_zero
  have hmay : MayClone Finset.univ k d a (List.finRange 512) s P := by
    refine ⟨hpool, hsmall, by rw [hzero, zero_add]; exact hnd, fun i _ => Finset.mem_univ i,
      fun i _ => hempty i, hsrc a (root_mem_frames _ _ _), ?_⟩
    intro i _ f hf
    apply hsrc
    rw [frames_succ]
    exact Multiset.mem_cons_of_mem (mem_forest_of_mem_sub (Finset.mem_univ i) hf)
  obtain ⟨ok, s', A, P', hrun, h⟩ := clone_loop.spec (hbody d a) (List.finRange 512)
    (List.nodup_finRange 512) s P hmay fun i _ => hplain _ _ hnb i
  refine ⟨ok, s', A, P', by rw [hloop, hrun], h.split, h.pool, ?_, ?_, h.off, h.regs⟩
  · rw [frames_succ, h.total, hzero, zero_add]
  · exact fun i => h.copied i (List.mem_finRange i)

theorem clone_userspace_PT.spec : Clones 1 clone_userspace_PT := by
  refine clones_of_body false clone_page ?_ ?_ fun _ _ _ => rfl
  · exact fun d a s P i h _ => clone_page.spec h
  · exact fun m t _ i _ => ⟨nofun, trivial⟩

theorem clone_userspace_PD.spec : Clones 2 clone_userspace_PD := by
  refine clones_of_body true (clone_table true clone_userspace_PT) ?_
    (fun _ _ h i => plain_of_noBig h i) fun _ _ _ => rfl
  exact fun d a s P i h hp => clone_table.spec clone_userspace_PT.spec (by omega) h hp

theorem clone_userspace_PDPT.spec : Clones 3 clone_userspace_PDPT := by
  refine clones_of_body true (clone_table true clone_userspace_PD) ?_
    (fun _ _ h i => plain_of_noBig h i) fun _ _ _ => rfl
  exact fun d a s P i h hp => clone_table.spec clone_userspace_PD.spec (by omega) h hp

/-! ## The whole address space -/

theorem MMU_create_user_p4.spec_nil {s : Machine} (h : Pool s []) :
    MMU_create_user_p4 s = (0, s) := by
  unfold MMU_create_user_p4
  simp only [MMU_pf_alloc.spec_nil h, if_true]

/-- The new P4 has the entries of the kernel below user space, and no others. -/
theorem MMU_create_user_p4.spec_cons {s : Machine} {c : Nat} {P : List Nat}
    (h : Pool s (c :: P)) (hc : c ∉ P) (hk : s.ptable_p4 ≠ c) :
    ∃ s1, MMU_create_user_p4 s = (frameAddr c, s1) ∧ Pool s1 P ∧
      (∀ i, s1.mem c i = if i ∈ userSlots then 0 else s.mem s.ptable_p4 i) ∧
      (∀ f, f ≠ c → s1.mem f = s.mem f) ∧ SameRegs s s1 := by
  have hc52 := h.small c List.mem_cons_self
  obtain ⟨s1, heq, hpool, hmem, hregs⟩ := MMU_pf_alloc.spec_take h
  have hk1 : s1.ptable_p4 = s.ptable_p4 := by
    unfold Machine.ptable_p4
    rw [hregs.kernel_cr3]
  unfold MMU_create_user_p4
  simp only [heq, frameAddr_ne_invalid hc52, if_false, frameOf_frameAddr hc52]
  refine ⟨_, rfl, ?_, ?_, ?_, hregs.trans ⟨rfl, rfl, rfl, rfl⟩⟩
  · refine hpool.congr rfl rfl ?_
    intro f hf
    have hfc : f ≠ c := fun he => hc (he ▸ hf)
    simp only [zero_frame_mem, Function.update_of_ne hfc]
  · intro i
    have hkz : (s1.zero_frame c).ptable_p4 = s.ptable_p4 := hk1
    simp only [zero_frame_mem, Function.update_self, hkz, Function.update_of_ne hk, hmem]
    by_cases hi : i ∈ userSlots
    · rw [if_pos hi, if_neg]
      simpa [userSlots] using hi
    · rw [if_neg hi, if_pos]
      simpa [userSlots] using hi
  · intro f hf
    simp only [zero_frame_mem, Function.update_of_ne hf, hmem]

/-- The address space can be cloned: it is well formed, the free frames have physical
addresses of 52 bits, and the P4 of the kernel is not free. -/
structure CloneReady (s : Machine) (P : List Nat) (cr3 : Word) : Prop where
  pool : Pool s P
  space : UserSpace s P cr3
  small : ∀ f ∈ P, f < 2 ^ 40
  kernel : frameOf s.kernel_cr3 ∉ P

section

variable {s s' : Machine} {P P' A : List Nat} {cr3 : Word} {c : Nat} {ok : Bool}

theorem CloneReady.nodup (h : CloneReady s P cr3) : P.Nodup :=
  (Multiset.nodup_add.mp h.space.owned).2.1

theorem CloneReady.apart (h : CloneReady s P cr3) :
    ∀ f ∈ userFrames s.mem (frameOf cr3), f ∉ P := fun _ hf =>
  Multiset.disjoint_left.mp (Multiset.nodup_add.mp h.space.owned).2.2 hf

/-- The child with the P4 `c` after the loop over the user entries of the parent's P4. -/
structure ClonedSpace (s : Machine) (P : List Nat) (cr3 : Word) (c : Nat) (ok : Bool)
    (s' : Machine) (A P' : List Nat) : Prop where
  split : P = c :: A ++ P'
  pool : Pool s' P'
  total : userFrames s'.mem c = c ::ₘ ↑A
  copied : ∀ i ∈ userSlots, EntryCopy ok false (fun a d => Copy ok 3 s.mem a s'.mem d)
    (s.mem (frameOf cr3) i) (s'.mem c i)
  kernel : ∀ i, i ∉ userSlots → s'.mem c i = s.mem s.ptable_p4 i
  off : ∀ f, f ∉ c :: A → s'.mem f = s.mem f
  regs : SameRegs (CLI s) s'

theorem clone_space.spec {P1 : List Nat} (h : CloneReady s (c :: P1) cr3) :
    ∃ s1 ok s' A P', MMU_create_user_p4 (CLI s) = (frameAddr c, s1) ∧
      entries_loop (clone_table false clone_userspace_PDPT c (frameOf cr3)) user_slots s1 =
        (ok, s') ∧ ClonedSpace s (c :: P1) cr3 c ok s' A P' := by
  obtain ⟨hcP1, hP1⟩ := List.nodup_cons.mp h.nodup
  have hk : (CLI s).ptable_p4 ≠ c := fun he => h.kernel (he ▸ List.mem_cons_self)
  have hpool0 : Pool (CLI s) (c :: P1) := h.pool.congr rfl rfl fun _ _ => rfl
  obtain ⟨s1, hcreate, hpool1, hnew, hoff1, hregs1⟩ :=
    MMU_create_user_p4.spec_cons hpool0 hcP1 hk
  have hout : ∀ f ∈ userFrames s.mem (frameOf cr3), f ≠ c ∧ f ∉ P1 := by
    intro f hf
    exact ⟨fun he => h.apart f hf (he ▸ List.mem_cons_self),
      fun hm => h.apart f hf (List.mem_cons_of_mem _ hm)⟩
  have hsame : ∀ f ∈ userFrames s.mem (frameOf cr3), s1.mem f = s.mem f :=
    fun f hf => hoff1 f (hout f hf).1
  have hroot : frameOf cr3 ∈ userFrames s.mem (frameOf cr3) := Multiset.mem_cons_self _ _
  have hbelow : ∀ i ∈ userSlots, ∀ f ∈ sub childOf 3 s.mem (s.mem (frameOf cr3) i),
      f ∈ userFrames s.mem (frameOf cr3) :=
    fun i hi f hf => Multiset.mem_cons_of_mem (mem_forest_of_mem_sub hi hf)
  have hzero : forest childOf userSlots 3 s1.mem c = 0 := by
    apply forest_eq_zero
    intro i hi
    rw [hnew i, if_pos hi]
    exact childOf_zero
  have hsub : ∀ i ∈ userSlots, sub childOf 3 s1.mem (s1.mem (frameOf cr3) i) =
      sub childOf 3 s.mem (s.mem (frameOf cr3) i) := by
    intro i hi
    rw [hsame _ hroot]
    exact sub_congr fun f hf => hsame f (hbelow i hi f hf)
  have hmay : MayClone userSlots 3 c (frameOf cr3) user_slots s1 P1 := by
    refine ⟨hpool1, fun f hf => h.small f (List.mem_cons_of_mem _ hf), ?_,
      fun i hi => (mem_user_slots i).mp hi, ?_, hout _ hroot, ?_⟩
    · rw [hzero, zero_add]
      exact h.nodup
    · intro i hi
      rw [hnew i, if_pos ((mem_user_slots i).mp hi)]
    · intro i hi f hf
      have hi' := (mem_user_slots i).mp hi
      rw [hsub i hi'] at hf
      exact hout f (hbelow i hi' f hf)
  have hplain : ∀ i ∈ user_slots, Plain false 3 s1.mem (s1.mem (frameOf cr3) i) := by
    intro i hi
    have hi' := (mem_user_slots i).mp hi
    rw [hsame _ hroot]
    exact (h.space.plain i hi').congr fun f hf => hsame f (hbelow i hi' f hf)
  obtain ⟨ok, s', A, P', hrun, h2⟩ := clone_loop.spec
    (fun s P i hm hp => clone_table.spec clone_userspace_PDPT.spec (by omega) hm hp)
    user_slots user_slots_nodup s1 P1 hmay hplain
  refine ⟨s1, ok, s', A, P', hcreate, hrun, by rw [h2.split]; rfl, h2.pool, ?_, ?_, ?_, ?_,
    hregs1.trans h2.regs⟩
  · rw [userFrames, userForest, h2.total, hzero, zero_add]
  · intro i hi
    have hcopied := h2.copied i ((mem_user_slots i).mpr hi)
    rw [hsame _ hroot] at hcopied
    apply hcopied.imp
    intro hp _ hcopy
    refine hcopy.congr ?_ fun _ _ => rfl
    have hs := hsub i hi
    rw [hsame _ hroot, sub_of_some (childOf_of_present hp),
      sub_of_some (childOf_of_present hp)] at hs
    rw [hs]
    intro f hf
    refine (hsame f (hbelow i hi f ?_)).symm
    rw [sub_of_some (childOf_of_present hp)]
    exact hf
  · intro i hi
    rw [h2.row i fun hm => hi ((mem_user_slots i).mp hm), hnew i, if_neg hi]
    rfl
  · intro f hf
    rw [List.mem_cons, not_or] at hf
    rw [h2.off f hf.1 hf.2, hoff1 f hf.1]
    rfl

/-- The guard of `MMU_clone_userspace`: it refuses the address 0 and the kernel's P4. -/
def refused (s : Machine) (cr3 : Word) : Prop :=
  frameOf cr3 = 0 ∨ frameOf cr3 = frameOf s.kernel_cr3

theorem masked_eq_zero (p : Word) : p &&& PAGE_MASK = 0 ↔ frameOf p = 0 := by
  have h0 : frameAddr 0 = 0 := rfl
  rw [masked_eq, ← h0]
  exact ⟨frameAddr_injective (frameOf_lt p) (by omega), fun h => by rw [h]⟩

theorem masked_eq_masked (p q : Word) : p &&& PAGE_MASK = q &&& PAGE_MASK ↔ frameOf p = frameOf q := by
  rw [masked_eq, masked_eq]
  exact ⟨frameAddr_injective (frameOf_lt p) (frameOf_lt q), fun h => by rw [h]⟩

theorem guard_iff (s : Machine) (cr3 : Word) : (cr3 &&& PAGE_MASK = 0 ∨
    cr3 &&& PAGE_MASK = (CLI s).kernel_cr3 &&& PAGE_MASK) ↔ refused s cr3 :=
  or_congr (masked_eq_zero cr3) (masked_eq_masked cr3 s.kernel_cr3)

theorem MMU_clone_userspace.of_refused (h : refused s cr3) :
    MMU_clone_userspace cr3 s = some (0, restore_interrupts s.interrupts (CLI s)) := by
  unfold MMU_clone_userspace
  simp only [guard_iff, h, if_true]

theorem MMU_clone_userspace.of_nil (h : CloneReady s [] cr3) (hr : ¬refused s cr3) :
    MMU_clone_userspace cr3 s = some (0, restore_interrupts s.interrupts (CLI s)) := by
  have hpool0 : Pool (CLI s) [] := h.pool.congr rfl rfl fun _ _ => rfl
  unfold MMU_clone_userspace
  simp only [guard_iff, hr, if_false, MMU_create_user_p4.spec_nil hpool0, if_true]

theorem frameAddr_eq_zero {f : Nat} (h : f < 2 ^ 52) : frameAddr f = 0 ↔ f = 0 := by
  have h0 : frameAddr 0 = 0 := rfl
  rw [← h0]
  exact ⟨frameAddr_injective h (by omega), fun h => by rw [h]⟩

/-- The child gets frame 0 for its P4: the result is then taken for a failure. -/
theorem MMU_clone_userspace.of_zero {P1 : List Nat} (h : CloneReady s (0 :: P1) cr3)
    (hr : ¬refused s cr3) : ∃ s', MMU_clone_userspace cr3 s = some (0, s') ∧ Pool s' P1 ∧
      (∀ f, f ∉ 0 :: P1 → s'.mem f = s.mem f) ∧ SameRegs s s' := by
  have hpool0 : Pool (CLI s) (0 :: P1) := h.pool.congr rfl rfl fun _ _ => rfl
  have hk : (CLI s).ptable_p4 ≠ 0 := fun he => h.kernel (he ▸ List.mem_cons_self)
  obtain ⟨s1, hcreate, hpool1, _, hoff1, hregs1⟩ :=
    MMU_create_user_p4.spec_cons hpool0 (List.nodup_cons.mp h.nodup).1 hk
  refine ⟨_, ?_, hpool1.restore_interrupts s.interrupts, ?_, restore_interrupts_CLI s s1 hregs1⟩
  · have h0 : frameAddr 0 = 0 := rfl
    unfold MMU_clone_userspace
    simp only [guard_iff, hr, if_false, hcreate, h0, if_true]
  · intro f hf
    rw [restore_interrupts_mem, hoff1 f fun he => hf (he ▸ List.mem_cons_self)]
    rfl

/-- What follows the loop over the entries of the P4. -/
theorem MMU_clone_userspace.of_loop {s1 s2 : Machine} (hr : ¬refused s cr3) (hc : c ≠ 0)
    (hc52 : c < 2 ^ 52) (hcreate : MMU_create_user_p4 (CLI s) = (frameAddr c, s1))
    (hloop : entries_loop (clone_table false clone_userspace_PDPT c (frameOf cr3)) user_slots s1 =
      (ok, s2)) :
    MMU_clone_userspace cr3 s =
      if ok then some (frameAddr c, restore_interrupts s.interrupts s2)
      else (MMU_destroy_userspace (frameAddr c) s2).map fun s3 =>
        (0, restore_interrupts s.interrupts s3) := by
  have hc0 : frameAddr c ≠ 0 := fun he => hc ((frameAddr_eq_zero hc52).mp he)
  unfold MMU_clone_userspace
  simp only [guard_iff, hr, if_false, hcreate, hc0, frameOf_frameAddr hc52, hloop]
  cases ok with
  | true => rfl
  | false =>
    simp only [Bool.false_eq_true, if_false]
    cases MMU_destroy_userspace (frameAddr c) s2 <;> rfl

/-- A clone that runs to the end is a full copy. One that runs out of frames gives back all
that it took. -/
theorem MMU_clone_userspace.of_cons {P1 : List Nat} (h : CloneReady s (c :: P1) cr3)
    (hr : ¬refused s cr3) (hc : c ≠ 0) (hcur : frameOf s.cr3 ∉ c :: P1) :
    (∃ s' A P', MMU_clone_userspace cr3 s = some (frameAddr c, restore_interrupts s.interrupts s') ∧
      ClonedSpace s (c :: P1) cr3 c true s' A P') ∨
    ∃ s' P', MMU_clone_userspace cr3 s = some (0, s') ∧ Pool s' P' ∧ P'.Perm (c :: P1) ∧
      (∀ f, f ∉ c :: P1 → s'.mem f = s.mem f) ∧ SameRegs s s' := by
  have hc52 := h.pool.small c List.mem_cons_self
  obtain ⟨s1, ok, s2, A, P', hcreate, hloop, h2⟩ := clone_space.spec h
  rw [MMU_clone_userspace.of_loop hr hc hc52 hcreate hloop]
  cases ok with
  | true => exact Or.inl ⟨s2, A, P', rfl, h2⟩
  | false =>
    right
    have hc0 : frameAddr c ≠ 0 := fun he => hc ((frameAddr_eq_zero hc52).mp he)
    have hsplit : (c ::ₘ (↑A : Multiset Nat)) + ↑P' = ↑(c :: P1) := by
      rw [h2.split]
      rfl
    have hspace : UserSpace s2 P' (frameAddr c) := by
      refine ⟨by rw [frameAddr_toNat hc52]; omega, ?_, ?_⟩
      · rw [frameOf_frameAddr hc52, h2.total, hsplit]
        exact h.nodup
      · intro i hi
        rw [frameOf_frameAddr hc52]
        exact (h2.copied i hi).plain (h.space.plain i hi)
    have hmay : MayDestroy s2 (frameAddr c) := by
      refine ⟨hc0, ?_, ?_⟩
      · rw [frameOf_frameAddr hc52, h2.regs.kernel_cr3]
        exact fun he => h.kernel (he ▸ List.mem_cons_self)
      · rw [frameOf_frameAddr hc52, h2.regs.cr3]
        exact fun he => hcur (he ▸ List.mem_cons_self)
    obtain ⟨s3, P3, hdestroy, hpool3, htotal, hoff3, hregs3⟩ :=
      MMU_destroy_userspace.spec h2.pool hspace hmay
    rw [frameOf_frameAddr hc52, h2.total] at htotal hoff3
    refine ⟨restore_interrupts s.interrupts s3, P3, by rw [hdestroy]; rfl,
      hpool3.restore_interrupts _, ?_, ?_, restore_interrupts_CLI s s3 (h2.regs.trans hregs3)⟩
    · rw [hsplit] at htotal
      exact Multiset.coe_eq_coe.mp htotal
    · intro f hf
      have hfA : f ∉ c :: A := fun hm => hf (by
        rw [h2.split]
        exact List.mem_append_left _ hm)
      rw [restore_interrupts_mem, hoff3 f hfA, h2.off f hfA]

end

/-! ## A failed clone -/

/-- A clone that returns 0 leaves the free frames and the source as they were, unless the
next free frame is frame 0: that frame then becomes the P4 of the child, its address is
taken for a failure, and the frame is lost. -/
theorem failed_clone_leaks_nothing_iff (s : Machine) (P : List Nat) (cr3 : Word)
    (h : CloneReady s P cr3) (hcur : frameOf s.cr3 ∉ P) :
    (∃ r s', MMU_clone_userspace cr3 s = some (r, s')) ∧
    ((∀ s', MMU_clone_userspace cr3 s = some (0, s') →
      ∃ P', Pool s' P' ∧ P'.Perm P ∧
        ∀ f ∈ userFrames s.mem (frameOf cr3), s'.mem f = s.mem f) ↔
      (P.head? = some 0 → refused s cr3)) := by
  have hsame : ∃ P', Pool (restore_interrupts s.interrupts (CLI s)) P' ∧ P'.Perm P ∧
      ∀ f ∈ userFrames s.mem (frameOf cr3),
        (restore_interrupts s.interrupts (CLI s)).mem f = s.mem f := by
    have hpool0 : Pool (CLI s) P := h.pool.congr rfl rfl fun _ _ => rfl
    exact ⟨P, hpool0.restore_interrupts _, List.Perm.refl P, fun f _ => by
      rw [restore_interrupts_mem]
      rfl⟩
  by_cases hr : refused s cr3
  · rw [MMU_clone_userspace.of_refused hr]
    refine ⟨⟨_, _, rfl⟩, fun _ _ => hr, fun _ s' hs' => ?_⟩
    cases hs'
    exact hsame
  cases P with
  | nil =>
    rw [MMU_clone_userspace.of_nil h hr]
    refine ⟨⟨_, _, rfl⟩, by simp, fun _ s' hs' => ?_⟩
    cases hs'
    exact hsame
  | cons c P1 =>
    by_cases hc : c = 0
    · subst hc
      obtain ⟨s1, hrun, hpool1, _⟩ := MMU_clone_userspace.of_zero h hr
      rw [hrun]
      refine ⟨⟨_, _, rfl⟩, fun hall => ?_, fun hcond => absurd (hcond rfl) hr⟩
      obtain ⟨P', hpool', hperm, _⟩ := hall s1 rfl
      have hlen := hperm.length_eq
      rw [hpool'.unique hpool1, List.length_cons] at hlen
      omega
    · have hcond : (c :: P1).head? = some 0 → refused s cr3 := by
        intro he
        exact absurd (by simpa using he) hc
      have hc52 := h.pool.small c List.mem_cons_self
      rcases MMU_clone_userspace.of_cons h hr hc hcur with ⟨s1, A, P', hrun, _⟩ |
        ⟨s1, P', hrun, hpool', hperm, hoff, _⟩
      · rw [hrun]
        refine ⟨⟨_, _, rfl⟩, fun _ => hcond, fun _ s' hs' => ?_⟩
        simp only [Option.some.injEq, Prod.mk.injEq] at hs'
        exact absurd ((frameAddr_eq_zero hc52).mp hs'.1) hc
      · rw [hrun]
        refine ⟨⟨_, _, rfl⟩, fun _ => hcond, fun _ s' hs' => ?_⟩
        cases hs'
        exact ⟨P', hpool', hperm, fun f hf => hoff f (h.apart f hf)⟩

theorem oneSpace_cloneReady : CloneReady oneSpace [32, 33, 34, 35, 36, 37] 0x8000 :=
  ⟨oneSpace_pool, oneSpace_wellFormed, by decide, by decide⟩

/-- The same address space, with one free frame. -/
def oneFrame : Machine := { oneSpace with usable_regions := [⟨0x20000, 0x1000, true⟩] }

theorem oneFrame_cloneReady : CloneReady oneFrame [32] 0x8000 := by
  refine ⟨⟨by decide, ?_, [], chain_nil_iff.mpr rfl, by decide⟩, ⟨by decide, ?_, ?_⟩, by decide,
    by decide⟩
  · intro r hr
    simp only [oneFrame, List.mem_cons, List.not_mem_nil, or_false] at hr
    subst hr
    exact ⟨fun _ => by decide, fun _ => by decide, fun _ => by decide⟩
  · have h8 : userFrames oneFrame.mem (frameOf 0x8000) = {8, 9, 10, 11, 12} := oneSpace_userFrames
    rw [h8]
    decide
  · exact oneSpace_wellFormed.plain

/-- The frame becomes the P4, the clone finds no second one, and the frame is free again. -/
theorem failed_clone_leaks_nothing_oneFrame :
    ∃ s', MMU_clone_userspace 0x8000 oneFrame = some (0, s') ∧
      ∃ P', Pool s' P' ∧ P'.Perm [32] ∧
        ∀ f ∈ userFrames oneFrame.mem (frameOf 0x8000), s'.mem f = oneFrame.mem f := by
  have hfst : (MMU_clone_userspace 0x8000 oneFrame).map Prod.fst = some 0 := by
    decide +kernel
  obtain ⟨⟨r, s'⟩, hrun, rfl⟩ := Option.map_eq_some_iff.mp hfst
  exact ⟨s', hrun, (failed_clone_leaks_nothing_iff oneFrame [32] 0x8000 oneFrame_cloneReady
    (by decide)).2.mpr (fun h => by simp at h) s' hrun⟩

/-- The same address space, with frame 0 as the first free frame. -/
def zeroFirst : Machine :=
  { oneSpace with usable_regions := [⟨0, 0x1000, true⟩, ⟨0x20000, 0x6000, true⟩] }

theorem zeroFirst_cloneReady : CloneReady zeroFirst [0, 32, 33, 34, 35, 36, 37] 0x8000 := by
  refine ⟨⟨by decide, ?_, [], chain_nil_iff.mpr rfl, by decide⟩, ⟨by decide, ?_, ?_⟩, by decide,
    by decide⟩
  · intro r hr
    simp only [zeroFirst, List.mem_cons, List.not_mem_nil, or_false] at hr
    rcases hr with rfl | rfl <;>
      exact ⟨fun _ => by decide, fun _ => by decide, fun _ => by decide⟩
  · have h8 : userFrames zeroFirst.mem (frameOf 0x8000) = {8, 9, 10, 11, 12} := oneSpace_userFrames
    rw [h8]
    decide
  · exact oneSpace_wellFormed.plain

/-- The clone returns 0, and of the seven free frames six are left. -/
theorem failed_clone_leaks_frame_zero :
    ∃ s', MMU_clone_userspace 0x8000 zeroFirst = some (0, s') ∧
      ¬∃ P', Pool s' P' ∧ P'.Perm [0, 32, 33, 34, 35, 36, 37] := by
  have hr : ¬refused zeroFirst 0x8000 := by
    unfold refused
    decide
  obtain ⟨s', hrun, hpool, _⟩ := MMU_clone_userspace.of_zero zeroFirst_cloneReady hr
  refine ⟨s', hrun, ?_⟩
  rintro ⟨P', hpool', hperm⟩
  rw [hpool'.unique hpool] at hperm
  simpa using hperm.length_eq

/-! ## A clone that succeeds -/

/-- The flags of an entry: all of it but the frame number. -/
def flags (w : Word) : Word := set_pfn w 0

/-- The page-table entry that the walk comes to from the entry `w`, which leads to a tree of
height `k`: 0 when it stops before. -/
def pteFrom : Nat → (Nat → Frame) → Word → Word → Word
  | 0, _, w, _ => w
  | k + 1, m, w, va =>
    if leads (k + 1) w then pteFrom k m (m (pfn w) (table_index (12 + 9 * k) va)) va else 0

/-- The page-table entry of `va`. -/
def pte (m : Nat → Frame) (p4 : Nat) (va : Word) : Word := pteFrom 3 m (m p4 (PML4_INDEX va)) va

/-- The page at `va` under the P4 `d` is like the one under `a`: mapped, reserved or absent
alike, with the same flags on the whole way, and with the same contents. -/
structure SamePage (m : Nat → Frame) (a : Nat) (m' : Nat → Frame) (d : Nat) (va : Word) : Prop where
  present : present (pte m' d va) = present (pte m a va)
  demand : demand (pte m' d va) = demand (pte m a va)
  flags : JamsOs.present (pte m a va) = true ∨ JamsOs.demand (pte m a va) = true →
    (walk 4 m' d va).map flags = (walk 4 m a va).map flags
  contents : ∀ f', page 4 m' d va = some f' → ∃ f, page 4 m a va = some f ∧ m' f' = m f

section

variable {k : Nat} {m m' : Nat → Frame} {w w' : Word}

/-- The walk from an entry that leads to a tree of height `k`. -/
def walkFrom (k : Nat) (m : Nat → Frame) (w va : Word) : List Word :=
  w :: if leads k w then walk k m (pfn w) va else []

/-- The page that the walk from an entry comes to. -/
def pageFrom (k : Nat) (m : Nat → Frame) (w va : Word) : Option Nat :=
  if leads k w then page k m (pfn w) va else none

/-- The same as `SamePage`, for walks from two entries. -/
structure SameFrom (k : Nat) (m : Nat → Frame) (w : Word) (m' : Nat → Frame) (w' va : Word) : Prop where
  present : present (pteFrom k m' w' va) = present (pteFrom k m w va)
  demand : demand (pteFrom k m' w' va) = demand (pteFrom k m w va)
  flags : JamsOs.present (pteFrom k m w va) = true ∨ JamsOs.demand (pteFrom k m w va) = true →
    (walkFrom k m' w' va).map flags = (walkFrom k m w va).map flags
  contents : ∀ f', pageFrom k m' w' va = some f' → ∃ f, pageFrom k m w va = some f ∧ m' f' = m f

/-- A full copy of an entry, down to the pages. -/
theorem EntryCopy.same (h : EntryCopy true (k == 0) (fun a d => Copy true k m a m' d) w w')
    (hp : Plain (hasBig k) k m w) (va : Word) : SameFrom k m w m' w' va := by
  induction k generalizing w w' with
  | zero =>
    have hpres := h.full rfl
    by_cases hw : present w = true
    · obtain ⟨_, hw', hbelow⟩ := h.linked (hpres.trans hw)
      have hl : leads 0 w = true := leads_of_plain hp hw
      have hl' : leads 0 w' = true := by simp [leads, hasBig, hpres, hw]
      have hflags : flags w' = flags w := by
        unfold flags
        rw [hw', set_pfn_set_pfn]
      refine ⟨hpres, ?_, fun _ => ?_, ?_⟩
      · unfold pteFrom
        rw [hw', demand_set_pfn]
      · simp [walkFrom, hl, hl', walk, hflags]
      · intro f' hf'
        simp only [pageFrom, hl', if_true, page, Option.some.injEq] at hf'
        subst hf'
        exact ⟨pfn w, by simp [pageFrom, hl, page], hbelow⟩
    · have hw0 : present w = false := by simpa using hw
      have hl : leads 0 w = false := leads_of_absent hw0
      have hl' : leads 0 w' = false := leads_of_absent (hpres.trans hw0)
      have hres := h.reserved rfl rfl hw0
      refine ⟨hpres, ?_, ?_, ?_⟩
      · rcases hres with rfl | ⟨h1, h2⟩
        · rfl
        · exact h2.trans h1.symm
      · intro hpd
        rcases hres with rfl | ⟨h1, _⟩
        · simp [walkFrom, hl]
        · simp [pteFrom, hw0, h1] at hpd
      · intro f' hf'
        simp [pageFrom, hl'] at hf'
  | succ k ih =>
    have hpres := h.full rfl
    by_cases hw : present w = true
    · obtain ⟨_, hw', hbelow⟩ := h.linked (hpres.trans hw)
      have hl : leads (k + 1) w = true := leads_of_plain hp hw
      have hl' : leads (k + 1) w' = true := by
        have hb : big_page w' = big_page w := by rw [hw', big_page_set_pfn]
        unfold leads at hl ⊢
        rw [hpres, hb]
        exact hl
      have hflags : flags w' = flags w := by
        unfold flags
        rw [hw', set_pfn_set_pfn]
      have hnb := (hp hw).2
      obtain ⟨h1, h2, h3, h4⟩ := ih (hbelow (table_index (12 + 9 * k) va))
        (plain_below hnb (table_index (12 + 9 * k) va))
      refine ⟨?_, ?_, ?_, ?_⟩
      · simp only [pteFrom, hl, hl', if_true]
        exact h1
      · simp only [pteFrom, hl, hl', if_true]
        exact h2
      · intro hpd
        simp only [pteFrom, hl, if_true] at hpd
        simp only [walkFrom, hl, hl', if_true, List.map_cons, hflags]
        exact congrArg _ (h3 hpd)
      · intro f' hf'
        simp only [pageFrom, hl', if_true] at hf'
        simp only [pageFrom, hl, if_true]
        exact h4 f' hf'
    · have hw0 : present w = false := by simpa using hw
      have hl : leads (k + 1) w = false := leads_of_absent hw0
      have hl' : leads (k + 1) w' = false := leads_of_absent (hpres.trans hw0)
      refine ⟨?_, ?_, ?_, ?_⟩
      · simp [pteFrom, hl, hl']
      · simp [pteFrom, hl, hl']
      · intro hpd
        simp [pteFrom, hl] at hpd
      · intro f' hf'
        simp [pageFrom, hl'] at hf'

end

/-- When `MMU_clone_userspace` returns a child, every user address has the same page in the
child as in the parent. The child is made of frames that were free, each one once, its lower
entries are the kernel's, and no frame that was not free is written. -/
theorem clone_userspace_copies_exactly (s s' : Machine) (P : List Nat) (cr3 child : Word)
    (h : CloneReady s P cr3) (hrun : MMU_clone_userspace cr3 s = some (child, s')) (hchild : child ≠ 0) :
    (∀ va, PML4_INDEX va ∈ userSlots → SamePage s.mem (frameOf cr3) s'.mem (frameOf child) va) ∧
    (userFrames s'.mem (frameOf child)).Nodup ∧
    (∀ f ∈ userFrames s'.mem (frameOf child), f ∈ P) ∧
    (∀ i, i ∉ userSlots → s'.mem (frameOf child) i = s'.mem (frameOf s.kernel_cr3) i) ∧
    (∀ f ∈ userFrames s.mem (frameOf cr3), s'.mem f = s.mem f) ∧
    ∀ f, f ∉ P → s'.mem f = s.mem f := by
  have hr : ¬refused s cr3 := by
    intro hr
    rw [MMU_clone_userspace.of_refused hr] at hrun
    cases hrun
    exact hchild rfl
  cases P with
  | nil =>
    rw [MMU_clone_userspace.of_nil h hr] at hrun
    cases hrun
    exact absurd rfl hchild
  | cons c P1 =>
    have hc52 := h.pool.small c List.mem_cons_self
    by_cases hc : c = 0
    · subst hc
      obtain ⟨s1, hrun1, _⟩ := MMU_clone_userspace.of_zero h hr
      rw [hrun1] at hrun
      cases hrun
      exact absurd rfl hchild
    obtain ⟨s0, ok, s1, A, P', hcreate, hloop, h1⟩ := clone_space.spec h
    rw [MMU_clone_userspace.of_loop hr hc hc52 hcreate hloop] at hrun
    cases ok with
    | true =>
      simp only [if_true, Option.some.injEq, Prod.mk.injEq] at hrun
      obtain ⟨rfl, rfl⟩ := hrun
      rw [frameOf_frameAddr hc52, restore_interrupts_mem]
      have hA : ∀ f ∈ c :: A, f ∈ c :: P1 := by
        intro f hf
        rw [h1.split]
        exact List.mem_append_left _ hf
      have hoff : ∀ f, f ∉ c :: P1 → s1.mem f = s.mem f := fun f hf =>
        h1.off f fun hm => hf (hA f hm)
      refine ⟨?_, ?_, ?_, ?_, fun f hf => hoff f (h.apart f hf), hoff⟩
      · intro va hva
        obtain ⟨p1, p2, p3, p4⟩ := EntryCopy.same (k := 3) (h1.copied (PML4_INDEX va) hva)
          (h.space.plain (PML4_INDEX va) hva) va
        exact ⟨p1, p2, p3, p4⟩
      · have hnd := h.nodup
        rw [h1.split] at hnd
        rw [h1.total]
        exact (List.nodup_append.mp hnd).1
      · rw [h1.total]
        exact hA
      · intro i hi
        rw [h1.kernel i hi, hoff _ h.kernel]
        rfl
    | false =>
      simp only [Bool.false_eq_true, if_false, Option.map_eq_some_iff, Prod.mk.injEq] at hrun
      obtain ⟨_, _, hzero, _⟩ := hrun
      exact absurd hzero.symm hchild

/-- The clone of this address space takes frame 32 for its P4, and has the page at the start
of user space. -/
theorem clone_userspace_copies_oneSpace :
    ∃ s', MMU_clone_userspace 0x8000 oneSpace = some (0x20000, s') ∧
      SamePage oneSpace.mem 8 s'.mem 32 VA_USER_BASE := by
  have hfst : (MMU_clone_userspace 0x8000 oneSpace).map Prod.fst = some 0x20000 := by
    decide +kernel
  obtain ⟨⟨child, s'⟩, hrun, hchild⟩ := Option.map_eq_some_iff.mp hfst
  have hchild : child = 0x20000 := hchild
  subst hchild
  exact ⟨s', hrun, (clone_userspace_copies_exactly oneSpace s' [32, 33, 34, 35, 36, 37] 0x8000
    0x20000 oneSpace_cloneReady hrun (by decide)).1 VA_USER_BASE
    ((mem_userSlots _).mpr (by decide))⟩

end JamsOs
