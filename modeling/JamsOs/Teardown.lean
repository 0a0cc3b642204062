-- The laws of tearing down a user address space. `MMU_destroy_userspace` gives back
-- exactly the frames that the address space owns, each one once, and writes to no other
-- frame. Freeing a frame writes a link into it while the walk goes on, so the proof
-- follows the loops and says after each turn which frames are still to be read.
import JamsOs.PageTrees

namespace JamsOs

open Words RadixTree Linked

/-! ## One entry

Each turn of a loop clears one entry and moves the frames below it into the pool. -/

/-- What one turn at entry `i` of the table `t` does, when the entries `S` of the table lead
to trees of height `k`. -/
structure Cleared (S : Finset (Fin 512)) (k t : Nat) (i : Fin 512) (s : Machine) (P : List Nat)
    (s' : Machine) (P' : List Nat) : Prop where
  pool : Pool s' P'
  freed : (↑P' : Multiset Nat) = sub childOf k s.mem (s.mem t i) + ↑P
  rest : forest childOf S k s'.mem t + sub childOf k s.mem (s.mem t i) =
    forest childOf S k s.mem t
  gone : childOf (s'.mem t i) = none
  row : ∀ j, j ≠ i → s'.mem t j = s.mem t j
  off : ∀ f, f ≠ t → f ∉ sub childOf k s.mem (s.mem t i) → s'.mem f = s.mem f
  regs : SameRegs s s'

variable {S : Finset (Fin 512)} {k t : Nat} {i : Fin 512} {s : Machine} {P : List Nat}

/-- An entry that names no frame is already cleared. -/
theorem cleared_of_absent (hpool : Pool s P) (h : childOf (s.mem t i) = none) :
    Cleared S k t i s P s P :=
  ⟨hpool, by rw [sub_of_none h, zero_add], by rw [sub_of_none h, add_zero], h, fun _ _ => rfl,
    fun _ _ _ => rfl, SameRegs.refl s⟩

/-- An entry that names no frame may be set to 0. -/
theorem cleared_of_reserved (hi : i ∈ S) (hnd : (t ::ₘ (forest childOf S k s.mem t + ↑P)).Nodup)
    (hpool : Pool s P) (h : childOf (s.mem t i) = none) :
    Cleared S k t i s P (s.set_entry (t, i) 0) P := by
  obtain ⟨htn, hrest⟩ := Multiset.nodup_cons.mp hnd
  rw [Multiset.mem_add, not_or] at htn
  have hoff : ∀ f, f ≠ t → (s.set_entry (t, i) 0).mem f = s.mem f :=
    fun f hf => setWord_of_ne hf _ _
  have hrow : ∀ j, j ≠ i → (s.set_entry (t, i) 0).mem t j = s.mem t j :=
    fun j hj => setWord_word_of_ne _ _ hj _
  have hgone : childOf ((s.set_entry (t, i) 0).mem t i) = none := by
    rw [show (s.set_entry (t, i) 0).mem t i = 0 from setWord_same _ _ _ _]
    exact childOf_zero
  refine ⟨?_, by rw [sub_of_none h, zero_add], ?_, hgone, hrow, fun f hf _ => hoff f hf,
    ⟨rfl, rfl, rfl, rfl⟩⟩
  · exact hpool.congr rfl rfl fun f hf => hoff f fun he => htn.2 (he ▸ hf)
  · have hex := forest_exchange (Multiset.nodup_add.mp hrest).1 hi (fun j _ hj => hrow j hj)
      fun f hf _ => hoff f fun he => htn.1 (he ▸ hf)
    rwa [sub_of_none hgone, add_zero] at hex

theorem nodup_below {m : Nat → Frame} {c : Nat} (hnd : (forest childOf S k m t + ↑P).Nodup)
    (hi : i ∈ S) (hc : childOf (m t i) = some c) : (frames childOf k m c + ↑P).Nodup := by
  obtain ⟨hfor, hP, hdis⟩ := Multiset.nodup_add.mp hnd
  have hsub : sub childOf k m (m t i) = frames childOf k m c := sub_of_some hc
  refine Multiset.nodup_add.mpr ⟨?_, hP, ?_⟩
  · rw [← hsub]
    exact sub_nodup_of_forest hfor hi
  · rw [Multiset.disjoint_left, ← hsub]
    intro f hf
    exact Multiset.disjoint_left.mp hdis (mem_forest_of_mem_sub hi hf)

/-- The last two statements of a turn: the frame `c` that the entry names goes to the pool,
and the entry is cleared. What stood below `c` is in the pool already. -/
theorem cleared_of_freed {s1 : Machine} {P1 : List Nat} {c : Nat} (hi : i ∈ S)
    (hnd : (t ::ₘ (forest childOf S k s.mem t + ↑P)).Nodup) (hc : childOf (s.mem t i) = some c)
    (hpool : Pool s1 P1)
    (htotal : c ::ₘ (↑P1 : Multiset Nat) = frames childOf k s.mem c + ↑P)
    (hoff : ∀ f, f ∉ frames childOf k s.mem c → s1.mem f = s.mem f) (hregs : SameRegs s s1) :
    Cleared S k t i s P ((MMU_pf_free (pfn_to_phys c) s1).set_entry (t, i) 0) (c :: P1) := by
  have hsub : sub childOf k s.mem (s.mem t i) = frames childOf k s.mem c := sub_of_some hc
  have hin : ∀ f ∈ frames childOf k s.mem c, f ∈ forest childOf S k s.mem t := by
    intro f hf
    rw [← hsub] at hf
    exact mem_forest_of_mem_sub hi hf
  obtain ⟨htn, hrest⟩ := Multiset.nodup_cons.mp hnd
  have hfor := (Multiset.nodup_add.mp hrest).1
  have htc : t ∉ frames childOf k s.mem c := fun h =>
    htn (Multiset.mem_add.mpr (Or.inl (hin t h)))
  have hnd1 : (c ::ₘ (↑P1 : Multiset Nat)).Nodup := by
    rw [htotal]
    exact nodup_below hrest hi hc
  have hcP1 : c ∉ P1 := (Multiset.nodup_cons.mp hnd1).1
  have htP1 : t ∉ c :: P1 := by
    intro h
    have : t ∈ c ::ₘ (↑P1 : Multiset Nat) := h
    rw [htotal, Multiset.mem_add] at this
    rcases this with h | h
    · exact htc h
    · exact htn (Multiset.mem_add.mpr (Or.inr h))
  have hc52 : c < 2 ^ 52 := by
    have := pfn_lt (s.mem t i)
    rw [(childOf_eq_some.mp hc).2] at this
    omega
  obtain ⟨heq, hpool'⟩ := MMU_pf_free.spec hpool hc52 hcP1
  have hcc : c ∈ frames childOf k s.mem c := root_mem_frames _ _ _
  have hct : t ≠ c := fun h => htc (h ▸ hcc)
  obtain ⟨s', hs'⟩ : ∃ s', s' = (MMU_pf_free (pfn_to_phys c) s1).set_entry (t, i) 0 := ⟨_, rfl⟩
  have hmem : s'.mem = setWord (setWord s1.mem c 0 s1.free_frames) t i 0 := by
    rw [hs']
    unfold pfn_to_phys
    rw [heq]
    rfl
  have hoff' : ∀ f, f ≠ t → f ∉ sub childOf k s.mem (s.mem t i) → s'.mem f = s.mem f := by
    intro f hft hf
    rw [hsub] at hf
    have hfc : f ≠ c := fun h => hf (h ▸ hcc)
    rw [hmem, setWord_of_ne hft, setWord_of_ne hfc]
    exact hoff f hf
  have hrow : ∀ j, j ≠ i → s'.mem t j = s.mem t j := by
    intro j hj
    rw [hmem, setWord_word_of_ne _ _ hj, setWord_of_ne hct, hoff t htc]
  have hgone : childOf (s'.mem t i) = none := by
    rw [hmem, setWord_same]
    exact childOf_zero
  rw [← hs']
  refine ⟨?_, by rw [hsub, ← htotal]; rfl, ?_, hgone, hrow, hoff', ?_⟩
  · rw [hs']
    refine hpool'.congr rfl rfl ?_
    intro f hf
    have hft : f ≠ t := fun h => htP1 (h ▸ hf)
    exact setWord_of_ne hft _ _
  · have hex : forest childOf S k s'.mem t + sub childOf k s.mem (s.mem t i) =
        forest childOf S k s.mem t + sub childOf k s'.mem (s'.mem t i) :=
      forest_exchange hfor hi (fun j _ hj => hrow j hj) fun f hf hfi =>
        hoff' f (fun h => htn (Multiset.mem_add.mpr (Or.inl (h ▸ hf)))) hfi
    rwa [sub_of_none hgone, add_zero] at hex
  · refine hregs.trans ?_
    rw [hs']
    unfold pfn_to_phys
    rw [heq]
    exact ⟨rfl, rfl, rfl, rfl⟩

/-! ## The loop over a table -/

/-- What the loop over the entries `is` of the table `t` does. -/
structure Emptied (S : Finset (Fin 512)) (k t : Nat) (is : List (Fin 512)) (s : Machine)
    (P : List Nat) (s' : Machine) (P' : List Nat) : Prop where
  pool : Pool s' P'
  total : forest childOf S k s'.mem t + ↑P' = forest childOf S k s.mem t + ↑P
  gone : ∀ i ∈ is, childOf (s'.mem t i) = none
  row : ∀ j, j ∉ is → s'.mem t j = s.mem t j
  off : ∀ f, f ≠ t → f ∉ forest childOf S k s.mem t → s'.mem f = s.mem f
  regs : SameRegs s s'

theorem Cleared.total {s' : Machine} {P' : List Nat} (h : Cleared S k t i s P s' P') :
    forest childOf S k s'.mem t + ↑P' = forest childOf S k s.mem t + ↑P := by
  rw [h.freed, ← add_assoc, h.rest]

theorem Cleared.plain {s' : Machine} {P' : List Nat} {has_big : Bool} {j : Fin 512}
    (h : Cleared S k t i s P s' P') (hnd : (t ::ₘ (forest childOf S k s.mem t + ↑P)).Nodup)
    (hi : i ∈ S) (hj : j ∈ S) (hji : j ≠ i) (hp : Plain has_big k s.mem (s.mem t j)) :
    Plain has_big k s'.mem (s'.mem t j) := by
  obtain ⟨htn, hrest⟩ := Multiset.nodup_cons.mp hnd
  have hfor := (Multiset.nodup_add.mp hrest).1
  rw [h.row j hji]
  intro hpres
  obtain ⟨hb, hn⟩ := hp hpres
  refine ⟨hb, hn.congr ?_⟩
  intro f hf
  have hfj : f ∈ sub childOf k s.mem (s.mem t j) := by
    rw [sub_of_some (childOf_of_present hpres)]
    exact mem_frames_of_mem_tables hf
  apply h.off
  · rintro rfl
    exact htn (Multiset.mem_add.mpr (Or.inl (mem_forest_of_mem_sub hj hfj)))
  · exact fun hfi => notMem_sub_of_ne hfor hi hj hji hfi hfj

/-- From one turn to the whole loop, by induction on the entries that are left. The frames
below the table and in the pool stay the same in total, so they stay without duplicates. -/
theorem destroy_loop.spec {step : Machine → Fin 512 → Option Machine} {has_big : Bool}
    (hstep : ∀ s P i, i ∈ S → Pool s P → (t ::ₘ (forest childOf S k s.mem t + ↑P)).Nodup →
      Plain has_big k s.mem (s.mem t i) → ∃ s' P', step s i = some s' ∧ Cleared S k t i s P s' P')
    (is : List (Fin 512)) (his : is.Nodup) (hS : ∀ i ∈ is, i ∈ S) (s : Machine) (P : List Nat)
    (hpool : Pool s P) (hnd : (t ::ₘ (forest childOf S k s.mem t + ↑P)).Nodup)
    (hplain : ∀ i ∈ is, Plain has_big k s.mem (s.mem t i)) :
    ∃ s' P', is.foldlM step s = some s' ∧ Emptied S k t is s P s' P' := by
  induction is generalizing s P with
  | nil =>
    exact ⟨s, P, rfl, hpool, rfl, by simp, fun _ _ => rfl, fun _ _ _ => rfl, SameRegs.refl s⟩
  | cons i is ih =>
    obtain ⟨hin, his⟩ := List.nodup_cons.mp his
    have hi := hS i List.mem_cons_self
    obtain ⟨s1, P1, hrun, h1⟩ := hstep s P i hi hpool hnd (hplain i List.mem_cons_self)
    obtain ⟨s', P', hrest, h2⟩ := ih his (fun j hj => hS j (List.mem_cons_of_mem _ hj)) s1 P1
      h1.pool (by rw [h1.total]; exact hnd) (fun j hj =>
        h1.plain hnd hi (hS j (List.mem_cons_of_mem _ hj)) (fun h => hin (h ▸ hj))
          (hplain j (List.mem_cons_of_mem _ hj)))
    refine ⟨s', P', by rw [List.foldlM_cons, hrun]; exact hrest, h2.pool,
      h2.total.trans h1.total, ?_, ?_, ?_, h1.regs.trans h2.regs⟩
    · intro j hj
      rcases List.mem_cons.mp hj with rfl | hj
      · rw [h2.row j hin]
        exact h1.gone
      · exact h2.gone j hj
    · intro j hj
      rw [h2.row j fun h => hj (List.mem_cons_of_mem _ h),
        h1.row j fun h => hj (h ▸ List.mem_cons_self)]
    · intro f hft hf
      have hf1 : f ∉ forest childOf S k s1.mem t := by
        intro h
        exact hf (by rw [← h1.rest]; exact Multiset.mem_add.mpr (Or.inl h))
      rw [h2.off f hft hf1]
      exact h1.off f hft fun h => hf (mem_forest_of_mem_sub hi h)

/-! ## The three levels -/

/-- The function empties a table of height `k`: all frames below it go to the pool, and only
the table and those frames are written. -/
def Empties (k : Nat) (destroy : Nat → Machine → Option Machine) : Prop :=
  ∀ t s P, Pool s P → (frames childOf k s.mem t + ↑P).Nodup → NoBig k s.mem t →
    ∃ s' P', destroy t s = some s' ∧ Pool s' P' ∧
      t ::ₘ (↑P' : Multiset Nat) = frames childOf k s.mem t + ↑P ∧
      (∀ f, f ∉ frames childOf k s.mem t → s'.mem f = s.mem f) ∧ SameRegs s s'

theorem destroy_page.spec (hi : i ∈ S) (hpool : Pool s P)
    (hnd : (t ::ₘ (forest childOf S 0 s.mem t + ↑P)).Nodup) :
    ∃ P', Cleared S 0 t i s P (destroy_page t s i) P' := by
  unfold destroy_page
  by_cases hpres : present (s.mem t i) = true
  · simp only [hpres, Bool.not_true, Bool.false_and, Bool.false_eq_true, if_false, if_true]
    refine ⟨_, cleared_of_freed hi hnd (childOf_of_present hpres) hpool ?_ (fun _ _ => rfl)
      (SameRegs.refl s)⟩
    rw [frames_zero, Multiset.singleton_add]
  · have hpres' : present (s.mem t i) = false := by simpa using hpres
    simp only [hpres', Bool.not_false, Bool.true_and, Bool.false_eq_true, if_false]
    have hc := childOf_of_absent hpres'
    split
    · exact ⟨P, cleared_of_absent hpool hc⟩
    · exact ⟨P, cleared_of_reserved hi hnd hpool hc⟩

theorem destroy_table.spec {has_big : Bool} {destroy_below : Nat → Machine → Option Machine}
    (hbelow : Empties k destroy_below) (hi : i ∈ S) (hpool : Pool s P)
    (hnd : (t ::ₘ (forest childOf S k s.mem t + ↑P)).Nodup)
    (hplain : Plain has_big k s.mem (s.mem t i)) :
    ∃ s' P', destroy_table has_big destroy_below t s i = some s' ∧ Cleared S k t i s P s' P' := by
  unfold destroy_table
  by_cases hpres : present (s.mem t i) = true
  · obtain ⟨hb, hnb⟩ := hplain hpres
    have hbig : (has_big && big_page (s.mem t i)) = false := by
      cases has_big with
      | false => rfl
      | true => simpa using hb rfl
    simp only [hpres, hbig, Bool.not_true, Bool.false_eq_true, if_false]
    have hc := childOf_of_present hpres
    obtain ⟨_, hrest⟩ := Multiset.nodup_cons.mp hnd
    obtain ⟨s1, P1, hrun, hpool1, htotal, hoff, hregs⟩ :=
      hbelow (pfn (s.mem t i)) s P hpool (nodup_below hrest hi hc) hnb
    refine ⟨_, _, by rw [hrun]; rfl, cleared_of_freed hi hnd hc hpool1 htotal hoff hregs⟩
  · have hpres' : present (s.mem t i) = false := by simpa using hpres
    simp only [hpres', Bool.not_false, if_true]
    exact ⟨s, P, rfl, cleared_of_absent hpool (childOf_of_absent hpres')⟩

/-- A loop over all entries empties the table. -/
theorem empties_of_step {destroy : Nat → Machine → Option Machine} (has_big : Bool)
    (step : Nat → Machine → Fin 512 → Option Machine)
    (hstep : ∀ t s P i, Pool s P →
      (t ::ₘ (forest childOf Finset.univ k s.mem t + ↑P)).Nodup →
      Plain has_big k s.mem (s.mem t i) →
      ∃ s' P', step t s i = some s' ∧ Cleared Finset.univ k t i s P s' P')
    (hplain : ∀ m t, NoBig (k + 1) m t → ∀ i, Plain has_big k m (m t i))
    (hloop : ∀ t s, destroy t s = (List.finRange 512).foldlM (step t) s) :
    Empties (k + 1) destroy := by
  intro t s P hpool hnd hnb
  have hnd' : (t ::ₘ (forest childOf Finset.univ k s.mem t + ↑P)).Nodup := by
    rwa [frames_succ, Multiset.cons_add] at hnd
  obtain ⟨s', P', hrun, h⟩ := destroy_loop.spec (fun s P i _ => hstep t s P i)
    (List.finRange 512) (List.nodup_finRange 512) (fun i _ => Finset.mem_univ i) s P hpool hnd'
    (fun i _ => hplain _ _ hnb i)
  refine ⟨s', P', by rw [hloop, hrun], h.pool, ?_, ?_, h.regs⟩
  · have htotal := h.total
    rw [forest_eq_zero (fun i _ => h.gone i (List.mem_finRange i)), zero_add] at htotal
    rw [htotal, frames_succ, Multiset.cons_add]
  · intro f hf
    rw [frames_succ, Multiset.mem_cons, not_or] at hf
    exact h.off f hf.1 hf.2

theorem destroy_userspace_PT.spec : Empties 1 destroy_userspace_PT := by
  refine empties_of_step false (fun t s i => some (destroy_page t s i)) ?_ ?_ ?_
  · intro t s P i hpool hnd _
    obtain ⟨P', h⟩ := destroy_page.spec (Finset.mem_univ i) hpool hnd
    exact ⟨_, P', rfl, h⟩
  · exact fun m t _ i _ => ⟨fun h => by simp at h, trivial⟩
  · intro t s
    unfold destroy_userspace_PT
    exact (List.foldlM_pure (m := Option)).symm

theorem destroy_userspace_PD.spec : Empties 2 destroy_userspace_PD := by
  refine empties_of_step true (destroy_table true destroy_userspace_PT) ?_
    (fun _ _ h i => plain_of_noBig h i) fun _ _ => rfl
  intro t s P i hpool hnd hp
  exact destroy_table.spec destroy_userspace_PT.spec (Finset.mem_univ i) hpool hnd hp

theorem destroy_userspace_PDPT.spec : Empties 3 destroy_userspace_PDPT := by
  refine empties_of_step true (destroy_table true destroy_userspace_PD) ?_
    (fun _ _ h i => plain_of_noBig h i) fun _ _ => rfl
  intro t s P i hpool hnd hp
  exact destroy_table.spec destroy_userspace_PD.spec (Finset.mem_univ i) hpool hnd hp

/-! ## The whole address space -/

/-- The address space is well formed: its tables and pages are distinct frames, none of them
is free, and it maps no huge page in its user half. -/
structure UserSpace (s : Machine) (P : List Nat) (cr3 : Word) : Prop where
  aligned : cr3.toNat % 4096 = 0
  owned : (userFrames s.mem (frameOf cr3) + ↑P).Nodup
  plain : ∀ i ∈ userSlots, Plain false 3 s.mem (s.mem (frameOf cr3) i)

theorem restore_interrupts_CLI (s s' : Machine) (h : SameRegs (CLI s) s') :
    SameRegs s (restore_interrupts s.interrupts s') := by
  obtain ⟨h1, h2, h3, h4⟩ := h
  unfold restore_interrupts
  split
  · rename_i hi
    exact ⟨h1, h2, h3, hi.symm⟩
  · rename_i hi
    refine ⟨h1, h2, h3, h4.trans ?_⟩
    simpa [CLI] using hi

@[simp] theorem restore_interrupts_mem (b : Bool) (s : Machine) :
    (restore_interrupts b s).mem = s.mem := by
  unfold restore_interrupts
  split <;> rfl

theorem Pool.restore_interrupts {s : Machine} {P : List Nat} (h : Pool s P) (b : Bool) :
    Pool (restore_interrupts b s) P := by
  unfold JamsOs.restore_interrupts
  split
  · exact h.congr rfl rfl fun _ _ => rfl
  · exact h

/-- The three guards let the teardown pass. -/
structure MayDestroy (s : Machine) (cr3 : Word) : Prop where
  nonzero : cr3 ≠ 0
  not_kernel : frameOf cr3 ≠ frameOf s.kernel_cr3
  not_current : frameOf cr3 ≠ frameOf s.cr3

theorem MMU_destroy_userspace.spec {cr3 : Word} (hpool : Pool s P) (hwf : UserSpace s P cr3)
    (hmay : MayDestroy s cr3) :
    ∃ s' P', MMU_destroy_userspace cr3 s = some s' ∧ Pool s' P' ∧
      (↑P' : Multiset Nat) = userFrames s.mem (frameOf cr3) + ↑P ∧
      (∀ f, f ∉ userFrames s.mem (frameOf cr3) → s'.mem f = s.mem f) ∧ SameRegs s s' := by
  have hcr3 : cr3 &&& PAGE_MASK = cr3 := by rw [masked_eq, frameAddr_frameOf hwf.aligned]
  have hne : ∀ q : Word, frameOf cr3 ≠ frameOf q → ¬cr3 = q &&& PAGE_MASK := by
    intro q hq he
    rw [he, masked_eq, frameOf_frameAddr (frameOf_lt q)] at hq
    exact hq rfl
  have hnd : (frameOf cr3 ::ₘ (forest childOf userSlots 3 (CLI s).mem (frameOf cr3) + ↑P)).Nodup := by
    have := hwf.owned
    rwa [userFrames, Multiset.cons_add] at this
  obtain ⟨s1, P1, hrun, h⟩ := destroy_loop.spec
    (fun s P i hi hpool hnd hp =>
      destroy_table.spec destroy_userspace_PDPT.spec hi hpool hnd hp)
    user_slots user_slots_nodup (fun i hi => (mem_user_slots i).mp hi) (CLI s) P
    (hpool.congr rfl rfl fun _ _ => rfl) hnd (fun i hi => hwf.plain i ((mem_user_slots i).mp hi))
  have htotal : (↑P1 : Multiset Nat) = userForest s.mem (frameOf cr3) + ↑P := by
    have htotal := h.total
    rwa [forest_eq_zero (fun i hi => h.gone i ((mem_user_slots i).mpr hi)), zero_add] at htotal
  have hout : frameOf cr3 ∉ P1 := by
    intro hm
    have hm' : frameOf cr3 ∈ (↑P1 : Multiset Nat) := hm
    rw [htotal] at hm'
    exact (Multiset.nodup_cons.mp hnd).1 hm'
  obtain ⟨heq, hpool'⟩ := MMU_pf_free.spec h.pool (frameOf_lt cr3) hout
  rw [frameAddr_frameOf hwf.aligned] at heq hpool'
  refine ⟨restore_interrupts s.interrupts (MMU_pf_free cr3 s1), frameOf cr3 :: P1, ?_,
    hpool'.restore_interrupts _, ?_, ?_, ?_⟩
  · unfold MMU_destroy_userspace
    simp only [hcr3]
    rw [if_neg hmay.nonzero, if_neg (show ¬cr3 = (CLI s).kernel_cr3 &&& PAGE_MASK from hne _ hmay.not_kernel),
      if_neg (show ¬cr3 = (CLI s).cr3 &&& PAGE_MASK from hne _ hmay.not_current), hrun]
    rfl
  · rw [← Multiset.cons_coe, htotal, userFrames, Multiset.cons_add]
  · intro f hf
    rw [userFrames, Multiset.mem_cons, not_or] at hf
    rw [restore_interrupts_mem, heq]
    exact (setWord_of_ne hf.1 _ _).trans (h.off f hf.1 hf.2)
  · apply restore_interrupts_CLI
    rw [heq]
    exact ⟨h.regs.1, h.regs.2, h.regs.3, h.regs.4⟩

/-- What an access at `va` gives under the two memories is the same: the entries of the walk,
and the page that it comes to with its contents. -/
structure SameAccess (m m' : Nat → Frame) (p4 : Nat) (va : Word) : Prop where
  walk : walk 4 m' p4 va = walk 4 m p4 va
  page : page 4 m' p4 va = page 4 m p4 va
  contents : ∀ f, JamsOs.page 4 m p4 va = some f → m' f = m f

theorem sameAccess_of_reads {m m' : Nat → Frame} {p4 : Nat} {va : Word}
    (h : ∀ f ∈ reads 4 m p4 va, m' f = m f) : SameAccess m m' p4 va :=
  ⟨(access_congr h).1, (access_congr h).2, fun f hf => h f (page_mem_reads hf)⟩

/-- Tearing down an address space puts exactly its frames into the pool, each one once. Every
other address space is as before at every user address, and so is every kernel address whose
tables are not frames of the one torn down. -/
theorem destroy_userspace_is_exact (s : Machine) (P : List Nat) (cr3 : Word) (hpool : Pool s P)
    (hwf : UserSpace s P cr3) (hmay : MayDestroy s cr3) :
    ∃ s' P', MMU_destroy_userspace cr3 s = some s' ∧ Pool s' P' ∧ P'.Nodup ∧
      (↑P' : Multiset Nat) = userFrames s.mem (frameOf cr3) + ↑P ∧
      (∀ f, f ∉ userFrames s.mem (frameOf cr3) → s'.mem f = s.mem f) ∧ SameRegs s s' ∧
      (∀ p4, Disjoint (userFrames s.mem p4) (userFrames s.mem (frameOf cr3)) →
        ∀ va, PML4_INDEX va ∈ userSlots → SameAccess s.mem s'.mem p4 va) ∧
      ∀ p4 va, (∀ f ∈ reads 4 s.mem p4 va, f ∉ userFrames s.mem (frameOf cr3)) →
        SameAccess s.mem s'.mem p4 va := by
  obtain ⟨s', P', hrun, hpool', htotal, hoff, hregs⟩ := MMU_destroy_userspace.spec hpool hwf hmay
  have hother : ∀ p4 va, (∀ f ∈ reads 4 s.mem p4 va, f ∉ userFrames s.mem (frameOf cr3)) →
      SameAccess s.mem s'.mem p4 va :=
    fun p4 va hreads => sameAccess_of_reads fun f hf => hoff f (hreads f hf)
  refine ⟨s', P', hrun, hpool', ?_, htotal, hoff, hregs, ?_, hother⟩
  · rw [← Multiset.coe_nodup, htotal]
    exact hwf.owned
  · intro p4 hdis va hva
    exact hother p4 va fun f hf =>
      Multiset.disjoint_left.mp hdis (reads_subset_userFrames hva hf)

/-- A user address space with its P4 in frame 8, one page at the start of user space in frame
12, and the two pages after it reserved. The kernel P4 is frame 1, and 6 frames from 32 on are
free. -/
def oneSpace : Machine where
  mem := fun f i =>
    match f with
    | 1 => if i = 0 then 0x2203 else 0
    | 2 => 0x283
    | 8 => if i = 0 then 0x2203 else if i = 32 then 0x9207 else 0
    | 9 => if i = 0 then 0xA207 else 0
    | 10 => if i = 0 then 0xB207 else 0
    | 11 => if i = 0 then 0xC007 else if i = 1 ∨ i = 2 then 0x200 else 0
    | 12 => 0x1234
    | _ => 0
  usable_regions := [⟨0x20000, 0x6000, true⟩]
  free_frames := INVALID_FRAME_ADDR
  kernel_cr3 := 0x1000
  kernel_va := VA_KHEAP_BASE
  cr3 := 0x1000
  interrupts := true

theorem oneSpace_pool : Pool oneSpace [32, 33, 34, 35, 36, 37] := by
  refine ⟨by decide, ?_, [], chain_nil_iff.mpr rfl, by decide⟩
  intro r hr
  rw [oneSpace, List.mem_singleton] at hr
  subst hr
  exact ⟨fun _ => by decide, fun _ => by decide, fun _ => by decide⟩

theorem oneSpace_PT : frames childOf 1 oneSpace.mem 11 = {11, 12} := by
  have honly : ∀ j, j ≠ 0 → childOf (oneSpace.mem 11 j) = none := by
    intro j hj
    by_cases h : j = 1 ∨ j = 2
    · rcases h with rfl | rfl
      · decide
      · decide
    · simp [oneSpace, hj, h]
  rw [frames_of_only (c := 12) (by decide) honly, frames_zero]
  rfl

theorem oneSpace_PDPT : frames childOf 3 oneSpace.mem 9 = {9, 10, 11, 12} := by
  rw [frames_of_only (i := 0) (c := 10) (by decide) fun j hj => by simp [oneSpace, hj],
    frames_of_only (i := 0) (c := 11) (by decide) fun j hj => by simp [oneSpace, hj], oneSpace_PT]
  rfl

theorem oneSpace_userFrames : userFrames oneSpace.mem 8 = {8, 9, 10, 11, 12} := by
  have h32 : (32 : Fin 512) ∈ userSlots := (mem_userSlots 32).mpr (by decide)
  rw [userFrames, userForest, forest_of_only h32]
  · rw [sub_of_some (c := 9) (by decide), oneSpace_PDPT]
    rfl
  · intro j hj hne
    have h0 : j ≠ 0 := by
      rintro rfl
      exact absurd ((mem_userSlots 0).mp hj) (by decide)
    simp [oneSpace, h0, hne]

theorem oneSpace_noBig : NoBig 3 oneSpace.mem 9 := by
  intro i hi
  have h0 : i = 0 := by
    by_contra h
    simp [oneSpace, h] at hi
  subst h0
  refine ⟨by decide, ?_⟩
  intro i hi
  have h0 : i = 0 := by
    by_contra h
    have h10 : pfn (oneSpace.mem 9 0) = 10 := by decide
    rw [h10] at hi
    simp [oneSpace, h] at hi
  subst h0
  exact ⟨by decide, trivial⟩

theorem oneSpace_wellFormed : UserSpace oneSpace [32, 33, 34, 35, 36, 37] 0x8000 := by
  have h8 : frameOf 0x8000 = 8 := rfl
  refine ⟨by decide, ?_, ?_⟩
  · rw [h8, oneSpace_userFrames]
    decide
  · intro i hi hpres
    rw [h8] at hpres ⊢
    have h0 : i ≠ 0 := by
      rintro rfl
      exact absurd ((mem_userSlots 0).mp hi) (by decide)
    have h32 : i = 32 := by
      by_contra h
      simp [oneSpace, h0, h] at hpres
    subst h32
    exact ⟨nofun, oneSpace_noBig⟩

/-- The five frames of the address space go to the pool, and the kernel half stays. -/
theorem destroy_userspace_is_exact_oneSpace :
    ∃ s' P', MMU_destroy_userspace 0x8000 oneSpace = some s' ∧ Pool s' P' ∧ P'.length = 11 ∧
      SameAccess oneSpace.mem s'.mem 1 0 := by
  obtain ⟨s', P', hrun, hpool, _, htotal, _, _, _, hother⟩ :=
    destroy_userspace_is_exact oneSpace [32, 33, 34, 35, 36, 37] 0x8000 oneSpace_pool
      oneSpace_wellFormed ⟨by decide, by decide, by decide⟩
  have h8 : frameOf 0x8000 = 8 := rfl
  rw [h8, oneSpace_userFrames] at htotal hother
  refine ⟨s', P', hrun, hpool, ?_, hother 1 0 (by decide)⟩
  have := congrArg Multiset.card htotal
  simpa using this

end JamsOs
