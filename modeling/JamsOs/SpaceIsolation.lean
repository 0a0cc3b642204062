-- Address spaces do not disturb each other. What a program sees at its user addresses changes only by
-- calls on its own address space and by its own page faults. An address space that is made and torn
-- down again gives back every frame that it took, whatever was done to it in between.
import JamsOs.AddressSpaces

namespace JamsOs

open Words RadixTree

section

variable {e : SpaceEvent} {es : List SpaceEvent} {w w' : Spaces} {R : Multiset Nat} {P : List Nat}
  {cr3 c : Word}

theorem Sound.after_run {s : Machine} (h : Sound s [] R P)
    (hrun : Runs.run space_step es ⟨s, []⟩ = some w) : ∃ R P, Sound w.machine w.live R P :=
  Runs.run_keeps (I := fun w : Spaces => ∃ R P, Sound w.machine w.live R P) space_step_keeps_sound
    ⟨R, P, h⟩ hrun

/-! ## Other address spaces -/

/-- The event is neither a call on the address space nor a page fault of a program in it. -/
def spares (cr3 : Word) : SpaceEvent → Spaces → Prop
  | .alloc_at c _ _, _ => c ≠ cr3
  | .copy_to_user c _ _ _, _ => c ≠ cr3
  | .zero_user c _ _, _ => c ≠ cr3
  | .destroy c, _ => c ≠ cr3
  | .fault va, w => PML4_INDEX va ∈ userSlots → frameOf w.machine.cr3 ≠ frameOf cr3
  | .create, _ => True
  | .switch _, _ => True
  | .clone _, _ => True

theorem Sound.user_ne (h : Sound w.machine w.live R P) (h1 : cr3 ∈ w.live) (h2 : c ∈ w.live)
    (hne : c ≠ cr3) : userTree (frameOf c) ≠ userTree (frameOf cr3) :=
  fun he => hne (userTree_injective h h2 h1 he)

theorem mem_with_space (s : Machine) {live : List Word} (h : cr3 ∈ live) :
    cr3 ∈ (with_space c s live).live := by
  unfold with_space
  split
  · exact h
  · exact List.mem_cons_of_mem _ h

/-- A step that spares an address space writes none of its frames. -/
theorem space_step.spared (h : Sound w.machine w.live R P) (hcr3 : cr3 ∈ w.live)
    (hok : spares cr3 e w) (hstep : space_step e w = some w') :
    cr3 ∈ w'.live ∧ ∀ f ∈ treeFrames w.machine.mem (userTree (frameOf cr3)),
      w'.machine.mem f = w.machine.mem f := by
  have hT := userTree_mem w.machine.ptable_p4 hcr3
  -- what is written are free frames, and frames of another tree
  have hedit : ∀ {U P'}, U ∈ trees w.machine.ptable_p4 w.live → U ≠ userTree (frameOf cr3) →
      Edit U w.machine P w'.machine P' → ∀ f ∈ treeFrames w.machine.mem (userTree (frameOf cr3)),
        w'.machine.mem f = w.machine.mem f := fun hU hne hedit f hf =>
    hedit.off f (trees_apart h.grove_nodup hT hU hne hf) (h.tree_notMem_pool hT hf)
  cases e with
  | create =>
    obtain ⟨c, s', R', P', hrun, hmade⟩ := MMU_create_user_p4.sound h
    simp only [space_step, hrun, Option.some.injEq] at hstep
    subst hstep
    exact ⟨mem_with_space _ hcr3, fun f hf => hmade.off f (h.tree_notMem_pool hT hf)⟩
  | alloc_at | copy_to_user | zero_user =>
    obtain ⟨hc, hlive, P', hon⟩ := space_step.edits h hstep rfl
    exact ⟨hlive ▸ hcr3, hedit (userTree_mem _ hc) (h.user_ne hcr3 hc hok) hon⟩
  | fault va =>
    simp only [space_step, Option.map_eq_some_iff] at hstep
    obtain ⟨s', hrun, rfl⟩ := hstep
    obtain ⟨P', hon, hT', -⟩ := ISR14_PAGE_FAULT_HANDLER.edits h hrun
    refine ⟨hcr3, hedit hT' ?_ hon⟩
    unfold walked
    split
    · rename_i hu
      exact fun he => hok hu.1 (congrArg Tree.root he)
    · exact kernelTree_ne_userTree _ _
  | switch c =>
    simp only [space_step, Option.ite_none_right_eq_some, Option.some.injEq] at hstep
    obtain ⟨-, rfl⟩ := hstep
    exact ⟨hcr3, fun _ _ => rfl⟩
  | clone c =>
    simp only [space_step, Option.ite_none_right_eq_some] at hstep
    obtain ⟨hc, hstep⟩ := hstep
    obtain ⟨child, s', R', P', hrun, hmade⟩ := MMU_clone_userspace.sound h hc
    simp only [hrun, Option.map_some, Option.some.injEq] at hstep
    subst hstep
    exact ⟨mem_with_space _ hcr3, fun f hf => hmade.off f (h.tree_notMem_pool hT hf)⟩
  | destroy c =>
    simp only [space_step, Option.ite_none_right_eq_some] at hstep
    obtain ⟨⟨hc, hcur⟩, hstep⟩ := hstep
    obtain ⟨s', P', hrun, -, -, hoff, -⟩ := MMU_destroy_userspace.sound h hc hcur
    simp only [hrun, Option.map_some, Option.some.injEq] at hstep
    subst hstep
    refine ⟨(List.mem_erase_of_ne (Ne.symm hok)).mpr hcr3, fun f hf => hoff f ?_⟩
    exact trees_apart h.grove_nodup hT (userTree_mem _ hc) (h.user_ne hcr3 hc hok) hf

/-- From boot on, whatever the system does: a run without a call on an address space, and without a
page fault of a program in it, leaves all as it was at its user addresses. -/
theorem spaces_do_not_interfere (s : Machine) (R : Multiset Nat) (P0 : List Nat)
    (es0 es : List SpaceEvent) (w w' : Spaces) (cr3 : Word) (h : Sound s [] R P0)
    (hboot : Runs.run space_step es0 ⟨s, []⟩ = some w) (hcr3 : cr3 ∈ w.live)
    (hok : Runs.Meets space_step (spares cr3) es w) (hrun : Runs.run space_step es w = some w') :
    cr3 ∈ w'.live ∧ ∀ va, PML4_INDEX va ∈ userSlots →
      SameAccess w.machine.mem w'.machine.mem (frameOf cr3) va := by
  have hsound := h.after_run hboot
  -- the frames of the address space are the same ones throughout, so they stay out of reach
  obtain ⟨-, hlive, hmem⟩ := Runs.run_keeps_of_meets
    (I := fun v : Spaces => (∃ R P, Sound v.machine v.live R P) ∧ cr3 ∈ v.live ∧
      ∀ f ∈ treeFrames w.machine.mem (userTree (frameOf cr3)), v.machine.mem f = w.machine.mem f)
    (fun e v v' hv hspare hstep => by
      obtain ⟨⟨R, P, hs⟩, hin, hsame⟩ := hv
      obtain ⟨hin', hstays⟩ := space_step.spared hs hin hspare hstep
      rw [treeFrames_congr hsame] at hstays
      exact ⟨space_step_keeps_sound e v v' ⟨R, P, hs⟩ hstep, hin',
        fun f hf => (hstays f hf).trans (hsame f hf)⟩)
    ⟨hsound, hcr3, fun _ _ => rfl⟩ hok hrun
  refine ⟨hlive, fun va hva => sameAccess_of_reads fun f hf => hmem f ?_⟩
  exact reads_subset_userFrames hva hf

theorem spaces_do_not_interfere_booted :
    ∃ w w', Runs.run space_step [.create] ⟨booted, []⟩ = some w ∧
      Runs.run space_step [.create, .alloc_at 0x21000 VA_USER_BASE 0x1000] w = some w' ∧
      ∀ va, PML4_INDEX va ∈ userSlots →
        SameAccess w.machine.mem w'.machine.mem (frameOf 0x20000) va := by
  have hlive : (Runs.run space_step [.create] ⟨booted, []⟩).map Spaces.live = some [0x20000] := by
    decide +kernel
  have hmore : ((Runs.run space_step [.create] ⟨booted, []⟩).bind
      (Runs.run space_step [.create, .alloc_at 0x21000 VA_USER_BASE 0x1000])).isSome := by
    decide +kernel
  obtain ⟨w, hboot, hlive⟩ := Option.map_eq_some_iff.mp hlive
  rw [hboot, Option.bind_some] at hmore
  obtain ⟨w', hrun⟩ := Option.isSome_iff_exists.mp hmore
  refine ⟨w, w', hboot, hrun, (spaces_do_not_interfere booted {2} unpagedPool [.create] _ w w' 0x20000
    booted_sound hboot ?_ ?_ hrun).2⟩
  · rw [hlive]
    exact List.mem_singleton_self _
  · have hother : (0x21000 : Word) ≠ 0x20000 := by decide
    exact ⟨trivial, fun _ _ => ⟨hother, fun _ _ => trivial⟩⟩

/-! ## From the making of an address space to its end -/

/-- The event is a call on the address space or a page fault of a program in it, or only switches to
another one. -/
def belongs (cr3 : Word) : SpaceEvent → Spaces → Prop
  | .alloc_at c _ _, _ => c = cr3
  | .copy_to_user c _ _ _, _ => c = cr3
  | .zero_user c _ _, _ => c = cr3
  | .fault va, w => PML4_INDEX va ∈ userSlots ∧ frameOf w.machine.cr3 = frameOf cr3
  | .switch _, _ => True
  | .create, _ => False
  | .clone _, _ => False
  | .destroy _, _ => False

/-- A step on an address space exchanges frames between it and the free ones. -/
theorem space_step.exchanges (h : Sound w.machine w.live R P) (hcr3 : cr3 ∈ w.live)
    (hok : belongs cr3 e w) (hstep : space_step e w = some w') :
    w'.live = w.live ∧ ∃ P', Sound w'.machine w.live R P' ∧
      treeFrames w'.machine.mem (userTree (frameOf cr3)) + ↑P' =
        treeFrames w.machine.mem (userTree (frameOf cr3)) + ↑P ∧
      ∀ f, f ∉ treeFrames w.machine.mem (userTree (frameOf cr3)) → f ∉ P →
        w'.machine.mem f = w.machine.mem f := by
  cases e with
  | alloc_at | copy_to_user | zero_user =>
    obtain rfl := hok
    obtain ⟨_, hlive, P', hon⟩ := space_step.edits h hstep rfl
    exact ⟨hlive, P', h.edit_user hcr3 hon, hon.total, hon.off⟩
  | fault va =>
    simp only [space_step, Option.map_eq_some_iff] at hstep
    obtain ⟨s', hrun, rfl⟩ := hstep
    obtain ⟨P', hon, -, hs⟩ := ISR14_PAGE_FAULT_HANDLER.edits h hrun
    have hp4 : frameOf cr3 ≠ w.machine.ptable_p4 := by
      intro he
      refine trees_apart h.grove_nodup (userTree_mem _ hcr3) (kernelTree_mem _ _)
        (kernelTree_ne_userTree _ _) (Multiset.mem_cons_self _ _) ?_
      exact he ▸ Sound.kernel_mem w.machine
    have hwalk : walked va w.machine = userTree (frameOf cr3) := by
      unfold walked
      rw [hok.2]
      exact if_pos ⟨hok.1, hp4⟩
    rw [hwalk] at hon
    exact ⟨rfl, P', hs, hon.total, hon.off⟩
  | switch c =>
    simp only [space_step, Option.ite_none_right_eq_some, Option.some.injEq] at hstep
    obtain ⟨hc, rfl⟩ := hstep
    exact ⟨rfl, P, h.switch hc, rfl, fun _ _ _ => rfl⟩
  | create | clone | destroy => cases hok

theorem with_space_new {s : Machine} {live : List Word} (h : (with_space c s live).live = cr3 :: live) :
    c ≠ 0 ∧ c = cr3 := by
  unfold with_space at h
  split at h
  · exact absurd h List.ne_cons_self
  · exact ⟨‹_›, (List.cons.inj h).1⟩

/-- A step that makes an address space. -/
theorem space_step.makes (h : Sound w.machine w.live R P)
    (he : e = .create ∨ ∃ cr3, e = .clone cr3) (hstep : space_step e w = some w')
    (hnew : w'.live = c :: w.live) :
    c ≠ 0 ∧ ∃ R' P', Made w.machine w.live R P c w'.machine R' P' := by
  rcases he with rfl | ⟨cr3, rfl⟩
  · obtain ⟨c', s', R', P', hrun, hmade⟩ := MMU_create_user_p4.sound h
    simp only [space_step, hrun, Option.some.injEq] at hstep
    subst hstep
    obtain ⟨h0, rfl⟩ := with_space_new hnew
    exact ⟨h0, R', P', hmade⟩
  · simp only [space_step, Option.ite_none_right_eq_some] at hstep
    obtain ⟨hcr3, hstep⟩ := hstep
    obtain ⟨c', s', R', P', hrun, hmade⟩ := MMU_clone_userspace.sound h hcr3
    simp only [hrun, Option.map_some, Option.some.injEq] at hstep
    subst hstep
    obtain ⟨h0, rfl⟩ := with_space_new hnew
    exact ⟨h0, R', P', hmade⟩

/-- From boot on: an address space that is made, empty or as a clone, is used, and is torn down leaves
no trace. The same frames are free as before, and all other frames have the same contents. -/
theorem space_life_leaves_no_trace (s : Machine) (R : Multiset Nat) (P0 : List Nat)
    (es0 es : List SpaceEvent) (e : SpaceEvent) (w w1 w2 w3 : Spaces) (child : Word)
    (h : Sound s [] R P0) (hboot : Runs.run space_step es0 ⟨s, []⟩ = some w)
    (he : e = .create ∨ ∃ cr3, e = .clone cr3) (hmake : space_step e w = some w1)
    (hnew : w1.live = child :: w.live) (hok : Runs.Meets space_step (belongs child) es w1)
    (hrun : Runs.run space_step es w1 = some w2) (hend : space_step (.destroy child) w2 = some w3) :
    w3.live = w.live ∧ ∃ P P', Pool w.machine P ∧ Pool w3.machine P' ∧ P'.Perm P ∧
      ∀ f, f ∉ P → w3.machine.mem f = w.machine.mem f := by
  obtain ⟨R, P, hs⟩ := h.after_run hboot
  obtain ⟨h0, R1, P1, hmade⟩ := space_step.makes hs he hmake hnew
  have hs1 := hmade.sound
  rw [if_neg h0] at hs1
  -- the frames of the child and the free frames are together those that were free before
  obtain ⟨hlive, P2, hs2, htotal, hmem⟩ := Runs.run_keeps_of_meets
    (I := fun v : Spaces => v.live = child :: w.live ∧ ∃ Q, Sound v.machine (child :: w.live) R1 Q ∧
      treeFrames v.machine.mem (userTree (frameOf child)) + ↑Q = (↑P : Multiset Nat) ∧
      ∀ f, f ∉ P → v.machine.mem f = w.machine.mem f)
    (fun e v v' hv hof hstep => by
      obtain ⟨hlive, Q, hq, htotal, hsame⟩ := hv
      rw [← hlive] at hq
      obtain ⟨hlive', Q', hq', htotal', hoff⟩ :=
        space_step.exchanges hq (hlive ▸ List.mem_cons_self) hof hstep
      refine ⟨hlive'.trans hlive, Q', hlive ▸ hq', htotal'.trans htotal, fun f hf => ?_⟩
      have hfree : f ∉ treeFrames v.machine.mem (userTree (frameOf child)) + ↑Q := by
        rw [htotal]
        exact hf
      rw [Multiset.mem_add, not_or] at hfree
      exact (hoff f hfree.1 hfree.2).trans (hsame f hf))
    ⟨hnew, P1, hs1, (hmade.frames h0).2, hmade.off⟩ hok hrun
  simp only [space_step, Option.ite_none_right_eq_some] at hend
  obtain ⟨⟨hin, hcur⟩, hend⟩ := hend
  rw [← hlive] at hs2
  obtain ⟨s', P', hdestroy, hs', htotal', hoff, -⟩ := MMU_destroy_userspace.sound hs2 hin hcur
  have hfrom : treeFrames w2.machine.mem (userTree (frameOf child)) =
    userFrames w2.machine.mem (frameOf child) := rfl
  rw [hfrom] at htotal
  simp only [hdestroy, Option.map_some, Option.some.injEq] at hend
  subst hend
  refine ⟨?_, P, P', hs.pool, hs'.pool, Multiset.coe_eq_coe.mp (htotal'.trans htotal), fun f hf => ?_⟩
  · rw [hlive]
    exact List.erase_cons_head _ _
  · refine (hoff f fun hu => hf ?_).trans (hmem f hf)
    rw [← Multiset.mem_coe, ← htotal]
    exact Multiset.mem_add.mpr (Or.inl hu)

/-- A space with one reserved page. -/
theorem space_life_leaves_no_trace_booted :
    ∃ w2 w3, Runs.run space_step [.create, .alloc_at 0x20000 VA_USER_BASE 0x1000] ⟨booted, []⟩ =
        some w2 ∧ space_step (.destroy 0x20000) w2 = some w3 ∧
      w3.live = [] ∧ ∃ P P', Pool booted P ∧ Pool w3.machine P' ∧ P'.Perm P ∧
        ∀ f, f ∉ P → w3.machine.mem f = booted.mem f := by
  have hlive : (space_step .create ⟨booted, []⟩).map Spaces.live = some [0x20000] := by
    decide +kernel
  have hused : (Runs.run space_step [.create, .alloc_at 0x20000 VA_USER_BASE 0x1000]
      ⟨booted, []⟩).map (fun w => (w.live, frameOf w.machine.cr3)) = some ([0x20000], 1) := by
    decide +kernel
  obtain ⟨w1, hmake, hlive⟩ := Option.map_eq_some_iff.mp hlive
  obtain ⟨w2, hboth, hw2⟩ := Option.map_eq_some_iff.mp hused
  simp only [Prod.mk.injEq] at hw2
  obtain ⟨R, P, hs⟩ := booted_sound.after_run hboth
  have hmay : 0x20000 ∈ w2.live ∧ frameOf 0x20000 ≠ frameOf w2.machine.cr3 := by
    rw [hw2.1, hw2.2]
    exact ⟨List.mem_singleton_self _, by decide⟩
  obtain ⟨s3, P3, hdestroy, _⟩ := MMU_destroy_userspace.sound hs hmay.1 hmay.2
  have hend : space_step (.destroy 0x20000) w2 = some ⟨s3, w2.live.erase 0x20000⟩ := by
    rw [space_step, if_pos hmay, hdestroy]
    rfl
  have hrun : Runs.run space_step [.alloc_at 0x20000 VA_USER_BASE 0x1000] w1 = some w2 := by
    rw [Runs.run, hmake] at hboth
    exact hboth
  exact ⟨w2, _, hboth, hend, space_life_leaves_no_trace booted {2} unpagedPool []
    [.alloc_at 0x20000 VA_USER_BASE 0x1000] .create ⟨booted, []⟩ w1 w2 _ 0x20000 booted_sound rfl
    (Or.inl rfl) hmake hlive ⟨rfl, fun _ _ => trivial⟩ hrun hend⟩

end

end JamsOs
