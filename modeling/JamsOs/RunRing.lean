-- The laws of the run ring. The circular list stands for a list of threads, in the order in
-- which they were admitted, with a place in it where `rr_next` goes on. A thread that is
-- admitted again may land before threads that have waited longer.
import JamsOs.RoundRobin

namespace JamsOs

open Linked

/-- The ring holds the threads `a` and then `b`, from the head on, and `b` starts at `Current`. -/
structure RingAt (r : RunRing) (a b : List Nat) : Prop where
  nodup : (a ++ b).Nodup
  count : r.Count = (a ++ b).length
  head : r.Head = (a ++ b).head?
  tail : r.Tail = (a ++ b).getLast?
  chain : Chain some r.Head r.sched_one r.Head (a ++ b)
  current : r.Current = b.head?
  wraps : b = [] → a = []

/-- The ring holds the threads `l`, from the head on. -/
def IsRing (r : RunRing) (l : List Nat) : Prop := ∃ a b, RingAt r a b ∧ l = a ++ b

section

variable {r : RunRing} {a b l : List Nat} {t : Nat}

theorem ringAt_empty : RingAt .empty [] [] :=
  ⟨List.nodup_nil, rfl, rfl, rfl, .nil, rfl, fun _ => rfl⟩

theorem RingAt.members_eq (h : RingAt r a b) : r.members = a ++ b := by
  unfold RunRing.members
  rw [h.count]
  exact h.chain.nodes_eq

/-- The thread after `t`: the next one in the list, or the head. -/
theorem RingAt.next_eq {pre post : List Nat} (h : RingAt r a b) (hl : a ++ b = pre ++ t :: post) :
    r.sched_one t = post.head?.or r.Head := by
  have hc := h.chain
  rw [hl] at hc
  rw [hc.next_eq]
  cases post <;> rfl

/-- A new thread comes last in the list, that is, before the head. -/
theorem rr_admit.spec (h : RingAt r a b) (ht : t ∉ a ++ b) :
    ∃ r', rr_admit t r = some r' ∧ RingAt r' a (b ++ [t]) := by
  rcases List.eq_nil_or_concat (a ++ b) with hnil | ⟨xs, last, hl⟩
  · obtain ⟨rfl, rfl⟩ := List.append_eq_nil_iff.mp hnil
    have hhead : r.Head = none := h.head
    have hcount : r.Count = 0 := h.count
    refine ⟨_, by rw [ rr_admit, hhead], List.nodup_singleton t, by simp [hcount], rfl, rfl, ?_, rfl,
      nofun⟩
    exact chain_cons_iff.mpr ⟨rfl, chain_nil_iff.mpr (Function.update_self _ _ _)⟩
  · rw [List.concat_eq_append] at hl
    have hnd := h.nodup
    rw [hl] at hnd ht
    have hlast : last ∉ xs := fun hm => List.disjoint_of_nodup_append hnd hm (by simp)
    obtain ⟨first, hfirst⟩ : ∃ first, r.Head = some first := by
      rw [h.head, hl]
      cases xs with
      | nil => exact ⟨last, rfl⟩
      | cons x xs => exact ⟨x, rfl⟩
    have htail : r.Tail = some last := by rw [h.tail, hl, List.getLast?_concat]
    have hchain : Chain some r.Head (Function.update (Function.update r.sched_one t r.Head) last
        (some t)) r.Head (xs ++ [last] ++ [t]) := by
      have hc := h.chain
      rw [hl] at hc
      refine chain_append_iff.mpr ⟨some t, (hc.update_of_notMem ht r.Head).set_last hlast _, ?_⟩
      have hne : t ≠ last := fun he => ht (by simp [he])
      rw [chain_cons_iff, Function.update_of_ne hne, Function.update_self]
      exact ⟨rfl, .nil⟩
    refine ⟨_, by rw [ rr_admit, hfirst, htail], ?_⟩
    rw [← hfirst]
    refine ⟨?_, ?_, ?_, ?_, ?_, ?_, ?_⟩
    · rw [← List.append_assoc, hl]
      exact List.nodup_append.mpr ⟨hnd, List.nodup_singleton t, fun x hx y hy hxy =>
        ht (List.mem_singleton.mp hy ▸ hxy ▸ hx)⟩
    · rw [← List.append_assoc, List.length_append, ← h.count]
      rfl
    · rw [← List.append_assoc, hl, List.head?_append_of_ne_nil _ (by simp), ← hl, ← h.head]
    · rw [← List.append_assoc, List.getLast?_concat]
    · rw [← List.append_assoc, hl]
      exact hchain
    · rw [List.head?_append_of_ne_nil]
      · exact h.current
      · intro hb
        rw [h.wraps hb, hb] at hl
        simp at hl
    · simp

/-- `rr_next` returns the thread at `Current`, and goes on with the next one. -/
theorem rr_next.spec {c : Nat} (h : RingAt r a (c :: b)) :
    ∃ r', rr_next r = some (some c, r') ∧ RingAt r' (if b = [] then [] else a ++ [c])
      (if b = [] then a ++ [c] else b) := by
  obtain ⟨first, hfirst⟩ : ∃ first, r.Head = some first := by
    rw [h.head]
    cases a with
    | nil => exact ⟨c, rfl⟩
    | cons x xs => exact ⟨x, rfl⟩
  have hcur : r.Current = some c := h.current
  have hnext := h.next_eq rfl
  refine ⟨{ r with Current := r.sched_one c }, by rw [rr_next, hfirst, hcur], ?_⟩
  have happ : a ++ c :: b = a ++ [c] ++ b := by simp
  by_cases hb : b = []
  · subst hb
    simp only [if_true]
    refine ⟨h.nodup, h.count, h.head, h.tail, h.chain, ?_, by simp⟩
    rw [← h.head]
    exact hnext
  · simp only [hb, if_false]
    refine ⟨?_, ?_, ?_, ?_, ?_, ?_, fun hnil => absurd hnil hb⟩
    · rw [← happ]
      exact h.nodup
    · rw [← happ]
      exact h.count
    · rw [← happ]
      exact h.head
    · rw [← happ]
      exact h.tail
    · rw [← happ]
      exact h.chain
    · obtain ⟨d, b', rfl⟩ := List.exists_cons_of_ne_nil hb
      exact hnext

theorem rr_next.of_nil (h : RingAt r [] []) : rr_next r = some (none, r) := by
  have hhead : r.Head = none := h.head
  rw [rr_next, hhead]

/-- The search goes on past the threads `zs` up to the victim. `prev` is the thread before. -/
theorem remove_loop.spec (prev : Nat) {v : Nat} {zs post : List Nat} {p : Ptr} {n : Nat}
    (h : Chain some r.Head r.sched_one p (zs ++ v :: post)) (hv : v ∉ zs) (hn : zs.length < n)
    (hhead : ∀ x ∈ (zs ++ [v]).tail, r.Head ≠ some x) :
    remove_loop v r n prev p = some (rr_unlink (zs.getLastD prev) v r) := by
  induction zs generalizing p n prev with
  | nil =>
    obtain ⟨n, rfl⟩ := Nat.exists_eq_add_of_lt hn
    obtain ⟨rfl, _⟩ := chain_cons_iff.mp h
    simp [remove_loop]
  | cons z zs ih =>
    obtain ⟨n, rfl⟩ := Nat.exists_eq_succ_of_ne_zero (Nat.ne_zero_of_lt hn)
    obtain ⟨rfl, hrest⟩ := chain_cons_iff.mp h
    simp only [List.mem_cons, not_or] at hv
    have hback : r.sched_one z ≠ r.Head := by
      obtain ⟨x, hx, hnext⟩ : ∃ x ∈ zs ++ [v], r.sched_one z = some x := by
        cases zs with
        | nil => exact ⟨v, by simp, (chain_cons_iff.mp hrest).1⟩
        | cons y zs => exact ⟨y, by simp, (chain_cons_iff.mp hrest).1⟩
      rw [hnext]
      exact (hhead x (by simpa using hx)).symm
    rw [remove_loop, if_neg (Ne.symm hv.1), if_neg hback,
      ih _ hrest hv.2 (by simpa using hn) fun x hx => hhead x (List.mem_of_mem_tail hx),
      List.getLastD_cons]

/-- The list after a thread was taken out of a ring of at least two threads. -/
theorem rr_unlink.chain {pre post : List Nat} (h : RingAt r a b) (hl : a ++ b = pre ++ t :: post)
    (hlen : pre ++ post ≠ []) :
    let r' := rr_unlink (pre.getLastD ((a ++ b).getLastD 0)) t r
    Chain some r'.Head r'.sched_one r'.Head (pre ++ post) ∧ r'.Head = (pre ++ post).head? ∧
      r'.Tail = (pre ++ post).getLast? := by
  have hnd := h.nodup
  have hchain := h.chain
  have hhead := h.head
  have htail := h.tail
  have hnext := h.next_eq hl
  rw [hl] at hnd hchain hhead htail ⊢
  rcases List.eq_nil_or_concat pre with rfl | ⟨xs, prev, hpre⟩
  · -- the head goes, and the last thread now points to the new head
    obtain ⟨zs, last, hpost⟩ : ∃ zs last, post = zs ++ [last] :=
      ⟨_, _, (List.dropLast_append_getLast hlen).symm⟩
    have hne : last ≠ t := by
      rintro rfl
      simp [hpost] at hnd
    have hhd : r.sched_one t = post.head? := by
      rw [hnext, hpost]
      cases zs <;> rfl
    have hH : r.Head = some t := hhead
    have hcat : t :: post = t :: zs ++ [last] := by rw [hpost, List.cons_append]
    have hT : r.Tail = some last := by rw [htail, List.nil_append, hcat, List.getLast?_concat]
    have hlast : (t :: post).getLastD 0 = last := by rw [hcat, List.getLastD_concat]
    simp only [List.getLastD_nil, hlast, rr_unlink, hH, hT, if_true, Option.some.injEq, hne, if_false,
      List.nil_append, hhd, true_and]
    refine ⟨?_, by rw [hpost, List.getLast?_concat]⟩
    obtain ⟨_, hrest⟩ := chain_cons_iff.mp hchain
    rw [hhd, hpost] at hrest
    rw [hpost]
    refine hrest.set_last ?_ _
    rw [hpost] at hnd
    simp only [List.nil_append, List.nodup_cons, List.nodup_append] at hnd
    exact fun hm => hnd.2.2.2 last hm last (by simp) rfl
  · rw [List.concat_eq_append] at hpre
    subst hpre
    have hH : r.Head ≠ some t := by
      rw [hhead]
      intro he
      cases xs with
      | nil => simp at he; simp [he] at hnd
      | cons x xs => simp at he; simp [he] at hnd
    simp only [List.getLastD_concat, rr_unlink, hH, if_false]
    refine ⟨?_, ?_, ?_⟩
    · rw [List.append_assoc, List.singleton_append] at hchain hnd ⊢
      exact hchain.unlink hnd
    · rw [hhead]
      simp
    · by_cases hp : post = []
      · subst hp
        have hT : r.Tail = some t := by
          rw [htail]
          simp
        simp [hT]
      · have hT : r.Tail ≠ some t := by
          rw [htail]
          intro he
          have hmem : t ∈ post := by
            rw [List.getLast?_append_cons, List.getLast?_cons_of_ne_nil hp] at he
            exact List.mem_of_getLast? he
          simp [List.nodup_append, hmem] at hnd
        rw [if_neg hT, htail, List.getLast?_append_cons, List.getLast?_cons_of_ne_nil hp,
          List.getLast?_append_of_ne_nil _ hp]

/-- The two parts of the list without `t`. -/
theorem erase_parts (hnd : (a ++ b).Nodup) : (if b = [t] then [] else a.erase t) ++
    (if b = [t] then a else b.erase t) = (a ++ b).erase t := by
  by_cases hb : b = [t]
  · subst hb
    have hta : t ∉ a := fun hm => List.disjoint_of_nodup_append hnd hm (List.mem_singleton_self t)
    simp [List.erase_append_right _ hta]
  · simp only [hb, if_false]
    by_cases hta : t ∈ a
    · have htb : t ∉ b := List.disjoint_of_nodup_append hnd hta
      rw [List.erase_append_left _ hta, List.erase_of_not_mem htb]
    · rw [List.erase_append_right _ hta, List.erase_of_not_mem hta]

/-- The place to go on after `t` was taken out. -/
theorem RingAt.current_unlink {prev : Nat} (h : RingAt r a b) (ht : t ∈ a ++ b)
    (hlen : (a ++ b).erase t ≠ []) :
    (rr_unlink prev t r).Current = (if b = [t] then a else b.erase t).head? := by
  have hnd := h.nodup
  have hcur := h.current
  unfold rr_unlink
  cases b with
  | nil =>
    rw [h.wraps rfl] at ht
    simp at ht
  | cons c b =>
    rw [List.head?_cons] at hcur
    by_cases hct : c = t
    · subst hct
      have hta : c ∉ a := fun hm => List.disjoint_of_nodup_append hnd hm List.mem_cons_self
      simp only [hcur, if_true, h.next_eq rfl, List.erase_cons_head]
      cases b with
      | nil =>
        rw [List.erase_append_right _ hta, List.erase_cons_head, List.append_nil] at hlen
        simp [h.head, List.head?_append_of_ne_nil _ hlen]
      | cons d b => simp
    · have hne : c :: b ≠ [t] := fun he => hct (List.cons.inj he).1
      simp only [hcur, Option.some.injEq, hct, if_false, hne]
      rw [List.erase_cons_tail (by simpa using hct), List.head?_cons]

/-- `rr_remove` takes a thread of the ring out of it. When it was the last one in the list and the
next to run, the head is the next to run. -/
theorem rr_remove.spec (h : RingAt r a b) (ht : t ∈ a ++ b) :
    ∃ r', rr_remove (some t) r = some r' ∧
      RingAt r' (if b = [t] then [] else a.erase t) (if b = [t] then a else b.erase t) := by
  obtain ⟨pre, post, hl⟩ := List.append_of_mem ht
  have hnd := h.nodup
  rw [hl] at hnd
  have hpre : t ∉ pre := fun hm => List.disjoint_of_nodup_append hnd hm List.mem_cons_self
  have herase : (a ++ b).erase t = pre ++ post := by
    rw [hl, List.erase_append_right _ hpre, List.erase_cons_head]
  by_cases hlen : pre ++ post = []
  · obtain ⟨rfl, rfl⟩ := List.append_eq_nil_iff.mp hlen
    have hb : b ≠ [] := by
      intro hb
      rw [h.wraps hb, hb] at hl
      simp at hl
    obtain ⟨rfl, rfl⟩ : a = [] ∧ b = [t] := by
      rcases List.append_eq_singleton_iff.mp hl with hab | hab
      · exact hab
      · exact absurd hab.2 hb
    have hcount : r.Count = 1 := h.count
    refine ⟨_, by rw [rr_remove, if_pos hcount], ?_⟩
    simp only [if_true]
    exact ⟨List.nodup_nil, rfl, rfl, rfl, .nil, rfl, fun _ => rfl⟩
  · have hcount : r.Count = pre.length + post.length + 1 := by
      rw [h.count, hl]
      simp
      omega
    have hpos : 0 < pre.length + post.length := by
      rw [← List.length_append]
      exact List.length_pos_of_ne_nil hlen
    obtain ⟨first, hfirst⟩ : ∃ first, r.Head = some first := by
      rw [h.head, hl]
      cases pre with
      | nil => exact ⟨t, rfl⟩
      | cons x xs => exact ⟨x, rfl⟩
    have htail : r.Tail = some ((a ++ b).getLastD 0) := by
      have hne : a ++ b ≠ [] := List.ne_nil_of_mem ht
      rw [h.tail, List.getLast?_eq_some_getLast hne, List.getLastD_eq_getLast?,
        List.getLast?_eq_some_getLast hne]
      rfl
    have hhead : ∀ x ∈ (pre ++ [t]).tail, r.Head ≠ some x := by
      rw [h.head, hl]
      intro x hx hx'
      cases pre with
      | nil => simp at hx
      | cons y pre =>
        simp only [List.cons_append, List.head?_cons, Option.some.injEq] at hx'
        subst hx'
        simp only [List.cons_append, List.tail_cons, List.mem_append, List.mem_singleton] at hx
        rw [List.cons_append, List.nodup_cons] at hnd
        apply hnd.1
        rcases hx with hx | rfl
        · exact List.mem_append_left _ hx
        · exact List.mem_append_right _ List.mem_cons_self
    have hchain := h.chain
    rw [hl] at hchain
    have hloop := remove_loop.spec ((a ++ b).getLastD 0) (n := r.Count) hchain hpre
      (by omega) hhead
    obtain ⟨hc', hh', ht'⟩ := rr_unlink.chain h hl hlen
    have hrun : rr_remove (some t) r = some (rr_unlink (pre.getLastD ((a ++ b).getLastD 0)) t r) := by
      rw [rr_remove, if_neg (by omega), htail, hfirst]
      rw [hfirst] at hloop
      exact hloop
    refine ⟨_, hrun, ?_⟩
    · have hparts := erase_parts (t := t) h.nodup
      rw [herase] at hparts
      refine ⟨?_, ?_, ?_, ?_, ?_, h.current_unlink ht (by rw [herase]; exact hlen), ?_⟩
      · rw [hparts, ← herase]
        exact h.nodup.erase t
      · rw [hparts, List.length_append]
        unfold rr_unlink
        simp only [hcount]
        omega
      · rw [hparts]
        exact hh'
      · rw [hparts]
        exact ht'
      · rw [hparts]
        exact hc'
      · intro hnil
        by_cases hb : b = [t]
        · simp [hb]
        · simp only [hb, if_false] at hnil ⊢
          cases b with
          | nil => rw [h.wraps rfl]; rfl
          | cons c b =>
            by_cases hct : c = t
            · subst hct
              rw [List.erase_cons_head] at hnil
              exact absurd (by rw [hnil]) hb
            · rw [List.erase_cons_tail (by simpa using hct)] at hnil
              exact absurd hnil (List.cons_ne_nil _ _)

end

/-! ## Fairness -/

/-- The threads that come before `Y` in the list, from `Current` on. -/
def Ahead (a b : List Nat) (Y : Nat) (ahead : List Nat) : Prop :=
  (∃ q, b = ahead ++ Y :: q) ∨ ∃ p q, a = p ++ Y :: q ∧ ahead = b ++ p

/-- No thread that had its turn comes before `Y`. -/
structure Fair (Y : Nat) (w : Turns) (a b : List Nat) : Prop where
  ring : RingAt w.ring a b
  once : w.returned.Nodup
  ahead : ∃ ahead, Ahead a b Y ahead ∧ ∀ x ∈ w.returned, x ∉ ahead

/-- A thread that had its turn is admitted again only while `Current` is the head. -/
def ReadmitsAtHead : RingEvent → Turns → Prop
  | .enter t, w => t ∈ w.returned → w.ring.Current = w.ring.Head
  | _, _ => True

instance (e : RingEvent) (w : Turns) : Decidable (ReadmitsAtHead e w) :=
  match e with
  | .enter t => inferInstanceAs (Decidable (t ∈ w.returned → w.ring.Current = w.ring.Head))
  | .remove _ => .isTrue trivial
  | .next => .isTrue trivial

section

variable {r : RunRing} {w w' : Turns} {a b l : List Nat} {t Y : Nat}

theorem RingAt.current_head (h : RingAt r a b) (hc : r.Current = r.Head) : a = [] := by
  rw [h.current, h.head] at hc
  cases a with
  | nil => rfl
  | cons x a =>
    have hmem : x ∈ b := List.mem_of_head? (hc.trans rfl)
    exact absurd hmem (List.disjoint_of_nodup_append h.nodup List.mem_cons_self)

theorem erase_split {p q : List Nat} (hne : t ≠ Y) (hl : l = p ++ Y :: q) :
    ∃ p' q', l.erase t = p' ++ Y :: q' ∧ ∀ x ∈ p', x ∈ p := by
  subst hl
  by_cases ht : t ∈ p
  · exact ⟨p.erase t, q, List.erase_append_left _ ht, fun x hx => List.mem_of_mem_erase hx⟩
  · refine ⟨p, q.erase t, ?_, fun x hx => hx⟩
    rw [List.erase_append_right _ ht, List.erase_cons_tail (by simpa using hne.symm)]

theorem Fair.enter (h : Fair Y w a b) (ht : t ∉ a ++ b) (hok : ReadmitsAtHead (.enter t) w)
    (hrun : rr_admit t w.ring = some r) : Fair Y { w with ring := r } a (b ++ [t]) := by
  obtain ⟨r', hrun', hring⟩ := rr_admit.spec h.ring ht
  rw [hrun'] at hrun
  cases hrun
  obtain ⟨ahead, hahead, hno⟩ := h.ahead
  refine ⟨hring, h.once, ?_⟩
  rcases hahead with ⟨q, hb⟩ | ⟨p, q, ha, hahead⟩
  · exact ⟨ahead, Or.inl ⟨q ++ [t], by simp [hb]⟩, hno⟩
  · -- `Current` is past the head, so the thread has not had a turn
    have hret : t ∉ w.returned := by
      intro hmem
      have hnil := h.ring.current_head (hok hmem)
      simp [hnil] at ha
    refine ⟨b ++ [t] ++ p, Or.inr ⟨p, q, ha, rfl⟩, fun x hx hmem => ?_⟩
    rw [List.append_assoc, List.mem_append, List.mem_append, List.mem_singleton] at hmem
    have hx' := hno x hx
    rw [hahead, List.mem_append] at hx'
    rcases hmem with hm | rfl | hm
    · exact hx' (Or.inl hm)
    · exact hret hx
    · exact hx' (Or.inr hm)

theorem Fair.remove (h : Fair Y w a b) (ht : t ∈ a ++ b) (hne : t ≠ Y)
    (hrun : rr_remove (some t) w.ring = some r) : ∃ a' b', Fair Y { w with ring := r } a' b' := by
  obtain ⟨r', hrun', hring⟩ := rr_remove.spec h.ring ht
  rw [hrun'] at hrun
  cases hrun
  obtain ⟨ahead, hahead, hno⟩ := h.ahead
  refine ⟨_, _, hring, h.once, ?_⟩
  rcases hahead with ⟨q, hb⟩ | ⟨p, q, ha, hahead⟩
  · have hb1 : b ≠ [t] := by
      intro hbt
      have hY : Y ∈ [t] := by
        rw [← hbt, hb]
        simp
      exact hne (List.mem_singleton.mp hY).symm
    obtain ⟨p', q', hb', hsub⟩ := erase_split hne hb
    simp only [hb1, if_false]
    exact ⟨p', Or.inl ⟨q', hb'⟩, fun x hx hm => hno x hx (hsub x hm)⟩
  · have hno' : ∀ x ∈ w.returned, x ∉ b ∧ x ∉ p := by
      intro x hx
      have hx' := hno x hx
      rw [hahead, List.mem_append, not_or] at hx'
      exact hx'
    by_cases hbt : b = [t]
    · simp only [hbt, if_true]
      exact ⟨p, Or.inl ⟨q, ha⟩, fun x hx => (hno' x hx).2⟩
    · obtain ⟨p', q', ha', hsub⟩ := erase_split hne ha
      simp only [hbt, if_false]
      refine ⟨b.erase t ++ p', Or.inr ⟨p', q', ha', rfl⟩, fun x hx hm => ?_⟩
      rcases List.mem_append.mp hm with hm | hm
      · exact (hno' x hx).1 (List.mem_of_mem_erase hm)
      · exact (hno' x hx).2 (hsub x hm)

theorem Fair.next {c : Nat} (h : Fair Y w a (c :: b)) (hc : c ≠ Y)
    (hrun : rr_next w.ring = some (some c, r)) :
    ∃ a' b', Fair Y ⟨r, c :: w.returned⟩ a' b' := by
  obtain ⟨r', hrun', hring⟩ := rr_next.spec h.ring
  rw [hrun'] at hrun
  cases hrun
  have hnd := h.ring.nodup
  obtain ⟨ahead, hahead, hno⟩ := h.ahead
  rcases hahead with ⟨q, hb⟩ | ⟨p, q, ha, hahead⟩
  · obtain ⟨p, rfl, hbp⟩ : ∃ p, ahead = c :: p ∧ b = p ++ Y :: q := by
      cases ahead with
      | nil => exact absurd (List.cons.inj hb).1 hc
      | cons x p =>
        obtain ⟨rfl, hbp⟩ := List.cons.inj hb
        exact ⟨p, rfl, hbp⟩
    have hb1 : b ≠ [] := by simp [hbp]
    have hcret : c ∉ w.returned := fun hm => hno c hm List.mem_cons_self
    have hcp : c ∉ p := by
      rw [hbp] at hnd
      simp only [List.nodup_append, List.nodup_cons, List.mem_append, not_or] at hnd
      exact hnd.2.1.1.1
    refine ⟨_, _, hring, List.nodup_cons.mpr ⟨hcret, h.once⟩, p, ?_, ?_⟩
    · simp only [hb1, if_false]
      exact Or.inl ⟨q, hbp⟩
    · intro x hx
      rcases List.mem_cons.mp hx with rfl | hx
      · exact hcp
      · exact fun hm => hno x hx (List.mem_cons_of_mem _ hm)
  · have hno' : ∀ x ∈ w.returned, x ≠ c ∧ x ∉ b ∧ x ∉ p := by
      intro x hx
      have hx' := hno x hx
      rw [hahead, List.mem_append, List.mem_cons, not_or, not_or] at hx'
      exact ⟨hx'.1.1, hx'.1.2, hx'.2⟩
    have hcret : c ∉ w.returned := fun hm => (hno' c hm).1 rfl
    have hcbp : c ∉ b ∧ c ∉ p := by
      rw [ha] at hnd
      have hdis := List.disjoint_of_nodup_append hnd
      refine ⟨(List.nodup_cons.mp (List.nodup_append.mp hnd).2.1).1, fun hm => ?_⟩
      exact hdis (List.mem_append_left _ hm) List.mem_cons_self
    refine ⟨_, _, hring, List.nodup_cons.mpr ⟨hcret, h.once⟩, ?_⟩
    by_cases hb : b = []
    · simp only [hb, if_true]
      refine ⟨p, Or.inl ⟨q ++ [c], by simp [ha]⟩, fun x hx => ?_⟩
      rcases List.mem_cons.mp hx with rfl | hx
      · exact hcbp.2
      · exact (hno' x hx).2.2
    · simp only [hb, if_false]
      refine ⟨b ++ p, Or.inr ⟨p, q ++ [c], by simp [ha], rfl⟩, fun x hx => ?_⟩
      rw [List.mem_append, not_or]
      rcases List.mem_cons.mp hx with rfl | hx
      · exact hcbp
      · exact (hno' x hx).2

/-- Every event keeps the ring a ring. -/
theorem ring_step_keeps_ring (e : RingEvent) (w w' : Turns) (h : ∃ l, IsRing w.ring l)
    (hstep : ring_step e w = some w') : ∃ l, IsRing w'.ring l := by
  obtain ⟨_, a, b, hring, rfl⟩ := h
  cases e with
  | enter t =>
    simp only [ring_step, hring.members_eq] at hstep
    split at hstep
    · cases hstep
    · rename_i ht
      obtain ⟨r, hrun, hring'⟩ := rr_admit.spec hring ht
      rw [hrun] at hstep
      cases hstep
      exact ⟨_, _, _, hring', rfl⟩
  | remove t =>
    simp only [ring_step, hring.members_eq] at hstep
    split at hstep
    · rename_i ht
      obtain ⟨r, hrun, hring'⟩ := rr_remove.spec hring ht
      rw [hrun] at hstep
      cases hstep
      exact ⟨_, _, _, hring', rfl⟩
    · cases hstep
  | next =>
    simp only [ring_step] at hstep
    cases b with
    | nil =>
      have ha := hring.wraps rfl
      subst ha
      rw [rr_next.of_nil hring] at hstep
      cases hstep
      exact ⟨_, _, _, hring, rfl⟩
    | cons c b =>
      obtain ⟨r, hrun, hring'⟩ := rr_next.spec hring
      rw [hrun] at hstep
      cases hstep
      exact ⟨_, _, _, hring', rfl⟩

/-- Every event that meets the condition is fair to `Y`, or it is the turn of `Y`. -/
theorem ring_step_keeps_fair (e : RingEvent) (w w' : Turns)
    (h : Y ∈ w.returned ∨ ∃ a b, Fair Y w a b) (hok : ReadmitsAtHead e w) (hY : e ≠ .remove Y)
    (hstep : ring_step e w = some w') : Y ∈ w'.returned ∨ ∃ a b, Fair Y w' a b := by
  rcases h with h | ⟨a, b, h⟩
  · left
    cases e with
    | enter t =>
      simp only [ring_step] at hstep
      split at hstep
      · cases hstep
      · obtain ⟨r, _, rfl⟩ := Option.map_eq_some_iff.mp hstep
        exact h
    | remove t =>
      simp only [ring_step] at hstep
      split at hstep
      · obtain ⟨r, _, rfl⟩ := Option.map_eq_some_iff.mp hstep
        exact h
      · cases hstep
    | next =>
      obtain ⟨⟨c, r⟩, _, rfl⟩ := Option.map_eq_some_iff.mp hstep
      exact List.mem_append_right _ h
  · cases e with
    | enter t =>
      simp only [ring_step, h.ring.members_eq] at hstep
      split at hstep
      · cases hstep
      · rename_i ht
        obtain ⟨r, hrun, rfl⟩ := Option.map_eq_some_iff.mp hstep
        exact Or.inr ⟨_, _, h.enter ht hok hrun⟩
    | remove t =>
      simp only [ring_step, h.ring.members_eq] at hstep
      split at hstep
      · rename_i ht
        obtain ⟨r, hrun, rfl⟩ := Option.map_eq_some_iff.mp hstep
        exact Or.inr (h.remove ht (fun he => hY (he ▸ rfl)) hrun)
      · cases hstep
    | next =>
      obtain ⟨⟨x, r⟩, hrun, rfl⟩ := Option.map_eq_some_iff.mp hstep
      cases b with
      | nil =>
        obtain ⟨ahead, hahead, _⟩ := h.ahead
        rcases hahead with ⟨q, hb⟩ | ⟨p, q, ha, _⟩
        · simp at hb
        · rw [h.ring.wraps rfl] at ha
          simp at ha
      | cons c b =>
        obtain ⟨_, hrun', _⟩ := rr_next.spec h.ring
        have hx : x = some c := by
          rw [hrun'] at hrun
          cases hrun
          rfl
        subst hx
        by_cases hc : c = Y
        · exact Or.inl (by simp [hc])
        · exact Or.inr (h.next hc hrun)

end

/-- The ring before any thread was admitted. -/
def Turns.start : Turns := ⟨.empty, []⟩

/-- In every interval of every run in which `Y` stays in the ring and has no turn, no thread has
two turns, when threads that had a turn in it are admitted again only while `Current` is the
head. -/
theorem no_thread_has_two_turns (es0 es : List RingEvent) (w0 w : Turns) (Y : Nat)
    (h0 : Runs.run ring_step es0 .start = some w0) (hY : Y ∈ w0.ring.members)
    (hstay : RingEvent.remove Y ∉ es)
    (hmeets : Runs.Meets ring_step ReadmitsAtHead es ⟨w0.ring, []⟩)
    (hrun : Runs.run ring_step es ⟨w0.ring, []⟩ = some w) (hno : Y ∉ w.returned) :
    w.returned.Nodup := by
  obtain ⟨_, a, b, hring, rfl⟩ : ∃ l, IsRing w0.ring l :=
    Runs.run_keeps (I := fun w : Turns => ∃ l, IsRing w.ring l) ring_step_keeps_ring
      ⟨[], [], [], ringAt_empty, rfl⟩ h0
  rw [hring.members_eq] at hY
  have hfair : ∃ a b, Fair Y ⟨w0.ring, []⟩ a b := by
    refine ⟨a, b, hring, List.nodup_nil, ?_⟩
    rcases List.mem_append.mp hY with ha | hb
    · obtain ⟨p, q, ha⟩ := List.append_of_mem ha
      exact ⟨b ++ p, Or.inr ⟨p, q, ha, rfl⟩, nofun⟩
    · obtain ⟨p, q, hb⟩ := List.append_of_mem hb
      exact ⟨p, Or.inl ⟨q, hb⟩, nofun⟩
  have hstays : ∀ e ∈ es, e ≠ RingEvent.remove Y := fun e he hr => hstay (hr ▸ he)
  have hend := Runs.run_keeps_of_meets (I := fun w => Y ∈ w.returned ∨ ∃ a b, Fair Y w a b)
    (fun e w w' h hok hstep => ring_step_keeps_fair e w w' h hok.1 hok.2 hstep) (Or.inr hfair)
    (Runs.meets_and_mem hmeets hstays) hrun
  rcases hend with h | ⟨a, b, h⟩
  · exact absurd h hno
  · exact h.once

/-- Three threads. The second and the third have their turns, and the first one waits. -/
theorem no_thread_has_two_turns_three :
    ∃ w0 w, Runs.run ring_step [.enter 0, .enter 1, .enter 2, .next] .start = some w0 ∧
      Runs.run ring_step [.next, .next] ⟨w0.ring, []⟩ = some w ∧
      w.returned = [2, 1] ∧ w.returned.Nodup := by
  refine ⟨_, _, rfl, rfl, rfl, ?_⟩
  exact no_thread_has_two_turns [.enter 0, .enter 1, .enter 2, .next] [.next, .next] _ _ 0 rfl
    (by decide) (by decide) (by decide) rfl (by decide)

/-- Thread 1 has its turn, blocks and is woken again. It lands before the head, and has its second
turn while thread 0, the head, still waits. -/
theorem woken_thread_overtakes :
    ∃ w0 w, Runs.run ring_step [.enter 0, .enter 1, .enter 2, .next] .start = some w0 ∧
      0 ∈ w0.ring.members ∧
      Runs.run ring_step [.next, .remove 1, .enter 1, .next, .next] ⟨w0.ring, []⟩ = some w ∧
      0 ∈ w.ring.members ∧ w.returned = [1, 2, 1] := by
  refine ⟨_, _, rfl, ?_, rfl, ?_, rfl⟩
  · decide
  · decide

end JamsOs
