-- The laws of the lists of the kernel: the run ring as a set of threads, and the wait queues as
-- lists of threads that share one link field.
import JamsOs.RunRing
import JamsOs.ProcessSyscalls

namespace JamsOs

open Linked

/-! ## The run ring -/

/-- The ring holds exactly the threads with the property, once each. -/
def RingOf (r : RunRing) (P : Nat → Prop) : Prop := ∃ a b, RingAt r a b ∧ ∀ t, t ∈ a ++ b ↔ P t

section

variable {r : RunRing} {P P' : Nat → Prop} {t : Nat}

theorem RingOf.congr (h : RingOf r P) (hP : ∀ t, P t ↔ P' t) : RingOf r P' := by
  obtain ⟨a, b, hr, hm⟩ := h
  exact ⟨a, b, hr, fun t => (hm t).trans (hP t)⟩

theorem ringOf_empty (hP : ∀ t, ¬P t) : RingOf .empty P :=
  ⟨[], [], ringAt_empty, fun t => by simp [hP t]⟩

theorem RingOf.enter (h : RingOf r P) (ht : ¬P t) :
    ∃ r', rr_admit t r = some r' ∧ RingOf r' fun x => x = t ∨ P x := by
  obtain ⟨a, b, hr, hm⟩ := h
  obtain ⟨r', hrun, hr'⟩ := rr_admit.spec hr (fun hin => ht ((hm t).mp hin))
  refine ⟨r', hrun, a, b ++ [t], hr', fun x => ?_⟩
  rw [← List.append_assoc, List.mem_append, hm, List.mem_singleton, or_comm]

theorem RingOf.remove (h : RingOf r P) (ht : P t) :
    ∃ r', rr_remove (some t) r = some r' ∧ RingOf r' fun x => P x ∧ x ≠ t := by
  obtain ⟨a, b, hr, hm⟩ := h
  obtain ⟨r', hrun, hr'⟩ := rr_remove.spec hr ((hm t).mpr ht)
  refine ⟨r', hrun, _, _, hr', fun x => ?_⟩
  rw [erase_parts hr.nodup, hr.nodup.mem_erase_iff, hm, and_comm]

/-- The link of a thread outside the ring is written. -/
theorem RingOf.scribble (h : RingOf r P) (ht : ¬P t) (p : Ptr) :
    RingOf { r with sched_one := Function.update r.sched_one t p } P := by
  obtain ⟨a, b, hr, hm⟩ := h
  have hin : t ∉ a ++ b := fun hin => ht ((hm t).mp hin)
  exact ⟨a, b, ⟨hr.nodup, hr.count, hr.head, hr.tail, hr.chain.update_of_notMem hin p, hr.current,
    hr.wraps⟩, hm⟩

theorem RingAt.rotated {a b : List Nat} {c : Nat} :
    (if b = [] then [] else a ++ [c]) ++ (if b = [] then a ++ [c] else b) = a ++ c :: b := by
  split <;> simp [*]

/-- The thread that `PROC_reschedule` picks: one of the ring, and another one than the current
thread when there is another. -/
theorem pick_candidate.spec (h : RingOf r P) (curr : Ptr) :
    ∃ candidate r', pick_candidate curr r = some (candidate, r') ∧ RingOf r' P ∧
      (candidate = none ∧ (∀ t, ¬P t) ∨
        ∃ t, candidate = some t ∧ P t ∧ ((∃ x, P x ∧ some x ≠ curr) → some t ≠ curr)) := by
  obtain ⟨a, b, hr, hm⟩ := h
  cases b with
  | nil =>
    have ha := hr.wraps rfl
    subst ha
    refine ⟨none, r, by simp [pick_candidate, rr_next.of_nil hr], ⟨[], [], hr, hm⟩,
      Or.inl ⟨rfl, fun t ht => ?_⟩⟩
    simpa using (hm t).mpr ht
  | cons c b =>
    obtain ⟨r', hrun, hr'⟩ := rr_next.spec hr
    have hm' : ∀ t, t ∈ (if b = [] then [] else a ++ [c]) ++ (if b = [] then a ++ [c] else b) ↔ P t :=
      fun t => by rw [RingAt.rotated, hm]
    have hPc : P c := (hm c).mp (by simp)
    by_cases hagain : some c = curr ∧ 1 < rr_qlen r'
    · -- the second look gives the thread after `c`
      obtain ⟨d, b', hd⟩ : ∃ d b', (if b = [] then a ++ [c] else b) = d :: b' := by
        refine List.exists_cons_of_ne_nil ?_
        split <;> simp [*]
      rw [hd] at hr' hm'
      obtain ⟨r'', hrun', hr''⟩ := rr_next.spec hr'
      refine ⟨some d, r'', ?_, ⟨_, _, hr'', fun t => by rw [RingAt.rotated, hm']⟩,
        Or.inr ⟨d, rfl, (hm' d).mp (by simp), fun _ => ?_⟩⟩
      · simp only [pick_candidate, hrun, Option.bind_eq_bind, Option.bind_some]
        rw [if_pos ⟨Option.some_ne_none c, hagain⟩, hrun']
      · rw [← hagain.1]
        intro hdc
        obtain rfl := Option.some.inj hdc
        have hnd := hr'.nodup
        have hcount := hr'.count
        rw [← hd, RingAt.rotated] at hnd hcount
        by_cases hb : b = []
        · cases a with
          | nil =>
            have hlt := hagain.2
            simp [rr_qlen, hcount, hb] at hlt
          | cons x a =>
            simp only [hb, if_true, List.cons_append, List.cons.injEq] at hd
            rw [← hd.1] at hnd
            simp at hnd
        · rw [if_neg hb] at hd
          rw [hd] at hnd
          simp [List.nodup_append] at hnd
    · refine ⟨some c, r', ?_, ⟨_, _, hr', hm'⟩, Or.inr ⟨c, rfl, hPc, ?_⟩⟩
      · simp only [pick_candidate, hrun, Option.bind_eq_bind, Option.bind_some]
        rw [if_neg]
        exact fun hc => hagain hc.2
      · rintro ⟨x, hx, hne⟩ hc
        refine hagain ⟨hc, ?_⟩
        rw [rr_qlen, hr'.count, RingAt.rotated]
        have hxin := (hm x).mpr hx
        have hxc : x ≠ c := fun he => hne (he ▸ hc)
        have hxab : x ∈ a ∨ x ∈ b := by simpa [hxc] using hxin
        rcases hxab with hxa | hxb
        · have := List.length_pos_of_mem hxa
          simp only [List.length_append, List.length_cons]
          omega
        · have := List.length_pos_of_mem hxb
          simp only [List.length_append, List.length_cons]
          omega

end

/-! ## Queues -/

/-- The queue holds the threads `l`, the head first. -/
structure QueueAt (queues : Queues) (q : QueueRef) (l : List Nat) : Prop where
  chain : Chain some none queues.lib_one (queues.ends q).head l
  tail : (queues.ends q).tail = l.getLast?

section

variable {queues : Queues} {q : QueueRef} {l : List Nat} {p : Nat}

theorem QueueAt.head (h : QueueAt queues q l) : (queues.ends q).head = l.head? := by
  cases l with
  | nil => exact chain_nil_iff.mp h.chain
  | cons a l => exact (chain_cons_iff.mp h.chain).1

theorem queueAt_nil (h : queues.ends q = ⟨none, none⟩) : QueueAt queues q [] :=
  ⟨by rw [h]; exact .nil, by rw [h]; rfl⟩

/-- The link of a thread outside the queue is written. -/
theorem QueueAt.scribble (h : QueueAt queues q l) (hp : p ∉ l) (v : Ptr) :
    QueueAt ⟨queues.ends, Function.update queues.lib_one p v⟩ q l :=
  ⟨h.chain.update_of_notMem hp v, h.tail⟩

/-- The ends of another queue are written. -/
theorem QueueAt.other (h : QueueAt queues q l) {q' : QueueRef} (hq : q ≠ q') (v : ProcQueue) :
    QueueAt ⟨Function.update queues.ends q' v, queues.lib_one⟩ q l := by
  refine ⟨?_, ?_⟩ <;> simp only [Function.update_of_ne hq]
  · exact h.chain
  · exact h.tail

theorem enqueue.spec (h : QueueAt queues q l) (hp : p ∉ l) :
    ∃ queues', enqueue q p queues = some queues' ∧ QueueAt queues' q (l ++ [p]) ∧
      ∀ q' l', q' ≠ q → p ∉ l' → (∀ x ∈ l, x ∉ l') → QueueAt queues q' l' →
        QueueAt queues' q' l' := by
  rcases List.eq_nil_or_concat l with rfl | ⟨xs, last, hl⟩
  · have hhead : (queues.ends q).head = none := h.head
    refine ⟨_, by rw [enqueue, hhead], ⟨?_, ?_⟩, ?_⟩
    · simp only [Function.update_self]
      exact chain_cons_iff.mpr ⟨rfl, chain_nil_iff.mpr (Function.update_self _ _ _)⟩
    · simp only [Function.update_self]
      rfl
    · intro q' l' hq hpl _ h'
      exact (h'.scribble hpl none).other hq _
  · rw [List.concat_eq_append] at hl
    subst hl
    have htail : (queues.ends q).tail = some last := by rw [h.tail, List.getLast?_concat]
    obtain ⟨first, hfirst⟩ : ∃ first, (queues.ends q).head = some first := by
      rw [h.head]
      cases xs with
      | nil => exact ⟨last, rfl⟩
      | cons x xs => exact ⟨x, rfl⟩
    have hlast : last ∉ xs := fun hm =>
      List.disjoint_of_nodup_append h.chain.nodup hm (List.mem_singleton_self last)
    refine ⟨_, by rw [enqueue, hfirst, htail], ⟨?_, ?_⟩, ?_⟩
    · simp only [Function.update_self]
      rw [← hfirst]
      refine chain_append_iff.mpr
        ⟨some p, (h.chain.update_of_notMem hp none).set_last hlast (some p), ?_⟩
      have hne : p ≠ last := fun he => hp (by simp [he])
      rw [chain_cons_iff, Function.update_of_ne hne, Function.update_self]
      exact ⟨rfl, .nil⟩
    · simp only [Function.update_self, List.getLast?_concat]
    · intro q' l' hq hpl hdis h'
      exact ((h'.scribble hpl none).scribble (hdis last (by simp)) (some p)).other hq _

theorem dequeue.spec (h : QueueAt queues q (p :: l)) :
    ∃ queues', dequeue q queues = (some p, queues') ∧ QueueAt queues' q l ∧
      ∀ q' l', q' ≠ q → p ∉ l' → QueueAt queues q' l' → QueueAt queues' q' l' := by
  have hhead : (queues.ends q).head = some p := h.head
  have hnd := h.chain.nodup
  have hnext := (chain_cons_iff.mp h.chain).2
  have hpl : p ∉ l := (List.nodup_cons.mp hnd).1
  refine ⟨_, by rw [dequeue, hhead], ?_, ?_⟩
  · rcases List.eq_nil_or_concat l with rfl | ⟨xs, last, hl⟩
    · have htail : (queues.ends q).tail = some p := h.tail
      rw [if_pos htail]
      exact queueAt_nil (Function.update_self _ _ _)
    · rw [List.concat_eq_append] at hl
      have htail : (queues.ends q).tail = some last := by
        rw [h.tail, hl, ← List.cons_append, List.getLast?_concat]
      have hne : (queues.ends q).tail ≠ some p := by
        rw [htail]
        rintro ⟨⟩
        exact hpl (by simp [hl])
      rw [if_neg hne]
      refine ⟨?_, ?_⟩ <;> simp only [Function.update_self]
      · exact hnext.update_of_notMem hpl none
      · rw [htail, hl, List.getLast?_concat]
  · intro q' l' hq hpl' h'
    exact (h'.scribble hpl' none).other hq _

theorem dequeue.of_nil (h : QueueAt queues q []) : dequeue q queues = (none, queues) := by
  have hhead : (queues.ends q).head = none := h.head
  rw [dequeue, hhead]

end

end JamsOs
