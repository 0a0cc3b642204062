-- Linked chains of cells. A chain starts at a pointer, follows the `next` field
-- of each cell, and ends at an end marker. The laws say which list of cells a
-- pointer stands for, and how that list changes when one field is written.
import Mathlib.Tactic

namespace Linked

variable {α β : Type}

/-- From the pointer `p` the cells `l` follow, each by its `next` field, up to the
end marker. `ptr a` is the pointer to cell `a`. -/
inductive Chain (ptr : α → β) (stop : β) (next : α → β) : β → List α → Prop
  | nil : Chain ptr stop next stop []
  | cons {a : α} {l : List α} :
      Chain ptr stop next (next a) l → Chain ptr stop next (ptr a) (a :: l)

variable {ptr : α → β} {stop : β} {next next' : α → β} {p : β} {a : α} {l l' : List α}

theorem chain_nil_iff : Chain ptr stop next p [] ↔ p = stop := by
  constructor
  · intro h
    cases h
    rfl
  · rintro rfl
    exact .nil

theorem chain_cons_iff : Chain ptr stop next p (a :: l) ↔ p = ptr a ∧ Chain ptr stop next (next a) l := by
  constructor
  · intro h
    cases h with
    | cons h => exact ⟨rfl, h⟩
  · rintro ⟨rfl, h⟩
    exact .cons h

/-- A chain reads only the `next` fields of its own cells. -/
theorem Chain.congr (h : Chain ptr stop next p l) (hn : ∀ b ∈ l, next' b = next b) :
    Chain ptr stop next' p l := by
  induction h with
  | nil => exact .nil
  | @cons a l _ ih =>
    have ha : next' a = next a := hn a List.mem_cons_self
    rw [chain_cons_iff, ha]
    exact ⟨rfl, ih fun b hb => hn b (List.mem_cons_of_mem _ hb)⟩

/-- The cells of a chain are decided by its first pointer. -/
theorem Chain.unique (hinj : ∀ a ∈ l, ∀ b ∈ l', ptr a = ptr b → a = b)
    (hl : ∀ a ∈ l, ptr a ≠ stop) (hl' : ∀ a ∈ l', ptr a ≠ stop)
    (h : Chain ptr stop next p l) (h' : Chain ptr stop next p l') : l = l' := by
  induction h generalizing l' with
  | nil =>
    cases l' with
    | nil => rfl
    | cons b l' => exact absurd (chain_cons_iff.mp h').1.symm (hl' b List.mem_cons_self)
  | @cons a l _ ih =>
    cases l' with
    | nil => exact absurd (chain_nil_iff.mp h') (hl a List.mem_cons_self)
    | cons b l' =>
      obtain ⟨hab, hrest⟩ := chain_cons_iff.mp h'
      have hab : a = b := hinj a List.mem_cons_self b List.mem_cons_self hab
      subst hab
      rw [ih (fun x hx y hy => hinj x (List.mem_cons_of_mem _ hx) y (List.mem_cons_of_mem _ hy))
        (fun x hx => hl x (List.mem_cons_of_mem _ hx))
        (fun x hx => hl' x (List.mem_cons_of_mem _ hx)) hrest]

/-- A cell outside the chain, made to point at its start, becomes the new start. -/
theorem Chain.push (h : Chain ptr stop next p l) (ha : a ∉ l) (hna : next' a = p)
    (hn : ∀ b, b ≠ a → next' b = next b) : Chain ptr stop next' (ptr a) (a :: l) := by
  rw [chain_cons_iff, hna]
  refine ⟨rfl, h.congr ?_⟩
  intro b hb
  exact hn b fun he => ha (he ▸ hb)

/-- A chain in two parts: the first ends where the second starts. -/
theorem chain_append_iff : Chain ptr stop next p (l ++ l') ↔
    ∃ q, Chain ptr q next p l ∧ Chain ptr stop next q l' := by
  induction l generalizing p with
  | nil =>
    simp only [List.nil_append, chain_nil_iff]
    exact ⟨fun h => ⟨p, rfl, h⟩, fun ⟨q, hq, h⟩ => hq ▸ h⟩
  | cons a l ih =>
    simp only [List.cons_append, chain_cons_iff, ih]
    constructor
    · rintro ⟨hp, q, h, h'⟩
      exact ⟨q, ⟨hp, h⟩, h'⟩
    · rintro ⟨q, ⟨hp, h⟩, h'⟩
      exact ⟨hp, q, h, h'⟩

section

variable [DecidableEq α]

/-- The field of a cell outside the chain is written. -/
theorem Chain.update_of_notMem (h : Chain ptr stop next p l) (ha : a ∉ l) (q : β) :
    Chain ptr stop (Function.update next a q) p l :=
  h.congr fun b hb => Function.update_of_ne (fun he : b = a => ha (he ▸ hb)) _ _

/-- The last cell of a chain is made to point elsewhere. -/
theorem Chain.set_last (h : Chain ptr stop next p (l ++ [a])) (ha : a ∉ l) (stop' : β) :
    Chain ptr stop' (Function.update next a stop') p (l ++ [a]) := by
  obtain ⟨q, hl, hlast⟩ := chain_append_iff.mp h
  refine chain_append_iff.mpr ⟨q, hl.update_of_notMem ha _, ?_⟩
  rw [chain_cons_iff, Function.update_self]
  exact ⟨(chain_cons_iff.mp hlast).1, .nil⟩

/-- A cell is taken out of the middle of a chain. -/
theorem Chain.unlink {b : α} {l' : List α}
    (h : Chain ptr stop next p (l ++ a :: b :: l')) (hnd : (l ++ a :: b :: l').Nodup) :
    Chain ptr stop (Function.update next a (next b)) p (l ++ a :: l') := by
  obtain ⟨q, hl, hrest⟩ := chain_append_iff.mp h
  obtain ⟨hq, hrest⟩ := chain_cons_iff.mp hrest
  obtain ⟨_, hrest⟩ := chain_cons_iff.mp hrest
  simp only [List.nodup_append, List.nodup_cons, List.mem_cons, not_or] at hnd
  have hal : a ∉ l := fun hm => hnd.2.2 a hm a (Or.inl rfl) rfl
  refine chain_append_iff.mpr ⟨q, hl.update_of_notMem hal _, ?_⟩
  rw [chain_cons_iff, Function.update_self]
  exact ⟨hq, hrest.update_of_notMem hnd.2.1.1.2 _⟩

end

/-- The field of a cell of the chain. -/
theorem Chain.next_eq (h : Chain ptr stop next p (l ++ a :: l')) :
    next a = (l'.head?.map ptr).getD stop := by
  obtain ⟨q, _, hrest⟩ := chain_append_iff.mp h
  obtain ⟨_, hrest⟩ := chain_cons_iff.mp hrest
  cases l' with
  | nil => exact chain_nil_iff.mp hrest
  | cons b l' => exact (chain_cons_iff.mp hrest).1

/-- The chain read off by following the fields, at most `n` cells of it. -/
def nodes (next : α → Option α) : Nat → Option α → List α
  | 0, _ => []
  | _ + 1, none => []
  | n + 1, some a => a :: nodes next n (next a)

theorem Chain.nodes_eq {next : α → Option α} {stop p : Option α} (h : Chain some stop next p l) :
    nodes next l.length p = l := by
  induction h with
  | nil => rfl
  | cons _ ih => rw [List.length_cons, nodes, ih]

/-- The whole chain, up to `none`, or nothing when it has more than `n` cells. -/
def trail (next : α → Option α) : Nat → Option α → Option (List α)
  | _, none => some []
  | 0, some _ => none
  | n + 1, some a => (trail next n (next a)).map (a :: ·)

/-- The first cell with the property, or nothing when it is not among the first `n` cells and the
chain goes on. -/
def search (next : α → Option α) (found : α → Bool) : Nat → Option α → Option (Option α)
  | _, none => some none
  | 0, some _ => none
  | n + 1, some a => if found a then some (some a) else search next found n (next a)

/-- The search for the cell `a` that remembers the cell before. The result is that cell, `none`
when `a` comes first. -/
def seek [DecidableEq α] (next : α → Option α) (a : α) :
    Nat → Option α → Option α → Option (Option (Option α))
  | _, _, none => some none
  | 0, _, some _ => none
  | n + 1, prev, some b => if b = a then some (some prev) else seek next a n (some b) (next b)

/-! ## Lists that end in `none` -/

section

variable {next : α → Option α} {p : Option α} {n : Nat}

theorem Chain.eq_of_chain (h : Chain some none next p l) (h' : Chain some none next p l') : l = l' :=
  h.unique (fun _ _ _ _ => Option.some.inj) (fun _ _ => Option.some_ne_none _)
    (fun _ _ => Option.some_ne_none _) h'

/-- A chain that ends comes to no cell twice: the rest of the chain would be its own part. -/
theorem Chain.nodup (h : Chain some none next p l) : l.Nodup := by
  induction l generalizing p with
  | nil => exact List.nodup_nil
  | cons a l ih =>
    obtain ⟨_, hrest⟩ := chain_cons_iff.mp h
    refine List.nodup_cons.mpr ⟨?_, ih hrest⟩
    intro ha
    obtain ⟨s, t, rfl⟩ := List.append_of_mem ha
    obtain ⟨q, _, htail⟩ := chain_append_iff.mp hrest
    have hlen := congrArg List.length (hrest.eq_of_chain (chain_cons_iff.mp htail).2)
    simp only [List.length_append, List.length_cons] at hlen
    omega

theorem trail.chain (h : trail next n p = some l) : Chain some none next p l := by
  induction n generalizing p l with
  | zero =>
    cases p with
    | none =>
      cases h
      exact .nil
    | some a => cases h
  | succ n ih =>
    cases p with
    | none =>
      cases h
      exact .nil
    | some a =>
      obtain ⟨l', hl', rfl⟩ := Option.map_eq_some_iff.mp h
      exact .cons (ih hl')

theorem search.spec {found : α → Bool} {r : Option α} (hc : Chain some none next p l)
    (h : search next found n p = some r) : r = l.find? found := by
  induction l generalizing p n with
  | nil =>
    rw [chain_nil_iff.mp hc] at h
    cases n <;> exact (Option.some.inj h).symm
  | cons a l ih =>
    obtain ⟨rfl, hrest⟩ := chain_cons_iff.mp hc
    cases n with
    | zero => cases h
    | succ n =>
      rw [search] at h
      split at h
      · rename_i hf
        rw [List.find?_cons_of_pos hf]
        exact (Option.some.inj h).symm
      · rename_i hf
        rw [List.find?_cons_of_neg hf]
        exact ih hrest h

variable [DecidableEq α]

/-- `seek` finds a cell of the chain, and the cell before it. -/
theorem seek.spec {prev : Option α} {r : Option (Option α)} (hc : Chain some none next p l)
    (ha : a ∈ l) (h : seek next a n prev p = some r) :
    ∃ s t, l = s ++ a :: t ∧ r = some (s.getLast?.or prev) := by
  induction l generalizing p n prev with
  | nil => simp at ha
  | cons b l ih =>
    obtain ⟨rfl, hrest⟩ := chain_cons_iff.mp hc
    cases n with
    | zero => cases h
    | succ n =>
      rw [seek] at h
      split at h
      · rename_i hb
        subst hb
        exact ⟨[], l, rfl, (Option.some.inj h).symm⟩
      · rename_i hb
        have ha : a ∈ l := (List.mem_cons.mp ha).resolve_left (Ne.symm hb)
        obtain ⟨s, t, rfl, rfl⟩ := ih hrest ha h
        refine ⟨b :: s, t, rfl, ?_⟩
        cases hs : s.getLast? <;> simp [List.getLast?_cons, hs]

/-- The links once the cell `a`, which comes after `prev`, is unlinked. -/
def cutNext (next : α → Option α) (prev : Option α) (a : α) : α → Option α :=
  Function.update (prev.elim next fun b => Function.update next b (next a)) a none

/-- The heads of a family of lists once `a`, which comes after `prev`, is unlinked from that of
`o`. -/
def cutHead {β : Type} [DecidableEq β] (next : α → Option α) (heads : β → Option α) (o : β)
    (prev : Option α) (a : α) : β → Option α :=
  prev.elim (Function.update heads o (next a)) fun _ => heads

section

variable {β : Type} [DecidableEq β] {heads : β → Option α} {o x : β} {s r : List α}

theorem Chain.cut (h : Chain some none next (heads o) (s ++ a :: r)) :
    Chain some none (cutNext next s.getLast? a) (cutHead next heads o s.getLast? a o) (s ++ r) := by
  have hnd := h.nodup
  rcases List.eq_nil_or_concat' s with rfl | ⟨s, b, rfl⟩
  · simp only [cutNext, cutHead, List.getLast?_nil, Option.elim_none, Function.update_self]
    exact (chain_cons_iff.mp h).2.update_of_notMem (List.nodup_cons.mp hnd).1 none
  · rw [List.append_assoc, List.singleton_append] at h hnd ⊢
    simp only [cutNext, cutHead, List.getLast?_concat, Option.elim_some]
    refine (h.unlink hnd).update_of_notMem ?_ none
    simp only [List.nodup_append, List.nodup_cons, List.mem_cons, not_or] at hnd
    simp only [List.mem_append, List.mem_cons, not_or]
    exact ⟨fun hm => hnd.2.2 a hm a (Or.inr (Or.inl rfl)) rfl, Ne.symm hnd.2.1.1.1, hnd.2.1.2.1⟩

theorem Chain.mem_cut {b : α} (h : Chain some none next p (s ++ a :: r)) :
    b ∈ s ++ r ↔ b ≠ a ∧ b ∈ s ++ a :: r := by
  have hs : a ∉ s := fun hin => List.disjoint_of_nodup_append h.nodup hin List.mem_cons_self
  have hr : a ∉ r := (List.nodup_cons.mp (List.nodup_append.mp h.nodup).2.1).1
  by_cases hb : b = a
  · simp [hb, hs, hr]
  · simp [hb]

/-- A list that shares no cell with the one that is cut keeps its links. -/
theorem Chain.cut_other (h : Chain some none next (heads x) l) (hx : x ≠ o)
    (hd : ∀ b ∈ s ++ a :: r, b ∉ l) :
    Chain some none (cutNext next s.getLast? a) (cutHead next heads o s.getLast? a x) l := by
  have ha := hd a (by simp)
  cases hs : s.getLast? with
  | none =>
    simp only [cutNext, cutHead, Option.elim_none, Function.update_of_ne hx]
    exact h.update_of_notMem ha none
  | some b =>
    have hb := hd b (List.mem_append_left _ (List.mem_of_getLast? hs))
    exact (h.update_of_notMem hb _).update_of_notMem ha none

end

/-- The last cell of a chain is made to point at another chain. -/
theorem Chain.append_chain {q : Option α} (h : Chain some none next p (l ++ [a]))
    (h' : Chain some none next q l') (ha : a ∉ l') :
    Chain some none (Function.update next a q) p (l ++ [a] ++ l') := by
  have hal : a ∉ l := fun hm => List.disjoint_of_nodup_append h.nodup hm (List.mem_singleton_self a)
  exact chain_append_iff.mpr ⟨q, h.set_last hal q, h'.update_of_notMem ha q⟩

end

end Linked
