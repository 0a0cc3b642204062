-- Programs that take blocks from a heap and give them back, with a state of their own. `Holds` says
-- which blocks a program takes over from its caller and which ones it leaves behind. The rules follow
-- the program text, and leave all other blocks of the heap alone.
import Mathlib.Tactic

namespace Ownership

/-- The blocks that are held, the name of the next block, which of the requests that may fail do fail,
and whether every block that was given back was held. -/
structure Heap where
  held : List Nat
  next : Nat
  refuses : Nat → Bool
  requests : Nat
  sound : Bool

/-- Block names are not used twice, and no block was given back that was not held. -/
structure Heap.Ok (h : Heap) : Prop where
  nodup : h.held.Nodup
  below : ∀ a ∈ h.held, a < h.next
  sound : h.sound = true

/-- A program gives nothing when it faults. -/
def Prog (σ α : Type) : Type := σ → Heap → Option (α × σ × Heap)

variable {σ α β : Type}

instance : Monad (Prog σ) where
  pure a := fun s h => some (a, s, h)
  bind p f := fun s h => (p s h).bind fun r => f r.1 r.2.1 r.2.2

theorem bind_eq (p : Prog σ α) (f : α → Prog σ β) (s : σ) (h : Heap) :
    (p >>= f) s h = (p s h).bind fun r => f r.1 r.2.1 r.2.2 := rfl

theorem bind_some {p : Prog σ α} {f : α → Prog σ β} {s s' : σ} {h h' : Heap} {a : α}
    (hp : p s h = some (a, s', h')) : (p >>= f) s h = f a s' h' := by
  rw [bind_eq, hp]
  rfl

theorem bind_eq_some_iff {p : Prog σ α} {f : α → Prog σ β} {s : σ} {h : Heap} {r : β × σ × Heap} :
    (p >>= f) s h = some r ↔ ∃ a s' h', p s h = some (a, s', h') ∧ f a s' h' = some r := by
  rw [bind_eq, Option.bind_eq_some_iff]
  constructor
  · rintro ⟨⟨a, s', h'⟩, hp, hf⟩
    exact ⟨a, s', h', hp, hf⟩
  · rintro ⟨a, s', h', hp, hf⟩
    exact ⟨(a, s', h'), hp, hf⟩

/-! ## The operations -/

def fault : Prog σ α := fun _ _ => none

/-- A step that changes the state only. -/
def lift (f : σ → α × σ) : Prog σ α := fun s h => some ((f s).1, (f s).2, h)

/-- A block from a request that does not fail. -/
def alloc : Prog σ Nat := fun s h =>
  some (h.next, s, { h with held := h.next :: h.held, next := h.next + 1 })

/-- A block from a request that may fail. -/
def try_alloc : Prog σ (Option Nat) := fun s h =>
  let h' := { h with requests := h.requests + 1 }
  if h.refuses h.requests then some (none, s, h')
  else some (some h.next, s, { h' with held := h.next :: h.held, next := h.next + 1 })

def free (a : Nat) : Prog σ Unit := fun s h =>
  some ((), s, { h with held := h.held.erase a, sound := h.sound && decide (a ∈ h.held) })

/-- The null pointer is not a block. -/
def free_opt : Option Nat → Prog σ Unit
  | none => pure ()
  | some a => free a

/-- A program on one part of the state. -/
def on_left {τ : Type} (p : Prog σ α) : Prog (σ × τ) α := fun s h =>
  (p s.1 h).map fun r => (r.1, (r.2.1, s.2), r.2.2)

/-! ## Ownership -/

/-- The program takes over the blocks `own`, and when it returns `a` the caller has `post a` in their
place. -/
def Holds (own : List Nat) (p : Prog σ α) (post : α → List Nat) : Prop :=
  ∀ s h rest, h.Ok → h.held.Perm (own ++ rest) → ∀ a s' h', p s h = some (a, s', h') →
    h'.Ok ∧ h'.held.Perm (post a ++ rest)

section

variable {p : Prog σ α} {f : α → Prog σ β} {own own' : List Nat} {post post' : α → List Nat}
  {goal : β → List Nat} {a : Nat} {h : Heap}

theorem Holds.pure (x : α) (h : own = post x) : Holds own (Pure.pure x : Prog σ α) post := by
  subst h
  intro s h rest hok hperm a s' h' hrun
  cases hrun
  exact ⟨hok, hperm⟩

theorem Holds.fault (own : List Nat) (post : α → List Nat) :
    Holds own (Ownership.fault : Prog σ α) post := by
  intro s h rest _ _ a s' h' hrun
  cases hrun

theorem Holds.lift (f : σ → α × σ) : Holds [] (Ownership.lift f) fun _ => [] := by
  intro s h rest hok hperm a s' h' hrun
  cases hrun
  exact ⟨hok, hperm⟩

theorem Holds.bind (hp : Holds own p post) (hf : ∀ x, Holds (post x) (f x) goal) :
    Holds own (p >>= f) goal := by
  intro s h rest hok hperm b s' h' hrun
  obtain ⟨x, s1, h1, hfirst, hsecond⟩ := bind_eq_some_iff.mp hrun
  obtain ⟨hok1, hperm1⟩ := hp s h rest hok hperm x s1 h1 hfirst
  exact hf x s1 h1 rest hok1 hperm1 b s' h' hsecond

/-- Blocks that the program does not take over stay with the caller. -/
theorem Holds.frame (hp : Holds own p post) (more : List Nat) :
    Holds (own ++ more) p fun x => post x ++ more := by
  intro s h rest hok hperm a s' h' hrun
  rw [List.append_assoc] at hperm
  have hafter := hp s h (more ++ rest) hok hperm a s' h' hrun
  rw [← List.append_assoc] at hafter
  exact hafter

/-- The order of blocks says nothing. -/
theorem Holds.conseq (hp : Holds own p post) (hown : own'.Perm own)
    (hpost : ∀ x, (post x).Perm (post' x)) : Holds own' p post' := by
  intro s h rest hok hperm a s' h' hrun
  obtain ⟨hok', hperm'⟩ := hp s h rest hok (hperm.trans (hown.append_right rest)) a s' h' hrun
  exact ⟨hok', hperm'.trans ((hpost a).append_right rest)⟩

/-- A program that takes over nothing runs while other blocks are held. -/
theorem Holds.beside (hp : Holds [] p fun _ => []) (own : List Nat) : Holds own p fun _ => own :=
  hp.frame own

theorem Heap.Ok.push (hok : h.Ok) :
    Heap.Ok { h with held := h.next :: h.held, next := h.next + 1 } := by
  refine ⟨List.nodup_cons.mpr ⟨fun hm => absurd (hok.below _ hm) (Nat.lt_irrefl _), hok.nodup⟩, ?_,
    hok.sound⟩
  intro a ha
  rcases List.mem_cons.mp ha with rfl | ha
  · exact Nat.lt_succ_self _
  · exact Nat.lt_succ_of_lt (hok.below a ha)

theorem Holds.alloc (own : List Nat) : Holds own (Ownership.alloc : Prog σ Nat) fun a => a :: own := by
  intro s h rest hok hperm a s' h' hrun
  cases hrun
  exact ⟨hok.push, hperm.cons _⟩

theorem Holds.try_alloc (own : List Nat) :
    Holds own (Ownership.try_alloc : Prog σ (Option Nat)) fun a => a.toList ++ own := by
  intro s h rest hok hperm a s' h' hrun
  unfold Ownership.try_alloc at hrun
  dsimp only at hrun
  split at hrun
  · cases hrun
    exact ⟨⟨hok.nodup, hok.below, hok.sound⟩, hperm⟩
  · cases hrun
    exact ⟨⟨hok.push.nodup, hok.push.below, hok.sound⟩, hperm.cons _⟩

theorem Holds.free (a : Nat) (own : List Nat) :
    Holds (a :: own) (Ownership.free a : Prog σ Unit) fun _ => own := by
  intro s h rest hok hperm x s' h' hrun
  cases hrun
  have hmem : a ∈ h.held := hperm.mem_iff.mpr List.mem_cons_self
  refine ⟨⟨hok.nodup.erase a, fun b hb => hok.below b (List.mem_of_mem_erase hb), ?_⟩, ?_⟩
  · dsimp only
    rw [hok.sound, decide_eq_true hmem]
    rfl
  · have herase := hperm.erase a
    rw [List.cons_append, List.erase_cons_head] at herase
    exact herase

theorem Holds.free_opt (a : Option Nat) (own : List Nat) :
    Holds (a.toList ++ own) (Ownership.free_opt a : Prog σ Unit) fun _ => own := by
  cases a with
  | none => exact Holds.pure () rfl
  | some a => exact Holds.free a own

theorem Holds.on_left {τ : Type} (hp : Holds own p post) :
    Holds own (Ownership.on_left p : Prog (σ × τ) α) post := by
  intro s h rest hok hperm a s' h' hrun
  obtain ⟨⟨b, t, h₁⟩, hfirst, heq⟩ := Option.map_eq_some_iff.mp hrun
  cases heq
  exact hp s.1 h rest hok hperm _ _ _ hfirst

theorem Holds.ite {c : Prop} [Decidable c] {q : Prog σ α} (hp : c → Holds own p post)
    (hq : ¬c → Holds own q post) : Holds own (if c then p else q) post := by
  split
  · exact hp ‹_›
  · exact hq ‹_›

/-- A loop over a list whose body takes over nothing. -/
theorem Holds.foldlM {γ : Type} {f : α → γ → Prog σ α} (hf : ∀ x c, Holds [] (f x c) fun _ => [])
    (l : List γ) (x : α) : Holds [] (l.foldlM f x) fun _ => [] := by
  induction l generalizing x with
  | nil => exact Holds.pure x rfl
  | cons c l ih => exact (hf x c).bind fun y => ih y

end

/-! ## Results that do not depend on the heap -/

/-- Whatever the heap is, the program returns, and its result and its state are as `Q` says. The
requests that will be refused stay the same. -/
def Returns (p : Prog σ α) (s : σ) (Q : α → σ → Prop) : Prop :=
  ∀ h, ∃ a s' h', p s h = some (a, s', h') ∧ h'.refuses = h.refuses ∧ Q a s'

section

variable {p : Prog σ α} {f : α → Prog σ β} {s : σ} {P Q : α → σ → Prop} {R : β → σ → Prop}

theorem Returns.pure {a : α} (h : Q a s) : Returns (Pure.pure a : Prog σ α) s Q :=
  fun heap => ⟨a, s, heap, rfl, rfl, h⟩

theorem Returns.after_free {q : Prog σ α} (a : Nat) (h : Returns q s Q) :
    Returns (Ownership.free a >>= fun _ => q) s Q :=
  fun _ => h _

theorem Returns.bind (hp : Returns p s Q) (hf : ∀ a s', Q a s' → Returns (f a) s' R) :
    Returns (p >>= f) s R := by
  intro heap
  obtain ⟨a, s₁, h₁, hfirst, hsame₁, hq⟩ := hp heap
  obtain ⟨b, s', h', hrest, hsame', hr⟩ := hf a s₁ hq h₁
  exact ⟨b, s', h', (bind_some hfirst).trans hrest, hsame'.trans hsame₁, hr⟩

theorem Returns.mono (hp : Returns p s P) (h : ∀ a s', P a s' → Q a s') : Returns p s Q := by
  intro heap
  obtain ⟨a, s', h', hrun, hsame, hq⟩ := hp heap
  exact ⟨a, s', h', hrun, hsame, h a s' hq⟩

theorem Returns.on_left {τ : Type} {t : τ} (hp : Returns p s Q) :
    Returns (Ownership.on_left p : Prog (σ × τ) α) (s, t) fun a s' => Q a s'.1 ∧ s'.2 = t := by
  intro heap
  obtain ⟨a, s', h', hrun, hsame, hq⟩ := hp heap
  exact ⟨a, (s', t), h', by rw [Ownership.on_left, hrun]; rfl, hsame, hq, rfl⟩

/-- A program that returns on every heap, on one where it owns nothing. -/
theorem Returns.owned {h : Heap} {post : α → List Nat} (hp : Returns p s Q) (hown : Holds [] p post)
    (hok : h.Ok) : ∃ a s' h', p s h = some (a, s', h') ∧ Q a s' ∧ h'.Ok ∧
      h'.held.Perm (post a ++ h.held) := by
  obtain ⟨a, s', h', hrun, -, hq⟩ := hp h
  exact ⟨a, s', h', hrun, hq, hown s h h.held hok (List.Perm.refl _) a s' h' hrun⟩

end

/-- The program does what `r` says of it: it stops if there is no value, and otherwise returns one that
looks like it. -/
def Does (view : α → β) (r : Option β × σ) (p : Prog σ α) (s : σ) : Prop :=
  match r.1 with
  | none => ∀ h, p s h = none
  | some b => Returns p s fun a s' => view a = b ∧ s' = r.2

section

variable {γ : Type} {view : α → β} {r r' : Option β × σ} {p p' : Prog σ α} {s s' : σ}

theorem Does.pure (a : α) : Does view (some (view a), s) (Pure.pure a : Prog σ α) s :=
  Returns.pure ⟨rfl, rfl⟩

theorem Does.fault : Does view (none, s') (Ownership.fault : Prog σ α) s := fun _ => rfl

theorem Does.ite {c : Prop} [Decidable c] (h : c → Does view r p s) (h' : ¬ c → Does view r' p' s) :
    Does view (if c then r else r') (if c then p else p') s := by
  split
  · next hc => exact h hc
  · next hc => exact h' hc

theorem Does.after_free (a : Nat) (h : Does view r p s) :
    Does view r (Ownership.free a >>= fun _ => p) s := by
  rcases r with ⟨_ | b, t⟩
  · exact fun heap => h _
  · exact Returns.after_free a h

/-- What comes after a program that returns. -/
theorem Does.bind {q : Prog σ γ} {f : γ → Prog σ α} {Q : γ → σ → Prop} (hq : Returns q s Q)
    (hf : ∀ c t, Q c t → Does view r (f c) t) : Does view r (q >>= f) s := by
  rcases r with ⟨_ | b, t⟩
  · intro heap
    obtain ⟨c, t', h', hrun, -, hc⟩ := hq heap
    rw [bind_some hrun]
    exact hf c t' hc h'
  · exact Returns.bind hq hf

theorem Does.stops {f : α → Prog σ γ} (h : Does view r p s) (hr : r.1 = none) (heap : Heap) :
    (p >>= f) s heap = none := by
  unfold Does at h
  rw [hr] at h
  rw [bind_eq, h heap]
  rfl

theorem Does.returns {b : β} (h : Does view r p s) (hr : r = (some b, s')) :
    Returns p s fun a t => view a = b ∧ t = s' := by
  subst hr
  exact h

end

end Ownership
