-- Spans of addresses that share no address: an allocator keeps its memory in such pieces, and cuts,
-- hands out and takes back one piece at a time.
import Mathlib.Tactic

namespace Spans

/-- The `len` addresses from `base` on. -/
structure Span where
  base : Nat
  len : Nat

variable {s t u : Span} {l l' : List Span} {x base size n : Nat}

def Span.Has (s : Span) (x : Nat) : Prop := s.base ≤ x ∧ x < s.base + s.len

def Span.Apart (s t : Span) : Prop := ∀ x, s.Has x → ¬t.Has x

/-- Every address of the one is an address of the other. -/
def Span.Within (s t : Span) : Prop := ∀ x, s.Has x → t.Has x

theorem Span.Apart.symm (h : s.Apart t) : t.Apart s := fun x ht hs => h x hs ht

theorem Span.Apart.mono (h : s.Apart t) (hs : u.Within s) : u.Apart t := fun x hu => h x (hs x hu)

theorem apart_of_le (h : s.base + s.len ≤ t.base) : s.Apart t := by
  intro x hs ht
  unfold Span.Has at hs ht
  omega

theorem within_of_bounds (h1 : t.base ≤ s.base) (h2 : s.base + s.len ≤ t.base + t.len) :
    s.Within t := by
  intro x hs
  unfold Span.Has at hs ⊢
  omega

/-- No two spans of the list share an address. -/
def Layout (l : List Span) : Prop := l.Pairwise Span.Apart

theorem Layout.perm (h : Layout l) (hp : l.Perm l') : Layout l' :=
  (hp.pairwise_iff fun {_ _} h => Span.Apart.symm h).mp h

theorem layout_cons : Layout (s :: l) ↔ (∀ t ∈ l, s.Apart t) ∧ Layout l := List.pairwise_cons

/-- A span is cut into pieces. -/
theorem Layout.cut (h : Layout (s :: l)) (hl' : Layout l') (hin : ∀ t ∈ l', t.Within s) :
    Layout (l' ++ l) := by
  obtain ⟨hs, hl⟩ := layout_cons.mp h
  exact List.pairwise_append.mpr ⟨hl', hl, fun t ht u hu => (hs u hu).mono (hin t ht)⟩

/-- The `n` blocks of one size from `base` on. -/
def blocks (base size n : Nat) : List Span := (List.range n).map fun k => ⟨base + k * size, size⟩

theorem layout_blocks : Layout (blocks base size n) := by
  unfold Layout blocks
  rw [List.pairwise_map]
  refine List.pairwise_lt_range.imp fun {j k} hjk => apart_of_le ?_
  have : (j + 1) * size ≤ k * size := Nat.mul_le_mul_right size hjk
  simp only
  linarith

end Spans
