-- Pieces of data that are laid out at addresses, in a memory that is given out in units of
-- several addresses. A piece may be placed where its units are free. The rest of its units
-- reads as zeros.
import Mathlib.Data.List.Pairwise
import Mathlib.Tactic.Common

namespace Placements

/-- A piece takes `size` addresses from `base` on, and the first `filled` of them have data. -/
structure Piece (α : Type*) where
  base : Nat
  size : Nat
  filled : Nat
  data : Nat → α

section

variable {α : Type*} {unit : Nat} {p q : Piece α} {ps : List (Piece α)}
  {c c' c1 : Nat → Option α} {x : Nat}

/-- The address lies in a unit of the piece. -/
def Piece.Covers (unit : Nat) (p : Piece α) (x : Nat) : Prop :=
  p.base / unit ≤ x / unit ∧ x / unit < (p.base + p.size + unit - 1) / unit

instance (unit : Nat) (p : Piece α) (x : Nat) : Decidable (p.Covers unit x) :=
  inferInstanceAs (Decidable (_ ∧ _))

/-- The addresses of a piece lie in its units. -/
theorem Piece.covers_of_lt (hunit : 0 < unit) (h1 : p.base ≤ x) (h2 : x < p.base + p.size) :
    p.Covers unit x := by
  refine ⟨Nat.div_le_div_right h1, ?_⟩
  rw [Nat.div_lt_iff_lt_mul hunit]
  have hround := Nat.lt_div_mul_add hunit (a := p.base + p.size + unit - 1)
  omega

variable [Zero α]

/-- What the piece has at an address of its units. -/
def Piece.value (p : Piece α) (x : Nat) : α :=
  if p.base ≤ x ∧ x < p.base + p.filled then p.data (x - p.base) else 0

/-- The contents after a piece was placed. -/
def place (unit : Nat) (p : Piece α) (c : Nat → Option α) : Nat → Option α := fun x =>
  if p.Covers unit x then some (p.value x) else c x

/-- The units of the piece are free. -/
def Fits (unit : Nat) (p : Piece α) (c : Nat → Option α) : Prop := ∀ x, p.Covers unit x → c x = none

/-- Pieces are placed one after the other, each where its units are free. -/
inductive Placed (unit : Nat) : (Nat → Option α) → List (Piece α) → (Nat → Option α) → Prop
  | nil (c : Nat → Option α) : Placed unit c [] c
  | cons {p : Piece α} {ps : List (Piece α)} {c c' : Nat → Option α} (fits : Fits unit p c)
      (rest : Placed unit (place unit p c) ps c') : Placed unit c (p :: ps) c'

theorem place_of_covers (h : p.Covers unit x) : place unit p c x = some (p.value x) := if_pos h

theorem place_of_not_covers (h : ¬p.Covers unit x) : place unit p c x = c x := if_neg h

theorem Piece.value_rest (h : ¬(p.base ≤ x ∧ x < p.base + p.filled)) : p.value x = 0 := if_neg h

/-! ## Several pieces -/

/-- What was there before stays. -/
theorem Placed.keeps (h : Placed unit c ps c') (hx : c x ≠ none) : c' x = c x := by
  induction h with
  | nil c => rfl
  | @cons p ps c c' fits rest ih =>
    have hout : ¬p.Covers unit x := fun hin => hx (fits x hin)
    rw [ih (by rw [place_of_not_covers hout]; exact hx), place_of_not_covers hout]

theorem Placed.value (h : Placed unit c ps c') (hp : p ∈ ps) (hx : p.Covers unit x) :
    c' x = some (p.value x) := by
  induction h with
  | nil c => cases hp
  | @cons q ps c c' fits rest ih =>
    rcases List.mem_cons.mp hp with rfl | hp
    · have hplaced : place unit p c x = some (p.value x) := place_of_covers hx
      rw [rest.keeps (by rw [hplaced]; exact nofun), hplaced]
    · exact ih hp

/-- Outside of the units of the pieces nothing changes. -/
theorem Placed.outside (h : Placed unit c ps c') (hx : ∀ p ∈ ps, ¬p.Covers unit x) : c' x = c x := by
  induction h with
  | nil c => rfl
  | cons fits rest ih =>
    rw [ih fun p hp => hx p (List.mem_cons_of_mem _ hp),
      place_of_not_covers (hx _ List.mem_cons_self)]

theorem Placed.append {ps' : List (Piece α)} (h : Placed unit c ps c1) (h' : Placed unit c1 ps' c') :
    Placed unit c (ps ++ ps') c' := by
  induction h with
  | nil c => exact h'
  | cons fits rest ih => exact .cons fits (ih h')

/-- Pieces with no unit in common. -/
def Piece.Apart (unit : Nat) (p q : Piece α) : Prop := ∀ x, p.Covers unit x → ¬q.Covers unit x

theorem Fits.after (h : Fits unit q c) (hpq : p.Apart unit q) : Fits unit q (place unit p c) := by
  intro x hx
  rw [place_of_not_covers fun hp => hpq x hp hx]
  exact h x hx

end

end Placements
