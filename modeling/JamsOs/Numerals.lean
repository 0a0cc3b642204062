-- Numerals: numbers written with digits of a base, the most significant first. A numeral is read from
-- left to right, and the digits of a number, in reverse, read as the number.
import Mathlib.Data.Nat.Digits.Lemmas
import Mathlib.Tactic

namespace Numerals

variable {α : Type}

/-- The number that a string of digits continues `n` to. -/
def read (value : α → Option Nat) (base : Nat) : Nat → List α → Option Nat
  | n, [] => some n
  | n, c :: s => (value c).bind fun d => read value base (base * n + d) s

/-- The string is a numeral of the number: it is not empty, does not start with a zero unless it is the
zero, and reads as the number. -/
structure Numeral (value : α → Option Nat) (base : Nat) (s : List α) (n : Nat) : Prop where
  nonempty : s ≠ []
  lead : ∀ c t, s = c :: t → value c = some 0 → t = []
  reads : read value base 0 s = some n

variable {value : α → Option Nat} {char : Nat → α} {base n : Nat}

theorem read_append (s t : List α) (n : Nat) :
    read value base n (s ++ t) = (read value base n s).bind fun k => read value base k t := by
  induction s generalizing n with
  | nil => rfl
  | cons c s ih =>
    rw [List.cons_append, read, read, Option.bind_assoc]
    congr 1
    funext d
    exact ih _

/-- Digits with the least significant first, written in reverse. -/
theorem read_reverse {ds : List Nat} (h : ∀ d ∈ ds, value (char d) = some d) :
    read value base 0 (ds.map char).reverse = some (Nat.ofDigits base ds) := by
  induction ds with
  | nil => rfl
  | cons d ds ih =>
    rw [List.map_cons, List.reverse_cons, read_append,
      ih fun d' hd' => h d' (List.mem_cons_of_mem _ hd'), Option.bind_some, read,
      h d List.mem_cons_self, Option.bind_some, read, Nat.ofDigits_cons]
    congr 1
    exact Nat.add_comm _ _

/-- The digits of a number other than zero are a numeral of it. -/
theorem Numeral.of_digits (hbase : 1 < base) (h : ∀ d < base, value (char d) = some d) (hn : n ≠ 0) :
    Numeral value base ((Nat.digits base n).map char).reverse n := by
  have hdigits : ∀ d ∈ Nat.digits base n, value (char d) = some d :=
    fun d hd => h d (Nat.digits_lt_base hbase hd)
  have hsome : Nat.digits base n ≠ [] := Nat.digits_ne_nil_iff_ne_zero.mpr hn
  refine ⟨by simpa using hsome, fun c t hs hc => ?_, ?_⟩
  · -- the first character is the last digit, which is not zero
    have hlast : ((Nat.digits base n).map char).getLast (by simpa using hsome) = c := by
      have hhead : ((Nat.digits base n).map char).reverse.head (by simpa using hsome) = c := by
        simp only [hs, List.head_cons]
      rwa [List.head_reverse] at hhead
    rw [List.getLast_map] at hlast
    rw [← hlast, hdigits _ (List.getLast_mem hsome), Option.some.injEq] at hc
    exact absurd hc (Nat.getLast_digit_ne_zero base hn)
  · rw [read_reverse hdigits, Nat.ofDigits_digits]

/-- The zero. -/
theorem Numeral.zero {c : α} (h : value c = some 0) : Numeral value base [c] 0 := by
  refine ⟨List.cons_ne_nil _ _, fun c t hs _ => ?_, ?_⟩
  · cases hs
    rfl
  · rw [read, h, Option.bind_some, read, Nat.mul_zero]

end Numerals
