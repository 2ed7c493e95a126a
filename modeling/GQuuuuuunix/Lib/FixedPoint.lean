import Mathlib.Data.Rat.Floor
import Mathlib.Data.Prod.Lex
import Mathlib.Algebra.Order.Floor.Semifield
import Mathlib.Tactic.FieldSimp
import Mathlib.Tactic.Linarith

/-! # Fixed-point numbers in decimal

A word `d` with the unit `1 / n` is written as its whole part and a number of parts `1 / F`. -/

namespace GQuuuuuunix.Lib
set_option autoImplicit false

variable {n F d d' : ℕ}

/-- The whole part of `d / n`, and what is left of it in parts of `1 / F`, rounded down. -/
def decimalSplit (n F d : ℕ) : ℕ × ℕ := (d / n, d % n * F / n)

theorem decimalSplit_parts_lt (hn : 0 < n) (hF : 0 < F) : (decimalSplit n F d).2 < F := by
  show d % n * F / n < F
  rw [Nat.div_lt_iff_lt_mul hn, Nat.mul_comm F n]
  exact Nat.mul_lt_mul_of_pos_right (Nat.mod_lt d hn) hF

theorem decimalSplit_parts_eq_floor (n F d : ℕ) :
    (decimalSplit n F d).2 = ⌊((d % n : ℕ) : ℚ) / n * F⌋₊ := by
  have hfrac : ((d % n : ℕ) : ℚ) / n * F = ((d % n * F : ℕ) : ℚ) / (n : ℕ) := by
    rw [Nat.cast_mul, div_mul_eq_mul_div]
  rw [hfrac, Nat.floor_div_eq_div]
  rfl

/-- What is written is less than one part `1 / F` short of the number. -/
theorem decimalSplit_error (hn : 0 < n) (hF : 0 < F) (d : ℕ) :
    0 ≤ (d : ℚ) / n - ((decimalSplit n F d).1 + (decimalSplit n F d).2 / F) ∧
      (d : ℚ) / n - ((decimalSplit n F d).1 + (decimalSplit n F d).2 / F) < 1 / F := by
  have hnQ : (0 : ℚ) < n := Nat.cast_pos.2 hn
  have hFQ : (0 : ℚ) < F := Nat.cast_pos.2 hF
  have hwhole : (n : ℚ) * (d / n : ℕ) + (d % n : ℕ) = d := by exact_mod_cast Nat.div_add_mod d n
  have hparts : (n : ℚ) * (d % n * F / n : ℕ) + (d % n * F % n : ℕ) = (d % n : ℕ) * F := by
    exact_mod_cast Nat.div_add_mod (d % n * F) n
  have hrest : ((d % n * F % n : ℕ) : ℚ) < n := by exact_mod_cast Nat.mod_lt _ hn
  have herror : (d : ℚ) / n - ((decimalSplit n F d).1 + (decimalSplit n F d).2 / F) =
      (d % n * F % n : ℕ) / (n * F) := by
    show (d : ℚ) / n - ((d / n : ℕ) + (d % n * F / n : ℕ) / F) = _
    rw [← hwhole]
    field_simp
    linarith
  rw [herror]
  constructor
  · positivity
  · rw [div_lt_div_iff₀ (mul_pos hnQ hFQ) hFQ, one_mul]
    exact mul_lt_mul_of_pos_right hrest hFQ

/-- The order of the words is the order of what is written, the whole part first. -/
theorem decimalSplit_mono (h : d ≤ d') :
    toLex (decimalSplit n F d) ≤ toLex (decimalSplit n F d') := by
  rw [Prod.Lex.toLex_le_toLex]
  rcases (Nat.div_le_div_right h : d / n ≤ d' / n).lt_or_eq with hlt | heq
  · exact Or.inl hlt
  · refine Or.inr ⟨heq, Nat.div_le_div_right (Nat.mul_le_mul_right F ?_)⟩
    have hd := Nat.div_add_mod d n
    have hd' := Nat.div_add_mod d' n
    rw [heq] at hd
    omega

end GQuuuuuunix.Lib
