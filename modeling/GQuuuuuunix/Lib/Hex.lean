import Mathlib.Data.Nat.Notation
import Mathlib.Tactic.Ring

/-! # Hexadecimal numerals -/

namespace GQuuuuuunix.Lib
set_option autoImplicit false

/-- The lower-case digits. -/
def hexChars : List Char := "0123456789abcdef".toList

def hexDigitVal (c : Char) : ℕ := hexChars.idxOf c

/-- The number that a numeral stands for. -/
def readHex (cs : List Char) : ℕ := cs.foldl (fun n c => 16 * n + hexDigitVal c) 0

/-- The lowest `k` digits of `n`, the highest of them first. -/
def hexNumeral : ℕ → ℕ → List Char
  | 0, _ => []
  | k + 1, n => hexChars.getD (n / 16 ^ k % 16) '0' :: hexNumeral k n

theorem hexNumeral_length (k n : ℕ) : (hexNumeral k n).length = k := by
  induction k with
  | zero => rfl
  | succ k ih => rw [hexNumeral, List.length_cons, ih]

theorem hexChars_getD {d : ℕ} (hd : d < 16) :
    hexChars.getD d '0' ∈ hexChars ∧ hexDigitVal (hexChars.getD d '0') = d := by
  have hall : ∀ d : Fin 16, hexChars.getD d '0' ∈ hexChars ∧
      hexDigitVal (hexChars.getD d '0') = d := by decide
  exact hall ⟨d, hd⟩

theorem mem_hexNumeral {k n : ℕ} {c : Char} (hc : c ∈ hexNumeral k n) : c ∈ hexChars := by
  induction k with
  | zero => cases hc
  | succ k ih =>
    rcases List.mem_cons.1 hc with rfl | hc
    · exact (hexChars_getD (Nat.mod_lt _ (by decide))).1
    · exact ih hc

/-- Reading goes on from the digits before. -/
theorem foldl_hexNumeral (k n m : ℕ) :
    (hexNumeral k n).foldl (fun n c => 16 * n + hexDigitVal c) m = m * 16 ^ k + n % 16 ^ k := by
  induction k generalizing m with
  | zero => rw [hexNumeral, List.foldl_nil, pow_zero, Nat.mul_one, Nat.mod_one, Nat.add_zero]
  | succ k ih =>
    have hdig := (hexChars_getD (Nat.mod_lt (n / 16 ^ k) (by decide : 0 < 16))).2
    have hmod : n % 16 ^ (k + 1) = n % 16 ^ k + 16 ^ k * (n / 16 ^ k % 16) := by
      rw [pow_succ, Nat.mod_mul]
    rw [hexNumeral, List.foldl_cons, ih, hdig, hmod]
    ring

theorem readHex_hexNumeral (k n : ℕ) : readHex (hexNumeral k n) = n % 16 ^ k := by
  have h := foldl_hexNumeral k n 0
  rwa [Nat.zero_mul, Nat.zero_add] at h

end GQuuuuuunix.Lib
