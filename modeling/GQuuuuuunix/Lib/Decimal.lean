import Mathlib.Data.Nat.Notation
import Mathlib.Tactic.Ring
import Mathlib.Algebra.Order.Ring.Nat

/-! # Decimal numerals, read from the highest digit

The numerals themselves are `Nat.toDigits 10`, and `Nat.ofDigitChars 10` reads them. -/

namespace GQuuuuuunix.Lib
set_option autoImplicit false

/-! ## Taking digits off the top -/

/-- The lowest `k` digits of `n`, the highest of them first. -/
def lowDigits : ℕ → ℕ → List Char
  | 0, _ => []
  | k + 1, n => Nat.digitChar (n / 10 ^ k) :: lowDigits k (n % 10 ^ k)

/-- The digits from the top down, and the last. -/
theorem lowDigits_succ (k n : ℕ) :
    lowDigits (k + 1) n =
      lowDigits k (n / 10) ++ [Nat.digitChar (if k = 0 then n else n % 10)] := by
  induction k generalizing n with
  | zero => simp [lowDigits]
  | succ k ih =>
    have hdiv : n / 10 ^ (k + 1) = n / 10 / 10 ^ k := by
      rw [Nat.div_div_eq_div_mul, ← pow_succ']
    have hmod : n % 10 ^ (k + 1) / 10 = n / 10 % 10 ^ k := by
      rw [pow_succ', Nat.mod_mul_right_div_self]
    have hlast : (if k = 0 then n % 10 ^ (k + 1) else n % 10 ^ (k + 1) % 10) = n % 10 := by
      split
      · next hk => rw [hk, zero_add, pow_one]
      · exact Nat.mod_mod_of_dvd n (dvd_pow_self 10 (Nat.succ_ne_zero k))
    rw [lowDigits, ih, hmod, hlast, hdiv]
    rfl

/-- A numeral with `k + 1` digits. -/
theorem toDigits_eq_lowDigits {k n : ℕ} (hlow : k = 0 ∨ 10 ^ k ≤ n) (hhigh : n < 10 ^ (k + 1)) :
    Nat.toDigits 10 n = lowDigits (k + 1) n := by
  induction k generalizing n with
  | zero =>
    rw [Nat.toDigits_of_lt_base (by simpa using hhigh), lowDigits, lowDigits, pow_zero,
      Nat.div_one]
  | succ k ih =>
    have hten : 10 ≤ n := by
      have hpow : 10 ^ 1 ≤ 10 ^ (k + 1) := Nat.pow_le_pow_right (by decide) (by omega)
      omega
    have hdiv : n / 10 < 10 ^ (k + 1) := by
      rw [pow_succ] at hhigh
      omega
    have hlow' : k = 0 ∨ 10 ^ k ≤ n / 10 := by
      right
      rw [Nat.le_div_iff_mul_le (by decide), ← pow_succ]
      omega
    rw [Nat.toDigits_of_base_le (by decide) hten, ih hlow' hdiv, lowDigits_succ (k + 1),
      if_neg (Nat.succ_ne_zero k)]

/-- Between which powers of ten a number with a numeral of this length is. -/
theorem toDigits_bounds (n : ℕ) : ∃ k, (Nat.toDigits 10 n).length = k + 1 ∧
    (k = 0 ∨ 10 ^ k ≤ n) ∧ n < 10 ^ (k + 1) := by
  obtain ⟨k, hk⟩ := Nat.exists_eq_succ_of_ne_zero
    (Nat.ne_of_gt (Nat.length_toDigits_pos (b := 10) (n := n)))
  refine ⟨k, hk, ?_, (Nat.length_toDigits_le_iff (by decide) (by omega)).1 (by omega)⟩
  by_contra hno
  rw [not_or, not_le] at hno
  have hle := (Nat.length_toDigits_le_iff (b := 10) (by decide) (Nat.pos_of_ne_zero hno.1)).2 hno.2
  omega

theorem length_toDigits_div {n : ℕ} (hn : 10 ≤ n) :
    (Nat.toDigits 10 n).length = (Nat.toDigits 10 (n / 10)).length + 1 := by
  rw [Nat.toDigits_of_base_le (by decide) hn, List.length_append, List.length_singleton]

/-! ## Reading digits -/

/-- The first digit counts for as much as there are digits after it. -/
theorem ofDigitChars_first (c : Char) (cs : List Char) : Nat.ofDigitChars 10 (c :: cs) 0 =
    (c.toNat - 48) * 10 ^ cs.length + Nat.ofDigitChars 10 cs 0 := by
  rw [Nat.ofDigitChars_cons, Nat.ofDigitChars_eq_ofDigitChars_zero, Nat.mul_zero, Nat.zero_add,
    Nat.mul_comm]
  rfl

theorem toNat_of_isDigit {c : Char} (hc : c.isDigit = true) : 48 ≤ c.toNat ∧ c.toNat ≤ 57 := by
  simp only [Char.isDigit, Bool.and_eq_true, decide_eq_true_eq] at hc
  exact hc

theorem ofDigitChars_lt {cs : List Char} (hcs : ∀ c ∈ cs, c.isDigit = true) :
    Nat.ofDigitChars 10 cs 0 < 10 ^ cs.length := by
  induction cs with
  | nil => exact Nat.zero_lt_one
  | cons c cs ih =>
    have hc := toNat_of_isDigit (hcs c (List.mem_cons_self ..))
    have hlt := ih fun d hd => hcs d (List.mem_cons_of_mem c hd)
    have hfirst : (c.toNat - 48) * 10 ^ cs.length ≤ 9 * 10 ^ cs.length :=
      Nat.mul_le_mul_right _ (by omega)
    rw [ofDigitChars_first, List.length_cons, pow_succ]
    omega

/-! ## Integers -/

def sign (v : ℤ) : List Char := if v < 0 then ['-'] else []

/-- The canonical numeral of an integer. -/
def numeral (v : ℤ) : List Char := sign v ++ Nat.toDigits 10 v.natAbs

/-- The numeral of `v` with zeros after its sign, where it takes them to be `width` long. -/
def zeroPadded (width : ℕ) (v : ℤ) : List Char :=
  sign v ++ (List.replicate (width - (numeral v).length) '0' ++ Nat.toDigits 10 v.natAbs)

/-- The integer that a numeral stands for. -/
def readInt : List Char → ℤ
  | '-' :: cs => -(Nat.ofDigitChars 10 cs 0 : ℕ)
  | cs => (Nat.ofDigitChars 10 cs 0 : ℕ)

theorem numeral_eq_toString (v : ℤ) : numeral v = (toString v).toList := by
  rw [Int.toString_eq_repr, Int.repr_eq_if]
  unfold numeral sign
  by_cases hv : v < 0
  · have habs : (-v).toNat = v.natAbs := by omega
    rw [if_pos hv, if_neg (by omega), habs, String.toList_append, Nat.toList_repr]
    rfl
  · have habs : v.toNat = v.natAbs := by omega
    rw [if_neg hv, if_pos (by omega), habs, Nat.toList_repr, List.nil_append]

theorem zeroPadded_length (width : ℕ) (v : ℤ) :
    (zeroPadded width v).length = max width (numeral v).length := by
  simp only [zeroPadded, numeral, List.length_append, List.length_replicate]
  omega

theorem readInt_sign (v : ℤ) {cs : List Char} (hcs : Nat.ofDigitChars 10 cs 0 = v.natAbs)
    (hdig : ∀ c ∈ cs, c.isDigit = true) : readInt (sign v ++ cs) = v := by
  unfold sign
  split
  · next hv =>
    show -((Nat.ofDigitChars 10 cs 0 : ℕ) : ℤ) = v
    rw [hcs]
    omega
  · next hv =>
    have hread : readInt cs = (Nat.ofDigitChars 10 cs 0 : ℕ) := by
      unfold readInt
      split
      · exact absurd (hdig _ (List.mem_cons_self ..)) (by decide)
      · rfl
    rw [List.nil_append, hread, hcs]
    omega

theorem readInt_zeroPadded (width : ℕ) (v : ℤ) : readInt (zeroPadded width v) = v := by
  apply readInt_sign
  · rw [Nat.ofDigitChars_append, Nat.ofDigitChars_replicate_zero, Nat.mul_zero]
    exact Nat.ofDigitChars_ten_toDigits
  · intro c hc
    rcases List.mem_append.1 hc with hc | hc
    · rw [List.eq_of_mem_replicate hc]
      rfl
    · exact Nat.isDigit_of_mem_toDigits (by decide) (by decide) hc

theorem readInt_numeral (v : ℤ) : readInt (numeral v) = v :=
  readInt_sign v Nat.ofDigitChars_ten_toDigits fun _ hc =>
    Nat.isDigit_of_mem_toDigits (by decide) (by decide) hc

end GQuuuuuunix.Lib
