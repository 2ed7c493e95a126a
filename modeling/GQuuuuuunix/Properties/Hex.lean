import GQuuuuuunix.Lib.Hex
import GQuuuuuunix.Proof.Formats

/-! # What the hexadecimal conversions print

The shift is arithmetic, but only the four bits that the mask keeps are printed, and these are bits
of the value. -/

namespace GQuuuuuunix.Properties
open Lib Kernel Console Proof
set_option autoImplicit false

/-! ## A nibble of the value -/

/-- The mask keeps four bits of the value, none of them a copy of the sign. -/
theorem toNat_nibble {w i : ℕ} (v : BitVec w) (hi : i * 4 + 4 ≤ w) :
    (v.sshiftRight (i * 4) &&& 0xf).toNat = v.toNat / 16 ^ i % 16 := by
  have hpow : (16 : ℕ) ^ i = 2 ^ (i * 4) := by
    rw [Nat.mul_comm, pow_mul]
    rfl
  have hmask : ((0xf : BitVec w)).toNat = 2 ^ 4 - 1 := by
    have hle : 2 ^ 4 ≤ 2 ^ w := Nat.pow_le_pow_right (by decide) (by omega)
    exact Nat.mod_eq_of_lt (Nat.lt_of_lt_of_le (by decide) hle)
  apply Nat.eq_of_testBit_eq
  intro j
  rw [BitVec.toNat_and, hmask, Nat.and_two_pow_sub_one_eq_mod, hpow, show 16 = 2 ^ 4 from rfl,
    Nat.testBit_mod_two_pow, Nat.testBit_mod_two_pow, Nat.testBit_div_two_pow]
  by_cases hj : j < 4
  · have hlt : i * 4 + j < w := by omega
    have hin : ¬ w ≤ j := by omega
    rw [BitVec.testBit_toNat, BitVec.getLsbD_sshiftRight, if_pos hlt, BitVec.testBit_toNat,
      Nat.add_comm j, decide_eq_false hin, Bool.not_false, Bool.true_and]
  · rw [decide_eq_false hj, Bool.false_and, Bool.false_and]

theorem hexDigits_eq {w : ℕ} (v : BitVec w) {k : ℕ} (hk : k * 4 ≤ w) :
    hexDigits v k = (hexNumeral k v.toNat).map ch := by
  induction k with
  | zero => rfl
  | succ k ih =>
    rw [hexDigits, hexNumeral, List.map_cons, ih (by omega), toNat_nibble v (by omega)]
    rfl

/-! ## The directives -/

/-- `ds` is the numeral, in lower case and `k` digits long, that stands for `n`. -/
structure HexNumeral (k : ℕ) (n : ℤ) (ds : List Char) : Prop where
  length : ds.length = k
  lower : ∀ c ∈ ds, c ∈ hexChars
  value : (readHex ds : ℤ) = n

theorem hexNumeral_value {w k : ℕ} (v : BitVec w) (hw : w = k * 4) :
    HexNumeral k (v.toInt % 2 ^ w) (hexNumeral k v.toNat) where
  length := hexNumeral_length k v.toNat
  lower := fun _ hc => mem_hexNumeral hc
  value := by
    have hpow : (16 : ℕ) ^ k = 2 ^ w := by
      rw [hw, Nat.mul_comm, pow_mul]
      rfl
    have hcast : (2 : ℤ) ^ w = ((2 ^ w : ℕ) : ℤ) := (Nat.cast_pow 2 w).symm
    rw [readHex_hexNumeral, hpow, BitVec.toInt_eq_toNat_bmod, hcast, Int.bmod_emod]
    exact Int.natCast_mod v.toNat (2 ^ w)

/-- Wherever a format has the item `i`, it takes the argument `a` and prints `out`. -/
def ItemPrints (i : Item) (a : Arg) (out : List U8) : Prop :=
  ∀ l₁ a₁ o₁ l₂ a₂ o₂, Renders l₁ a₁ o₁ → Renders l₂ a₂ o₂ →
    Prints (format (l₁ ++ i :: l₂)) (a₁ ++ a :: a₂) (o₁ ++ (out ++ o₂))

theorem item_prints {i : Item} {a : Arg} (ha : i.Takes [a]) : ItemPrints i a (i.text [a]) :=
  fun _ _ _ _ _ _ h₁ h₂ => prints_format (h₁.append (.cons ha h₂))

/-- `%x` and `%lx` print all the digits of the value modulo `2 ^ 32` and `2 ^ 64`, whatever the
width before them and the format around them. -/
theorem printf_hex_decodes :
    (∀ v : I32, ∃ ds, HexNumeral 8 (v.toInt % 2 ^ 32) ds ∧
      ItemPrints (.conv .x) (.int v) (ds.map ch) ∧
      ∀ width, ItemPrints (.padded width .x) (.int v) (ds.map ch)) ∧
    ∀ v : I64, ∃ ds, HexNumeral 16 (v.toInt % 2 ^ 64) ds ∧
      (ItemPrints (.conv .lx) (.long v) (ds.map ch) ∧
        ItemPrints (.conv .llx) (.long v) (ds.map ch)) ∧
      ∀ width, ItemPrints (.padded width .lx) (.long v) (ds.map ch) ∧
        ItemPrints (.padded width .llx) (.long v) (ds.map ch) := by
  constructor
  · intro v
    have htext : hexDigits v 8 = (hexNumeral 8 v.toNat).map ch := hexDigits_eq v (by decide)
    refine ⟨_, hexNumeral_value v rfl, ?_⟩
    rw [← htext]
    exact ⟨item_prints trivial, fun _ => item_prints trivial⟩
  · intro v
    have htext : hexDigits v 16 = (hexNumeral 16 v.toNat).map ch := hexDigits_eq v (by decide)
    refine ⟨_, hexNumeral_value v rfl, ?_⟩
    rw [← htext]
    exact ⟨⟨item_prints trivial, item_prints trivial⟩,
      fun _ => ⟨item_prints trivial, item_prints trivial⟩⟩

/-- The number of the digits of `-2`, as `%x` prints them. -/
example : hexNumeral 8 (-2 : I32).toNat = "fffffffe".toList := by decide

end GQuuuuuunix.Properties
