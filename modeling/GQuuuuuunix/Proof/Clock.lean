import GQuuuuuunix.Lib.FixedPoint
import GQuuuuuunix.Kernel.Trap

/-! # The clock word as a timestamp -/

namespace GQuuuuuunix.Proof
open Lib Kernel
set_option autoImplicit false

/-! ## The arithmetic of fixed_point.h -/

theorem toNat_get_integer (d : U64) (bit : BitVec 8) :
    (fixed_point_get_integer d bit).toNat = d.toNat / 2 ^ bit.toNat := by
  rw [fixed_point_get_integer, BitVec.toNat_ushiftRight, Nat.shiftRight_eq_div_pow]

theorem toNat_denom {m : ℕ} (hm : m < 64) : ((1 : U64) <<< m).toNat = 2 ^ m := by
  have hlt : 2 ^ m < 2 ^ 64 := Nat.pow_lt_pow_right (by decide) hm
  have hone : (1 : U64).toNat = 1 := rfl
  rw [BitVec.toNat_shiftLeft, hone, Nat.shiftLeft_eq, Nat.one_mul, Nat.mod_eq_of_lt hlt]

theorem toNat_get_mantissa (d : U64) {bit : BitVec 8} (hbit : bit.toNat < 64) :
    (fixed_point_get_mantissa d bit).toNat = d.toNat % 2 ^ bit.toNat := by
  have hone : (1 : U64).toNat = 1 := rfl
  have hle : (1 : U64) ≤ (1 : U64) <<< bit.toNat := by
    rw [BitVec.le_def, toNat_denom hbit, hone]
    exact Nat.one_le_two_pow
  have hmask : (((1 : U64) <<< bit.toNat) - 1).toNat = 2 ^ bit.toNat - 1 := by
    rw [BitVec.toNat_sub_of_le hle, toNat_denom hbit, hone]
  rw [fixed_point_get_mantissa, BitVec.toNat_and, hmask]
  exact Nat.and_two_pow_sub_one_eq_mod _ _

/-- With at most 47 fraction bits the product stays below `2 ^ 64`. -/
theorem mantissa_mul_lt (d : U64) {bit : BitVec 8} (hbit : bit.toNat ≤ 47) :
    (fixed_point_get_mantissa d bit).toNat * 100000 < 2 ^ 64 := by
  rw [toNat_get_mantissa d (by omega)]
  have hpow : 2 ^ bit.toNat ≤ 2 ^ 47 := Nat.pow_le_pow_right (by decide) hbit
  have hmod := Nat.mod_lt d.toNat (Nat.two_pow_pos bit.toNat)
  omega

/-- The seconds and the digits of a clock word are those of the number it stands for. -/
theorem toNat_get_time_decimal (d : U64) {bit : BitVec 8} (hbit : bit.toNat ≤ 47) :
    (get_time_decimal d bit).toNat = (decimalSplit (2 ^ bit.toNat) 100000 d.toNat).2 := by
  have hlt := mantissa_mul_lt d hbit
  have hparts : (decimalSplit (2 ^ bit.toNat) 100000 d.toNat).2 < 100000 :=
    decimalSplit_parts_lt (Nat.two_pow_pos bit.toNat) (by decide)
  have hfactor : (100000 : U64).toNat = 100000 := rfl
  have hdef : get_time_decimal d bit =
      (fixed_point_get_mantissa d bit * (100000 : U64) / (1 : U64) <<< bit.toNat).setWidth 32 := rfl
  have hdiv : (fixed_point_get_mantissa d bit * (100000 : U64) / (1 : U64) <<< bit.toNat).toNat =
      (decimalSplit (2 ^ bit.toNat) 100000 d.toNat).2 := by
    rw [BitVec.toNat_udiv, BitVec.toNat_mul, hfactor, Nat.mod_eq_of_lt hlt, toNat_denom (by omega),
      toNat_get_mantissa d (by omega)]
    rfl
  rw [hdef, BitVec.toNat_setWidth, hdiv]
  omega

/-- A later clock word is no earlier time. -/
theorem get_time_decimal_mono {a b : U64} {bit : BitVec 8} (hbit : bit.toNat ≤ 47) (h : a ≤ b) :
    fixed_point_get_integer a bit < fixed_point_get_integer b bit ∨
      fixed_point_get_integer a bit = fixed_point_get_integer b bit ∧
        get_time_decimal a bit ≤ get_time_decimal b bit := by
  have hab : a.toNat ≤ b.toNat := h
  have hsec := fun d : U64 => toNat_get_integer d bit
  have hfrac := fun d : U64 => toNat_get_time_decimal d hbit
  rcases Prod.Lex.toLex_le_toLex.1 (decimalSplit_mono (n := 2 ^ bit.toNat) (F := 100000) hab) with
    hlt | ⟨heq, hle⟩
  · left
    show (fixed_point_get_integer a bit).toNat < (fixed_point_get_integer b bit).toNat
    rw [hsec, hsec]
    exact hlt
  · right
    constructor
    · apply BitVec.eq_of_toNat_eq
      rw [hsec, hsec]
      exact heq
    · show (get_time_decimal a bit).toNat ≤ (get_time_decimal b bit).toNat
      rw [hfrac, hfrac]
      exact hle

/-! ## The clock of the kernel -/

/-- The seconds and the five digits of a clock word with 32 fraction bits. -/
def timestamp (d : U64) : U64 × U32 := (d >>> 32, get_time_decimal d 32)

/-- A later clock word has no earlier timestamp. -/
theorem timestamp_mono {a b : U64} (h : a ≤ b) :
    (timestamp a).1 < (timestamp b).1 ∨
      (timestamp a).1 = (timestamp b).1 ∧ (timestamp a).2 ≤ (timestamp b).2 := by
  have hbit : (32 : BitVec 8).toNat ≤ 47 := by decide
  exact get_time_decimal_mono hbit h

end GQuuuuuunix.Proof
