import GQuuuuuunix.Proof.Clock

/-! # Seconds and digits of a clock word

The number `data / 2 ^ mantissa_bit` is printed as `s.f`, with `s` from `time.data >>
time.mantissa_bit` and `f` from `get_time_decimal`. -/

namespace GQuuuuuunix.Properties
open Lib Kernel Proof
set_option autoImplicit false

/-- The number that a clock word stands for. -/
def clockValue (data : U64) (mantissa_bit : BitVec 8) : ℚ :=
  (data.toNat : ℚ) / 2 ^ mantissa_bit.toNat

/-- What `kernel_trap_handler` writes for it. -/
def writtenValue (data : U64) (mantissa_bit : BitVec 8) : ℚ :=
  ((fixed_point_get_integer data mantissa_bit).toNat : ℚ) +
    ((get_time_decimal data mantissa_bit).toNat : ℚ) / 100000

theorem writtenValue_error (data : U64) {mantissa_bit : BitVec 8}
    (hbit : mantissa_bit.toNat ≤ 47) :
    0 ≤ clockValue data mantissa_bit - writtenValue data mantissa_bit ∧
      clockValue data mantissa_bit - writtenValue data mantissa_bit < 1 / 100000 := by
  have herror := decimalSplit_error (n := 2 ^ mantissa_bit.toNat) (F := 100000)
    (Nat.two_pow_pos mantissa_bit.toNat) (by decide) data.toNat
  rw [Nat.cast_pow, Nat.cast_ofNat, Nat.cast_ofNat] at herror
  unfold clockValue writtenValue
  rw [toNat_get_integer, toNat_get_time_decimal data hbit]
  exact herror

/-- The digits are those of the fraction, cut off, and nothing overflows on the way to them. -/
theorem get_time_decimal_eq_floor (data : U64) {mantissa_bit : BitVec 8}
    (hbit : mantissa_bit.toNat ≤ 47) :
    (get_time_decimal data mantissa_bit).toNat =
        ⌊((data.toNat % 2 ^ mantissa_bit.toNat : ℕ) : ℚ) / 2 ^ mantissa_bit.toNat * 100000⌋₊ ∧
      (get_time_decimal data mantissa_bit).toNat < 100000 := by
  rw [toNat_get_time_decimal data hbit]
  constructor
  · rw [decimalSplit_parts_eq_floor, Nat.cast_pow, Nat.cast_ofNat, Nat.cast_ofNat]
  · exact decimalSplit_parts_lt (Nat.two_pow_pos mantissa_bit.toNat) (by decide)

/-- With at most 47 fraction bits a clock word is split without overflow, less than one part in
100000 below its value, and in the order of the words. -/
theorem clock_words_split_correctly {mantissa_bit : BitVec 8} (hbit : mantissa_bit.toNat ≤ 47)
    (data : U64) :
    ((fixed_point_get_mantissa data mantissa_bit).toNat =
          data.toNat % 2 ^ mantissa_bit.toNat ∧
        (fixed_point_get_mantissa data mantissa_bit).toNat * 100000 < 2 ^ 64) ∧
      ((get_time_decimal data mantissa_bit).toNat =
          ⌊((data.toNat % 2 ^ mantissa_bit.toNat : ℕ) : ℚ) / 2 ^ mantissa_bit.toNat * 100000⌋₊ ∧
        (get_time_decimal data mantissa_bit).toNat < 100000) ∧
      (0 ≤ clockValue data mantissa_bit - writtenValue data mantissa_bit ∧
        clockValue data mantissa_bit - writtenValue data mantissa_bit < 1 / 100000) ∧
      ∀ data' : U64, data ≤ data' →
        fixed_point_get_integer data mantissa_bit < fixed_point_get_integer data' mantissa_bit ∨
          fixed_point_get_integer data mantissa_bit = fixed_point_get_integer data' mantissa_bit ∧
            get_time_decimal data mantissa_bit ≤ get_time_decimal data' mantissa_bit := by
  refine ⟨⟨?_, mantissa_mul_lt data hbit⟩, get_time_decimal_eq_floor data hbit,
    writtenValue_error data hbit, ?_⟩
  · exact toNat_get_mantissa data (by omega)
  · intro data' h
    exact get_time_decimal_mono hbit h

/-- The clock of `kernel_main`, one second and a half against two seconds. -/
theorem clock_words_split_correctly_at_32 :
    (0 ≤ clockValue 0x180000000 32 - writtenValue 0x180000000 32 ∧
        clockValue 0x180000000 32 - writtenValue 0x180000000 32 < 1 / 100000) ∧
      (fixed_point_get_integer 0x180000000 32 < fixed_point_get_integer 0x200000000 32 ∨
        fixed_point_get_integer 0x180000000 32 = fixed_point_get_integer 0x200000000 32 ∧
          get_time_decimal 0x180000000 32 ≤ get_time_decimal 0x200000000 32) := by
  have hbit : (32 : BitVec 8).toNat ≤ 47 := by decide
  have h := clock_words_split_correctly hbit 0x180000000
  exact ⟨h.2.2.1, h.2.2.2 0x200000000 (by decide)⟩

end GQuuuuuunix.Properties
