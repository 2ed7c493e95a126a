import GQuuuuuunix.Kernel.Memcpy

/-! # The loops of string.c

The counts of `memcpy_n` divide the bytes that are asked for into words, and `memcpy` chooses its
regime by the misalignment of its pointers. -/

namespace GQuuuuuunix.Proof
open Lib Kernel
set_option autoImplicit false

variable {dst src : U64} {n : I64}

theorem slt_zero_of_lt {x : I64} (hx : x.toNat < 2 ^ 63) : x.slt 0 = false := by
  show x.slt 0#64 = false
  rw [BitVec.slt_zero_eq_msb]
  exact BitVec.msb_eq_false_iff_two_mul_lt.2 (by omega)

theorem toNat_of_nonneg (hn : 0 ≤ n.toInt) : n.toNat < 2 ^ 63 ∧ n.toInt = n.toNat := by
  have hcond := BitVec.toInt_eq_toNat_cond n
  split at hcond <;> omega

theorem copy_loop_eq {w v : ℕ} {k : BitVec v} (hk : k.slt 0 = false) :
    copy_loop w k dst src = copyWords w k.toNat dst src := by
  unfold copy_loop
  rw [hk]
  rfl

theorem memcpy_1_eq (hn : n.toNat < 2 ^ 63) : memcpy_1 dst src n = (do
    let _ ← copyWords 1 n.toNat dst src
    pure ()) := by
  rw [memcpy_1, copy_loop_eq (slt_zero_of_lt hn)]

/-! ## The counts of memcpy_n -/

theorem sdiv_toNat {x y : I64} (hx : x.toNat < 2 ^ 63) (hy : y.toNat < 2 ^ 63) :
    (x.sdiv y).toNat = x.toNat / y.toNat := by
  have hmsb : ∀ z : I64, z.toNat < 2 ^ 63 → z.msb = false := fun z hz =>
    BitVec.msb_eq_false_iff_two_mul_lt.2 (by omega)
  rw [BitVec.sdiv_eq, hmsb x hx, hmsb y hy]
  exact BitVec.toNat_udiv

theorem memcpy_n_eq (hn : n.toNat < 2 ^ 63) : memcpy_n dst src n = (do
    let x ← copyWords 8 (n.toNat / 8) dst src
    let y ← copyWords 4 (n.toNat % 8 / 4) x.1 x.2
    let z ← copyWords 2 (n.toNat % 4 / 2) y.1 y.2
    let _ ← copyWords 1 (n.toNat % 2) z.1 z.2
    pure ()) := by
  have h8 : (n.sdiv 8).toNat = n.toNat / 8 := sdiv_toNat (by omega) (by decide)
  have h4 : ((n - n.sdiv 8 * 8).sdiv 4).toNat = n.toNat % 8 / 4 := by
    have hr : (n - n.sdiv 8 * 8).toNat = n.toNat % 8 := by bv_omega
    rw [sdiv_toNat (by omega) (by decide), hr]
    rfl
  have h2 : ((n - n.sdiv 8 * 8 - (n - n.sdiv 8 * 8).sdiv 4 * 4).sdiv 2).toNat =
      n.toNat % 4 / 2 := by
    have hr : (n - n.sdiv 8 * 8 - (n - n.sdiv 8 * 8).sdiv 4 * 4).toNat = n.toNat % 4 := by
      bv_omega
    rw [sdiv_toNat (by omega) (by decide), hr]
    rfl
  have h1 : (n - n.sdiv 8 * 8 - (n - n.sdiv 8 * 8).sdiv 4 * 4 -
      (n - n.sdiv 8 * 8 - (n - n.sdiv 8 * 8).sdiv 4 * 4).sdiv 2 * 2).toNat = n.toNat % 2 := by
    bv_omega
  simp only [memcpy_n]
  generalize n.sdiv 8 = e at *
  generalize (n - e * 8).sdiv 4 = f at *
  generalize (n - e * 8 - f * 4).sdiv 2 = t at *
  generalize n - e * 8 - f * 4 - t * 2 = b at *
  rw [copy_loop_eq (slt_zero_of_lt (by omega)), h8]
  congr 1
  funext x
  rw [copy_loop_eq (slt_zero_of_lt (by omega)), h4]
  congr 1
  funext y
  rw [copy_loop_eq (slt_zero_of_lt (by omega)), h2]
  congr 1
  funext z
  rw [copy_loop_eq (slt_zero_of_lt (by omega)), h1]

/-! ## The regimes of memcpy -/

section
variable {x y : U64}

theorem align_toNat (x : U64) : ((x % 8).setWidth 32 : I32).toNat = x.toNat % 8 := by
  rw [BitVec.toNat_setWidth, BitVec.toNat_umod]
  show x.toNat % 8 % 2 ^ 32 = _
  omega

theorem align_zero : ((x % 8).setWidth 32 : I32) = 0 ↔ x.toNat % 8 = 0 := by
  rw [← BitVec.toNat_inj, align_toNat]
  rfl

theorem align_eq : ((x % 8).setWidth 32 : I32) = (y % 8).setWidth 32 ↔
    x.toNat % 8 = y.toNat % 8 := by
  rw [← BitVec.toNat_inj, align_toNat, align_toNat]

theorem align_slt (x : U64) : ((x % 8).setWidth 32 : I32).slt 0 = false := by
  show ((x % 8).setWidth 32 : I32).slt 0#32 = false
  rw [BitVec.slt_zero_eq_msb, BitVec.msb_eq_false_iff_two_mul_lt, align_toNat]
  omega

theorem align_pos : (0 : I32).slt ((x % 8).setWidth 32) = true ↔ 0 < x.toNat % 8 := by
  have hx := align_toNat x
  have hint : ((x % 8).setWidth 32 : I32).toInt = x.toNat % 8 := by
    rw [BitVec.toInt_eq_toNat_of_lt (by omega), hx]
    rfl
  rw [BitVec.slt_eq_decide, decide_eq_true_iff, hint]
  show (0 : Int) < _ ↔ _
  omega

theorem align_signExtend (x : U64) :
    (BitVec.signExtend 64 ((x % 8).setWidth 32 : I32)).toNat = x.toNat % 8 := by
  have hmsb := align_slt x
  rw [show (0 : I32) = 0#32 from rfl, BitVec.slt_zero_eq_msb] at hmsb
  rw [BitVec.signExtend_eq_setWidth_of_msb_false hmsb, BitVec.toNat_setWidth, align_toNat]
  omega

/-- What is left to `memcpy_n` after the head loop. -/
theorem sub_align (h : src.toNat % 8 ≤ n.toNat) :
    (n - BitVec.signExtend 64 ((src % 8).setWidth 32 : I32)).toNat =
      n.toNat - src.toNat % 8 := by
  have hext := align_signExtend src
  bv_omega

theorem memcpy_eq : memcpy dst src n =
    (if dst.toNat % 8 = 0 ∧ src.toNat % 8 = 0 then do
      memcpy_n dst src n
      pure dst
    else if 0 < dst.toNat % 8 ∧ dst.toNat % 8 = src.toNat % 8 then do
      let x ← copyWords 1 (dst.toNat % 8) dst src
      memcpy_n x.1 x.2 (n - BitVec.signExtend 64 ((src % 8).setWidth 32 : I32))
      pure dst
    else do
      memcpy_1 dst src n
      pure dst) := by
  simp only [memcpy, align_zero, align_pos, align_eq, copy_loop_eq (align_slt dst), align_toNat]
  congr 1
  refine if_congr ⟨fun h => ⟨h.1, h.2.2⟩, fun h => ⟨h.1, ?_, h.2⟩⟩ rfl rfl
  omega

end

end GQuuuuuunix.Proof
