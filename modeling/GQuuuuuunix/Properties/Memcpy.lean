import GQuuuuuunix.Proof.Memcpy

/-! # `memcpy` copies, but for the short copies between equally misaligned pointers

The loops of `memcpy` each copy a block; put end to end they copy the `n` bytes. Between equally
misaligned pointers the head loop copies as many bytes as the misalignment says, not as many as
are asked for: when fewer are asked for, the count that is left is below zero. -/

namespace GQuuuuuunix.Properties
open Lib Kernel Proof
set_option autoImplicit false

variable {dst src : U64} {n : I64} {m : ByteMem 64}

/-! ## The loops -/

/-- A loop of the copy goes on where the copy is. -/
theorem run_copyWords_from {w j k : ℕ} {α : Type} {f : U64 × U64 → MemProg 64 α}
    (hle : j + k * w ≤ 2 ^ 64) (h : ByteMem.Apart (j + k * w) dst src) :
    (copyWords w k (dst + BitVec.ofNat 64 j) (src + BitVec.ofNat 64 j) >>= f).run
        (m.copy j dst src) =
      (f (dst + BitVec.ofNat 64 (j + k * w), src + BitVec.ofNat 64 (j + k * w))).run
        (m.copy (j + k * w) dst src) := by
  rw [MemProg.run_bind, run_copyWords w k _ _ _ (by omega) h.right,
    ByteMem.copy_copy m hle h.pieces, ByteMem.add_ofNat_add, ByteMem.add_ofNat_add]
  rfl

/-- The loop that a copy begins with. -/
theorem run_first_loop {w k : ℕ} {α : Type} {f : U64 × U64 → MemProg 64 α}
    (hle : k * w ≤ 2 ^ 64) (h : ByteMem.Apart (k * w) dst src) :
    (copyWords w k dst src >>= f).run m =
      (f (dst + BitVec.ofNat 64 (k * w), src + BitVec.ofNat 64 (k * w))).run
        (m.copy (k * w) dst src) := by
  rw [MemProg.run_bind, run_copyWords w k dst src m hle h]
  rfl

theorem run_memcpy_n {j : ℕ} (hn : j + n.toNat < 2 ^ 63)
    (h : ByteMem.Apart (j + n.toNat) dst src) :
    (memcpy_n (dst + BitVec.ofNat 64 j) (src + BitVec.ofNat 64 j) n).run (m.copy j dst src) =
      .ok ((), m.copy (j + n.toNat) dst src) := by
  rw [memcpy_n_eq (by omega)]
  rw [run_copyWords_from (by omega) (h.of_le (by omega))]
  rw [run_copyWords_from (by omega) (h.of_le (by omega))]
  rw [run_copyWords_from (by omega) (h.of_le (by omega))]
  rw [run_copyWords_from (by omega) (h.of_le (by omega))]
  rw [show j + n.toNat / 8 * 8 + n.toNat % 8 / 4 * 4 + n.toNat % 4 / 2 * 2 + n.toNat % 2 * 1 =
    j + n.toNat by omega]
  rfl

/-- A count just below zero stays below zero in one of the loops. -/
theorem run_memcpy_n_neg (hn : 2 ^ 64 - 8 < n.toNat) :
    (memcpy_n dst src n).run m = .error .undefined := by
  have hk : n = -1 ∨ n = -2 ∨ n = -3 ∨ n = -4 ∨ n = -5 ∨ n = -6 ∨ n = -7 := by bv_omega
  rcases hk with rfl | rfl | rfl | rfl | rfl | rfl | rfl <;> rfl

/-! ## memcpy -/

/-- `memcpy(dst, src, n)` returns `dst`; the `n` bytes at `dst` are those that were at `src`, and
every other byte is as it was. -/
def MemcpyCopies (dst src : U64) (n : I64) : Prop :=
  ∀ m : ByteMem 64, ∃ m', (memcpy dst src n).run m = .ok (dst, m') ∧
    (∀ i < n.toNat, m' (dst + BitVec.ofNat 64 i) = m (src + BitVec.ofNat 64 i)) ∧
    ∀ x, (∀ i < n.toNat, x ≠ dst + BitVec.ofNat 64 i) → m' x = m x

theorem run_memcpy (hn : n.toNat < 2 ^ 63) (h : ByteMem.Apart n.toNat dst src)
    (ha : ¬ (dst.toNat % 8 = src.toNat % 8 ∧ n.toNat < dst.toNat % 8)) :
    (memcpy dst src n).run m = .ok (dst, m.copy n.toNat dst src) := by
  rw [memcpy_eq]
  split
  · -- both aligned
    have hrun := run_memcpy_n (n := n) (m := m) (j := 0) (by omega)
      (show ByteMem.Apart (0 + n.toNat) dst src by rwa [Nat.zero_add])
    rw [Nat.zero_add, ByteMem.copy_zero, BitVec.add_zero, BitVec.add_zero] at hrun
    rw [MemProg.run_bind, hrun]
    rfl
  · split
    · -- equally misaligned: the head loop, then the `n - src_align` bytes that are left
      have hrest := sub_align (show src.toNat % 8 ≤ n.toNat by omega)
      rw [run_first_loop (by omega) (h.of_le (by omega))]
      dsimp only
      rw [MemProg.run_bind, run_memcpy_n (by omega) (h.of_le (by omega)), hrest]
      rw [show dst.toNat % 8 * 1 + (n.toNat - src.toNat % 8) = n.toNat by omega]
      rfl
    · -- differently misaligned
      rw [memcpy_1_eq hn, MemProg.run_bind, run_first_loop (by omega) (h.of_le (by omega)),
        Nat.mul_one]
      rfl

/-- Fewer bytes than the pointers are misaligned by: the count goes below zero. -/
theorem run_memcpy_short (heq : dst.toNat % 8 = src.toNat % 8) (hlt : n.toNat < dst.toNat % 8) :
    (memcpy dst src n).run m = .error .undefined := by
  have hrest : 2 ^ 64 - 8 < (n - BitVec.signExtend 64 ((src % 8).setWidth 32 : I32)).toNat := by
    have hext := align_signExtend src
    bv_omega
  rw [memcpy_eq, if_neg (by omega), if_pos (by omega), MemProg.run_bind]
  obtain ⟨m', hrun⟩ := run_copyWords_ends 1 (dst.toNat % 8) dst src m
  rw [hrun]
  show (memcpy_n _ _ _ >>= _).run _ = .error .undefined
  rw [MemProg.run_bind, run_memcpy_n_neg hrest]
  rfl

/-- For two blocks that do not meet, `memcpy` copies `n` bytes if and only if the pointers are not
equally misaligned by more than `n`. -/
theorem memcpy_copies_iff (hn : 0 ≤ n.toInt) (h : ByteMem.Apart n.toNat dst src) :
    MemcpyCopies dst src n ↔ ¬ (dst.toNat % 8 = src.toNat % 8 ∧ n.toNat < dst.toNat % 8) := by
  have hlt := (toNat_of_nonneg hn).1
  refine ⟨fun hc ha => ?_, fun ha m => ?_⟩
  · obtain ⟨m', hrun, _⟩ := hc fun _ => 0
    rw [run_memcpy_short ha.1 ha.2] at hrun
    cases hrun
  · exact ⟨_, run_memcpy hlt h ha, fun i hi => ByteMem.copy_inside m dst src (by omega) hi,
      fun x hx => ByteMem.copy_outside m hx⟩

/-- Three bytes between pointers misaligned by seven. -/
theorem memcpy_copies_not : ¬ ∀ (dst src : U64) (n : I64), 0 ≤ n.toInt →
    dst.toNat + n.toNat ≤ 2 ^ 64 → src.toNat + n.toNat ≤ 2 ^ 64 →
    ByteMem.Apart n.toNat dst src → MemcpyCopies dst src n := by
  intro hall
  obtain ⟨m', hrun, _⟩ := hall 0x80300007 0x80301007 3 (by decide) (by decide) (by decide)
    (by decide) fun _ => 0
  rw [run_memcpy_short (by decide) (by decide)] at hrun
  cases hrun

theorem memcpy_copies_nine : MemcpyCopies 0x80300007 0x80301007 9 :=
  (memcpy_copies_iff (by decide) (by decide)).2 (by decide)

end GQuuuuuunix.Properties
