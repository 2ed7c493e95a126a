import GQuuuuuunix.Kernel.Console
import Mathlib.Tactic.Ring
import Mathlib.Tactic.NormNum

/-! # What the loops of printf perform

The conversions and the arithmetic of the width do not read the format, write no word of `tmp`,
take no argument, and are done within so many rounds. -/

namespace GQuuuuuunix.Proof
open Lib Kernel Console
set_option autoImplicit false

/-! ## The characters of a format -/

section
variable {f : CString} {past : ℕ → U8} {i : ℕ}

theorem at_length : f.at past f.length = 0 := by
  unfold CString.at
  rw [if_neg (Nat.lt_irrefl _), if_pos rfl]

theorem at_lt (hi : i < f.length) : f.at past i = f.chars[i] := by
  unfold CString.at
  rw [if_pos hi]
  rw [List.getD_eq_getElem?_getD, List.getElem?_eq_getElem hi, Option.getD_some]

theorem at_ne_zero (hi : i < f.length) : f.at past i ≠ 0 := by
  rw [at_lt hi]
  intro h0
  have hmem : f.chars[i] ∈ f.chars := List.getElem_mem hi
  rw [h0] at hmem
  exact f.zero_notMem hmem

end

/-! ## Operations that only print or compute -/

/-- Operations that neither read the format nor take an argument nor write `tmp`. -/
def PrintOp.quiet : PrintOp → Prop
  | .uart_putchar _ | .overflow | .div_zero => True
  | .get_tmp i => i.toNat < 1024
  | _ => False

/-- The program only prints and computes; where `b` holds it may come to the end of its rounds. -/
abbrev Quiet (b : Prop) {α : Type} (p : PrintProg α) : Prop :=
  p.Forall fun o _ => PrintOp.quiet o ∨ (o = .more ∧ b)

section
variable {b : Prop} {α β : Type} {w : ℕ}

theorem Quiet.pure (a : α) : Quiet b (Pure.pure a : PrintProg α) := trivial

theorem Quiet.bind {p : PrintProg α} {f : α → PrintProg β} (hp : Quiet b p)
    (hf : ∀ a, Quiet b (f a)) : Quiet b (p >>= f) :=
  Prog.Forall.bind (fun _ _ h => h) hf hp

theorem quiet_putchar (c : U8) : Quiet b (uart_putchar c) :=
  ⟨Or.inl trivial, fun _ => trivial⟩

theorem quiet_more (hb : b) : Quiet b more := ⟨Or.inr ⟨rfl, hb⟩, fun _ => trivial⟩

theorem quiet_checked (bad : Bool) (x : BitVec w) {f : BitVec w → PrintProg α}
    (hf : Quiet b (f x)) : Quiet b (checked bad x >>= f) := by
  unfold checked
  cases bad with
  | true => exact ⟨Or.inl trivial, fun _ => hf⟩
  | false => exact hf

theorem quiet_add {x y : BitVec w} {f : BitVec w → PrintProg α} (hf : Quiet b (f (x + y))) :
    Quiet b (c_add x y >>= f) := quiet_checked _ _ hf

theorem quiet_sub {x y : BitVec w} {f : BitVec w → PrintProg α} (hf : Quiet b (f (x - y))) :
    Quiet b (c_sub x y >>= f) := quiet_checked _ _ hf

theorem quiet_mul {x y : BitVec w} {f : BitVec w → PrintProg α} (hf : Quiet b (f (x * y))) :
    Quiet b (c_mul x y >>= f) := quiet_checked _ _ hf

/-- The quotient on the machine. -/
def quot (x y : BitVec w) : BitVec w := if y = 0 then -1 else x.sdiv y

theorem quiet_div {x y : BitVec w} {f : BitVec w → PrintProg α} (hf : Quiet b (f (quot x y))) :
    Quiet b (c_div x y >>= f) := by
  unfold quot at hf
  unfold c_div
  by_cases hy : y = 0
  · rw [if_pos hy] at hf ⊢
    exact ⟨Or.inl trivial, fun _ => hf⟩
  · rw [if_neg hy] at hf ⊢
    exact quiet_checked _ _ hf

theorem quiet_rem {x y : BitVec w} {f : BitVec w → PrintProg α} (hf : ∀ z, Quiet b (f z)) :
    Quiet b (c_rem x y >>= f) := by
  unfold c_rem
  split
  · exact ⟨Or.inl trivial, fun _ => hf _⟩
  · exact quiet_checked _ _ (hf _)

/-! ## Hexadecimal -/

theorem quiet_hex (value : BitVec w) (k : ℕ) : Quiet b (put_hex value k) := by
  induction k with
  | zero => exact Quiet.pure _
  | succ k ih => exact (quiet_putchar _).bind fun _ => ih

/-! ## Decimal -/

theorem ten_pow_32 : BitVec.ofNat 32 (10 ^ 32) = 0 := by decide

theorem quot_zero (hw : w = 32 ∨ w = 64) (x : BitVec w) :
    (9 : BitVec w).slt (quot x ((0 : I32).signExtend w)) = false := by
  rcases hw with rfl | rfl
  · rfl
  · rfl

/-- The divisor is zero after 32 multiplications, and the quotient -1. -/
theorem quiet_find_divisor (hw : w = 32 ∨ w = 64) (value : BitVec w) {n k : ℕ} (hk : k ≤ 32)
    (hb : b ∨ 33 ≤ n + k) : Quiet b (find_divisor value n (BitVec.ofNat 32 (10 ^ k))) := by
  induction n generalizing k with
  | zero =>
    rcases hb with hb | hb
    · exact (quiet_more hb).bind fun _ => Quiet.pure _
    · omega
  | succ n ih =>
    unfold find_divisor
    apply quiet_div
    by_cases hlast : k = 32
    · subst hlast
      rw [ten_pow_32, quot_zero hw]
      exact Quiet.pure _
    · split
      · apply quiet_mul
        have hmul : BitVec.ofNat 32 (10 ^ k) * 10 = BitVec.ofNat 32 (10 ^ (k + 1)) := by
          rw [pow_succ, BitVec.ofNat_mul]
          rfl
        rw [hmul]
        exact ih (by omega) (hb.imp_right fun h => by omega)
      · exact Quiet.pure _

theorem slt_zero_iff {v : ℕ} {x : BitVec v} : (0 : BitVec v).slt x = true ↔ 0 < x.toInt := by
  rw [BitVec.slt_eq_decide, decide_eq_true_iff]
  show (0#v).toInt < _ ↔ _
  rw [BitVec.toInt_zero]

theorem toInt_quot {v : ℕ} {x y : BitVec v} (h0 : y ≠ 0) (h1 : y ≠ -1#v) :
    (quot x y).toInt = x.toInt.tdiv y.toInt := by
  unfold quot
  rw [if_neg h0]
  exact BitVec.toInt_sdiv_of_ne_or_ne x y (Or.inr h1)

theorem quiet_digits {n : ℕ} (value : BitVec w) {divisor : I32}
    (hb : b ∨ divisor.toInt * 10 < 10 ^ n ∧ 0 < n) : Quiet b (put_digits n value divisor) := by
  induction n generalizing value divisor with
  | zero =>
    rcases hb with hb | hb
    · exact quiet_more hb
    · omega
  | succ n ih =>
    unfold put_digits
    split
    · next hpos =>
      have hpos := slt_zero_iff.1 hpos
      refine quiet_div ((quiet_putchar _).bind fun _ => quiet_rem fun z => quiet_div (ih _ ?_))
      refine hb.imp_right fun h => ?_
      rw [toInt_quot (by decide) (by decide), show (10 : I32).toInt = 10 from rfl,
        Int.tdiv_eq_ediv_of_nonneg (Int.le_of_lt hpos)]
      have hlt : divisor.toInt < 10 ^ n := by
        have := h.1
        rw [pow_succ] at this
        omega
      cases n with
      | zero => omega
      | succ n => omega
    · exact Quiet.pure _

theorem quiet_decimal (hw : w = 32 ∨ w = 64) {fuel : ℕ} (value : BitVec w)
    (hb : b ∨ 33 ≤ fuel) : Quiet b (put_decimal fuel value) := by
  have hlast : ∀ v : BitVec w, Quiet b (do
      let divisor ← find_divisor v fuel 1
      put_digits fuel v divisor) := by
    intro v
    refine (quiet_find_divisor (k := 0) hw v (by omega) (hb.imp_right fun h => by omega)).bind
      fun d => quiet_digits v (hb.imp_right fun h => ⟨?_, by omega⟩)
    have hd : d.toInt < 2 ^ 31 := BitVec.toInt_lt
    calc d.toInt * 10 < 10 ^ 33 := by omega
      _ ≤ 10 ^ fuel := pow_le_pow_right₀ (by decide) h
  unfold put_decimal
  split
  · exact (quiet_putchar _).bind fun _ => quiet_checked _ _ (hlast _)
  · exact hlast _

theorem quiet_count {n : ℕ} {value : BitVec w} (hw : w = 32 ∨ w = 64) (k : I32)
    (hb : b ∨ value.toInt.natAbs * 10 < 10 ^ n ∧ 0 < n) : Quiet b (count_digits n value k) := by
  induction n generalizing value k with
  | zero =>
    rcases hb with hb | hb
    · exact (quiet_more hb).bind fun _ => Quiet.pure _
    · omega
  | succ n ih =>
    unfold count_digits
    split
    · exact Quiet.pure _
    · next h0 =>
      refine quiet_div (quiet_add (ih _ (hb.imp_right fun h => ?_)))
      have hten : (10 : BitVec w) ≠ 0 ∧ (10 : BitVec w) ≠ -1#w ∧ (10 : BitVec w).toInt = 10 := by
        rcases hw with rfl | rfl <;> decide
      rw [toInt_quot hten.1 hten.2.1, hten.2.2, Int.natAbs_tdiv]
      have hne : value.toInt.natAbs ≠ 0 := fun he =>
        h0 (BitVec.eq_of_toInt_eq (by rw [Int.natAbs_eq_zero.1 he]; exact BitVec.toInt_zero.symm))
      have hlt : value.toInt.natAbs < 10 ^ n := by
        have := h.1
        rw [pow_succ] at this
        omega
      show value.toInt.natAbs / 10 * 10 < _ ∧ _
      cases n with
      | zero => omega
      | succ n => omega

/-! ## Counted loops -/

/-- A round of `for (i = ..; i < k; i++)` brings `i` nearer to `k`. -/
theorem toInt_succ {i k : I32} (hlt : i.slt k = true) : (i + 1).toInt = i.toInt + 1 := by
  rw [BitVec.slt_eq_decide, decide_eq_true_iff] at hlt
  have hk : k.toInt < 2 ^ 31 := BitVec.toInt_lt
  have hi : -2 ^ 31 ≤ i.toInt := BitVec.le_toInt i
  rw [BitVec.toInt_add, show (1 : I32).toInt = 1 from rfl]
  exact Int.bmod_eq_of_le (by omega) (by omega)

theorem quiet_zeros {n : ℕ} (cnt k : I32) {i : I32} (hb : b ∨ 2 ^ 31 < n + i.toInt) :
    Quiet b (put_zeros cnt k n i) := by
  induction n generalizing i with
  | zero =>
    rcases hb with hb | hb
    · exact quiet_more hb
    · have hi : i.toInt < 2 ^ 31 := BitVec.toInt_lt
      omega
  | succ n ih =>
    unfold put_zeros
    apply quiet_sub
    split
    · next hlt =>
      refine (quiet_putchar _).bind fun _ => quiet_add (ih (hb.imp_right fun h => ?_))
      rw [toInt_succ hlt]
      omega
    · exact Quiet.pure _

theorem quiet_padded (hw : w = 32 ∨ w = 64) {fuel : ℕ} (cnt : I32) (value : BitVec w)
    (hb : b ∨ 2 ^ 31 < fuel) : Quiet b (put_padded fuel cnt value) := by
  have hv : value.toInt.natAbs ≤ 2 ^ 63 := by
    rcases hw with rfl | rfl
    · have h1 := BitVec.toInt_lt (x := value)
      have h2 := BitVec.le_toInt value
      omega
    · have h1 := BitVec.toInt_lt (x := value)
      have h2 := BitVec.le_toInt value
      omega
  refine (quiet_count hw 0 (hb.imp_right fun h => ⟨?_, by omega⟩)).bind fun k =>
    (quiet_zeros cnt k (hb.imp_right fun h => ?_)).bind fun _ =>
      quiet_decimal hw value (hb.imp_right fun h => by omega)
  · calc value.toInt.natAbs * 10 < 10 ^ 33 := by omega
      _ ≤ 10 ^ fuel := Nat.pow_le_pow_right (by decide) (by omega)
  · show _ < (fuel : Int) + 0
    omega

theorem quiet_multiplend {n : ℕ} (idx m : I32) {i : I32} (hb : b ∨ 2 ^ 31 < n + i.toInt) :
    Quiet b (find_multiplend idx n i m) := by
  induction n generalizing i m with
  | zero =>
    rcases hb with hb | hb
    · exact (quiet_more hb).bind fun _ => Quiet.pure _
    · have hi : i.toInt < 2 ^ 31 := BitVec.toInt_lt
      omega
  | succ n ih =>
    unfold find_multiplend
    apply quiet_sub
    split
    · next hlt =>
      refine quiet_mul (quiet_add (ih _ (hb.imp_right fun h => ?_)))
      rw [toInt_succ hlt]
      omega
    · exact Quiet.pure _

theorem quiet_sum {n : ℕ} {idx : I32} (hidx : idx.toNat ≤ 1024) (m cnt : I32) {i : I32}
    (hi : 0 ≤ i.toInt) (hb : b ∨ 2 ^ 31 < n + i.toInt) : Quiet b (sum_digits idx n i m cnt) := by
  induction n generalizing i m cnt with
  | zero =>
    rcases hb with hb | hb
    · exact (quiet_more hb).bind fun _ => Quiet.pure _
    · have hi : i.toInt < 2 ^ 31 := BitVec.toInt_lt
      omega
  | succ n ih =>
    unfold sum_digits
    split
    · next hlt =>
      have hi' := toInt_succ hlt
      have hin : i.toNat < 1024 := by
        rw [BitVec.slt_eq_decide, decide_eq_true_iff,
          BitVec.toInt_eq_toNat_of_lt (x := idx) (by omega)] at hlt
        have hnat := BitVec.toInt_eq_toNat_cond i
        have hi32 : i.toNat < 2 ^ 32 := i.isLt
        split at hnat <;> omega
      refine ⟨Or.inl hin, fun c => quiet_sub (quiet_mul (quiet_add (quiet_div (quiet_add
        (ih _ _ (by omega) (hb.imp_right fun h => ?_))))))⟩
      omega
    · exact Quiet.pure _

theorem quiet_str (s : List U8) : Quiet b (Prog.each uart_putchar s) := by
  induction s with
  | nil => exact Quiet.pure _
  | cons c s ih => exact (quiet_putchar c).bind fun _ => ih

end

end GQuuuuuunix.Proof
