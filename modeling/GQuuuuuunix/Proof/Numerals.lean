import GQuuuuuunix.Proof.Console
import GQuuuuuunix.Lib.Decimal

/-! # What the decimal conversions print

Where its arithmetic is defined, a conversion is a fixed sequence of `uart_putchar`. -/

namespace GQuuuuuunix.Proof
open Lib Kernel Console
set_option autoImplicit false

/-- Print the characters. -/
def puts (out : List Char) : PrintProg Unit := Prog.each uart_putchar (out.map ch)

theorem puts_append (xs ys : List Char) : (puts xs >>= fun _ => puts ys) = puts (xs ++ ys) := by
  unfold puts
  rw [List.map_append, Prog.each_append]
  rfl

theorem puts_singleton (c : Char) : puts [c] = uart_putchar (ch c) := Prog.each_singleton _ _

theorem puts_cons (c : Char) (cs : List Char) :
    puts (c :: cs) = (uart_putchar (ch c) >>= fun _ => puts cs) := rfl

/-! ## Signed arithmetic -/

/-- The integers of `w` bits. -/
def Fits (w : ℕ) (z : ℤ) : Prop := -2 ^ (w - 1) ≤ z ∧ z < 2 ^ (w - 1)

section
variable {w : ℕ} {x y z : ℤ}

theorem fits_toInt (v : BitVec w) : Fits w v.toInt := ⟨BitVec.le_toInt v, BitVec.toInt_lt⟩

theorem fits_between (hx : Fits w x) (hy : Fits w y) (hxz : x ≤ z) (hzy : z ≤ y) : Fits w z :=
  ⟨hx.1.trans hxz, hzy.trans_lt hy.2⟩

theorem fits_zero : Fits w 0 := ⟨by simp, by positivity⟩

/-- An `int` that is not negative. -/
theorem fits_small (h0 : 0 ≤ z) (hz : z < 2 ^ 31) : Fits 32 z := ⟨by omega, hz⟩

variable (hw : 32 ≤ w)
include hw

theorem fits_of_32 (hz : Fits 32 z) : Fits w z := by
  have hpow : (2 : ℤ) ^ 31 ≤ 2 ^ (w - 1) := pow_le_pow_right₀ (by decide) (by omega)
  exact ⟨by have := hz.1; omega, by have := hz.2; omega⟩

theorem toInt_ofInt_fits (hz : Fits w z) : (BitVec.ofInt w z).toInt = z :=
  BitVec.toInt_ofInt_eq_self (by omega) hz.1 hz.2

omit hw in
theorem not_bad (hz : Fits w z) :
    (decide (z ≥ 2 ^ (w - 1)) || decide (z < -2 ^ (w - 1))) = false := by
  have h1 := hz.1
  have h2 := hz.2
  simp only [Bool.or_eq_false_iff, decide_eq_false_iff_not]
  omega

theorem c_add_eq (hx : Fits w x) (hy : Fits w y) (hz : Fits w (x + y)) :
    c_add (BitVec.ofInt w x) (BitVec.ofInt w y) = pure (BitVec.ofInt w (x + y)) := by
  unfold c_add BitVec.saddOverflow
  rw [toInt_ofInt_fits hw hx, toInt_ofInt_fits hw hy, not_bad hz, BitVec.ofInt_add]
  rfl

theorem c_sub_eq (hx : Fits w x) (hy : Fits w y) (hz : Fits w (x - y)) :
    c_sub (BitVec.ofInt w x) (BitVec.ofInt w y) = pure (BitVec.ofInt w (x - y)) := by
  have hval : BitVec.ofInt w x - BitVec.ofInt w y = BitVec.ofInt w (x - y) := by
    rw [Int.sub_eq_add_neg, BitVec.ofInt_add, BitVec.ofInt_neg, ← BitVec.sub_eq_add_neg]
  unfold c_sub BitVec.ssubOverflow
  rw [toInt_ofInt_fits hw hx, toInt_ofInt_fits hw hy, not_bad hz, hval]
  rfl

theorem c_mul_eq (hx : Fits w x) (hy : Fits w y) (hz : Fits w (x * y)) :
    c_mul (BitVec.ofInt w x) (BitVec.ofInt w y) = pure (BitVec.ofInt w (x * y)) := by
  unfold c_mul BitVec.smulOverflow
  rw [toInt_ofInt_fits hw hx, toInt_ofInt_fits hw hy, not_bad hz, BitVec.ofInt_mul]
  rfl

theorem c_neg_eq (hx : Fits w x) (hmin : x ≠ -2 ^ (w - 1)) :
    c_neg (BitVec.ofInt w x) = pure (BitVec.ofInt w (-x)) := by
  unfold c_neg BitVec.negOverflow
  rw [toInt_ofInt_fits hw hx, beq_false_of_ne hmin, BitVec.ofInt_neg]
  rfl

omit hw in
theorem fits_ediv (hx : Fits w x) (hy : 0 < y) : Fits w (x / y) := by
  rcases le_or_gt 0 x with h0 | h0
  · exact fits_between fits_zero hx (Int.ediv_nonneg h0 hy.le) (Int.ediv_le_self y h0)
  · refine fits_between hx fits_zero ?_ (Int.ediv_neg_of_neg_of_pos h0 hy).le
    have hmul : x * y ≤ x * 1 := mul_le_mul_of_nonpos_left hy h0.le
    exact (Int.le_ediv_iff_mul_le hy).2 (by omega)

omit hw in
theorem fits_tdiv (hx : Fits w x) (hy : 0 < y) : Fits w (x.tdiv y) := by
  rcases le_or_gt 0 x with h0 | h0
  · rw [Int.tdiv_eq_ediv_of_nonneg h0]
    exact fits_ediv hx hy
  · have hneg : x.tdiv y = -(-x / y) := by
      rw [← Int.tdiv_eq_ediv_of_nonneg (by omega), Int.neg_tdiv, neg_neg]
    have h1 : 0 ≤ -x / y := Int.ediv_nonneg (by omega) hy.le
    have h2 : -x / y ≤ -x := Int.ediv_le_self y (by omega)
    rw [hneg]
    exact fits_between hx fits_zero (by omega) (by omega)

theorem ofInt_ne_zero (hy : Fits w y) (hpos : 0 < y) : BitVec.ofInt w y ≠ 0 := by
  intro h0
  have hint := congrArg BitVec.toInt h0
  rw [toInt_ofInt_fits hw hy] at hint
  rw [hint] at hpos
  exact absurd hpos (by simp)

theorem sdiv_not_bad (hx : Fits w x) (hy : Fits w y) (hpos : 0 < y) :
    (BitVec.ofInt w x).sdivOverflow (BitVec.ofInt w y) = false := by
  have hq := fits_ediv hx hpos
  have h1 := hq.1
  have h2 := hq.2
  unfold BitVec.sdivOverflow
  rw [toInt_ofInt_fits hw hx, toInt_ofInt_fits hw hy]
  simp only [Bool.or_eq_false_iff, decide_eq_false_iff_not]
  omega

theorem c_div_eq (hx : Fits w x) (hy : Fits w y) (hpos : 0 < y) :
    c_div (BitVec.ofInt w x) (BitVec.ofInt w y) = pure (BitVec.ofInt w (x.tdiv y)) := by
  have hval : (BitVec.ofInt w x).sdiv (BitVec.ofInt w y) = BitVec.ofInt w (x.tdiv y) := by
    apply BitVec.eq_of_toInt_eq
    have hne : BitVec.ofInt w y ≠ -1#w := by
      intro h1
      have hint := congrArg BitVec.toInt h1
      rw [toInt_ofInt_fits hw hy, BitVec.neg_one_eq_allOnes, BitVec.toInt_allOnes,
        if_pos (by omega)] at hint
      omega
    rw [BitVec.toInt_sdiv_of_ne_or_ne _ _ (Or.inr hne), toInt_ofInt_fits hw hx,
      toInt_ofInt_fits hw hy, toInt_ofInt_fits hw (fits_tdiv hx hpos)]
  unfold c_div
  rw [if_neg (ofInt_ne_zero hw hy hpos), sdiv_not_bad hw hx hy hpos, hval]
  rfl

theorem c_rem_eq (hx : Fits w x) (hy : Fits w y) (hpos : 0 < y) :
    c_rem (BitVec.ofInt w x) (BitVec.ofInt w y) = pure (BitVec.ofInt w (x.tmod y)) := by
  have hval : (BitVec.ofInt w x).srem (BitVec.ofInt w y) = BitVec.ofInt w (x.tmod y) := by
    apply BitVec.eq_of_toInt_eq
    have hmod : Fits w (x.tmod y) := by
      have h1 := Int.lt_tmod_of_pos x hpos
      have h2 := Int.tmod_lt_of_pos x hpos
      have h3 := hy.2
      exact ⟨by omega, by omega⟩
    rw [BitVec.toInt_srem, toInt_ofInt_fits hw hx, toInt_ofInt_fits hw hy, toInt_ofInt_fits hw hmod]
  unfold c_rem
  rw [if_neg (ofInt_ne_zero hw hy hpos), sdiv_not_bad hw hx hy hpos, hval]
  rfl

theorem slt_ofInt (hx : Fits w x) (hy : Fits w y) :
    (BitVec.ofInt w x).slt (BitVec.ofInt w y) = decide (x < y) := by
  rw [BitVec.slt_eq_decide, toInt_ofInt_fits hw hx, toInt_ofInt_fits hw hy]

theorem signExtend_ofInt (hz : Fits 32 z) :
    (BitVec.ofInt 32 z).signExtend w = BitVec.ofInt w z := by
  apply BitVec.eq_of_toInt_eq
  rw [BitVec.toInt_signExtend_of_le hw, toInt_ofInt_fits (Nat.le_refl 32) hz,
    toInt_ofInt_fits hw (fits_of_32 hw hz)]

/-! ## The digits -/

theorem digit_char {d : ℕ} (hd : d < 10) :
    ch '0' + (BitVec.ofInt w d).setWidth 8 = ch (Nat.digitChar d) := by
  rw [BitVec.ofInt_natCast, BitVec.setWidth_ofNat_of_le (by omega)]
  revert d
  decide

/-- `10^k` in an `int`. -/
def pow10 (k : ℕ) : I32 := BitVec.ofInt 32 ((10 ^ k : ℕ) : ℤ)

omit hw in
theorem fits_pow10 {k : ℕ} (hk : k ≤ 9) : Fits 32 ((10 ^ k : ℕ) : ℤ) := by
  have hle : 10 ^ k ≤ 10 ^ 9 := Nat.pow_le_pow_right (by decide) hk
  generalize 10 ^ k = p at hle
  exact fits_small (by omega) (by omega)

omit hw in
theorem pow10_mul {k : ℕ} (hk : k < 9) : c_mul (pow10 k) 10 = pure (pow10 (k + 1)) := by
  have hsucc : ((10 ^ (k + 1) : ℕ) : ℤ) = ((10 ^ k : ℕ) : ℤ) * 10 := by
    rw [pow_succ, Nat.cast_mul]
    rfl
  have hfit := fits_pow10 (k := k + 1) hk
  have hten : Fits 32 10 := fits_small (by omega) (by omega)
  unfold pow10
  rw [hsucc] at hfit ⊢
  rw [show (10 : I32) = BitVec.ofInt 32 10 from rfl]
  exact c_mul_eq (Nat.le_refl 32) (fits_pow10 hk.le) hten hfit

theorem div_pow10 {k n : ℕ} (hn : Fits w n) (hk : k ≤ 9) :
    c_div (BitVec.ofInt w n) ((pow10 k).signExtend w) = pure (BitVec.ofInt w (n / 10 ^ k : ℕ)) := by
  have hp := fits_pow10 hk
  rw [pow10, signExtend_ofInt hw hp, c_div_eq hw hn (fits_of_32 hw hp) (by positivity)]
  rfl

theorem rem_pow10 {k n : ℕ} (hn : Fits w n) (hk : k ≤ 9) :
    c_rem (BitVec.ofInt w n) ((pow10 k).signExtend w) = pure (BitVec.ofInt w (n % 10 ^ k : ℕ)) := by
  have hp := fits_pow10 hk
  rw [pow10, signExtend_ofInt hw hp, c_rem_eq hw hn (fits_of_32 hw hp) (by positivity)]
  rfl

theorem nine_slt {k n : ℕ} (hn : Fits w n) :
    (9 : BitVec w).slt (BitVec.ofInt w (n / 10 ^ k : ℕ)) = decide (9 < n / 10 ^ k) := by
  have hq : Fits w (n / 10 ^ k : ℕ) := by
    have hdiv := fits_ediv hn (y := (10 ^ k : ℕ)) (by positivity)
    exact_mod_cast hdiv
  rw [show (9 : BitVec w) = BitVec.ofInt w 9 from rfl,
    slt_ofInt hw (fits_of_32 hw (fits_small (by omega) (by omega))) hq]
  exact decide_eq_decide.2 (by omega)

theorem find_divisor_eq {k d n fuel : ℕ} (hn : Fits w n) (hlow : k = d ∨ 10 ^ d ≤ n)
    (hhigh : n < 10 ^ (d + 1)) (hk : k ≤ d) (hd : d ≤ 9) (hf : d < fuel + k) :
    find_divisor (BitVec.ofInt w n) fuel (pow10 k) = pure (pow10 d) := by
  induction fuel generalizing k with
  | zero => omega
  | succ fuel ih =>
    unfold find_divisor
    rw [div_pow10 hw hn (by omega)]
    show (if (9 : BitVec w).slt (BitVec.ofInt w (n / 10 ^ k : ℕ)) then _ else _) = _
    rw [nine_slt hw hn]
    by_cases hkd : k = d
    · subst hkd
      have hle : n / 10 ^ k ≤ 9 := by
        rw [pow_succ] at hhigh
        exact Nat.le_of_lt_succ ((Nat.div_lt_iff_lt_mul (by positivity)).2 (by omega))
      rw [decide_eq_false (by omega)]
      rfl
    · have hle : 10 ≤ n / 10 ^ k := by
        have hpow : 10 ^ (k + 1) ≤ n :=
          (Nat.pow_le_pow_right (by decide) (by omega)).trans (hlow.resolve_left hkd)
        rw [Nat.le_div_iff_mul_le (by positivity), ← pow_succ']
        exact hpow
      rw [decide_eq_true (by omega), if_pos rfl, pow10_mul (by omega)]
      exact ih (Or.inr (hlow.resolve_left hkd)) (by omega) (by omega)

omit hw in
theorem pow10_div {k : ℕ} (hk : k ≤ 9) :
    c_div (pow10 k) 10 = pure (BitVec.ofInt 32 ((10 ^ k / 10 : ℕ) : ℤ)) := by
  have hten : Fits 32 10 := fits_small (by omega) (by omega)
  have hdiv := c_div_eq (Nat.le_refl 32) (fits_pow10 hk) hten (by omega)
  rwa [show BitVec.ofInt 32 10 = (10 : I32) from rfl] at hdiv

omit hw in
theorem pow10_pos {k : ℕ} (hk : k ≤ 9) : (0 : I32).slt (pow10 k) = true := by
  have hpos : (0 : ℤ) < ((10 ^ k : ℕ) : ℤ) := by positivity
  rw [show (0 : I32) = BitVec.ofInt 32 0 from rfl, pow10,
    slt_ofInt (Nat.le_refl 32) fits_zero (fits_pow10 hk), decide_eq_true hpos]

/-- A round of the loop prints the highest digit. -/
theorem put_digits_succ {k n fuel : ℕ} (hn : Fits w n) (hhigh : n < 10 ^ (k + 1)) (hk : k ≤ 9) :
    put_digits (fuel + 1) (BitVec.ofInt w n) (pow10 k) =
      (uart_putchar (ch (Nat.digitChar (n / 10 ^ k))) >>= fun _ =>
        put_digits fuel (BitVec.ofInt w (n % 10 ^ k : ℕ))
          (BitVec.ofInt 32 ((10 ^ k / 10 : ℕ) : ℤ))) := by
  have hdigit : n / 10 ^ k < 10 := by
    rw [Nat.div_lt_iff_lt_mul (by positivity), ← pow_succ']
    exact hhigh
  rw [put_digits, if_pos (pow10_pos hk), div_pow10 hw hn hk, rem_pow10 hw hn hk, pow10_div hk]
  show (uart_putchar (ch '0' + (BitVec.ofInt w (n / 10 ^ k : ℕ)).setWidth 8) >>= fun _ => _) = _
  rw [digit_char hw hdigit]
  rfl

theorem put_digits_eq {k n fuel : ℕ} (hn : Fits w n) (hhigh : n < 10 ^ (k + 1)) (hk : k ≤ 9)
    (hf : k + 2 ≤ fuel) :
    put_digits fuel (BitVec.ofInt w n) (pow10 k) = puts (lowDigits (k + 1) n) := by
  induction k generalizing n fuel with
  | zero =>
    obtain ⟨fuel, rfl⟩ : ∃ m, fuel = m + 1 + 1 := ⟨fuel - 2, by omega⟩
    rw [put_digits_succ hw hn hhigh hk]
    rfl
  | succ k ih =>
    obtain ⟨fuel, rfl⟩ : ∃ m, fuel = m + 1 := ⟨fuel - 1, by omega⟩
    have hlow : n % 10 ^ (k + 1) < 10 ^ (k + 1) := Nat.mod_lt _ (by positivity)
    have hfit : Fits w (n % 10 ^ (k + 1) : ℕ) :=
      fits_between fits_zero hn (by positivity) (by exact_mod_cast Nat.mod_le n _)
    rw [put_digits_succ hw hn hhigh hk, lowDigits, puts_cons]
    rw [show 10 ^ (k + 1) / 10 = 10 ^ k by rw [pow_succ, Nat.mul_div_cancel _ (by decide)]]
    exact congrArg _ (funext fun _ => ih hfit hlow (by omega) (by omega))

/-- The two loops print the numeral of a number below `10^10`. -/
theorem put_magnitude {n fuel : ℕ} (hn : Fits w n) (hlt : n < 10 ^ 10) (hf : 11 ≤ fuel) :
    (find_divisor (BitVec.ofInt w n) fuel 1 >>= fun divisor =>
      put_digits fuel (BitVec.ofInt w n) divisor) = puts (Nat.toDigits 10 n) := by
  obtain ⟨d, hlen, hlow, hhigh⟩ := toDigits_bounds n
  have hd : d ≤ 9 := by
    have hle := (Nat.length_toDigits_le_iff (b := 10) (k := 10) (by decide) (by decide)).2 hlt
    omega
  have hfind : find_divisor (BitVec.ofInt w n) fuel (pow10 0) = pure (pow10 d) :=
    find_divisor_eq hw hn (hlow.imp_left Eq.symm) hhigh (Nat.zero_le d) hd (by omega)
  rw [show (1 : I32) = pow10 0 from rfl, hfind, toDigits_eq_lowDigits hlow hhigh]
  exact put_digits_eq hw hn hhigh hd (by omega)

omit hw in
theorem slt_zero {v : BitVec w} : v.slt 0 = decide (v.toInt < 0) := by
  rw [BitVec.slt_eq_decide]
  show decide (v.toInt < (0#w).toInt) = _
  rw [BitVec.toInt_zero]

/-- `%d` and `%lld` print the numeral of a value of at most ten digits that can be negated. -/
theorem put_decimal_eq {v : BitVec w} {fuel : ℕ} (hlt : v.toInt.natAbs < 10 ^ 10)
    (hmin : v.toInt ≠ -2 ^ (w - 1)) (hf : 11 ≤ fuel) :
    put_decimal fuel v = puts (numeral v.toInt) := by
  have hv := fits_toInt v
  have hnat : Fits w (v.toInt.natAbs : ℤ) := by
    have h1 := hv.1
    have h2 := hv.2
    constructor <;> omega
  have hmag := put_magnitude hw hnat hlt hf
  unfold put_decimal numeral sign
  rw [slt_zero]
  by_cases hneg : v.toInt < 0
  · have hc : c_neg v = pure (BitVec.ofInt w v.toInt.natAbs) := by
      have hc := c_neg_eq hw hv hmin
      rwa [BitVec.ofInt_toInt, show -v.toInt = (v.toInt.natAbs : ℤ) by omega] at hc
    rw [decide_eq_true hneg, if_pos rfl, if_pos hneg, hc, ← puts_append, ← hmag, puts_singleton]
    rfl
  · have hval : v = BitVec.ofInt w (v.toInt.natAbs : ℤ) := by
      rw [show (v.toInt.natAbs : ℤ) = v.toInt by omega, BitVec.ofInt_toInt]
    rw [decide_eq_false hneg, if_neg hneg, List.nil_append, ← hmag]
    rw [← hval]
    rfl

/-! ## The padding -/

omit hw in
/-- `i++` in an `int`. -/
theorem int_succ {k : ℕ} (hk : k + 1 < 2 ^ 31) :
    c_add (BitVec.ofInt 32 k) 1 = pure (BitVec.ofInt 32 ((k + 1 : ℕ) : ℤ)) := by
  have hone : Fits 32 1 := fits_small (by omega) (by omega)
  have hadd := c_add_eq (Nat.le_refl 32) (x := k) (fits_small (by omega) (by omega)) hone
    (fits_small (by omega) (by omega))
  rwa [show BitVec.ofInt 32 1 = (1 : I32) from rfl] at hadd

/-- What the loop counts: no digit for zero. -/
def digitCount (v : ℤ) : ℕ := if v = 0 then 0 else (Nat.toDigits 10 v.natAbs).length

omit hw in
theorem digitCount_tdiv {v : ℤ} (hv : v ≠ 0) : digitCount v = digitCount (v.tdiv 10) + 1 := by
  have habs : (v.tdiv 10).natAbs = v.natAbs / 10 := Int.natAbs_tdiv v 10
  unfold digitCount
  rw [if_neg hv, habs]
  by_cases hlt : v.natAbs < 10
  · have hzero : v.tdiv 10 = 0 := by omega
    rw [if_pos hzero, Nat.toDigits_of_lt_base hlt]
    rfl
  · have hne : v.tdiv 10 ≠ 0 := by omega
    rw [if_neg hne, length_toDigits_div (by omega)]

theorem count_digits_eq {v : ℤ} {k fuel : ℕ} (hv : Fits w v) (hk : k + digitCount v < 2 ^ 31)
    (hf : digitCount v < fuel) : count_digits fuel (BitVec.ofInt w v) (BitVec.ofInt 32 k) =
      pure (BitVec.ofInt 32 ((k + digitCount v : ℕ) : ℤ)) := by
  induction fuel generalizing v k with
  | zero => omega
  | succ fuel ih =>
    unfold count_digits
    by_cases h0 : v = 0
    · subst h0
      rw [if_pos (show BitVec.ofInt w 0 = 0 from rfl)]
      rfl
    · have hne : BitVec.ofInt w v ≠ 0 := by
        intro he
        have hint := congrArg BitVec.toInt he
        rw [toInt_ofInt_fits hw hv] at hint
        exact h0 (hint.trans (by simp))
      have hcount := digitCount_tdiv h0
      have hdiv : c_div (BitVec.ofInt w v) 10 = pure (BitVec.ofInt w (v.tdiv 10)) := by
        have hten : Fits 32 10 := fits_small (by omega) (by omega)
        have hdiv := c_div_eq hw hv (fits_of_32 hw hten) (by omega)
        rwa [show BitVec.ofInt w 10 = (10 : BitVec w) from rfl] at hdiv
      have hadd := int_succ (k := k) (by omega)
      rw [if_neg hne, hdiv]
      show (c_add (BitVec.ofInt 32 k) 1 >>= fun d =>
        count_digits fuel (BitVec.ofInt w (v.tdiv 10)) d) = _
      rw [hadd]
      show count_digits fuel (BitVec.ofInt w (v.tdiv 10)) (BitVec.ofInt 32 ((k + 1 : ℕ) : ℤ)) = _
      rw [ih (fits_tdiv hv (by omega)) (by omega) (by omega), hcount]
      congr 3
      omega

omit hw in
/-- The loop prints the zeros that are left to print. -/
theorem put_zeros_eq {cnt nd i fuel : ℕ} (hcnt : cnt < 2 ^ 31) (hnd : nd < 2 ^ 31)
    (hi : i < 2 ^ 31) (hf : cnt - nd - i < fuel) :
    put_zeros (BitVec.ofInt 32 cnt) (BitVec.ofInt 32 nd) fuel (BitVec.ofInt 32 i) =
      puts (List.replicate (cnt - nd - i) '0') := by
  induction fuel generalizing i with
  | zero => omega
  | succ fuel ih =>
    have hfi : Fits 32 (i : ℤ) := fits_small (by omega) (by omega)
    have hsub : Fits 32 ((cnt : ℤ) - nd) := ⟨by omega, by omega⟩
    unfold put_zeros
    rw [c_sub_eq (Nat.le_refl 32) (fits_small (by omega) (by omega))
      (fits_small (by omega) (by omega)) hsub]
    show (if (BitVec.ofInt 32 i).slt (BitVec.ofInt 32 ((cnt : ℤ) - nd)) then _ else _) = _
    rw [slt_ofInt (Nat.le_refl 32) hfi hsub]
    by_cases hlt : (i : ℤ) < (cnt : ℤ) - nd
    · obtain ⟨m, hm⟩ : ∃ m, cnt - nd - i = m + 1 := ⟨cnt - nd - i - 1, by omega⟩
      have hrest := ih (i := i + 1) (by omega) (by omega)
      rw [show cnt - nd - (i + 1) = m by omega] at hrest
      rw [decide_eq_true hlt, if_pos rfl, hm, List.replicate_succ, puts_cons, ← hrest,
        int_succ (by omega)]
      rfl
    · rw [decide_eq_false hlt, show cnt - nd - i = 0 by omega]
      rfl

/-- `%0Nd` and `%0Nlld` print the zeros before the sign. -/
theorem put_padded_eq {v : BitVec w} {cnt fuel : ℕ} (hcnt : cnt < 2 ^ 31)
    (hlt : v.toInt.natAbs < 10 ^ 10) (hmin : v.toInt ≠ -2 ^ (w - 1))
    (hf : cnt + 11 ≤ fuel) : put_padded fuel (BitVec.ofInt 32 cnt) v =
      puts (List.replicate (cnt - digitCount v.toInt) '0' ++ numeral v.toInt) := by
  have hdc : digitCount v.toInt ≤ 10 := by
    unfold digitCount
    split
    · omega
    · exact (Nat.length_toDigits_le_iff (by decide) (by decide)).2 hlt
  have hcount : count_digits fuel (BitVec.ofInt w v.toInt) (BitVec.ofInt 32 ((0 : ℕ) : ℤ)) = _ :=
    count_digits_eq hw (fits_toInt v) (by omega) (by omega)
  rw [BitVec.ofInt_toInt, Nat.zero_add] at hcount
  have hzeros : put_zeros (BitVec.ofInt 32 cnt) (BitVec.ofInt 32 (digitCount v.toInt)) fuel
      (BitVec.ofInt 32 ((0 : ℕ) : ℤ)) = _ :=
    put_zeros_eq hcnt (by omega) (by omega) (by omega)
  unfold put_padded
  rw [show (0 : I32) = BitVec.ofInt 32 ((0 : ℕ) : ℤ) from rfl, hcount, ← puts_append,
    ← put_decimal_eq hw hlt hmin (show 11 ≤ fuel by omega)]
  rw [Nat.sub_zero] at hzeros
  rw [← hzeros]
  rfl

end

/-! ## What has no value -/

/-- The program comes to an undefined operation, or to the end of its rounds. -/
def Undefined {α : Type} : PrintProg α → Prop
  | .pure _ => False
  | .op o k => o = .overflow ∨ o = .div_zero ∨ o = .more ∨ ∀ r, Undefined (k r)

section
variable {α β : Type}

theorem undefined_op {o : PrintOp} {k : PrintOp.Ret o → PrintProg α} (h : ∀ r, Undefined (k r)) :
    Undefined (.op o k) := Or.inr (Or.inr (Or.inr h))

theorem Undefined.bind {f : α → PrintProg β} :
    ∀ {p : PrintProg α}, Undefined p → Undefined (p >>= f)
  | .op _ _, h => h.imp_right (Or.imp_right (Or.imp_right fun h r => Undefined.bind (h r)))

end

section
variable {w : ℕ} (hw : 32 ≤ w)
include hw

/-- An `int` divisor overflows before it reaches the first digit of a number from `10^10` on. -/
theorem undefined_find_divisor {k n fuel : ℕ} (hn : Fits w n) (hbig : 10 ^ 10 ≤ n) (hk : k ≤ 9) :
    Undefined (find_divisor (BitVec.ofInt w n) fuel (pow10 k)) := by
  induction fuel generalizing k with
  | zero => exact Or.inr (Or.inr (Or.inl rfl))
  | succ fuel ih =>
    have hle : 10 ≤ n / 10 ^ k := by
      have hpow : 10 ^ (k + 1) ≤ n := (Nat.pow_le_pow_right (by decide) (by omega)).trans hbig
      rw [Nat.le_div_iff_mul_le (by positivity), ← pow_succ']
      exact hpow
    rw [find_divisor, div_pow10 hw hn hk]
    show Undefined (if (9 : BitVec w).slt (BitVec.ofInt w (n / 10 ^ k : ℕ)) then _ else _)
    rw [nine_slt hw hn, decide_eq_true (by omega), if_pos rfl]
    by_cases hk9 : k = 9
    · subst hk9
      exact Or.inl rfl
    · rw [pow10_mul (by omega)]
      exact ih (by omega)

theorem undefined_decimal {v : BitVec w} {fuel : ℕ}
    (hv : 10 ^ 10 ≤ v.toInt.natAbs ∨ v.toInt = -2 ^ (w - 1)) : Undefined (put_decimal fuel v) := by
  have hfit := fits_toInt v
  unfold put_decimal
  rw [slt_zero]
  by_cases hneg : v.toInt < 0
  · rw [decide_eq_true hneg, if_pos rfl]
    refine undefined_op fun _ => ?_
    by_cases hmin : v.toInt = -2 ^ (w - 1)
    · unfold c_neg BitVec.negOverflow
      rw [hmin, beq_self_eq_true]
      exact Or.inl rfl
    · have hc := c_neg_eq hw hfit hmin
      have hnat : Fits w (v.toInt.natAbs : ℤ) := by
        have h1 := hfit.1
        have h2 := hfit.2
        constructor <;> omega
      rw [BitVec.ofInt_toInt, show -v.toInt = (v.toInt.natAbs : ℤ) by omega] at hc
      rw [hc]
      exact (undefined_find_divisor hw (k := 0) hnat (hv.resolve_right hmin) (by omega)).bind
  · have hval : v = BitVec.ofInt w (v.toInt.natAbs : ℤ) := by
      rw [show (v.toInt.natAbs : ℤ) = v.toInt by omega, BitVec.ofInt_toInt]
    have hpow : (0 : ℤ) < 2 ^ (w - 1) := by positivity
    rw [decide_eq_false hneg]
    refine Undefined.bind (p := find_divisor v fuel 1) ?_
    rw [hval]
    refine undefined_find_divisor hw (k := 0) ?_ (hv.resolve_right (by omega)) (by omega)
    rw [show (v.toInt.natAbs : ℤ) = v.toInt by omega]
    exact hfit

end

end GQuuuuuunix.Proof
