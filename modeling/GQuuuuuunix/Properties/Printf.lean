import GQuuuuuunix.Proof.Formats

/-! # What printf prints

The `int` divisor of the decimal conversions overflows for a number of more than ten digits, and
the value is negated where the negation may overflow. A width counts neither the sign nor the digit
of zero, and its zeros come before the sign. -/

namespace GQuuuuuunix.Properties
open Lib Kernel Console Proof
set_option autoImplicit false

/-! ## Numerals -/

theorem prints_conv {c : Conv} {a : Arg} (ha : c.Takes a) :
    Prints (format [.conv c]) [a] (c.text 0 a) := by
  have hr : Renders [.conv c] ([a] ++ []) (c.text 0 a ++ []) :=
    .cons (show Item.Takes (.conv c) [a] from ha) .nil
  rw [List.append_nil, List.append_nil] at hr
  exact prints_format hr

theorem prints_zero {width : PadWidth} {c : Conv} {a : Arg} (ha : c.Takes a) :
    Prints (format [.padded width c]) [a] (c.text width.val a) := by
  have hr : Renders [.padded width c] ([a] ++ []) (c.text width.val a ++ []) :=
    .cons (show Item.Takes (.padded width c) [a] from ha) .nil
  rw [List.append_nil, List.append_nil] at hr
  exact prints_format hr

/-- `printf("%d", v)` of a value that cannot be negated. -/
theorem faults_d {v : I32} (hv : v.toInt = -2 ^ (32 - 1)) (past tmp : ℕ → U8) (fuel : ℕ) :
    Faults (format [.conv .d]) past (printf fuel) [.int v] tmp := by
  refine faults_directive rfl (fun fuel => ?_) fuel
  have hi : Ahead (format [.conv .d]) 0 [ch '%', ch 'd'] := ⟨Nat.zero_le _, rfl⟩
  have hd : (format [.conv .d]).at past (0 + 1) = ch 'd' := hi.next.2.2.next.2.1 past
  refine emits_ask.faults ?_
  rw [hd, if_neg (by decide), if_neg (by decide), if_neg (by decide), if_pos rfl]
  have htake : Emits (format [.conv .d]) past va_int [.int v] tmp v [] [] tmp :=
    emits_va_int (k := .pure) emits_pure
  exact htake.faults (undefined_decimal (Nat.le_refl 32) (Or.inr hv)).bind.faults

/-- `printf("%lld", v)` of a value of more than ten digits. -/
theorem faults_lld {v : I64} (hv : 10 ^ 10 ≤ v.toInt.natAbs) (past tmp : ℕ → U8) (fuel : ℕ) :
    Faults (format [.conv .lld]) past (printf fuel) [.long v] tmp := by
  refine faults_directive rfl (fun fuel => ?_) fuel
  have hi : Ahead (format [.conv .lld]) 0 [ch '%', ch 'l', ch 'l', ch 'd'] := ⟨Nat.zero_le _, rfl⟩
  have h1 : (format [.conv .lld]).at past (0 + 1) = ch 'l' := hi.next.2.2.next.2.1 past
  have h2 : (format [.conv .lld]).at past (0 + 1 + 1) = ch 'l' :=
    hi.next.2.2.next.2.2.next.2.1 past
  have h3 : (format [.conv .lld]).at past (0 + 1 + 1 + 1) = ch 'd' :=
    hi.next.2.2.next.2.2.next.2.2.next.2.1 past
  refine emits_ask.faults ?_
  rw [h1, if_neg (by decide), if_neg (by decide), if_neg (by decide), if_neg (by decide),
    if_neg (by decide), if_pos rfl]
  refine emits_ask.faults ?_
  rw [h2, if_neg (by decide), if_pos rfl]
  refine emits_ask.faults ?_
  rw [h3, if_neg (by decide), if_pos rfl]
  have htake : Emits (format [.conv .lld]) past va_long [.long v] tmp v [] [] tmp :=
    emits_va_long (k := .pure) emits_pure
  exact htake.faults (undefined_decimal (by decide) (Or.inl hv)).bind.faults

theorem takes_of_ne_min {v : I32} (hv : v ≠ BitVec.intMin 32) : Conv.Takes .d (.int v) := by
  have hne : v.toInt ≠ -2 ^ 31 := fun h => hv (BitVec.eq_of_toInt_eq h)
  have hlo := BitVec.le_toInt v
  have hhi : v.toInt < 2 ^ 31 := BitVec.toInt_lt
  show v.toInt.natAbs < 2 ^ 31
  omega

/-- `printf("%d", v)` prints the numeral of `v` exactly when `v` is not the minimum. -/
theorem printf_d_iff (v : I32) :
    (Prints (format [.conv .d]) [.int v] ((numeral v.toInt).map ch) ∧
      readInt (numeral v.toInt) = v.toInt) ↔ v ≠ BitVec.intMin 32 := by
  constructor
  · rintro ⟨hprints, -⟩ rfl
    exact Faults.not_prints (faults_d (by decide)) hprints
  · intro hv
    have hprints := prints_conv (takes_of_ne_min hv)
    rw [Conv.text, Nat.zero_sub] at hprints
    exact ⟨hprints, readInt_numeral _⟩

/-- `printf("%lld", v)` prints the numeral of `v` exactly when it has at most ten digits. -/
theorem printf_lld_iff (v : I64) :
    (Prints (format [.conv .lld]) [.long v] ((numeral v.toInt).map ch) ∧
      readInt (numeral v.toInt) = v.toInt) ↔ v.toInt.natAbs < 10 ^ 10 := by
  constructor
  · rintro ⟨hprints, -⟩
    by_contra hv
    exact Faults.not_prints (faults_lld (by omega)) hprints
  · intro hv
    have htakes : Conv.Takes .lld (.long v) := hv
    have hprints := prints_conv htakes
    rw [Conv.text, Nat.zero_sub] at hprints
    exact ⟨hprints, readInt_numeral _⟩

theorem printf_d_not : ¬ ∀ v : I32,
    Prints (format [.conv .d]) [.int v] ((numeral v.toInt).map ch) := by
  intro hall
  exact Faults.not_prints (faults_d (by decide)) (hall (BitVec.intMin 32))

theorem printf_lld_not : ¬ ∀ v : I64,
    Prints (format [.conv .lld]) [.long v] ((numeral v.toInt).map ch) := by
  intro hall
  exact Faults.not_prints (faults_lld (by decide)) (hall 10000000000)

/-! ## Widths -/

/-- Every width below `10^9` can be written. -/
theorem exists_width {n : ℕ} (hn : n < 10 ^ 9) :
    ∃ width : PadWidth, width.digits = Nat.toDigits 10 n ∧ width.val = n := by
  have hlen := (Nat.length_toDigits_le_iff (b := 10) (k := 9) (by decide) (by decide)).2 hn
  exact ⟨⟨Nat.toDigits 10 n, fun c hc => Nat.isDigit_of_mem_toDigits (by decide) (by decide) hc,
    hlen⟩, rfl, Nat.ofDigitChars_ten_toDigits⟩

theorem digitCount_pos {v : ℤ} (hv : 0 < v) : digitCount v = (numeral v).length := by
  unfold digitCount numeral sign
  rw [if_neg (by omega), if_neg (by omega), List.nil_append]

theorem digitCount_neg {v : ℤ} (hv : v ≤ 0) : digitCount v + 1 = (numeral v).length := by
  unfold digitCount numeral sign
  by_cases h0 : v = 0
  · subst h0
    rfl
  · rw [if_neg h0, if_pos (by omega), List.length_append, List.length_singleton, Nat.add_comm]

/-- The zeros and the numeral are what they should be for a positive number, and where there are no
zeros to print. -/
theorem padded_eq_iff (n : ℕ) (v : ℤ) :
    (List.replicate (n - digitCount v) '0' ++ numeral v).map ch = (zeroPadded n v).map ch ↔
      0 < v ∨ n < (numeral v).length := by
  by_cases hpos : 0 < v
  · refine iff_of_true ?_ (Or.inl hpos)
    unfold zeroPadded
    rw [digitCount_pos hpos]
    unfold numeral sign
    rw [if_neg (by omega), List.nil_append, List.nil_append]
  · have hcount := digitCount_neg (v := v) (by omega)
    constructor
    · intro heq
      have hlen := congrArg List.length heq
      rw [List.length_map, List.length_map, zeroPadded_length, List.length_append,
        List.length_replicate] at hlen
      right
      omega
    · rintro (h | hlt)
      · exact absurd h hpos
      · rw [zeroPadded, show n - digitCount v = 0 by omega,
          show n - (numeral v).length = 0 by omega]
        rfl

theorem printf_padded_iff (width : PadWidth) :
    (∀ v : I32, v ≠ BitVec.intMin 32 →
      ((Prints (format [.padded width .d]) [.int v] ((zeroPadded width.val v.toInt).map ch) ∧
        readInt (zeroPadded width.val v.toInt) = v.toInt) ↔
        0 < v.toInt ∨ width.val < (numeral v.toInt).length)) ∧
    ∀ v : I64, v.toInt.natAbs < 10 ^ 10 →
      ((Prints (format [.padded width .lld]) [.long v] ((zeroPadded width.val v.toInt).map ch) ∧
        readInt (zeroPadded width.val v.toInt) = v.toInt) ↔
        0 < v.toInt ∨ width.val < (numeral v.toInt).length) := by
  have hiff : ∀ {c : Conv} {a : Arg} {v : ℤ}, c.Takes a → c.text width.val a =
      (List.replicate (width.val - digitCount v) '0' ++ numeral v).map ch →
      ((Prints (format [.padded width c]) [a] ((zeroPadded width.val v).map ch) ∧
        readInt (zeroPadded width.val v) = v) ↔ 0 < v ∨ width.val < (numeral v).length) := by
    intro c a v ha htext
    have hprints : Prints (format [.padded width c]) [a] _ := prints_zero ha
    rw [htext] at hprints
    rw [← padded_eq_iff]
    exact ⟨fun h => prints_unique hprints h.1, fun h => ⟨h ▸ hprints, readInt_zeroPadded _ _⟩⟩
  refine ⟨fun v hv => hiff (takes_of_ne_min hv) rfl, fun v hv => ?_⟩
  have htakes : Conv.Takes .lld (.long v) := hv
  exact hiff htakes rfl

/-- The width of `%05d` and `%05lld`. -/
def width5 : PadWidth := ⟨['5'], by simp, by simp⟩

example : (format [.padded width5 .lld]).chars = "%05lld".toList.map ch := by decide

theorem printf_padded_not : ¬ ∀ (width : PadWidth) (v : I32), v ≠ BitVec.intMin 32 →
    Prints (format [.padded width .d]) [.int v] ((zeroPadded width.val v.toInt).map ch) := by
  intro hall
  have hne : (0 : I32) ≠ BitVec.intMin 32 := by decide
  have hprints : Prints (format [.padded width5 .d]) [.int 0] _ :=
    prints_zero (takes_of_ne_min hne)
  exact absurd (prints_unique hprints (hall width5 0 hne)) (by decide)

theorem printf_padded_width5 :
    (Prints (format [.padded width5 .d]) [.int 42] ("00042".toList.map ch) ∧
      Prints (format [.padded width5 .lld]) [.long (-123456)] ("-123456".toList.map ch)) ∧
    ¬ Prints (format [.padded width5 .d]) [.int (-42)] ("-0042".toList.map ch) := by
  have hd := (printf_padded_iff width5).1
  have hlld := (printf_padded_iff width5).2
  refine ⟨⟨((hd 42 (by decide)).2 (Or.inl (by decide))).1,
    ((hlld (-123456) (by decide)).2 (Or.inr (by decide))).1⟩, fun h => ?_⟩
  have hno := (hd (-42) (by decide)).1 ⟨h, by decide⟩
  exact absurd hno (by decide)

/-! ## One format after another -/

theorem prints_iff {l : List Item} {as : List Arg} {out : List U8} (hr : Renders l as out)
    (o : List U8) : Prints (format l) as o ↔ o = out :=
  ⟨fun h => prints_unique h (prints_format hr), fun h => h ▸ prints_format hr⟩

/-- A call prints the texts of its items, and the call with both formats and all arguments prints
the one output after the other. -/
theorem printf_append {l₁ l₂ : List Item} {a₁ a₂ : List Arg} (h₁ : Matches l₁ a₁)
    (h₂ : Matches l₂ a₂) : ∃ o₁ o₂, Renders l₁ a₁ o₁ ∧ Renders l₂ a₂ o₂ ∧
      (∀ o, Prints (format l₁) a₁ o ↔ o = o₁) ∧ (∀ o, Prints (format l₂) a₂ o ↔ o = o₂) ∧
      ∀ o, Prints (format (l₁ ++ l₂)) (a₁ ++ a₂) o ↔ o = o₁ ++ o₂ := by
  obtain ⟨o₁, hr₁⟩ := h₁.renders
  obtain ⟨o₂, hr₂⟩ := h₂.renders
  exact ⟨o₁, o₂, hr₁, hr₂, prints_iff hr₁, prints_iff hr₂, prints_iff (hr₁.append hr₂)⟩

/-- `"100%"`, as a string to print. -/
def hundredPercent : CString := ⟨"100%".toList.map ch, by decide⟩

/-- `"a%s%%"` and `" %05d%llx"`. -/
def percentItems : List Item := [.char (ch 'a') (by decide), .str, .percent]
def numberItems : List Item := [.char (ch ' ') (by decide), .padded width5 .d, .conv .llx]

theorem percentItems_renders :
    Renders percentItems [.str hundredPercent] ("a100%%".toList.map ch) := by
  have hr : Renders percentItems ([] ++ ([.str hundredPercent] ++ ([] ++ [])))
      ([ch 'a'] ++ (hundredPercent.chars ++ ([ch '%'] ++ []))) :=
    .cons trivial (.cons trivial (.cons trivial .nil))
  exact hr

theorem numberItems_renders :
    Renders numberItems [.int 7, .long (-1)] (" 00007ffffffffffffffff".toList.map ch) := by
  have hr : Renders numberItems ([] ++ ([.int 7] ++ ([.long (-1)] ++ [])))
      ([ch ' '] ++ (Conv.text 5 .d (.int 7) ++ (Conv.text 0 .llx (.long (-1)) ++ []))) :=
    .cons trivial (.cons (show (7 : I32).toInt.natAbs < 2 ^ 31 by decide) (.cons trivial .nil))
  exact hr

/-- `printf("a%s%% %05d%llx", "100%", 7, -1L)`. -/
theorem printf_append_hundred :
    Prints (format (percentItems ++ numberItems)) [.str hundredPercent, .int 7, .long (-1)]
      ("a100%% 00007ffffffffffffffff".toList.map ch) := by
  have h₁ : Matches percentItems ([] ++ ([.str hundredPercent] ++ ([] ++ []))) :=
    .cons trivial (.cons trivial (.cons trivial .nil))
  have h₂ : Matches numberItems ([] ++ ([.int 7] ++ ([.long (-1)] ++ []))) :=
    .cons trivial (.cons (show (7 : I32).toInt.natAbs < 2 ^ 31 by decide) (.cons trivial .nil))
  obtain ⟨o₁, o₂, _, _, hp₁, hp₂, happ⟩ := printf_append h₁ h₂
  obtain rfl := (hp₁ _).1 (prints_format percentItems_renders)
  obtain rfl := (hp₂ _).1 (prints_format numberItems_renders)
  exact (happ _).2 (by decide)

end GQuuuuuunix.Properties
