import GQuuuuuunix.Proof.Formats

/-! # The width of %0N

The digits are counted, and the first is multiplied by ten to the power of that count less one: from
eleven digits on the power has no value in an `int`, whatever number the digits are. -/

namespace GQuuuuuunix.Properties
open Lib Kernel Console Proof
set_option autoImplicit false

variable {f : CString} {past tmp : ℕ → U8} {i : ℕ} {vargs : List Arg} {ds : List Char}
  {rest : List U8}

/-- The directive begins with the code that reads the width, and goes on with the cursor and the
width that it leaves. -/
theorem zero_directive_parses : ∃ k : ℕ → ℕ → I32 → PrintProg Next,
    ∀ fuel fmt tmp_idx, zero_directive fuel fmt tmp_idx =
      parse_width fuel fmt tmp_idx >>= fun r => k fuel r.1 r.2.1 := by
  apply Exists.intro
  intro fuel fmt tmp_idx
  unfold zero_directive parse_width
  simp only [Prog.bind_eq, Prog.bind_assoc, Prog.pure_eq, Prog.pure_bind]
  apply congrArg (Prog.bind _)
  funext ⟨fmt, tmp_idx⟩
  apply congrArg (Prog.bind _)
  funext multiplend
  apply congrArg (Prog.bind _)
  funext zero_padding_cnt
  dsimp only

/-- With the cursor at the `0` before the digits `ds`, the code returns, all its stores inside `tmp`
and all its operations defined; it leaves the cursor behind the digits, their number in
`zero_padding_cnt`, and 0 in `tmp_idx`. -/
def WidthParsed (f : CString) (i : ℕ) (ds : List Char) : Prop :=
  ∀ past vargs tmp, ∃ N, ∀ fuel ≥ N, ∃ σ,
    (parse_width fuel i 0).run (exec f past) ⟨vargs, tmp, []⟩ =
      .ok ((i + 1 + ds.length, BitVec.ofNat 32 (Nat.ofDigitChars 10 ds 0), 0), σ) ∧
    (∀ k c, .set_tmp k c ∈ σ.log → k.toNat < 1024) ∧ Defined σ.log

/-! ## What goes wrong -/

/-- The power of ten overflows on its way to the tenth. -/
theorem undefined_multiplend {m j n : ℕ} (hm : 11 ≤ m) (hmax : m < 2 ^ 31) (hj : j ≤ 9) :
    Undefined (find_multiplend (BitVec.ofInt 32 m) n (BitVec.ofInt 32 j) (pow10 j)) := by
  induction n generalizing j with
  | zero => exact Or.inr (Or.inr (Or.inl rfl))
  | succ n ih =>
    have hone : Fits 32 1 := fits_small (by omega) (by omega)
    have hsub : Fits 32 ((m : ℤ) - 1) := ⟨by omega, by omega⟩
    have hk := c_sub_eq (Nat.le_refl 32) (x := m) (fits_small (by omega) (by omega)) hone hsub
    rw [show BitVec.ofInt 32 1 = (1 : I32) from rfl] at hk
    unfold find_multiplend
    rw [hk]
    show Undefined (if (BitVec.ofInt 32 j).slt (BitVec.ofInt 32 ((m : ℤ) - 1)) then _ else _)
    rw [slt_ofInt (Nat.le_refl 32) (fits_small (by omega) (by omega)) hsub,
      decide_eq_true (by omega), if_pos rfl]
    by_cases hj9 : j = 9
    · subst hj9
      exact Or.inl rfl
    · rw [pow10_mul (by omega), int_succ (by omega)]
      exact ih (by omega)

/-- Digits without room in `tmp`. -/
theorem faults_read_digits {k n : ℕ} (hi : Ahead f i (ds.map ch ++ rest))
    (hds : ∀ c ∈ ds, c.isDigit = true) (hk : k ≤ 1024) (hlen : 1024 < k + ds.length) :
    Faults f past (read_digits n i (BitVec.ofInt 32 k)) vargs tmp := by
  induction n generalizing i k ds tmp with
  | zero => exact Undefined.faults (Or.inr (Or.inr (Or.inl rfl)))
  | succ n ih =>
    cases ds with
    | nil =>
      rw [List.length_nil] at hlen
      omega
    | cons c ds =>
      obtain ⟨-, hat, hnext⟩ := hi.next
      have hc := ch_digit (hds c (List.mem_cons_self ..))
      rw [List.length_cons] at hlen
      unfold read_digits
      refine emits_ask.faults ?_
      rw [hat past, if_pos hc.2]
      by_cases hfull : k = 1024
      · subst hfull
        intro log a σ hx
        cases hx
      · rw [int_succ (by omega)]
        have hset : Emits f past (set_tmp (BitVec.ofInt 32 k) (ch c)) vargs tmp () [] vargs
            (Function.update tmp k (ch c)) := emits_set_tmp (g := .pure) (by omega) emits_pure
        exact hset.faults (ih hnext (fun d hd => hds d (List.mem_cons_of_mem c hd)) (by omega)
          (by omega))

/-- From eleven digits on, the code performs what is undefined, or stores outside `tmp`. -/
theorem faults_parse_width {fuel : ℕ} (hi : Ahead f i (ch '0' :: (ds.map ch ++ rest)))
    (hds : ∀ c ∈ ds, c.isDigit = true)
    (hstop : ¬ (ch '0' ≤ f.at past (i + 1 + ds.length) ∧ f.at past (i + 1 + ds.length) ≤ ch '9'))
    (hlen : 11 ≤ ds.length) (hf : ds.length < fuel) :
    Faults f past (parse_width fuel i 0) vargs tmp := by
  unfold parse_width
  by_cases hroom : ds.length ≤ 1024
  · have hread : Emits f past (read_digits fuel (i + 1) (BitVec.ofInt 32 ((0 : ℕ) : ℤ))) vargs tmp
        _ [] vargs _ := emits_read_digits hi.next.2.2 hds hstop (by omega) hf
    have hmul : Undefined (find_multiplend (BitVec.ofInt 32 ((0 + ds.length : ℕ) : ℤ)) fuel
        (BitVec.ofInt 32 ((0 : ℕ) : ℤ)) (pow10 0)) :=
      undefined_multiplend (by omega) (by omega) (Nat.zero_le 9)
    exact hread.faults hmul.bind.faults
  · have hread : Faults f past (read_digits fuel (i + 1) (BitVec.ofInt 32 ((0 : ℕ) : ℤ))) vargs
        tmp := faults_read_digits hi.next.2.2 hds (by omega) (by omega)
    exact hread.bind

/-- What comes after the digits is not one. -/
theorem stops_at_end (hi : Ahead f i (ds.map ch ++ rest))
    (hend : ∀ c cs, rest = c :: cs → ¬ (ch '0' ≤ c ∧ c ≤ ch '9')) :
    ¬ (ch '0' ≤ f.at past (i + ds.length) ∧ f.at past (i + ds.length) ≤ ch '9') := by
  have hrest := hi.append
  rw [List.length_map] at hrest
  cases rest with
  | nil =>
    rw [hrest.at_nil]
    decide
  | cons c cs =>
    rw [hrest.next.2.1 past]
    exact hend c cs rfl

theorem not_widthParsed (hi : Ahead f i (ch '0' :: (ds.map ch ++ rest)))
    (hds : ∀ c ∈ ds, c.isDigit = true)
    (hend : ∀ c cs, rest = c :: cs → ¬ (ch '0' ≤ c ∧ c ≤ ch '9')) (hlen : 11 ≤ ds.length) :
    ¬ WidthParsed f i ds := by
  intro h
  obtain ⟨N, h⟩ := h (fun _ => 0) [] fun _ => 0
  obtain ⟨σ, hrun, -, hdef⟩ := h (max N (ds.length + 1)) (le_max_left ..)
  have hfaults : Faults f (fun _ => 0) (parse_width (max N (ds.length + 1)) i 0) [] fun _ => 0 :=
    faults_parse_width hi hds (stops_at_end hi.next.2.2 hend) hlen (by omega)
  exact hfaults _ _ _ hrun hdef

/-! ## What goes right -/

/-- Where a program returns, it stored inside `tmp`. -/
theorem run_stores {α : Type} {p : PrintProg α} {σ σ' : Console.State} {a : α}
    (hx : p.run (exec f past) σ = .ok (a, σ'))
    (h : ∀ k c, .set_tmp k c ∈ σ.log → k.toNat < 1024) :
    ∀ k c, .set_tmp k c ∈ σ'.log → k.toNat < 1024 := by
  induction p generalizing σ with
  | pure b =>
    cases hx
    exact h
  | op o k ih =>
    unfold Prog.run at hx
    split at hx
    swap
    · cases hx
    next x hstep =>
    refine ih _ hx fun k c hm => ?_
    rw [(exec_log hstep).1] at hm
    rcases List.mem_cons.1 hm with rfl | hm
    · simp only [exec] at hstep
      split at hstep
      · assumption
      · cases hstep
    · exact h k c hm

theorem widthParsed (hi : Ahead f i (ch '0' :: (ds.map ch ++ rest)))
    (hds : ∀ c ∈ ds, c.isDigit = true)
    (hend : ∀ c cs, rest = c :: cs → ¬ (ch '0' ≤ c ∧ c ≤ ch '9')) (hlen : ds.length ≤ 10)
    (hval : Nat.ofDigitChars 10 ds 0 < 2 ^ 31) : WidthParsed f i ds := by
  intro past vargs tmp
  refine ⟨11, fun fuel hf => ?_⟩
  have hem : Emits f past (parse_width fuel i 0) vargs tmp
      (i + 1 + ds.length, BitVec.ofInt 32 (Nat.ofDigitChars 10 ds 0 : ℤ), 0) [] vargs
      (stored tmp 0 (ds.map ch)) :=
    emits_width (g := fun x cnt => pure (x.1, cnt, 0)) hi.next.2.2 hds
      (stops_at_end hi.next.2.2 hend) hlen hval (by omega) emits_pure
  obtain ⟨log, hrun, -, hdef⟩ := hem []
  rw [BitVec.ofInt_natCast] at hrun
  exact ⟨_, hrun, run_stores hrun (by simp), hdef ⟨by simp, by simp⟩⟩

/-- The width of a number of an `int` is read exactly when it has at most ten digits, zeros in front
included. -/
theorem width_parsed_iff (hi : Ahead f i (ch '0' :: (ds.map ch ++ rest)))
    (hend : ∀ c cs, rest = c :: cs → ¬ (ch '0' ≤ c ∧ c ≤ ch '9'))
    (hds : ∀ c ∈ ds, c.isDigit = true) (hval : Nat.ofDigitChars 10 ds 0 < 2 ^ 31) :
    WidthParsed f i ds ↔ ds.length ≤ 10 := by
  constructor
  · intro h
    by_contra hlong
    exact not_widthParsed hi hds hend (by omega) h
  · intro hlen
    exact widthParsed hi hds hend hlen hval

/-- `"%00000000007d"`: a width of ten digits. -/
def tenDigits : CString := ⟨"%00000000007d".toList.map ch, by decide⟩

theorem width_parsed_iff_tenDigits : WidthParsed tenDigits 1 "0000000007".toList := by
  have hi : Ahead tenDigits 1 (ch '0' :: ("0000000007".toList.map ch ++ [ch 'd'])) :=
    ⟨by decide, by decide⟩
  have hend : ∀ c cs, [ch 'd'] = c :: cs → ¬ (ch '0' ≤ c ∧ c ≤ ch '9') := by
    rintro c cs ⟨⟩
    decide
  exact (width_parsed_iff hi hend (List.all_eq_true.1 rfl) (by decide)).2 (by decide)

/-- `"%000000000007d"`: a width of eleven. -/
def elevenDigits : CString := ⟨"%000000000007d".toList.map ch, by decide⟩

theorem width_parsed_not : ¬ ∀ (f : CString) (i : ℕ) (ds : List Char) (rest : List U8),
    Ahead f i (ch '0' :: (ds.map ch ++ rest)) →
    (∀ c cs, rest = c :: cs → ¬ (ch '0' ≤ c ∧ c ≤ ch '9')) → ds ≠ [] →
    (∀ c ∈ ds, c.isDigit = true) → Nat.ofDigitChars 10 ds 0 < 2 ^ 31 → WidthParsed f i ds := by
  intro hall
  have hi : Ahead elevenDigits 1 (ch '0' :: ("00000000007".toList.map ch ++ [ch 'd'])) :=
    ⟨by decide, by decide⟩
  have hend : ∀ c cs, [ch 'd'] = c :: cs → ¬ (ch '0' ≤ c ∧ c ≤ ch '9') := by
    rintro c cs ⟨⟩
    decide
  have hds : ∀ c ∈ "00000000007".toList, c.isDigit = true := List.all_eq_true.1 rfl
  have h := hall elevenDigits 1 "00000000007".toList [ch 'd'] hi hend (by decide) hds (by decide)
  exact not_widthParsed hi hds hend (by decide) h

end GQuuuuuunix.Properties
