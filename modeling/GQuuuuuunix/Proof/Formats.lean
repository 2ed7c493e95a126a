import GQuuuuuunix.Proof.Numerals

/-! # What printf prints for a well-formed format

A format is written as a list of items, each a character or a complete directive. -/

namespace GQuuuuuunix.Proof
open Lib Kernel Console
set_option autoImplicit false

variable {f : CString} {past : ℕ → U8} {α β : Type}

/-! ## Programs that print -/

/-- The program returns `a`, prints `out`, and leaves these arguments and this `tmp`. -/
def Emits (f : CString) (past : ℕ → U8) (p : PrintProg α) (vargs : List Arg) (tmp : ℕ → U8) (a : α)
    (out : List U8) (vargs' : List Arg) (tmp' : ℕ → U8) : Prop :=
  ∀ log, ∃ log', p.run (exec f past) ⟨vargs, tmp, log⟩ = .ok (a, ⟨vargs', tmp', log'⟩) ∧
    output log' = output log ++ out ∧ (Defined log → Defined log')

section
variable {vargs vargs' vargs'' : List Arg} {tmp tmp' tmp'' : ℕ → U8} {a : α} {b : β}
  {out out' : List U8}

theorem emits_pure : Emits f past (pure a) vargs tmp a [] vargs tmp :=
  fun log => ⟨log, rfl, (List.append_nil _).symm, id⟩

theorem Emits.bind {p : PrintProg α} {g : α → PrintProg β}
    (hp : Emits f past p vargs tmp a out vargs' tmp')
    (hg : Emits f past (g a) vargs' tmp' b out' vargs'' tmp'') :
    Emits f past (p >>= g) vargs tmp b (out ++ out') vargs'' tmp'' := by
  intro log
  obtain ⟨log', hrun, hout, hdef⟩ := hp log
  obtain ⟨log'', hrun', hout', hdef'⟩ := hg log'
  refine ⟨log'', ?_, ?_, hdef' ∘ hdef⟩
  · rw [Prog.bind_eq, Prog.run_bind, hrun]
    exact hrun'
  · rw [hout', hout, List.append_assoc]

/-- The operation is defined, and prints `out`. -/
theorem emits_op {o : PrintOp} {r : o.Ret} {k : o.Ret → PrintProg α}
    (hx : ∀ log, exec f past o ⟨vargs, tmp, log⟩ = .ok (r, ⟨vargs', tmp', o :: log⟩))
    (ho : output [o] = out) (hdef : o ≠ .overflow ∧ o ≠ .div_zero)
    (hk : Emits f past (k r) vargs' tmp' a out' vargs'' tmp'') :
    Emits f past (.op o k) vargs tmp a (out ++ out') vargs'' tmp'' := by
  intro log
  obtain ⟨log', hrun, hout, hdef'⟩ := hk (o :: log)
  refine ⟨log', ?_, ?_, fun h => hdef' ?_⟩
  · rw [Prog.run, hx]
    exact hrun
  · have hcons : output (o :: log) = output log ++ out := by
      rw [← ho]
      unfold output
      rw [← List.singleton_append, List.filterMap_append, List.reverse_append]
    rw [hout, hcons, List.append_assoc]
  · refine ⟨fun hm => ?_, fun hm => ?_⟩
    · rcases List.mem_cons.1 hm with he | hm
      · exact hdef.1 he.symm
      · exact h.1 hm
    · rcases List.mem_cons.1 hm with he | hm
      · exact hdef.2 he.symm
      · exact h.2 hm

/-- An operation that prints nothing. -/
theorem emits_silent {o : PrintOp} {r : o.Ret} {k : o.Ret → PrintProg α}
    (hx : ∀ log, exec f past o ⟨vargs, tmp, log⟩ = .ok (r, ⟨vargs', tmp', o :: log⟩))
    (ho : output [o] = []) (hdef : o ≠ .overflow ∧ o ≠ .div_zero)
    (hk : Emits f past (k r) vargs' tmp' a out vargs'' tmp'') :
    Emits f past (.op o k) vargs tmp a out vargs'' tmp'' := emits_op hx ho hdef hk

/-- A computation with a value. -/
theorem emits_value {p : PrintProg β} {g : β → PrintProg α} (hp : p = pure b)
    (hg : Emits f past (g b) vargs tmp a out vargs' tmp') :
    Emits f past (p >>= g) vargs tmp a out vargs' tmp' := by
  rw [hp]
  exact hg

theorem emits_inspect {i : ℕ} {k : U8 → PrintProg α}
    (hk : Emits f past (k (f.at past i)) vargs tmp a out vargs' tmp') :
    Emits f past (inspect i >>= k) vargs tmp a out vargs' tmp' :=
  emits_silent (fun _ => rfl) rfl ⟨by simp, by simp⟩ hk

theorem emits_print {c : U8} {k : Unit → PrintProg α}
    (hk : Emits f past (k ()) vargs tmp a out vargs' tmp') :
    Emits f past (uart_putchar c >>= k) vargs tmp a (c :: out) vargs' tmp' :=
  emits_op (fun _ => rfl) (show output [.uart_putchar c] = [c] from rfl) ⟨by simp, by simp⟩ hk

theorem emits_each (cs : List U8) :
    Emits f past (Prog.each uart_putchar cs) vargs tmp () cs vargs tmp := by
  induction cs with
  | nil => exact emits_pure
  | cons c cs ih => exact emits_print ih

theorem emits_puts (cs : List Char) : Emits f past (puts cs) vargs tmp () (cs.map ch) vargs tmp :=
  emits_each _

theorem emits_putchar (c : U8) : Emits f past (uart_putchar c) vargs tmp () [c] vargs tmp :=
  emits_print (k := .pure) emits_pure

/-- A program and the value after it. -/
theorem emits_last {p : PrintProg α} (hp : Emits f past p vargs tmp a out vargs' tmp') :
    Emits f past (p >>= fun _ => pure b) vargs tmp b out vargs' tmp' := by
  have hbind := hp.bind (g := fun _ => pure b) emits_pure
  rwa [List.append_nil] at hbind

theorem emits_va_int {v : I32} {k : I32 → PrintProg α}
    (hk : Emits f past (k v) vargs tmp a out vargs' tmp') :
    Emits f past (va_int >>= k) (.int v :: vargs) tmp a out vargs' tmp' :=
  emits_silent (fun _ => rfl) rfl ⟨by simp, by simp⟩ hk

theorem emits_va_long {v : I64} {k : I64 → PrintProg α}
    (hk : Emits f past (k v) vargs tmp a out vargs' tmp') :
    Emits f past (va_long >>= k) (.long v :: vargs) tmp a out vargs' tmp' :=
  emits_silent (fun _ => rfl) rfl ⟨by simp, by simp⟩ hk

theorem emits_va_str {s : CString} {k : CString → PrintProg α}
    (hk : Emits f past (k s) vargs tmp a out vargs' tmp') :
    Emits f past (va_str >>= k) (.str s :: vargs) tmp a out vargs' tmp' :=
  emits_silent (fun _ => rfl) rfl ⟨by simp, by simp⟩ hk

/-- What `put_hex` prints. -/
def hexDigits {w : ℕ} (value : BitVec w) : ℕ → List U8
  | 0 => []
  | i + 1 => hex_digit (value.sshiftRight (i * 4) &&& 0xf).toNat :: hexDigits value i

theorem put_hex_eq {w : ℕ} (value : BitVec w) (k : ℕ) :
    put_hex value k = Prog.each uart_putchar (hexDigits value k) := by
  induction k with
  | zero => rfl
  | succ k ih =>
    rw [put_hex, ih]
    rfl

end

/-! ## Where the cursor is -/

/-- From the cursor on, the format reads `cs`. -/
structure Ahead (f : CString) (i : ℕ) (cs : List U8) : Prop where
  le : i ≤ f.length
  drop : f.chars.drop i = cs

theorem Ahead.at_nil {i : ℕ} (h : Ahead f i []) : f.at past i = 0 := by
  have hle := List.drop_eq_nil_iff.1 h.drop
  rw [show i = f.length from Nat.le_antisymm h.le hle]
  exact at_length

theorem Ahead.next {i : ℕ} {c : U8} {cs : List U8} (h : Ahead f i (c :: cs)) :
    i < f.length ∧ (∀ past, f.at past i = c) ∧ Ahead f (i + 1) cs := by
  have hlt : i < f.chars.length := by
    by_contra hge
    have hnil := List.drop_eq_nil_iff.2 (Nat.le_of_not_lt hge)
    rw [h.drop] at hnil
    cases hnil
  have hcons := List.drop_eq_getElem_cons hlt
  rw [h.drop] at hcons
  obtain ⟨hc, hcs⟩ := List.cons.inj hcons
  exact ⟨hlt, fun past => (at_lt hlt).trans hc.symm, hlt, hcs.symm⟩

theorem Ahead.append {i : ℕ} {cs rest : List U8} (h : Ahead f i (cs ++ rest)) :
    Ahead f (i + cs.length) rest := by
  induction cs generalizing i with
  | nil => exact h
  | cons c cs ih =>
    have hnext := ih h.next.2.2
    rwa [show i + 1 + cs.length = i + (c :: cs).length by rw [List.length_cons]; omega] at hnext

/-! ## The width -/

/-- `tmp` with the characters stored from index `k` on. -/
def stored (tmp : ℕ → U8) : ℕ → List U8 → ℕ → U8
  | _, [] => tmp
  | k, c :: cs => stored (Function.update tmp k c) (k + 1) cs

theorem stored_below {tmp : ℕ → U8} {k j : ℕ} {cs : List U8} (hj : j < k) :
    stored tmp k cs j = tmp j := by
  induction cs generalizing tmp k with
  | nil => rfl
  | cons c cs ih => rw [stored, ih (by omega), Function.update_of_ne (by omega)]

/-- The characters from one on. -/
theorem stored_drop {tmp : ℕ → U8} {k j : ℕ} {c : U8} {cs cs' : List U8}
    (hj : cs.drop j = c :: cs') : stored tmp k cs (k + j) = c := by
  induction cs generalizing tmp k j with
  | nil => cases j <;> cases hj
  | cons d cs ih =>
    cases j with
    | zero =>
      cases hj
      show stored (Function.update tmp k c) (k + 1) _ k = c
      rw [stored_below (Nat.lt_succ_self k), Function.update_self]
    | succ j =>
      rw [stored, show k + (j + 1) = k + 1 + j by omega]
      exact ih hj

theorem ch_digit {c : Char} (hc : c.isDigit = true) :
    (ch c).toNat = c.toNat ∧ ch '0' ≤ ch c ∧ ch c ≤ ch '9' := by
  obtain ⟨h1, h2⟩ := toNat_of_isDigit hc
  have hval : (ch c).toNat = c.toNat := by
    rw [ch, BitVec.toNat_ofNat]
    omega
  refine ⟨hval, ?_, ?_⟩
  · rw [BitVec.le_def, hval]
    exact h1
  · rw [BitVec.le_def, hval]
    exact h2

section
variable {vargs : List Arg} {tmp : ℕ → U8} {i : ℕ} {ds : List Char} {rest : List U8}

theorem emits_set_tmp {k : ℕ} {c : U8} {g : Unit → PrintProg α} {a : α} {out : List U8}
    {vargs' : List Arg} {tmp' : ℕ → U8} (hk : k < 1024)
    (hg : Emits f past (g ()) vargs (Function.update tmp k c) a out vargs' tmp') :
    Emits f past (set_tmp (BitVec.ofInt 32 k) c >>= g) vargs tmp a out vargs' tmp' := by
  have hidx : (BitVec.ofInt 32 (k : ℤ)).toNat = k := by
    rw [BitVec.ofInt_natCast, BitVec.toNat_ofNat]
    omega
  refine emits_silent (fun log => ?_) rfl ⟨by simp, by simp⟩ hg
  show (if (BitVec.ofInt 32 (k : ℤ)).toNat < 1024 then _ else _) = _
  rw [if_pos (by omega), hidx]

theorem emits_get_tmp {k : ℕ} {g : U8 → PrintProg α} {a : α} {out : List U8}
    {vargs' : List Arg} {tmp' : ℕ → U8} (hk : k < 1024)
    (hg : Emits f past (g (tmp k)) vargs tmp a out vargs' tmp') :
    Emits f past (get_tmp (BitVec.ofInt 32 k) >>= g) vargs tmp a out vargs' tmp' := by
  have hidx : (BitVec.ofInt 32 (k : ℤ)).toNat = k := by
    rw [BitVec.ofInt_natCast, BitVec.toNat_ofNat]
    omega
  refine emits_silent (fun log => ?_) rfl ⟨by simp, by simp⟩ hg
  show (if (BitVec.ofInt 32 (k : ℤ)).toNat < 1024 then _ else _) = _
  rw [if_pos (by omega), hidx]

/-- The digits in front of the cursor go to `tmp`. -/
theorem emits_read_digits {k n : ℕ} (hi : Ahead f i (ds.map ch ++ rest))
    (hds : ∀ c ∈ ds, c.isDigit = true)
    (hstop : ¬ (ch '0' ≤ f.at past (i + ds.length) ∧ f.at past (i + ds.length) ≤ ch '9'))
    (hk : k + ds.length ≤ 1024) (hn : ds.length < n) :
    Emits f past (read_digits n i (BitVec.ofInt 32 k)) vargs tmp
      (i + ds.length, BitVec.ofInt 32 ((k + ds.length : ℕ) : ℤ)) [] vargs
      (stored tmp k (ds.map ch)) := by
  induction n generalizing i k ds tmp with
  | zero => omega
  | succ n ih =>
    unfold read_digits
    apply emits_inspect
    cases ds with
    | nil =>
      rw [List.length_nil, Nat.add_zero] at hstop
      rw [if_neg hstop]
      exact emits_pure
    | cons c ds =>
      obtain ⟨-, hat, hnext⟩ := hi.next
      have hc := ch_digit (hds c (List.mem_cons_self ..))
      rw [List.length_cons] at hstop hk hn ⊢
      rw [hat past, if_pos hc.2, int_succ (by omega)]
      apply emits_set_tmp (by omega)
      have hrec : Emits f past (read_digits n (i + 1) (BitVec.ofInt 32 ((k + 1 : ℕ) : ℤ))) vargs
          (Function.update tmp k (ch c)) _ [] vargs _ := ih hnext
        (fun d hd => hds d (List.mem_cons_of_mem c hd))
        (by rwa [show i + 1 + ds.length = i + (ds.length + 1) by omega]) (by omega) (by omega)
      rw [show i + 1 + ds.length = i + (ds.length + 1) by omega,
        show k + 1 + ds.length = k + (ds.length + 1) by omega] at hrec
      exact hrec

/-- The power of ten that the first of `m` digits counts for. -/
theorem find_multiplend_eq {m j n : ℕ} (hm : m ≤ 10) (hj : j ≤ m - 1) (hn : m < n + j) :
    find_multiplend (BitVec.ofInt 32 m) n (BitVec.ofInt 32 j) (pow10 j) = pure (pow10 (m - 1)) := by
  induction n generalizing j with
  | zero => omega
  | succ n ih =>
    have hone : Fits 32 1 := fits_small (by omega) (by omega)
    have hsub : Fits 32 ((m : ℤ) - 1) := ⟨by omega, by omega⟩
    have hk := c_sub_eq (Nat.le_refl 32) (x := m) (fits_small (by omega) (by omega)) hone hsub
    rw [show BitVec.ofInt 32 1 = (1 : I32) from rfl] at hk
    unfold find_multiplend
    rw [hk]
    show (if (BitVec.ofInt 32 j).slt (BitVec.ofInt 32 ((m : ℤ) - 1)) then _ else _) = _
    rw [slt_ofInt (Nat.le_refl 32) (fits_small (by omega) (by omega)) hsub]
    by_cases hlt : (j : ℤ) < (m : ℤ) - 1
    · rw [decide_eq_true hlt, if_pos rfl, pow10_mul (by omega), int_succ (by omega)]
      exact ih (by omega) (by omega)
    · rw [decide_eq_false hlt, show m - 1 = j by omega]
      rfl

/-- `(int)(tmp[i] - '0')`. -/
theorem digit_value {c : Char} (hc : c.isDigit = true) :
    c_sub ((ch c).setWidth 32) ((ch '0').setWidth 32) =
      pure (BitVec.ofInt 32 ((c.toNat - 48 : ℕ) : ℤ)) := by
  obtain ⟨h1, h2⟩ := toNat_of_isDigit hc
  have hwide : (ch c).setWidth 32 = BitVec.ofInt 32 (c.toNat : ℤ) := by
    apply BitVec.eq_of_toNat_eq
    rw [BitVec.toNat_setWidth, (ch_digit hc).1]
    rfl
  rw [hwide, show (ch '0').setWidth 32 = BitVec.ofInt 32 48 from rfl,
    c_sub_eq (Nat.le_refl 32) (fits_small (by omega) (by omega)) (fits_small (by omega) (by omega))
      (fits_small (by omega) (by omega))]
  rw [show (c.toNat : ℤ) - 48 = ((c.toNat - 48 : ℕ) : ℤ) by omega]

/-- What is left to sum, when `cs` are the digits from index `j` on. -/
theorem emits_sum_digits {m j n cnt : ℕ} {cs : List Char} {multiplend : I32}
    (hmul : cs ≠ [] → multiplend = pow10 (cs.length - 1)) (hm : m = j + cs.length) (h10 : m ≤ 10)
    (hcs : ∀ c ∈ cs, c.isDigit = true)
    (htmp : ∀ k c cs', cs.drop k = c :: cs' → tmp (j + k) = ch c)
    (hval : cnt + Nat.ofDigitChars 10 cs 0 < 2 ^ 31) (hn : cs.length < n) :
    Emits f past (sum_digits (BitVec.ofInt 32 m) n (BitVec.ofInt 32 j) multiplend
      (BitVec.ofInt 32 cnt)) vargs tmp
      (BitVec.ofInt 32 ((cnt + Nat.ofDigitChars 10 cs 0 : ℕ) : ℤ)) [] vargs tmp := by
  induction cs generalizing j cnt n multiplend with
  | nil =>
    obtain ⟨n, rfl⟩ : ∃ k, n = k + 1 := ⟨n - 1, by omega⟩
    obtain rfl : m = j := hm
    have hfit : Fits 32 (m : ℤ) := fits_small (by omega) (by omega)
    unfold sum_digits
    rw [slt_ofInt (Nat.le_refl 32) hfit hfit, decide_eq_false (lt_irrefl _)]
    exact emits_pure
  | cons c cs ih =>
    obtain ⟨n, rfl⟩ : ∃ k, n = k + 1 := ⟨n - 1, by omega⟩
    rw [List.length_cons] at hm hn
    rw [ofDigitChars_first] at hval ⊢
    have hdig := hcs c (List.mem_cons_self ..)
    have hle := (toNat_of_isDigit hdig).2
    have hfj : Fits 32 (j : ℤ) := fits_small (by omega) (by omega)
    have hfm : Fits 32 (m : ℤ) := fits_small (by omega) (by omega)
    have hsub : c_sub ((ch c).setWidth 32) ((ch '0').setWidth 32) =
        pure (BitVec.ofInt 32 ((c.toNat - 48 : ℕ) : ℤ)) := digit_value hdig
    have hprod : c_mul (BitVec.ofInt 32 ((c.toNat - 48 : ℕ) : ℤ)) (pow10 cs.length) =
        pure (BitVec.ofInt 32 (((c.toNat - 48) * 10 ^ cs.length : ℕ) : ℤ)) := by
      rw [Nat.cast_mul]
      refine c_mul_eq (Nat.le_refl 32) (fits_small (by omega) (by omega))
        (fits_pow10 (by omega)) ?_
      rw [← Nat.cast_mul]
      exact fits_small (by omega) (by omega)
    have hadd : c_add (BitVec.ofInt 32 cnt)
        (BitVec.ofInt 32 (((c.toNat - 48) * 10 ^ cs.length : ℕ) : ℤ)) =
        pure (BitVec.ofInt 32 ((cnt + (c.toNat - 48) * 10 ^ cs.length : ℕ) : ℤ)) := by
      rw [Nat.cast_add]
      refine c_add_eq (Nat.le_refl 32) (fits_small (by omega) (by omega))
        (fits_small (by omega) (by omega)) ?_
      rw [← Nat.cast_add]
      exact fits_small (by omega) (by omega)
    have hdiv := pow10_div (k := cs.length) (by omega)
    have htail : ∀ k d cs', cs.drop k = d :: cs' → tmp (j + 1 + k) = ch d := by
      intro k d cs' hk
      rw [show j + 1 + k = j + (k + 1) by omega]
      exact htmp (k + 1) d cs' hk
    have hnext : cs ≠ [] →
        BitVec.ofInt 32 ((10 ^ cs.length / 10 : ℕ) : ℤ) = pow10 (cs.length - 1) := by
      intro hne
      obtain ⟨k, hk⟩ := Nat.exists_eq_succ_of_ne_zero fun h0 => hne (List.length_eq_zero_iff.1 h0)
      rw [hk, Nat.succ_sub_one, pow_succ, Nat.mul_div_cancel _ (by decide)]
      rfl
    have hrec := @ih (j + 1) n (cnt + (c.toNat - 48) * 10 ^ cs.length) _ hnext (by omega)
      (fun d hd => hcs d (List.mem_cons_of_mem c hd)) htail (by omega) (by omega)
    unfold sum_digits
    rw [slt_ofInt (Nat.le_refl 32) hfj hfm, decide_eq_true (by omega), if_pos rfl]
    apply emits_get_tmp (by omega)
    have hc : tmp j = ch c := htmp 0 c cs rfl
    rw [hc, hmul (List.cons_ne_nil c cs), ← add_assoc]
    exact emits_value hsub (emits_value hprod (emits_value hadd (emits_value hdiv
      (emits_value (int_succ (by omega)) hrec))))

end

/-! ## Well-formed formats -/

inductive Conv where
  | d | x | lx | llx | lld

/-- The digits of a width. -/
structure PadWidth where
  digits : List Char
  isDigit : ∀ c ∈ digits, c.isDigit = true
  length_le : digits.length ≤ 9

/-- A character, or a complete directive. -/
inductive Item where
  | char (c : U8) (hc : c ≠ 0 ∧ c ≠ ch '%')
  | percent
  | str
  | conv (c : Conv)
  | padded (width : PadWidth) (c : Conv)

def Conv.chars : Conv → List Char
  | .d => ['d']
  | .x => ['x']
  | .lx => ['l', 'x']
  | .llx => ['l', 'l', 'x']
  | .lld => ['l', 'l', 'd']

def Item.chars : Item → List U8
  | .char c _ => [c]
  | .percent => [ch '%', ch '%']
  | .str => [ch '%', ch 's']
  | .conv c => ch '%' :: c.chars.map ch
  | .padded width c => ch '%' :: ch '0' :: (width.digits ++ c.chars).map ch

/-- The number that the digits are. -/
def PadWidth.val (width : PadWidth) : ℕ := Nat.ofDigitChars 10 width.digits 0

theorem PadWidth.val_lt (width : PadWidth) : width.val < 10 ^ 9 :=
  (ofDigitChars_lt width.isDigit).trans_le (Nat.pow_le_pow_right (by decide) width.length_le)

/-- The arguments that a conversion may be given; a decimal one is below `2^31` in magnitude, or
below `10^10` for `lld`. -/
def Conv.Takes : Conv → Arg → Prop
  | .d, .int v => v.toInt.natAbs < 2 ^ 31
  | .lld, .long v => v.toInt.natAbs < 10 ^ 10
  | .x, .int _ | .lx, .long _ | .llx, .long _ => True
  | _, _ => False

/-- The arguments of an item: one for a conversion, none for the others. -/
def Item.Takes : Item → List Arg → Prop
  | .char _ _, [] | .percent, [] | .str, [.str _] => True
  | .conv c, [a] | .padded _ c, [a] => c.Takes a
  | _, _ => False

/-- The argument list has an argument for every conversion, and no more. -/
inductive Matches : List Item → List Arg → Prop where
  | nil : Matches [] []
  | cons {i : Item} {l : List Item} {a as : List Arg} :
      i.Takes a → Matches l as → Matches (i :: l) (a ++ as)

theorem Matches.append {l₁ l₂ : List Item} {a₁ a₂ : List Arg} (h₁ : Matches l₁ a₁)
    (h₂ : Matches l₂ a₂) : Matches (l₁ ++ l₂) (a₁ ++ a₂) := by
  induction h₁ with
  | nil => exact h₂
  | cons hi _ ih =>
    rw [List.append_assoc]
    exact .cons hi ih

theorem digit_ne_zero {c : Char} (hc : c.isDigit = true) : ch c ≠ 0 := by
  intro h0
  have hval := (ch_digit hc).1
  rw [h0] at hval
  have hle := (toNat_of_isDigit hc).1
  simp at hval
  omega

theorem Item.zero_notMem (i : Item) : (0 : U8) ∉ i.chars := by
  have hconv : ∀ c : Conv, (0 : U8) ∉ c.chars.map ch := by
    intro c
    cases c <;> decide
  cases i with
  | char c hc => simpa [Item.chars] using hc.1.symm
  | percent => decide
  | str => decide
  | conv c =>
    rw [Item.chars, List.mem_cons, not_or]
    exact ⟨by decide, hconv c⟩
  | padded width c =>
    rw [Item.chars, List.map_append, List.mem_cons, List.mem_cons, List.mem_append]
    rintro (h0 | h0 | h0 | h0)
    · exact absurd h0 (by decide)
    · exact absurd h0 (by decide)
    · obtain ⟨d, hd, h0⟩ := List.mem_map.1 h0
      exact digit_ne_zero (width.isDigit d hd) h0
    · exact hconv c h0

theorem Item.chars_pos (i : Item) : 0 < i.chars.length := by
  cases i <;> exact Nat.succ_pos _

/-- The format that the items make. -/
def format (l : List Item) : CString where
  chars := l.flatMap Item.chars
  zero_notMem := by
    intro h0
    obtain ⟨i, _, h0⟩ := List.mem_flatMap.1 h0
    exact i.zero_notMem h0

/-! ## What an item prints -/

/-- What `%0N` prints, and what the conversion prints without a width, for `width = 0`. -/
def Conv.text (width : ℕ) : Conv → Arg → List U8
  | .d, .int v =>
    (List.replicate (width - digitCount v.toInt) '0' ++ numeral v.toInt).map ch
  | .lld, .long v =>
    (List.replicate (width - digitCount v.toInt) '0' ++ numeral v.toInt).map ch
  | .x, .int v => hexDigits v 8
  | .lx, .long v | .llx, .long v => hexDigits v 16
  | _, _ => []

def Item.text : Item → List Arg → List U8
  | .char c _, _ => [c]
  | .percent, _ => [ch '%']
  | .str, [.str s] => s.chars
  | .conv c, [a] => c.text 0 a
  | .padded width c, [a] => c.text width.val a
  | _, _ => []

/-- The rounds that the loops of an item take. -/
def Item.rounds : Item → ℕ
  | .padded width _ => width.val + 11
  | _ => 11

section
variable {vargs : List Arg} {tmp : ℕ → U8} {i fuel : ℕ} {rest : List U8}

theorem emits_hex {w : ℕ} (v : BitVec w) (k : ℕ) :
    Emits f past (put_hex v k) vargs tmp () (hexDigits v k) vargs tmp := by
  rw [put_hex_eq]
  exact emits_each _

theorem emits_decimal {w : ℕ} (hw : 32 ≤ w) {v : BitVec w} (hlt : v.toInt.natAbs < 10 ^ 10)
    (hmin : v.toInt ≠ -2 ^ (w - 1)) (hf : 11 ≤ fuel) :
    Emits f past (put_decimal fuel v) vargs tmp () ((numeral v.toInt).map ch) vargs tmp := by
  rw [put_decimal_eq hw hlt hmin hf]
  exact emits_puts _

theorem emits_padded {w cnt : ℕ} (hw : 32 ≤ w) {v : BitVec w} (hlt : v.toInt.natAbs < 10 ^ 10)
    (hmin : v.toInt ≠ -2 ^ (w - 1)) (hcnt : cnt < 2 ^ 31) (hf : cnt + 11 ≤ fuel) :
    Emits f past (put_padded fuel (BitVec.ofInt 32 cnt) v) vargs tmp ()
      ((List.replicate (cnt - digitCount v.toInt) '0' ++ numeral v.toInt).map ch) vargs tmp := by
  rw [put_padded_eq hw hcnt hlt hmin hf]
  exact emits_puts _

/-- A decimal argument can be negated, and its digits fit. -/
theorem takes_int {v : I32} (hv : Conv.Takes .d (.int v)) :
    v.toInt.natAbs < 10 ^ 10 ∧ v.toInt ≠ -2 ^ (32 - 1) := by
  have hv : v.toInt.natAbs < 2 ^ 31 := hv
  constructor <;> omega

theorem takes_long {v : I64} (hv : Conv.Takes .lld (.long v)) :
    v.toInt.natAbs < 10 ^ 10 ∧ v.toInt ≠ -2 ^ (64 - 1) := by
  have hv : v.toInt.natAbs < 10 ^ 10 := hv
  constructor <;> omega

/-- The conversions that begin with `l`. -/
theorem emits_long {c : Conv} {a : Arg} (hi : Ahead f i (c.chars.map ch ++ rest))
    (hl : c.chars.head? = some 'l') (ha : c.Takes a) (hf : 11 ≤ fuel) :
    Emits f past (long_directive fuel i 0) (a :: vargs) tmp (.advance (i + c.chars.length - 1) 0)
      (c.text 0 a) vargs tmp := by
  unfold long_directive
  apply emits_inspect
  cases c with
  | d => cases hl
  | x => cases hl
  | lx =>
    cases a with
    | long v =>
      obtain ⟨-, hat, -⟩ := hi.next.2.2.next
      rw [hat, if_pos rfl]
      exact emits_va_long (emits_last (emits_hex v 16))
    | _ => cases ha
  | llx =>
    cases a with
    | long v =>
      obtain ⟨-, hat, hi⟩ := hi.next.2.2.next
      rw [hat, if_neg (by decide), if_pos rfl]
      apply emits_inspect
      obtain ⟨-, hat, -⟩ := hi.next
      rw [hat, if_pos rfl]
      exact emits_last (emits_va_long (emits_hex v 16))
    | _ => cases ha
  | lld =>
    cases a with
    | long v =>
      obtain ⟨-, hat, hi⟩ := hi.next.2.2.next
      rw [hat, if_neg (by decide), if_pos rfl]
      apply emits_inspect
      obtain ⟨-, hat, -⟩ := hi.next
      rw [hat, if_neg (by decide), if_pos rfl]
      rw [Conv.text, Nat.zero_sub, List.replicate_zero, List.nil_append]
      exact emits_last (emits_va_long (emits_decimal (by decide) (takes_long ha).1
        (takes_long ha).2 hf))
    | _ => cases ha

/-- A conversion without a width. -/
theorem emits_conv {c : Conv} {a : Arg} (hi : Ahead f i ((Item.conv c).chars ++ rest))
    (ha : c.Takes a) (hf : 11 ≤ fuel) :
    Emits f past (directive fuel i 0) (a :: vargs) tmp (.advance (i + c.chars.length) 0)
      (c.text 0 a) vargs tmp := by
  obtain ⟨-, -, hi⟩ := hi.next
  unfold directive
  apply emits_inspect
  cases c with
  | d =>
    cases a with
    | int v =>
      obtain ⟨-, hat, -⟩ := hi.next
      rw [hat, if_neg (by decide), if_neg (by decide), if_neg (by decide), if_pos rfl]
      rw [Conv.text, Nat.zero_sub, List.replicate_zero, List.nil_append]
      exact emits_va_int (emits_last (emits_decimal (Nat.le_refl 32) (takes_int ha).1
        (takes_int ha).2 hf))
    | _ => cases ha
  | x =>
    cases a with
    | int v =>
      obtain ⟨-, hat, -⟩ := hi.next
      rw [hat, if_neg (by decide), if_neg (by decide), if_neg (by decide), if_neg (by decide),
        if_pos rfl]
      exact emits_va_int (emits_last (emits_hex v 8))
    | _ => cases ha
  | _ =>
    obtain ⟨-, hat, -⟩ := hi.next
    rw [hat, if_neg (by decide), if_neg (by decide), if_neg (by decide), if_neg (by decide),
      if_neg (by decide), if_pos rfl]
    exact emits_long hi rfl ha hf

theorem Conv.head_not_digit (c : Conv) : ∃ d cs, c.chars = d :: cs ∧
    ¬ (ch '0' ≤ ch d ∧ ch d ≤ ch '9') := by
  cases c <;> exact ⟨_, _, rfl, by decide⟩

/-- After a width comes a conversion. -/
theorem width_stops {width : PadWidth} {c : Conv}
    (hi : Ahead f i ((width.digits ++ c.chars).map ch ++ rest)) :
    ¬ (ch '0' ≤ f.at past (i + width.digits.length) ∧
      f.at past (i + width.digits.length) ≤ ch '9') := by
  rw [List.map_append, List.append_assoc] at hi
  obtain ⟨d, cs, hc, hstop⟩ := c.head_not_digit
  have hnext := hi.append
  rw [hc, List.length_map] at hnext
  rwa [hnext.next.2.1 past]

/-- `%0` and at most ten digits: the width is the number that they are. -/
theorem emits_width {ds : List Char} {g : ℕ × I32 → I32 → PrintProg α} {a : α}
    {out : List U8} {vargs' : List Arg} {tmp' : ℕ → U8}
    (hi : Ahead f i (ds.map ch ++ rest)) (hds : ∀ c ∈ ds, c.isDigit = true)
    (hstop : ¬ (ch '0' ≤ f.at past (i + ds.length) ∧ f.at past (i + ds.length) ≤ ch '9'))
    (hlen : ds.length ≤ 10) (hval : Nat.ofDigitChars 10 ds 0 < 2 ^ 31) (hf : ds.length < fuel)
    (hg : Emits f past (g (i + ds.length, BitVec.ofInt 32 ((0 + ds.length : ℕ) : ℤ))
      (BitVec.ofInt 32 (Nat.ofDigitChars 10 ds 0 : ℤ)))
      vargs (stored tmp 0 (ds.map ch)) a out vargs' tmp') :
    Emits f past (do
      let x ← read_digits fuel i 0
      let multiplend ← find_multiplend x.2 fuel 0 1
      let cnt ← sum_digits x.2 fuel 0 multiplend 0
      g x cnt) vargs tmp a out vargs' tmp' := by
  have hread : Emits f past (read_digits fuel i (BitVec.ofInt 32 ((0 : ℕ) : ℤ))) vargs tmp _ []
      vargs _ := emits_read_digits hi hds hstop (by omega) hf
  rw [← List.nil_append out]
  refine hread.bind ?_
  have hmul : find_multiplend (BitVec.ofInt 32 ((0 + ds.length : ℕ) : ℤ)) fuel 0 1 =
      pure (pow10 (ds.length - 1)) := by
    rw [Nat.zero_add]
    exact find_multiplend_eq (j := 0) (by omega) (by omega) (by omega)
  apply emits_value hmul
  have htmp : ∀ k d cs', ds.drop k = d :: cs' → stored tmp 0 (ds.map ch) (0 + k) = ch d := by
    intro k d cs' hk
    have hdrop : (ds.map ch).drop k = ch d :: cs'.map ch := by
      rw [← List.map_drop, hk, List.map_cons]
    exact stored_drop hdrop
  have hsum := @emits_sum_digits f past vargs (stored tmp 0 (ds.map ch)) (0 + ds.length) 0 fuel 0 ds
    _ (fun _ => rfl) rfl (by omega) hds htmp (by rwa [Nat.zero_add]) hf
  rw [← List.nil_append out]
  refine hsum.bind ?_
  rw [Nat.zero_add (Nat.ofDigitChars 10 ds 0)]
  exact hg

/-- A conversion with a width. -/
theorem emits_zero {width : PadWidth} {c : Conv} {a : Arg}
    (hi : Ahead f i ((Item.padded width c).chars ++ rest)) (ha : c.Takes a)
    (hf : width.val + 11 ≤ fuel) : ∃ tmp', Emits f past (directive fuel i 0) (a :: vargs) tmp
      (.advance (i + 1 + 1 + width.digits.length + c.chars.length - 1) 0) (c.text width.val a)
      vargs tmp' := by
  have hval := width.val_lt
  have hzero := hi.next.2.2.next.2.1 past
  have hread : Ahead f (i + 1 + 1) ((width.digits ++ c.chars).map ch ++ rest) :=
    hi.next.2.2.next.2.2
  have hdigits := hread
  rw [List.map_append, List.append_assoc] at hdigits
  have hc : Ahead f (i + 1 + 1 + width.digits.length) (c.chars.map ch ++ rest) := by
    have hc := hdigits.append
    rwa [List.length_map] at hc
  refine ⟨stored tmp 0 (width.digits.map ch), ?_⟩
  unfold directive
  apply emits_inspect
  rw [hzero, if_neg (by decide), if_neg (by decide), if_neg (by decide), if_neg (by decide),
    if_neg (by decide), if_neg (by decide), if_pos rfl]
  have hcnt : width.val < 2 ^ 31 := hval.trans (by decide)
  have hlen := width.length_le
  unfold zero_directive
  refine emits_width hdigits width.isDigit (width_stops hread) (by omega) hcnt (by omega) ?_
  apply emits_inspect
  cases c with
  | d =>
    cases a with
    | int v =>
      rw [hc.next.2.1 past, if_pos rfl]
      exact emits_va_int (emits_last (emits_padded (Nat.le_refl 32) (takes_int ha).1
        (takes_int ha).2 hcnt hf))
    | _ => cases ha
  | x =>
    cases a with
    | int v =>
      rw [hc.next.2.1 past, if_neg (by decide), if_pos rfl]
      exact emits_va_int (emits_last (emits_hex v 8))
    | _ => cases ha
  | lx =>
    cases a with
    | long v =>
      rw [hc.next.2.1 past, if_neg (by decide), if_neg (by decide), if_pos rfl]
      apply emits_inspect
      rw [hc.next.2.2.next.2.1 past, if_pos rfl]
      exact emits_va_long (emits_last (emits_hex v 16))
    | _ => cases ha
  | llx =>
    cases a with
    | long v =>
      rw [hc.next.2.1 past, if_neg (by decide), if_neg (by decide), if_pos rfl]
      apply emits_inspect
      rw [hc.next.2.2.next.2.1 past, if_neg (by decide), if_pos rfl]
      apply emits_inspect
      rw [hc.next.2.2.next.2.2.next.2.1 past, if_pos rfl]
      exact emits_va_long (emits_last (emits_hex v 16))
    | _ => cases ha
  | lld =>
    cases a with
    | long v =>
      rw [hc.next.2.1 past, if_neg (by decide), if_neg (by decide), if_pos rfl]
      apply emits_inspect
      rw [hc.next.2.2.next.2.1 past, if_neg (by decide), if_pos rfl]
      apply emits_inspect
      rw [hc.next.2.2.next.2.2.next.2.1 past, if_neg (by decide), if_pos rfl]
      exact emits_va_long (emits_last (emits_padded (by decide) (takes_long ha).1
        (takes_long ha).2 hcnt hf))
    | _ => cases ha

theorem emits_item {it : Item} {a : List Arg} (hi : Ahead f i (it.chars ++ rest))
    (ha : it.Takes a) (hf : it.rounds ≤ fuel) : ∃ j tmp', j + 1 = i + it.chars.length ∧
      Emits f past (item fuel i 0 (f.at past i)) (a ++ vargs) tmp (.advance j 0) (it.text a)
        vargs tmp' := by
  unfold item
  cases it with
  | char c hc =>
    rw [hi.next.2.1 past, if_neg hc.2]
    cases a with
    | nil => exact ⟨i, tmp, rfl, emits_last (emits_putchar c)⟩
    | cons a as => cases ha
  | percent =>
    rw [hi.next.2.1 past, if_pos rfl]
    cases a with
    | nil =>
      refine ⟨i + 1, tmp, rfl, ?_⟩
      unfold directive
      apply emits_inspect
      rw [hi.next.2.2.next.2.1 past, if_neg (by decide), if_pos rfl]
      exact emits_last (emits_putchar _)
    | cons a as => cases ha
  | str =>
    rw [hi.next.2.1 past, if_pos rfl]
    match a with
    | [.str s] =>
      refine ⟨i + 1, tmp, rfl, ?_⟩
      unfold directive
      apply emits_inspect
      rw [hi.next.2.2.next.2.1 past, if_neg (by decide), if_neg (by decide), if_pos rfl]
      exact emits_va_str (emits_last (emits_each s.chars))
  | conv c =>
    rw [hi.next.2.1 past, if_pos rfl]
    match a with
    | [a] =>
      refine ⟨i + c.chars.length, tmp, ?_, emits_conv hi ha hf⟩
      rw [Item.chars, List.length_cons, List.length_map]
      omega
  | padded width c =>
    rw [hi.next.2.1 past, if_pos rfl]
    match a with
    | [a] =>
      obtain ⟨tmp', hem⟩ := emits_zero hi ha hf
      refine ⟨_, tmp', ?_, hem⟩
      have hpos : 0 < c.chars.length := by cases c <;> decide
      rw [Item.chars, List.length_cons, List.length_cons, List.length_map, List.length_append]
      omega

/-- What the items print, given these arguments. -/
inductive Renders : List Item → List Arg → List U8 → Prop where
  | nil : Renders [] [] []
  | cons {i : Item} {l : List Item} {a as : List Arg} {out : List U8} :
      i.Takes a → Renders l as out → Renders (i :: l) (a ++ as) (i.text a ++ out)

theorem Matches.renders {l : List Item} {as : List Arg} (h : Matches l as) :
    ∃ out, Renders l as out := by
  induction h with
  | nil => exact ⟨[], .nil⟩
  | cons hi _ ih =>
    obtain ⟨out, hout⟩ := ih
    exact ⟨_, .cons hi hout⟩

theorem Renders.append {l₁ l₂ : List Item} {a₁ a₂ : List Arg} {o₁ o₂ : List U8}
    (h₁ : Renders l₁ a₁ o₁) (h₂ : Renders l₂ a₂ o₂) :
    Renders (l₁ ++ l₂) (a₁ ++ a₂) (o₁ ++ o₂) := by
  induction h₁ with
  | nil => exact h₂
  | cons hi _ ih =>
    rw [List.append_assoc, List.append_assoc]
    exact .cons hi ih

/-- The loop prints one item after the other. -/
theorem emits_loop {l : List Item} {as : List Arg} {out : List U8} {n : ℕ} (hr : Renders l as out)
    (hi : Ahead f i (l.flatMap Item.chars)) (hf : (l.map Item.rounds).sum ≤ fuel)
    (hn : l.length < n) :
    ∃ tmp', Emits f past (printf_loop fuel n i 0) as tmp () out [] tmp' := by
  induction hr generalizing i n tmp with
  | nil =>
    obtain ⟨n, rfl⟩ : ∃ k, n = k + 1 := ⟨n - 1, by omega⟩
    refine ⟨tmp, ?_⟩
    unfold printf_loop
    apply emits_inspect
    rw [hi.at_nil, if_pos rfl]
    exact emits_pure
  | @cons it l a as out ha _ ih =>
    obtain ⟨n, rfl⟩ : ∃ k, n = k + 1 := ⟨n - 1, by omega⟩
    rw [List.length_cons] at hn
    rw [List.flatMap_cons] at hi
    rw [List.map_cons, List.sum_cons] at hf
    obtain ⟨j, tmp', hj, hem⟩ : ∃ j tmp', j + 1 = i + it.chars.length ∧
        Emits f past (item fuel i 0 (f.at past i)) (a ++ as) tmp (.advance j 0) (it.text a) as
          tmp' :=
      emits_item hi ha (by omega)
    have hnext : Ahead f (j + 1) (l.flatMap Item.chars) := hj ▸ hi.append
    obtain ⟨tmp'', hrest⟩ : ∃ tmp'', Emits f past (printf_loop fuel n (j + 1) 0) as tmp' () out []
        tmp'' := ih hnext (by omega) (by omega)
    refine ⟨tmp'', ?_⟩
    have hlt : i < f.length := by
      have hpos := it.chars_pos
      have hle := hi.append.le
      omega
    unfold printf_loop
    apply emits_inspect
    rw [if_neg (at_ne_zero hlt)]
    exact hem.bind hrest

/-- A call with a well-formed format prints its items. -/
theorem prints_format {l : List Item} {as : List Arg} {out : List U8} (hr : Renders l as out) :
    Prints (format l) as out := by
  intro past tmp
  refine ⟨(l.map Item.rounds).sum + l.length + 1, fun fuel hfuel => ?_⟩
  have hi : Ahead (format l) 0 (l.flatMap Item.chars) := ⟨Nat.zero_le _, rfl⟩
  obtain ⟨tmp', hem⟩ : ∃ tmp', Emits (format l) past (printf fuel) as tmp () out [] tmp' :=
    emits_loop hr hi (by omega) (by omega)
  obtain ⟨log, hrun, hout, hdef⟩ := hem []
  exact ⟨_, hrun, hout, rfl, hdef ⟨by simp, by simp⟩⟩

/-- What a call prints is determined. -/
theorem prints_unique {f : CString} {as : List Arg} {o₁ o₂ : List U8} (h₁ : Prints f as o₁)
    (h₂ : Prints f as o₂) : o₁ = o₂ := by
  obtain ⟨n₁, h₁⟩ := h₁ (fun _ => 0) fun _ => 0
  obtain ⟨n₂, h₂⟩ := h₂ (fun _ => 0) fun _ => 0
  obtain ⟨σ₁, hc₁, rfl, -⟩ := h₁ (max n₁ n₂) (le_max_left ..)
  obtain ⟨σ₂, hc₂, rfl, -⟩ := h₂ (max n₁ n₂) (le_max_right ..)
  cases hc₁.symm.trans hc₂
  rfl

end

/-! ## Calls that perform what is undefined -/

/-- From here, the program does not end with all its operations defined. -/
def Faults (f : CString) (past : ℕ → U8) (p : PrintProg α) (vargs : List Arg) (tmp : ℕ → U8) :
    Prop := ∀ log a σ, p.run (exec f past) ⟨vargs, tmp, log⟩ = .ok (a, σ) → ¬ Defined σ.log

theorem exec_log {o : PrintOp} {σ σ' : Console.State} {r : o.Ret}
    (hx : exec f past o σ = .ok (r, σ')) : σ'.log = o :: σ.log ∧ o ≠ .more := by
  cases o with
  | va_int | va_long | va_str =>
    simp only [exec] at hx
    split at hx <;> cases hx
    exact ⟨rfl, by simp⟩
  | set_tmp i c | get_tmp i =>
    simp only [exec] at hx
    split at hx <;> cases hx
    exact ⟨rfl, by simp⟩
  | more => cases hx
  | _ =>
    cases hx
    exact ⟨rfl, by simp⟩

theorem run_log {p : PrintProg α} {σ σ' : Console.State} {a : α} {o : PrintOp}
    (hx : p.run (exec f past) σ = .ok (a, σ')) (ho : o ∈ σ.log) : o ∈ σ'.log := by
  induction p generalizing σ with
  | pure b =>
    cases hx
    exact ho
  | op o' k ih =>
    unfold Prog.run at hx
    split at hx
    · next x hstep =>
      refine ih _ hx ?_
      rw [(exec_log hstep).1]
      exact List.mem_cons_of_mem _ ho
    · cases hx

theorem Undefined.run {p : PrintProg α} {σ σ' : Console.State} {a : α} (hp : Undefined p)
    (hx : p.run (exec f past) σ = .ok (a, σ')) : ¬ Defined σ'.log := by
  induction p generalizing σ with
  | pure b => cases hp
  | op o k ih =>
    unfold Prog.run at hx
    split at hx
    swap
    · cases hx
    next x hstep =>
    obtain ⟨hlog, hmore⟩ := exec_log hstep
    have hmem : o ∈ x.2.log := by
      rw [hlog]
      exact List.mem_cons_self ..
    rcases hp with rfl | rfl | rfl | hp
    · exact fun hdef => hdef.1 (run_log hx hmem)
    · exact fun hdef => hdef.2 (run_log hx hmem)
    · exact absurd rfl hmore
    · exact ih _ (hp _) hx

section
variable {vargs vargs' : List Arg} {tmp tmp' : ℕ → U8} {out : List U8} {a : α}

theorem Undefined.faults {p : PrintProg α} (hp : Undefined p) : Faults f past p vargs tmp :=
  fun _ _ _ hx => hp.run hx

theorem Faults.bind {p : PrintProg α} {g : α → PrintProg β} (hp : Faults f past p vargs tmp) :
    Faults f past (p >>= g) vargs tmp := by
  intro log b σ hx hdef
  rw [Prog.bind_eq, Prog.run_bind] at hx
  cases hrun : p.run (exec f past) ⟨vargs, tmp, log⟩ with
  | error e =>
    rw [hrun] at hx
    cases hx
  | ok x =>
    rw [hrun] at hx
    exact hp log x.1 x.2 hrun ⟨fun hm => hdef.1 (run_log hx hm), fun hm => hdef.2 (run_log hx hm)⟩

/-- What is defined before does not help. -/
theorem Emits.faults {p : PrintProg α} {g : α → PrintProg β}
    (hp : Emits f past p vargs tmp a out vargs' tmp') (hg : Faults f past (g a) vargs' tmp') :
    Faults f past (p >>= g) vargs tmp := by
  intro log b σ hx
  obtain ⟨log', hrun, -⟩ := hp log
  rw [Prog.bind_eq, Prog.run_bind, hrun] at hx
  exact hg log' b σ hx

theorem emits_ask {i : ℕ} : Emits f past (inspect i) vargs tmp (f.at past i) [] vargs tmp :=
  emits_inspect (k := .pure) emits_pure

theorem Faults.not_prints {f : CString}
    (hp : ∀ past tmp fuel, Faults f past (printf fuel) vargs tmp) : ¬ Prints f vargs out := by
  intro h
  obtain ⟨n, h⟩ := h (fun _ => 0) fun _ => 0
  obtain ⟨σ, hcall, -, -, hdef⟩ := h n (Nat.le_refl n)
  exact hp _ _ _ _ _ _ hcall hdef

/-- A call that begins with a directive which is undefined. -/
theorem faults_directive {rest : List U8} (hf : f.chars = ch '%' :: rest)
    (hd : ∀ fuel, Faults f past (directive fuel 0 0) vargs tmp) (fuel : ℕ) :
    Faults f past (printf fuel) vargs tmp := by
  cases fuel with
  | zero => exact Undefined.faults (Or.inr (Or.inr (Or.inl rfl)))
  | succ fuel =>
    have hi : Ahead f 0 (ch '%' :: rest) := ⟨Nat.zero_le _, hf⟩
    have hc : f.at past 0 = ch '%' := hi.next.2.1 past
    refine emits_ask.faults ?_
    rw [hc, if_neg (by decide)]
    apply Faults.bind
    rw [item, if_pos rfl]
    exact hd _

end

end GQuuuuuunix.Proof
