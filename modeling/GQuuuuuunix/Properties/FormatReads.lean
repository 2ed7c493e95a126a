import GQuuuuuunix.Proof.Console
import Mathlib.Computability.DFA

/-! # What printf reads of its format

A format is cut into directives by a finite automaton; `printf` follows it, reading one character
for each step. The common `fmt++` at the end of the loop steps over the character a directive ends
with. Where a directive is cut off by the terminator, that is the terminator, unless the branch
looks for it: the branches of `%` and `%l` do, those of `%ll` and `%0` do not. -/

namespace GQuuuuuunix.Properties
open Lib Kernel Console Proof
set_option autoImplicit false

/-! ## Cutting a format into directives -/

/-- Where the characters read so far end: between directives, or inside one. -/
inductive Scan where
  | text | percent | l | ll
  | zero (digits : ℕ) | zero_l | zero_ll
  /-- More digits than `tmp` has room for. -/
  | overrun
  deriving DecidableEq, Repr

def isDigit (c : U8) : Bool := decide (ch '0' ≤ c ∧ c ≤ ch '9')

def Scan.step : Scan → U8 → Scan
  | .text, c => if c = ch '%' then .percent else .text
  | .percent, c => if c = ch 'l' then .l else if c = ch '0' then .zero 0 else .text
  | .l, c =>
    if c = ch 'x' then .text
    else if c = ch 'l' then .ll
    else if c = ch '%' then .percent
    else .text
  | .zero k, c =>
    if isDigit c then
      if k < 1024 then .zero (k + 1) else .overrun
    else if c = ch 'l' then .zero_l
    else .text
  | .zero_l, c => if c = ch 'l' then .zero_ll else .text
  | .ll, _ | .zero_ll, _ => .text
  | .overrun, _ => .overrun

/-- A format may end here. -/
def Scan.closed : Scan → Bool
  | .text | .percent | .l => true
  | _ => false

/-- The formats with no directive cut off after `%ll` or `%0`, and none with over 1024 digits. -/
def directives : DFA U8 Scan where
  step := Scan.step
  start := .text
  accept := { s | s.closed = true }

/-- Where the first `i` characters of the format end. -/
def scan (f : CString) (i : ℕ) : Scan := directives.eval (f.chars.take i)

variable {f : CString} {past : ℕ → U8} {i j : ℕ}

theorem scan_succ (past : ℕ → U8) (hi : i < f.length) :
    scan f (i + 1) = (scan f i).step (f.at past i) := by
  unfold scan
  rw [List.take_succ_eq_append_getElem hi, DFA.eval_append_singleton, at_lt hi]
  rfl

theorem scan_length : scan f f.length = directives.eval f.chars := by
  unfold scan CString.length
  rw [List.take_length]

theorem mem_directives : f.chars ∈ directives.accepts ↔ (scan f f.length).closed = true := by
  rw [scan_length]
  exact DFA.mem_accepts directives

instance : Decidable (f.chars ∈ directives.accepts) := decidable_of_iff _ mem_directives.symm

theorem scan_overrun (hj : scan f j = .overrun) (hle : j ≤ f.length) :
    scan f f.length = .overrun := by
  induction hk : f.length - j generalizing j with
  | zero =>
    have hj' : j = f.length := by omega
    rwa [hj'] at hj
  | succ k ih =>
    refine ih (j := j + 1) ?_ (by omega) (by omega)
    rw [scan_succ (fun _ => 0) (by omega), hj]
    rfl

/-! ## Programs, by the offsets they read -/

/-- From any state in which `l` are the offsets read, the program ends in `P` or with an error of
`err`. -/
def Reads (f : CString) (past : ℕ → U8) (err : Fault → Prop) {α : Type} (p : PrintProg α)
    (P : α → List ℕ → Prop) (l : List ℕ) : Prop :=
  ∀ σ : Console.State, inspected σ.log = l →
    wp (.ofExec (exec f past) err) p (fun a σ' => P a (inspected σ'.log)) σ

section
variable {err : Fault → Prop} {α β : Type} {P : α → List ℕ → Prop} {l : List ℕ}

theorem Reads.pure {a : α} (hp : P a l) : Reads f past err (Pure.pure a) P l := by
  rintro σ rfl
  exact hp

theorem Reads.bind {p : PrintProg β} {g : β → PrintProg α}
    (hp : Reads f past err p (fun b l' => Reads f past err (g b) P l') l) :
    Reads f past err (p >>= g) P l := by
  intro σ hσ
  refine wp_seq (wp_mono Rules.ofExec_mono (fun b σ' hb => ?_) (hp σ hσ))
  exact hb σ' rfl

theorem Reads.mono {p : PrintProg α} {P' : α → List ℕ → Prop} (h : ∀ a l', P a l' → P' a l')
    (hp : Reads f past err p P l) : Reads f past err p P' l :=
  fun σ hσ => wp_mono Rules.ofExec_mono (fun a _ ha => h a _ ha) (hp σ hσ)

theorem reads_op {o : PrintOp} {P : o.Ret → List ℕ → Prop}
    (h : ∀ σ : Console.State, inspected σ.log = l →
      Ends err (fun r σ' => P r (inspected σ'.log)) (exec f past o σ)) :
    Reads f past err (Prog.lift o) P l := h

theorem reads_inspect {P : U8 → List ℕ → Prop} (hp : P (f.at past i) (i :: l)) :
    Reads f past err (inspect i) P l := by
  rintro σ rfl
  exact hp

theorem reads_va_int {P : I32 → List ℕ → Prop} (he : err .args) (hp : ∀ v, P v l) :
    Reads f past err va_int P l := by
  refine reads_op fun σ hσ => ?_
  subst hσ
  simp only [exec]
  split
  · exact hp _
  · exact he

theorem reads_va_long {P : I64 → List ℕ → Prop} (he : err .args) (hp : ∀ v, P v l) :
    Reads f past err va_long P l := by
  refine reads_op fun σ hσ => ?_
  subst hσ
  simp only [exec]
  split
  · exact hp _
  · exact he

theorem reads_va_str {P : CString → List ℕ → Prop} (he : err .args) (hp : ∀ v, P v l) :
    Reads f past err va_str P l := by
  refine reads_op fun σ hσ => ?_
  subst hσ
  simp only [exec]
  split
  · exact hp _
  · exact he

theorem reads_set_tmp {P : Unit → List ℕ → Prop} {k : I32} {c : U8}
    (he : err .tmp ∨ k.toNat < 1024) (hp : P () l) : Reads f past err (set_tmp k c) P l := by
  refine reads_op fun σ hσ => ?_
  subst hσ
  simp only [exec]
  split
  · exact hp
  · next hk => exact he.resolve_right hk

theorem reads_more {P : Unit → List ℕ → Prop} (he : err .more) :
    Reads f past err more P l := fun _ _ => he

theorem reads_quiet {b : Prop} (hb : b → err .more) {p : PrintProg α} (hq : Quiet b p)
    (hp : ∀ a, P a l) : Reads f past err p P l := by
  induction p with
  | pure a => exact Reads.pure (hp a)
  | op o k ih =>
    obtain ⟨ho, hk⟩ := hq
    rintro σ rfl
    have hnext : ∀ r σ', inspected σ'.log = inspected σ.log →
        wp (.ofExec (exec f past) err) (k r) (fun a σ' => P a (inspected σ'.log)) σ' :=
      fun r σ' hσ' => ih r (hk r) σ' hσ'
    cases o with
    | uart_putchar c => exact hnext () _ rfl
    | overflow => exact hnext () _ rfl
    | div_zero => exact hnext () _ rfl
    | get_tmp j =>
      have hj : j.toNat < 1024 := by
        rcases ho with ho | ho
        · exact ho
        · cases ho.1
      have hx : exec f past (.get_tmp j) σ =
          .ok (σ.tmp j.toNat, { σ with log := .get_tmp j :: σ.log }) := if_pos hj
      rw [wp_op]
      unfold Rules.ofExec
      rw [hx]
      exact hnext _ _ rfl
    | more =>
      rcases ho with ho | ho
      · exact ho.elim
      · exact hb ho.2
    | _ =>
      rcases ho with ho | ho
      · exact ho.elim
      · cases ho.1

theorem exec_grow {o : PrintOp} {σ : Console.State} {x : o.Ret × Console.State}
    (hx : exec f past o σ = .ok x) (hi : i ∈ inspected σ.log) : i ∈ inspected x.2.log := by
  have hlog : x.2.log = o :: σ.log := by
    cases o with
    | more => cases hx
    | va_int | va_long | va_str | set_tmp | get_tmp =>
      simp only [exec] at hx
      split at hx
      · cases hx
        rfl
      · cases hx
    | _ =>
      cases hx
      rfl
  rw [hlog]
  unfold inspected at hi ⊢
  rw [List.filterMap_cons]
  split
  · exact hi
  · exact List.mem_cons_of_mem _ hi

/-- What was read stays read. -/
theorem reads_grow (he : ∀ e, err e) (p : PrintProg α) (hi : i ∈ l) :
    Reads f past err p (fun _ l' => i ∈ l') l := by
  induction p generalizing l with
  | pure a => exact Reads.pure hi
  | op o k ih =>
    rintro σ rfl
    rw [wp_op]
    unfold Rules.ofExec
    cases hx : exec f past o σ with
    | error e => exact he e
    | ok x => exact ih x.1 (exec_grow hx hi) x.2 rfl

end

/-! ## The directives -/

/-- The cursor is where the loop takes the next character for text. -/
structure AtText (f : CString) (past : ℕ → U8) (i : ℕ) : Prop where
  le : i ≤ f.length
  closed : (scan f i).closed = true
  next : i < f.length → scan f (i + 1) = Scan.step .text (f.at past i)

theorem AtText.of_scan (hi : i ≤ f.length) (hs : scan f i = .text) : AtText f past i := by
  refine ⟨hi, ?_, fun hlt => ?_⟩
  · rw [hs]
    rfl
  · rw [scan_succ past hlt, hs]

/-- What a directive read with its `%` at `i` leaves: the loop at text again, or past the
terminator, or at its end. -/
def After (f : CString) (past : ℕ → U8) (i : ℕ) : Next → Prop
  | .advance j t => t = 0 ∧ i ≤ j ∧
      (AtText f past (j + 1) ∨ j = f.length ∧ (scan f f.length).closed = false)
  | .again j t => t = 0 ∧ i < j ∧ AtText f past j
  | .done => (scan f f.length).closed = true

/-- Nothing was read past the terminator. -/
def Inside (f : CString) (l : List ℕ) : Prop := ∀ i ∈ l, i ≤ f.length

theorem Inside.cons {l : List ℕ} (hl : Inside f l) (hi : i ≤ f.length) : Inside f (i :: l) := by
  intro k hk
  rcases List.mem_cons.1 hk with rfl | hk
  · exact hi
  · exact hl k hk

theorem lt_of_at (hi : i ≤ f.length) (hc : f.at past i ≠ 0) : i < f.length := by
  rcases Nat.lt_or_ge i f.length with hlt | hge
  · exact hlt
  · have he : i = f.length := Nat.le_antisymm hi hge
    rw [he] at hc
    exact absurd at_length hc

theorem ne_zero_of {c x : U8} (hc : x = c) (h0 : c ≠ 0) : x ≠ 0 := by
  rw [hc]
  exact h0

theorem After.text (hij : i ≤ j) (hj : j < f.length) (hs : scan f (j + 1) = .text) :
    After f past i (.advance j 0) :=
  ⟨rfl, hij, Or.inl (.of_scan hj hs)⟩

/-- The directive was cut off at the cursor, or the scan is at text past it. -/
theorem After.cut {s : Scan} (hij : i ≤ j) (hj : j ≤ f.length) (hs : scan f j = s)
    (hopen : s.closed = false) (hstep : j < f.length → s.step (f.at past j) = .text) :
    After f past i (.advance j 0) := by
  rcases Nat.lt_or_ge j f.length with hlt | hge
  · exact .text hij hlt (by rw [scan_succ past hlt, hs, hstep hlt])
  · have he : j = f.length := Nat.le_antisymm hj hge
    refine ⟨rfl, hij, Or.inr ⟨he, ?_⟩⟩
    rw [← he, hs]
    exact hopen

section
variable {err : Fault → Prop} {l : List ℕ} {fuel : ℕ} {α : Type} {P : α → List ℕ → Prop}

theorem reads_int {q : I32 → PrintProg Unit} (he : err .args) (hq : ∀ v, Quiet (err .more) (q v))
    {a : α} (hp : P a l) : Reads f past err (do
      let value ← va_int
      q value
      pure a) P l :=
  Reads.bind (reads_va_int he fun v => Reads.bind (reads_quiet id (hq v) fun _ => Reads.pure hp))

theorem reads_long {q : I64 → PrintProg Unit} (he : err .args) (hq : ∀ v, Quiet (err .more) (q v))
    {a : α} (hp : P a l) : Reads f past err (do
      let value ← va_long
      q value
      pure a) P l :=
  Reads.bind (reads_va_long he fun v => Reads.bind (reads_quiet id (hq v) fun _ => Reads.pure hp))

theorem reads_put {c : U8} {a : α} (hp : P a l) : Reads f past err (do
      uart_putchar c
      pure a) P l :=
  Reads.bind (reads_quiet id (quiet_putchar c) fun _ => Reads.pure hp)

theorem reads_add {x y : I32} {P : I32 → List ℕ → Prop} (hp : P (x + y) l) :
    Reads f past err (c_add x y) P l := by
  unfold c_add checked
  split
  · refine Reads.bind (reads_op fun σ hσ => ?_)
    subst hσ
    exact Reads.pure hp
  · exact Reads.pure hp

variable (hargs : err .args) (hmore : err .more ∨ 2 ^ 31 < fuel)
include hargs hmore

theorem reads_long_directive (hj : j < f.length) (hij : i ≤ j) (hs : scan f (j + 1) = .l)
    (hl : Inside f l) :
    Reads f past err (long_directive fuel j 0) (fun nx l' => Inside f l' ∧ After f past i nx)
      l := by
  have h1 := hl.cons (i := j + 1) hj
  have hdec : ∀ v : I64, Quiet (err .more) (put_decimal fuel v) := fun v =>
    quiet_decimal (Or.inr rfl) v (hmore.imp_right fun h => by omega)
  unfold long_directive
  refine Reads.bind (reads_inspect ?_)
  split
  · next hc =>
    have hlt := lt_of_at hj (ne_zero_of hc (by decide))
    refine reads_long hargs (fun v => quiet_hex v 16) ⟨h1, .text (by omega) hlt ?_⟩
    rw [scan_succ past hlt, hs, hc]
    rfl
  · split
    · next hc =>
      have hlt := lt_of_at hj (ne_zero_of hc (by decide))
      have hll : scan f (j + 1 + 1) = .ll := by
        rw [scan_succ past hlt, hs, hc]
        rfl
      have h2 := h1.cons (i := j + 1 + 1) hlt
      have hafter : After f past i (.advance (j + 1 + 1) 0) :=
        .cut (by omega) hlt hll rfl fun _ => rfl
      refine Reads.bind (reads_inspect ?_)
      split
      · exact reads_long hargs (fun v => quiet_hex v 16) ⟨h2, hafter⟩
      · split
        · exact reads_long hargs hdec ⟨h2, hafter⟩
        · exact Reads.pure ⟨h2, hafter⟩
    · next hx hll =>
      refine reads_put ⟨h1, rfl, by omega, hj, ?_, fun hlt => ?_⟩
      · rw [hs]
        rfl
      · rw [scan_succ past hlt, hs]
        simp only [Scan.step, if_neg hx, if_neg hll]

omit hargs hmore in
/-- The digits after `%0` are those that the scan counts. -/
theorem reads_digits {k n : ℕ} (htmp : err .tmp ∨ scan f f.length ≠ .overrun) (hj : j ≤ f.length)
    (hk : k ≤ 1024) (hn : err .more ∨ 1024 < n + k) (hs : scan f j = .zero k) (hl : Inside f l)
    {P : ℕ × I32 → List ℕ → Prop}
    (hp : ∀ j' k' l', j ≤ j' → j' ≤ f.length → k' ≤ 1024 → scan f j' = .zero k' →
      isDigit (f.at past j') = false → Inside f l' → P (j', BitVec.ofNat 32 k') l') :
    Reads f past err (read_digits n j (BitVec.ofNat 32 k)) P l := by
  induction n generalizing j k l with
  | zero =>
    rcases hn with hn | hn
    · exact Reads.bind (reads_more hn)
    · omega
  | succ n ih =>
    unfold read_digits
    refine Reads.bind (reads_inspect ?_)
    have h1 := hl.cons hj
    split
    · next hc =>
      have hdigit : isDigit (f.at past j) = true := decide_eq_true hc
      have h0 : f.at past j ≠ 0 := fun h0 => by
        rw [h0] at hc
        exact absurd hc (by decide)
      have hlt := lt_of_at hj h0
      have hstep : scan f (j + 1) = if k < 1024 then .zero (k + 1) else .overrun := by
        rw [scan_succ past hlt, hs]
        simp only [Scan.step, hdigit, if_true]
      have hidx : (BitVec.ofNat 32 k).toNat = k := by
        rw [BitVec.toNat_ofNat]
        omega
      by_cases hroom : k < 1024
      · rw [if_pos hroom] at hstep
        refine Reads.bind (reads_set_tmp (Or.inr (by omega)) (Reads.bind (reads_add ?_)))
        have hadd : BitVec.ofNat 32 k + 1 = BitVec.ofNat 32 (k + 1) := by
          rw [BitVec.ofNat_add]
          rfl
        rw [hadd]
        exact ih hlt hroom (hn.imp_right fun h => by omega) hstep h1
          fun j' k' l' hle => hp j' k' l' (by omega)
      · rw [if_neg hroom] at hstep
        refine Reads.bind (reads_op fun σ _ => ?_)
        have hx : exec f past (.set_tmp (BitVec.ofNat 32 k) (f.at past j)) σ = .error .tmp :=
          if_neg (by omega)
        rw [hx]
        exact htmp.resolve_right fun hno => hno (scan_overrun hstep hlt)
    · next hc =>
      exact Reads.pure (hp j k _ (Nat.le_refl j) hj hk hs (decide_eq_false hc) h1)

/-- The common part of `%0N`: past the digits, with the cursor at what follows them. -/
theorem reads_zero_directive (htmp : err .tmp ∨ scan f f.length ≠ .overrun) (hj : j < f.length)
    (hij : i ≤ j) (hs : scan f (j + 1) = .zero 0) (hl : Inside f l) :
    Reads f past err (zero_directive fuel j 0) (fun nx l' => Inside f l' ∧ After f past i nx)
      l := by
  unfold zero_directive
  refine Reads.bind (reads_digits htmp hj (Nat.zero_le _) (hmore.imp_right fun h => by omega) hs hl
    fun j k l hjk hj hk hs hdig hl => ?_)
  have hidx : (BitVec.ofNat 32 k).toNat ≤ 1024 := by
    rw [BitVec.toNat_ofNat]
    exact (Nat.mod_le _ _).trans hk
  have h0 : (0 : I32).toInt = 0 := rfl
  refine Reads.bind (reads_quiet id (quiet_multiplend _ _ (hmore.imp_right fun h => by omega))
    fun m => Reads.bind (reads_quiet id (quiet_sum hidx _ _ (by decide)
      (hmore.imp_right fun h => by omega)) fun cnt => ?_))
  have hdec : ∀ {w : ℕ}, w = 32 ∨ w = 64 → ∀ v : BitVec w,
      Quiet (err .more) (put_padded fuel cnt v) := fun hw v =>
    quiet_padded hw cnt v (hmore.imp_right fun h => by omega)
  -- what ends the directive at once
  have hcut : f.at past j ≠ ch 'l' → After f past i (.advance j 0) := fun hc =>
    .cut (by omega) hj hs rfl fun _ => by simp only [Scan.step, hdig, if_neg hc]; rfl
  have h1 := hl.cons hj
  refine Reads.bind (reads_inspect ?_)
  split
  · next hc => exact reads_int hargs (hdec (Or.inl rfl)) ⟨h1, hcut (by rw [hc]; decide)⟩
  · split
    · next hc => exact reads_int hargs (fun v => quiet_hex v 8) ⟨h1, hcut (by rw [hc]; decide)⟩
    · split
      · next hc =>
        have hlt := lt_of_at hj (ne_zero_of hc (by decide))
        have hzl : scan f (j + 1) = .zero_l := by
          rw [scan_succ past hlt, hs]
          simp only [Scan.step, hdig, if_pos hc]
          rfl
        have h2 := h1.cons (i := j + 1) hlt
        refine Reads.bind (reads_inspect ?_)
        have hcut' : f.at past (j + 1) ≠ ch 'l' → After f past i (.advance (j + 1) 0) := fun hc =>
          .cut (by omega) hlt hzl rfl fun _ => by simp only [Scan.step, if_neg hc]
        split
        · next hc =>
          exact reads_long hargs (fun v => quiet_hex v 16) ⟨h2, hcut' (by rw [hc]; decide)⟩
        · split
          · next hc =>
            have hlt' := lt_of_at hlt (ne_zero_of hc (by decide))
            have hzll : scan f (j + 1 + 1) = .zero_ll := by
              rw [scan_succ past hlt', hzl]
              simp only [Scan.step, if_pos hc]
            have h3 := h2.cons (i := j + 1 + 1) hlt'
            have hafter : After f past i (.advance (j + 1 + 1) 0) :=
              .cut (by omega) hlt' hzll rfl fun _ => rfl
            refine Reads.bind (reads_inspect ?_)
            split
            · exact reads_long hargs (fun v => quiet_hex v 16) ⟨h3, hafter⟩
            · split
              · exact reads_long hargs (hdec (Or.inr rfl)) ⟨h3, hafter⟩
              · exact Reads.pure ⟨h3, hafter⟩
          · next hc => exact Reads.pure ⟨h2, hcut' hc⟩
      · next hc => exact reads_put ⟨h1, hcut hc⟩

theorem reads_directive (htmp : err .tmp ∨ scan f f.length ≠ .overrun) (hi : i < f.length)
    (hs : scan f (i + 1) = .percent) (hl : Inside f l) :
    Reads f past err (directive fuel i 0) (fun nx l' => Inside f l' ∧ After f past i nx) l := by
  have h1 := hl.cons (i := i + 1) hi
  have hle : i ≤ i + 1 := by omega
  -- a directive of one character
  have htext : ∀ c, f.at past (i + 1) = c → c ≠ 0 → Scan.step .percent c = .text →
      After f past i (.advance (i + 1) 0) := by
    intro c hc h0 hstep
    have hlt := lt_of_at hi (ne_zero_of hc h0)
    exact .text hle hlt (by rw [scan_succ past hlt, hs, hc, hstep])
  unfold directive
  refine Reads.bind (reads_inspect ?_)
  split
  · next hc =>
    refine reads_put ⟨h1, ?_⟩
    have he : i + 1 = f.length := by
      by_contra hne
      have hat : f.at past (i + 1) ≠ 0 := at_ne_zero (by omega)
      exact hat hc
    show (scan f f.length).closed = true
    rw [← he, hs]
    rfl
  next h0 =>
  split
  · next hc => exact reads_put ⟨h1, htext _ hc (by decide) (by decide)⟩
  split
  · next hc =>
    refine Reads.bind (reads_va_str hargs fun v => Reads.bind (reads_quiet id (quiet_str v.chars)
      fun _ => Reads.pure ⟨h1, htext _ hc (by decide) (by decide)⟩))
  split
  · next hc =>
    exact reads_int hargs
      (fun v => quiet_decimal (Or.inl rfl) v (hmore.imp_right fun h => by omega))
      ⟨h1, htext _ hc (by decide) (by decide)⟩
  split
  · next hc =>
    exact reads_int hargs (fun v => quiet_hex v 8) ⟨h1, htext _ hc (by decide) (by decide)⟩
  split
  · next hc =>
    have hlt := lt_of_at hi h0
    refine reads_long_directive hargs hmore hlt hle ?_ h1
    rw [scan_succ past hlt, hs, hc]
    rfl
  next hl' =>
  split
  · next hc =>
    have hlt := lt_of_at hi h0
    refine reads_zero_directive hargs hmore htmp hlt hle ?_ h1
    rw [scan_succ past hlt, hs, hc]
    rfl
  · next hc =>
    refine reads_put ⟨h1, htext _ rfl h0 ?_⟩
    simp only [Scan.step, if_neg hl', if_neg hc]

omit hargs hmore in
theorem reads_past (he : ∀ e, err e) {n : ℕ} {t : I32} :
    Reads f past err (printf_loop fuel n i t) (fun _ l' => i ∈ l') l := by
  cases n with
  | zero => exact reads_more (he _)
  | succ n =>
    unfold printf_loop
    exact Reads.bind (reads_inspect (reads_grow he _ (List.mem_cons_self ..)))

/-- The loop reads inside a format that may end where it does, and past the terminator of one that
may not. -/
theorem reads_loop {n : ℕ} (htmp : err .tmp ∨ scan f f.length ≠ .overrun)
    (hcut : (scan f f.length).closed = false → ∀ e, err e)
    (hn : err .more ∨ f.length < n + i) (hi : AtText f past i) (hl : Inside f l) :
    Reads f past err (printf_loop fuel n i 0) (fun _ l' =>
      if (scan f f.length).closed then Inside f l' else f.length + 1 ∈ l') l := by
  induction n generalizing i l with
  | zero =>
    rcases hn with hn | hn
    · exact reads_more hn
    · have := hi.le
      omega
  | succ n ih =>
    have hin := hl.cons hi.le
    unfold printf_loop
    refine Reads.bind (reads_inspect ?_)
    split
    · next hc =>
      have he : i = f.length := by
        by_contra hne
        have hat : f.at past i ≠ 0 := at_ne_zero (Nat.lt_of_le_of_ne hi.le hne)
        exact hat hc
      refine Reads.pure ?_
      rw [← he, if_pos hi.closed]
      exact hin
    · next h0 =>
      have hlt := lt_of_at hi.le h0
      have hnext : Reads f past err (item fuel i 0 (f.at past i))
          (fun nx l' => Inside f l' ∧ After f past i nx) (i :: l) := by
        unfold item
        split
        · next hc =>
          refine reads_directive hargs hmore htmp hlt ?_ hin
          rw [hi.next hlt, hc]
          rfl
        · next hc =>
          refine reads_put ⟨hin, .text (Nat.le_refl i) hlt ?_⟩
          rw [hi.next hlt]
          simp only [Scan.step, if_neg hc]
      refine Reads.bind (hnext.mono fun nx l' hnx => ?_)
      obtain ⟨hl', hafter⟩ := hnx
      cases nx with
      | advance j t =>
        obtain ⟨rfl, hij, hj | ⟨rfl, hopen⟩⟩ := hafter
        · exact ih (hn.imp_right fun h => by omega) hj hl'
        · -- the terminator was stepped over
          rw [hopen]
          exact reads_past (hcut hopen)
      | again j t =>
        obtain ⟨rfl, hij, hj⟩ := hafter
        exact ih (hn.imp_right fun h => by omega) hj hl'
      | done =>
        refine Reads.pure ?_
        have hclosed : (scan f f.length).closed = true := hafter
        rwa [if_pos hclosed]

end

/-! ## The calls -/

/-- The arguments are there, with their types, for every conversion that the call comes to. -/
def Supplied (f : CString) (past : ℕ → U8) (vargs : List Arg) (tmp : ℕ → U8) : Prop :=
  ∀ fuel, call fuel f past vargs tmp ≠ .error .args

/-- The call terminates, having read nothing past the terminator of the format. -/
def ReadsInside (f : CString) (past : ℕ → U8) (vargs : List Arg) (tmp : ℕ → U8) : Prop :=
  ∃ fuel σ, call fuel f past vargs tmp = .ok ((), σ) ∧ ∀ i ∈ inspected σ.log, i ≤ f.length

theorem atText_zero : AtText f past 0 := .of_scan (Nat.zero_le _) rfl

/-- A call of `printf` terminates without reading past the terminator if and only if the format
has no directive cut off after `%ll` or `%0`, and none with over 1024 digits after `%0`. -/
theorem reads_inside_iff {vargs : List Arg} {tmp : ℕ → U8} (hargs : Supplied f past vargs tmp) :
    ReadsInside f past vargs tmp ↔ f.chars ∈ directives.accepts := by
  rw [mem_directives]
  have hrun : ∀ {err : Fault → Prop} {fuel : ℕ} {P : Unit → List ℕ → Prop},
      Reads f past err (printf fuel) P [] →
        Ends err (fun a σ => P a (inspected σ.log)) (call fuel f past vargs tmp) :=
    fun h => (wp_ofExec _ _ _).1 (h _ rfl)
  constructor
  · rintro ⟨fuel, σ, hcall, hin⟩
    by_contra hopen
    have hopen : (scan f f.length).closed = false := by simpa using hopen
    have hreads : Reads f past (fun _ => True) (printf_loop fuel fuel 0 0) (fun _ l' =>
        if (scan f f.length).closed then Inside f l' else f.length + 1 ∈ l') [] :=
      reads_loop trivial (Or.inl trivial) (Or.inl trivial) (fun _ _ => trivial) (Or.inl trivial)
        atText_zero fun _ hi => by cases hi
    have h := hrun hreads
    rw [hcall, hopen] at h
    have := hin _ h
    omega
  · intro hclosed
    have htmp : scan f f.length ≠ .overrun := fun h => by
      rw [h] at hclosed
      cases hclosed
    have hreads : Reads f past (fun e => e = .args)
        (printf_loop (2 ^ 31 + 1 + f.length) (2 ^ 31 + 1 + f.length) 0 0) (fun _ l' =>
        if (scan f f.length).closed then Inside f l' else f.length + 1 ∈ l') [] := by
      apply reads_loop
      · rfl
      · exact Or.inr (by omega)
      · exact Or.inr htmp
      · intro h
        rw [hclosed] at h
        cases h
      · exact Or.inr (by omega)
      · exact atText_zero
      · intro _ hi
        cases hi
    have h := hrun hreads
    cases hcall : call (2 ^ 31 + 1 + f.length) f past vargs tmp with
    | error e =>
      rw [hcall] at h
      have he : e = .args := h
      rw [he] at hcall
      exact absurd hcall (hargs _)
    | ok x =>
      rw [hcall] at h
      refine ⟨_, x.2, hcall, ?_⟩
      have h : (if (scan f f.length).closed then Inside f (inspected x.2.log)
        else f.length + 1 ∈ inspected x.2.log) := h
      rwa [if_pos hclosed] at h

/-- `"%ll"`. -/
def cutLongLong : CString := ⟨[ch '%', ch 'l', ch 'l'], by decide⟩

theorem cutLongLong_supplied : Supplied cutLongLong (fun _ => 0) [] fun _ => 0 := by
  intro fuel h
  rcases fuel with _ | _ | fuel <;> cases h

theorem reads_inside_not : ¬ ∀ (f : CString) (past : ℕ → U8) (vargs : List Arg) (tmp : ℕ → U8),
    Supplied f past vargs tmp → ReadsInside f past vargs tmp := by
  intro hall
  obtain ⟨fuel, σ, hcall, hin⟩ := hall cutLongLong _ _ _ cutLongLong_supplied
  rcases fuel with _ | _ | fuel
  · cases hcall
  · cases hcall
  · cases hcall
    exact absurd (hin 4 (by decide)) (by decide)

/-- `"a%l"`. -/
def cutLong : CString := ⟨[ch 'a', ch '%', ch 'l'], by decide⟩

theorem cutLong_supplied : Supplied cutLong (fun _ => 1) [] fun _ => 0 := by
  intro fuel h
  rcases fuel with _ | _ | _ | fuel <;> cases h

theorem reads_inside_cutLong : ReadsInside cutLong (fun _ => 1) [] fun _ => 0 :=
  (reads_inside_iff cutLong_supplied).2 (by decide)

end GQuuuuuunix.Properties
