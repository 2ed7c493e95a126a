import GQuuuuuunix.Kernel.HelloWorld
import GQuuuuuunix.Proof.Formats

/-! # The dialect of the first printf

Where a format has only the directives of `01.HelloWorld`, the later `printf` goes through the same
rounds: it reads the same characters of the format, takes the same arguments and prints the same
characters, in the same order. -/

namespace GQuuuuuunix.Properties
open Lib Kernel Console Proof
set_option autoImplicit false

/-- The formats of the first `printf`, each with an argument list that matches it: a `%` that begins
a directive is followed by `%`, `s`, `d`, `x` or the end. -/
inductive OldFormat : List U8 → List Arg → Prop where
  | nil : OldFormat [] []
  | lone : OldFormat [ch '%'] []
  | char {c : U8} {cs : List U8} {as : List Arg} (hc : c ≠ ch '%') :
      OldFormat cs as → OldFormat (c :: cs) as
  | percent {cs : List U8} {as : List Arg} :
      OldFormat cs as → OldFormat (ch '%' :: ch '%' :: cs) as
  | str (s : CString) {cs : List U8} {as : List Arg} :
      OldFormat cs as → OldFormat (ch '%' :: ch 's' :: cs) (.str s :: as)
  | d (v : I32) {cs : List U8} {as : List Arg} :
      OldFormat cs as → OldFormat (ch '%' :: ch 'd' :: cs) (.int v :: as)
  | x (v : I32) {cs : List U8} {as : List Arg} :
      OldFormat cs as → OldFormat (ch '%' :: ch 'x' :: cs) (.int v :: as)

/-! ## The conversions of the two files -/

section
variable {value divisor : I32} {fuel n : ℕ}

theorem find_divisor_eq :
    HelloWorld.find_divisor value n divisor = find_divisor value n divisor := by
  induction n generalizing divisor with
  | zero => rfl
  | succ n ih =>
    unfold HelloWorld.find_divisor find_divisor
    simp only [BitVec.signExtend_eq, ih]

theorem put_digits_eq : HelloWorld.put_digits n value divisor = put_digits n value divisor := by
  induction n generalizing value divisor with
  | zero => rfl
  | succ n ih =>
    unfold HelloWorld.put_digits put_digits
    simp only [BitVec.signExtend_eq, ih]

theorem put_decimal_eq : HelloWorld.put_decimal fuel value = put_decimal fuel value := by
  unfold HelloWorld.put_decimal put_decimal
  simp only [find_divisor_eq, put_digits_eq]

theorem put_hex_eq_later : HelloWorld.put_hex value n = put_hex value n := by
  induction n with
  | zero => rfl
  | succ n ih =>
    unfold HelloWorld.put_hex put_hex
    rw [ih]

end

/-! ## Programs that go together -/

/-- The programs return `a` and `b` after the same operations, and leave these arguments. -/
def Agree (f : CString) (past : ℕ → U8) {α β : Type} (p : PrintProg α) (q : PrintProg β)
    (vargs : List Arg) (tmp : ℕ → U8) (a : α) (b : β) (vargs' : List Arg) : Prop :=
  ∀ log, ∃ log', p.run (exec f past) ⟨vargs, tmp, log⟩ = .ok (a, ⟨vargs', tmp, log'⟩) ∧
    q.run (exec f past) ⟨vargs, tmp, log⟩ = .ok (b, ⟨vargs', tmp, log'⟩)

section
variable {f : CString} {past tmp : ℕ → U8} {α β γ δ : Type} {vargs vargs' vargs'' : List Arg}
  {a : α} {b : β} {c : γ} {d : δ} {fuel i j n : ℕ}

theorem agree_pure : Agree f past (pure a) (pure b) vargs tmp a b vargs :=
  fun log => ⟨log, rfl, rfl⟩

theorem Agree.bind {p : PrintProg α} {q : PrintProg β} {g : α → PrintProg γ}
    {g' : β → PrintProg δ} (hp : Agree f past p q vargs tmp a b vargs')
    (hg : Agree f past (g a) (g' b) vargs' tmp c d vargs'') :
    Agree f past (p >>= g) (q >>= g') vargs tmp c d vargs'' := by
  intro log
  obtain ⟨log', hrun, hrun'⟩ := hp log
  obtain ⟨log'', hnext, hnext'⟩ := hg log'
  refine ⟨log'', ?_, ?_⟩
  · rw [Prog.bind_eq, Prog.run_bind, hrun]
    exact hnext
  · rw [Prog.bind_eq, Prog.run_bind, hrun']
    exact hnext'

/-- One operation, the same in both. -/
theorem agree_op {o : PrintOp} {r : o.Ret} {k : o.Ret → PrintProg α} {k' : o.Ret → PrintProg β}
    (hx : ∀ log, exec f past o ⟨vargs, tmp, log⟩ = .ok (r, ⟨vargs', tmp, o :: log⟩))
    (hk : Agree f past (k r) (k' r) vargs' tmp a b vargs'') :
    Agree f past (.op o k) (.op o k') vargs tmp a b vargs'' := by
  intro log
  obtain ⟨log', hrun, hrun'⟩ := hk (o :: log)
  refine ⟨log', ?_, ?_⟩
  · rw [Prog.run, hx]
    exact hrun
  · rw [Prog.run, hx]
    exact hrun'

theorem agree_inspect {k : U8 → PrintProg α} {k' : U8 → PrintProg β}
    (hk : Agree f past (k (f.at past i)) (k' (f.at past i)) vargs tmp a b vargs') :
    Agree f past (inspect i >>= k) (inspect i >>= k') vargs tmp a b vargs' :=
  agree_op (fun _ => rfl) hk

/-- A program that only prints and computes goes together with itself. -/
theorem agree_quiet {p : PrintProg Unit} (hq : Quiet False p) :
    Agree f past p p vargs tmp () () vargs := by
  induction p with
  | pure a => exact agree_pure
  | op o k ih =>
    obtain ⟨ho, hk⟩ := hq
    have hquiet : PrintOp.quiet o := ho.resolve_right fun h => h.2
    cases o with
    | uart_putchar c => exact agree_op (fun _ => rfl) (ih () (hk ()))
    | overflow => exact agree_op (fun _ => rfl) (ih () (hk ()))
    | div_zero => exact agree_op (fun _ => rfl) (ih () (hk ()))
    | get_tmp m =>
      have hm : m.toNat < 1024 := hquiet
      have hx : ∀ log, exec f past (.get_tmp m) ⟨vargs, tmp, log⟩ =
          .ok (tmp m.toNat, ⟨vargs, tmp, .get_tmp m :: log⟩) := fun _ => if_pos hm
      exact agree_op hx (ih _ (hk _))
    | _ => exact hquiet.elim

/-- What is done before the cursor goes on. -/
theorem agree_last {p : PrintProg Unit} (hp : Agree f past p p vargs tmp () () vargs') :
    Agree f past (p >>= fun _ => pure b) (p >>= fun _ => pure d) vargs tmp b d vargs' :=
  hp.bind agree_pure

/-! ## One round -/

/-- Both directives print what `p` prints, with the cursor on the character after the `%`. -/
theorem agree_directive {cs : List U8} {as : List Arg} (hf : 33 ≤ fuel)
    (h : OldFormat (ch '%' :: cs) as) (hi : Ahead f i (ch '%' :: cs)) :
    (cs = [] ∧ as = [] ∧ Agree f past (HelloWorld.directive fuel i) (directive fuel i 0) as tmp
      none .done []) ∨
    ∃ c cs' as', cs = c :: cs' ∧ OldFormat cs' as' ∧
      Agree f past (HelloWorld.directive fuel i) (directive fuel i 0) as tmp
        (some (i + 1)) (.advance (i + 1) 0) as' := by
  unfold HelloWorld.directive directive
  simp only [put_decimal_eq, put_hex_eq_later]
  cases h with
  | lone =>
    refine Or.inl ⟨rfl, rfl, agree_inspect ?_⟩
    rw [hi.next.2.2.at_nil, if_pos rfl, if_pos rfl]
    exact agree_last (agree_quiet (quiet_putchar _))
  | char hc => exact absurd rfl hc
  | percent h =>
    refine Or.inr ⟨_, _, _, rfl, h, agree_inspect ?_⟩
    rw [hi.next.2.2.next.2.1 past, if_neg (by decide), if_pos rfl, if_neg (by decide), if_pos rfl]
    exact agree_last (agree_quiet (quiet_putchar _))
  | str s h =>
    refine Or.inr ⟨_, _, _, rfl, h, agree_inspect ?_⟩
    rw [hi.next.2.2.next.2.1 past, if_neg (by decide), if_neg (by decide), if_pos rfl,
      if_neg (by decide), if_neg (by decide), if_pos rfl]
    exact agree_op (fun _ => rfl) (agree_last (agree_quiet (quiet_str _)))
  | d v h =>
    refine Or.inr ⟨_, _, _, rfl, h, agree_inspect ?_⟩
    rw [hi.next.2.2.next.2.1 past, if_neg (by decide), if_neg (by decide), if_neg (by decide),
      if_pos rfl, if_neg (by decide), if_neg (by decide), if_neg (by decide), if_pos rfl]
    exact agree_op (fun _ => rfl)
      (agree_last (agree_quiet (quiet_decimal (Or.inl rfl) v (Or.inr hf))))
  | x v h =>
    refine Or.inr ⟨_, _, _, rfl, h, agree_inspect ?_⟩
    rw [hi.next.2.2.next.2.1 past, if_neg (by decide), if_neg (by decide), if_neg (by decide),
      if_neg (by decide), if_pos rfl, if_neg (by decide), if_neg (by decide), if_neg (by decide),
      if_neg (by decide), if_pos rfl]
    exact agree_op (fun _ => rfl) (agree_last (agree_quiet (quiet_hex v 8)))

theorem OldFormat.of_char {c : U8} {cs : List U8} {as : List Arg} (hc : c ≠ ch '%')
    (h : OldFormat (c :: cs) as) : OldFormat cs as := by
  cases h with
  | char _ h => exact h
  | _ => exact absurd rfl hc

/-! ## The whole format -/

/-- The loops go together from round to round, the cursors at one place. -/
theorem agree_loop {cs : List U8} {as : List Arg} (hf : 33 ≤ fuel) (h : OldFormat cs as)
    (hi : Ahead f i cs) (hn : cs.length < n) :
    Agree f past (HelloWorld.printf_loop fuel n i) (printf_loop fuel n i 0) as tmp () () [] := by
  induction n generalizing i cs as with
  | zero => omega
  | succ n ih =>
    unfold HelloWorld.printf_loop printf_loop
    apply agree_inspect
    cases cs with
    | nil =>
      cases h
      rw [hi.at_nil, if_pos rfl, if_pos rfl]
      exact agree_pure
    | cons c cs =>
      obtain ⟨hlt, hat, hnext⟩ := hi.next
      rw [List.length_cons] at hn
      rw [if_neg (at_ne_zero hlt), if_neg (at_ne_zero hlt), hat past]
      unfold HelloWorld.item item
      by_cases hc : c = ch '%'
      · subst hc
        rw [if_pos rfl, if_pos rfl]
        rcases agree_directive hf h hi with ⟨-, -, hdir⟩ | ⟨c, cs', as', rfl, hrest, hdir⟩
        · exact hdir.bind agree_pure
        · rw [List.length_cons] at hn
          exact hdir.bind (ih hrest hnext.next.2.2 (by omega))
      · rw [if_neg hc, if_neg hc]
        have hput : Agree f past (uart_putchar c >>= fun _ => pure (some i))
            (uart_putchar c >>= fun _ => pure (Next.advance i 0)) as tmp (some i)
            (Next.advance i 0) as := agree_last (agree_quiet (quiet_putchar c))
        exact hput.bind (ih (h.of_char hc) hnext (by omega))

end

/-- Both versions of `printf`, given rounds enough, return in one state: after the same operations,
the characters printed among them, and with all arguments taken. -/
theorem printf_keeps_old_dialect {f : CString} {vargs : List Arg} (h : OldFormat f.chars vargs)
    (past tmp : ℕ → U8) : ∃ N, ∀ fuel ≥ N, ∃ σ,
      HelloWorld.call fuel f past vargs tmp = .ok ((), σ) ∧
      Console.call fuel f past vargs tmp = .ok ((), σ) ∧ σ.vargs = [] := by
  refine ⟨f.length + 33, fun fuel hfuel => ?_⟩
  have hi : Ahead f 0 f.chars := ⟨Nat.zero_le _, rfl⟩
  have hlen : f.chars.length = f.length := rfl
  have hagree : Agree f past (HelloWorld.printf fuel) (printf fuel) vargs tmp () () [] :=
    agree_loop (by omega) h hi (by omega)
  obtain ⟨log, hrun, hrun'⟩ := hagree []
  exact ⟨_, hrun, hrun', rfl⟩

/-- `"%d%%%"`, with a number that `%d` cannot negate. -/
theorem printf_keeps_old_dialect_min : ∃ N, ∀ fuel ≥ N, ∃ σ,
    HelloWorld.call fuel ⟨"%d%%%".toList.map ch, by decide⟩ (fun _ => 0)
      [.int (BitVec.intMin 32)] (fun _ => 0) = .ok ((), σ) ∧
    Console.call fuel ⟨"%d%%%".toList.map ch, by decide⟩ (fun _ => 0)
      [.int (BitVec.intMin 32)] (fun _ => 0) = .ok ((), σ) ∧ σ.vargs = [] := by
  have h : OldFormat ("%d%%%".toList.map ch) [.int (BitVec.intMin 32)] := .d _ (.percent .lone)
  exact printf_keeps_old_dialect h (fun _ => 0) fun _ => 0

end GQuuuuuunix.Properties
