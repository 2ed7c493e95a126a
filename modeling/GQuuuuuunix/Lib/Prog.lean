import Mathlib.Data.Nat.Notation
import Mathlib.Logic.Function.Basic

/-! # Programs over a signature of operations, and their weakest preconditions

A program is a finite tree: it returns, or it performs one operation and goes on with the result.
Loops are operations too (the machine that runs the tree unfolds them), so a weakest precondition
is a plain recursion on the tree, and a loop is met only through what is assumed of its operation.

* `Prog Op Ret α`: programs with operations `o : Op` answered in `Ret o`.
* `wp S p Q v`: from `v`, the program `p` is safe and ends in `Q`, when operation `o` followed by
  `R` asks `S o R` of the state before it. Nothing is assumed of `S` but monotonicity.
-/

namespace GQuuuuuunix.Lib
set_option autoImplicit false

inductive Prog (Op : Type) (Ret : Op → Type) (α : Type) : Type where
  | pure (a : α)
  | op (o : Op) (k : Ret o → Prog Op Ret α)

namespace Prog

variable {Op : Type} {Ret : Op → Type} {α β γ : Type}

/-- Run `p`, then go on with `f` at the value it returned. -/
def bind : Prog Op Ret α → (α → Prog Op Ret β) → Prog Op Ret β
  | .pure a, f => f a
  | .op o k, f => .op o fun r => (k r).bind f

instance : Monad (Prog Op Ret) where
  pure := .pure
  bind := .bind

/-- One operation as a program. -/
def lift (o : Op) : Prog Op Ret (Ret o) := .op o .pure

@[simp] theorem pure_eq (a : α) : (Pure.pure a : Prog Op Ret α) = .pure a := rfl

@[simp] theorem bind_eq (p : Prog Op Ret α) (f : α → Prog Op Ret β) : p >>= f = p.bind f := rfl

@[simp] theorem pure_bind (a : α) (f : α → Prog Op Ret β) : (Prog.pure a).bind f = f a := rfl

@[simp] theorem op_bind (o : Op) (k : Ret o → Prog Op Ret α) (f : α → Prog Op Ret β) :
    (Prog.op o k).bind f = .op o fun r => (k r).bind f := rfl

@[simp] theorem lift_bind (o : Op) (f : Ret o → Prog Op Ret β) :
    (lift o : Prog Op Ret (Ret o)).bind f = .op o f := rfl

theorem bind_assoc (p : Prog Op Ret α) (f : α → Prog Op Ret β) (g : β → Prog Op Ret γ) :
    (p.bind f).bind g = p.bind fun a => (f a).bind g := by
  induction p with
  | pure a => rfl
  | op o k ih => simp only [op_bind, ih]

theorem bind_pure (p : Prog Op Ret α) : p.bind .pure = p := by
  induction p with
  | pure a => rfl
  | op o k ih => simp only [op_bind, ih]

/-- `f` at each element in turn. -/
def each (f : β → Prog Op Ret Unit) : List β → Prog Op Ret Unit
  | [] => .pure ()
  | x :: xs => (f x).bind fun _ => each f xs

theorem each_append (f : β → Prog Op Ret Unit) (xs ys : List β) :
    each f (xs ++ ys) = (each f xs).bind fun _ => each f ys := by
  induction xs with
  | nil => rfl
  | cons x xs ih =>
    show (f x).bind (fun _ => each f (xs ++ ys)) = _
    rw [ih, ← bind_assoc]
    rfl

theorem each_singleton (f : β → Prog Op Ret Unit) (x : β) : each f [x] = f x := bind_pure (f x)

/-- What may be left of a program. -/
inductive Rest (p : Prog Op Ret α) : Prog Op Ret α → Prop where
  | all : Rest p p
  | step {o : Op} {k : Ret o → Prog Op Ret α} (r : Ret o) : Rest p (.op o k) → Rest p (k r)

theorem Rest.of_lift {o : Op} {p : Prog Op Ret (Ret o)} (h : Rest (lift o) p) :
    p = lift o ∨ ∃ r, p = .pure r := by
  induction h with
  | all => exact Or.inl rfl
  | @step o' k r _ ih =>
    rcases ih with hk | ⟨r', hk⟩
    · obtain ⟨rfl, hk⟩ := Prog.op.inj hk
      cases hk
      exact Or.inr ⟨r, rfl⟩
    · cases hk

/-! ## Running a program on a state -/

/-- Run the program with `exec` for its operations, which may fail. -/
def run {S E : Type} (exec : (o : Op) → S → Except E (Ret o × S)) :
    Prog Op Ret α → S → Except E (α × S)
  | .pure a, s => .ok (a, s)
  | .op o k, s =>
    match exec o s with
    | .ok x => (k x.1).run exec x.2
    | .error e => .error e

theorem run_bind {S E : Type} (exec : (o : Op) → S → Except E (Ret o × S)) (p : Prog Op Ret α)
    (f : α → Prog Op Ret β) (s : S) :
    (p.bind f).run exec s = (p.run exec s).bind fun x => (f x.1).run exec x.2 := by
  induction p generalizing s with
  | pure a => rfl
  | op o k ih =>
    simp only [op_bind, run]
    cases exec o s with
    | ok x => exact ih x.1 x.2
    | error e => rfl

/-- The operations of a run in their order; one that fails is the last. -/
def trace {S E : Type} (exec : (o : Op) → S → Except E (Ret o × S)) :
    Prog Op Ret α → S → List Op
  | .pure _, _ => []
  | .op o k, s => o :: match exec o s with
    | .ok x => (k x.1).trace exec x.2
    | .error _ => []

theorem trace_bind {S E : Type} {exec : (o : Op) → S → Except E (Ret o × S)} {p : Prog Op Ret α}
    {f : α → Prog Op Ret β} {s : S} {x : α × S} (h : p.run exec s = .ok x) :
    (p.bind f).trace exec s = p.trace exec s ++ (f x.1).trace exec x.2 := by
  induction p generalizing s with
  | pure a =>
    cases h
    rfl
  | op o k ih =>
    simp only [run] at h
    simp only [op_bind, trace, List.cons_append]
    split at h
    · next y hy => rw [ih y.1 h]
    · cases h

/-! ## What holds at every operation -/

/-- `P` holds of every operation of the program, with what follows it. -/
def Forall (P : (o : Op) → (Ret o → Prog Op Ret α) → Prop) : Prog Op Ret α → Prop
  | .pure _ => True
  | .op o k => P o k ∧ ∀ r, (k r).Forall P

theorem Forall.mono {P P' : (o : Op) → (Ret o → Prog Op Ret α) → Prop} (h : ∀ o k, P o k → P' o k) :
    ∀ {p : Prog Op Ret α}, p.Forall P → p.Forall P'
  | .pure _, _ => trivial
  | .op o k, hp => ⟨h o k hp.1, fun r => Forall.mono h (hp.2 r)⟩

theorem Forall.bind {P : (o : Op) → (Ret o → Prog Op Ret α) → Prop}
    {P' : (o : Op) → (Ret o → Prog Op Ret β) → Prop} {f : α → Prog Op Ret β}
    (h : ∀ o k, P o k → P' o fun r => (k r).bind f) (hf : ∀ a, (f a).Forall P') :
    ∀ {p : Prog Op Ret α}, p.Forall P → (p.bind f).Forall P'
  | .pure a, _ => hf a
  | .op o k, hp => ⟨h o k hp.1, fun r => Forall.bind h hf (hp.2 r)⟩

end Prog

/-! ## Weakest preconditions -/

/-- What each operation asks of the state before it, given what must hold after it. -/
abbrev Rules (Op : Type) (Ret : Op → Type) (V : Type) : Type :=
  (o : Op) → (Ret o → V → Prop) → V → Prop

/-- Asking less of the state after an operation asks no more of the state before it. -/
def Rules.Mono {Op : Type} {Ret : Op → Type} {V : Type} (S : Rules Op Ret V) : Prop :=
  ∀ (o : Op) (Q Q' : Ret o → V → Prop) (v : V),
    (∀ r w, Q r w → Q' r w) → S o Q v → S o Q' v

section Wp
variable {Op : Type} {Ret : Op → Type} {α β V : Type} (S : Rules Op Ret V)

def wp : Prog Op Ret α → (α → V → Prop) → V → Prop
  | .pure a, Q => Q a
  | .op o k, Q => S o fun r => wp (k r) Q

@[simp] theorem wp_pure (a : α) (Q : α → V → Prop) : wp S (.pure a) Q = Q a := rfl

theorem wp_op (o : Op) (k : Ret o → Prog Op Ret α) (Q : α → V → Prop) :
    wp S (.op o k) Q = S o fun r => wp S (k r) Q := rfl

@[simp] theorem wp_lift (o : Op) (Q : Ret o → V → Prop) :
    wp S (Prog.lift o) Q = S o Q := rfl

/-- Sequencing: what `p` must reach is what the rest of the program needs. -/
theorem wp_bind (p : Prog Op Ret α) (f : α → Prog Op Ret β) (Q : β → V → Prop) :
    wp S (p.bind f) Q = wp S p fun a => wp S (f a) Q := by
  induction p with
  | pure a => rfl
  | op o k ih =>
    show S o (fun r => wp S ((k r).bind f) Q) = _
    simp only [ih]
    rfl

variable {S}

theorem wp_seq {p : Prog Op Ret α} {f : α → Prog Op Ret β} {Q : β → V → Prop} {v : V}
    (h : wp S p (fun a => wp S (f a) Q) v) : wp S (p >>= f) Q v := by
  rw [Prog.bind_eq, wp_bind]
  exact h

theorem wp_mono (hS : S.Mono) {p : Prog Op Ret α} {Q Q' : α → V → Prop} {v : V}
    (h : ∀ a w, Q a w → Q' a w) (hp : wp S p Q v) : wp S p Q' v := by
  induction p generalizing v with
  | pure a => exact h a v hp
  | op o k ih => exact hS o _ _ v (fun r w hr => ih r hr) hp

/-- The rule for a traversal: an invariant indexed by the elements that are left. -/
theorem wp_each (hS : S.Mono) {f : β → Prog Op Ret Unit} {Q : Unit → V → Prop}
    (I : List β → V → Prop)
    (hstep : ∀ x xs v, I (x :: xs) v → wp S (f x) (fun _ => I xs) v)
    (hend : ∀ v, I [] v → Q () v) :
    ∀ (xs : List β) (v : V), I xs v → wp S (Prog.each f xs) Q v
  | [], v, hv => hend v hv
  | x :: xs, v, hv => by
      rw [Prog.each, wp_bind]
      exact wp_mono hS (fun _ w hw => wp_each hS I hstep hend xs w hw) (hstep x xs v hv)

/-- The rule for a program made of operations of one kind: what each of them does to the state is in
the preorder `R`, and so is what the program does. -/
theorem wp_forall {P : Op → Prop} {R : V → V → Prop} (hrefl : ∀ v, R v v)
    (htrans : ∀ {u v w}, R u v → R v w → R u w)
    (hS : ∀ (o : Op) (Q : Ret o → V → Prop) (v : V), P o → (∀ r w, R v w → Q r w) → S o Q v) :
    ∀ {p : Prog Op Ret α} {Q : α → V → Prop} {v : V}, (p.Forall fun o _ => P o) →
      (∀ a w, R v w → Q a w) → wp S p Q v
  | .pure a, _, v, _, hQ => hQ a v (hrefl v)
  | .op o _, _, v, hp, hQ => hS o _ v hp.1 fun r _ hw =>
    wp_forall hrefl htrans hS (hp.2 r) fun a _ hw' => hQ a _ (htrans hw hw')

end Wp

/-! ## Weakest preconditions of a run -/

section Exec
variable {Op : Type} {Ret : Op → Type} {α S E : Type} {exec : (o : Op) → S → Except E (Ret o × S)}
  {err : E → Prop}

/-- What a run comes to: it ends in `Q`, or with an error of `err`. -/
def Ends (err : E → Prop) (Q : α → S → Prop) : Except E (α × S) → Prop
  | .ok x => Q x.1 x.2
  | .error e => err e

/-- The rules of a run in which only the errors of `err` may occur. -/
def Rules.ofExec (exec : (o : Op) → S → Except E (Ret o × S)) (err : E → Prop) : Rules Op Ret S :=
  fun o Q s => Ends err Q (exec o s)

theorem Rules.ofExec_mono : (Rules.ofExec exec err).Mono := by
  intro o Q Q' s h hQ
  unfold Rules.ofExec at hQ ⊢
  cases hx : exec o s with
  | ok x =>
    rw [hx] at hQ
    exact h x.1 x.2 hQ
  | error e =>
    rw [hx] at hQ
    exact hQ

/-- The weakest precondition of these rules says what the run comes to. -/
theorem wp_ofExec (p : Prog Op Ret α) (Q : α → S → Prop) (s : S) :
    wp (.ofExec exec err) p Q s ↔ Ends err Q (p.run exec s) := by
  induction p generalizing s with
  | pure a => exact Iff.rfl
  | op o k ih =>
    show Ends err (fun r => wp (.ofExec exec err) (k r) Q) (exec o s) ↔ _
    unfold Prog.run
    cases exec o s with
    | ok x => exact ih x.1 x.2
    | error e => exact Iff.rfl

end Exec

/-! ## Programs bound to come to an operation -/

section Within
variable {Op : Type} {Ret : Op → Type} {α : Type} {A : (o : Op) → Ret o → Prop} {P T : Op → Prop}

/-- Along the answers that `A` allows, the program comes to an operation of `T` while the budget
lasts; the operations before it are all in `P`. -/
def Rules.within (A : (o : Op) → Ret o → Prop) (P T : Op → Prop) : Rules Op Ret ℕ :=
  fun o Q n => T o ∨ ∃ m, n = m + 1 ∧ P o ∧ ∀ r, A o r → Q r m

theorem Rules.within_mono : (Rules.within A P T).Mono := by
  intro o Q Q' n h hQ
  rcases hQ with ht | ⟨m, hm, hp, hr⟩
  · exact Or.inl ht
  · exact Or.inr ⟨m, hm, hp, fun r ha => h r m (hr r ha)⟩

theorem wp_within_step {o : Op} {k : Ret o → Prog Op Ret α} {Q : α → ℕ → Prop} {n : ℕ}
    (hp : P o) (h : ∀ r, A o r → wp (.within A P T) (k r) Q n) :
    wp (.within A P T) (.op o k) Q (n + 1) := Or.inr ⟨n, rfl, hp, h⟩

end Within

end GQuuuuuunix.Lib
