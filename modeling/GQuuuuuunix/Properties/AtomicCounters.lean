import Mathlib.Data.BitVec
import Mathlib.Algebra.BigOperators.Group.Finset.Piecewise
import Mathlib.Tactic.LinearCombination
import GQuuuuuunix.Proof.Objects

/-! # Counters do not conserve: ATOMIC_FETCH_SUB adds

The three functions behind `ATOMIC_FETCH_SUB` execute `amoadd` on `val` as it is, where a
subtraction needs `-val`. -/

namespace GQuuuuuunix.Properties
open Lib Kernel Proof
set_option autoImplicit false

/-! ## The calls on one counter -/

/-- `ATOMIC_FETCH_ADD(p, val)`, or `ATOMIC_FETCH_SUB(p, val)`. -/
inductive FetchCall (ty : AtomicTy) where
  | add (val : ty.Val)
  | sub (val : ty.Val)

namespace FetchCall
variable {ty : AtomicTy}

def call (a : ℕ) : FetchCall ty → AtomicCall
  | .add val => .fetch_add ty a val
  | .sub val => .fetch_sub ty a val

def val : FetchCall ty → ty.Val
  | .add val | .sub val => val

def added : FetchCall ty → ty.Val
  | .add val => val
  | .sub _ => 0

def subtracted : FetchCall ty → ty.Val
  | .add _ => 0
  | .sub val => val

theorem added_add_subtracted (f : FetchCall ty) : f.added + f.subtracted = f.val := by
  cases f with
  | add val => exact add_zero val
  | sub val => exact zero_add val

end FetchCall

variable {L : Layout} {n a : ℕ} {w : ℕ → U64} {ty : AtomicTy} {cs : ℕ → List (FetchCall ty)}
  {σ σ' : State} {tr : Trace}

/-- The machine with `n` harts that make the calls `cs` on the object `a`. -/
abbrev counters (L : Layout) (n : ℕ) (w : ℕ → U64) (a : ℕ) (cs : ℕ → List (FetchCall ty)) :
    System State Event := atomicCalls L n w fun h => (cs h).map (FetchCall.call a)

/-- The sum of `f` over all calls. -/
def total (n : ℕ) (cs : ℕ → List (FetchCall ty)) (f : FetchCall ty → ty.Val) : ty.Val :=
  ∑ h ∈ Finset.range n, ((cs h).map f).sum

/-- Every hart has made all its calls. -/
def Finished (n : ℕ) (σ : State) : Prop := ∀ h < n, (σ.harts h).code = .pure ()

/-- The last two writes of the object `a` are a `fetch_add(x)`, in the state `σ₁`, and then a
`fetch_sub(x)`, just now. -/
def AddSub (a : ℕ) (ty : AtomicTy) (x : ty.Val) (σ₁ : State) (tr : Trace) : Prop :=
  ∃ g h e y mid pre, tr = y :: mid ++ (σ₁, e) :: pre ∧
    Updates a g (.fetch_add ty a x) pre (σ₁, e) ∧
    Updates a h (.fetch_sub ty a x) (mid ++ (σ₁, e) :: pre) y ∧ ∀ z ∈ mid, writesObj a z = false

/-- A run in which the counter behaves: it ends with what was added less what was subtracted, every
call returns what was there before its update, and a `fetch_sub` undoes a `fetch_add`. -/
structure Conserves (n : ℕ) (w : ℕ → U64) (a : ℕ) (cs : ℕ → List (FetchCall ty)) (tr : Trace)
    (σ : State) : Prop where
  final : Finished n σ → σ.val ty a =
    ty.ofWord (w a) + total n cs FetchCall.added - total n cs FetchCall.subtracted
  returns : ∀ h < n, ∀ e a0, performed (σ, e) = some (h, .point (.returned a0)) →
    ∃ y pre, LastDone (stepped h) tr y pre ∧ writesObj a y = true ∧ a0 = ty.toReg (y.1.val ty a)
  restores : ∀ x σ₁, AddSub a ty x σ₁ tr → σ.val ty a = σ₁.val ty a

/-! ## What the calls add -/

theorem ofReg_add (x y : U64) : ty.ofReg (x + y) = ty.ofReg x + ty.ofReg y := by
  cases ty with
  | atomic_int_t => exact BitVec.setWidth_add x y (by decide)
  | _ => rfl

/-- What a call adds to the object. -/
def amount (ty : AtomicTy) (c : AtomicCall) : ty.Val :=
  match AtomicCall.insn c with
  | some (.amo .add _ _ x) => ty.ofReg x
  | _ => 0

theorem amount_call (f : FetchCall ty) : amount ty (f.call a) = f.val := by
  cases f <;> exact ofReg_toReg _

theorem next_fetch {f : FetchCall ty} {l : List Done} {i : AtomicInsn}
    (hi : AtomicCall.Next (f.call a) l i) :
    l = [] ∧ i = .amo .add ty.width a (ty.toReg f.val) := by
  cases f <;> exact ⟨hi.1, (Option.some.inj hi.2).symm⟩

theorem ends_fetch {f : FetchCall ty} {l : List Done} {a0 : U64}
    (hl : AtomicCall.Ends (f.call a) l a0) :
    ∃ r, l = [(.amo .add ty.width a (ty.toReg f.val), r)] ∧ a0 = ty.toReg (ty.ofReg r) := by
  cases f <;>
  · obtain ⟨i, r, hi, rfl, rfl⟩ := hl
    cases hi
    exact ⟨r, rfl, rfl⟩

/-- What a hart has added: in the calls it has ended, and in the call it is in once it is past the
update. -/
def contributed (ty : AtomicTy) (v : ObjView) : ty.Val :=
  (v.ended.map (amount ty)).sum + if v.insns = [] then 0 else v.call.elim 0 (amount ty)

section
variable {v : ObjView} {c : AtomicCall}

theorem contributed_begins (hc : v.call = none) :
    contributed ty (v.see (.begins c)) = contributed ty v := by
  unfold contributed
  rw [hc]
  simp [ObjView.see]

theorem contributed_insn {i : AtomicInsn} {r : U64} (hc : v.call = some c) (hl : v.insns = []) :
    contributed ty (v.see (.insn i r)) = contributed ty v + amount ty c := by
  unfold contributed
  rw [hl]
  simp [ObjView.see, hc]

theorem contributed_ends (hc : v.call = some c) (hl : v.insns ≠ []) :
    contributed ty (v.see (.ends c)) = contributed ty v := by
  unfold contributed
  rw [hc, if_neg hl]
  simp [ObjView.see, add_comm]

end

/-- The calls on the counter. -/
abbrev OnCounter (ty : AtomicTy) (a : ℕ) (c : AtomicCall) : Prop := ∃ f : FetchCall ty, c = f.call a

theorem mem_onCounter (cs : ℕ → List (FetchCall ty)) :
    ∀ h < n, ∀ c ∈ (cs h).map (FetchCall.call a), OnCounter ty a c := by
  intro h _ c hc
  obtain ⟨f, _, rfl⟩ := List.mem_map.1 hc
  exact ⟨f, rfl⟩

theorem counterCaller (hr : Run (counters L n w a cs) tr σ) {h : ℕ} (hh : h < n) :
    AtomicCaller (OnCounter ty a) tr ((cs h).map (FetchCall.call a)) h (σ.harts h) :=
  atomicCallers (mem_onCounter cs) hr hh

/-- The call that the instruction is performed in. -/
theorem insn_call {h : ℕ} {l : List AtomicCall}
    (hx : AtomicCaller (OnCounter ty a) tr l h (σ.harts h)) {i : AtomicInsn}
    (hn : σ.next h = some (.atomic i)) : ∃ f : FetchCall ty,
      (viewBy (stepped h) tr).call = some (f.call a) ∧ (viewBy (stepped h) tr).insns = [] ∧
      i = .amo .add ty.width a (ty.toReg f.val) := by
  obtain ⟨_, c, hc, hnext⟩ := hx.pre hn
  obtain ⟨f, rfl⟩ := hx.mine c hc
  obtain ⟨hl, hi⟩ := next_fetch hnext
  exact ⟨f, hc, hl, hi⟩

/-- An update adds to the object what the call is for. -/
theorem val_update {h : ℕ} {fail : Bool} {v : ty.Val}
    (hn : σ.next h = some (.atomic (.amo .add ty.width a (ty.toReg v))))
    (hs : σ.step L n (.hart h fail) = some σ') : σ'.val ty a = σ.val ty a + v := by
  have hobj := step_objs (a := a) hs
  rw [objEvent_next hn] at hobj
  show ty.ofWord (σ'.objs a) = ty.ofWord (σ.objs a) + v
  have hw : σ'.objs a = ty.width.write (σ.objs a) (ty.width.read (σ.objs a) + ty.toReg v) :=
    hobj.trans (if_pos rfl)
  rw [hw, ofWord_write, ofReg_add, ofReg_toReg]
  rfl

/-- What one event makes of what its hart has added, and of the object. -/
theorem step_contributed {h : ℕ} {l : List AtomicCall} {fail : Bool}
    (hx : AtomicCaller (OnCounter ty a) tr l h (σ.harts h))
    (hs : σ.step L n (.hart h fail) = some σ') : ∃ d : ty.Val,
      contributed ty (viewBy (stepped h) ((σ, .hart h fail) :: tr)) =
        contributed ty (viewBy (stepped h) tr) + d ∧ σ'.val ty a = σ.val ty a + d := by
  have hp : stepped h (σ, .hart h fail) = true := beq_self_eq_true h
  have hsame : (∀ i r, objEvent (σ, .hart h fail) ≠ some (.insn i r)) →
      σ'.val ty a = σ.val ty a + 0 := by
    intro hev
    rw [add_zero]
    show ty.ofWord (σ'.objs a) = _
    rw [step_objs hs]
    unfold objAfter
    split
    · next heq => exact absurd heq (hev _ _)
    · next heq => exact absurd heq (hev _ _)
    · rfl
  cases hev : objEvent (σ, .hart h fail) with
  | none =>
    refine ⟨0, ?_, hsame fun i r => by rw [hev]; simp⟩
    rw [viewBy_skip fun _ => hev, add_zero]
  | some ev =>
    obtain ⟨_, _, _, o, heq, hn, ho⟩ := objEvent_some hev
    cases heq
    rw [viewBy_see hp hev]
    unfold State.objEvent at ho
    split at ho <;> cases ho
    · refine ⟨0, ?_, hsame fun i r => by rw [hev]; simp⟩
      rw [add_zero]
      exact contributed_begins (hx.pre hn).1
    · obtain ⟨f, hc, hl, rfl⟩ := insn_call hx hn
      refine ⟨f.val, ?_, val_update hn hs⟩
      rw [contributed_insn hc hl, amount_call]
    · refine ⟨0, ?_, hsame fun i r => by rw [hev]; simp⟩
      obtain ⟨hc, a0, hends⟩ := hx.pre hn
      obtain ⟨f, rfl⟩ := hx.mine _ hc
      obtain ⟨r, hl, _⟩ := ends_fetch hends
      rw [add_zero]
      exact contributed_ends hc (by rw [show (viewBy (stepped h) tr).insns = _ from hl]; simp)

theorem contributed_sum (hr : Run (counters L n w a cs) tr σ) : σ.val ty a = ty.ofWord (w a) +
    ∑ h ∈ Finset.range n, contributed ty (viewBy (stepped h) tr) := by
  induction hr with
  | init hi =>
    have hz : ∀ h ∈ Finset.range n, contributed ty (viewBy (stepped h) []) = 0 := fun h _ => rfl
    rw [Finset.sum_eq_zero hz, add_zero, State.val, hi.objs]
  | @step tr σ σ' e hr hs ih =>
    cases e with
    | timer g => cases hs
    | compute g r pc =>
      have hv : ∀ h, viewBy (stepped h) ((σ, .compute g r pc) :: tr) = viewBy (stepped h) tr :=
        fun h => viewBy_skip fun hp => by cases hp
      have hval : σ'.val ty a = σ.val ty a := by
        rw [State.val, step_objs (show State.step L n σ (.compute g r pc) = some σ' from hs)]
        rfl
      simp only [hv, hval, ih]
    | hart g fail =>
      have hgn : g < n := by
        by_contra hgn
        simp only [atomicCalls, State.step, if_neg hgn] at hs
        cases hs
      obtain ⟨d, hd, hval⟩ := step_contributed (counterCaller hr hgn) (L := L) hs
      have hother : ∀ h ∈ Finset.range n, contributed ty (viewBy (stepped h) ((σ, .hart g fail) ::
          tr)) = contributed ty (viewBy (stepped h) tr) + if h = g then d else 0 := by
        intro h _
        by_cases hg : h = g
        · subst hg
          rw [if_pos rfl, hd]
        · have hv : viewBy (stepped h) ((σ, .hart g fail) :: tr) = viewBy (stepped h) tr :=
            viewBy_skip fun hp => absurd (beq_iff_eq.1 hp).symm hg
          rw [hv, if_neg hg, add_zero]
      rw [Finset.sum_congr rfl hother, Finset.sum_add_distrib, Finset.sum_ite_eq',
        if_pos (Finset.mem_range.2 hgn), hval, ih, add_assoc]

theorem sum_amount (l : List (FetchCall ty)) : ((l.map (FetchCall.call a)).map (amount ty)).sum =
    (l.map FetchCall.added).sum + (l.map FetchCall.subtracted).sum := by
  induction l with
  | nil => exact (add_zero 0).symm
  | cons f l ih =>
    simp only [List.map_cons, List.sum_cons, ih, amount_call, ← FetchCall.added_add_subtracted]
    exact add_add_add_comm _ _ _ _

/-- What a run comes to: everything is added. -/
theorem final_val (hr : Run (counters L n w a cs) tr σ) (hf : Finished n σ) : σ.val ty a =
    ty.ofWord (w a) + total n cs FetchCall.added + total n cs FetchCall.subtracted := by
  have hone : ∀ h ∈ Finset.range n, contributed ty (viewBy (stepped h) tr) =
      ((cs h).map FetchCall.added).sum + ((cs h).map FetchCall.subtracted).sum := by
    intro h hh
    have hx := (counterCaller hr (Finset.mem_range.1 hh)).calls
    rw [hf h (Finset.mem_range.1 hh)] at hx
    obtain ⟨hended, hl⟩ := hx
    unfold contributed
    rw [if_pos hl, add_zero, ← sum_amount (a := a), ← hended, List.map_reverse, List.sum_reverse]
  rw [contributed_sum hr, Finset.sum_congr rfl hone, Finset.sum_add_distrib, add_assoc]
  rfl

/-! ## What a call returns -/

theorem returned_val (hr : Run (counters L n w a cs) tr σ) {h : ℕ} (hh : h < n) {e : Event}
    {a0 : U64} (hp : performed (σ, e) = some (h, .point (.returned a0))) : ∃ y pre,
      LastDone (stepped h) tr y pre ∧ writesObj a y = true ∧ a0 = ty.toReg (y.1.val ty a) := by
  have hn := performed_next hp
  have hx := counterCaller hr hh
  obtain ⟨c, hc, hends⟩ := hx.pre hn
  obtain ⟨f, rfl⟩ := hx.mine c hc
  obtain ⟨r, hl, rfl⟩ := ends_fetch hends
  obtain ⟨y, pre, hy, hev, -, -⟩ := viewBy_insns hl
  refine ⟨y, pre, hy, ?_, ?_⟩
  · rw [writesObj, hev]
    exact beq_self_eq_true a
  · -- the register holds what the object held
    obtain ⟨σ₁, g, fail, o, rfl, -, ho⟩ := objEvent_some hev
    unfold State.objEvent at ho
    split at ho <;> cases ho
    rfl

/-! ## Two updates in a row -/

theorem updates_val (hr : Run (counters L n w a cs) tr σ) {h : ℕ} {e : Event} {f : FetchCall ty}
    (hu : Updates a h (f.call a) tr (σ, e)) (hs : (counters L n w a cs).step σ e = some σ') :
    σ'.val ty a = σ.val ty a + f.val := by
  obtain ⟨fail, i, r, rfl, -, hn, hnext, -⟩ := updates_next (mem_onCounter cs) hr hu hs
  obtain ⟨-, rfl⟩ := next_fetch hnext
  exact val_update hn (atomicCalls_step hs)

theorem addSub_val (hr : Run (counters L n w a cs) tr σ) {x : ty.Val} {σ₁ : State}
    (hx : AddSub a ty x σ₁ tr) : σ.val ty a = σ₁.val ty a + (x + x) := by
  obtain ⟨g, h, e, ⟨σ₂, e₂⟩, mid, pre, rfl, hadd, hsub, hmid⟩ := hx
  cases hr with
  | step hr₂ hs₂ =>
    obtain ⟨σ', hs₁⟩ := hr₂.moved
    have hval : σ₂.val ty a = σ'.val ty a :=
      congrArg ty.ofWord (objs_between (x := (σ₁, e)) hs₁ hr₂ hmid)
    rw [updates_val (f := .sub x) hr₂ hsub hs₂, hval, updates_val (f := .add x) hr₂.past hadd hs₁,
      add_assoc]
    rfl

/-! ## When the counter behaves -/

/-- A run conserves the counter exactly when twice the subtracted amounts come to nothing, over all
calls where every hart has made them, and over each `fetch_sub` right after its `fetch_add`. -/
theorem counters_conserve_iff (hr : Run (counters L n w a cs) tr σ) : Conserves n w a cs tr σ ↔
    (Finished n σ → total n cs FetchCall.subtracted + total n cs FetchCall.subtracted = 0) ∧
      ∀ x σ₁, AddSub a ty x σ₁ tr → x + x = 0 := by
  constructor
  · intro hC
    refine ⟨fun hf => ?_, fun x σ₁ hx => ?_⟩
    · have h := (final_val hr hf).symm.trans (hC.final hf)
      linear_combination h
    · have h := (addSub_val hr hx).symm.trans (hC.restores x σ₁ hx)
      linear_combination h
  · rintro ⟨hfinal, hadd⟩
    refine ⟨fun hf => ?_, fun h hh e a0 hp => returned_val hr hh hp, fun x σ₁ hx => ?_⟩
    · rw [final_val hr hf]
      linear_combination hfinal hf
    · rw [addSub_val hr hx, hadd x σ₁ hx, add_zero]

/-- One hart takes 3 off. -/
def takeOff : ℕ → List (FetchCall .atomic_ulong_t) := fun _ => [.sub 3]

/-- Hart 0 has made its calls, and the object 0 has become 8. -/
def becameEight (σ : State) : Bool :=
  match (σ.harts 0).code with
  | .pure () => σ.objs 0 == 8
  | _ => false

theorem finished_of_eight (hσ : becameEight σ = true) : Finished 1 σ ∧ σ.objs 0 = 8 := by
  unfold becameEight at hσ
  split at hσ
  · next hcode =>
    refine ⟨fun h hh => ?_, beq_iff_eq.1 hσ⟩
    obtain rfl : h = 0 := by omega
    exact hcode
  · cases hσ

/-- From 5 it comes to 8. -/
theorem takeOff_run : ∃ tr σ, Run (counters .sample 1 (fun _ => 5) 0 takeOff) tr σ ∧
    Finished 1 σ ∧ σ.objs 0 = 8 := by
  obtain ⟨tr, σ, hr, hσ⟩ := Run.of_perform (M := counters .sample 1 (fun _ => 5) 0 takeOff)
    (State.startCalls_atomics 1 _ _) (List.replicate 21 (.hart 0 false))
    (P := fun x => becameEight x.2) (by decide +kernel)
  exact ⟨tr, σ, hr, finished_of_eight hσ⟩

theorem counters_conserve_not : ¬ ∀ (ty : AtomicTy) (L : Layout) (n a : ℕ) (w : ℕ → U64)
    (cs : ℕ → List (FetchCall ty)) (tr : Trace) (σ : State),
    Run (counters L n w a cs) tr σ → Conserves n w a cs tr σ := by
  intro hall
  obtain ⟨tr, σ, hr, hf, hσ⟩ := takeOff_run
  have hv := (hall .atomic_ulong_t _ _ _ _ _ _ _ hr).final hf
  rw [State.val, hσ] at hv
  exact absurd hv (by decide)

/-! ## Two harts that add and take off -/

/-- A `fetch_sub` right after a `fetch_add` subtracts what one of the calls does. -/
theorem addSub_called (hr : Run (counters L n w a cs) tr σ) {P : ty.Val → Prop}
    (hP : ∀ h < n, ∀ x, FetchCall.sub x ∈ cs h → P x) (x : ty.Val) (σ₁ : State)
    (hx : AddSub a ty x σ₁ tr) : P x := by
  obtain ⟨g, h, e, ⟨σ₂, e₂⟩, mid, pre, rfl, -, hsub, -⟩ := hx
  have hC : ∀ h < n, ∀ c ∈ (cs h).map (FetchCall.call a), ∀ y, c = .fetch_sub ty a y → P y := by
    rintro h hh c hc y rfl
    obtain ⟨f, hf, hcall⟩ := List.mem_map.1 hc
    cases f with
    | add val => cases hcall
    | sub val =>
      cases hcall
      exact hP h hh y hf
  cases hr with
  | step hr₂ hs₂ =>
    obtain ⟨_, _, _, -, hcalled, -⟩ := updates_next hC hr₂ hsub hs₂
    exact hcalled x rfl

/-- Hart 0 adds 3 and `x`, and hart 1 takes `x` off. -/
def addTake (x : U64) : ℕ → List (FetchCall .atomic_ulong_t)
  | 0 => [.add 3, .add x]
  | 1 => [.sub x]
  | _ => []

abbrev addTakes (x : U64) : System State Event := counters .sample 2 (fun _ => 5) 0 (addTake x)

def pureCode (σ : State) (h : ℕ) : Bool :=
  match (σ.harts h).code with
  | .pure () => true
  | _ => false

theorem finished_of_pureCode (h0 : pureCode σ 0 = true) (h1 : pureCode σ 1 = true) :
    Finished 2 σ := by
  have hpure : ∀ h, pureCode σ h = true → (σ.harts h).code = .pure () := by
    intro h hb
    unfold pureCode at hb
    split at hb
    · next hcode => exact hcode
    · cases hb
  intro h hh
  obtain rfl | rfl : h = 0 ∨ h = 1 := by omega
  · exact hpure 0 h0
  · exact hpure 1 h1

/-- Hart 1 makes its call while hart 0 is in its first. -/
def oneInOther : List Event :=
  List.replicate 8 (.hart 0 false) ++ List.replicate 21 (.hart 1 false) ++
    List.replicate 34 (.hart 0 false)

theorem addTake_run {x : U64} {σ₀ : State} (h0 : (addTakes x).init σ₀)
    (hx : (perform (addTakes x) oneInOther ([], σ₀)).any
      (fun y => pureCode y.2 0 && pureCode y.2 1) = true) :
    ∃ tr σ, Run (addTakes x) tr σ ∧ Finished 2 σ := by
  obtain ⟨tr, σ, hr, hp⟩ := Run.of_perform (M := addTakes x) h0 oneInOther hx
  obtain ⟨h0, h1⟩ := (Bool.and_eq_true _ _).mp hp
  exact ⟨tr, σ, hr, finished_of_pureCode h0 h1⟩

/-- Twice `2^63` is nothing, and twice 1 is not. -/
theorem counters_conserve_iff_addTake : ∃ tr σ tr' σ',
    Run (addTakes (2 ^ 63)) tr σ ∧ Finished 2 σ ∧
      Conserves 2 (fun _ => 5) 0 (addTake (2 ^ 63)) tr σ ∧
    Run (addTakes 1) tr' σ' ∧ Finished 2 σ' ∧
      ¬ Conserves 2 (fun _ => 5) 0 (addTake 1) tr' σ' := by
  obtain ⟨tr, σ, hr, hf⟩ := addTake_run (x := 2 ^ 63) (State.startCalls_atomics 2 _ _)
    (by decide +kernel)
  obtain ⟨tr', σ', hr', hf'⟩ := addTake_run (x := 1) (State.startCalls_atomics 2 _ _)
    (by decide +kernel)
  have hsub : ∀ h < 2, ∀ x, FetchCall.sub x ∈ addTake (2 ^ 63) h → x + x = 0 := by
    intro h hh x hx
    obtain rfl | rfl : h = 0 ∨ h = 1 := by omega
    · simp [addTake] at hx
    · obtain rfl : x = 2 ^ 63 := by simpa [addTake] using hx
      decide +kernel
  refine ⟨tr, σ, tr', σ', hr, hf, (counters_conserve_iff hr).2 ⟨fun _ => by decide +kernel, ?_⟩,
    hr', hf', fun hC => ?_⟩
  · exact addSub_called hr hsub
  · exact absurd (((counters_conserve_iff hr').1 hC).1 hf') (by decide)

end GQuuuuuunix.Properties
