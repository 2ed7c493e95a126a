import GQuuuuuunix.Kernel.AtomicCalls

/-! # Tasks that call functions of the kernel

`dummy_task` prints and nothing else. Here a task may also make a call of its own each time it
comes to the top of its loop, whichever call and whenever, or store to an atomic object. The rest
of the machine is as it was: traps come, tasks yield, go on elsewhere and are started. -/

namespace GQuuuuuunix.Kernel
open Lib
set_option autoImplicit false

variable {κ : Type}

inductive ClientEvent (κ : Type) where
  | kernel (e : Event)
  /-- The task on hart `h`, at the top of its loop, makes the call `c`. -/
  | call (h : ℕ) (c : κ)
  /-- The task on hart `h`, at the top of its loop, stores `x` in the object `a`. -/
  | store (h : ℕ) (sz : Width) (a : ℕ) (x : U64)

/-- The program `p` comes before the next round of the task on hart `h`. -/
def State.before (σ : State) (h : ℕ) (p : KProg Unit) : Option State :=
  match (σ.harts h).code with
  | .op (.loop .dummy_task) f => some (σ.goto h (p.bind fun _ => .op (.loop .dummy_task) f))
  | _ => none

/-- The task on hart `h` is at the top of its loop. -/
def State.atTop (σ : State) (h : ℕ) : Bool :=
  match (σ.harts h).code with
  | .op (.loop .dummy_task) _ => true
  | _ => false

/-- The kernel with tasks that make the calls `prog`. -/
def clients (cfg : Config) (prog : κ → KProg Unit) : System State (ClientEvent κ) where
  init := State.Booting cfg
  step σ
    | .kernel e => σ.step cfg.layout cfg.harts e
    | .call h c => if h < cfg.harts then σ.before h (prog c) else none
    | .store h sz a x => if h < cfg.harts ∧ σ.atTop h then some (σ.writeObj h sz a x) else none

/-- The steps of the harts in a run. -/
def kernelTrace (tr : History State (ClientEvent κ)) : Trace :=
  tr.filterMap fun x =>
    match x.2 with
    | .kernel e => some (x.1, e)
    | _ => none

/-- A hart made a step of its own on the stack of task `t`. -/
def byTask (L : Layout) (t : Fin TASK_MAX_NRS) : State × Event → Bool
  | (σ, .hart h _) => L.stackOf ((σ.harts h).regs .sp) == some (.task t)
  | _ => false

/-! ## What happened in a call -/

/-- An instruction on an atomic object, with what it left in its register. -/
def insnBy (p : State × Event → Bool) (x : State × Event) : Option (AtomicInsn × U64) :=
  if p x then
    match objEvent x with
    | some (.insn i r) => some (i, r)
    | _ => none
  else none

/-- Those that `p` selects are in the call `c`; `since` is what happened since it began. -/
def CallSince (p : State × Event → Bool) (c : AtomicCall) (tr since : Trace) : Prop :=
  ∃ b pre, tr = since ++ b :: pre ∧ p b = true ∧ objEvent b = some (.begins c) ∧
    ∀ z ∈ since, callTurn p z = none

/-- In what happened since a call began, there is one instant at which the call read the object `a`
and, if that was `expected`, changed it to `desired`; it did nothing to any object at any other
time, and returns what it read. -/
def ExchangedOnce (L : Layout) (n : ℕ) (p : State × Event → Bool) (ty : AtomicTy) (a : ℕ)
    (expected desired : ty.Val) (since : Trace) (a0 : U64) : Prop :=
  ∃ post σ e pre, since = post ++ (σ, e) :: pre ∧ p (σ, e) = true ∧ a0 = ty.toReg (σ.val ty a) ∧
    (∃ σ', σ.step L n e = some σ' ∧
      (σ.val ty a = expected → σ'.val ty a = desired ∧ ∀ b ≠ a, σ'.objs b = σ.objs b) ∧
      (σ.val ty a ≠ expected → σ'.objs = σ.objs)) ∧
    ∀ z ∈ post ++ pre, p z = true → ∃ σ', z.1.step L n z.2 = some σ' ∧ σ'.objs = z.1.objs

end GQuuuuuunix.Kernel
