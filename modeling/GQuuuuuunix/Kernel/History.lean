import GQuuuuuunix.Kernel.Machine

/-! # What happened in a run

Functions of the history of a run: who performed what, how often, and who did it last. -/

namespace GQuuuuuunix.Kernel
open Lib
set_option autoImplicit false

abbrev Trace := History State Event

/-- The operation hart `h` performs next, if no interrupt comes first. -/
def State.next (σ : State) (h : ℕ) : Option Op :=
  if (σ.harts h).interrupted then none
  else
    match (σ.harts h).code with
    | .op o _ => some o
    | .pure _ => none

/-- The operation that was performed, with its hart. -/
def performed : State × Event → Option (ℕ × Op)
  | (σ, .hart h _) => (σ.next h).map fun o => (h, o)
  | _ => none

/-- Hart `h` made a step of its own. -/
def stepped (h : ℕ) : State × Event → Bool
  | (_, .hart h' _) => h' == h
  | _ => false

/-- Hart `h` took its interrupt. -/
def trapped (h : ℕ) : State × Event → Bool
  | (σ, .hart h' _) => h' == h && (σ.harts h').interrupted
  | _ => false

/-- The machine timer interrupted hart `h`. -/
def fired (h : ℕ) : State × Event → Bool
  | (_, .timer h') => h' == h
  | _ => false

/-- A program with the registers of `s`, and `c` left to run, was interrupted. -/
def Interrupted (s : Snapshot) (c : Code) : State × Event → Prop
  | (σ, .hart h _) =>
    (σ.harts h).interrupted = true ∧ (σ.harts h).snapshot = s ∧ (σ.harts h).code = c
  | _ => False

/-- An `sc` of hart `h` that would succeed. -/
def State.sc_succeeds (σ : State) (h : ℕ) (fail : Bool) (c : Cell) : Bool :=
  decide (σ.resv h = some c) && !fail

/-- The `ATOMIC_STORE` of hart 0 opens the barrier. -/
def opensBarrier : State × Event → Bool
  | (σ, .hart 0 fail) =>
    match σ.next 0 with
    | some (.sc .start _) => σ.sc_succeeds 0 fail .start
    | _ => false
  | _ => false

/-! ## Locks -/

/-- Hart `h` took the lock `p` with a `TEST_SET` that found it free, or cleared it. -/
def lockTurn (h : ℕ) (p : TaskPtr) : State × Event → Option Bool
  | (σ, .hart h' fail) =>
    if h' = h then
      match σ.next h with
      | some (.amoswap c _) =>
        if c = .isLocked p ∧ σ.mem (.cell c) = (0 : I32) then some true else none
      | some (.sc c _) =>
        if c = .isLocked p ∧ σ.sc_succeeds h fail c = true then some false else none
      | _ => none
    else none
  | _ => none

/-- Hart `h` is between its successful `TEST_SET` of the lock `p` and the store that clears it. -/
def hasTaken (h : ℕ) (p : TaskPtr) (tr : Trace) : Bool := (tr.findSome? (lockTurn h p)).getD false

/-! ## The software interrupt -/

/-- Hart `h` entered the software-interrupt case of `kernel_trap_handler`. -/
def entered (h : ℕ) (x : State × Event) : Bool :=
  match performed x with
  | some (h', .point .software_interrupt) => h' == h
  | _ => false

/-- Hart `h` took its interrupt, or acknowledged it with `w_sip`. -/
def interruptTurn (h : ℕ) (x : State × Event) : Option Bool :=
  if trapped h x then some true
  else
    match performed x with
    | some (h', .w_sip _) => if h' = h then some false else none
    | _ => none

/-- Hart `h` took an interrupt and has executed no `w_sip` since. -/
def unacked (h : ℕ) (tr : Trace) : Bool := (tr.findSome? (interruptTurn h)).getD false

/-- The hart on which the innermost handler invocation among the calls was entered. -/
def entryHart (fs : List Fn) : Option ℕ :=
  fs.findSome? fun
    | .kernelvec c => some c
    | _ => none

/-- `P` happened, and the software interrupt of hart `h` has been pending ever since. -/
def whilePending (h : ℕ) (P : State × Event → Prop) : Trace → Prop
  | [] => False
  | x :: tr => (x.1.harts h).ssip = true ∧ (P x ∨ whilePending h P tr)

/-! ## The reads of the clock -/

/-- Hart `h` read `time.data`. -/
def readsTime (h : ℕ) (x : State × Event) : Bool :=
  match performed x with
  | some (h', .load .time_data) => h' == h
  | _ => false

/-- What happened since hart `h` last entered the software-interrupt case. -/
def sinceEntry (h : ℕ) (tr : Trace) : Trace := tr.takeWhile fun x => !entered h x

/-- How often hart `h` has read `time.data` since then. -/
def readsSince (h : ℕ) (tr : Trace) : ℕ := (sinceEntry h tr).countP (readsTime h)

/-- `time.data` held `d` at a moment from the first to the last read of it by hart `h` since the
hart entered the software-interrupt case. -/
def HeldWhileRead (h : ℕ) (d : U64) (tr : Trace) : Prop :=
  ∃ post x pre, sinceEntry h tr = post ++ x :: pre ∧ x.1.mem .time_data = d ∧
    (∃ y ∈ x :: pre, readsTime h y = true) ∧ ∃ y ∈ x :: post, readsTime h y = true

/-! ## Contexts -/

/-- What `switch_to`, called by `sched` for task `t`, is given to save. -/
def switchOut (L : Layout) (t : Fin TASK_MAX_NRS) (x : State × Event) :
    Option (CtxWord → U64) :=
  match performed x with
  | some (h, .call_switch_to .sched (.task (.gTasks t')) _) =>
    if t' = t then some (ctxOf (Function.update (x.1.harts h).regs .ra (L.switch_ret .sched)))
    else none
  | _ => none

/-- What the last switch-out of task `t`, on any hart, was given to save. -/
def switchedOut (L : Layout) (t : Fin TASK_MAX_NRS) (tr : Trace) : Option (CtxWord → U64) :=
  tr.findSome? (switchOut L t)

/-- The hart that switched task `t` out. -/
def switchOutHart (t : Fin TASK_MAX_NRS) (x : State × Event) : Option ℕ :=
  match performed x with
  | some (h, .call_switch_to .sched (.task (.gTasks t')) _) => if t' = t then some h else none
  | _ => none

/-- The hart on which task `t` was last switched out. -/
def switchedOutOn (t : Fin TASK_MAX_NRS) (tr : Trace) : Option ℕ :=
  tr.findSome? (switchOutHart t)

/-- Hart `h` went on with a task in the middle of the handler, or executed `w_sip`. -/
def resumeTurn (L : Layout) (h : ℕ) (x : State × Event) : Option Bool :=
  match performed x with
  | some (h', .ret _ (.task _)) =>
    if h' = h ∧ (x.1.harts h).regs .ra ≠ L.dummy_task then some true else none
  | some (h', .w_sip _) => if h' = h then some false else none
  | _ => none

/-- Hart `h` has gone on with a preempted handler invocation, and executed no `w_sip` since. -/
def goesOn (L : Layout) (h : ℕ) (tr : Trace) : Bool :=
  (tr.findSome? (resumeTurn L h)).getD false

/-- The task that a scheduler dispatched. -/
def dispatch (x : State × Event) : Option (Fin TASK_MAX_NRS) :=
  match performed x with
  | some (_, .call_switch_to .scheduler _ (.task (.gTasks t))) => some t
  | _ => none

/-- The tasks dispatched, oldest first. -/
def dispatches (tr : Trace) : List (Fin TASK_MAX_NRS) := (tr.filterMap dispatch).reverse

/-- A hart went on with task `t`. -/
def resumedTask (t : Fin TASK_MAX_NRS) (x : State × Event) : Bool :=
  match performed x with
  | some (_, .ret _ (.task (.gTasks t'))) => t' == t
  | _ => false

end GQuuuuuunix.Kernel
