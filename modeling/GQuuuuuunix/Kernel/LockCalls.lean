import GQuuuuuunix.Kernel.History

/-! # Harts that call spin locks

The functions of spin_lock.c under no discipline: each hart makes its own sequence of calls, on any
locks, rightly or wrongly, and no interrupt comes. -/

namespace GQuuuuuunix.Kernel
open Lib
set_option autoImplicit false

/-- A call `lk->f(lk)`. -/
inductive LockCall where
  | acquire (lk : TaskPtr) | release (lk : TaskPtr) | is_holding (lk : TaskPtr)
  deriving DecidableEq, Repr

def LockCall.run : LockCall → KProg Unit
  | .acquire lk => call_acquire lk
  | .release lk => call_release lk
  | .is_holding lk => do
    let _r ← call_is_holding lk

/-- Hart `h` before its first call. -/
structure Hart.Calling (cs : List LockCall) (h : ℕ) (x : Hart) : Prop where
  code : x.code = Prog.each LockCall.run cs
  tp : x.regs .tp = BitVec.ofNat 64 h
  ssip : x.ssip = false

structure State.Calling (n : ℕ) (cs : ℕ → List LockCall) (σ : State) : Prop where
  harts : ∀ h < n, (σ.harts h).Calling (cs h) h
  mem : ∀ lk, LockReady σ.mem lk

/-- The machine with `n` harts that make the calls `cs`, with no timer. -/
def lockCalls (L : Layout) (n : ℕ) (cs : ℕ → List LockCall) : System State Event where
  init := State.Calling n cs
  step σ
    | .timer _ => none
    | e => State.step L n σ e

/-! ## What the history says of a lock -/

/-- Hart `h` wrote `lk->cpu`, or cleared it. -/
def cpuTurn (h : ℕ) (lk : TaskPtr) (x : State × Event) : Option Bool :=
  match performed x with
  | some (h', .store (.lk_cpu lk') c) => if h' = h ∧ lk' = lk then some c.isSome else none
  | _ => none

/-- Hart `h` is past the write of `lk->cpu` in its `acquire`, and before it is cleared in its
`release`. -/
def pastCpu (h : ℕ) (lk : TaskPtr) (tr : Trace) : Bool :=
  (tr.findSome? (cpuTurn h lk)).getD false

/-- Hart `h` wrote `isLocked` or `cpu` of the lock. -/
def writesLock (h : ℕ) (lk : TaskPtr) (x : State × Event) : Prop :=
  (∃ v, performed x = some (h, .amoswap (.isLocked lk) v)) ∨
  (∃ v, performed x = some (h, .sc (.isLocked lk) v)) ∨
  (∃ v, performed x = some (h, .store (.cell (.isLocked lk)) v)) ∨
  ∃ c, performed x = some (h, .store (.lk_cpu lk) c)

/-- The lock that a call is about. -/
def LockCall.lk : LockCall → TaskPtr
  | .acquire lk | .release lk | .is_holding lk => lk

/-- The call takes a lock that bears the name of the hart, or gives back one that does not. -/
def LockCall.Misused (own : TaskPtr → Bool) : LockCall → Prop
  | .acquire lk => own lk = true
  | .release lk => own lk = false
  | .is_holding _ => False

def LockCall.panic : LockCall → PanicSite
  | .acquire _ | .is_holding _ => .acquire_is_holding
  | .release _ => .release_not_holding

end GQuuuuuunix.Kernel
