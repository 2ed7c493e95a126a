import GQuuuuuunix.Kernel.History
import GQuuuuuunix.Kernel.Start

/-! # Harts that call the functions of atomic.h

Each hart makes its own sequence of calls on the atomic objects, and no interrupt comes. -/

namespace GQuuuuuunix.Kernel
open Lib
set_option autoImplicit false

/-- A hart before its first call. -/
structure Hart.Atomics (cs : List AtomicCall) (x : Hart) : Prop where
  code : x.code = Prog.each Atomic.call cs
  ssip : x.ssip = false

/-- The harts before their first calls, the objects as in `w`. -/
structure State.Atomics (n : ℕ) (w : ℕ → U64) (cs : ℕ → List AtomicCall) (σ : State) : Prop where
  harts : ∀ h < n, (σ.harts h).Atomics (cs h)
  objs : σ.objs = w

/-- The machine with `n` harts that make the calls `cs`, with no timer. -/
def atomicCalls (L : Layout) (n : ℕ) (w : ℕ → U64) (cs : ℕ → List AtomicCall) :
    System State Event where
  init := State.Atomics n w cs
  step σ
    | .timer _ => none
    | e => State.step L n σ e

/-- A machine in front of its first calls. -/
def State.startCalls (w : ℕ → U64) (cs : ℕ → List AtomicCall) : State :=
  { State.start (.sample 1 (by decide) (by decide)) with
    harts := fun h => { Hart.start (.sample 1 (by decide) (by decide)) h with
      code := Prog.each Atomic.call (cs h) }
    objs := w }

theorem State.startCalls_atomics (n : ℕ) (w : ℕ → U64) (cs : ℕ → List AtomicCall) :
    (State.startCalls w cs).Atomics n w cs := ⟨fun _ _ => ⟨rfl, rfl⟩, rfl⟩

/-! ## The objects -/

/-- The `val` of an object in the double word `x`. -/
def AtomicTy.ofWord (ty : AtomicTy) (x : U64) : ty.Val := ty.ofReg (ty.width.read x)

/-- The `val` of the object `a`. -/
def State.val (σ : State) (ty : AtomicTy) (a : ℕ) : ty.Val := ty.ofWord (σ.objs a)

/-! ## What the history says of a call -/

/-- What a hart does to the objects: it begins a call, performs an instruction that leaves `r` in
its register, or ends the call. -/
inductive ObjEvent where
  | begins (c : AtomicCall)
  | insn (i : AtomicInsn) (r : U64)
  | ends (c : AtomicCall)

/-- What the next operation of hart `h` does to the objects. -/
def State.objEvent (σ : State) (h : ℕ) (fail : Bool) : Op → Option ObjEvent
  | .enter (.atomic c) => some (.begins c)
  | .atomic i => some (.insn i (σ.atomic h fail i).1)
  | .leave (.atomic c) _ => some (.ends c)
  | _ => none

def objEvent : State × Event → Option ObjEvent
  | (σ, .hart h fail) => (σ.next h).bind (σ.objEvent h fail)
  | _ => none

/-- The event writes the object `a`. -/
def writesObj (a : ℕ) (x : State × Event) : Bool :=
  match objEvent x with
  | some (.insn (.amo _ _ b _) _) => b == a
  | some (.insn (.sc _ b _) r) => b == a && r == 0
  | _ => false

/-- The beginning of a call, or its end, by those that `p` selects. -/
def callTurn (p : State × Event → Bool) (x : State × Event) : Option (Option AtomicCall) :=
  if p x then
    match objEvent x with
    | some (.begins c) => some (some c)
    | some (.ends _) => some none
    | _ => none
  else none

/-- The call that those are in that `p` selects. -/
def callIn (p : State × Event → Bool) (tr : Trace) : Option AtomicCall :=
  (tr.findSome? (callTurn p)).join

/-- Hart `h`, in the call `c`, writes the object `a`; before it is `pre`. -/
def Updates (a h : ℕ) (c : AtomicCall) (pre : Trace) (y : State × Event) : Prop :=
  stepped h y = true ∧ writesObj a y = true ∧ callIn (stepped h) pre = some c

/-- `y`, with `pre` before it, is the last thing that those did to the objects that `p` selects. -/
def LastDone (p : State × Event → Bool) (tr : Trace) (y : State × Event) (pre : Trace) : Prop :=
  ∃ post, tr = post ++ y :: pre ∧ p y = true ∧ ∀ z ∈ post, p z = true → objEvent z = none

end GQuuuuuunix.Kernel
