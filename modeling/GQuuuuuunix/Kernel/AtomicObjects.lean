import GQuuuuuunix.Kernel.Clients
import GQuuuuuunix.Lib.Linear

/-! # What the functions of atomic.h are for

Each function reads its object and changes it at one instant. This is what a task may rely on; that
the code gives it, whatever interrupts the task and wherever it goes on, is proved of it. -/

namespace GQuuuuuunix.Kernel
open Lib
set_option autoImplicit false

/-- The `val` of the object `a`. -/
def AtomicTy.get (ty : AtomicTy) (w : ℕ → U64) (a : ℕ) : ty.Val := ty.ofWord (w a)

/-- The objects after `v` is stored in the `val` of the object `a`. -/
def AtomicTy.put (ty : AtomicTy) (w : ℕ → U64) (a : ℕ) (v : ty.Val) : ℕ → U64 :=
  Function.update w a (ty.width.write (w a) (ty.toReg v))

/-- `a0` after `ATOMIC_LOAD` of an object that is `v`: the function for atomic_ulong_t returns
`int`. -/
def AtomicTy.loaded : (ty : AtomicTy) → ty.Val → U64
  | .atomic_int_t, v => Atomic.ofInt v
  | .atomic_long_t, v => v
  | .atomic_ulong_t, v => Atomic.ofInt (Atomic.toInt v)

/-- What a function returns in `a0`, and the objects after it. -/
def AtomicCall.apply : AtomicCall → (ℕ → U64) → U64 × (ℕ → U64)
  | .test_set ty a, w => (ty.toReg (ty.get w a), ty.put w a 1)
  | .cmp_xchg ty a expected desired, w =>
    (ty.toReg (ty.get w a), if ty.get w a = expected then ty.put w a desired else w)
  | .load ty a, w => (ty.loaded (ty.get w a), w)
  | .store ty a v, w => (ty.toReg v, ty.put w a v)
  | .fetch_add ty a v, w => (ty.toReg (ty.get w a), ty.put w a (ty.get w a + v))
  -- as the code has it: `val` is added
  | .fetch_sub ty a v, w => (ty.toReg (ty.get w a), ty.put w a (ty.get w a + v))
  | .fetch_and ty a v, w => (ty.toReg (ty.get w a), ty.put w a (ty.get w a &&& v))
  | .fetch_or ty a v, w => (ty.toReg (ty.get w a), ty.put w a (ty.get w a ||| v))
  | .fetch_xor ty a v, w => (ty.toReg (ty.get w a), ty.put w a (ty.get w a ^^^ v))

/-- A store of a task that is no call. -/
structure PlainStore where
  sz : Width
  a : ℕ
  x : U64
  deriving DecidableEq

def PlainStore.apply (s : PlainStore) (w : ℕ → U64) : ℕ → U64 :=
  Function.update w s.a (s.sz.write (w s.a) s.x)

abbrev AtomicEvent := SharedEvent (Fin TASK_MAX_NRS) AtomicCall U64 PlainStore

/-- The atomic objects, called by tasks, from when they are `w`. -/
abbrev atomicObjects (w : ℕ → U64) :
    System (Shared (Fin TASK_MAX_NRS) AtomicCall U64 (ℕ → U64)) AtomicEvent :=
  sharedObject AtomicCall.apply PlainStore.apply w

/-- What an operation of task `t` says of its call. -/
def callEvent (t : Fin TASK_MAX_NRS) : Op → Option AtomicEvent
  | .enter (.atomic c) => some (.begins t c)
  | .point (.returned a0) => some (.returns t a0)
  | _ => none

/-- The beginning of a call, its return, or a plain store, in a run of the tasks. -/
def calledBy (L : Layout) : State × ClientEvent AtomicCall → Option AtomicEvent
  | (σ, .kernel (.hart h _)) =>
    match L.stackOf ((σ.harts h).regs .sp) with
    | some (.task t) => (σ.next h).bind (callEvent t)
    | _ => none
  | (_, .store _ sz a x) => some (.outside ⟨sz, a, x⟩)
  | _ => none

end GQuuuuuunix.Kernel
