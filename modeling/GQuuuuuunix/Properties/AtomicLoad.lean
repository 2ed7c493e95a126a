import GQuuuuuunix.Proof.Objects

/-! # ATOMIC_LOAD after an ATOMIC_STORE

There is an `ATOMIC_STORE` of an `atomic_int_t` only: the asm statements of the two 64-bit ones lack
a newline. `__atomic_load_u64` reads 64 bits into an `unsigned long` and returns it as an `int`. -/

namespace GQuuuuuunix.Properties
open Lib Kernel Proof
set_option autoImplicit false

variable {L : Layout} {n a h : ℕ} {w : ℕ → U64} {cs : ℕ → List AtomicCall} {ty : AtomicTy}
  {v : ty.Val} {σ σ' : State} {tr : Trace} {e : Event} {a0 : U64}

end GQuuuuuunix.Properties
