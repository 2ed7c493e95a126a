import GQuuuuuunix.Proof.Compiled

/-! # The operations on the atomic objects of the tasks

They touch nothing that the record of a hart speaks of. A trap may come between any two of their
instructions where they do not turn interrupts off. -/

namespace GQuuuuuunix.Proof
open Lib Kernel
set_option autoImplicit false

variable {cfg : Config} {k : Ghost} {m : Own}

theorem does_atomic {i : AtomicInsn} {Q : U64 → Ghost → Own → Prop}
    (h : ∀ r k' m', Moved k m k' m' → Q r k' m') : Does cfg (atomic i) k m Q :=
  Does.plain_any rfl rfl fun v hv _ => ⟨trivial, fun r _ => h r v.k v.m hv⟩

theorem does_atomic_store_round {sz : Width} {a : ℕ} {x : U64} :
    Does cfg (Atomic.store_round sz a x) k m fun _ k' m' => Moved k m k' m' := by
  refine Does.bind (does_atomic fun _ k1 m1 h1 => Does.bind (does_atomic fun r k2 m2 h2 => ?_))
  by_cases hr : r ≠ 0
  · refine does_if_pos hr (does_loop_any (fun _ _ _ => trivial) fun _ k3 m3 k4 m4 h3 h4 => ?_)
    exact ((h1.trans h2).trans h3).trans h4
  · exact does_if_neg hr (Does.pure (h1.trans h2))

theorem does_cmp_xchg_round {sz : Width} {a : ℕ} {e d : U64} :
    Does cfg (Atomic.cmp_xchg_round sz a e d) k m fun _ k' m' => Moved k m k' m' := by
  refine Does.bind (does_atomic fun old k1 m1 h1 => ?_)
  by_cases ho : old ≠ e
  · exact does_if_pos ho (Does.pure h1)
  refine does_if_neg ho (Does.bind (does_atomic fun r k2 m2 h2 => ?_))
  by_cases hr : r ≠ 0
  · refine does_if_pos hr (does_loop_any (fun _ _ _ => trivial) fun _ k3 m3 k4 m4 h3 h4 => ?_)
    exact ((h1.trans h2).trans h3).trans h4
  · exact does_if_neg hr (Does.pure (h1.trans h2))

end GQuuuuuunix.Proof
