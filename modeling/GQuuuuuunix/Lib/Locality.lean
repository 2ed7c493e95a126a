import GQuuuuuunix.Lib.Run

/-! # A part of the state that a run leaves alone

Where a run consists of events that neither read nor write a part of the state, it goes the same
way whatever that part holds. -/

namespace GQuuuuuunix.Lib
set_option autoImplicit false

variable {S E : Type}

/-- The events in `C` neither read nor write the part that `put` replaces. -/
def System.Ignores (M : System S E) (C : E → Prop) (put : S → S) : Prop :=
  ∀ s e, C e → M.step (put s) e = (M.step s e).map put

theorem System.Ignores.step {M : System S E} {C : E → Prop} {put : S → S} (hM : M.Ignores C put)
    {s s' : S} {e : E} (he : C e) (hs : M.step s e = some s') :
    M.step (put s) e = some (put s') := by
  rw [hM s e he, hs]
  rfl

/-- The run with another part from the start. -/
theorem Run.put {M : System S E} {C : E → Prop} {put : S → S} (hM : M.Ignores C put)
    (h0 : ∀ s, M.init s → M.init (put s)) {tr : History S E} {s : S} (hr : Run M tr s)
    (hC : ∀ y ∈ tr, C y.2) : Run M (tr.map fun y => (put y.1, y.2)) (put s) := by
  induction hr with
  | init hs => exact .init (h0 _ hs)
  | step _ hs ih =>
    obtain ⟨he, hC⟩ := List.forall_mem_cons.1 hC
    exact (ih hC).step (hM.step he hs)

end GQuuuuuunix.Lib
