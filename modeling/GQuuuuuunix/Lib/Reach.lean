import Mathlib.Logic.Relation
import GQuuuuuunix.Lib.Run

/-! # What a run can go on to -/

namespace GQuuuuuunix.Lib
set_option autoImplicit false

variable {S E : Type} {M : System S E} {C : E → Prop} {tr : History S E} {s s' : S}

/-- The system goes from `s` to `s'` by an event of `C`. -/
def System.Moves (M : System S E) (C : E → Prop) (s s' : S) : Prop :=
  ∃ e, C e ∧ M.step s e = some s'

theorem Run.extend (hr : Run M tr s) (h : Relation.ReflTransGen (M.Moves C) s s') :
    ∃ post, Run M (post ++ tr) s' ∧ ∀ x ∈ post, C x.2 := by
  induction h with
  | refl => exact ⟨[], hr, fun x hx => by cases hx⟩
  | @tail s₁ s₂ _ hs ih =>
    obtain ⟨post, hr', hC⟩ := ih
    obtain ⟨e, he, hs⟩ := hs
    refine ⟨(s₁, e) :: post, hr'.step hs, fun x hx => ?_⟩
    rcases List.mem_cons.1 hx with rfl | hx
    · exact he
    · exact hC x hx

end GQuuuuuunix.Lib
