import GQuuuuuunix.Kernel.PowerOn
import GQuuuuuunix.Lib.Locality
import GQuuuuuunix.Proof.Execution

/-! # Harts that are not up

An event of the kernel is about one hart: it goes the same way whatever the others are. -/

namespace GQuuuuuunix.Kernel
open Lib
set_option autoImplicit false

/-- The harts of `f` in place of those that are not `up`. -/
def State.overlay (up : ℕ → Bool) (f : ℕ → Hart) (σ : State) : State :=
  { σ with harts := fun h => if up h then σ.harts h else f h }

variable {cfg : Config} {up : ℕ → Bool} {f : ℕ → Hart} {σ : State} {h : ℕ}

theorem overlay_hart (hu : up h = true) : (σ.overlay up f).harts h = σ.harts h := if_pos hu

theorem setHart_overlay (hu : up h = true) (x : Hart) :
    (σ.overlay up f).setHart h x = (σ.setHart h x).overlay up f := by
  unfold State.setHart State.overlay
  congr 1
  funext g
  by_cases hg : g = h
  · subst hg
    simp only [Function.update_self, if_pos hu]
  · simp only [Function.update_of_ne hg]

theorem goto_overlay (hu : up h = true) (c : Code) :
    (σ.overlay up f).goto h c = (σ.goto h c).overlay up f := by
  unfold State.goto
  rw [overlay_hart hu, setHart_overlay hu]

theorem write_overlay (l : Loc) (x : l.Ty) :
    (σ.overlay up f).write h l x = (σ.write h l x).overlay up f := by
  cases l <;> rfl

theorem atomic_overlay (fail : Bool) (i : AtomicInsn) :
    (σ.overlay up f).atomic h fail i =
      ((σ.atomic h fail i).1, (σ.atomic h fail i).2.overlay up f) := by
  cases i with
  | sc sz a x =>
    unfold State.atomic
    dsimp only
    show (if σ.objResv h = some a ∧ fail = false then _ else _) = _
    split <;> rfl
  | _ => rfl

theorem exec_overlay {L : Layout} (hu : up h = true) (fail : Bool) (o : Op) (k : o.Ret → Code) :
    (σ.overlay up f).exec L h fail o k = (σ.exec L h fail o k).map (State.overlay up f) := by
  have hh : (σ.overlay up f).harts h = σ.harts h := overlay_hart hu
  have hm : (σ.overlay up f).mem = σ.mem := rfl
  cases o with
  | store l x => simp only [State.exec, write_overlay, goto_overlay hu, Option.map_some]
  | amoswap c x => simp only [State.exec, write_overlay, goto_overlay hu, Option.map_some, hm]
  | lr c =>
    simp only [State.exec, Option.map_some, hm]
    exact congrArg some (goto_overlay (σ := { σ.clearResv h with
      resv := Function.update σ.resv h (some c) }) hu _)
  | sc c x =>
    have hr : (σ.overlay up f).resv h = σ.resv h := rfl
    have hc : (σ.overlay up f).clearResv h = (σ.clearResv h).overlay up f := rfl
    simp only [State.exec, hr, hc]
    split
    · simp only [write_overlay, goto_overlay hu, Option.map_some]
    · simp only [goto_overlay hu, Option.map_some]
  | atomic i => simp only [State.exec, atomic_overlay, goto_overlay hu, Option.map_some]
  | call_switch_to s old new =>
    simp only [State.exec, State.callSwitch, Option.map_some]
    rw [hh, setHart_overlay hu]
    rfl
  | sd r off =>
    simp only [State.exec, Option.map_some]
    rw [hh, write_overlay, goto_overlay hu]
  | ld r off =>
    simp only [State.exec, Option.map_some]
    rw [hh, setHart_overlay hu]
    rfl
  | sd_ctx p r i =>
    simp only [State.exec, Option.map_some, hh, hm]
    exact congrArg some (goto_overlay (σ := { σ with mem := σ.mem.setCtx p i _ }) hu _)
  | ret old new =>
    simp only [State.exec, Option.map_some, hh]
    exact congrArg some (setHart_overlay hu _)
  | _ =>
    simp only [State.exec, hh, hm, goto_overlay hu, setHart_overlay hu, Option.map_some,
      Option.map_none]

theorem step_overlay {L : Layout} {n : ℕ} {e : Event} (hu : up (PowerOn.hartOf e) = true) :
    (σ.overlay up f).step L n e = (σ.step L n e).map (State.overlay up f) := by
  cases e with
  | hart h fail =>
    have hh : (σ.overlay up f).harts h = σ.harts h := overlay_hart hu
    simp only [State.step, hh]
    split_ifs
    · exact congrArg some (setHart_overlay hu _)
    · split
      · exact exec_overlay hu fail _ _
      · rfl
    · rfl
  | compute h r pc =>
    have hh : (σ.overlay up f).harts h = σ.harts h := overlay_hart hu
    simp only [State.step, hh]
    split_ifs
    · exact congrArg some (setHart_overlay hu _)
    · rfl
  | timer h =>
    have hh : (σ.overlay up f).harts h = σ.harts h := overlay_hart hu
    simp only [State.step, hh]
    split_ifs
    · exact congrArg some (setHart_overlay hu _)
    · rfl

/-- The harts that are up neither read nor write the others. -/
theorem kernel_ignores (cfg : Config) (up : ℕ → Bool) (f : ℕ → Hart) :
    (kernel cfg).Ignores (fun e => up (PowerOn.hartOf e) = true) (State.overlay up f) :=
  fun _ _ he => step_overlay he

theorem overlay_booting (hf : ∀ h < cfg.harts, up h = false → (f h).Booting cfg h)
    (hb : σ.Booting cfg) : (σ.overlay up f).Booting cfg := by
  refine ⟨fun h hh => ?_, hb.mem, hb.resv, hb.objResv, hb.parked⟩
  show (if up h then σ.harts h else f h).Booting cfg h
  split
  · exact hb.harts h hh
  · next hu => exact hf h hh (Bool.eq_false_iff.2 hu)

theorem overlay_overlay {g : ℕ → Hart} :
    (σ.overlay up f).overlay up g = σ.overlay up g := by
  unfold State.overlay
  congr 1
  funext h
  show (if up h then (if up h then σ.harts h else f h) else g h) = _
  split <;> rfl

/-- A hart that comes up is the one that was expected. -/
theorem overlay_up {x : Hart} (hu : up h = false) (hf : f h = x) :
    (σ.setHart h x).overlay (Function.update up h true) f = σ.overlay up f := by
  subst hf
  unfold State.setHart State.overlay
  congr 1
  funext g
  by_cases hg : g = h
  · subst hg
    simp only [Function.update_self, if_true, hu, Bool.false_eq_true, if_false]
  · simp only [Function.update_of_ne hg]

end GQuuuuuunix.Kernel
