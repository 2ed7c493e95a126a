import GQuuuuuunix.Kernel.History
import GQuuuuuunix.Proof.Execution

/-! # What a step adds to the history -/

namespace GQuuuuuunix.Proof
open Lib Kernel
set_option autoImplicit false

variable {σ : State} {tr : Trace} {h : ℕ}

/-! ## The operation performed -/

theorem performed_interrupted {fail : Bool} (hi : (σ.harts h).interrupted = true) :
    performed (σ, .hart h fail) = none := by
  show (σ.next h).map _ = none
  rw [State.next, if_pos hi]
  rfl

theorem next_some {o : Op} (hn : σ.next h = some o) :
    (σ.harts h).interrupted = false ∧ ∃ f, (σ.harts h).code = .op o f := by
  unfold State.next at hn
  split at hn
  · cases hn
  · next hi =>
    split at hn
    · next o' f hcode =>
      cases hn
      exact ⟨by simpa using hi, f, hcode⟩
    · cases hn

theorem next_eq {o : Op} {f : o.Ret → Code} (hi : (σ.harts h).interrupted = false)
    (hcode : (σ.harts h).code = .op o f) : σ.next h = some o := by
  rw [State.next, if_neg (by simp [hi]), hcode]

theorem performed_eq {fail : Bool} {o : Op} {f : o.Ret → Code}
    (hi : (σ.harts h).interrupted = false) (hcode : (σ.harts h).code = .op o f) :
    performed (σ, .hart h fail) = some (h, o) := by
  show (σ.next h).map _ = _
  rw [next_eq hi hcode]
  rfl

theorem performed_next {e : Event} {o : Op} (hp : performed (σ, e) = some (h, o)) :
    σ.next h = some o := by
  cases e with
  | hart g fail =>
    obtain ⟨o', hn, heq⟩ := Option.map_eq_some_iff.1 hp
    cases heq
    exact hn
  | _ => cases hp

theorem trapped_performed {x : State × Event} (hx : trapped h x = true) : performed x = none := by
  obtain ⟨σ, e⟩ := x
  cases e with
  | hart g fail => exact performed_interrupted ((Bool.and_eq_true _ _).mp hx).2
  | compute g r pc => cases hx
  | timer g => cases hx

theorem entered_iff {x : State × Event} :
    entered h x = true ↔ performed x = some (h, .point .software_interrupt) := by
  unfold entered
  split
  · next h' hp =>
    rw [hp]
    simp
  · next hne =>
    refine ⟨fun hf => (by cases hf), fun hp => absurd hp (hne h)⟩

theorem not_entered {x : State × Event}
    (hp : performed x ≠ some (h, .point .software_interrupt)) : entered h x = false :=
  Bool.eq_false_iff.2 (mt entered_iff.1 hp)

variable {L : Layout} {n : ℕ} {σ' : State}

theorem step_op {fail : Bool} {o : Op} {f : o.Ret → Code} (hh : h < n)
    (hi : (σ.harts h).interrupted = false) (hcode : (σ.harts h).code = .op o f) :
    σ.step L n (.hart h fail) = σ.exec L h fail o f := by
  simp only [State.step, if_pos hh, hi, Bool.false_eq_true, if_false, hcode]

/-- A hart goes on only by its own steps. -/
theorem step_unstepped {e : Event} (hs : σ.step L n e = some σ')
    (hp : stepped h (σ, e) = false) : (σ'.harts h).code = (σ.harts h).code := by
  have hset : ∀ g (x : Hart), (h = g → x.code = (σ.harts h).code) →
      ((σ.setHart g x).harts h).code = (σ.harts h).code := by
    intro g x hx
    show (Function.update σ.harts g x h).code = _
    by_cases hg : h = g
    · subst hg
      rw [Function.update_self, hx rfl]
    · rw [Function.update_of_ne hg]
  cases e with
  | timer g =>
    simp only [State.step] at hs
    split at hs <;> cases hs
    exact hset g _ fun hg => by subst hg; rfl
  | compute g r pc =>
    simp only [State.step] at hs
    split at hs <;> cases hs
    exact hset g _ fun hg => by subst hg; rfl
  | hart g fail =>
    have hg : h ≠ g := by
      rintro rfl
      rw [stepped, beq_self_eq_true] at hp
      cases hp
    simp only [State.step] at hs
    split at hs
    swap
    · cases hs
    split at hs
    · cases hs
      exact hset g _ fun h => absurd h hg
    split at hs
    · rw [exec_other hg hs]
    · cases hs

/-- An `sc` answers 0 when it succeeds. -/
theorem sc_answer {fail : Bool} {c : Cell} {v r : I32} (ha : Answer σ h fail (.sc c v) r) :
    r = (0 : I32) ↔ σ.sc_succeeds h fail c = true := by
  unfold State.sc_succeeds
  rw [show r = if σ.resv h = some c ∧ fail = false then (0 : I32) else 1 from ha]
  cases fail <;> by_cases hc : σ.resv h = some c <;> simp [hc]

/-! ## Taking and clearing a lock -/

theorem hasTaken_none {p : TaskPtr} {x : State × Event} (hx : lockTurn h p x = none) :
    hasTaken h p (x :: tr) = hasTaken h p tr := by
  unfold hasTaken
  rw [List.findSome?_cons, hx]

theorem hasTaken_some {p : TaskPtr} {x : State × Event} {b : Bool} (hx : lockTurn h p x = some b) :
    hasTaken h p (x :: tr) = b := by
  unfold hasTaken
  rw [List.findSome?_cons, hx]
  rfl

/-- Only a `TEST_SET` and a conditional store of the hart itself matter. -/
theorem lockTurn_eq_none {p : TaskPtr} {x : State × Event}
    (ha : ∀ c v, performed x ≠ some (h, .amoswap c v))
    (hs : ∀ c v, performed x ≠ some (h, .sc c v)) : lockTurn h p x = none := by
  obtain ⟨σ, e⟩ := x
  cases e with
  | hart h' fail =>
    show (if h' = h then _ else _) = none
    split
    · next heq =>
      subst heq
      split
      · next c v hn =>
        refine absurd ?_ (ha c v)
        show (σ.next h').map _ = _
        rw [hn]
        rfl
      · next c v hn =>
        refine absurd ?_ (hs c v)
        show (σ.next h').map _ = _
        rw [hn]
        rfl
      · rfl
    · rfl
  | compute h' r pc => rfl
  | timer h' => rfl

theorem lockTurn_amoswap {p : TaskPtr} (fail : Bool) {c : Cell} {v : I32}
    (hn : σ.next h = some (.amoswap c v)) : lockTurn h p (σ, .hart h fail) =
      if c = .isLocked p ∧ σ.mem (.cell c) = (0 : I32) then some true else none := by
  show (if h = h then _ else _) = _
  rw [if_pos rfl, hn]

theorem lockTurn_sc {p : TaskPtr} (fail : Bool) {c : Cell} {v : I32}
    (hn : σ.next h = some (.sc c v)) : lockTurn h p (σ, .hart h fail) =
      if c = .isLocked p ∧ σ.sc_succeeds h fail c = true then some false else none := by
  show (if h = h then _ else _) = _
  rw [if_pos rfl, hn]

end GQuuuuuunix.Proof
