import Mathlib.Logic.Function.Basic

/-! # Runs of a labelled transition system, with their history

A run is kept with its whole past: the list of the states it went through, newest first, each with
the event that left it. Counting what happened, and asking what held when it happened, are then
functions of that list, and an invariant may speak of them. -/

namespace GQuuuuuunix.Lib
set_option autoImplicit false

structure System (S E : Type) where
  init : S → Prop
  step : S → E → Option S

/-- The states left behind and the events that left them, newest first. -/
abbrev History (S E : Type) : Type := List (S × E)

variable {S E : Type}

inductive Run (M : System S E) : History S E → S → Prop where
  | init {s : S} : M.init s → Run M [] s
  | step {tr : History S E} {s s' : S} {e : E} :
      Run M tr s → M.step s e = some s' → Run M ((s, e) :: tr) s'

/-- Every event of the history satisfied `C` when it happened. -/
def Along (C : History S E → S → E → Prop) : History S E → Prop
  | [] => True
  | (s, e) :: tr => C tr s e ∧ Along C tr

variable {M : System S E}

/-- The invariant rule: what holds initially and is kept by every step holds along every run. -/
theorem Run.invariant (I : History S E → S → Prop) (h0 : ∀ s, M.init s → I [] s)
    (hstep : ∀ tr s e s', Run M tr s → I tr s → M.step s e = some s' → I ((s, e) :: tr) s') :
    ∀ {tr : History S E} {s : S}, Run M tr s → I tr s := by
  intro tr s hr
  induction hr with
  | init h => exact h0 _ h
  | step hr hs ih => exact hstep _ _ _ _ hr ih hs

/-- The invariant rule for the runs whose events all satisfy a condition. -/
theorem Run.invariant_along (C : History S E → S → E → Prop) (I : History S E → S → Prop)
    (h0 : ∀ s, M.init s → I [] s)
    (hstep : ∀ tr s e s', Run M tr s → I tr s → C tr s e → M.step s e = some s' →
      I ((s, e) :: tr) s') :
    ∀ {tr : History S E} {s : S}, Run M tr s → Along C tr → I tr s := by
  intro tr s hr
  induction hr with
  | init h => exact fun _ => h0 _ h
  | step hr hs ih => exact fun hC => hstep _ _ _ _ hr (ih hC.2) hC.1 hs

/-- The past of a run is a run. -/
theorem Run.past {tr : History S E} {s : S} :
    ∀ {post : History S E} {s' : S} {e : E}, Run M (post ++ (s, e) :: tr) s' → Run M tr s
  | [], _, _, h => by cases h with | step hr _ => exact hr
  | _ :: _, _, _, h => by cases h with | step hr _ => exact hr.past

/-- Every event of a run was possible. -/
theorem Run.moved {tr : History S E} {s : S} {e : E} :
    ∀ {post : History S E} {s' : S}, Run M (post ++ (s, e) :: tr) s' → ∃ s'', M.step s e = some s''
  | [], _, h => by cases h with | step _ hs => exact ⟨_, hs⟩
  | _ :: _, _, h => by cases h with | step hr _ => exact hr.moved

/-- The state a run is in determines, with the event, the state after it. -/
theorem Run.next {tr : History S E} {s s' : S} {e : E} (h : Run M ((s, e) :: tr) s') :
    M.step s e = some s' := by
  cases h with | step _ hs => exact hs

/-- The system that starts in `s`: its runs are how the runs through `s` go on. -/
def System.from (M : System S E) (s : S) : System S E := { M with init := fun s' => s' = s }

theorem Run.append {pre post : History S E} {s s' : S} (h : Run M pre s)
    (h' : Run (M.from s) post s') : Run M (post ++ pre) s' := by
  induction h' with
  | init hs =>
    cases hs
    exact h
  | step _ hs ih => exact ih.step hs

/-! ## Running a list of events -/

/-- Perform the events in order, recording the history; `none` if one is not possible. -/
def perform (M : System S E) : List E → History S E × S → Option (History S E × S)
  | [], x => some x
  | e :: es, (tr, s) =>
    match M.step s e with
    | some s' => perform M es ((s, e) :: tr, s')
    | none => none

theorem Run.perform {es : List E} : ∀ {x y : History S E × S},
    Run M x.1 x.2 → Lib.perform M es x = some y → Run M y.1 y.2 := by
  induction es with
  | nil =>
    intro x y hx h
    cases h
    exact hx
  | cons e es ih =>
    rintro ⟨tr, s⟩ y hx h
    simp only [Lib.perform] at h
    split at h
    · next s' hs => exact ih (hx.step hs) h
    · cases h

/-- What a list of events leads to from an initial state is reached by a run. -/
theorem Run.of_perform {s : S} (hs : M.init s) (es : List E) {P : History S E × S → Bool}
    (h : (Lib.perform M es ([], s)).any P = true) :
    ∃ tr s', Run M tr s' ∧ P (tr, s') = true := by
  cases hp : Lib.perform M es ([], s) with
  | none =>
    rw [hp] at h
    cases h
  | some y =>
    rw [hp] at h
    exact ⟨y.1, y.2, Run.perform (x := ([], s)) (.init hs) hp, h⟩

end GQuuuuuunix.Lib
