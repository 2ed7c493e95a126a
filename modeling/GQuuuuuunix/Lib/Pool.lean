import Mathlib.Data.Nat.Notation
import GQuuuuuunix.Lib.Run

/-! # Workers that go round a table of jobs

Each worker goes through the table from its beginning to its end, again and again. It takes the jobs
that it finds waiting on its way, and goes on from there when it puts one back. -/

namespace GQuuuuuunix.Lib
set_option autoImplicit false

variable {W J : Type}

structure Pool (W J : Type) where
  /-- The job a worker is at. -/
  job : W → Option J
  /-- The worker that is at a job. -/
  worker : J → Option W
  /-- How far the pass of a worker is. -/
  cursor : W → ℕ

inductive PoolEvent (W J : Type) where
  /-- A worker begins a pass. -/
  | pass (w : W)
  /-- A worker takes a job. -/
  | dispatch (w : W) (j : J)
  /-- A worker puts its job back. -/
  | park (w : W) (j : J)
  deriving DecidableEq

/-- Nobody is at two jobs, and no job has two workers. -/
def Pool.Matched (s : Pool W J) : Prop := ∀ w j, s.job w = some j ↔ s.worker j = some w

/-- A job that no worker is at is waiting. -/
theorem Pool.Matched.waiting {s : Pool W J} {j : J} (hs : s.Matched) (hj : ∀ w, s.job w ≠ some j) :
    s.worker j = none := by
  cases hw : s.worker j with
  | none => rfl
  | some w => exact absurd ((hs w j).2 hw) (hj w)

variable [DecidableEq W] [DecidableEq J]

def Pool.step (place : J → ℕ) (size : ℕ) (s : Pool W J) : PoolEvent W J → Option (Pool W J)
  | .pass w =>
    if s.job w = none then some { s with cursor := Function.update s.cursor w 0 } else none
  | .dispatch w j =>
    if s.job w = none ∧ s.worker j = none ∧ s.cursor w ≤ place j ∧ place j < size then
      some { job := Function.update s.job w (some j)
             worker := Function.update s.worker j (some w)
             cursor := Function.update s.cursor w (place j + 1) }
    else none
  | .park w j =>
    if s.job w = some j then
      some { s with
        job := Function.update s.job w none
        worker := Function.update s.worker j none }
    else none

/-- The pool before any pass; the job `j` is at `place j` of a table of `size` jobs. -/
def pool (place : J → ℕ) (size : ℕ) : System (Pool W J) (PoolEvent W J) where
  init s := s = ⟨fun _ => none, fun _ => none, fun _ => size⟩
  step := Pool.step place size

section
variable {place : J → ℕ} {size : ℕ} {s s' : Pool W J} {w : W} {j : J}

theorem pool_pass (hw : s.job w = none) : (pool place size).step s (.pass w) =
    some { s with cursor := Function.update s.cursor w 0 } := if_pos hw

theorem pool_dispatch (hw : s.job w = none) (hj : s.worker j = none) (hc : s.cursor w ≤ place j)
    (hp : place j < size) : (pool place size).step s (.dispatch w j) =
      some { job := Function.update s.job w (some j)
             worker := Function.update s.worker j (some w)
             cursor := Function.update s.cursor w (place j + 1) } := if_pos ⟨hw, hj, hc, hp⟩

theorem pool_park (hw : s.job w = some j) : (pool place size).step s (.park w j) =
    some { s with
      job := Function.update s.job w none
      worker := Function.update s.worker j none } := if_pos hw

theorem Pool.Matched.step (hs : s.Matched) {e : PoolEvent W J}
    (hstep : (pool place size).step s e = some s') : s'.Matched := by
  intro w' j'
  cases e with
  | pass w =>
    simp only [pool, Pool.step] at hstep
    split at hstep <;> cases hstep
    exact hs w' j'
  | dispatch w j =>
    simp only [pool, Pool.step] at hstep
    split at hstep <;> cases hstep
    next h =>
    -- the job was nobody's, so the worker is its only one
    obtain ⟨hw, hj, -⟩ := h
    have hno : ∀ w, s.job w ≠ some j := fun w h => by rw [(hs w j).1 h] at hj; cases hj
    have hnone : ∀ j, s.worker j ≠ some w := fun j h => by rw [(hs w j).2 h] at hw; cases hw
    simp only [Function.update_apply]
    grind [Pool.Matched]
  | park w j =>
    simp only [pool, Pool.step] at hstep
    split at hstep <;> cases hstep
    next hw =>
    have hj := (hs w j).1 hw
    simp only [Function.update_apply]
    grind [Pool.Matched]

theorem Run.matched {tr : History (Pool W J) (PoolEvent W J)} (hr : Run (pool place size) tr s) :
    s.Matched :=
  hr.invariant (fun _ s => s.Matched)
    (fun s hs => by
      subst hs
      exact fun _ _ => ⟨fun h => (by cases h), fun h => (by cases h)⟩)
    (fun _ _ _ _ _ hs hstep => hs.step hstep)

end

end GQuuuuuunix.Lib
