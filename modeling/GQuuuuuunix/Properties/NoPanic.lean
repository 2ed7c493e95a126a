import GQuuuuuunix.Proof.Barrier
import GQuuuuuunix.Kernel.Start

/-! # No assertion of the kernel fires -/

namespace GQuuuuuunix.Properties
open Lib Kernel Proof
set_option autoImplicit false

variable {cfg : Config} {σ : State} {tr : Trace} {h : ℕ}

/-- Hart `h` is at a `PANIC`. -/
def atPanic (σ : State) (h : ℕ) : Prop := ∃ p k, (σ.harts h).code = .op (.panic p) k

/-- Every lock of the table can be called, and exactly the slots of the added tasks are used. -/
structure Initialised (cfg : Config) (mem : Mem) : Prop where
  acquire : ∀ t, mem (.lk_acquire (.gTasks t)) = LockFn.acquire_lk
  release : ∀ t, mem (.lk_release (.gTasks t)) = LockFn.release_lk
  is_holding : ∀ t, mem (.lk_is_holding (.gTasks t)) = LockFn.is_holding_lk
  state : ∀ t : Slot, mem (.state (.gTasks t)) ≠ TaskState.UNUSED ↔ (t : ℕ) < cfg.pids.length

theorem Inv.initialised {vs : ℕ → View} (hI : Inv cfg σ vs) (hop : (vs 0).k.stage = .opened) :
    Initialised cfg σ.mem := by
  have ht := hI.table hop
  refine ⟨fun t => (ht.lock t).acquire, fun t => (ht.lock t).release,
    fun t => (ht.lock t).is_holding, fun t => ?_⟩
  by_cases hrun : ∃ h < cfg.harts, (vs h).k.run = some t
  · obtain ⟨h, hh, hrun⟩ := hrun
    obtain ⟨hst, hlt⟩ := (ht.state t).running h hh hrun
    refine ⟨fun _ => hlt, fun _ => ?_⟩
    rw [hst]
    rcases (hI.ok h hh).run_st t hrun with ⟨hst, _⟩ | hst <;> rw [hst] <;>
      exact fun hn => by cases hn
  · rw [(ht.state t).idle fun h hh hr => hrun ⟨h, hh, hr⟩]
    split
    · next hlt => exact ⟨fun _ => hlt, fun _ hn => by cases hn⟩
    · next hlt => exact ⟨fun hne => absurd rfl hne, fun h => absurd h hlt⟩

/-- No hart reaches a `PANIC`, however the harts and the timers interleave; and a hart that is in
`scheduler` got there after hart 0 had opened the barrier, on a table that was ready and stays
initialised. -/
theorem no_panic (hr : Run (kernel cfg) tr σ) (hh : h < cfg.harts) :
    ¬ atPanic σ h ∧
    (.scheduler ∈ (σ.harts h).calls → Initialised cfg σ.mem ∧
      ∃ x ∈ tr, opensBarrier x = true ∧ TableReady cfg x.1.mem) := by
  obtain ⟨vs, hg⟩ := grun_of_run hr
  have hI := hg.inv
  refine ⟨fun ⟨p, k, hcode⟩ => ?_, fun hs => ?_⟩
  · have hsafe := hI.safe h hh
    rw [hcode] at hsafe
    exact (safe_pre hsafe (hI.ok h hh)).1
  · rw [(hI.hart h hh).calls] at hs
    have hop := hI.opened h hh ((hI.ok h hh).scheduler_opened hs)
    have hJ := opened hg
    obtain ⟨x, hx, hopen⟩ := hJ.stage.2 hop
    exact ⟨Inv.initialised hI hop, x, hx, hopen, hJ.ready x hx hopen⟩

/-- The only hart has entered `scheduler`. -/
theorem no_panic_boot : ∃ (tr : Trace) (σ : State),
    Run (kernel (.sample 1 (by decide) (by decide))) tr σ ∧ .scheduler ∈ (σ.harts 0).calls ∧
      ¬ atPanic σ 0 ∧ ∃ x ∈ tr, opensBarrier x = true := by
  obtain ⟨tr, σ, hr, hp⟩ := Run.of_start (.sample 1 (by decide) (by decide)) Layout.sample_apart
    (List.replicate 460 (.hart 0 false)) (fun x => (x.2.harts 0).calls.contains .scheduler)
    (by decide +kernel)
  have hs : Fn.scheduler ∈ (σ.harts 0).calls := by simpa using hp
  obtain ⟨hno, hin⟩ := no_panic hr Nat.one_pos
  obtain ⟨_, x, hx, hopen, _⟩ := hin hs
  exact ⟨tr, σ, hr, hs, hno, x, hx, hopen⟩

end GQuuuuuunix.Properties
