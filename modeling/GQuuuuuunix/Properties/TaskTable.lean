import GQuuuuuunix.Proof.Codes
import GQuuuuuunix.Properties.LockOwner

/-! # The task table, `cpu->task` and the locks agree -/

namespace GQuuuuuunix.Properties
open Lib Kernel Proof
set_option autoImplicit false

variable {cfg : Config} {σ σ' : State} {vs : ℕ → View} {tr : Trace} {h : ℕ} {t : Slot}

/-! ## A slot whose lock is free -/

theorem Inv.cpu_task_eq (hI : Inv cfg σ vs) (hh : h < cfg.harts) :
    σ.mem (.cpu_task h) = (vs h).k.task.map .gTasks := by
  have hc := (hI.cpu h hh).cpu_task
  rwa [(hI.hart h hh).hart] at hc

theorem task_of_map {x : Option Slot} (hx : x.map TaskPtr.gTasks = some (.gTasks t)) :
    x = some t := by
  cases x with
  | none => cases hx
  | some t' =>
    cases hx
    rfl

section
variable (hI : Inv cfg σ vs) (hop : (vs 0).k.stage = .opened)
  (hfree : σ.mem (.cell (.isLocked (.gTasks t))) = (0 : I32))
include hI hop hfree

theorem Inv.not_held (hh : h < cfg.harts) : (vs h).k.held ≠ some t := by
  intro hheld
  rw [((hI.table hop).lock t).held h hh hheld] at hfree
  cases hfree

/-- The task that a hart has the right to run is the one it is running. -/
theorem Inv.running_of_free (hh : h < cfg.harts) (hrun : (vs h).k.run = some t) :
    σ.mem (.state (.gTasks t)) = TaskState.RUNNING ∧ (vs h).k.task = some t := by
  have hok := hI.ok h hh
  have hno := Inv.not_held hI hop hfree hh
  constructor
  · rw [(((hI.table hop).state t).running h hh hrun).1]
    exact (hok.run_st t hrun).resolve_left fun hx => hno hx.2
  · cases hstk : (vs h).k.stk with
    | hart c => exact absurd (hok.run_held t c hrun hstk) hno
    | task t' =>
      obtain ⟨hrun', htask, _⟩ := hok.stk_task t' hstk
      rw [← hrun', hrun] at htask
      exact htask

theorem Inv.free_slot :
    (σ.mem (.state (.gTasks t)) = TaskState.RUNNING ↔
      ∃! h, h < cfg.harts ∧ σ.mem (.cpu_task h) = some (.gTasks t)) ∧
    (σ.mem (.state (.gTasks t)) = TaskState.RUNNABLE ∨
      σ.mem (.state (.gTasks t)) = TaskState.UNUSED ↔
      ∀ h < cfg.harts, σ.mem (.cpu_task h) ≠ some (.gTasks t)) := by
  have htask : ∀ h < cfg.harts, σ.mem (.cpu_task h) = some (.gTasks t) →
      (vs h).k.run = some t := by
    intro h hh hx
    rw [Inv.cpu_task_eq hI hh] at hx
    exact (hI.ok h hh).task_run t (task_of_map hx)
  by_cases hrun : ∃ h < cfg.harts, (vs h).k.run = some t
  · obtain ⟨h, hh, hrun⟩ := hrun
    obtain ⟨hst, ht⟩ := Inv.running_of_free hI hop hfree hh hrun
    have hcpu : σ.mem (.cpu_task h) = some (.gTasks t) := by
      rw [Inv.cpu_task_eq hI hh, ht]
      rfl
    refine ⟨⟨fun _ => ⟨h, ⟨hh, hcpu⟩, fun h' ⟨hh', hx⟩ => ?_⟩, fun _ => hst⟩, ?_⟩
    · exact hI.run_inj h' hh' h hh t (htask h' hh' hx) hrun
    · rw [hst]
      refine ⟨fun hx => ?_, fun hx => absurd hcpu (hx h hh)⟩
      rcases hx with hx | hx <;> cases hx
  · have hidle := ((hI.table hop).state t).idle fun h hh hr => hrun ⟨h, hh, hr⟩
    have hno : ∀ h < cfg.harts, σ.mem (.cpu_task h) ≠ some (.gTasks t) :=
      fun h hh hx => hrun ⟨h, hh, htask h hh hx⟩
    have hst : σ.mem (.state (.gTasks t)) = TaskState.RUNNABLE ∨
        σ.mem (.state (.gTasks t)) = TaskState.UNUSED := by
      rw [hidle]
      split
      · exact Or.inl rfl
      · exact Or.inr rfl
    refine ⟨⟨fun hx => ?_, fun ⟨h, ⟨hh, hx⟩, _⟩ => absurd hx (hno h hh)⟩,
      fun _ => hno, fun _ => hst⟩
    rw [hx] at hst
    rcases hst with hst | hst <;> cases hst

end

/-- An added slot is RUNNABLE or RUNNING, and a slot that was never added UNUSED. -/
theorem Inv.slot_state (hI : Inv cfg σ vs) (hop : (vs 0).k.stage = .opened) (t : Slot) :
    ((t : ℕ) < cfg.pids.length → σ.mem (.state (.gTasks t)) = TaskState.RUNNABLE ∨
      σ.mem (.state (.gTasks t)) = TaskState.RUNNING) ∧
    (cfg.pids.length ≤ t → σ.mem (.state (.gTasks t)) = TaskState.UNUSED) := by
  have hs := (hI.table hop).state t
  by_cases hrun : ∃ h < cfg.harts, (vs h).k.run = some t
  · obtain ⟨h, hh, hrun⟩ := hrun
    obtain ⟨hst, hlt⟩ := hs.running h hh hrun
    rw [hst]
    exact ⟨fun _ => ((hI.ok h hh).run_st t hrun).imp_left And.left,
      fun hle => absurd hlt (Nat.not_lt.2 hle)⟩
  · rw [hs.idle fun h hh hr => hrun ⟨h, hh, hr⟩]
    exact ⟨fun hlt => Or.inl (if_pos hlt), fun hle => if_neg (Nat.not_lt.2 hle)⟩

/-! ## The return to the scheduler -/

/-- The rest of a round of `scheduler` is safe only for the task that it was switched away from,
on the hart whose scheduler it is. -/
theorem afterSwitch_of_safe {c : ℕ} {t' : Slot} {f : Unit → Code} {w : View} {en : I32}
    {fs : List Fn} (hs : Safe cfg ((afterSwitch c t').bind f) w) (hok : w.Ok cfg)
    (hk : w.k = .resumed .scheduler h en t fs) : t' = t ∧ c = h := by
  obtain ⟨hp, hrest⟩ := safe_pre (o := .point (.switched_back t')) hs hok
  have ht : w.k.run = some t' := hp.1
  obtain ⟨hp', _⟩ := safe_pre (o := .store (.cpu_task c) none)
    (hrest () (w.after (.point (.switched_back t')) ()) ⟨trivial, rfl⟩ (hok.after hp rfl ()))
    (hok.after hp rfl ())
  have hc : c = w.k.hart := hp'.1
  rw [hk] at ht hc
  cases ht
  exact ⟨rfl, hc⟩

/-- `switch_to`, called by `sched` for task `t`, returns in the scheduler of its hart, in the round
for `t`. -/
theorem Inv.back_in_scheduler (hI : Inv cfg σ vs) (hg : GRun cfg tr σ vs) (hh : h < cfg.harts)
    {c : CtxPtr} {fail : Bool} (hn : σ.next h = some (.ret (.task (.gTasks t)) c))
    (hs : σ.step cfg.layout cfg.harts (.hart h fail) = some σ') :
    c = .cpu h ∧ (vs h).k.held = some t ∧ ∃ f, (σ'.harts h).code = (afterSwitch h t).bind f := by
  have hhart := (hI.hart h hh).hart
  obtain ⟨s, en, t', ρ, hk, hold, hnew, hsaved, hload⟩ := hI.pre_next hh hn
  rw [hhart] at hold hnew
  cases s with
  | scheduler => cases hold
  | sched =>
    cases hold
    subst hnew
    have hop : (vs 0).k.stage = .opened := hI.opened h hh (by rw [hk]; rfl)
    obtain ⟨v, c, hc, _, hstk, _⟩ := (hI.contexts hop).hart h hh t (by rw [hk]; rfl)
    have hload' : ∀ i, ctxOf (σ.harts h).regs i = σ.mem (.cpu_context h i) := by
      intro i
      rw [(hI.hart h hh).regs, hload i]
      exact (hI.owned h hh (.cpu_context h i) hhart.symm).symm
    obtain ⟨c', t', f, hcode⟩ := (codes hg).scheduler _ _ h (by rw [hc.stack, hstk]; rfl) hc.parked
    refine ⟨rfl, by rw [hk]; rfl, ?_⟩
    obtain ⟨vs', hm, hI'⟩ := hI.step hs
    cases hm with
    | @ret _ _ s' _ _ _ _ _ w hh' hi hcode' _ _ hw =>
      rw [next_eq hi hcode'] at hn
      cases s' with
      | scheduler => cases hn
      | sched =>
        cases hn
        obtain ⟨fs, hw⟩ := hw.of_sched
        have hsafe := hI'.safe h hh
        have hok := hI'.ok h hh
        rw [Function.update_self] at hsafe hok
        have hx : (σ.setHart h ((σ.harts h).afterRet cfg.layout σ.parked)).harts h =
            { σ.harts h with calls := v.k.calls, code := (afterSwitch c' t').bind f } := by
          rw [← show c = (afterSwitch c' t').bind f from hcode, ← hc.afterRet _ hload']
          exact Function.update_self _ _ _
        rw [hx] at hsafe ⊢
        obtain ⟨rfl, rfl⟩ := afterSwitch_of_safe hsafe hok hw
        exact ⟨f, rfl⟩
    | trap hh hi _ =>
      rw [State.next, if_pos hi] at hn
      cases hn
    | op hh hi hcode' hsimple =>
      rw [next_eq hi hcode'] at hn
      cases hn
      cases hsimple
    | loop hh hi hcode' =>
      rw [next_eq hi hcode'] at hn
      cases hn
    | call hh hi hcode' =>
      rw [next_eq hi hcode'] at hn
      cases hn

/-- Once hart 0 has opened the barrier: a slot whose lock is free is RUNNING exactly when one hart
has it as its task, and RUNNABLE or UNUSED exactly when none has; no added task is lost, and a slot
that was never added stays UNUSED. And when `sched` returns from task `t` to the scheduler of hart
`h`, that hart has the lock of `t` taken, and goes on with the rest of the round for `t`, which
releases it. -/
theorem task_table (hr : Run (kernel cfg) tr σ) :
    ((∃ x ∈ tr, opensBarrier x = true) → ∀ t : Slot,
      (σ.mem (.cell (.isLocked (.gTasks t))) = (0 : I32) →
        (σ.mem (.state (.gTasks t)) = TaskState.RUNNING ↔
          ∃! h, h < cfg.harts ∧ σ.mem (.cpu_task h) = some (.gTasks t)) ∧
        (σ.mem (.state (.gTasks t)) = TaskState.RUNNABLE ∨
          σ.mem (.state (.gTasks t)) = TaskState.UNUSED ↔
          ∀ h < cfg.harts, σ.mem (.cpu_task h) ≠ some (.gTasks t))) ∧
      ((t : ℕ) < cfg.pids.length → σ.mem (.state (.gTasks t)) = TaskState.RUNNABLE ∨
        σ.mem (.state (.gTasks t)) = TaskState.RUNNING) ∧
      (cfg.pids.length ≤ t → σ.mem (.state (.gTasks t)) = TaskState.UNUSED)) ∧
    ∀ h < cfg.harts, ∀ (t : Slot) c fail σ', σ.next h = some (.ret (.task (.gTasks t)) c) →
      σ.step cfg.layout cfg.harts (.hart h fail) = some σ' →
      c = .cpu h ∧ hasTaken h (.gTasks t) tr = true ∧
        ∃ f, (σ'.harts h).code = (afterSwitch h t).bind f := by
  obtain ⟨vs, hg⟩ := grun_of_run hr
  have hI := hg.inv
  refine ⟨fun hb t => ?_, fun h hh t c fail σ' hn hs => ?_⟩
  · have hop := (opened hg).stage.1 hb
    exact ⟨Inv.free_slot hI hop, Inv.slot_state hI hop t⟩
  · obtain ⟨hc, hheld, hcode⟩ := Inv.back_in_scheduler hI hg hh hn hs
    exact ⟨hc, (taken hg h hh _).2 ⟨t, rfl, hheld⟩, hcode⟩

/-- The only hart runs the first task, and nobody the second. -/
theorem task_table_running : ∃ (tr : Trace) (σ : State),
    Run (kernel (.sample 1 (by decide) (by decide))) tr σ ∧
      σ.mem (.cell (.isLocked (.gTasks 0))) = (0 : I32) ∧
      (∃! h, h < 1 ∧ σ.mem (.cpu_task h) = some (.gTasks 0)) ∧
      σ.mem (.state (.gTasks 2)) = TaskState.UNUSED := by
  obtain ⟨tr, σ, hr, hp⟩ := Run.of_start (.sample 1 (by decide) (by decide)) Layout.sample_apart
    (List.replicate 570 (.hart 0 false)) (fun x => x.1.any opensBarrier &&
      decide (x.2.mem (.cell (.isLocked (.gTasks 0))) = (0 : I32)) &&
      decide (x.2.mem (.state (.gTasks 0)) = TaskState.RUNNING)) (by decide +kernel)
  simp only [Bool.and_eq_true, List.any_eq_true, decide_eq_true_eq] at hp
  obtain ⟨⟨hb, hfree⟩, hst⟩ := hp
  have h := (task_table hr).1 hb
  exact ⟨tr, σ, hr, hfree, ((h 0).1 hfree).1.1 hst, (h 2).2.2 (by decide)⟩

end GQuuuuuunix.Properties
