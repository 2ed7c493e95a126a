import GQuuuuuunix.Kernel.Start
import GQuuuuuunix.Proof.TaskCalls
import GQuuuuuunix.Proof.Ticks
import GQuuuuuunix.Properties.TaskTable
import Mathlib.Data.Fintype.Card

/-! # Up to 64 tasks, addTask spares those that live

The index of the slot wraps after `TASK_MAX_NRS` tasks, and nothing looks whether it is free. -/

namespace GQuuuuuunix.Properties
open Lib Kernel Proof
set_option autoImplicit false

variable {L : Layout} {ts : List (ℕ × I32)} {lost : Bool} {m m' : Mem} {k : ℕ} {pid : I32}

/-! ## The first 64 -/

/-- Slot `i` holds the `i`-th task, and the others are UNUSED. -/
structure InOrder (ts : List (ℕ × I32)) (m : Mem) : Prop where
  taskNrs : m .taskNrs = BitVec.ofNat 64 ts.length
  live : ∀ t : Fin TASK_MAX_NRS, (t : ℕ) < ts.length → Live m t
  pid : ∀ (t : Fin TASK_MAX_NRS) x, ts[(t : ℕ)]? = some x → m (.pid (.gTasks t)) = x.2
  unused : ∀ t : Fin TASK_MAX_NRS, ts.length ≤ t → m (.state (.gTasks t)) = TaskState.UNUSED

theorem InOrder.scheduling (hI : InOrder ts m) (hs : Scheduling ts.length m m') :
    InOrder ts m' := by
  refine ⟨hs.taskNrs.trans hI.taskNrs, fun t ht => hs.live t (hI.live t ht), fun t x hx => ?_,
    fun t ht => (hs.rest t ht).trans (hI.unused t ht)⟩
  rw [hs.pid t]
  exact hI.pid t x hx

theorem InOrder.slot (hI : InOrder ts m) (hlt : ts.length < TASK_MAX_NRS) :
    taskSlot (m .taskNrs) = ⟨ts.length, hlt⟩ := by
  rw [hI.taskNrs, taskSlot_of_lt (Nat.lt_trans hlt (by decide))]
  exact Fin.ext (Nat.mod_eq_of_lt hlt)

theorem InOrder.not_live (hI : InOrder ts m) (hlt : ts.length < TASK_MAX_NRS) :
    ¬ Live m (taskSlot (m .taskNrs)) := by
  rw [hI.slot hlt]
  have hun := hI.unused ⟨ts.length, hlt⟩ (Nat.le_refl _)
  rintro (h | h) <;> rw [hun] at h <;> cases h

/-- What `init_task` and `addTask` of a new struct make of the table. -/
theorem run_add_static : ∃ m1 m', (add_static L (k, pid)).run memExec m = .ok ((), m') ∧
    Proof.Initialised L (.static k) pid m m1 ∧
    TaskCopied (.gTasks (taskSlot (m1 .taskNrs))) (.static k)
      (m1.set .taskNrs (m1 .taskNrs + 1)) m' := by
  refine ⟨_, _, ?_, initialised, taskCopied (by simp)⟩
  unfold add_static
  rw [Prog.bind_eq, Prog.run_bind, run_init_task]
  exact run_addTask

theorem InOrder.pair (hI : InOrder ts m) (hlt : ts.length < TASK_MAX_NRS)
    (hrun : (add_static L (k, pid)).run memExec m = .ok ((), m')) :
    InOrder (ts ++ [(k, pid)]) m' := by
  obtain ⟨m1, m2, hrun', hi, hc⟩ := @run_add_static L m k pid
  rw [hrun] at hrun'
  cases hrun'
  have hnrs : m1 .taskNrs = m .taskNrs := hi.frame _ rfl
  rw [hnrs, hI.slot hlt] at hc
  have hlen : (ts ++ [(k, pid)]).length = ts.length + 1 := List.length_append
  have hnew : ∀ t : Fin TASK_MAX_NRS, (t : ℕ) = ts.length →
      m' (.state (.gTasks t)) = TaskState.RUNNABLE ∧ m' (.pid (.gTasks t)) = pid := by
    intro t ht
    have hslot : t = ⟨ts.length, hlt⟩ := Fin.ext ht
    rw [hslot, hc.state, hc.pid]
    exact ⟨hi.state, hi.pid⟩
  have hold : ∀ t : Fin TASK_MAX_NRS, (t : ℕ) ≠ ts.length →
      m' (.state (.gTasks t)) = m (.state (.gTasks t)) ∧
        m' (.pid (.gTasks t)) = m (.pid (.gTasks t)) := by
    intro t ht
    have hne : decide (TaskPtr.gTasks t = .gTasks ⟨ts.length, hlt⟩) = false :=
      decide_eq_false fun he => ht (by cases he; rfl)
    rw [hc.frame (.state (.gTasks t)) hne, hc.frame (.pid (.gTasks t)) hne]
    exact ⟨hi.frame _ rfl, hi.frame _ rfl⟩
  refine ⟨?_, fun t ht => ?_, fun t x hx => ?_, fun t ht => ?_⟩
  · rw [hc.frame _ rfl, Mem.set_self, hI.taskNrs, hlen, BitVec.ofNat_add]
    rfl
  · by_cases h1 : (t : ℕ) = ts.length
    · exact Or.inl (hnew t h1).1
    · unfold Live
      rw [(hold t h1).1]
      exact hI.live t (by omega)
  · by_cases h1 : (t : ℕ) = ts.length
    · rw [h1, List.getElem?_concat_length] at hx
      cases hx
      exact (hnew t h1).2
    · have hlt' : (t : ℕ) < ts.length := by
        have := (List.getElem?_eq_some_iff.1 hx).1
        omega
      rw [List.getElem?_append_left hlt'] at hx
      rw [(hold t h1).2]
      exact hI.pid t x hx
  · rw [(hold t (by omega)).1]
    exact hI.unused t (by omega)

theorem InOrder.kept (hI : InOrder ts m) (hle : ts.length ≤ TASK_MAX_NRS) : Kept ts m := by
  refine ⟨fun i => ⟨i, Nat.lt_of_lt_of_le i.isLt hle⟩, fun i j hij => ?_, fun i => ⟨?_, ?_⟩⟩
  · exact Fin.ext (Fin.mk.inj_iff.1 hij)
  · exact hI.live _ i.isLt
  · exact hI.pid _ _ (List.getElem?_eq_getElem i.isLt)

theorem inOrder (ha : Added L ts lost m) (hle : ts.length ≤ TASK_MAX_NRS) :
    lost = false ∧ InOrder ts m := by
  induction ha with
  | start hm =>
    refine ⟨rfl, hm.taskNrs, fun t ht => absurd ht (Nat.not_lt_zero _), fun t x hx => ?_,
      fun t _ => hm.unused t⟩
    cases hx
  | @pair ts lost m m' k pid ha hk hrun ih =>
    rw [List.length_append] at hle
    obtain ⟨hlost, hI⟩ := ih (by omega)
    refine ⟨?_, hI.pair hle hrun⟩
    rw [hlost, Bool.false_or]
    exact decide_eq_false (hI.not_live hle)
  | scheduling ha hs ih =>
    obtain ⟨hlost, hI⟩ := ih hle
    exact ⟨hlost, hI.scheduling hs⟩

/-- The tasks added all live on in slots of their own, none written over, if and only if there are
at most 64. -/
theorem live_tasks_kept_iff (ha : Added L ts lost m) :
    lost = false ∧ Kept ts m ↔ ts.length ≤ TASK_MAX_NRS := by
  constructor
  · rintro ⟨-, s, hs, -⟩
    have hcard := Fintype.card_le_of_injective s hs
    rwa [Fintype.card_fin, Fintype.card_fin] at hcard
  · intro hle
    obtain ⟨hlost, hI⟩ := inOrder ha hle
    exact ⟨hlost, hI.kept hle⟩

/-! ## Runs of any length -/

/-- Any number of tasks can be added. -/
theorem added_exists (L : Layout) (n : ℕ) : ∃ lost m,
    Added L ((List.range n).map fun k => (k, (0 : I32))) lost m := by
  induction n with
  | zero => exact ⟨false, Mem.zero, .start ⟨rfl, fun _ => rfl⟩⟩
  | succ n ih =>
    obtain ⟨lost, m, ha⟩ := ih
    obtain ⟨m1, m', hrun, -⟩ := @run_add_static L m n 0
    rw [List.range_succ, List.map_append]
    refine ⟨_, m', ha.pair (fun h => ?_) hrun⟩
    simp at h

theorem live_tasks_kept_not : ¬ ∀ (L : Layout) (ts : List (ℕ × I32)) (lost : Bool) (m : Mem),
    Added L ts lost m → lost = false ∧ Kept ts m := by
  intro hall
  obtain ⟨lost, m, ha⟩ := added_exists .sample 65
  obtain ⟨-, s, hs, -⟩ := hall _ _ _ _ ha
  have hcard := Fintype.card_le_of_injective s hs
  rw [Fintype.card_fin, Fintype.card_fin, List.length_map, List.length_range] at hcard
  exact absurd hcard (by decide)

theorem scheduling_run {n : ℕ} {t : Fin TASK_MAX_NRS} (ht : (t : ℕ) < n) :
    Scheduling n m (m.set (.state (.gTasks t)) TaskState.RUNNING) := by
  refine ⟨Mem.set_ne _ _ (by simp), fun u => Mem.set_ne _ _ (by simp), fun u hu => ?_,
    fun u hu => ?_⟩
  · by_cases hut : u = t
    · subst hut
      exact Or.inr (Mem.set_self ..)
    · unfold Live
      rw [Mem.set_ne _ _ (by simpa using hut)]
      exact hu
  · refine Mem.set_ne _ _ ?_
    simp only [ne_eq, Loc.state.injEq, TaskPtr.gTasks.injEq]
    rintro rfl
    omega

/-- The first of four tasks is dispatched, and then a fifth is added. -/
theorem live_tasks_kept_five : ∃ (m m' : Mem) (lost : Bool),
    m (.state (.gTasks 0)) = TaskState.RUNNING ∧
      (add_static .sample (4, 0)).run memExec m = .ok ((), m') ∧
      Added .sample ((List.range 5).map fun k => (k, (0 : I32))) lost m' ∧ lost = false ∧
      Kept ((List.range 5).map fun k => (k, (0 : I32))) m' := by
  obtain ⟨lost, m, ha⟩ := added_exists .sample 4
  have hs : Added .sample ((List.range 4).map fun k => (k, (0 : I32))) lost _ :=
    ha.scheduling (scheduling_run (t := 0) (by decide))
  obtain ⟨_, m', hrun, -⟩ :=
    @run_add_static .sample (m.set (.state (.gTasks 0)) TaskState.RUNNING) 4 0
  have hfive : Added .sample ((List.range 5).map fun k => (k, (0 : I32))) _ m' :=
    hs.pair (by decide) hrun
  exact ⟨_, m', _, Mem.set_self .., hrun, hfive, (live_tasks_kept_iff hfive).2 (by decide)⟩

/-! ## The scheduling of the kernel -/

/-- Once the barrier is open, every step of the kernel is scheduling in this sense. -/
theorem kernel_scheduling {cfg : Config} {tr : Trace} {σ σ' : State} {e : Event}
    (hr : Run (kernel cfg) tr σ) (hb : ∃ x ∈ tr, opensBarrier x = true)
    (hs : σ.step cfg.layout cfg.harts e = some σ') :
    Scheduling cfg.pids.length σ.mem σ'.mem := by
  obtain ⟨vs, hg⟩ := grun_of_run hr
  have hI := hg.inv
  have hop := (opened hg).stage.1 hb
  obtain ⟨vs', hm, hI'⟩ := hI.step hs
  obtain ⟨x, hx, hxb⟩ := hb
  have hop' := (opened (hg.step hI hm hI')).stage.1 ⟨x, List.mem_cons_of_mem _ hx, hxb⟩
  -- the words that only booting writes
  have hboot : ∀ l, Loc.plain l = true → (∀ y v, StorePre l y v → v.k.stage = .boot) →
      σ'.mem l = σ.mem l := by
    intro l hl hpre
    rcases hm.stored hl hI with h | ⟨g, y, hgn, -, hp, -⟩
    · exact h.1
    · exact absurd (hpre y _ hp) (hI.not_boot cfg.harts_pos hgn hop)
  refine ⟨hboot _ rfl fun _ _ h => h, fun t => hboot _ rfl fun _ _ h => h, fun t ht => ?_,
    fun t ht => ?_⟩
  · refine (Inv.slot_state hI' hop' t).1 ?_
    by_contra hge
    have hun := (Inv.slot_state hI hop t).2 (by omega)
    rcases ht with h | h <;> rw [hun] at h <;> cases h
  · rw [(Inv.slot_state hI hop t).2 ht, (Inv.slot_state hI' hop' t).2 ht]

end GQuuuuuunix.Properties
