import GQuuuuuunix.Proof.Logic

/-! # Every operation keeps the record consistent -/

namespace GQuuuuuunix.Proof
open Lib Kernel
set_option autoImplicit false

variable {n : ℕ} {k : Ghost}

/-! ## The record -/

theorem Ghost.Ok.task_none (hok : k.Ok n) (hr : k.run = none) : k.task = none := by
  cases ht : k.task with
  | none => rfl
  | some t =>
    have h := hok.task_run t ht
    rw [hr] at h
    cases h

theorem Ghost.Ok.stk_hart_of_run (hok : k.Ok n) (hr : k.run = none) : k.stk = .hart k.hart := by
  cases hs : k.stk with
  | hart h => rw [hok.stk_hart h hs]
  | task t =>
    have h := (hok.stk_task t hs).1
    rw [hr] at h
    cases h

theorem Ghost.Ok.setEna (hok : k.Ok n) (x : I32) : (k.setEna x).Ok n :=
  { hok with
    sie_ok := fun hs => by
      obtain ⟨h1, h2, h3, h4, h5, h6, h7⟩ := hok.sie_ok hs
      exact ⟨h1, h2, h3, h4, h5, h6, h7⟩ }

theorem Ghost.Ok.setOff (hok : k.Ok n) (hs : k.sie = false) (hin : inside k.calls = true)
    (x : I32) : (k.setOff x).Ok n :=
  { hok with
    sie_ok := fun h => absurd (show k.sie = true from h) (by simp [hs])
    balanced := fun h => absurd (show inside k.calls = false from h) (by simp [hin]) }

theorem Ghost.Ok.clearTask (hok : k.Ok n) {h : ℕ} (hstk : k.stk = .hart h) :
    (k.setTask none).Ok n :=
  { hok with
    stk_task := fun t ht => absurd (show k.stk = .task t from ht) (by simp [hstk])
    task_run := fun t ht => by cases ht
    sie_ok := fun hs => by
      obtain ⟨h1, h2, h3, h4, h5, h6, h7⟩ := hok.sie_ok hs
      exact ⟨h1, h2, h3, h4, h5, h6, h7⟩ }

theorem Ghost.Ok.setTask (hok : k.Ok n) {t : Slot} (hrun : k.run = some t) :
    (k.setTask (some t)).Ok n :=
  { hok with
    stk_task := fun t' ht => by
      obtain ⟨h1, _, h3⟩ := hok.stk_task t' ht
      refine ⟨h1, ?_, h3⟩
      rw [← h1, hrun]
      rfl
    task_run := fun t' ht => by
      cases ht
      exact hrun
    sie_ok := fun hs => by
      obtain ⟨h1, h2, h3, h4, h5, h6, h7⟩ := hok.sie_ok hs
      exact ⟨h1, h2, h3, h4, h5, h6, h7⟩ }

theorem Ghost.Ok.setSt (hok : k.Ok n) {t : Slot} (hheld : k.held = some t)
    (hrun : k.run = some t) {x : TaskState} (hx : x = .RUNNABLE ∨ x = .RUNNING) :
    (k.setSt x).Ok n :=
  { hok with
    run_st := fun t' ht => by
      rcases hx with rfl | rfl
      · refine Or.inl ⟨rfl, ?_⟩
        rw [← show k.run = some t' from ht, hrun]
        exact hheld
      · exact Or.inr rfl
    sie_ok := fun hs => absurd (show k.sie = true from hs) (by simp [hok.held_sie t hheld]) }

theorem Ghost.Ok.setOwn (hok : k.Ok n) {t : Slot} (hheld : k.held = some t)
    (hin : inside k.calls = true) (b : Bool) : (k.setOwn b).Ok n :=
  { hok with
    own_held := fun _ => by
      show k.held.isSome = true
      rw [hheld]
      rfl
    sie_ok := fun hs => absurd (show k.sie = true from hs) (by simp [hok.held_sie t hheld])
    balanced := fun h => absurd (show inside k.calls = false from h) (by simp [hin]) }

theorem Ghost.Ok.claim (hok : k.Ok n) {t : Slot} (hheld : k.held = some t)
    (hrun : k.run = none) : (k.claim t).Ok n :=
  { hok with
    stk_task := fun t' ht => absurd (show k.stk = .task t' from ht)
      (by simp [hok.stk_hart_of_run hrun])
    run_opened := fun t' _ => hok.held_opened t hheld
    run_st := fun t' ht => Or.inl ⟨rfl, by cases ht; exact hheld⟩
    run_held := fun t' h ht _ => by cases ht; exact hheld
    held_run := fun t1 t2 h1 h2 => by
      cases h2
      exact Option.some.inj (h1.symm.trans hheld)
    task_run := fun t' ht => absurd (show k.task = some t' from ht)
      (by simp [hok.task_none hrun])
    sw_run := fun t' ρ ht => absurd (hok.sw_run t' ρ ht) (by simp [hrun])
    sie_ok := fun hs => absurd (show k.sie = true from hs) (by simp [hok.held_sie t hheld]) }

theorem Ghost.Ok.setScan (hok : k.Ok n) {h : ℕ} (hstk : k.stk = .hart h) (i : ℕ) :
    (k.setScan i).Ok n :=
  { hok with
    stk_task := fun t ht => absurd (show k.stk = .task t from ht) (by simp [hstk])
    sie_ok := fun hs => by
      obtain ⟨h1, h2, h3, h4, h5, h6, h7⟩ := hok.sie_ok hs
      exact ⟨h1, h2, h3, h4, h5, h6, h7⟩ }

theorem Ghost.Ok.setTrap (hok : k.Ok n) (hs : k.sie = false) (p : TrapPhase) :
    (k.setTrap p).Ok n :=
  { hok with sie_ok := fun h => absurd (show k.sie = true from h) (by simp [hs]) }

theorem Ghost.Ok.take (hok : k.Ok n) {t : Slot} (hp : TestSetPre t k) : (k.take t).Ok n :=
  { hok with
    held_opened := fun _ _ => hp.stage
    run_st := fun t' ht => by
      rcases hok.run_st t' ht with ⟨_, h⟩ | h
      · rw [hp.held] at h
        cases h
      · exact Or.inr h
    run_held := fun t' h ht _ => by
      rw [hp.run t' ht]
      rfl
    held_run := fun t1 t2 h1 h2 => by
      cases h1
      exact (hp.run t2 h2).symm
    own_held := fun _ => rfl
    held_sie := fun _ _ => hp.sie
    sie_ok := fun h => absurd (show k.sie = true from h) (by simp [hp.sie])
    balanced := fun h => absurd (show inside k.calls = false from h) (by simp [hp.inside])
    back_held := fun t' h => by
      have h' := hok.back_held t' h
      rw [hp.held] at h'
      cases h' }

theorem Ghost.Ok.drop (hok : k.Ok n) {t : Slot} (hp : ClearPre t k) : k.drop.Ok n := by
  have hrun : ∀ t', k.drop.run = some t' → k.run = some t' ∧ k.st = .RUNNING ∧ k.stk = .task t := by
    intro t' h
    have h' : (if k.st = .RUNNABLE then none else k.run) = some t' := h
    split at h'
    · cases h'
    · next hne =>
      rcases hp.place with ⟨hst, _⟩ | hr | ⟨hst, hstk⟩
      · exact absurd hst hne
      · rw [hr] at h'
        cases h'
      · exact ⟨h', hst, hstk⟩
  have hkeep : ∀ t', k.stk = .task t' → k.drop.run = k.run := by
    intro t' hstk
    show (if k.st = .RUNNABLE then none else k.run) = k.run
    split
    · next hst =>
      rcases hp.place with ⟨_, htask⟩ | hr | ⟨hst', _⟩
      · rw [(hok.stk_task t' hstk).2.1] at htask
        cases htask
      · rw [hr]
      · rw [hst] at hst'
        cases hst'
    · rfl
  exact { hok with
    stk_task := fun t' ht => by
      rw [hkeep t' ht]
      exact hok.stk_task t' ht
    run_opened := fun t' ht => hok.run_opened t' (hrun t' ht).1
    held_opened := fun t' ht => by cases ht
    run_st := fun t' ht => Or.inr (hrun t' ht).2.1
    run_held := fun t' h ht hstk => absurd (show k.stk = .hart h from hstk)
      (by simp [(hrun t' ht).2.2])
    held_run := fun t1 t2 h1 _ => by cases h1
    task_run := fun t' ht => by
      have hr := hok.task_run t' ht
      show (if k.st = .RUNNABLE then none else k.run) = some t'
      rcases hp.place with ⟨_, htask⟩ | hr' | ⟨hst, _⟩
      · rw [show k.task = some t' from ht] at htask
        cases htask
      · rw [hr'] at hr
        cases hr
      · rw [if_neg (by simp [hst])]
        exact hr
    own_held := fun h => absurd (show k.own = true from h) (by simp [hp.own])
    held_sie := fun t' h => by cases h
    sie_ok := fun h => absurd (show k.sie = true from h) (by simp [hp.sie])
    balanced := fun h => absurd (show inside k.calls = false from h) (by simp [hp.inside])
    back_held := fun t' h => absurd (show k.back = some t' from h) (by simp [hp.back])
    sw_run := fun t' ρ h => absurd (show k.sw = some (t', ρ) from h) (by simp [hp.sw]) }

theorem Ghost.Ok.pass (hok : k.Ok n) (hs : k.sie = false) : k.pass.Ok n :=
  { hok with
    boot_hart := fun h => by cases h
    run_opened := fun _ _ => rfl
    held_opened := fun _ _ => rfl
    scheduler_opened := fun _ => rfl
    sie_ok := fun h => absurd (show k.sie = true from h) (by simp [hs]) }

theorem Ghost.Ok.setSie (hok : k.Ok n) {b : Bool} (hi : b = true → k.Interruptible) :
    (k.setSie b).Ok n :=
  { hok with
    held_sie := fun t ht => by
      cases b with
      | false => rfl
      | true =>
        have ht' : k.held = some t := ht
        rw [(hi rfl).held] at ht'
        cases ht'
    sie_ok := fun hb => by
      obtain ⟨h1, h2, h3, h4, h5, h6, h7⟩ := hi hb
      exact ⟨h1, h2, h3, h4, h5, h6, h7⟩ }

theorem Ghost.Ok.setStvec (hok : k.Ok n) : ({ k with stvec := true } : Ghost).Ok n :=
  { hok with
    sie_ok := fun hs => by
      obtain ⟨h1, h2, h3, h4, h5, h6, h7⟩ := hok.sie_ok hs
      exact ⟨h1, h2, h3, rfl, h5, h6, h7⟩ }

theorem Ghost.Ok.setBack (hok : k.Ok n) {t : Slot} (hheld : k.held = some t) :
    ({ k with back := some t } : Ghost).Ok n :=
  { hok with
    sie_ok := fun hs => absurd (show k.sie = true from hs) (by simp [hok.held_sie t hheld])
    back_held := fun t' h => by cases h; exact hheld }

theorem Ghost.Ok.setCalls (hok : k.Ok n) {fs : List Fn}
    (hb : inside fs = false →
      k.off = (if k.held.isSome then 1 else 0) ∧ (k.held.isSome → k.own = true))
    (hsc : .scheduler ∈ fs → k.stage = .opened) : (k.setCalls fs).Ok n :=
  { hok with
    sie_ok := fun hs => by
      obtain ⟨h1, h2, h3, h4, h5, h6, h7⟩ := hok.sie_ok hs
      exact ⟨h1, h2, h3, h4, h5, h6, h7⟩
    balanced := hb
    scheduler_opened := hsc }

theorem Ghost.Ok.enterCalls (hok : k.Ok n) {f : Fn} (hf : ∀ h, f ≠ .kernelvec h)
    (hsc : f = .scheduler → k.stage = .opened) : (k.setCalls (f :: k.calls)).Ok n := by
  refine hok.setCalls (fun h => hok.balanced ?_) fun hm => ?_
  · cases hb : Fn.lockBody f with
    | true =>
      rw [inside_cons_body _ hb] at h
      cases h
    | false => rwa [inside_cons _ hb hf] at h
  · rcases List.mem_cons.1 hm with h | h
    · exact hsc h.symm
    · exact hok.scheduler_opened h

theorem Ghost.Ok.leaveCalls (hok : k.Ok n) (hb : inside k.calls.tail = false →
      k.off = (if k.held.isSome then 1 else 0) ∧ (k.held.isSome → k.own = true)) :
    (k.setCalls k.calls.tail).Ok n :=
  hok.setCalls hb fun hm => hok.scheduler_opened (List.mem_of_mem_tail hm)

theorem Ghost.Ok.enterRelease (hok : k.Ok n) (lk : TaskPtr) :
    ({ k with calls := .release lk :: k.calls, back := none } : Ghost).Ok n := by
  have h := hok.enterCalls (f := .release lk) (by simp) (by simp)
  exact { h with
    sie_ok := fun hs => by
      obtain ⟨h1, h2, h3, h4, h5, h6, h7⟩ := h.sie_ok hs
      exact ⟨h1, h2, h3, h4, h5, h6, h7⟩
    back_held := fun _ ht => by cases ht }

theorem Ghost.Ok.trapAt (hok : k.Ok n) (hs : k.sie = true) : k.trapAt.Ok n := by
  have hi := hok.sie_ok hs
  exact { hok with
    held_sie := fun _ _ => rfl
    sie_ok := fun h => by cases h
    balanced := fun _ => by
      show k.off = (if k.held.isSome then 1 else 0) ∧ (k.held.isSome → k.own = true)
      rw [hi.off, hi.held]
      exact ⟨rfl, fun h => by cases h⟩
    scheduler_opened := fun _ => hi.stage }

theorem Ghost.Ok.sret (hok : k.Ok n) {s : Snapshot}
    (hi : (k.after (.sret s) ()).Interruptible) : (k.after (.sret s) ()).Ok n := by
  have hheld : k.held = none := hi.held
  exact { hok with
    held_sie := fun t ht => absurd (show k.held = some t from ht) (by simp [hheld])
    sie_ok := fun _ => hi
    balanced := fun _ => by
      show k.off = (if k.held.isSome then 1 else 0) ∧ (k.held.isSome → k.own = true)
      rw [show k.off = 0 from hi.off, hheld]
      exact ⟨rfl, fun h => by cases h⟩
    scheduler_opened := fun _ => hi.stage }

theorem Ghost.Ok.sie_of_trap (hok : k.Ok n) (ht : k.trap ≠ .idle) : k.sie = false := by
  by_contra hs
  exact ht (hok.sie_ok (by simpa using hs)).trap

theorem Ghost.Ok.sie_of_stage (hok : k.Ok n) (hst : k.stage ≠ .opened) : k.sie = false := by
  by_contra hs
  exact hst (hok.sie_ok (by simpa using hs)).stage

/-! ## One operation -/

section
variable {cfg : Config} {v : View}

theorem Ghost.Ok.load (hok : v.k.Ok n) (l : Loc) (r : l.Ty) :
    (v.k.after (.load l) r).Ok n := by
  cases l with
  | state p =>
    cases p with
    | static j => exact hok
    | gTasks t =>
      show Ghost.Ok n (if v.k.held = some t ∧ v.k.run = none then
        if r = TaskState.RUNNABLE then v.k.claim t else v.k.setScan (t + 1) else v.k)
      split
      · next h =>
        split
        · exact hok.claim h.1 h.2
        · exact hok.setScan (hok.stk_hart_of_run h.2) _
      · exact hok
  | _ => exact hok

theorem Ghost.Ok.store (hok : v.k.Ok n) {l : Loc} {x : l.Ty} (hp : StorePre l x v) :
    (v.k.after (.store l x) ()).Ok n := by
  cases l with
  | off_nrs c => exact hok.setOff hp.2.1 hp.2.2 x
  | intr_ena_before c => exact hok.setEna x
  | cpu_task c =>
    obtain ⟨_, ⟨hx, hstk⟩ | ⟨t, hx, hrun⟩⟩ := hp
    · rw [hx]
      exact hok.clearTask hstk
    · rw [hx]
      exact hok.setTask hrun
  | state p =>
    show Ghost.Ok n (if v.k.stage = .boot then v.k else v.k.setSt x)
    split
    · exact hok
    · next hst =>
      obtain hb | ⟨t, _, hheld, hrun, hx⟩ := hp
      · exact absurd hb hst
      · exact hok.setSt hheld hrun (hx.imp id fun h => h.1)
  | lk_cpu p =>
    show Ghost.Ok n (if v.k.stage = .boot then v.k else v.k.setOwn (Option.isSome x))
    split
    · exact hok
    · next hst =>
      obtain hb | ⟨t, _, hheld, hin, _⟩ := hp
      · exact absurd hb.1 hst
      · exact hok.setOwn hheld hin _
  | gticks =>
    have ht : v.k.trap = .gticks_due := hp.2.1
    exact hok.setTrap (hok.sie_of_trap (by simp [ht])) _
  | time_data =>
    show Ghost.Ok n (if v.k.stage = .boot then v.k else v.k.setTrap .counted)
    split
    · exact hok
    · next hst =>
      obtain hb | ⟨_, _, ht, _⟩ := hp
      · exact absurd hb.1 hst
      · exact hok.setTrap (hok.sie_of_trap (by simp [ht])) _
  | _ => exact hok

theorem Ghost.Ok.sc (hok : v.k.Ok n) {c : Cell} {x r : I32} (hp : ScPre cfg c x v.k v.m) :
    (v.k.after (.sc c x) r).Ok n := by
  obtain ⟨t, rfl, _, hc⟩ | ⟨rfl, _, hs, _⟩ := hp
  · show Ghost.Ok n (if r = (0 : I32) then v.k.drop else v.k)
    split
    · exact hok.drop hc
    · exact hok
  · show Ghost.Ok n (if r = (0 : I32) then v.k.pass else v.k)
    split
    · exact hok.pass hs
    · exact hok

theorem Ghost.Ok.point (hok : v.k.Ok n) {p : Point} (hp : PointPre p v.k) :
    (v.k.after (.point p) ()).Ok n := by
  cases p with
  | software_interrupt =>
    have ht : v.k.trap = .entered := hp
    exact hok.setTrap (hok.sie_of_trap (by simp [ht])) _
  | pass_begin => exact hok.setScan hp.2.2.1 _
  | pass_end => exact hok
  | switched_back t => exact hok.setBack hp.2.1
  | returned a0 => exact hok

theorem Ghost.Ok.after (hok : v.k.Ok n) {o : Op} (hp : Pre cfg o v) (r : o.Ret) :
    (v.k.after o r).Ok n := by
  cases o with
  | load l => exact hok.load l r
  | store l x => exact hok.store hp
  | amoswap c x =>
    obtain ⟨t, rfl, _, ht⟩ := hp
    show Ghost.Ok n (if r = (0 : I32) then v.k.take t else v.k)
    split
    · exact hok.take ht
    · exact hok
  | lr c =>
    cases c with
    | isLocked p => exact hok
    | start =>
      show Ghost.Ok n (if v.k.stage = .wait ∧ r ≠ (0 : I32) then v.k.pass else v.k)
      split
      · next h => exact hok.pass (hok.sie_of_stage (by simp [h.1]))
      · exact hok
  | sc c x => exact hok.sc hp
  | w_sstatus x => exact hok.setSie hp
  | w_sip x =>
    have ht : v.k.trap = .counted := hp.2
    exact hok.setTrap (hok.sie_of_trap (by simp [ht])) _
  | w_stvec => exact hok.setStvec
  | enter f =>
    have h := hok.enterCalls hp.1 hp.2.2
    cases f with
    | release lk => exact hok.enterRelease lk
    | _ => exact h
  | leave f x => exact hok.leaveCalls hp.2
  | point p => exact hok.point hp
  | sret s => exact hok.sret hp.2.2.1
  | _ => exact hok

end

/-! ## What an operation leaves as it was -/

theorem Ghost.after_off {k : Ghost} {o : Op} (hs : ∀ c x, o ≠ .store (.off_nrs c) x)
    (r : o.Ret) : (k.after o r).off = k.off := by
  unfold Ghost.after
  split <;> try rfl
  all_goals first | (split <;> try rfl) | skip
  · split <;> rfl
  · exact absurd rfl (hs _ _)

theorem Ghost.after_ena {k : Ghost} {o : Op} (hs : ∀ c x, o ≠ .store (.intr_ena_before c) x)
    (r : o.Ret) : (k.after o r).ena = k.ena := by
  unfold Ghost.after
  split <;> try rfl
  all_goals first | (split <;> try rfl) | skip
  · split <;> rfl
  · exact absurd rfl (hs _ _)

theorem Ghost.after_task {k : Ghost} {o : Op} (hs : ∀ c x, o ≠ .store (.cpu_task c) x)
    (r : o.Ret) : (k.after o r).task = k.task := by
  unfold Ghost.after
  split <;> try rfl
  all_goals first | (split <;> try rfl) | skip
  · split <;> rfl
  · exact absurd rfl (hs _ _)

theorem Ghost.after_stage (k : Ghost) (o : Op) (r : o.Ret) :
    (k.after o r).stage = k.stage ∨ (k.after o r).stage = .opened := by
  unfold Ghost.after
  split <;> try exact Or.inl rfl
  all_goals split <;> try exact Or.inl rfl
  · split <;> exact Or.inl rfl
  · exact Or.inr rfl
  · exact Or.inr rfl

theorem Ghost.after_stage_eq {k : Ghost} {o : Op} (hl : o ≠ .lr .start)
    (hs : ∀ x, o ≠ .sc .start x) (r : o.Ret) : (k.after o r).stage = k.stage := by
  unfold Ghost.after
  split <;> try rfl
  all_goals split <;> try rfl
  · split <;> rfl
  · exact absurd rfl hl
  · exact absurd rfl (hs _)

theorem Ghost.after_stk (k : Ghost) (o : Op) (r : o.Ret) : (k.after o r).stk = k.stk := by
  unfold Ghost.after
  split <;> try rfl
  all_goals split <;> try rfl
  split <;> rfl

theorem Ghost.after_held {k : Ghost} {o : Op} (ha : ∀ p x, o ≠ .amoswap (.isLocked p) x)
    (hs : ∀ p x, o ≠ .sc (.isLocked p) x) (r : o.Ret) : (k.after o r).held = k.held := by
  unfold Ghost.after
  split <;> try rfl
  all_goals split <;> try rfl
  · split <;> rfl
  · exact absurd rfl (ha _ _)
  · exact absurd rfl (hs _ _)

theorem Ghost.after_sw (k : Ghost) (o : Op) (r : o.Ret) : (k.after o r).sw = k.sw := by
  unfold Ghost.after
  split <;> try rfl
  all_goals split <;> try rfl
  split <;> rfl

theorem Ghost.after_sie {k : Ghost} {o : Op} (hw : ∀ x, o ≠ .w_sstatus x)
    (hs : ∀ s, o ≠ .sret s) (r : o.Ret) : (k.after o r).sie = k.sie := by
  unfold Ghost.after
  split <;> try rfl
  all_goals first | (split <;> try rfl) | skip
  · split <;> rfl
  · exact absurd rfl (hw _)
  · exact absurd rfl (hs _)

end GQuuuuuunix.Proof
