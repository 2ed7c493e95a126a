import GQuuuuuunix.Proof.Locks

/-! # sched.c and `dummy_task` -/

namespace GQuuuuuunix.Proof
open Lib Kernel
set_option autoImplicit false

variable {cfg : Config} {α β : Type} {k : Ghost} {m : Own}

/-! ## The accesses to the table -/

theorem does_load_state_run {t : Slot} {Q : TaskState → Ghost → Own → Prop} (hs : k.sie = false)
    (hrun : k.run = some t) (h : Q k.st k m) :
    Does cfg (load (.state (.gTasks t))) k m Q := by
  refine Does.op rfl hs fun v hk hm _ => ⟨fun _ hn => ?_, fun r w hw _ => ?_⟩
  · rw [hk, hrun] at hn
    cases hn
  · obtain ⟨ha, μ, hμ, rfl⟩ := hw
    have hr : r = v.k.st := ha.1 (by rw [hk, hrun])
    have hμ' : μ = v.m.mem := hμ (Or.inr (by rw [hk, hrun]; simp))
    have hk' : k.after (.load (.state (.gTasks t))) k.st = k := if_neg (by simp [hrun])
    subst hμ'
    rw [hr, hk]
    show Q k.st (k.after (.load (.state (.gTasks t))) k.st) v.m
    rw [hk', hm]
    exact h

theorem does_store_state {t : Slot} {x : TaskState} {Q : Unit → Ghost → Own → Prop}
    (hs : k.sie = false) (hst : k.stage = .opened) (hheld : k.held = some t)
    (hrun : k.run = some t) (hx : x = .RUNNABLE ∨ (x = .RUNNING ∧ k.scan = t))
    (h : Q () (k.setSt x) m) : Does cfg (store (.state (.gTasks t)) x) k m Q := by
  have hb : ¬ k.stage = .boot := by rw [hst]; decide
  refine Does.plain rfl rfl hs fun v hk _ _ => ⟨?_, fun r _ => ?_⟩
  · refine Or.inr ⟨t, rfl, ?_⟩
    rw [hk]
    exact ⟨hheld, hrun, hx⟩
  · have hk' : k.after (.store (.state (.gTasks t)) x) r = k.setSt x := if_neg hb
    have hm : m.after k v.regs (.store (.state (.gTasks t)) x) = m := by
      simp [Own.after, Ghost.keeps, hb]
    rw [hk', hm]
    exact h

theorem does_call_switch_to {s : SwitchSite} {h : ℕ} {e : I32} {t : Slot} {f : List Fn}
    {Q : Unit → Ghost → Own → Prop}
    (hQ : ∀ h' e' m', (s = .scheduler → h' = h) →
      (s = .sched → SameStack cfg.layout (.task t) m m') → Q () (.resumed s h' e' t f) m') :
    Does cfg (call_switch_to s (oldCtx s h t) (newCtx s h t)) (.atSwitch s h e t f) m Q := by
  refine Does.op rfl rfl fun v hk hm _ => ⟨⟨e, t, ?_⟩, fun r w hw _ => ?_⟩
  · rw [hk]
    exact ⟨rfl, rfl, rfl⟩
  · obtain ⟨t', h', e', hrun, hk', hh, hst⟩ := hw
    rw [hk] at hrun hk' hh
    cases hrun
    rw [hk']
    rw [hm] at hst
    exact hQ h' e' w.m hh hst

/-! ## sched and yield -/

/-- `sched`, called by `yield`: the task comes back on some hart, RUNNING, its stack untouched. -/
theorem does_sched {h : ℕ} {t : Slot} {f : List Fn} {Q : Unit → Ghost → Own → Prop}
    (hQ : ∀ h' m', SameStack cfg.layout (.task t) m m' → Q () (.resumed .sched h' 0 t f) m') :
    Does cfg sched (.atSwitch .sched h 0 t f) m Q := by
  unfold sched
  refine Does.bind (does_get_cur_task rfl ?_)
  refine Does.bind (does_is_holding_own rfl rfl rfl rfl ?_)
  refine does_if_neg (by decide) ?_
  refine Does.bind (does_load_state_run rfl rfl ?_)
  refine does_if_neg (fun hn => by cases hn) ?_
  refine Does.bind (does_intr_get rfl ?_)
  refine does_if_neg (by decide) ?_
  refine Does.bind (does_get_cur_cpu rfl ?_)
  refine Does.bind (does_load_ena rfl ?_)
  refine Does.bind (does_get_cur_cpu rfl ?_)
  refine Does.bind (does_call_switch_to fun h' e' m' _ hm => ?_)
  refine Does.bind (does_get_cur_cpu rfl ?_)
  exact does_store_ena (k := .resumed .sched h' e' t f) rfl (hQ h' m' (hm rfl))

theorem does_yield {h : ℕ} {e : I32} {t : Slot} {f : List Fn}
    {Q : Unit → Ghost → Own → Prop}
    (hQ : ∀ h' e' m', SameStack cfg.layout (.task t) m m' →
      Q () ((Ghost.running h' false e' t f).setTrap .counted) m') :
    Does cfg yield ((Ghost.running h false e t f).setTrap .counted) m Q := by
  unfold yield
  refine Does.bind (does_enter rfl (by simp) (by simp) (by simp) ?_)
  refine Does.bind (does_get_cur_task rfl ?_)
  refine Does.bind (does_call_acquire rfl rfl rfl (fun t' ht => ?_) fun k' m' hk => ?_)
  · cases ht
    rfl
  obtain ⟨rfl, rfl⟩ := hk.of_sie rfl
  refine Does.bind (does_store_state rfl rfl rfl rfl (Or.inl rfl) ?_)
  refine Does.bind (does_sched (h := h) (t := t) (f := .yield :: f) fun h' m' hm => ?_)
  refine Does.bind
    (does_call_release ⟨rfl, rfl, rfl, rfl, rfl, rfl, Or.inr (Or.inr ⟨rfl, rfl⟩)⟩ rfl ?_)
  exact does_leave rfl ⟨rfl, by simp⟩ (fun _ => ⟨rfl, fun hn => by cases hn⟩) (hQ h' 0 m' hm)

/-! ## scheduler -/

theorem does_load_state_scan {t : Slot} {Q : TaskState → Ghost → Own → Prop} (hs : k.sie = false)
    (hheld : k.held = some t) (hrun : k.run = none) (hscan : k.scan = t)
    (h0 : ∀ m', Q .RUNNABLE (k.claim t) m')
    (h1 : ∀ r m', r ≠ .RUNNABLE → Q r (k.setScan (t + 1)) m') :
    Does cfg (load (.state (.gTasks t))) k m Q := by
  refine Does.op rfl hs fun v hk hm _ => ⟨fun _ _ => ?_, fun r w hw _ => ?_⟩
  · rw [hk]
    exact hscan
  · obtain ⟨_, μ, _, rfl⟩ := hw
    rw [hk]
    by_cases hr : r = .RUNNABLE
    · subst hr
      have hk' : k.after (.load (.state (.gTasks t))) .RUNNABLE = k.claim t := by
        simp [Ghost.after, hheld, hrun]
      show Q .RUNNABLE (k.after (.load (.state (.gTasks t))) .RUNNABLE) _
      rw [hk']
      exact h0 _
    · have hk' : k.after (.load (.state (.gTasks t))) r = k.setScan (t + 1) := by
        simp [Ghost.after, hheld, hrun, hr]
      show Q r (k.after (.load (.state (.gTasks t))) r) _
      rw [hk']
      exact h1 r _ hr

theorem does_store_cpu_task {t : Slot} {c : ℕ} {Q : Unit → Ghost → Own → Prop}
    (hs : k.sie = false) (hc : c = k.hart) (hrun : k.run = some t)
    (h : Q () (k.setTask (some t)) m) :
    Does cfg (store (.cpu_task c) (some (.gTasks t))) k m Q := by
  refine Does.plain rfl rfl hs fun v hk _ _ => ⟨?_, fun r _ => ?_⟩
  · refine ⟨by rw [hk, hc], Or.inr ⟨t, rfl, ?_⟩⟩
    rw [hk]
    exact hrun
  · have hm : m.after k v.regs (.store (.cpu_task c) (some (.gTasks t))) = m := by
      simp [Own.after, Ghost.keeps, Loc.boot]
    rw [hm]
    exact h

theorem does_clear_cpu_task {c : ℕ} {Q : Unit → Ghost → Own → Prop} (hs : k.sie = false)
    (hc : c = k.hart) (hstk : k.stk = .hart c) (h : Q () (k.setTask none) m) :
    Does cfg (store (.cpu_task c) none) k m Q := by
  refine Does.plain rfl rfl hs fun v hk _ _ => ⟨?_, fun r _ => ?_⟩
  · refine ⟨by rw [hk, hc], Or.inl ⟨rfl, ?_⟩⟩
    rw [hk]
    exact hstk
  · have hm : m.after k v.regs (.store (.cpu_task c) none) = m := by
      simp [Own.after, Ghost.keeps, Loc.boot]
    rw [hm]
    exact h

theorem moved_scanning {c i : ℕ} {b : Bool} {e : I32} {st : TaskState} {k' : Ghost} {m m' : Own}
    (h : Moved (.scanning c b e st i) m k' m') : ∃ e', k' = .scanning c b e' st i := by
  obtain ⟨c', e', rfl, hc⟩ := h.cases
  obtain rfl : c' = c := hc rfl
  exact ⟨e', rfl⟩

/-- The release at the end of a round of the scan. -/
theorem does_scan_release {c i : ℕ} {t : Slot} {Q : Unit → Ghost → Own → Prop}
    (hp : ReleasePre t k) (hk : k.unlocked = .scanning c false k.ena k.st i)
    (hQ : ∀ b e st m', Q () (.scanning c b e st i) m') :
    Does cfg (call_release (.gTasks t)) k m Q := by
  by_cases hena : k.ena = 0
  · refine does_call_release hp hena ?_
    rw [hk]
    exact hQ _ _ _ _
  · refine does_call_release_on hp hena ?_ fun k' m' m'' hm => ?_
    · rw [hk]
      exact ⟨rfl, rfl, rfl, rfl, rfl, rfl, Or.inl ⟨rfl, rfl⟩⟩
    · rw [hk] at hm
      obtain ⟨e', rfl⟩ := moved_scanning (b := true) hm
      exact hQ _ _ _ _

theorem does_scan_body {c : ℕ} {b : Bool} {e : I32} {st : TaskState} {i : Slot}
    {Q : Unit → Ghost → Own → Prop}
    (hQ : ∀ b' e' st' m', Q () (.scanning c b' e' st' (i + 1)) m') :
    Does cfg (scan_body c i) (.scanning c b e st i) m Q := by
  unfold scan_body
  refine Does.bind (does_call_acquire rfl rfl rfl (fun t' ht => by cases ht) fun k' m' hk => ?_)
  obtain ⟨e1, rfl⟩ := moved_scanning hk
  refine Does.bind (does_load_state_scan rfl rfl rfl rfl (fun m2 => ?_) fun r m2 hr => ?_)
  · refine does_if_pos rfl ?_
    refine Does.bind (does_store_state rfl rfl rfl rfl (Or.inr ⟨rfl, rfl⟩) ?_)
    refine Does.bind (does_silent rfl rfl rfl (fun _ _ => trivial) (fun _ => rfl) (fun _ => rfl)
      fun pid => ?_)
    refine Does.bind (does_silent rfl rfl rfl (fun _ _ => trivial) (fun _ => rfl) (fun _ => rfl)
      fun _ => ?_)
    refine Does.bind (does_store_cpu_task rfl rfl rfl ?_)
    refine Does.bind (does_call_switch_to (s := .scheduler) (h := c) (t := i)
      (f := [.scheduler]) fun h' e' m3 hh _ => ?_)
    obtain rfl := hh rfl
    refine Does.bind (Does.plain rfl rfl rfl fun v hv _ _ => ⟨?_, fun _ _ => ?_⟩)
    · show PointPre (.switched_back i) v.k
      rw [hv]
      exact ⟨rfl, rfl, rfl, rfl, rfl, rfl⟩
    refine Does.bind (does_clear_cpu_task rfl rfl rfl ?_)
    exact does_scan_release ⟨rfl, rfl, rfl, rfl, rfl, rfl, Or.inl ⟨rfl, rfl⟩⟩ rfl hQ
  · refine does_if_neg hr ?_
    exact does_scan_release ⟨rfl, rfl, rfl, rfl, rfl, rfl, Or.inr (Or.inl rfl)⟩
      (by cases st <;> rfl) hQ

theorem does_scan_round {c i : ℕ} (hp : LoopPre cfg (.scan c i) k m) :
    Does cfg (scan_round c i) k m fun _ k' m' => LoopPost (.scan c i) k m k' m' := by
  obtain ⟨hi, b, e, st, rfl⟩ := hp
  unfold scan_round
  by_cases h : i < TASK_MAX_NRS
  · rw [dif_pos h]
    refine Does.bind (does_scan_body (i := ⟨i, h⟩) fun b' e' st' m1 => ?_)
    refine does_loop_any (fun k' m' hk => ?_) fun _ k' m' k'' m'' hk hpost => hpost
    obtain ⟨e1, rfl⟩ := moved_scanning hk
    exact ⟨h, b', e1, st', rfl⟩
  · rw [dif_neg h]
    have hi' : i = TASK_MAX_NRS := by omega
    subst hi'
    exact Does.pure ⟨b, e, st, rfl⟩

theorem does_intr_on_any {Q : Unit → Ghost → Own → Prop} (hi : k.Interruptible)
    (h : ∀ c e m', (k.run = none → c = k.hart) → Q () ((k.on c e).setSie true) m') :
    Does cfg intr_on k m Q := by
  refine Does.bind (Does.plain_any rfl rfl fun v hv _ => ⟨trivial, fun r _ => ?_⟩)
  refine Does.plain_any rfl rfl fun w hw _ => ?_
  obtain ⟨c, e, hk, hc⟩ := (hv.trans hw).cases
  refine ⟨fun _ => ?_, fun _ _ => ?_⟩
  · rw [hk]
    exact hi.on e hc
  · have hk' : w.k.after (.w_sstatus (r ||| SSTATUS_SIE)) () = (k.on c e).setSie true := by
      rw [hk]
      show (k.on c e).setSie (sie (r ||| SSTATUS_SIE)) = _
      rw [sie_or_SIE]
    rw [hk']
    exact h c e _ hc

theorem does_scheduler_round {c : ℕ} (hp : LoopPre cfg (.scheduler c) k m) :
    Does cfg (scheduler_round c) k m fun _ _ _ => False := by
  obtain ⟨b, e, st, rfl⟩ := hp
  unfold scheduler_round
  refine Does.bind (does_intr_on_any ⟨rfl, rfl, rfl, rfl, rfl, rfl, Or.inl ⟨rfl, rfl⟩⟩
    fun c1 e1 m1 hc => ?_)
  obtain rfl : c1 = c := hc rfl
  refine Does.bind (Does.plain_any rfl rfl fun v hv _ => ?_)
  obtain ⟨e2, hk⟩ := moved_scanning (b := true) hv
  rw [hk]
  refine ⟨?_, fun _ _ => ?_⟩
  · show PointPre .pass_begin v.k
    rw [hk]
    exact ⟨rfl, rfl, rfl, rfl⟩
  refine Does.bind (does_loop_any (fun k' m' hm => ?_) fun _ k' m' k'' m'' _ hpost => ?_)
  · obtain ⟨e3, rfl⟩ := moved_scanning (b := true) hm
    exact ⟨Nat.zero_le _, true, e3, st, rfl⟩
  obtain ⟨b4, e4, st4, rfl⟩ := hpost
  refine Does.bind (Does.plain_any rfl rfl fun w hw _ => ?_)
  obtain ⟨e5, hk5⟩ := moved_scanning hw
  rw [hk5]
  refine ⟨?_, fun _ _ => ?_⟩
  · show PointPre .pass_end w.k
    rw [hk5]
    rfl
  refine does_loop_any (fun k' m' hm => ?_) fun _ k' m' k'' m'' _ hpost => hpost
  obtain ⟨e6, rfl⟩ := moved_scanning hm
  exact ⟨b4, e6, st4, rfl⟩

/-- `scheduler`, entered from `kernel_main` with interrupts off. -/
theorem does_scheduler {c : ℕ} {e : I32} {st : TaskState} {Q : Unit → Ghost → Own → Prop} :
    Does cfg scheduler ((Ghost.scanning c false e st TASK_MAX_NRS).setCalls []) m Q := by
  unfold scheduler
  refine Does.bind (does_enter rfl (by simp) (by simp) (fun _ => rfl) ?_)
  refine Does.bind (does_get_cur_cpu rfl ?_)
  refine Does.bind (does_clear_cpu_task rfl rfl rfl ?_)
  exact does_loop rfl ⟨false, e, st, rfl⟩ fun _ k' m' h => h.elim

/-! ## dummy_task -/

theorem does_dummy_task_round (hp : LoopPre cfg .dummy_task k m) :
    Does cfg dummy_task_round k m fun _ _ _ => False := by
  obtain ⟨h, b, e, t, rfl⟩ := hp
  unfold dummy_task_round
  refine Does.bind (does_intr_on_any ⟨rfl, rfl, rfl, rfl, rfl, rfl, Or.inr ⟨t, rfl, rfl⟩⟩
    fun c1 e1 m1 _ => ?_)
  refine Does.bind (Does.plain_any rfl rfl fun v hv _ => ⟨trivial, fun _ _ => ?_⟩)
  refine Does.bind (Does.plain_any rfl rfl fun w hw _ => ⟨trivial, fun _ _ => ?_⟩)
  obtain ⟨c2, e2, hk2, _⟩ := hv.cases
  obtain ⟨c3, e3, hk3, _⟩ := hw.cases
  have hk : w.k = .running c3 true e3 t [] := by
    rw [hk3]
    show v.k.on c3 e3 = _
    rw [hk2]
    rfl
  show Does cfg (loop .dummy_task) w.k _ _
  rw [hk]
  refine does_loop_any (fun k' m' hm => ?_) fun _ k' m' k'' m'' _ hpost => hpost
  obtain ⟨c4, e4, rfl, _⟩ := hm.cases
  exact ⟨c4, true, e4, t, rfl⟩

theorem does_dummy_task {h : ℕ} {e : I32} {t : Slot} {Q : Unit → Ghost → Own → Prop} :
    Does cfg dummy_task (.firstRun h e t) m Q := by
  have hloop : ∀ k' m', (∃ c b e, k' = Ghost.running c b e t []) →
      Does cfg (loop .dummy_task) k' m' Q := by
    rintro k' m' ⟨c, b, e', rfl⟩
    refine does_loop_any (fun k'' m'' hm => ?_) fun _ k' m' k'' m'' _ hpost => hpost.elim
    obtain ⟨c1, e1, rfl, _⟩ := hm.cases
    exact ⟨c1, b, e1, t, rfl⟩
  have hp : ReleasePre t (.firstRun h e t) :=
    ⟨rfl, rfl, rfl, rfl, rfl, rfl, Or.inr (Or.inr ⟨rfl, rfl⟩)⟩
  unfold dummy_task
  refine Does.bind (does_silent rfl rfl rfl (fun _ _ => trivial) (fun _ => rfl) (fun _ => rfl)
    fun _ => ?_)
  refine Does.bind (does_get_cur_task rfl ?_)
  by_cases hena : e = 0
  · refine Does.bind (does_call_release hp hena ?_)
    exact hloop _ _ ⟨h, false, e, rfl⟩
  · refine Does.bind (does_call_release_on hp hena ?_ fun k' m' m'' hm => ?_)
    · exact ⟨rfl, rfl, rfl, rfl, rfl, rfl, Or.inr ⟨t, rfl, rfl⟩⟩
    · obtain ⟨c, e', rfl, _⟩ := hm.cases
      exact hloop _ _ ⟨c, true, e', rfl⟩

end GQuuuuuunix.Proof
