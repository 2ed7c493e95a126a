import GQuuuuuunix.Proof.Adequacy
import GQuuuuuunix.Kernel.Start

/-! # A task runs on one hart at a time, from its latest context -/

namespace GQuuuuuunix.Properties
open Lib Kernel Proof
set_option autoImplicit false

variable {cfg : Config} {σ σ' : State} {vs vs' : ℕ → View} {tr : Trace} {e : Event}

/-- Hart `h` is on the stack of task `t`, or about to save or load its context. -/
def onTask (L : Layout) (σ : State) (h : ℕ) (t : Slot) : Prop :=
  L.stackOf ((σ.harts h).regs .sp) = some (.task t) ∨
  (∃ r i, σ.next h = some (.sd_ctx (.task (.gTasks t)) r i)) ∨
  ∃ r i, σ.next h = some (.ld_ctx (.task (.gTasks t)) r i)

theorem run_of_onTask (hI : Inv cfg σ vs) {h : ℕ} (hh : h < cfg.harts) {t : Slot}
    (ht : onTask cfg.layout σ h t) : (vs h).k.run = some t := by
  rcases ht with hs | ⟨r, i, hn⟩ | ⟨r, i, hn⟩
  · rw [(hI.hart h hh).regs] at hs
    exact (hI.ok h hh).sp_run t hs
  · obtain ⟨s, e, t', ρ, hk, hc⟩ := hI.pre_next hh hn
    cases s with
    | sched =>
      cases hc
      rw [hk]
      rfl
    | scheduler => cases hc
  · obtain ⟨_, s, e, t', ρ, hk, hc⟩ := hI.pre_next hh hn
    cases s with
    | sched => cases hc
    | scheduler =>
      cases hc
      rw [hk]
      rfl

/-! ## The history of the contexts -/

/-- The saved contexts are what was last saved. -/
structure SavedLast (cfg : Config) (tr : Trace) (σ : State) (vs : ℕ → View) : Prop where
  closed : (vs 0).k.stage ≠ .opened → ∀ t, switchedOut cfg.layout t tr = none
  parked : (vs 0).k.stage = .opened → ∀ t : Slot, (t : ℕ) < cfg.pids.length →
    (∀ h < cfg.harts, (vs h).k.stk ≠ .task t) → ∀ i, σ.mem (.context (.gTasks t) i) =
      (switchedOut cfg.layout t tr).getD (initCtx cfg.layout t) i
  leaving : ∀ h < cfg.harts, ∀ t ρ, (vs h).k.sw = some (t, ρ) → (vs h).k.stk = .task t →
    switchedOut cfg.layout t tr = some ρ
  resumed : ∀ t, (∃ x ∈ tr, resumedTask t x = true) →
    switchedOut cfg.layout t tr ≠ none ∨ ∃ h < cfg.harts, (vs h).k.stk = .task t

theorem switchedOut_none {L : Layout} {t : Slot} {x : State × Event} (hx : switchOut L t x = none) :
    switchedOut L t (x :: tr) = switchedOut L t tr := by
  unfold switchedOut
  rw [List.findSome?_cons, hx]

theorem switchedOut_some {L : Layout} {t : Slot} {x : State × Event} {ρ : CtxWord → U64}
    (hx : switchOut L t x = some ρ) : switchedOut L t (x :: tr) = some ρ := by
  unfold switchedOut
  rw [List.findSome?_cons, hx]

theorem switchOut_eq_none {L : Layout} {t : Slot} {x : State × Event}
    (hx : ∀ h c, performed x ≠ some (h, .call_switch_to .sched (.task (.gTasks t)) c)) :
    switchOut L t x = none := by
  unfold switchOut
  split
  · next h t' c hp =>
    refine if_neg ?_
    rintro rfl
    exact hx h c hp
  · rfl

theorem resumedTask_eq {t : Slot} {x : State × Event} (hx : resumedTask t x = true) :
    ∃ h c, performed x = some (h, .ret c (.task (.gTasks t))) := by
  unfold resumedTask at hx
  split at hx
  · next h c t' hp =>
    obtain rfl : t' = t := by simpa using hx
    exact ⟨h, c, hp⟩
  · cases hx

/-- A step that neither switches nor writes to a context at rest. -/
theorem SavedLast.frame (hJ : SavedLast cfg tr σ vs)
    (hout : ∀ t, switchOut cfg.layout t (σ, e) = none)
    (hres : ∀ t, resumedTask t (σ, e) = false)
    (hop : (vs 0).k.stage = .opened ↔ (vs' 0).k.stage = .opened)
    (hstk : ∀ h, (vs' h).k.stk = (vs h).k.stk) (hsw : ∀ h, (vs' h).k.sw = (vs h).k.sw)
    (hmem : (vs 0).k.stage = .opened → ∀ t : Slot, (∀ h < cfg.harts, (vs h).k.stk ≠ .task t) →
      ∀ i, σ'.mem (.context (.gTasks t) i) = σ.mem (.context (.gTasks t) i)) :
    SavedLast cfg ((σ, e) :: tr) σ' vs' where
  closed hc t := by
    rw [switchedOut_none (hout t)]
    exact hJ.closed (fun h => hc (hop.1 h)) t
  parked ho t hlt hno i := by
    have hno' : ∀ h < cfg.harts, (vs h).k.stk ≠ .task t := fun h hh => hstk h ▸ hno h hh
    rw [switchedOut_none (hout t), hmem (hop.2 ho) t hno' i]
    exact hJ.parked (hop.2 ho) t hlt hno' i
  leaving h hh t ρ hs ht := by
    rw [switchedOut_none (hout t)]
    exact hJ.leaving h hh t ρ (hsw h ▸ hs) (hstk h ▸ ht)
  resumed t hx := by
    rw [switchedOut_none (hout t)]
    obtain ⟨x, hm, hx⟩ := hx
    rcases List.mem_cons.1 hm with rfl | hm
    · rw [hres t] at hx
      cases hx
    · refine (hJ.resumed t ⟨x, hm, hx⟩).imp_right fun ⟨h, hh, hs⟩ => ⟨h, hh, ?_⟩
      rw [hstk h]
      exact hs

theorem switchOut_noSwitch {x : State × Event} (hx : noSwitch x) (L : Layout) (t : Slot) :
    switchOut L t x = none := switchOut_eq_none fun h c => hx.1 h _ _ c

theorem resumedTask_noSwitch {x : State × Event} (hx : noSwitch x) (t : Slot) :
    resumedTask t x = false := by
  refine Bool.eq_false_iff.2 fun ht => ?_
  obtain ⟨h, c, hp⟩ := resumedTask_eq ht
  exact hx.2 h _ _ hp

theorem SavedLast.still (hJ : SavedLast cfg tr σ vs) (hq : quiet (σ, e))
    (hm : Move cfg σ vs e σ' vs') : SavedLast cfg ((σ, e) :: tr) σ' vs' := by
  have hs := hm.still hq
  have hn := noSwitch_quiet hq
  refine hJ.frame (switchOut_noSwitch hn _) (resumedTask_noSwitch hn) ?_
    (fun h => (hs.same h).stk) (fun h => (hs.same h).sw) fun _ _ _ _ => ?_
  · rw [(hs.same 0).stage]
  · rw [hs.mem]

theorem SavedLast.op (hI : Inv cfg σ vs) (hJ : SavedLast cfg tr σ vs) {h : ℕ} {o : Op} {r : o.Ret}
    {fail : Bool} {c : Code} {w : View} (hh : h < cfg.harts) (hs : Op.simple o = true)
    (hpf : performed (σ, e) = some (h, o)) (hp : Pre cfg o (vs h))
    (hx : Performed σ h fail o r c σ') (hg : Goes cfg σ' o r (vs h) w) :
    SavedLast cfg ((σ, e) :: tr) σ' (Function.update vs h w) := by
  have hout := switchOut_noSwitch (noSwitch_simple hpf hs)
  have hres := resumedTask_noSwitch (noSwitch_simple hpf hs)
  have hstk : ∀ h', (Function.update vs h w h').k.stk = (vs h').k.stk :=
    update_field Ghost.stk (by rw [hg.k, Ghost.after_stk])
  have hsw : ∀ h', (Function.update vs h w h').k.sw = (vs h').k.sw :=
    update_field Ghost.sw (by rw [hg.k, Ghost.after_sw])
  by_cases hop : (vs 0).k.stage = .opened
  · exact hJ.frame (hout _) hres ⟨fun _ => Inv.opened_step hg hop, fun _ => hop⟩ hstk hsw
      fun _ t hno => hI.context_frame hh hp hx hop (hno h hh)
  by_cases hop' : (Function.update vs h w 0).k.stage = .opened
  swap
  · exact hJ.frame (hout _) hres ⟨fun h0 => absurd h0 hop, fun h0 => absurd h0 hop'⟩ hstk hsw
      fun h0 => absurd h0 hop
  -- hart 0 opens the barrier: every context is as `init_task` made it
  obtain ⟨_, hb, hm, x, rfl⟩ := hI.opening hh hp hx hg hop hop'
  have hready := hI.table_ready hh hb hm.toTableReady
  refine ⟨fun hc => absurd hop' hc, fun _ t hlt _ i => ?_, fun h' hh' t ρ hs' _ => ?_,
    fun t ht => ?_⟩
  · rw [switchedOut_none (hout _ t), hJ.closed hop t]
    refine Eq.trans (hI.mem_of_ne hh hx fun y hw => ?_) (hready.context t hlt i)
    cases (writes_sc hw).2
  · rw [hsw h', (hI.closed_nothing hop hh').2.2] at hs'
    cases hs'
  · rw [switchedOut_none (hout _ t)]
    obtain ⟨y, hmem, hy⟩ := ht
    rcases List.mem_cons.1 hmem with rfl | hmem
    · rw [hres t] at hy
      cases hy
    · refine (hJ.resumed t ⟨y, hmem, hy⟩).imp_right fun ⟨h', hh', hst⟩ => ⟨h', hh', ?_⟩
      rw [hstk h']
      exact hst

section
variable {h : ℕ} {en : I32} {t : Slot} {fs : List Fn}

theorem switchOut_call {L : Layout} {t t' : Slot} {x : State × Event} {h : ℕ} {s : SwitchSite}
    (hp : performed x = some (h, .call_switch_to s (oldCtx s h t) (newCtx s h t))) :
    switchOut L t' x = if s = .sched ∧ t = t' then
      some (ctxOf (Function.update (x.1.harts h).regs .ra (L.switch_ret .sched))) else none := by
  unfold switchOut
  rw [hp]
  cases s with
  | sched =>
    show (if t = t' then _ else none) = _
    by_cases htt : t = t'
    · rw [if_pos htt, if_pos ⟨rfl, htt⟩]
    · rw [if_neg htt, if_neg fun hx => htt hx.2]
  | scheduler => exact (if_neg fun hx => by cases hx.1).symm

theorem SavedLast.call (hI : Inv cfg σ vs) (hJ : SavedLast cfg tr σ vs) (hh : h < cfg.harts)
    {s : SwitchSite} (hk : (vs h).k = .atSwitch s h en t fs)
    (hpf : performed (σ, e) = some (h, .call_switch_to s (oldCtx s h t) (newCtx s h t)))
    (hmem : σ'.mem = σ.mem) :
    SavedLast cfg ((σ, e) :: tr) σ' (Function.update vs h ((vs h).called cfg.layout s t)) := by
  have hop : (vs 0).k.stage = .opened := hI.opened h hh (by rw [hk]; rfl)
  have hstk : ∀ h', (Function.update vs h ((vs h).called cfg.layout s t) h').k.stk =
      (vs h').k.stk := by
    refine update_field Ghost.stk ?_
    rw [View.called, hk]
    rfl
  have hsame : ∀ t', (s = .sched → t ≠ t') →
      switchedOut cfg.layout t' ((σ, e) :: tr) = switchedOut cfg.layout t' tr := by
    intro t' hne
    refine switchedOut_none ?_
    rw [switchOut_call hpf]
    exact if_neg fun hx => hne hx.1 hx.2
  have hstkh : (vs h).k.stk = switchStack s h t := by
    rw [hk]
    cases s <;> rfl
  refine ⟨fun hc => ?_, fun _ t' hlt hno i => ?_, fun h' hh' t' ρ hs ht => ?_, fun t' ht => ?_⟩
  · refine absurd ?_ hc
    rw [update_k]
    split
    · rfl
    · exact hop
  · have hno' : ∀ h < cfg.harts, (vs h).k.stk ≠ .task t' := fun h hh => hstk h ▸ hno h hh
    rw [hmem, hsame t' fun hs htt => ?_]
    · exact hJ.parked hop t' hlt hno' i
    · refine hno' h hh ?_
      rw [hstkh, hs, htt]
      rfl
  · rw [hstk h'] at ht
    by_cases hne : h' = h
    · rw [hne, Function.update_self] at hs
      cases hs
      rw [hne, hstkh] at ht
      cases s with
      | sched =>
        refine switchedOut_some ?_
        rw [switchOut_call hpf, if_pos ⟨rfl, rfl⟩, (hI.hart h hh).regs]
      | scheduler => cases ht
    · rw [Function.update_of_ne hne] at hs
      rw [hsame t' fun hs' htt => ?_]
      · exact hJ.leaving h' hh' t' ρ hs ht
      · refine hne (hI.stk_inj hh' hh ?_)
        rw [ht, hstkh, hs', htt]
        rfl
  · by_cases hout : s = .sched ∧ t = t'
    · left
      rw [switchedOut_some (by rw [switchOut_call hpf, if_pos hout])]
      exact Option.some_ne_none _
    · rw [hsame t' fun hs htt => hout ⟨hs, htt⟩]
      obtain ⟨x, hm, hx⟩ := ht
      rcases List.mem_cons.1 hm with rfl | hm
      · obtain ⟨h', c, hp'⟩ := resumedTask_eq hx
        rw [hpf] at hp'
        cases hp'
      · refine (hJ.resumed t' ⟨x, hm, hx⟩).imp_right fun ⟨h', hh', hst⟩ => ⟨h', hh', ?_⟩
        rw [hstk h']
        exact hst

theorem SavedLast.ret (hI : Inv cfg σ vs) (hJ : SavedLast cfg tr σ vs) (hh : h < cfg.harts)
    {s : SwitchSite} {ρ : CtxWord → U64} {w : View} (hk : (vs h).k = .switching s h en t fs ρ)
    (hpf : performed (σ, e) = some (h, .ret (oldCtx s h t) (newCtx s h t)))
    (hsaved : ∀ i, σ.mem.ctx (oldCtx s h t) i = ρ i) (hmem : σ'.mem = σ.mem)
    (hw : Returns cfg s h en t w.k) :
    SavedLast cfg ((σ, e) :: tr) σ' (Function.update vs h w) := by
  have hop : (vs 0).k.stage = .opened := hI.opened h hh (by rw [hk]; rfl)
  have hout : ∀ t', switchedOut cfg.layout t' ((σ, e) :: tr) = switchedOut cfg.layout t' tr := by
    refine fun t' => switchedOut_none (switchOut_eq_none fun h' c hp => ?_)
    rw [hpf] at hp
    cases hp
  have hstkh : (vs h).k.stk = switchStack s h t := by
    rw [hk]
    cases s <;> rfl
  refine ⟨fun hc => ?_, fun _ t' hlt hno i => ?_, fun h' hh' t' ρ' hs ht => ?_, fun t' ht => ?_⟩
  · refine absurd ?_ hc
    rw [update_k]
    split
    · exact hw.stage
    · exact hop
  · rw [hmem, hout t']
    by_cases hout' : s = .sched ∧ t' = t
    · obtain ⟨rfl, rfl⟩ := hout'
      rw [hJ.leaving h hh t' ρ (by rw [hk]; rfl) hstkh]
      exact hsaved i
    · refine hJ.parked hop t' hlt (fun h' hh' hs => ?_) i
      by_cases hne : h' = h
      · rw [hne, hstkh] at hs
        cases s with
        | sched =>
          cases hs
          exact hout' ⟨rfl, rfl⟩
        | scheduler => cases hs
      · refine hno h' hh' ?_
        rw [Function.update_of_ne hne]
        exact hs
  · rw [hout t']
    by_cases hne : h' = h
    · rw [hne, Function.update_self, hw.sw] at hs
      cases hs
    · rw [Function.update_of_ne hne] at hs ht
      exact hJ.leaving h' hh' t' ρ' hs ht
  · rw [hout t']
    have hold : (∃ x ∈ tr, resumedTask t' x = true) → switchedOut cfg.layout t' tr ≠ none ∨
        ∃ h' < cfg.harts, (Function.update vs h w h').k.stk = .task t' := by
      intro hx
      rcases hJ.resumed t' hx with hsome | ⟨h', hh', hst⟩
      · exact Or.inl hsome
      · by_cases hne : h' = h
        · rw [hne, hstkh] at hst
          cases s with
          | sched =>
            cases hst
            left
            rw [hJ.leaving h hh t ρ (by rw [hk]; rfl) hstkh]
            exact Option.some_ne_none _
          | scheduler => cases hst
        · refine Or.inr ⟨h', hh', ?_⟩
          rw [Function.update_of_ne hne]
          exact hst
    obtain ⟨x, hm, hx⟩ := ht
    rcases List.mem_cons.1 hm with rfl | hm
    · obtain ⟨h', c, hp'⟩ := resumedTask_eq hx
      rw [hpf] at hp'
      cases s with
      | sched => cases hp'
      | scheduler =>
        cases hp'
        refine Or.inr ⟨h, hh, ?_⟩
        rw [Function.update_self, hw.stk]
        rfl
    · exact hold ⟨x, hm, hx⟩

end

theorem savedLast (hg : GRun cfg tr σ vs) : SavedLast cfg tr σ vs := by
  induction hg with
  | boot hb =>
    refine ⟨fun _ _ => rfl, fun ho => ?_, fun h _ t ρ hs => ?_, fun t ⟨x, hm, _⟩ => ?_⟩
    · cases ho
    · cases hs
    · cases hm
  | @step tr σ σ' vs vs' e hg hI hm hI' ih =>
    have hm' := hm
    cases hm with
    | op hh hi hcode hs hp hx hgo => exact ih.op hI hh hs (performed_eq hi hcode) hp hx hgo
    | call hh hi hcode hk => exact ih.call hI hh hk (performed_eq hi hcode) rfl
    | ret hh hi hcode hk hsaved hw => exact ih.ret hI hh hk (performed_eq hi hcode) hsaved rfl hw
    | loop hh hi hcode => exact ih.still (quiet_loop hi hcode) hm'
    | trap hh hi hsie => exact ih.still (quiet_trap hi) hm'
    | compute hh => exact ih.still (Or.inl rfl) hm'
    | timer hh => exact ih.still (Or.inl rfl) hm'

/-! ## The context that a scheduler loads -/

/-- While a scheduler switches to a task, no hart is on the stack of the task. -/
theorem resting (hI : Inv cfg σ vs) {h : ℕ} (hh : h < cfg.harts) {en : I32} {t : Slot}
    {fs : List Fn} {ρ : CtxWord → U64} (hk : (vs h).k = .switching .scheduler h en t fs ρ) :
    (vs 0).k.stage = .opened ∧ (t : ℕ) < cfg.pids.length ∧
      ∀ h' < cfg.harts, (vs h').k.stk ≠ .task t := by
  have hop : (vs 0).k.stage = .opened := hI.opened h hh (by rw [hk]; rfl)
  have hrun : (vs h).k.run = some t := by rw [hk]; rfl
  refine ⟨hop, (((hI.table hop).state t).running h hh hrun).2, fun h' hh' hs => ?_⟩
  obtain rfl := hI.run_uniq hh hrun h' hh' (hI.stk_run hh' hs)
  rw [hk] at hs
  cases hs

/-- The registers with which a hart goes on with a task are those of its last switch-out. -/
theorem ret_context (hg : GRun cfg tr σ vs) {h : ℕ} (hh : h < cfg.harts) {old : CtxPtr} {t : Slot}
    (hn : σ.next h = some (.ret old (.task (.gTasks t)))) (i : CtxWord) :
    ctxOf (σ.harts h).regs i = (switchedOut cfg.layout t tr).getD (initCtx cfg.layout t) i := by
  have hI := hg.inv
  have hhart := (hI.hart h hh).hart
  obtain ⟨s, e, t', ρ, hk, _, hnew, _, hload⟩ := hI.pre_next hh hn
  rw [hhart] at hk hnew
  cases s with
  | sched => cases hnew
  | scheduler =>
    cases hnew
    obtain ⟨hop, hlt, hno⟩ := resting hI hh hk
    have hown : σ.mem (.context (.gTasks t) i) = (vs h).m.mem (.context (.gTasks t) i) :=
      hI.owned h hh _ (Or.inl (by rw [hk]; rfl))
    rw [← (savedLast hg).parked hop t hlt hno i, (hI.hart h hh).regs, hload i, hown]
    rfl

/-! ## One runner -/

/-- No two harts run a task, and the context that a scheduler loads is complete: what the last
switch-out of the task saved, or what `init_task` made, and then the task has never run. -/
theorem single_runner (hr : Run (kernel cfg) tr σ) :
    (∀ h < cfg.harts, ∀ h' < cfg.harts, ∀ t, onTask cfg.layout σ h t → onTask cfg.layout σ h' t →
      h = h') ∧
    ∀ h < cfg.harts, ∀ t r i, σ.next h = some (.ld_ctx (.task (.gTasks t)) r i) →
      (∀ j, σ.mem (.context (.gTasks t) j) =
        (switchedOut cfg.layout t tr).getD (initCtx cfg.layout t) j) ∧
      (switchedOut cfg.layout t tr = none → ∀ x ∈ tr, resumedTask t x = false) := by
  obtain ⟨vs, hg⟩ := grun_of_run hr
  have hI := hg.inv
  have hJ := savedLast hg
  refine ⟨fun h hh h' hh' t ht ht' =>
    hI.run_inj h hh h' hh' t (run_of_onTask hI hh ht) (run_of_onTask hI hh' ht'), ?_⟩
  intro h hh t r i hn
  obtain ⟨_, s, e, t', ρ, hk, hc⟩ := hI.pre_next hh hn
  rw [(hI.hart h hh).hart] at hk hc
  cases s with
  | sched => cases hc
  | scheduler =>
    cases hc
    obtain ⟨hop, hlt, hno⟩ := resting hI hh hk
    refine ⟨hJ.parked hop t hlt hno, fun hnone x hx => ?_⟩
    by_contra hres
    rcases hJ.resumed t ⟨x, hx, by simpa using hres⟩ with hsome | ⟨h', hh', hs⟩
    · exact hsome hnone
    · exact hno h' hh' hs

/-- Hart 1 is about to load a word of the context of slot 0. -/
def loadsContext (σ : State) : Bool :=
  match σ.next 1 with
  | some (.ld_ctx (.task (.gTasks t)) _ _) => t == 0
  | _ => false

/-- Hart 0 has preempted the first task, and hart 1 is about to load its context. -/
theorem single_runner_moved : ∃ (tr : Trace) (σ : State) (r : Reg) (i : CtxWord)
    (ρ : CtxWord → U64), Run (kernel (.sample 2 (by decide) (by decide))) tr σ ∧
      σ.next 1 = some (.ld_ctx (.task (.gTasks 0)) r i) ∧ switchedOutOn 0 tr = some 0 ∧
      switchedOut .sample 0 tr = some ρ ∧ ∀ j, σ.mem (.context (.gTasks 0) j) = ρ j := by
  obtain ⟨tr, σ, hr, hp⟩ := Run.of_start (.sample 2 (by decide) (by decide)) Layout.sample_apart
    (firstPreempted ++ List.replicate 70 (.hart 1 false))
    (fun x => loadsContext x.2 && switchedOutOn 0 x.1 == some 0 &&
      (switchedOut .sample 0 x.1).isSome) (by decide +kernel)
  simp only [Bool.and_eq_true, beq_iff_eq] at hp
  obtain ⟨⟨hload, hon⟩, hsome⟩ := hp
  obtain ⟨ρ, hρ⟩ := Option.isSome_iff_exists.1 hsome
  unfold loadsContext at hload
  split at hload
  · next t r i hn =>
    obtain rfl : t = 0 := by simpa using hload
    have hctx := ((single_runner hr).2 1 (by decide) 0 r i hn).1
    have hout : switchedOut (Config.sample 2 (by decide) (by decide)).layout 0 tr = some ρ := hρ
    rw [hout] at hctx
    exact ⟨tr, σ, r, i, ρ, hr, hn, hon, hρ, hctx⟩
  · cases hload

end GQuuuuuunix.Properties
