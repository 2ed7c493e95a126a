import GQuuuuuunix.Proof.History
import GQuuuuuunix.Proof.Switch

/-! # Every run has its views

The invariant holds when the machine is booted and every step keeps it, with views that change in
one of seven ways. So each run of the machine is accompanied by views, and what is to be known of
its history is an induction over their moves. -/

namespace GQuuuuuunix.Proof
open Lib Kernel
set_option autoImplicit false

variable {cfg : Config} {σ σ' : State} {vs vs' : ℕ → View} {v : View} {h : ℕ}

/-! ## Booting -/

theorem Ghost.booting_ok {n : ℕ} (hn : h < n) : (Ghost.booting h).Ok n where
  hart_lt := hn
  boot_hart hb := by
    by_contra hne
    have hb' : (if h = 0 then Stage.boot else .wait) = .boot := hb
    rw [if_neg (show ¬ h = 0 from hne)] at hb'
    cases hb'
  stk_hart h' hs := by
    cases hs
    rfl
  stk_task t hs := by cases hs
  run_opened t hr := by cases hr
  held_opened t hr := by cases hr
  run_st t hr := by cases hr
  run_held t h' hr := by cases hr
  held_run t t' hr := by cases hr
  task_run t hr := by cases hr
  own_held ho := by cases ho
  held_sie t hr := by cases hr
  sie_ok hs := by cases hs
  balanced _ := ⟨rfl, fun hs => by cases hs⟩
  back_held t hb := by cases hb
  scheduler_opened hm := by cases hm
  sw_run t ρ hs := by cases hs

/-- The views of the harts when the machine is booted. -/
def bootViews (σ : State) (h : ℕ) : View where
  k := .booting h
  regs := (σ.harts h).regs
  pc := (σ.harts h).pc
  m := { sstatus := (σ.harts h).sstatus, sepc := (σ.harts h).sepc, scause := (σ.harts h).scause,
         mem := Mem.zero }

theorem Inv.boot (hb : State.Booting cfg σ) : Inv cfg σ (bootViews σ) := by
  have hstage : (bootViews σ 0).k.stage = .boot := rfl
  have hclosed : (bootViews σ 0).k.stage ≠ .opened := by
    rw [hstage]
    decide
  refine ⟨fun h hh => ?_, fun h hh => ?_, fun h hh => ?_, fun h hh => ?_, fun h hh l _ => ?_,
    fun h hh h' hh' t ht => (by cases ht), fun h hh h' hh' t ht => (by cases ht),
    by rw [hstage]; decide,
    fun h hh ho => ?_, fun hs => ?_, fun p _ => ?_, fun ho => absurd ho hclosed,
    fun ho => absurd ho hclosed⟩
  · have hx := hb.harts h hh
    exact ⟨rfl, rfl, rfl, hx.mode, rfl, rfl, rfl, hx.stvec, hx.calls⟩
  · have hx := hb.harts h hh
    exact { Ghost.booting_ok hh with
      tp := hx.tp
      sie_eq := hx.sie
      sp := fun _ => hx.stack
      sp_run := fun t ht => by
        have ht' : cfg.layout.stackOf ((σ.harts h).regs .sp) = some (.task t) := ht
        rw [hx.stack] at ht'
        cases ht'
      roomy := fun _ _ => hx.roomy
      sched_sp := fun t ht => by cases ht
      task_sp := fun t h' hr => by cases hr }
  · rw [(hb.harts h hh).code]
    exact Does.safe (does_kernel_main rfl)
  · rw [hb.mem]
    exact ⟨rfl, rfl, rfl⟩
  · rw [hb.mem]
    rfl
  · have ho' : (if h = 0 then Stage.boot else .wait) = .opened := ho
    split at ho' <;> cases ho'
  · rw [hb.mem] at hs
    exact absurd rfl hs
  · rw [hb.mem]
    rfl

/-! ## The interrupt -/

theorem sie_trap_sstatus (x : U64) (m : Mode) : sie (trap_sstatus x m) = false := by
  simp [trap_sstatus, sie, SSTATUS_SIE]

theorem spp_trap_sstatus (x : U64) : spp (trap_sstatus x .supervisor) = true := by
  simp [trap_sstatus, spp, SSTATUS_SIE, SSTATUS_SPP]

theorem spie_trap_sstatus {x : U64} (hx : sie x = true) (m : Mode) :
    spie (trap_sstatus x m) = true := by
  cases m <;> simp [trap_sstatus, hx, spie, SSTATUS_SIE, SSTATUS_SPP, SSTATUS_SPIE]

/-- The view of a hart that has taken its interrupt. -/
def View.trapped (v : View) : View where
  k := v.k.trapAt
  regs := v.regs
  pc := v.pc
  m := { v.m with sstatus := trap_sstatus v.m.sstatus .supervisor, sepc := v.pc,
                  scause := SOFTWARE_INTERRUPT }

theorem View.Ok.trapped (hok : v.Ok cfg) (hs : v.k.sie = true) : v.trapped.Ok cfg :=
  { hok.toOk.trapAt hs with
    tp := hok.tp
    sie_eq := sie_trap_sstatus _ _
    sp := hok.sp
    sp_run := hok.sp_run
    roomy := fun _ ht => by cases ht
    sched_sp := hok.sched_sp
    task_sp := hok.task_sp }

/-- A hart with interrupts on runs compiled C. -/
theorem safe_c {c : Code} (hok : v.Ok cfg) (hsafe : Safe cfg c v) (hs : v.k.sie = true) :
    ∃ o f, c = .op o f ∧ o.isAsm = false := by
  cases c with
  | pure a => exact hsafe.elim
  | op o f =>
    refine ⟨o, f, rfl, ?_⟩
    by_contra ho
    have ho' : o.isAsm = true := by simpa using ho
    have hp := (hsafe v (by rw [ho', if_pos rfl]) hok).1
    rw [sie_of_isAsm ho' hp] at hs
    cases hs

theorem Inv.trap_step (hI : Inv cfg σ vs) (hh : h < cfg.harts) (hs : (vs h).k.sie = true) :
    Inv cfg (σ.setHart h ((σ.harts h).trap h)) (Function.update vs h (vs h).trapped) := by
  have hx := hI.hart h hh
  have hok := hI.ok h hh
  have hint := hok.sie_ok hs
  obtain ⟨o, f, hcode, ho⟩ := safe_c hok (hI.safe h hh) hs
  have hstvec : (σ.harts h).stvec = true := hx.stvec.trans hint.stvec
  have hsstatus : sie (σ.harts h).sstatus = true := by
    rw [hx.sstatus, hok.sie_eq]
    exact hs
  refine hI.replace_same hh rfl rfl rfl ⟨hx.hart, hx.regs, hx.pc, rfl, ?_, hx.pc, rfl, hx.stvec, ?_⟩
    (hok.trapped hs) ?_ ⟨rfl, rfl, rfl, rfl, rfl, rfl, rfl, rfl⟩ rfl rfl rfl
  · show trap_sstatus (σ.harts h).sstatus (σ.harts h).mode = trap_sstatus _ .supervisor
    rw [hx.sstatus, hx.mode]
  · show Fn.kernelvec h :: (σ.harts h).calls = .kernelvec (vs h).k.hart :: (vs h).k.calls
    rw [hx.hart, hx.calls]
  · have hat : AtTrap (vs h) (σ.harts h).snapshot (vs h).trapped :=
      ⟨rfl, rfl, hx.regs, hx.pc, hx.mode, hsstatus, spp_trap_sstatus _,
        spie_trap_sstatus (hok.sie_eq.trans hs) _, rfl⟩
    show Safe cfg (if (σ.harts h).stvec then _ else crash) _
    rw [if_pos hstvec, hcode]
    unfold Safe
    rw [wp_bind]
    refine wp_mono (rules_mono cfg) (fun _ w hw => ?_) (wp_kernelvec hok hs hat)
    refine safe_interf ho ?_ hw
    rw [← hcode]
    exact hI.safe h hh

/-! ## The other events -/

theorem Inv.compute_step (hI : Inv cfg σ vs) (hh : h < cfg.harts) {r : Regs} {pc : U64}
    (hc : Code.isC (σ.harts h).code = true) (hr : cfg.layout.ComputeOk (σ.harts h).regs r) :
    Inv cfg (σ.setHart h { σ.harts h with regs := r, pc := pc })
      (Function.update vs h { vs h with regs := r, pc := pc }) := by
  have hx := hI.hart h hh
  have hok := hI.ok h hh
  obtain ⟨htp, hsp, hroomy⟩ := hr
  rw [hx.regs] at htp hsp
  refine hI.replace_same hh rfl rfl rfl
    ⟨hx.hart, rfl, rfl, hx.mode, hx.sstatus, hx.sepc, hx.scause, hx.stvec, hx.calls⟩
    (hok.move pc htp (fun hsw => hsp.trans (hok.sp hsw)) (fun _ _ => hroomy)
      fun _ t ht => hok.sp_run t (hsp ▸ ht)) ?_ ⟨rfl, rfl, rfl, rfl, rfl, rfl, rfl, rfl⟩
    rfl rfl rfl
  have hsafe := hI.safe h hh
  show Safe cfg (σ.harts h).code _
  cases hcode : (σ.harts h).code with
  | pure a =>
    rw [hcode] at hc
    cases hc
  | op o f =>
    rw [hcode] at hc hsafe
    exact safe_interf (by simpa [Code.isC] using hc) hsafe (Interf.refl _)

theorem Inv.timer_step (hI : Inv cfg σ vs) (hh : h < cfg.harts) :
    Inv cfg (σ.setHart h (σ.harts h).timerTrap) vs := by
  have hx := hI.hart h hh
  have hregs : (σ.harts h).timerTrap.regs = (σ.harts h).regs := timer_vec_regs _ _
  have hI' : Inv cfg (σ.setHart h (σ.harts h).timerTrap) (Function.update vs h (vs h)) :=
    hI.replace_same hh rfl rfl rfl
      ⟨hx.hart, hregs.trans hx.regs, hx.pc, hx.mode, hx.sstatus, hx.sepc, hx.scause, hx.stvec,
        hx.calls⟩ (hI.ok h hh) (hI.safe h hh) ⟨rfl, rfl, rfl, rfl, rfl, rfl, rfl, rfl⟩ rfl rfl rfl
  rwa [Function.update_eq_self] at hI'

theorem Inv.goto_step (hI : Inv cfg σ vs) (hh : h < cfg.harts) {c : Code}
    (hc : Safe cfg c (vs h)) : Inv cfg (σ.goto h c) vs := by
  have hx := hI.hart h hh
  have hI' : Inv cfg (σ.goto h c) (Function.update vs h (vs h)) :=
    hI.replace_same hh rfl rfl rfl
      ⟨hx.hart, hx.regs, hx.pc, hx.mode, hx.sstatus, hx.sepc, hx.scause, hx.stvec, hx.calls⟩
      (hI.ok h hh) hc ⟨rfl, rfl, rfl, rfl, rfl, rfl, rfl, rfl⟩ rfl rfl rfl
  rwa [Function.update_eq_self] at hI'

/-! ## The moves of the views -/

inductive Move (cfg : Config) (σ : State) (vs : ℕ → View) : Event → State → (ℕ → View) → Prop
    where
  | trap {h : ℕ} {fail : Bool} : h < cfg.harts → (σ.harts h).interrupted = true →
      (vs h).k.sie = true →
      Move cfg σ vs (.hart h fail) (σ.setHart h ((σ.harts h).trap h))
        (Function.update vs h (vs h).trapped)
  | op {h : ℕ} {fail : Bool} {o : Op} {f : o.Ret → Code} {r : o.Ret} {w : View} {σ' : State} :
      h < cfg.harts → (σ.harts h).interrupted = false → (σ.harts h).code = .op o f →
      Op.simple o = true → Pre cfg o (vs h) → Performed σ h fail o r (f r) σ' →
      Goes cfg σ' o r (vs h) w → Move cfg σ vs (.hart h fail) σ' (Function.update vs h w)
  | loop {h : ℕ} {fail : Bool} {l : Loop} {f : l.Ret → Code} :
      h < cfg.harts → (σ.harts h).interrupted = false → (σ.harts h).code = .op (.loop l) f →
      Move cfg σ vs (.hart h fail) (σ.goto h (l.round.bind f)) vs
  | call {h : ℕ} {fail : Bool} {s : SwitchSite} {e : I32} {t : Slot} {fs : List Fn}
      {f : Unit → Code} :
      h < cfg.harts → (σ.harts h).interrupted = false →
      (σ.harts h).code = .op (.call_switch_to s (oldCtx s h t) (newCtx s h t)) f →
      (vs h).k = .atSwitch s h e t fs →
      Move cfg σ vs (.hart h fail)
        (σ.callSwitch cfg.layout h s (oldCtx s h t) (newCtx s h t) (f ()))
        (Function.update vs h ((vs h).called cfg.layout s t))
  | ret {h : ℕ} {fail : Bool} {s : SwitchSite} {e : I32} {t : Slot} {fs : List Fn}
      {ρ : CtxWord → U64} {f : Unit → Code} {w : View} :
      h < cfg.harts → (σ.harts h).interrupted = false →
      (σ.harts h).code = .op (.ret (oldCtx s h t) (newCtx s h t)) f →
      (vs h).k = .switching s h e t fs ρ → (∀ i, σ.mem.ctx (oldCtx s h t) i = ρ i) →
      Returns cfg s h e t w.k →
      (w.k.trap ≠ .idle → (σ.harts h).regs .ra ≠ cfg.layout.dummy_task) →
      Move cfg σ vs (.hart h fail) (σ.setHart h ((σ.harts h).afterRet cfg.layout σ.parked))
        (Function.update vs h w)
  | compute {h : ℕ} {r : Regs} {pc : U64} : h < cfg.harts →
      Move cfg σ vs (.compute h r pc) (σ.setHart h { σ.harts h with regs := r, pc := pc })
        (Function.update vs h { vs h with regs := r, pc := pc })
  | timer {h : ℕ} : h < cfg.harts →
      Move cfg σ vs (.timer h) (σ.setHart h (σ.harts h).timerTrap) vs

theorem safe_pre {o : Op} {f : o.Ret → Code} (h : Safe cfg (.op o f) v) (hok : v.Ok cfg) :
    Pre cfg o v ∧ ∀ r w, Post cfg o v r w → w.Ok cfg → Safe cfg (f r) w := by
  refine h v ?_ hok
  split
  · rfl
  · exact Interf.refl v

theorem Inv.intact (hI : Inv cfg σ vs) (hh : h < cfg.harts) {s : Snapshot}
    (hp : Pre cfg (.sret s) (vs h)) : s.intact (σ.harts h).afterSret := by
  have hx := hI.hart h hh
  obtain ⟨_, _, _, hpc, hmode, _, hspp, _, _, hregs⟩ := hp
  refine ⟨?_, ?_, fun r _ hr => ?_⟩
  · exact hx.sepc.trans hpc
  · rw [← hx.sstatus] at hspp
    exact (if_pos hspp).trans hmode.symm
  · show (σ.harts h).regs r = s.regs r
    rw [hx.regs]
    exact hregs r hr

theorem Inv.goes (hI : Inv cfg σ vs) (hh : h < cfg.harts) {o : Op} {r : o.Ret} {fail : Bool}
    {c : Code} (hs : Op.simple o = true) (hp : Pre cfg o (vs h))
    (hx : Performed σ h fail o r c σ') : ∃ w, Goes cfg σ' o r (vs h) w := by
  by_cases hl : ∃ p, o = .load (.state p)
  · obtain ⟨p, rfl⟩ := hl
    exact hI.goes_load_state hh hx
  by_cases hsret : ∃ s, o = .sret s
  · obtain ⟨s, rfl⟩ := hsret
    exact ⟨_, hI.goes_sret hh hp hx⟩
  refine ⟨_, hI.goes_plain hh ?_ (fun s he => hsret ⟨s, he⟩) hp hx⟩
  cases o with
  | load l =>
    cases l with
    | state p => exact absurd ⟨p, rfl⟩ hl
    | _ => rfl
  | loop l => cases hs
  | call_switch_to s old new => cases hs
  | ret old new => cases hs
  | _ => rfl

/-- A hart performs its next operation. -/
theorem Inv.hart_step (hI : Inv cfg σ vs) (hh : h < cfg.harts) {fail : Bool} {o : Op}
    {f : o.Ret → Code} (hi : (σ.harts h).interrupted = false) (hcode : (σ.harts h).code = .op o f)
    (hs : σ.exec cfg.layout h fail o f = some σ') :
    ∃ vs', Move cfg σ vs (.hart h fail) σ' vs' ∧ Inv cfg σ' vs' := by
  have hsafe := hI.safe h hh
  have hhart := (hI.hart h hh).hart
  rw [hcode] at hsafe
  obtain ⟨hp, hpost⟩ := safe_pre hsafe (hI.ok h hh)
  by_cases hsimple : Op.simple o = true
  · obtain ⟨r, hx⟩ := exec_simple hsimple (fun s he => hI.intact hh (he ▸ hp)) hs
    obtain ⟨w, hg⟩ := hI.goes hh hsimple hp hx
    exact ⟨_, .op hh hi hcode hsimple hp hx hg,
      hI.simple_step hh hp hx hg (hpost r w hg.post hg.ok)⟩
  cases o with
  | loop l =>
    cases hs
    refine ⟨vs, .loop hh hi hcode, hI.goto_step hh ?_⟩
    exact safe_loop (hI.ok h hh) hp fun r w hw hwok => hpost r w hw hwok
  | call_switch_to s old new =>
    cases hs
    obtain ⟨e, t, hk, rfl, rfl⟩ := hp
    rw [hhart] at hcode hk ⊢
    exact ⟨_, .call hh hi hcode hk,
      hI.call_step hh hk rfl rfl fun w hw hwok => hpost () w hw hwok⟩
  | ret old new =>
    cases hs
    obtain ⟨s, e, t, ρ, hk, rfl, rfl, hsaved, hload⟩ := hp
    rw [hhart] at hcode hk hsaved hload
    have hrun : (vs h).k.run = some t := by rw [hk]; rfl
    have hown := hI.owned h hh
    cases s with
    | sched =>
      have hold : ∀ i, σ.mem (.context (.gTasks t) i) = ρ i := fun i =>
        (hown (.context (.gTasks t) i) (Or.inl hrun)).trans (hsaved i)
      have hnew : ∀ i, ctxOf (vs h).regs i = σ.mem (.cpu_context h i) := fun i =>
        (hload i).trans (hown (.cpu_context h i) hhart.symm).symm
      obtain ⟨w, hr, hI'⟩ := hI.ret_scheduler hh hk hold hnew
      refine ⟨_, .ret hh hi hcode hk hold hr fun ht => absurd ?_ ht, hI'⟩
      obtain ⟨f, hw⟩ := hr.of_sched
      rw [hw]
      rfl
    | scheduler =>
      have hold : ∀ i, σ.mem (.cpu_context h i) = ρ i := fun i =>
        (hown (.cpu_context h i) hhart.symm).trans (hsaved i)
      have hnew : ∀ i, ctxOf (vs h).regs i = σ.mem (.context (.gTasks t) i) := fun i =>
        (hload i).trans (hown (.context (.gTasks t) i) (Or.inl hrun)).symm
      obtain ⟨w, hr, hra, hI'⟩ := hI.ret_task hh hk hold hnew
      exact ⟨_, .ret hh hi hcode hk hold hr hra, hI'⟩
  | panic p => cases hs
  | crash => cases hs
  | _ => exact absurd rfl hsimple

theorem Inv.step (hI : Inv cfg σ vs) {e : Event}
    (hs : σ.step cfg.layout cfg.harts e = some σ') :
    ∃ vs', Move cfg σ vs e σ' vs' ∧ Inv cfg σ' vs' := by
  cases e with
  | hart h fail =>
    simp only [State.step] at hs
    split at hs
    swap
    · cases hs
    next hh =>
    split at hs
    · next hi =>
      cases hs
      have hsie : (vs h).k.sie = true := by
        rw [← (hI.ok h hh).sie_eq, ← (hI.hart h hh).sstatus]
        exact ((Bool.and_eq_true _ _).mp hi).1
      exact ⟨_, .trap hh hi hsie, hI.trap_step hh hsie⟩
    · next hi =>
      split at hs
      · next o f hcode => exact hI.hart_step hh (by simpa using hi) hcode hs
      · cases hs
  | compute h r pc =>
    simp only [State.step] at hs
    split at hs
    · next hc =>
      cases hs
      exact ⟨_, .compute hc.1, hI.compute_step hc.1 hc.2.1 hc.2.2⟩
    · cases hs
  | timer h =>
    simp only [State.step] at hs
    split at hs
    · next hh =>
      cases hs
      exact ⟨vs, .timer hh, hI.timer_step hh⟩
    · cases hs

/-! ## What a move shows in the history -/

/-- A hart meets what its next operation needs. -/
theorem Inv.pre_next (hI : Inv cfg σ vs) (hh : h < cfg.harts) {o : Op} (hn : σ.next h = some o) :
    Pre cfg o (vs h) := by
  have hsafe := hI.safe h hh
  unfold State.next at hn
  split at hn
  · cases hn
  · split at hn
    · next o' f hcode =>
      cases hn
      rw [hcode] at hsafe
      exact (safe_pre hsafe (hI.ok h hh)).1
    · cases hn

/-! ## The moves that no operation of the source makes -/

/-- Nothing was performed but the unfolding of a loop. -/
def quiet (x : State × Event) : Prop := performed x = none ∨ ∃ h l, performed x = some (h, .loop l)

theorem quiet_trap {fail : Bool} (hi : (σ.harts h).interrupted = true) :
    quiet (σ, .hart h fail) := Or.inl (performed_interrupted hi)

theorem quiet_loop {fail : Bool} {l : Loop} {f : l.Ret → Code}
    (hi : (σ.harts h).interrupted = false) (hcode : (σ.harts h).code = .op (.loop l) f) :
    quiet (σ, .hart h fail) := Or.inr ⟨h, l, performed_eq hi hcode⟩

/-- The records differ in the interrupts, the calls and the trap in progress at most. -/
structure Ghost.Same (k k' : Ghost) : Prop extends k.SameShare k' where
  stk : k'.stk = k.stk
  sw : k'.sw = k.sw
  scan : k'.scan = k.scan
  back : k'.back = k.back

theorem Ghost.Same.refl (k : Ghost) : k.Same k :=
  ⟨⟨rfl, rfl, rfl, rfl, rfl, rfl, rfl, rfl⟩, rfl, rfl, rfl, rfl⟩

/-- Memory stays, and what every hart has in hand. -/
structure Still (σ : State) (vs : ℕ → View) (σ' : State) (vs' : ℕ → View) : Prop where
  mem : σ'.mem = σ.mem
  same : ∀ h, (vs h).k.Same (vs' h).k

theorem same_update {w : View} (hw : (vs h).k.Same w.k) (h' : ℕ) :
    (vs h').k.Same (Function.update vs h w h').k := by
  by_cases hne : h' = h
  · subst hne
    rwa [Function.update_self]
  · rw [Function.update_of_ne hne]
    exact Ghost.Same.refl _

theorem Move.still {e : Event} {vs' : ℕ → View} (hm : Move cfg σ vs e σ' vs')
    (hq : quiet (σ, e)) : Still σ vs σ' vs' := by
  cases hm with
  | trap hh hi hs =>
    exact ⟨rfl, same_update ⟨⟨rfl, rfl, rfl, rfl, rfl, rfl, rfl, rfl⟩, rfl, rfl, rfl, rfl⟩⟩
  | op hh hi hcode hs hp hx hg =>
    rcases hq with hq | ⟨_, _, hq⟩ <;> rw [performed_eq hi hcode] at hq <;> cases hq
    cases hs
  | loop hh hi hcode => exact ⟨rfl, fun _ => Ghost.Same.refl _⟩
  | call hh hi hcode hk =>
    rcases hq with hq | ⟨_, _, hq⟩ <;> rw [performed_eq hi hcode] at hq <;> cases hq
  | ret hh hi hcode hk hsaved hw =>
    rcases hq with hq | ⟨_, _, hq⟩ <;> rw [performed_eq hi hcode] at hq <;> cases hq
  | compute hh => exact ⟨rfl, same_update (Ghost.Same.refl _)⟩
  | timer hh => exact ⟨rfl, fun _ => Ghost.Same.refl _⟩

/-- Only a hart of the machine performs anything. -/
theorem performed_lt {e : Event} (hm : Move cfg σ vs e σ' vs') {g : ℕ × Op}
    (hp : performed (σ, e) = some g) : g.1 < cfg.harts := by
  cases hm with
  | op hh hi hcode _ _ _ _ | loop hh hi hcode | call hh hi hcode _ | ret hh hi hcode _ _ _ _ =>
    rw [performed_eq hi hcode] at hp
    cases hp
    exact hh
  | trap hh hi _ =>
    rw [performed_interrupted hi] at hp
    cases hp
  | compute hh => cases hp
  | timer hh => cases hp

/-- No call and no return of `switch_to` was performed. -/
def noSwitch (x : State × Event) : Prop :=
  (∀ h s old new, performed x ≠ some (h, .call_switch_to s old new)) ∧
  ∀ h old new, performed x ≠ some (h, .ret old new)

theorem noSwitch_quiet {x : State × Event} (hq : quiet x) : noSwitch x := by
  constructor <;> intros <;> intro hp
  · rcases hq with hq | ⟨_, _, hq⟩ <;> rw [hp] at hq <;> cases hq
  · rcases hq with hq | ⟨_, _, hq⟩ <;> rw [hp] at hq <;> cases hq

theorem noSwitch_simple {x : State × Event} {o : Op} (hx : performed x = some (h, o))
    (hs : Op.simple o = true) : noSwitch x := by
  constructor <;> intros <;> intro hp
  · rw [hx] at hp
    cases hp
    cases hs
  · rw [hx] at hp
    cases hp
    cases hs

/-! ## Runs with their views -/

inductive GRun (cfg : Config) : History State Event → State → (ℕ → View) → Prop where
  | boot {σ : State} : State.Booting cfg σ → GRun cfg [] σ (bootViews σ)
  | step {tr : History State Event} {σ σ' : State} {vs vs' : ℕ → View} {e : Event} :
      GRun cfg tr σ vs → Inv cfg σ vs → Move cfg σ vs e σ' vs' → Inv cfg σ' vs' →
      GRun cfg ((σ, e) :: tr) σ' vs'

theorem GRun.inv {tr : History State Event} (hr : GRun cfg tr σ vs) : Inv cfg σ vs := by
  cases hr with
  | boot hb => exact Inv.boot hb
  | step _ _ _ hI => exact hI

theorem grun_of_run {tr : History State Event} (hr : Run (kernel cfg) tr σ) :
    ∃ vs, GRun cfg tr σ vs := by
  induction hr with
  | init hb => exact ⟨_, .boot hb⟩
  | step _ hs ih =>
    obtain ⟨vs, hg⟩ := ih
    obtain ⟨vs', hm, hI⟩ := hg.inv.step hs
    exact ⟨vs', hg.step hg.inv hm hI⟩

end GQuuuuuunix.Proof
