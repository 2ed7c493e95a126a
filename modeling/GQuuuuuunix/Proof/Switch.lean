import GQuuuuuunix.Proof.SimpleStep

/-! # The invariant across switch_to -/

namespace GQuuuuuunix.Proof
open Lib Kernel
set_option autoImplicit false

variable {cfg : Config} {σ σ' : State} {vs : ℕ → View} {v w : View} {h : ℕ} {x : Hart}

/-! ## A hart goes on elsewhere in the same memory -/

/-- What the rest of the machine sees of a hart. -/
structure Ghost.SameShare (k k' : Ghost) : Prop where
  off : k'.off = k.off
  ena : k'.ena = k.ena
  task : k'.task = k.task
  held : k'.held = k.held
  own : k'.own = k.own
  run : k'.run = k.run
  st : k'.st = k.st
  stage : k'.stage = k.stage

theorem Inv.replace (hI : Inv cfg σ vs) (hmem : σ'.mem = σ.mem)
    (hharts : σ'.harts = Function.update σ.harts h x) (hx : HartIs h x w) (hok : w.Ok cfg)
    (hsafe : Safe cfg x.code w) (hs : (vs h).k.SameShare w.k)
    (hown : ∀ l, w.k.Owns cfg.layout l → σ.mem l = w.m.mem l)
    (hctx : (vs 0).k.stage = .opened →
      Contexts cfg σ' fun h' => (Function.update vs h w h').k) :
    Inv cfg σ' (Function.update vs h w) := by
  have hother : ∀ h', h' ≠ h → σ'.harts h' = σ.harts h' := fun h' hne => by
    rw [hharts, Function.update_of_ne hne]
  have hself : σ'.harts h = x := by rw [hharts, Function.update_self]
  have hshare : ∀ h', (vs h').k.SameShare (Function.update vs h w h').k := by
    intro h'
    by_cases hne : h' = h
    · rw [hne, Function.update_self]
      exact hs
    · rw [Function.update_of_ne hne]
      exact ⟨rfl, rfl, rfl, rfl, rfl, rfl, rfl, rfl⟩
  refine ⟨fun h' hh' => ?_, fun h' hh' => ?_, fun h' hh' => ?_, fun h' hh' => ?_,
    fun h' hh' l ho => ?_, fun a ha b hb t hta htb => ?_, fun a ha b hb t hta htb => ?_, ?_,
    fun h' hh' ho => ?_, fun hst => ?_, fun p hc => ?_, fun ho => ?_, fun ho => ?_⟩
  · by_cases hne : h' = h
    · rw [hne, hself, Function.update_self]
      exact hx
    · rw [hother h' hne, Function.update_of_ne hne]
      exact hI.hart h' hh'
  · by_cases hne : h' = h
    · rw [hne, Function.update_self]
      exact hok
    · rw [Function.update_of_ne hne]
      exact hI.ok h' hh'
  · by_cases hne : h' = h
    · rw [hne, hself, Function.update_self]
      exact hsafe
    · rw [hother h' hne, Function.update_of_ne hne]
      exact hI.safe h' hh'
  · have hc := hI.cpu h' hh'
    have hhart : (Function.update vs h w h').k.hart = (vs h').k.hart := by
      rw [(hI.hart h' hh').hart]
      by_cases hne : h' = h
      · rw [hne, Function.update_self]
        exact hx.hart
      · rw [Function.update_of_ne hne]
        exact (hI.hart h' hh').hart
    rw [hmem]
    refine ⟨?_, ?_, ?_⟩
    · rw [hhart, (hshare h').off]
      exact hc.off_nrs
    · rw [hhart, (hshare h').ena]
      exact hc.intr_ena_before
    · rw [hhart, (hshare h').task]
      exact hc.cpu_task
  · rw [hmem]
    by_cases hne : h' = h
    · rw [hne, Function.update_self] at ho ⊢
      exact hown l ho
    · rw [Function.update_of_ne hne] at ho ⊢
      exact hI.owned h' hh' l ho
  · rw [(hshare a).held] at hta
    rw [(hshare b).held] at htb
    exact hI.held_inj a ha b hb t hta htb
  · rw [(hshare a).run] at hta
    rw [(hshare b).run] at htb
    exact hI.run_inj a ha b hb t hta htb
  · rw [(hshare 0).stage]
    exact hI.first
  · rw [(hshare h').stage] at ho
    rw [(hshare 0).stage]
    exact hI.opened h' hh' ho
  · rw [hmem] at hst
    rw [(hshare 0).stage]
    exact hI.start hst
  · rw [(hshare 0).stage] at hc
    rw [hmem]
    exact hI.closed p hc
  · rw [(hshare 0).stage] at ho
    rw [hmem]
    refine (hI.table ho).frame (only_update vs h w) ?_ (fun _ _ _ => rfl) fun _ => rfl
    exact ⟨(hshare h).held, (hshare h).own, (hshare h).run, (hshare h).st⟩
  · rw [(hshare 0).stage] at ho
    exact hctx ho

/-- The saved contexts are about stacks and memory only. -/
theorem Contexts.same {K K' : ℕ → Ghost} (hc : Contexts cfg σ K) (hmem : σ'.mem = σ.mem)
    (hparked : σ'.parked = σ.parked) (hstk : ∀ h, (K' h).stk = (K h).stk)
    (hsw : ∀ h, (K' h).sw = (K h).sw) : Contexts cfg σ' K' := by
  have hr : ∀ {s h t ρ}, Resumable cfg σ s h t ρ → Resumable cfg σ' s h t ρ := fun hr =>
    hr.frame (by rw [hparked]) fun _ _ _ => by rw [hmem]
  refine ⟨fun t hlt hno => ?_, fun h' hh' t ht => ?_, fun h' hh' s t ρ hs ht => ?_⟩
  · rw [hmem]
    exact (hc.task t hlt fun h' hh' => hstk h' ▸ hno h' hh').imp_right fun ⟨h', hx⟩ => ⟨h', hr hx⟩
  · rw [hmem]
    exact hr (hc.hart h' hh' t (hstk h' ▸ ht))
  · exact hr (hc.leaving h' hh' s t ρ (hsw h' ▸ hs) (hstk h' ▸ ht))

/-- A hart goes on elsewhere on its stack. -/
theorem Inv.replace_same (hI : Inv cfg σ vs) (hh : h < cfg.harts) (hmem : σ'.mem = σ.mem)
    (hparked : σ'.parked = σ.parked) (hharts : σ'.harts = Function.update σ.harts h x)
    (hx : HartIs h x w) (hok : w.Ok cfg) (hsafe : Safe cfg x.code w)
    (hs : (vs h).k.SameShare w.k) (hstk : w.k.stk = (vs h).k.stk) (hsw : w.k.sw = (vs h).k.sw)
    (hm : w.m.mem = (vs h).m.mem) : Inv cfg σ' (Function.update vs h w) := by
  refine hI.replace hmem hharts hx hok hsafe hs (fun l ho => ?_) fun hop => ?_
  · rw [hm]
    refine hI.owned h hh l (ho.mono ?_ hstk ?_ ?_)
    · rw [hx.hart, (hI.hart h hh).hart]
    · intro t ht
      rwa [hs.run] at ht
    · intro hb
      rwa [hs.stage] at hb
  · refine (hI.contexts hop).same hmem hparked (fun h' => ?_) fun h' => ?_
    · by_cases hne : h' = h
      · rw [hne, Function.update_self]
        exact hstk
      · rw [Function.update_of_ne hne]
    · by_cases hne : h' = h
      · rw [hne, Function.update_self]
        exact hsw
      · rw [Function.update_of_ne hne]

/-! ## The call of switch_to -/

section
variable {s : SwitchSite} {e : I32} {t : Slot} {f : List Fn} {ρ : CtxWord → U64}

theorem Ghost.Ok.switching {n : ℕ} (hok : (Ghost.atSwitch s h e t f).Ok n) :
    (Ghost.switching s h e t f ρ).Ok n :=
  { hok with
    stk_task := fun t' ht => by
      cases s with
      | sched =>
        cases ht
        exact ⟨rfl, rfl, rfl⟩
      | scheduler => cases ht
    sie_ok := fun hs => by cases hs
    sw_run := fun t' ρ' hs => by
      cases hs
      rfl }

theorem View.Ok.switching (hok : v.Ok cfg) (hk : v.k = .atSwitch s h e t f) (a : U64) :
    ({ v with k := .switching s h e t f ρ, regs := Function.update v.regs .ra a } : View).Ok
      cfg := by
  have hg : (Ghost.atSwitch s h e t f).Ok cfg.harts := hk ▸ hok.toOk
  have hsw : v.k.sw = none := by rw [hk]; rfl
  have hregs : ∀ y : Reg, y ≠ .ra → Function.update v.regs .ra a y = v.regs y := fun y hy =>
    Function.update_of_ne hy _ _
  have hhart : v.k.hart = h := by rw [hk]; rfl
  have hstk : v.k.stk = (Ghost.atSwitch s h e t f).stk := by rw [hk]
  refine { hg.switching with tp := ?_, sie_eq := ?_, sp := fun hx => (by cases hx),
                             sp_run := fun t' ht => ?_, roomy := fun hx => (by cases hx),
                             sched_sp := fun t' ht => ?_, task_sp := fun t' h' hr ht => ?_ }
  · refine (hregs .tp (by decide)).trans ?_
    rw [hok.tp, hhart]
    rfl
  · rw [hok.sie_eq, hk]
    rfl
  · have ht' : cfg.layout.stackOf (Function.update v.regs .ra a .sp) = some (.task t') := ht
    rw [hregs .sp (by decide), hok.sp hsw] at ht'
    have hr := (hok.stk_task t' (Option.some.inj ht')).1
    rw [hk] at hr
    exact hr
  · have hx := hok.sched_sp t' (hstk.trans ht)
    rw [hhart] at hx
    exact hx
  · refine hok.task_sp t' h' ?_ (hstk.trans ht)
    rw [hk]
    exact hr

/-- A frame is left on the stack of hart `h`: no other saved context leads there. -/
theorem Contexts.park (hI : Inv cfg σ vs) (hh : h < cfg.harts) (hop : (vs 0).k.stage = .opened)
    (hmem : σ'.mem = σ.mem) {a : U64} {p : Parked}
    (hparked : σ'.parked = fun sp => if sp = a then some p else σ.parked sp)
    (ha : cfg.layout.stackOf a = some (vs h).k.stk)
    (hstk : w.k.stk = (vs h).k.stk)
    (hleave : ∀ s t ρ, w.k.sw = some (t, ρ) → w.k.stk = switchStack s h t →
      Resumable cfg σ' s h t ρ) :
    Contexts cfg σ' fun h' => (Function.update vs h w h').k := by
  have hc := hI.contexts hop
  have hstk' : ∀ h', (Function.update vs h w h').k.stk = (vs h').k.stk := by
    intro h'
    by_cases hne : h' = h
    · rw [hne, Function.update_self]
      exact hstk
    · rw [Function.update_of_ne hne]
  have hr : ∀ {s h' t ρ}, switchStack s h' t ≠ (vs h).k.stk → Resumable cfg σ s h' t ρ →
      Resumable cfg σ' s h' t ρ := by
    intro s h' t ρ hne hr
    refine hr.frame ?_ fun _ _ _ => by rw [hmem]
    obtain ⟨v, c, hcont, _, hs, _⟩ := hr
    rw [hparked]
    refine if_neg ?_
    rintro rfl
    have hst := hcont.stack
    rw [ha, hs] at hst
    exact hne (Option.some.inj hst).symm
  refine ⟨fun t hlt hno => ?_, fun h' hh' t ht => ?_, fun h' hh' s t ρ hs ht => ?_⟩
  · have hno' : ∀ h' < cfg.harts, (vs h').k.stk ≠ .task t := fun h' hh' => hstk' h' ▸ hno h' hh'
    rw [hmem]
    exact (hc.task t hlt hno').imp_right fun ⟨h', hx⟩ => ⟨h', hr (hno' h hh).symm hx⟩
  · rw [hstk' h'] at ht
    rw [hmem]
    refine hr (fun hs => ?_) (hc.hart h' hh' t ht)
    have heq := (hI.ok h hh).stk_hart h' hs.symm
    rw [(hI.hart h hh).hart] at heq
    rw [heq] at ht hs
    rw [ht] at hs
    cases hs
  · by_cases hne : h' = h
    · rw [hne, Function.update_self] at hs ht
      rw [hne]
      exact hleave s t ρ hs ht
    · rw [Function.update_of_ne hne] at hs ht
      refine hr (fun hst => ?_) (hc.leaving h' hh' s t ρ hs ht)
      exact hne (hI.stk_inj hh' hh (ht.trans hst))

/-- The view of a hart that has called `switch_to`. -/
def View.called (L : Layout) (v : View) (s : SwitchSite) (t : Slot) : View :=
  let regs := Function.update v.regs .ra (L.switch_ret s)
  { v with k := .switching s v.k.hart v.k.ena t v.k.calls (ctxOf regs), regs := regs }

theorem Inv.call_step (hI : Inv cfg σ vs) (hh : h < cfg.harts) {old new : CtxPtr} {c : Code}
    (hk : (vs h).k = .atSwitch s h e t f) (hold : old = oldCtx s h t) (hnew : new = newCtx s h t)
    (hsafe : ∀ w, Resumed cfg.layout s (vs h) w → w.Ok cfg → Safe cfg c w) :
    Inv cfg (σ.callSwitch cfg.layout h s old new c)
      (Function.update vs h ((vs h).called cfg.layout s t)) := by
  have hx := hI.hart h hh
  have hok := hI.ok h hh
  have hsw : (vs h).k.sw = none := by rw [hk]; rfl
  have hstk : (vs h).k.stk = switchStack s h t := by
    rw [hk]
    cases s <;> rfl
  obtain ⟨regs, hregs⟩ : ∃ regs, regs = Function.update (vs h).regs .ra (cfg.layout.switch_ret s) :=
    ⟨_, rfl⟩
  have hw : (vs h).called cfg.layout s t =
      { vs h with k := .switching s h e t f (ctxOf regs), regs := regs } := by
    unfold View.called
    rw [hregs, hk]
    rfl
  have hsp : regs .sp = (vs h).regs .sp := by
    rw [hregs]
    exact Function.update_of_ne (by decide) _ _
  have hctx1 : ctxOf regs 1 = regs .sp := ctxOf_slot regs (x := (.sp, 1)) (by decide)
  have hctx0 : ctxOf regs 0 = cfg.layout.switch_ret s := by
    rw [ctxOf_slot regs (x := (.ra, 0)) (by decide), hregs]
    exact Function.update_self _ _ _
  rw [hw]
  have hxregs : Function.update (σ.harts h).regs .ra (cfg.layout.switch_ret s) = regs := by
    rw [hx.regs, hregs]
  have hparked : (σ.callSwitch cfg.layout h s old new c).parked = fun sp =>
      if sp = regs .sp then some { regs := ctxOf regs, calls := f, code := c }
      else σ.parked sp := by
    rw [← hxregs, show f = (σ.harts h).calls by rw [hx.calls, hk]; rfl]
    rfl
  refine hI.replace (x := { σ.harts h with regs := regs, code := switch_to old new }) rfl ?_
    ⟨rfl, rfl, hx.pc, hx.mode, hx.sstatus, hx.sepc, hx.scause, ?_, ?_⟩ ?_ ?_ ?_ ?_ ?_
  · rw [← hxregs]
    rfl
  · show (σ.harts h).stvec = true
    rw [hx.stvec, hk]
    rfl
  · show (σ.harts h).calls = f
    rw [hx.calls, hk]
    rfl
  · rw [hregs]
    exact hok.switching hk _
  · rw [hold, hnew]
    exact safe_switch_to rfl fun _ => rfl
  · rw [hk]
    exact ⟨rfl, rfl, rfl, rfl, rfl, rfl, rfl, rfl⟩
  · intro l ho
    refine hI.owned h hh l ?_
    rw [hk]
    exact ho.mono rfl rfl (fun _ hr => hr) fun hb => hb
  · intro hop
    refine Contexts.park hI hh hop rfl hparked ?_ ?_ ?_
    · rw [hsp]
      exact hok.sp hsw
    · rw [hk]
      rfl
    · intro s' t' ρ' hs' ht'
      cases hs'
      have hss : s' = s := by
        cases s <;> cases s' <;> first | rfl | cases ht'
      subst hss
      refine ⟨vs h, c, ⟨?_, ?_, ?_, fun hs => ?_, fun _ a ha => ?_, hsafe⟩, ?_, hstk, fun _ => ?_⟩
      · rw [hparked, hctx1, hk]
        exact if_pos rfl
      · rw [hctx0]
        exact cfg.layout.switch_ret_ne s'
      · rw [hctx1, hsp]
        exact hok.sp hsw
      · rw [hctx1, hsp]
        refine hok.roomy hsw ?_
        rw [hk, hs]
        rfl
      · exact hI.owned h hh (.stack a) ha
      · rw [hk]
        rfl
      · rw [hk]
        rfl

/-! ## The return of switch_to -/

/-- Which program a hart goes on with when `switch_to` returns. -/
inductive Returns (cfg : Config) (s : SwitchSite) (h : ℕ) (e : I32) (t : Slot) : Ghost → Prop where
  /-- In the scheduler, from `sched`. -/
  | scheduler (f : List Fn) : s = .sched → Returns cfg s h e t (.resumed .scheduler h e t f)
  /-- In `sched`, from the scheduler. -/
  | sched (f : List Fn) : s = .scheduler → Returns cfg s h e t (.resumed .sched h e t f)
  /-- At the start of `dummy_task`, from the scheduler. -/
  | first : s = .scheduler → Returns cfg s h e t (.firstRun h e t)

theorem Returns.of_sched {k : Ghost} (hr : Returns cfg .sched h e t k) :
    ∃ f, k = .resumed .scheduler h e t f := by
  cases hr with
  | scheduler f _ => exact ⟨f, rfl⟩
  | sched _ hs => cases hs
  | first hs => cases hs

theorem Returns.stage {k : Ghost} (hr : Returns cfg s h e t k) : k.stage = .opened := by
  cases hr <;> rfl

theorem Returns.sw {k : Ghost} (hr : Returns cfg s h e t k) : k.sw = none := by
  cases hr <;> rfl

/-- The stack that `switch_to` returns on. -/
def landing (s : SwitchSite) (h : ℕ) (t : Slot) : StackId :=
  match s with | .sched => .hart h | .scheduler => .task t

theorem Returns.stk {k : Ghost} (hr : Returns cfg s h e t k) : k.stk = landing s h t := by
  cases hr with
  | scheduler f hs => subst hs; rfl
  | sched f hs => subst hs; rfl
  | first hs => subst hs; rfl

theorem Ghost.Ok.resumed_scheduler {n : ℕ} (hok : (Ghost.switching .sched h e t f ρ).Ok n)
    (f' : List Fn) : (Ghost.resumed .scheduler h e t f').Ok n :=
  { hok with
    stk_hart := fun h' hs => by cases hs; rfl
    stk_task := fun t' hs => by cases hs
    run_st := fun t' hr => Or.inl ⟨rfl, hr⟩
    run_held := fun t' h' hr _ => hr
    sie_ok := fun hs => by cases hs
    balanced := fun _ => ⟨rfl, fun _ => rfl⟩
    scheduler_opened := fun _ => rfl
    sw_run := fun t' ρ' hs => by cases hs }

theorem Ghost.Ok.resumed_sched {n : ℕ} (hok : (Ghost.switching .scheduler h e t f ρ).Ok n)
    (f' : List Fn) : (Ghost.resumed .sched h e t f').Ok n :=
  { hok with
    stk_hart := fun h' hs => by cases hs
    stk_task := fun t' hs => by
      cases hs
      exact ⟨rfl, rfl, rfl⟩
    run_st := fun t' hr => Or.inr rfl
    run_held := fun t' h' hr _ => hr
    sie_ok := fun hs => by cases hs
    balanced := fun _ => ⟨rfl, fun _ => rfl⟩
    scheduler_opened := fun _ => rfl
    sw_run := fun t' ρ' hs => by cases hs }

theorem Ghost.Ok.firstRun {n : ℕ} (hok : (Ghost.switching .scheduler h e t f ρ).Ok n) :
    (Ghost.firstRun h e t).Ok n :=
  { hok.resumed_sched [] with sie_ok := fun hs => by cases hs }

theorem afterRet_dummy {L : Layout} {parked : U64 → Option Parked} (x : Hart)
    (hra : x.regs .ra = L.dummy_task) :
    x.afterRet L parked = { x with calls := [], code := dummy_task } := if_pos hra

theorem afterRet_parked {L : Layout} {parked : U64 → Option Parked} (x : Hart) {p : Parked}
    (hra : x.regs .ra ≠ L.dummy_task) (hp : parked (x.regs .sp) = some p)
    (hregs : ∀ i, ctxOf x.regs i = p.regs i) :
    x.afterRet L parked = { x with calls := p.calls, code := p.code } := by
  unfold Hart.afterRet
  rw [if_neg hra, hp]
  exact if_pos hregs

/-- The registers that `switch_to` has loaded find what was parked with them. -/
theorem Continues.afterRet {s : SwitchSite} {ρ : CtxWord → U64} {c : Code}
    (hc : Continues cfg σ s ρ v c) (x : Hart) (hρ : ∀ i, ctxOf x.regs i = ρ i) :
    x.afterRet cfg.layout σ.parked = { x with calls := v.k.calls, code := c } := by
  have hra : x.regs .ra = ρ 0 := by
    rw [← hρ 0, ctxOf_slot x.regs (x := (.ra, 0)) (by decide)]
  have hsp : x.regs .sp = ρ 1 := by
    rw [← hρ 1, ctxOf_slot x.regs (x := (.sp, 1)) (by decide)]
  exact afterRet_parked x (p := ⟨ρ, v.k.calls, c⟩) (hra ▸ hc.ra) (by rw [hsp, hc.parked]) hρ

/-- The view of a hart that goes on with another record, and looks at memory afresh. -/
def View.goOn (v : View) (k : Ghost) (mem : Mem) : View :=
  { v with k := k, m := { v.m with mem := mem } }

theorem HartIs.goOn (hx : HartIs h x v) {k : Ghost} {mem : Mem} {c : Code} (hh : k.hart = h)
    (hs : v.k.stvec = k.stvec) :
    HartIs h { x with calls := k.calls, code := c } (v.goOn k mem) :=
  ⟨hh, hx.regs, hx.pc, hx.mode, hx.sstatus, hx.sepc, hx.scause, hx.stvec.trans hs, rfl⟩

/-- `switch_to` returns to the scheduler. -/
theorem Inv.ret_scheduler (hI : Inv cfg σ vs) (hh : h < cfg.harts)
    (hk : (vs h).k = .switching .sched h e t f ρ)
    (hsaved : ∀ i, σ.mem (.context (.gTasks t) i) = ρ i)
    (hload : ∀ i, ctxOf (vs h).regs i = σ.mem (.cpu_context h i)) :
    ∃ w, Returns cfg .sched h e t w.k ∧
      Inv cfg (σ.setHart h ((σ.harts h).afterRet cfg.layout σ.parked))
        (Function.update vs h w) := by
  have hx := hI.hart h hh
  have hok := hI.ok h hh
  have hg : (Ghost.switching .sched h e t f ρ).Ok cfg.harts := hk ▸ hok.toOk
  have hop : (vs 0).k.stage = .opened := hI.opened h hh (by rw [hk]; rfl)
  have hctx := hI.contexts hop
  obtain ⟨v0, c, hc, hrun, hstk, hhart⟩ := hctx.hart h hh t (by rw [hk]; rfl)
  have hleave := hctx.leaving h hh .sched t ρ (by rw [hk]; rfl) (by rw [hk]; rfl)
  have hsp : (vs h).regs .sp = σ.mem (.cpu_context h 1) := by
    rw [← hload 1, ctxOf_slot (vs h).regs (x := (.sp, 1)) (by decide)]
  have hret := hc.afterRet (σ.harts h) (by rw [hx.regs]; exact hload)
  obtain ⟨w, hw⟩ : ∃ w, w = (vs h).goOn (.resumed .scheduler h e t v0.k.calls) σ.mem := ⟨_, rfl⟩
  have hwk : w.k = .resumed .scheduler h e t v0.k.calls := by rw [hw]; rfl
  have htask : cfg.layout.stackOf (ρ 1) = some (.task t) := by
    obtain ⟨v1, c1, hc1, _, hstk1, _⟩ := hleave
    rw [hc1.stack, hstk1]
    rfl
  have hwok : w.Ok cfg := by
    rw [hw]
    refine { hg.resumed_scheduler _ with tp := ?_, sie_eq := ?_, sp := fun _ => ?_,
                                         sp_run := fun t' ht => ?_, roomy := fun _ _ => ?_,
                                         sched_sp := fun t' ht => (by cases ht),
                                         task_sp := fun t' h' hr _ => ?_ }
    · have htp := hok.tp
      rwa [hk] at htp
    · have hsie := hok.sie_eq
      rwa [hk] at hsie
    · show cfg.layout.stackOf ((vs h).regs .sp) = some (.hart h)
      rw [hsp, hc.stack, hstk]
      rfl
    · have ht' : cfg.layout.stackOf ((vs h).regs .sp) = some (.task t') := ht
      rw [hsp, hc.stack, hstk] at ht'
      cases ht'
    · show cfg.layout.Roomy ((vs h).regs .sp)
      rw [hsp]
      exact hc.roomy rfl
    · cases hr
      show cfg.layout.stackOf (σ.mem (.context (.gTasks t) 1)) = _
      rw [hsaved 1]
      exact htask
  refine ⟨w, hwk ▸ .scheduler _ rfl, ?_⟩
  rw [hret]
  refine hI.replace (x := { σ.harts h with calls := v0.k.calls, code := c }) rfl rfl
    (hw ▸ hx.goOn (k := .resumed .scheduler h e t v0.k.calls) rfl (by rw [hk]; rfl)) hwok
    ?_ ?_ ?_ fun _ => ?_
  · exact hc.safe w ⟨t, h, e, hrun, hwk, fun _ => (hhart rfl).symm, fun hs => by cases hs⟩ hwok
  · rw [hk, hwk]
    exact ⟨rfl, rfl, rfl, rfl, rfl, rfl, rfl, rfl⟩
  · intro l _
    rw [hw]
    rfl
  · have hr : ∀ {s h' t ρ}, Resumable cfg σ s h' t ρ →
        Resumable cfg (σ.setHart h { σ.harts h with calls := v0.k.calls, code := c }) s h' t ρ :=
      fun hr => hr.frame rfl fun _ _ _ => rfl
    have hself : (Function.update vs h w h).k.stk = .hart h := by
      rw [Function.update_self, hwk]
      rfl
    refine ⟨fun t' hlt hno => ?_, fun h' hh' t' ht => ?_, fun h' hh' s t' ρ' hs ht => ?_⟩
    · by_cases htt : t' = t
      · rw [htt]
        refine Or.inr ⟨h, hr ?_⟩
        rw [show (fun i => (σ.setHart h _).mem (.context (.gTasks t) i)) = ρ from funext hsaved]
        exact hleave
      · refine (hctx.task t' hlt fun h' hh' hs => ?_).imp_right fun ⟨h', hx⟩ => ⟨h', hr hx⟩
        by_cases hne : h' = h
        · rw [hne, hk] at hs
          cases hs
          exact htt rfl
        · refine hno h' hh' ?_
          rw [Function.update_of_ne hne]
          exact hs
    · by_cases hne : h' = h
      · rw [hne, hself] at ht
        cases ht
      · rw [Function.update_of_ne hne] at ht
        exact hr (hctx.hart h' hh' t' ht)
    · by_cases hne : h' = h
      · rw [hne, Function.update_self, hwk] at hs
        cases hs
      · rw [Function.update_of_ne hne] at hs ht
        exact hr (hctx.leaving h' hh' s t' ρ' hs ht)

/-- The hart is on the stack of the task that `scheduler` has switched to. -/
theorem Inv.enter_task (hI : Inv cfg σ vs) (hh : h < cfg.harts)
    (hk : (vs h).k = .switching .scheduler h e t f ρ)
    (hsaved : ∀ i, σ.mem (.cpu_context h i) = ρ i) {k' : Ghost} {c : Code}
    (hg : k'.Ok cfg.harts) (hs : (vs h).k.SameShare k') (hhart : k'.hart = h)
    (hsie : k'.sie = false) (hstk : k'.stk = .task t) (hsw : k'.sw = none)
    (hstvec : k'.stvec = true) (hsp : cfg.layout.stackOf ((vs h).regs .sp) = some (.task t))
    (hroomy : k'.trap = .idle → cfg.layout.Roomy ((vs h).regs .sp))
    (hsafe : ((vs h).goOn k' σ.mem).Ok cfg → Safe cfg c ((vs h).goOn k' σ.mem)) :
    Inv cfg (σ.setHart h { σ.harts h with calls := k'.calls, code := c })
      (Function.update vs h ((vs h).goOn k' σ.mem)) := by
  have hx := hI.hart h hh
  have hok := hI.ok h hh
  have hop : (vs 0).k.stage = .opened := hI.opened h hh (by rw [hk]; rfl)
  have hctx := hI.contexts hop
  have hleave := hctx.leaving h hh .scheduler t ρ (by rw [hk]; rfl) (by rw [hk]; rfl)
  have hrun : k'.run = some t := by
    rw [hs.run, hk]
    rfl
  have hsched : cfg.layout.stackOf (ρ 1) = some (.hart h) := by
    obtain ⟨v1, c1, hc1, _, hstk1, _⟩ := hleave
    rw [hc1.stack, hstk1]
    rfl
  have hwok : ((vs h).goOn k' σ.mem).Ok cfg := by
    refine { hg with tp := ?_, sie_eq := ?_, sp := fun _ => ?_, sp_run := fun t' ht => ?_,
                     roomy := fun _ => hroomy, sched_sp := fun t' ht => ?_,
                     task_sp := fun t' h' hr ht => ?_ }
    · have htp := hok.tp
      rw [hk] at htp
      show (vs h).regs .tp = BitVec.ofNat 64 k'.hart
      rw [hhart]
      exact htp
    · have hsie' := hok.sie_eq
      rw [hk] at hsie'
      exact hsie'.trans hsie.symm
    · show cfg.layout.stackOf ((vs h).regs .sp) = some k'.stk
      rw [hsp, hstk]
    · have ht' : cfg.layout.stackOf ((vs h).regs .sp) = some (.task t') := ht
      rw [hsp] at ht'
      cases ht'
      exact hrun
    · show cfg.layout.stackOf (σ.mem (.cpu_context k'.hart 1)) = some (.hart k'.hart)
      rw [hhart, hsaved 1]
      exact hsched
    · have ht' : k'.stk = .hart h' := ht
      rw [hstk] at ht'
      cases ht'
  refine hI.replace (x := { σ.harts h with calls := k'.calls, code := c }) rfl rfl
    (hx.goOn hhart (by rw [hk, hstvec]; rfl)) hwok (hsafe hwok) hs (fun _ _ => rfl) fun _ => ?_
  have hr : ∀ {s h' t ρ}, Resumable cfg σ s h' t ρ →
      Resumable cfg (σ.setHart h { σ.harts h with calls := k'.calls, code := c }) s h' t ρ :=
    fun hr => hr.frame rfl fun _ _ _ => rfl
  have hself : (Function.update vs h ((vs h).goOn k' σ.mem) h).k = k' := by
    rw [Function.update_self]
    rfl
  refine ⟨fun t' hlt hno => ?_, fun h' hh' t' ht => ?_, fun h' hh' s t' ρ' hs' ht => ?_⟩
  · refine (hctx.task t' hlt fun h' hh' hst => ?_).imp_right fun ⟨h', hx⟩ => ⟨h', hr hx⟩
    by_cases hne : h' = h
    · rw [hne, hk] at hst
      cases hst
    · refine hno h' hh' ?_
      rw [Function.update_of_ne hne]
      exact hst
  · by_cases hne : h' = h
    · rw [hne, hself, hstk] at ht
      cases ht
      rw [hne, show (fun i => (σ.setHart h _).mem (.cpu_context h i)) = ρ from funext hsaved]
      exact hr hleave
    · rw [Function.update_of_ne hne] at ht
      exact hr (hctx.hart h' hh' t' ht)
  · by_cases hne : h' = h
    · rw [hne, hself, hsw] at hs'
      cases hs'
    · rw [Function.update_of_ne hne] at hs' ht
      exact hr (hctx.leaving h' hh' s t' ρ' hs' ht)

/-- `switch_to` returns to a task, or enters it for the first time. -/
theorem Inv.ret_task (hI : Inv cfg σ vs) (hh : h < cfg.harts)
    (hk : (vs h).k = .switching .scheduler h e t f ρ)
    (hsaved : ∀ i, σ.mem (.cpu_context h i) = ρ i)
    (hload : ∀ i, ctxOf (vs h).regs i = σ.mem (.context (.gTasks t) i)) :
    ∃ w, Returns cfg .scheduler h e t w.k ∧
      (w.k.trap ≠ .idle → (σ.harts h).regs .ra ≠ cfg.layout.dummy_task) ∧
      Inv cfg (σ.setHart h ((σ.harts h).afterRet cfg.layout σ.parked))
        (Function.update vs h w) := by
  have hx := hI.hart h hh
  have hg : (Ghost.switching .scheduler h e t f ρ).Ok cfg.harts := hk ▸ (hI.ok h hh).toOk
  have hop : (vs 0).k.stage = .opened := hI.opened h hh (by rw [hk]; rfl)
  have hrun : (vs h).k.run = some t := by rw [hk]; rfl
  have hsp : (vs h).regs .sp = σ.mem (.context (.gTasks t) 1) := by
    rw [← hload 1, ctxOf_slot (vs h).regs (x := (.sp, 1)) (by decide)]
  have hra : (vs h).regs .ra = σ.mem (.context (.gTasks t) 0) := by
    rw [← hload 0, ctxOf_slot (vs h).regs (x := (.ra, 0)) (by decide)]
  have hno : ∀ h' < cfg.harts, (vs h').k.stk ≠ .task t := by
    intro h' hh' hs
    obtain rfl := hI.run_uniq hh hrun h' hh' (hI.stk_run hh' hs)
    rw [hk] at hs
    cases hs
  rcases (hI.contexts hop).task t (((hI.table hop).state t).running h hh hrun).2 hno with
    hinit | ⟨h0, v0, c, hc, hrun0, hstk0, _⟩
  · have htop : (vs h).regs .sp = cfg.layout.stackTop t := by
      rw [hsp, hinit 1]
      rfl
    refine ⟨(vs h).goOn (.firstRun h e t) σ.mem, .first rfl, fun ht => absurd rfl ht, ?_⟩
    rw [afterRet_dummy (σ.harts h) (by rw [hx.regs, hra, hinit 0]; rfl)]
    refine hI.enter_task hh hk hsaved hg.firstRun ?_ rfl rfl rfl rfl rfl ?_ (fun _ => ?_)
      fun _ => Does.safe (v := (vs h).goOn (.firstRun h e t) σ.mem) does_dummy_task
    · rw [hk]
      exact ⟨rfl, rfl, rfl, rfl, rfl, rfl, rfl, rfl⟩
    · have h0 := stackOf_stackTop cfg.layout t (Nat.zero_le 256)
      rw [show BitVec.ofNat 64 0 = 0#64 from rfl, BitVec.sub_zero] at h0
      rw [htop]
      exact h0
    · rw [htop]
      exact roomy_stackTop cfg.layout t
  · refine ⟨(vs h).goOn (.resumed .sched h e t v0.k.calls) σ.mem, .sched _ rfl, fun _ => ?_, ?_⟩
    · rw [hx.regs, hra]
      exact hc.ra
    rw [hc.afterRet (σ.harts h) (by rw [hx.regs]; exact hload)]
    have hres := hg.resumed_sched v0.k.calls
    refine hI.enter_task hh hk hsaved
      hres ?_ rfl rfl rfl rfl rfl ?_ (fun ht => by cases ht) fun hwok => ?_
    · rw [hk]
      exact ⟨rfl, rfl, rfl, rfl, rfl, rfl, rfl, rfl⟩
    · rw [hsp, hc.stack, hstk0]
      rfl
    · refine hc.safe _ ⟨t, h, e, hrun0, rfl, fun hs => (by cases hs), fun _ a ha => ?_⟩ hwok
      refine hc.same rfl a ?_
      rw [ha, hstk0]
      rfl

end

end GQuuuuuunix.Proof
