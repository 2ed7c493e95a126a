import GQuuuuuunix.Kernel.Coroutines
import GQuuuuuunix.Proof.Reservations

/-! # The program on every stack

A program keeps its stack wherever it runs. What is left of it is the code of the hart that runs it,
or what its saved context leads to. A step goes on with the program of one stack, as that program
says or through the handler of a trap, and leaves every other program as it was. -/

namespace GQuuuuuunix.Proof
open Lib Kernel
set_option autoImplicit false

variable {cfg : Config} {σ σ' : State} {vs vs' : ℕ → View} {h : ℕ} {t : Slot} {s : StackId}
  {ρ : CtxWord → U64} {c c' : Code} {e : Event} {fail : Bool}

/-- `c` is left of the program on the stack `s`. -/
inductive Program (cfg : Config) (σ : State) (vs : ℕ → View) : StackId → Code → Prop where
  | runs {h : ℕ} : h < cfg.harts → (vs h).k.sw = none →
      Program cfg σ vs (vs h).k.stk (σ.harts h).code
  | leaves {h : ℕ} {t : Slot} {ρ : CtxWord → U64} {c : Code} : h < cfg.harts →
      (vs h).k.sw = some (t, ρ) → Leads cfg.layout σ.parked ρ c → Program cfg σ vs (vs h).k.stk c
  | waits {t : Slot} {c : Code} : (vs 0).k.stage = .opened → (t : ℕ) < cfg.pids.length →
      (∀ h < cfg.harts, (vs h).k.stk ≠ .task t) →
      Leads cfg.layout σ.parked (fun i => σ.mem (.context (.gTasks t) i)) c →
      Program cfg σ vs (.task t) c
  | scheduler {h : ℕ} {t : Slot} {c : Code} : h < cfg.harts → (vs h).k.stk = .task t →
      Leads cfg.layout σ.parked (fun i => σ.mem (.cpu_context h i)) c →
      Program cfg σ vs (.hart h) c
  | fresh {t : Slot} : (vs 0).k.stage ≠ .opened → Program cfg σ vs (.task t) dummy_task

/-- Hart `h` is in the program on the stack `s`, and not in `switch_to`. -/
def On (vs : ℕ → View) (h : ℕ) (s : StackId) : Prop := (vs h).k.stk = s ∧ (vs h).k.sw = none

/-- What a step of hart `h` makes of the program it runs. -/
inductive Advance (σ : State) (h : ℕ) (fail : Bool) : Code → Code → Prop where
  | trap {c : Code} : (σ.harts h).interrupted = true →
      Advance σ h fail c ((kernelvec (σ.harts h).snapshot).bind fun _ => c)
  | op {o : Op} {f : o.Ret → Code} {r : o.Ret} : (σ.harts h).interrupted = false →
      Op.simple o = true → o.ofSwitch = false → Answer σ h fail o r →
      Advance σ h fail (.op o f) (f r)
  | loop {l : Loop} {f : l.Ret → Code} : (σ.harts h).interrupted = false →
      Advance σ h fail (.op (.loop l) f) (l.round.bind f)
  | switch {s : SwitchSite} {old new : CtxPtr} {f : Unit → Code} :
      (σ.harts h).interrupted = false → Advance σ h fail (.op (.call_switch_to s old new) f) (f ())

/-- Where the program `c'` on the stack `s` comes from: the step went on with it, or it was
there. -/
inductive Came (cfg : Config) (σ : State) (vs : ℕ → View) (e : Event) (s : StackId) (c' : Code) :
    Prop where
  | advanced {h : ℕ} {fail : Bool} : e = .hart h fail → h < cfg.harts → On vs h s →
      Advance σ h fail (σ.harts h).code c' → Came cfg σ vs e s c'
  | still : (∀ h fail, e = .hart h fail → ¬ On vs h s) → Program cfg σ vs s c' →
      Came cfg σ vs e s c'

/-! ## Contexts -/

/-- A frame left on another stack is not what the context leads to. -/
theorem Leads.unpark {L : Layout} {parked : U64 → Option Parked} {a : U64} {p : Parked}
    (hl : Leads L (fun sp => if sp = a then some p else parked sp) ρ c)
    (hρ : ρ 0 = L.dummy_task ∨ ρ 1 ≠ a) : Leads L parked ρ c := by
  unfold Leads at hl ⊢
  split at hl
  · next h0 => rwa [if_pos h0]
  · next h0 =>
    rw [if_neg h0]
    obtain ⟨fs, hl⟩ := hl
    exact ⟨fs, (if_neg (hρ.resolve_left h0)).symm.trans hl⟩

/-- The frame just left is what its context leads to. -/
theorem Leads.parked {L : Layout} {parked : U64 → Option Parked} {r : Regs} {F : List Fn}
    (hl : Leads L parked (ctxOf r) c) (hp : parked (r .sp) = some ⟨ctxOf r, F, c'⟩)
    (hra : r .ra ≠ L.dummy_task) : c = c' := by
  unfold Leads at hl
  rw [ctxOf_slot r (x := (.ra, 0)) (by decide), ctxOf_slot r (x := (.sp, 1)) (by decide),
    if_neg hra, hp] at hl
  obtain ⟨_, hl⟩ := hl
  cases hl
  rfl

theorem Continues.on_stack {site : SwitchSite} {v : View} (hc : Continues cfg σ site ρ v c)
    (hs : v.k.stk = s) : cfg.layout.stackOf (ρ 1) = some s := hs ▸ hc.stack

/-- A waiting context is new, or on the stack of its own program. -/
theorem Inv.waiting_stack (hI : Inv cfg σ vs) (hop : (vs 0).k.stage = .opened)
    (hlt : (t : ℕ) < cfg.pids.length) (hno : ∀ h < cfg.harts, (vs h).k.stk ≠ .task t) :
    σ.mem (.context (.gTasks t) 0) = cfg.layout.dummy_task ∨
      cfg.layout.stackOf (σ.mem (.context (.gTasks t) 1)) = some (.task t) :=
  ((hI.contexts hop).task t hlt hno).imp (fun hinit => hinit 0) fun hr => by
    obtain ⟨_, _, _, hc, _, hs, _⟩ := hr
    exact hc.on_stack hs

theorem Inv.scheduler_stack (hI : Inv cfg σ vs) (hop : (vs 0).k.stage = .opened)
    (hh : h < cfg.harts) (ht : (vs h).k.stk = .task t) :
    cfg.layout.stackOf (σ.mem (.cpu_context h 1)) = some (.hart h) := by
  obtain ⟨_, _, hc, _, hs, _⟩ := (hI.contexts hop).hart h hh t ht
  exact hc.on_stack hs

/-- The registers a program left for `switch_to` are on its stack. -/
theorem Inv.leaving_stack (hI : Inv cfg σ vs) (hop : (vs 0).k.stage = .opened)
    (hh : h < cfg.harts) (hsw : (vs h).k.sw = some (t, ρ)) :
    cfg.layout.stackOf (ρ 1) = some (vs h).k.stk := by
  have hrun := (hI.ok h hh).sw_run t ρ hsw
  have hleave := (hI.contexts hop).leaving h hh
  cases hk : (vs h).k.stk with
  | hart g =>
    have hg : g = h := ((hI.ok h hh).stk_hart g hk).trans (hI.hart h hh).hart
    obtain ⟨_, _, hc, _, hs, _⟩ := hleave .scheduler t ρ hsw (hk.trans (by rw [hg]; rfl))
    rw [hg]
    exact hc.on_stack hs
  | task t' =>
    have hrun' := ((hI.ok h hh).stk_task t' hk).1
    obtain rfl : t = t' := Option.some.inj (hrun.symm.trans hrun')
    obtain ⟨_, _, hc, _, hs, _⟩ := hleave .sched t ρ hsw hk
    exact hc.on_stack hs

/-- What is in `gCpus[h].context` while the hart runs a task stays. -/
theorem Inv.cpu_context_frame {o : Op} {r : o.Ret} {h' : ℕ} (hI : Inv cfg σ vs)
    (hh : h < cfg.harts) (hp : Pre cfg o (vs h)) (hx : Performed σ h fail o r c σ')
    (ht : (vs h').k.stk = .task t) (i : CtxWord) :
    σ'.mem (.cpu_context h' i) = σ.mem (.cpu_context h' i) := by
  refine hI.mem_of_ne hh hx fun y hw => ?_
  obtain ⟨heq, hs⟩ := writes_cpu_context hp hw
  rw [(hI.hart h hh).hart] at heq
  rw [heq] at ht hs
  rw [hs] at ht
  cases ht

/-! ## Harts in switch_to -/

/-- A hart that is not in `switch_to` performs none of its instructions. -/
theorem Pre.not_ofSwitch {o : Op} {v : View} (hp : Pre cfg o v) (hsw : v.k.sw = none) :
    o.ofSwitch = false := by
  cases o with
  | sd_ctx p r i =>
    obtain ⟨_, _, _, _, hk, _⟩ := hp
    rw [hk] at hsw
    cases hsw
  | ld_ctx p r i =>
    obtain ⟨_, _, _, _, _, hk, _⟩ := hp
    rw [hk] at hsw
    cases hsw
  | ret old new =>
    obtain ⟨_, _, _, _, hk, _⟩ := hp
    rw [hk] at hsw
    cases hsw
  | _ => rfl

theorem ofSwitch_switch_to (old new : CtxPtr) :
    Text (fun o => o.ofSwitch = true) (switch_to old new) := by
  have hone : ∀ {o : Op}, o.ofSwitch = true → Text (fun o => o.ofSwitch = true) (one o) :=
    fun ho => text_one ho
  exact (text_each (fun _ => hone rfl) _).bind fun _ =>
    (text_each (fun _ => hone rfl) _).bind fun _ => hone rfl

/-- A hart in `switch_to` has nothing but its instructions before it. -/
def InAsm (cfg : Config) (σ : State) (vs : ℕ → View) : Prop :=
  ∀ h < cfg.harts, (vs h).k.sw ≠ none → Text (fun o => o.ofSwitch = true) (σ.harts h).code

/-- A hart about to perform anything else is not in `switch_to`. -/
theorem InAsm.sw_none (hA : InAsm cfg σ vs) (hh : h < cfg.harts) {o : Op} {f : o.Ret → Code}
    (hcode : (σ.harts h).code = .op o f) (ho : o.ofSwitch = false) : (vs h).k.sw = none := by
  by_contra hsw
  have hasm := hA h hh hsw
  rw [hcode] at hasm
  have ho' : o.ofSwitch = true := hasm.1
  rw [ho] at ho'
  cases ho'

theorem InAsm.loop (hA : InAsm cfg σ vs) (hh : h < cfg.harts) {l : Loop} {f : l.Ret → Code}
    (hcode : (σ.harts h).code = .op (.loop l) f) : (vs h).k.sw = none := hA.sw_none hh hcode rfl

theorem InAsm.update (hA : InAsm cfg σ vs) {x : Hart} {w : View}
    (hx : σ'.harts = Function.update σ.harts h x)
    (hw : w.k.sw ≠ none → Text (fun o => o.ofSwitch = true) x.code) :
    InAsm cfg σ' (Function.update vs h w) := by
  intro h' hh' hs
  rw [hx]
  by_cases hne : h' = h
  · rw [hne, Function.update_self] at hs ⊢
    exact hw hs
  · rw [Function.update_of_ne hne] at hs ⊢
    exact hA h' hh' hs

theorem InAsm.move (hA : InAsm cfg σ vs) (hI : Inv cfg σ vs) (hm : Move cfg σ vs e σ' vs') :
    InAsm cfg σ' vs' := by
  cases hm with
  | trap hh hi hsie => exact hA.update rfl fun hs => absurd ((hI.ok _ hh).sie_ok hsie).sw hs
  | op hh hi hcode hsimple hp hx hg =>
    refine hA.update hx.harts fun hs => ?_
    have hasm := hA _ hh fun hn => hs (by rw [hg.k, Ghost.after_sw, hn])
    rw [hcode] at hasm
    exact hasm.2 _
  | @loop h _ _ _ hh hi hcode =>
    rw [← Function.update_eq_self h vs]
    exact hA.update rfl fun hs => absurd (hA.loop hh hcode) hs
  | call hh hi hcode hk => exact hA.update rfl fun _ => ofSwitch_switch_to _ _
  | ret hh hi hcode hk hsaved hw => exact hA.update rfl fun hs => absurd hw.sw hs
  | compute hh => exact hA.update rfl (hA _ hh)
  | @timer h hh =>
    rw [← Function.update_eq_self h vs]
    exact hA.update rfl (hA _ hh)

/-! ## One step -/

/-- What a step of hart `h` leaves that keeps stacks, contexts and frames, and the code of the other
harts. -/
theorem Program.of_same (hI : Inv cfg σ vs) (hh : h < cfg.harts)
    (hstk : ∀ h', (vs' h').k.stk = (vs h').k.stk) (hsw : ∀ h', (vs' h').k.sw = (vs h').k.sw)
    (hother : ∀ h', h' ≠ h → (σ'.harts h').code = (σ.harts h').code)
    (hparked : σ'.parked = σ.parked)
    (hwaits : ∀ t, (∀ h < cfg.harts, (vs h).k.stk ≠ .task t) →
      (vs' 0).k.stage = .opened → (t : ℕ) < cfg.pids.length →
      Leads cfg.layout σ.parked (fun i => σ'.mem (.context (.gTasks t) i)) c' →
      Program cfg σ vs (.task t) c')
    (hcpu : ∀ h' t, (vs h').k.stk = .task t → ∀ i,
      σ'.mem (.cpu_context h' i) = σ.mem (.cpu_context h' i))
    (hfresh : (vs' 0).k.stage ≠ .opened → (vs 0).k.stage ≠ .opened)
    (hp : Program cfg σ' vs' s c') :
    (On vs h s ∧ c' = (σ'.harts h).code) ∨ (¬ On vs h s ∧ Program cfg σ vs s c') := by
  cases hp with
  | @runs h' hh' hs =>
    rw [hsw] at hs
    rw [hstk]
    by_cases hne : h' = h
    · subst hne
      exact Or.inl ⟨⟨rfl, hs⟩, rfl⟩
    · refine Or.inr ⟨fun hon => hne (hI.stk_inj hh' hh hon.1.symm), ?_⟩
      rw [hother h' hne]
      exact .runs hh' hs
  | @leaves h' t ρ c' hh' hs hl =>
    rw [hsw] at hs
    rw [hstk]
    refine Or.inr ⟨fun hon => ?_, .leaves hh' hs (hparked ▸ hl)⟩
    obtain rfl := hI.stk_inj hh hh' hon.1
    rw [hon.2] at hs
    cases hs
  | @waits t c' ho hlt hno hl =>
    have hno' : ∀ h < cfg.harts, (vs h).k.stk ≠ .task t := fun h hh => hstk h ▸ hno h hh
    exact Or.inr ⟨fun hon => hno' h hh hon.1, hwaits t hno' ho hlt (hparked ▸ hl)⟩
  | @scheduler h' t c' hh' ht hl =>
    rw [hstk] at ht
    rw [hparked, funext (hcpu h' t ht)] at hl
    refine Or.inr ⟨fun hon => ?_, .scheduler hh' ht hl⟩
    obtain rfl : h' = h := ((hI.ok h hh).stk_hart h' hon.1).trans (hI.hart h hh).hart
    have hstk := ht.symm.trans hon.1
    cases hstk
  | @fresh t ho =>
    refine Or.inr ⟨fun hon => hfresh ho (hI.opened h hh ?_), .fresh (hfresh ho)⟩
    exact (hI.ok h hh).run_opened t ((hI.ok h hh).stk_task t hon.1).1

/-- A step that only changes the hart. -/
theorem Program.of_hart (hI : Inv cfg σ vs) (hh : h < cfg.harts) {x : Hart}
    (hsame : ∀ h', (vs h').k.Same (vs' h').k) (hp : Program cfg (σ.setHart h x) vs' s c') :
    (On vs h s ∧ c' = x.code) ∨ (¬ On vs h s ∧ Program cfg σ vs s c') := by
  have hother : ∀ h', h' ≠ h → ((σ.setHart h x).harts h').code = (σ.harts h').code :=
    fun h' hne => update_code hne rfl
  have hx : (σ.setHart h x).harts h = x := Function.update_self ..
  rw [← hx]
  refine hp.of_same hI hh (fun h' => (hsame h').stk) (fun h' => (hsame h').sw) hother rfl
    (fun t hno ho hlt hl => ?_) (fun _ _ _ _ => rfl) fun ho => (hsame 0).stage ▸ ho
  exact .waits ((hsame 0).stage ▸ ho) hlt hno hl

/-- A step that leaves the code as well. -/
theorem Program.of_code (hI : Inv cfg σ vs) (hh : h < cfg.harts) {x : Hart}
    (hsame : ∀ h', (vs h').k.Same (vs' h').k) (hp : Program cfg (σ.setHart h x) vs' s c')
    (hx : x.code = (σ.harts h).code) : Program cfg σ vs s c' := by
  rcases hp.of_hart hI hh hsame with ⟨⟨rfl, hs⟩, rfl⟩ | ⟨-, hp⟩
  · rw [hx]
    exact .runs hh hs
  · exact hp

/-- A step of hart `h`. -/
theorem Came.of_hart (hh : h < cfg.harts)
    (ha : (vs h).k.sw = none → Advance σ h fail (σ.harts h).code c)
    (hp : (On vs h s ∧ c' = c) ∨ (¬ On vs h s ∧ Program cfg σ vs s c')) :
    Came cfg σ vs (.hart h fail) s c' := by
  rcases hp with ⟨hon, rfl⟩ | ⟨hno, hp⟩
  · exact .advanced rfl hh hon (ha hon.2)
  · exact .still (fun g _ heq hon => by cases heq; exact hno hon) hp

theorem Program.of_op (hI : Inv cfg σ vs) (hh : h < cfg.harts) {o : Op} {r : o.Ret}
    {f : o.Ret → Code} {w : View} (hi : (σ.harts h).interrupted = false)
    (hcode : (σ.harts h).code = .op o f) (hs : Op.simple o = true) (hpre : Pre cfg o (vs h))
    (hx : Performed σ h fail o r (f r) σ') (hg : Goes cfg σ' o r (vs h) w)
    (hp : Program cfg σ' (Function.update vs h w) s c') :
    Came cfg σ vs (.hart h fail) s c' := by
  refine Came.of_hart hh (fun hsw => ?_) (hp.of_same hI hh
    (update_field Ghost.stk (by rw [hg.k, Ghost.after_stk]))
    (update_field Ghost.sw (by rw [hg.k, Ghost.after_sw]))
    (fun h' hne => update_code hne hx.harts) hx.parked (fun t hno ho hlt hl => ?_)
    (fun h' t ht i => hI.cpu_context_frame hh hpre hx ht i)
    fun ho ho' => ho (Inv.opened_step hg ho'))
  · rw [hcode, hx.hart_eq]
    exact .op hi hs (Pre.not_ofSwitch hpre hsw) hx.answer
  · by_cases hop : (vs 0).k.stage = .opened
    · rw [funext (hI.context_frame hh hpre hx hop (hno h hh))] at hl
      exact .waits hop hlt hno hl
    -- hart 0 opens the barrier: every context is as `init_task` made it
    · obtain ⟨_, hb, hm, x, rfl⟩ := hI.opening hh hpre hx hg hop ho
      have hinit : σ'.mem (.context (.gTasks t) 0) = initCtx cfg.layout t 0 := by
        refine Eq.trans (hI.mem_of_ne hh hx fun y hw => ?_)
          ((hI.table_ready hh hb hm.toTableReady).context t hlt 0)
        cases (writes_sc hw).2
      have hnew : c' = dummy_task := (if_pos hinit).mp hl
      exact hnew ▸ .fresh hop

section
variable {site : SwitchSite} {en : I32} {fs : List Fn}

theorem Program.of_call (hI : Inv cfg σ vs) (hh : h < cfg.harts) {f : Unit → Code}
    (hi : (σ.harts h).interrupted = false)
    (hcode : (σ.harts h).code = .op (.call_switch_to site (oldCtx site h t) (newCtx site h t)) f)
    (hk : (vs h).k = .atSwitch site h en t fs)
    (hp : Program cfg (σ.callSwitch cfg.layout h site (oldCtx site h t) (newCtx site h t) (f ()))
      (Function.update vs h ((vs h).called cfg.layout site t)) s c') :
    Came cfg σ vs (.hart h fail) s c' := by
  have hop : (vs 0).k.stage = .opened := hI.opened h hh (by rw [hk]; rfl)
  have hstk : ∀ h', (Function.update vs h ((vs h).called cfg.layout site t) h').k.stk =
      (vs h').k.stk := by
    refine update_field Ghost.stk ?_
    rw [View.called, hk]
    rfl
  have hsw : (vs h).k.sw = none := by rw [hk]; rfl
  have hsp : cfg.layout.stackOf ((σ.harts h).regs .sp) = some (vs h).k.stk := by
    rw [(hI.hart h hh).regs]
    exact (hI.ok h hh).sp hsw
  have hregs : Function.update (σ.harts h).regs .ra (cfg.layout.switch_ret site) .sp =
      (σ.harts h).regs .sp := Function.update_of_ne (by decide) _ _
  have hother : ∀ {s' ρ}, (vs h).k.stk ≠ s' →
      (ρ 0 = cfg.layout.dummy_task ∨ cfg.layout.stackOf (ρ 1) = some s') →
      Leads cfg.layout (σ.callSwitch cfg.layout h site (oldCtx site h t) (newCtx site h t)
        (f ())).parked ρ c' → Leads cfg.layout σ.parked ρ c' := by
    intro s' ρ hne hρ hl
    refine hl.unpark (hρ.imp_right fun hst ha => hne ?_)
    rw [ha, hregs, hsp] at hst
    exact Option.some.inj hst
  have hne : ∀ {h'}, h' ≠ h → (σ.callSwitch cfg.layout h site (oldCtx site h t) (newCtx site h t)
      (f ())).harts h' = σ.harts h' := fun hne => Function.update_of_ne hne _ _
  have hoff : ∀ {h' s'}, h' < cfg.harts → h' ≠ h → (vs h').k.stk = s' →
      ∀ g fail', Event.hart h fail = .hart g fail' → ¬ On vs g s' := by
    intro h' s' hh' hne hs g _ heq hon
    cases heq
    exact hne (hI.stk_inj hh' hh (hs.trans hon.1.symm))
  cases hp with
  | @runs h' hh' hs =>
    rw [hstk]
    by_cases hhh : h' = h
    · rw [hhh, Function.update_self] at hs
      cases hs
    · rw [Function.update_of_ne hhh] at hs
      rw [hne hhh]
      exact .still (hoff hh' hhh rfl) (.runs hh' hs)
  | @leaves h' t' ρ _ hh' hs hl =>
    rw [hstk]
    by_cases hhh : h' = h
    · rw [hhh, Function.update_self] at hs
      cases hs
      rw [hhh]
      refine .advanced rfl hh ⟨rfl, hsw⟩ ?_
      obtain rfl : c' = f () := hl.parked (F := (σ.harts h).calls) (by
        rw [← (hI.hart h hh).regs]
        exact if_pos rfl) (by
        rw [Function.update_self]
        exact cfg.layout.switch_ret_ne site)
      rw [hcode]
      exact .switch hi
    · rw [Function.update_of_ne hhh] at hs
      have hst : (vs h).k.stk ≠ (vs h').k.stk := fun hs' => hhh (hI.stk_inj hh' hh hs'.symm)
      exact .still (hoff hh' hhh rfl)
        (.leaves hh' hs (hother hst (Or.inr (hI.leaving_stack hop hh' hs)) hl))
  | @waits t' _ ho hlt hno hl =>
    have hno' : ∀ h < cfg.harts, (vs h).k.stk ≠ .task t' := fun h hh => hstk h ▸ hno h hh
    refine .still (fun g fail' heq hon => ?_)
      (.waits hop hlt hno' (hother (hno' h hh) (hI.waiting_stack hop hlt hno') hl))
    cases heq
    exact hno' h hh hon.1
  | @scheduler h' t' _ hh' ht hl =>
    rw [hstk] at ht
    have hcpu : (vs h).k.stk ≠ .hart h' := by
      intro hs
      obtain rfl : h' = h := ((hI.ok h hh).stk_hart h' hs).trans (hI.hart h hh).hart
      rw [hs] at ht
      cases ht
    refine .still (fun g fail' heq hon => ?_)
      (.scheduler hh' ht (hother hcpu (Or.inr (hI.scheduler_stack hop hh' ht)) hl))
    cases heq
    exact hcpu hon.1
  | fresh ho =>
    refine absurd ?_ ho
    rw [update_k]
    split
    · rfl
    · exact hop

theorem Program.of_ret (hI : Inv cfg σ vs) (hh : h < cfg.harts) {f : Unit → Code} {w : View}
    (hi : (σ.harts h).interrupted = false)
    (hcode : (σ.harts h).code = .op (.ret (oldCtx site h t) (newCtx site h t)) f)
    (hk : (vs h).k = .switching site h en t fs ρ)
    (hsaved : ∀ i, σ.mem.ctx (oldCtx site h t) i = ρ i) (hw : Returns cfg site h en t w.k)
    (hI' : Inv cfg (σ.setHart h ((σ.harts h).afterRet cfg.layout σ.parked))
      (Function.update vs h w))
    (hp : Program cfg (σ.setHart h ((σ.harts h).afterRet cfg.layout σ.parked))
      (Function.update vs h w) s c') : Came cfg σ vs (.hart h fail) s c' := by
  have hop : (vs 0).k.stage = .opened := hI.opened h hh (by rw [hk]; rfl)
  have hstk : (vs h).k.stk = switchStack site h t := by
    rw [hk]
    cases site <;> rfl
  have hsw : (vs h).k.sw = some (t, ρ) := by rw [hk]; rfl
  have hrun : (vs h).k.run = some t := by rw [hk]; rfl
  have hoff : ∀ {s'} g fail', Event.hart h fail = .hart g fail' → ¬ On vs g s' := by
    intro s' g _ heq hon
    cases heq
    exact Option.some_ne_none _ (hsw.symm.trans hon.2)
  have hne : ∀ {h'}, h' ≠ h → (σ.setHart h ((σ.harts h).afterRet cfg.layout σ.parked)).harts h' =
      σ.harts h' := fun hne => Function.update_of_ne hne _ _
  refine .still hoff ?_
  have hleads : Leads cfg.layout σ.parked (ctxOf (σ.harts h).regs)
      ((σ.harts h).afterRet cfg.layout σ.parked).code := by
    refine (afterRet_leads cfg.layout σ.parked (σ.harts h)).resolve_left fun hc => ?_
    have hsafe := hI'.safe h hh
    rw [show (σ.setHart h ((σ.harts h).afterRet cfg.layout σ.parked)).harts h =
      (σ.harts h).afterRet cfg.layout σ.parked from Function.update_self .., hc] at hsafe
    exact (safe_pre hsafe (hI'.ok h hh)).1
  cases hp with
  | @runs h' hh' hs =>
    by_cases hhh : h' = h
    swap
    · rw [Function.update_of_ne hhh] at hs ⊢
      rw [hne hhh]
      exact .runs hh' hs
    rw [hhh, Function.update_self, hw.stk,
      show (σ.setHart h _).harts h = _ from Function.update_self ..]
    cases site with
    | sched =>
      have hload := (hI.pre_next hh (next_eq hi hcode))
      obtain ⟨_, _, _, _, _, _, _, _, hload⟩ := hload
      refine .scheduler hh hstk ?_
      rw [show (fun i => σ.mem (.cpu_context h i)) = ctxOf (σ.harts h).regs from funext fun i => ?_]
      · exact hleads
      · rw [(hI.hart h hh).regs, hload i]
        exact hI.owned h hh (.cpu_context h i) (hI.hart h hh).hart.symm
    | scheduler =>
      have hno : ∀ h' < cfg.harts, (vs h').k.stk ≠ .task t := by
        intro g hg hst
        obtain rfl := hI.run_uniq hh hrun g hg (hI.stk_run hg hst)
        rw [hstk] at hst
        cases hst
      refine .waits hop (((hI.table hop).state t).running h hh hrun).2 hno ?_
      rw [show (fun i => σ.mem (.context (.gTasks t) i)) = ctxOf (σ.harts h).regs from
        funext fun i => (hI.loaded hh hi hcode hrun i).symm]
      exact hleads
  | @leaves h' t' ρ' _ hh' hs hl =>
    by_cases hhh : h' = h
    · rw [hhh, Function.update_self, hw.sw] at hs
      cases hs
    · rw [Function.update_of_ne hhh] at hs ⊢
      exact .leaves hh' hs hl
  | @waits t' _ ho hlt hno hl =>
    by_cases hout : site = .sched ∧ t' = t
    · obtain ⟨rfl, rfl⟩ := hout
      rw [show StackId.task t' = (vs h).k.stk from hstk.symm]
      exact .leaves hh hsw (funext hsaved ▸ hl)
    · refine .waits hop hlt (fun h' hh' hs => ?_) hl
      by_cases hhh : h' = h
      · rw [hhh, hstk] at hs
        cases site with
        | sched =>
          cases hs
          exact hout ⟨rfl, rfl⟩
        | scheduler => cases hs
      · refine hno h' hh' ?_
        rw [Function.update_of_ne hhh]
        exact hs
  | @scheduler h' t' _ hh' ht hl =>
    by_cases hhh : h' = h
    · rw [hhh, Function.update_self, hw.stk] at ht
      cases site with
      | sched => cases ht
      | scheduler =>
        rw [hhh] at hl ⊢
        rw [show StackId.hart h = (vs h).k.stk from hstk.symm]
        exact .leaves hh hsw (funext hsaved ▸ hl)
    · rw [Function.update_of_ne hhh] at ht
      exact .scheduler hh' ht hl
  | fresh ho =>
    refine absurd ?_ ho
    rw [update_k]
    split
    · exact hw.stage
    · exact hop

end

/-- Where a program comes from that is left after a step of the machine. -/
theorem Move.came (hm : Move cfg σ vs e σ' vs') (hI : Inv cfg σ vs) (hI' : Inv cfg σ' vs')
    (hp : Program cfg σ' vs' s c') : Came cfg σ vs e s c' := by
  have hm' := hm
  cases hm with
  | trap hh hi hsie =>
    have hstvec : (σ.harts _).stvec = true :=
      (hI.hart _ hh).stvec.trans ((hI.ok _ hh).sie_ok hsie).stvec
    refine Came.of_hart hh (fun _ => ?_) (hp.of_hart hI hh (hm'.still (quiet_trap hi)).same)
    show Advance σ _ _ _ (if (σ.harts _).stvec then _ else crash)
    rw [if_pos hstvec]
    exact .trap hi
  | op hh hi hcode hs hpre hx hg => exact hp.of_op hI hh hi hcode hs hpre hx hg
  | loop hh hi hcode =>
    refine Came.of_hart hh (fun _ => ?_) (hp.of_hart hI hh fun _ => Ghost.Same.refl _)
    rw [hcode]
    exact .loop hi
  | call hh hi hcode hk => exact hp.of_call hI hh hi hcode hk
  | ret hh hi hcode hk hsaved hw => exact hp.of_ret hI hh hi hcode hk hsaved hw hI'
  | compute hh =>
    exact .still (fun _ _ heq => by cases heq)
      (hp.of_code hI hh (hm'.still (Or.inl rfl)).same (by rfl))
  | timer hh =>
    exact .still (fun _ _ heq => by cases heq)
      (hp.of_code hI hh (hm'.still (Or.inl rfl)).same (by rfl))

/-! ## What every step keeps of every program -/

theorem byTask_eq (L : Layout) (t : Slot) : byTask L t = onStack L (.task t) := by
  funext ⟨_, e⟩
  cases e <;> rfl

/-- The step was none of the program on the stack `s`, or an instruction of `switch_to`. -/
def Absent (L : Layout) (s : StackId) (x : State × Event) : Prop :=
  onStack L s x = true → ∃ h o, performed x = some (h, o) ∧ o.ofSwitch = true

/-- `G` holds of every program at its start, and every step keeps it. -/
structure Follows {κ : Type} (cfg : Config) (prog : κ → KProg Unit)
    (G : Trace → StackId → Code → Prop) : Prop where
  main : ∀ h, G [] (.hart h) (kernel_main cfg.layout cfg.pids)
  fresh : ∀ t, G [] (.task t) dummy_task
  absent : ∀ {tr σ e s c}, Absent cfg.layout s (σ, e) → G tr s c → G ((σ, e) :: tr) s c
  advance : ∀ {tr σ h fail s c c'}, onStack cfg.layout s (σ, .hart h fail) = true →
    (σ.harts h).code = c → Advance σ h fail c c' → G tr s c → G ((σ, .hart h fail) :: tr) s c'
  call : ∀ {tr s f} (k : κ), G tr s (.op (.loop .dummy_task) f) →
    G tr s ((prog k).bind fun _ => .op (.loop .dummy_task) f)

section
variable {tr : Trace}

/-- A hart that is not in `switch_to` is on the stack of its program. -/
theorem On.onStack (hI : Inv cfg σ vs) (hh : h < cfg.harts) (hon : On vs h s) (fail : Bool) :
    onStack cfg.layout s (σ, .hart h fail) = true := by
  refine beq_iff_eq.2 ?_
  rw [(hI.hart h hh).regs, (hI.ok h hh).sp hon.2, hon.1]

/-- A hart on the stack `s` is in the program on that stack, or in `switch_to`. -/
theorem InAsm.absent (hA : InAsm cfg σ vs) (hI : Inv cfg σ vs)
    (hs : σ.step cfg.layout cfg.harts e = some σ')
    (hno : ∀ h fail, e = .hart h fail → ¬ On vs h s) : Absent cfg.layout s (σ, e) := by
  intro hby
  cases e with
  | hart h fail =>
    have hsp : cfg.layout.stackOf ((σ.harts h).regs .sp) = some s := beq_iff_eq.1 hby
    simp only [State.step] at hs
    split at hs
    swap
    · cases hs
    next hh =>
    have hsw : (vs h).k.sw ≠ none := fun hsw => by
      rw [(hI.hart h hh).regs, (hI.ok h hh).sp hsw] at hsp
      exact hno h fail rfl ⟨Option.some.inj hsp, hsw⟩
    have hasm := hA h hh hsw
    split at hs
    · next hi =>
      refine absurd ((hI.ok h hh).sie_ok ?_).sw hsw
      rw [← (hI.ok h hh).sie_eq, ← (hI.hart h hh).sstatus]
      exact ((Bool.and_eq_true _ _).mp hi).1
    next hi =>
    split at hs
    · next o k hcode =>
      rw [hcode] at hasm
      exact ⟨h, o, performed_eq (Bool.eq_false_iff.2 hi) hcode, hasm.1⟩
    · cases hs
  | compute h r pc => cases hby
  | timer h => cases hby

theorem Follows.move {κ : Type} {prog : κ → KProg Unit} {G : Trace → StackId → Code → Prop}
    (hG : Follows cfg prog G) (hI : Inv cfg σ vs) (hA : InAsm cfg σ vs)
    (hs : σ.step cfg.layout cfg.harts e = some σ') (hm : Move cfg σ vs e σ' vs')
    (hI' : Inv cfg σ' vs') (hJ : ∀ s c, Program cfg σ vs s c → G tr s c)
    (hp : Program cfg σ' vs' s c) : G ((σ, e) :: tr) s c := by
  cases hm.came hI hI' hp with
  | advanced heq hh hon ha =>
    subst heq
    refine hG.advance (hon.onStack hI hh _) rfl ha (hJ s _ ?_)
    rw [← hon.1]
    exact .runs hh hon.2
  | still hno hp => exact hG.absent (hA.absent hI hs hno) (hJ s c hp)

/-- The invariant of the machine, with what every program keeps. -/
def Followed (cfg : Config) (G : Trace → StackId → Code → Prop) (tr : Trace) (σ : State) : Prop :=
  ∃ vs, Inv cfg σ vs ∧ InAsm cfg σ vs ∧ ∀ s c, Program cfg σ vs s c → G tr s c

theorem program_boot (hb : State.Booting cfg σ) (hp : Program cfg σ (bootViews σ) s c) :
    (∃ h, s = .hart h ∧ c = kernel_main cfg.layout cfg.pids) ∨
      ∃ t, s = .task t ∧ c = dummy_task := by
  cases hp with
  | @runs h hh hs => exact Or.inl ⟨h, rfl, (hb.harts h hh).code⟩
  | leaves hh hs hl => cases hs
  | waits ho hlt hno hl => cases ho
  | scheduler hh ht hl => cases ht
  | fresh ho => exact Or.inr ⟨_, rfl, rfl⟩

variable {κ : Type} {prog : κ → KProg Unit} {G : Trace → StackId → Code → Prop}

/-- A task makes a call. -/
theorem Follows.before (hG : Follows cfg prog G) (hI : Inv cfg σ vs) (hh : h < cfg.harts)
    {f : Unit → Code} (hcode : (σ.harts h).code = .op (.loop .dummy_task) f) (k : κ)
    (hJ : ∀ s c, Program cfg σ vs s c → G tr s c)
    (hp : Program cfg (σ.goto h ((prog k).bind fun _ => .op (.loop .dummy_task) f)) vs s c) :
    G tr s c := by
  rcases hp.of_hart hI hh fun _ => Ghost.Same.refl _ with ⟨hon, rfl⟩ | ⟨-, hp⟩
  · refine hG.call k (hJ s _ ?_)
    rw [← hon.1, ← hcode]
    exact .runs hh hon.2
  · exact hJ s c hp

theorem Followed.step (hG : Follows cfg prog G)
    (hprog : ∀ (k : κ) {g : Ghost} {m : Own} {t : Slot} {b : Bool}, InTask t [] b g →
      Does cfg (prog k) g m fun _ g' _ => ∃ b', InTask t [] b' g')
    {tr : History State (ClientEvent κ)} {ce : ClientEvent κ}
    (hF : Followed cfg G (kernelTrace tr) σ) (hs : (clients cfg prog).step σ ce = some σ') :
    Followed cfg G (kernelTrace ((σ, ce) :: tr)) σ' := by
  obtain ⟨vs, hI, hA, hJ⟩ := hF
  cases ce with
  | kernel e =>
    obtain ⟨vs', hm, hI'⟩ := hI.step hs
    exact ⟨vs', hI', hA.move hI hm, fun s c hp => hG.move hI hA hs hm hI' hJ hp⟩
  | call h k =>
    simp only [clients] at hs
    split at hs
    swap
    · cases hs
    next hh =>
    obtain ⟨hI', f, hcode, rfl⟩ := hI.before_step hh (fun hk => hprog k hk) hs
    refine ⟨vs, hI', ?_, fun s c hp => hG.before hI hh hcode k hJ hp⟩
    rw [← Function.update_eq_self h vs]
    exact hA.update rfl fun hs => absurd (hA.loop hh hcode) hs
  | store h sz a x =>
    simp only [clients] at hs
    split at hs
    swap
    · cases hs
    cases hs
    refine ⟨vs, hI.of_objs rfl rfl rfl, hA, fun s c hp => hJ s c ?_⟩
    cases hp with
    | runs hh hs => exact .runs hh hs
    | leaves hh hs hl => exact .leaves hh hs hl
    | waits ho hlt hno hl => exact .waits ho hlt hno hl
    | scheduler hh ht hl => exact .scheduler hh ht hl
    | fresh ho => exact .fresh ho

/-- What every step keeps holds of every program in every run. -/
theorem Follows.run (hG : Follows cfg prog G)
    (hprog : ∀ (k : κ) {g : Ghost} {m : Own} {t : Slot} {b : Bool}, InTask t [] b g →
      Does cfg (prog k) g m fun _ g' _ => ∃ b', InTask t [] b' g')
    {tr : History State (ClientEvent κ)} (hr : Run (clients cfg prog) tr σ) :
    Followed cfg G (kernelTrace tr) σ := by
  refine Run.invariant (fun tr σ => Followed cfg G (kernelTrace tr) σ) (fun σ hb => ?_)
    (fun tr σ ce σ' _ hF hs => hF.step hG hprog hs) hr
  refine ⟨bootViews σ, Inv.boot hb, fun _ _ hs => absurd rfl hs, fun s c hp => ?_⟩
  rcases program_boot hb hp with ⟨h, rfl, rfl⟩ | ⟨t, rfl, rfl⟩
  · exact hG.main h
  · exact hG.fresh t

/-- The next operation that is not of `switch_to` is that of the program on a stack. -/
theorem Followed.next (hF : Followed cfg G tr σ) (hh : h < cfg.harts) {o : Op}
    (hn : σ.next h = some o) (ho : o.ofSwitch = false) :
    ∃ s f, cfg.layout.stackOf ((σ.harts h).regs .sp) = some s ∧ G tr s (.op o f) := by
  obtain ⟨vs, hI, hA, hJ⟩ := hF
  obtain ⟨_, f, hcode⟩ := next_some hn
  have hsw : (vs h).k.sw = none := hA.sw_none hh hcode ho
  refine ⟨(vs h).k.stk, f, ?_, hJ _ _ (hcode ▸ .runs hh hsw)⟩
  rw [(hI.hart h hh).regs]
  exact (hI.ok h hh).sp hsw

end

end GQuuuuuunix.Proof
