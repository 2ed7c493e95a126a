import GQuuuuuunix.Proof.KernelText
import GQuuuuuunix.Proof.Programs

/-! # The programs under their trap handlers

A program that was interrupted is under the handler, which ends with an `sret` and has none before;
the handler may be interrupted in its turn. -/

namespace GQuuuuuunix.Proof
open Lib Kernel
set_option autoImplicit false

variable {cfg : Config} {L : Layout} {σ σ' : State} {vs : ℕ → View} {h : ℕ} {fail : Bool}
  {s : StackId} {c c' c₀ : Code} {e : Event} {tr : Trace} {o : Op} {d : ℕ}

/-! ## Handlers -/

/-- The code does what kernel functions do, and then ends with an `sret`. -/
def ToSret : Code → Prop
  | .pure _ => False
  | .op o f => (Op.ofKernel o = true ∧ ∀ r, ToSret (f r)) ∨ (∃ s, o = .sret s) ∧ ∀ r, f r = .pure ()

theorem ToSret.bind {α : Type} {f : α → Code} (hf : ∀ a, ToSret (f a)) :
    ∀ {p : KProg α}, Text (fun o => Op.ofKernel o = true) p → ToSret (p.bind f)
  | .pure a, _ => hf a
  | .op _ _, hp => Or.inl ⟨hp.1, fun r => ToSret.bind hf (hp.2 r)⟩

theorem toSret_kernelvec (s : Snapshot) : ToSret (kernelvec s) := by
  have hone : ∀ {o : Op}, Op.ofKernel o = true → Text (fun o => Op.ofKernel o = true) (one o) :=
    fun ho => text_one ho
  refine ToSret.bind (fun _ => ?_) (hone rfl)
  refine ToSret.bind (fun _ => ?_) (text_each (fun _ => hone rfl) _)
  refine ToSret.bind (fun saved => ?_) (hone rfl)
  refine ToSret.bind (fun _ => ?_) (text_kernel_trap_handler fun _ ho => ho)
  refine ToSret.bind (fun _ => ?_) (hone rfl)
  refine ToSret.bind (fun _ => ?_) (text_each (fun _ => hone rfl) _)
  refine ToSret.bind (fun _ => ?_) (hone rfl)
  exact Or.inr ⟨⟨s, rfl⟩, fun _ => rfl⟩

/-- `c` is the program `c₀` under `d` handlers. -/
def Under : ℕ → Code → Code → Prop
  | 0, c, c₀ => c = c₀
  | d + 1, c, c₀ => ∃ p c₁, ToSret p ∧ c = p.bind (fun _ => c₁) ∧ Under d c₁ c₀

/-- An operation of a handler. -/
theorem Under.act {f : o.Ret → Code} (hu : Under (d + 1) (.op o f) c₀) (r : o.Ret) :
    (Op.ofKernel o = true ∧ Under (d + 1) (f r) c₀) ∨ (∃ s, o = .sret s) ∧ Under d (f r) c₀ := by
  obtain ⟨p, c₁, hp, heq, hu⟩ := hu
  cases p with
  | pure a => exact hp.elim
  | op o' g =>
    cases heq
    rcases hp with ⟨ho, hg⟩ | ⟨hs, hg⟩
    · exact Or.inl ⟨ho, _, _, hg r, rfl, hu⟩
    · refine Or.inr ⟨hs, ?_⟩
      show Under d ((g r).bind fun _ => c₁) c₀
      rw [hg r]
      exact hu

/-- A round of a loop of a handler. -/
theorem Under.round {l : Loop} {f : l.Ret → Code} (hu : Under (d + 1) (.op (.loop l) f) c₀) :
    Under (d + 1) (l.round.bind f) c₀ := by
  obtain ⟨p, c₁, hp, heq, hu⟩ := hu
  cases p with
  | pure a => exact hp.elim
  | op o' g =>
    cases heq
    rcases hp with ⟨hl, hg⟩ | ⟨⟨_, hs⟩, -⟩
    · refine ⟨l.round.bind g, c₁, ToSret.bind hg (text_round (fun _ ho => ho) hl), ?_, hu⟩
      rw [Prog.bind_assoc]
    · cases hs

/-! ## The history of one stack -/

theorem answer_eq {r : o.Ret} (ho : Op.simple o = true) (ha : Answer σ h fail o r) :
    σ.answer h fail o = some r := by
  cases o <;> first | exact congrArg some (Eq.symm ha) | rfl | cases ho

theorem trapDepth_other (hs : onStack L s (σ, e) = false) :
    trapDepth L s ((σ, e) :: tr) = trapDepth L s tr := by
  rw [trapDepth, hs]
  rfl

theorem ownActions_other (hs : onStack L s (σ, e) = false) :
    ownActions L s ((σ, e) :: tr) = ownActions L s tr := by
  rw [ownActions, hs]
  exact if_neg fun hb => by cases hb.1

theorem ownActions_none (ha : action (σ, e) = none) :
    ownActions L s ((σ, e) :: tr) = ownActions L s tr := by
  rw [ownActions, ha]
  exact ite_self _

theorem ownActions_handler (hd : trapDepth L s tr ≠ 0) :
    ownActions L s ((σ, e) :: tr) = ownActions L s tr := by
  rw [ownActions]
  exact if_neg fun hb => hd hb.2

theorem trapDepth_on (hs : onStack L s (σ, e) = true) :
    trapDepth L s ((σ, e) :: tr) = handlerTurn (trapDepth L s tr) (σ, e) := if_pos hs

theorem ownActions_on (hs : onStack L s (σ, e) = true) (hd : trapDepth L s tr = 0) :
    ownActions L s ((σ, e) :: tr) = (action (σ, e)).toList ++ ownActions L s tr :=
  if_pos ⟨hs, hd⟩

theorem handlerTurn_next (hn : σ.next h = some o) (ho : ∀ s, o ≠ .sret s) :
    handlerTurn d (σ, .hart h fail) = d := by
  unfold handlerTurn
  dsimp only
  rw [hn]
  split
  · next hi =>
    rw [State.next, if_pos hi] at hn
    cases hn
  · split
    · next s hs => exact absurd (Option.some.inj hs) (ho s)
    · rfl

theorem handlerTurn_sret {p : Snapshot} (hn : σ.next h = some (.sret p)) :
    handlerTurn d (σ, .hart h fail) = d - 1 := by
  unfold handlerTurn
  dsimp only
  rw [hn]
  split
  · next hi =>
    rw [State.next, if_pos hi] at hn
    cases hn
  · rfl

theorem handlerTurn_zero (hn : σ.next h = some o) : handlerTurn 0 (σ, .hart h fail) = 0 := by
  by_cases ho : ∃ p, o = .sret p
  · obtain ⟨p, rfl⟩ := ho
    exact handlerTurn_sret hn
  · exact handlerTurn_next hn fun p hp => ho ⟨p, hp⟩

theorem handlerTurn_trap (hi : (σ.harts h).interrupted = true) :
    handlerTurn d (σ, .hart h fail) = d + 1 := if_pos hi

theorem action_trap (hi : (σ.harts h).interrupted = true) : action (σ, .hart h fail) = none := by
  show (σ.next h).bind _ = none
  rw [State.next, if_pos hi]
  rfl

theorem action_next (hn : σ.next h = some o) (ho : o.ofSwitch = false) :
    action (σ, .hart h fail) = (σ.answer h fail o).map (Sigma.mk o) := by
  show (σ.next h).bind _ = _
  rw [hn]
  show (if o.ofSwitch then none else _) = _
  rw [ho]
  rfl

/-- An instruction of `switch_to` is neither an action nor the way into or out of a handler. -/
theorem silent_absent (ha : Absent L s (σ, e)) :
    trapDepth L s ((σ, e) :: tr) = trapDepth L s tr ∧
      ownActions L s ((σ, e) :: tr) = ownActions L s tr := by
  cases hs : onStack L s (σ, e) with
  | false => exact ⟨trapDepth_other hs, ownActions_other hs⟩
  | true =>
    obtain ⟨g, o, hp, ho⟩ := ha hs
    cases e with
    | hart h fail =>
      obtain ⟨o', hn, heq⟩ := Option.map_eq_some_iff.1 hp
      cases heq
      refine ⟨(trapDepth_on hs).trans (handlerTurn_next hn fun p hp => ?_), ownActions_none ?_⟩
      · rw [hp] at ho
        cases ho
      · show (σ.next g).bind _ = none
        rw [hn]
        exact if_pos ho
    | compute h r pc => cases hs
    | timer h => cases hs

/-! ## The programs there are -/

theorem Resumable.leads {site : SwitchSite} {t : Slot} {ρ : CtxWord → U64}
    (hr : Resumable cfg σ site h t ρ) : ∃ c, Leads cfg.layout σ.parked ρ c := by
  obtain ⟨_, c, hc, -⟩ := hr
  refine ⟨c, ?_⟩
  unfold Leads
  rw [if_neg hc.ra]
  exact ⟨_, hc.parked⟩

/-- The registers with which a hart is in `switch_to` lead back to the program it leaves. -/
theorem Inv.leaving_leads (hI : Inv cfg σ vs) (hh : h < cfg.harts) {t : Slot} {ρ : CtxWord → U64}
    (hsw : (vs h).k.sw = some (t, ρ)) : ∃ c, Leads cfg.layout σ.parked ρ c := by
  have hok := hI.ok h hh
  have hrun := hok.sw_run t ρ hsw
  have hctx := hI.contexts (hI.opened h hh (hok.run_opened t hrun))
  cases hstk : (vs h).k.stk with
  | hart g =>
    have hg : g = h := (hok.stk_hart g hstk).trans (hI.hart h hh).hart
    refine (hctx.leaving h hh .scheduler t ρ hsw ?_).leads
    rw [hstk, hg]
    rfl
  | task t' =>
    obtain rfl : t = t' := Option.some.inj (hrun.symm.trans (hok.stk_task t' hstk).1)
    exact (hctx.leaving h hh .sched t ρ hsw hstk).leads

/-- A hart leads to what is left of the program on its stack. -/
theorem Inv.program_on (hI : Inv cfg σ vs) (hh : h < cfg.harts) :
    ∃ c, Program cfg σ vs (vs h).k.stk c := by
  cases hsw : (vs h).k.sw with
  | none => exact ⟨_, .runs hh hsw⟩
  | some x =>
    obtain ⟨c, hl⟩ := hI.leaving_leads hh hsw
    exact ⟨c, .leaves hh hsw hl⟩

theorem Inv.program (hI : Inv cfg σ vs) (hs : s.Live cfg) : ∃ c, Program cfg σ vs s c := by
  by_cases hon : ∃ h < cfg.harts, (vs h).k.stk = s
  · obtain ⟨h, hh, rfl⟩ := hon
    exact hI.program_on hh
  have hno : ∀ h < cfg.harts, (vs h).k.stk ≠ s := fun h hh heq => hon ⟨h, hh, heq⟩
  cases s with
  | hart h =>
    have hh : h < cfg.harts := hs
    have hok := hI.ok h hh
    cases hstk : (vs h).k.stk with
    | hart g =>
      obtain rfl : g = h := (hok.stk_hart g hstk).trans (hI.hart h hh).hart
      exact absurd hstk (hno g hh)
    | task t =>
      have hop := hI.opened h hh (hok.run_opened t (hok.stk_task t hstk).1)
      obtain ⟨c, hl⟩ := ((hI.contexts hop).hart h hh t hstk).leads
      exact ⟨c, .scheduler hh hstk hl⟩
  | task t =>
    by_cases hop : (vs 0).k.stage = .opened
    · rcases (hI.contexts hop).task t hs hno with hinit | ⟨h, hr⟩
      · exact ⟨dummy_task, .waits hop hs hno ((if_pos (hinit 0)).mpr rfl)⟩
      · obtain ⟨c, hl⟩ := hr.leads
        exact ⟨c, .waits hop hs hno hl⟩
    · exact ⟨_, .fresh hop⟩

/-! ## What is left of every program -/

section
variable {κ : Type} {prog : κ → KProg Unit}

/-- What is left of the program on a stack is what it has come to by itself, under its handlers. -/
def CoRest (cfg : Config) (prog : κ → KProg Unit) (tr : Trace) (s : StackId) (c : Code) : Prop :=
  ∃ c₀, Coroutine prog (s.program cfg) (ownActions cfg.layout s tr) c₀ ∧
    Under (trapDepth cfg.layout s tr) c c₀

/-- A step of a handler. -/
theorem Under.advance (ha : Advance σ h fail c c') (hcode : (σ.harts h).code = c)
    (hu : Under (d + 1) c c₀) : Under (handlerTurn (d + 1) (σ, .hart h fail)) c' c₀ := by
  cases ha with
  | trap hi =>
    rw [handlerTurn_trap hi]
    exact ⟨_, _, toSret_kernelvec _, rfl, hu⟩
  | @op o f r hi ho hsw ha =>
    rcases hu.act r with ⟨hk, hu⟩ | ⟨⟨p, rfl⟩, hu⟩
    · rw [handlerTurn_next (next_eq hi hcode) fun p hp => by rw [hp] at hk; cases hk]
      exact hu
    · rw [handlerTurn_sret (next_eq hi hcode)]
      exact hu
  | loop hi =>
    rw [handlerTurn_next (next_eq hi hcode) fun p hp => by cases hp]
    exact hu.round
  | switch hi =>
    rw [handlerTurn_next (next_eq hi hcode) fun p hp => by cases hp]
    rcases hu.act () with ⟨-, hu⟩ | ⟨⟨p, hp⟩, -⟩
    · exact hu
    · cases hp

theorem CoRest.advance (hs : onStack cfg.layout s (σ, .hart h fail) = true)
    (hcode : (σ.harts h).code = c) (ha : Advance σ h fail c c') (hc : CoRest cfg prog tr s c) :
    CoRest cfg prog ((σ, .hart h fail) :: tr) s c' := by
  obtain ⟨c₀, hc, hu⟩ := hc
  unfold CoRest
  rw [trapDepth_on hs]
  cases hd : trapDepth cfg.layout s tr with
  | succ d =>
    rw [hd] at hu
    refine ⟨c₀, ?_, hu.advance ha hcode⟩
    rwa [ownActions_handler fun h0 => by rw [h0] at hd; cases hd]
  | zero =>
    rw [hd] at hu
    obtain rfl : c = c₀ := hu
    rw [ownActions_on hs hd]
    cases ha with
    | trap hi =>
      rw [handlerTurn_trap hi, action_trap hi]
      exact ⟨_, hc, _, _, toSret_kernelvec _, rfl, rfl⟩
    | @op o f r hi ho hsw ha =>
      rw [handlerTurn_zero (next_eq hi hcode), action_next (next_eq hi hcode) hsw, answer_eq ho ha]
      refine ⟨_, .act r (fun x hx => ?_) hc, rfl⟩
      rw [hx] at ho
      cases ho
    | loop hi =>
      rw [handlerTurn_zero (next_eq hi hcode), action_next (next_eq hi hcode) rfl]
      exact ⟨_, .round hc, rfl⟩
    | @switch site old new f hi =>
      have hans : σ.answer h fail (.call_switch_to site old new) = some () := rfl
      rw [handlerTurn_zero (next_eq hi hcode), action_next (next_eq hi hcode) rfl, hans]
      refine ⟨f (), ?_, rfl⟩
      exact .act (o := .call_switch_to site old new) () (fun x hx => by cases hx) hc

theorem coRest_follows : Follows cfg prog (CoRest cfg prog) where
  main h := ⟨_, .start, rfl⟩
  fresh t := ⟨_, .start, rfl⟩
  absent ha hc := by
    obtain ⟨hd, ho⟩ := silent_absent ha
    unfold CoRest
    rw [hd, ho]
    exact hc
  advance hs hcode ha hc := hc.advance hs hcode ha
  call {tr s f} k hc := by
    obtain ⟨c₀, hc, hu⟩ := hc
    cases hd : trapDepth cfg.layout s tr with
    | zero =>
      rw [hd] at hu
      cases hu
      refine ⟨_, .call k hc, ?_⟩
      rw [hd]
      rfl
    | succ d =>
      rw [hd] at hu
      rcases hu.act () with ⟨hl, -⟩ | ⟨⟨_, hp⟩, -⟩
      · cases hl
      · cases hp

end

end GQuuuuuunix.Proof
