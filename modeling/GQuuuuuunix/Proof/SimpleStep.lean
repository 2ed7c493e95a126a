import GQuuuuuunix.Proof.TableSteps

/-! # The invariant after a simple operation -/

namespace GQuuuuuunix.Proof
open Lib Kernel
set_option autoImplicit false

variable {cfg : Config} {σ σ' : State} {vs : ℕ → View} {v w : View} {h : ℕ} {o : Op} {r : o.Ret}
  {fail : Bool} {c : Code}

/-! ## Who writes what -/

theorem writes_context (hp : Pre cfg o v) {t : Slot} {i : CtxWord} {x : U64}
    (hw : Op.writes v.regs o r = some ⟨.context (.gTasks t) i, x⟩) :
    v.k.stage = .boot ∨ v.k.stk = .task t := by
  cases o with
  | store l y =>
    cases hw
    exact Or.inl hp
  | sc cl y => cases (writes_sc hw).2
  | sd_ctx p y j =>
    obtain ⟨s, e, t', ρ, hk, rfl⟩ := hp
    cases s with
    | sched =>
      cases hw
      rw [hk]
      exact Or.inr rfl
    | scheduler => cases hw
  | _ => cases hw

theorem writes_cpu_context (hp : Pre cfg o v) {c : ℕ} {i : CtxWord} {x : U64}
    (hw : Op.writes v.regs o r = some ⟨.cpu_context c i, x⟩) :
    c = v.k.hart ∧ v.k.stk = .hart c := by
  cases o with
  | store l y =>
    cases hw
    exact hp.elim
  | sc cl y => cases (writes_sc hw).2
  | sd_ctx p y j =>
    obtain ⟨s, e, t', ρ, hk, rfl⟩ := hp
    cases s with
    | sched => cases hw
    | scheduler =>
      cases hw
      refine ⟨rfl, ?_⟩
      rw [hk]
      rfl
  | _ => cases hw

theorem writes_stack (hp : Pre cfg o v) {a x : U64}
    (hw : Op.writes v.regs o r = some ⟨.stack a, x⟩) :
    cfg.layout.stackOf a = some v.k.stk ∧ v.k.sw = none := by
  cases o with
  | store l y =>
    cases hw
    exact hp.elim
  | sc cl y => cases (writes_sc hw).2
  | sd y off =>
    cases hw
    exact ⟨hp.2.2, hp.2.1⟩
  | sd_ctx p y j => cases p <;> cases hw
  | _ => cases hw

section
variable (hI : Inv cfg σ vs) (hh : h < cfg.harts) (hp : Pre cfg o (vs h))
  (hx : Performed σ h fail o r c σ')
include hI hh hp hx

omit hp in
theorem Inv.mem_of_ne {l : Loc} (hn : ∀ y, Op.writes (vs h).regs o r ≠ some ⟨l, y⟩) :
    σ'.mem l = σ.mem l := by
  rw [hx.mem, (hI.hart h hh).regs]
  exact written_of_ne hn

/-- Nothing is written to what another hart owns. -/
theorem Inv.mem_other {h' : ℕ} (hh' : h' < cfg.harts) (hne : h' ≠ h) {l : Loc}
    (ho : (vs h').k.Owns cfg.layout l) : σ'.mem l = σ.mem l := by
  refine hI.mem_of_ne hh hx fun y hw => ?_
  rcases writes_cases (hI.ok h hh) hp hw with ⟨ho', _⟩ | ⟨_, hf⟩
  · exact hne (hI.owns_inj hh' hh ho ho')
  · obtain ⟨hb, hop⟩ := hf _ ho
    exact hI.not_boot hh hh' hop hb

end

/-! ## The saved contexts -/

theorem Resumable.frame {s : SwitchSite} {t : Slot} {ρ : CtxWord → U64}
    (hr : Resumable cfg σ s h t ρ) (hparked : σ'.parked (ρ 1) = σ.parked (ρ 1))
    (hstack : s = .sched → ∀ a, cfg.layout.stackOf a = some (.task t) →
      σ'.mem (.stack a) = σ.mem (.stack a)) : Resumable cfg σ' s h t ρ := by
  obtain ⟨v, c, hc, hrun, hstk, hhart⟩ := hr
  refine ⟨v, c, ⟨?_, hc.ra, hc.stack, hc.roomy, fun hs a ha => ?_, hc.safe⟩, hrun, hstk, hhart⟩
  · rw [hparked]
    exact hc.parked
  · have ha' : cfg.layout.stackOf a = some (.task t) := by
      rw [ha, hstk, hs]
      rfl
    rw [hstack hs a ha']
    exact hc.same hs a ha

/-- Nobody writes to the context of a task that no hart is on. -/
theorem Inv.context_frame (hI : Inv cfg σ vs) (hh : h < cfg.harts) (hp : Pre cfg o (vs h))
    (hx : Performed σ h fail o r c σ') (hop : (vs 0).k.stage = .opened) {t : Slot}
    (hno : (vs h).k.stk ≠ .task t) (i : CtxWord) :
    σ'.mem (.context (.gTasks t) i) = σ.mem (.context (.gTasks t) i) := by
  refine hI.mem_of_ne hh hx fun y hw => ?_
  rcases writes_context hp hw with hb | hs
  · exact hI.not_boot cfg.harts_pos hh hop hb
  · exact hno hs

theorem Inv.contexts_simple (hI : Inv cfg σ vs) (hh : h < cfg.harts) (hp : Pre cfg o (vs h))
    (hx : Performed σ h fail o r c σ') (hop : (vs 0).k.stage = .opened) {K' : ℕ → Ghost}
    (hK : Only h (fun h => (vs h).k) K') (hk : K' h = (vs h).k.after o r) :
    Contexts cfg σ' K' := by
  have hc := hI.contexts hop
  have hstk : ∀ h', (K' h').stk = (vs h').k.stk := by
    intro h'
    by_cases hne : h' = h
    · rw [hne, hk]
      exact (vs h).k.after_stk o r
    · rw [hK h' hne]
  have hsw : ∀ h', (K' h').sw = (vs h').k.sw := by
    intro h'
    by_cases hne : h' = h
    · rw [hne, hk]
      exact (vs h).k.after_sw o r
    · rw [hK h' hne]
  have hstack : ∀ t : Slot, ((vs h).k.stk = .task t → (vs h).k.sw ≠ none) →
      ∀ a, cfg.layout.stackOf a = some (.task t) → σ'.mem (.stack a) = σ.mem (.stack a) := by
    intro t ht a ha
    refine hI.mem_of_ne hh hx fun y hw => ?_
    obtain ⟨hs, hnone⟩ := writes_stack hp hw
    exact ht (Option.some.inj (hs.symm.trans ha)) hnone
  refine ⟨fun t hlt hno => ?_, fun h' hh' t ht => ?_, fun h' hh' s t ρ hs ht => ?_⟩
  · have hno' : ∀ h' < cfg.harts, (vs h').k.stk ≠ .task t := fun h' hh' => hstk h' ▸ hno h' hh'
    have hmem := hI.context_frame hh hp hx hop (hno' h hh)
    simp only [hmem]
    rcases hc.task t hlt hno' with hinit | ⟨h', hr⟩
    · exact Or.inl hinit
    · exact Or.inr ⟨h', hr.frame (by rw [hx.parked]) fun _ =>
        hstack t fun hs => absurd hs (hno' h hh)⟩
  · rw [hstk h'] at ht
    have hmem : ∀ i, σ'.mem (.cpu_context h' i) = σ.mem (.cpu_context h' i) := by
      intro i
      refine hI.mem_of_ne hh hx fun y hw => ?_
      obtain ⟨heq, hs⟩ := writes_cpu_context hp hw
      rw [(hI.hart h hh).hart] at heq
      rw [heq] at ht hs
      rw [hs] at ht
      cases ht
    simp only [hmem]
    exact (hc.hart h' hh' t ht).frame (by rw [hx.parked]) fun hs => by cases hs
  · rw [hsw h'] at hs
    rw [hstk h'] at ht
    refine (hc.leaving h' hh' s t ρ hs ht).frame (by rw [hx.parked]) fun hsched => ?_
    rw [hsched] at ht
    refine hstack t fun hst => ?_
    have heq : h = h' := hI.stk_inj hh hh' (hst.trans ht.symm)
    rw [heq, hs]
    exact Option.some_ne_none _

/-! ## The hart itself -/

theorem HartIs.regsAfter (hown : ∀ l, v.k.Owns cfg.layout l → σ.mem l = v.m.mem l)
    (hp : Pre cfg o v) : regsAfter σ.mem v.regs o = regsAfter v.m.mem v.regs o := by
  cases o with
  | ld x off =>
    have hmem := hown (.stack (v.regs .sp + BitVec.ofNat 64 off)) hp.2.2.2.2.1
    simp only [Proof.regsAfter, hmem]
  | ld_ctx p x i =>
    obtain ⟨_, s, e, t, ρ, hk, rfl⟩ := hp
    have hrun : v.k.run = some t := by rw [hk]; rfl
    have hmem : σ.mem.ctx (newCtx s v.k.hart t) i = v.m.mem.ctx (newCtx s v.k.hart t) i := by
      cases s with
      | sched => exact hown (.cpu_context v.k.hart i) rfl
      | scheduler => exact hown (.context (.gTasks t) i) (Or.inl hrun)
    simp only [Proof.regsAfter, hmem]
  | _ => rfl

/-- The calls in progress after an operation. -/
def Op.calls (fs : List Fn) : Op → List Fn
  | .enter f => f :: fs
  | .leave _ _ | .sret _ => fs.tail
  | _ => fs

/-- `stvec` holds `kernelvec` after an operation. -/
def Op.stvec (b : Bool) : Op → Bool
  | .w_stvec => true
  | _ => b

theorem Ghost.after_calls_eq {k : Ghost} {o : Op} (he : ∀ f, o ≠ .enter f)
    (hl : ∀ f x, o ≠ .leave f x) (hs : ∀ s, o ≠ .sret s) (r : o.Ret) :
    (k.after o r).calls = k.calls := by
  unfold Ghost.after
  split <;> try rfl
  all_goals first | (split <;> try rfl) | skip
  · split <;> rfl
  · exact absurd rfl (he _)
  · exact absurd rfl (he _)
  · exact absurd rfl (hl _ _)
  · exact absurd rfl (hs _)

theorem Ghost.after_calls (k : Ghost) (o : Op) (r : o.Ret) :
    (k.after o r).calls = Op.calls k.calls o := by
  cases o with
  | enter f => cases f <;> rfl
  | leave f x => rfl
  | sret s => rfl
  | _ => exact Ghost.after_calls_eq (by simp) (by simp) (by simp) r

theorem Ghost.after_stvec_eq {k : Ghost} {o : Op} (hw : o ≠ .w_stvec) (r : o.Ret) :
    (k.after o r).stvec = k.stvec := by
  unfold Ghost.after
  split <;> try rfl
  all_goals first | (split <;> try rfl) | skip
  · split <;> rfl
  · exact absurd rfl hw

theorem Ghost.after_stvec (k : Ghost) (o : Op) (r : o.Ret) :
    (k.after o r).stvec = Op.stvec k.stvec o := by
  cases o with
  | w_stvec => rfl
  | _ => exact Ghost.after_stvec_eq (by simp) r

theorem HartIs.perform {x : Hart} (hx : HartIs h x v)
    (hown : ∀ l, v.k.Owns cfg.layout l → σ.mem l = v.m.mem l) (hp : Pre cfg o v)
    (hg : Goes cfg σ' o r v w) : HartIs h { Hart.perform σ.mem x o with code := c } w := by
  have hregs := HartIs.regsAfter hown hp
  refine ⟨?_, ?_, ?_, ?_, ?_, ?_, ?_, ?_, ?_⟩
  · rw [hg.k, Ghost.after_hart]
    exact hx.hart
  · rw [hg.regs]
    show (Hart.perform σ.mem x o).regs = Proof.regsAfter v.m.mem v.regs o
    rw [← hregs, ← hx.regs]
    cases o <;> rfl
  · rw [hg.pc]
    cases o <;> first | exact hx.pc | exact hx.sepc
  · cases o <;> try exact hx.mode
    obtain ⟨_, _, _, _, _, _, hspp, _⟩ := hp
    rw [← hx.sstatus] at hspp
    exact if_pos hspp
  · rw [hg.sstatus]
    cases o with
    | store l y =>
      show x.sstatus = (if v.k.keeps l then { v.m with mem := v.m.mem.set l y } else v.m).sstatus
      split <;> exact hx.sstatus
    | w_sstatus y => rfl
    | sret s => exact congrArg sret_sstatus hx.sstatus
    | _ => exact hx.sstatus
  · rw [hg.sepc]
    cases o with
    | store l y =>
      show x.sepc = (if v.k.keeps l then { v.m with mem := v.m.mem.set l y } else v.m).sepc
      split <;> exact hx.sepc
    | w_sepc y => rfl
    | _ => exact hx.sepc
  · rw [hg.scause]
    cases o with
    | store l y =>
      show x.scause = (if v.k.keeps l then { v.m with mem := v.m.mem.set l y } else v.m).scause
      split <;> exact hx.scause
    | _ => exact hx.scause
  · rw [hg.k, Ghost.after_stvec]
    cases o <;> first | exact hx.stvec | rfl
  · rw [hg.k, Ghost.after_calls, ← hx.calls]
    cases o <;> rfl

/-! ## What a hart comes to have in hand -/

section
variable (hI : Inv cfg σ vs) (hh : h < cfg.harts) (hp : Pre cfg o (vs h))
  (ha : Answer σ h fail o r)
include hI hh hp ha

/-- A lock is only taken when no hart has it. -/
theorem Inv.held_fresh {t : Slot} (ht : ((vs h).k.after o r).held = some t) :
    (vs h).k.held = some t ∨ ∀ h' < cfg.harts, (vs h').k.held ≠ some t := by
  cases o with
  | load l =>
    cases l with
    | state p =>
      cases p with
      | static j => exact Or.inl ht
      | gTasks t' =>
        have ht' : (if (vs h).k.held = some t' ∧ (vs h).k.run = none then
          if r = TaskState.RUNNABLE then (vs h).k.claim t' else (vs h).k.setScan (t' + 1)
          else (vs h).k).held = some t := ht
        split at ht'
        · split at ht' <;> exact Or.inl ht'
        · exact Or.inl ht'
    | _ => exact Or.inl ht
  | store l x =>
    cases l with
    | state p =>
      have ht' : (if (vs h).k.stage = .boot then (vs h).k else (vs h).k.setSt x).held = some t := ht
      split at ht' <;> exact Or.inl ht'
    | lk_cpu p =>
      have ht' : (if (vs h).k.stage = .boot then (vs h).k
        else (vs h).k.setOwn (Option.isSome x)).held = some t := ht
      split at ht' <;> exact Or.inl ht'
    | time_data =>
      have ht' : (if (vs h).k.stage = .boot then (vs h).k
        else (vs h).k.setTrap .counted).held = some t := ht
      split at ht' <;> exact Or.inl ht'
    | _ => exact Or.inl ht
  | amoswap cl x =>
    obtain ⟨t', rfl, _, hts⟩ := hp
    have ht' : (if r = (0 : I32) then (vs h).k.take t' else (vs h).k).held = some t := ht
    split at ht'
    · next h0 =>
      cases ht'
      refine Or.inr fun h' hh' hx => ?_
      have h1 := ((hI.table (hI.opened h hh hts.stage)).lock t).held h' hh' hx
      rw [← show r = σ.mem (.cell (.isLocked (.gTasks t))) from ha, h0] at h1
      exact absurd (show (0 : I32) = 1 from h1) (by decide)
    · exact Or.inl ht'
  | lr cl =>
    cases cl with
    | isLocked p => exact Or.inl ht
    | start =>
      have ht' : (if (vs h).k.stage = .wait ∧ r ≠ (0 : I32) then (vs h).k.pass
        else (vs h).k).held = some t := ht
      split at ht' <;> exact Or.inl ht'
  | sc cl x =>
    obtain ⟨t', rfl, _, _⟩ | ⟨rfl, _⟩ := hp
    · have ht' : (if r = (0 : I32) then (vs h).k.drop else (vs h).k).held = some t := ht
      split at ht'
      · cases ht'
      · exact Or.inl ht'
    · have ht' : (if r = (0 : I32) then (vs h).k.pass else (vs h).k).held = some t := ht
      split at ht' <;> exact Or.inl ht'
  | enter f => cases f <;> exact Or.inl ht
  | point p => cases p <;> exact Or.inl ht
  | _ => exact Or.inl ht

/-- A task is only found when no hart runs it. -/
theorem Inv.run_fresh {t : Slot} (ht : ((vs h).k.after o r).run = some t) :
    (vs h).k.run = some t ∨ ∀ h' < cfg.harts, (vs h').k.run ≠ some t := by
  by_cases hl : ∃ p, o = .load (.state p)
  · obtain ⟨p, rfl⟩ := hl
    cases hrun : (vs h).k.run with
    | none =>
      obtain ⟨rfl, hheld, hr⟩ := run_of_load hrun ht
      rw [show r = σ.mem (.state (.gTasks t)) from ha] at hr
      exact Or.inr (hI.nobody_runs hh hheld hrun hr)
    | some t' =>
      left
      rw [← hrun, ← ht]
      cases p with
      | static j => rfl
      | gTasks t2 =>
        show _ = (if (vs h).k.held = some t2 ∧ (vs h).k.run = none then
          if r = TaskState.RUNNABLE then (vs h).k.claim t2 else (vs h).k.setScan (t2 + 1)
          else (vs h).k).run
        rw [if_neg (by simp [hrun])]
  · by_cases hs : ∃ s, o = .sret s
    · obtain ⟨s, rfl⟩ := hs
      exact Or.inl ht
    · exact Or.inl ((Ghost.near_after hp (fun p he => hl ⟨p, he⟩) (fun s he => hs ⟨s, he⟩) r).run t
        ht)

/-- A hart is past the barrier once `start` is 1, or by opening it. -/
theorem Inv.opened_fresh (ho : ((vs h).k.after o r).stage = .opened) :
    (vs 0).k.stage = .opened ∨ h = 0 := by
  by_cases hold : (vs h).k.stage = .opened
  · exact Or.inl (hI.opened h hh hold)
  by_cases hb : (vs h).k.stage = .boot
  · exact Or.inr (hI.stage_cases hh hb)
  left
  cases o with
  | lr cl =>
    cases cl with
    | isLocked p => exact absurd ho hold
    | start =>
      have ho' : (if (vs h).k.stage = .wait ∧ r ≠ (0 : I32) then (vs h).k.pass
        else (vs h).k).stage = .opened := ho
      split at ho'
      · next hc =>
        refine hI.start ?_
        rw [← show r = σ.mem (.cell .start) from ha]
        exact hc.2
      · exact absurd ho' hold
  | sc cl x =>
    obtain ⟨t', rfl, _, hc⟩ | ⟨_, _, _, hb', _⟩ := hp
    · exact absurd ((hI.ok h hh).held_opened t' hc.held) hold
    · exact absurd hb' hb
  | _ =>
    rw [Ghost.after_stage_eq (by simp) (by simp) r] at ho
    exact absurd ho hold

end

/-! ## Hart 0 opens the barrier -/

section
variable (hI : Inv cfg σ vs) (hn : (vs 0).k.stage ≠ .opened) (hm : TableReady cfg σ.mem)
  {K' : ℕ → Ghost} (hK : ∀ h, (K' h).held = (vs h).k.held ∧ (K' h).run = (vs h).k.run ∧
    (K' h).stk = (vs h).k.stk ∧ (K' h).sw = (vs h).k.sw)
include hI hn hm hK

omit hm hK in
theorem Inv.closed_nothing (hh : h < cfg.harts) :
    (vs h).k.held = none ∧ (vs h).k.run = none ∧ (vs h).k.sw = none := by
  have hok := hI.ok h hh
  refine ⟨?_, ?_, ?_⟩
  · cases ht : (vs h).k.held with
    | none => rfl
    | some t => exact absurd (hI.opened h hh (hok.held_opened t ht)) hn
  · cases ht : (vs h).k.run with
    | none => rfl
    | some t => exact absurd (hI.opened h hh (hok.run_opened t ht)) hn
  · cases ht : (vs h).k.sw with
    | none => rfl
    | some x =>
      have hr := hok.sw_run x.1 x.2 ht
      exact absurd (hI.opened h hh (hok.run_opened x.1 hr)) hn

theorem Inv.table_opened (hmem : ∀ l, Loc.boot l = true → σ'.mem l = σ.mem l) :
    Table cfg σ'.mem K' := by
  have hheld : ∀ h < cfg.harts, (K' h).held = none := fun h hh => by
    rw [(hK h).1]
    exact (hI.closed_nothing hn hh).1
  have hrun : ∀ h < cfg.harts, (K' h).run = none := fun h hh => by
    rw [(hK h).2.1]
    exact (hI.closed_nothing hn hh).2.1
  refine ⟨fun t => ⟨fun h hh hx => ?_, fun _ => ?_, fun h => ?_, ?_, ?_, ?_⟩,
    fun t => ⟨fun h hh hx => ?_, fun _ => ?_⟩⟩
  · rw [hheld h hh] at hx
    cases hx
  · exact (hmem _ rfl).trans (hm.lock t).isLocked
  · rw [hmem _ rfl, (hm.lock t).lk_cpu]
    constructor
    · intro hx
      cases hx
    · rintro ⟨hh, hx, _⟩
      rw [hheld h hh] at hx
      cases hx
  · exact (hmem _ rfl).trans (hm.lock t).acquire
  · exact (hmem _ rfl).trans (hm.lock t).release
  · exact (hmem _ rfl).trans (hm.lock t).is_holding
  · rw [hrun h hh] at hx
    cases hx
  · exact (hmem _ rfl).trans (hm.state t)

theorem Inv.contexts_opened (hmem : ∀ l, Loc.boot l = true → σ'.mem l = σ.mem l) :
    Contexts cfg σ' K' := by
  refine ⟨fun t hlt _ => Or.inl fun i => ?_, fun h hh t ht => ?_, fun h hh s t ρ hs _ => ?_⟩
  · exact (hmem _ rfl).trans (hm.context t hlt i)
  · rw [(hK h).2.2.1] at ht
    have hr := hI.stk_run hh ht
    rw [(hI.closed_nothing hn hh).2.1] at hr
    cases hr
  · rw [(hK h).2.2.2, (hI.closed_nothing hn hh).2.2] at hs
    cases hs

end

/-- What hart 0 has made of the table in its own memory is in memory. -/
theorem Inv.table_ready (hI : Inv cfg σ vs) (hh : h < cfg.harts) (hb : (vs h).k.stage = .boot)
    (hm : TableReady cfg (vs h).m.mem) : TableReady cfg σ.mem := by
  have hmem : ∀ l, Loc.boot l = true → (∀ p i, l ≠ .context p i) → σ.mem l = (vs h).m.mem l := by
    intro l hl hc
    refine hI.owned h hh l ?_
    cases l with
    | context p i => exact absurd rfl (hc p i)
    | cpu_context c i => cases hl
    | stack a => cases hl
    | gticks => cases hl
    | time_data => cases hl
    | _ => exact ⟨hb, hl⟩
  refine ⟨fun t => ⟨?_, ?_, ?_, ?_, ?_⟩, fun t => ?_, fun t hlt i => ?_⟩
  · exact (hmem _ rfl (by simp)).trans (hm.lock t).isLocked
  · exact (hmem _ rfl (by simp)).trans (hm.lock t).lk_cpu
  · exact (hmem _ rfl (by simp)).trans (hm.lock t).acquire
  · exact (hmem _ rfl (by simp)).trans (hm.lock t).release
  · exact (hmem _ rfl (by simp)).trans (hm.lock t).is_holding
  · exact (hmem _ rfl (by simp)).trans (hm.state t)
  · exact (hI.owned h hh (.context (.gTasks t) i) (Or.inr hb)).trans (hm.context t hlt i)

/-! ## The step -/

theorem update_k (vs : ℕ → View) (h : ℕ) (w : View) (h' : ℕ) :
    (Function.update vs h w h').k = if h' = h then w.k else (vs h').k := by
  by_cases hx : h' = h
  · rw [hx, Function.update_self, if_pos rfl]
  · rw [Function.update_of_ne hx, if_neg hx]

/-- A field that the new view of `h` keeps is kept everywhere. -/
theorem update_field {α : Type} (f : Ghost → α) {vs : ℕ → View} {h : ℕ} {w : View}
    (hw : f w.k = f (vs h).k) (h' : ℕ) : f (Function.update vs h w h').k = f (vs h').k := by
  rw [update_k]
  split
  · next hx => rw [hx, hw]
  · rfl

theorem only_update (vs : ℕ → View) (h : ℕ) (w : View) :
    Only h (fun h => (vs h).k) fun h' => (Function.update vs h w h').k := by
  intro h' hne
  show (Function.update vs h w h').k = (vs h').k
  rw [Function.update_of_ne hne]

section
variable (hI : Inv cfg σ vs) (hh : h < cfg.harts) (hp : Pre cfg o (vs h))
  (hx : Performed σ h fail o r c σ') (hg : Goes cfg σ' o r (vs h) w)
include hI hh hp hx hg

omit hI hh hp hx in
theorem Inv.opened_step (hop : (vs 0).k.stage = .opened) :
    (Function.update vs h w 0).k.stage = .opened := by
  rw [update_k]
  split
  · next h0 =>
    rw [hg.k]
    rcases (vs h).k.after_stage o r with hs | hs
    · rw [hs, ← h0]
      exact hop
    · exact hs
  · exact hop

/-- If the barrier is opened now, hart 0 opened it, on a table that is ready. -/
theorem Inv.opening (hop : (vs 0).k.stage ≠ .opened)
    (ho : (Function.update vs h w 0).k.stage = .opened) :
    h = 0 ∧ (vs h).k.stage = .boot ∧ BootReady cfg (vs h).m.mem ∧
      ∃ x, (o = .sc .start x) := by
  rw [update_k] at ho
  split at ho
  swap
  · exact absurd ho hop
  next h0 =>
  subst h0
  rw [hg.k] at ho
  have hb : (vs 0).k.stage = .boot := by
    cases hs : (vs 0).k.stage with
    | boot => rfl
    | wait => exact absurd hs hI.first
    | opened => exact absurd hs hop
  have hsc : ∃ x, o = .sc .start x := by
    by_contra hno
    rw [Ghost.after_stage_eq] at ho
    · exact hop ho
    · rintro rfl
      have ho' : (if (vs 0).k.stage = .wait ∧ r ≠ (0 : I32) then (vs 0).k.pass
        else (vs 0).k).stage = .opened := ho
      rw [hb, if_neg (by simp)] at ho'
      exact hop ho'
    · rintro x rfl
      exact hno ⟨x, rfl⟩
  obtain ⟨x, rfl⟩ := hsc
  obtain ⟨t, hcl, _⟩ | ⟨_, _, _, _, hm⟩ := hp
  · cases hcl
  · exact ⟨rfl, hb, hm, x, rfl⟩

theorem Inv.cpu_step {h' : ℕ} (hh' : h' < cfg.harts) :
    CpuIs σ'.mem (Function.update vs h w h').k := by
  have hhart := (hI.hart h hh).hart
  have hmem : ∀ l : Loc, (∀ x, o ≠ .store l x) → (∀ cl, l ≠ .cell cl) → (∀ a, l ≠ .stack a) →
      (∀ p i, l ≠ .context p i) → (∀ c i, l ≠ .cpu_context c i) → σ'.mem l = σ.mem l :=
    fun l hno h1 h2 h3 h4 => hI.mem_of_ne hh hx fun y hw => hno y (writes_c hw h1 h2 h3 h4)
  by_cases hne : h' = h
  swap
  · rw [Function.update_of_ne hne]
    have hc := hI.cpu h' hh'
    have hhart' := (hI.hart h' hh').hart
    have hne' : (vs h').k.hart ≠ (vs h).k.hart := by rw [hhart, hhart']; exact hne
    refine ⟨?_, ?_, ?_⟩
    · rw [hmem _ (by rintro x rfl; exact hne' hp.1) (by simp) (by simp) (by simp) (by simp)]
      exact hc.off_nrs
    · rw [hmem _ (by rintro x rfl; exact hne' hp) (by simp) (by simp) (by simp) (by simp)]
      exact hc.intr_ena_before
    · rw [hmem _ (by rintro x rfl; exact hne' hp.1) (by simp) (by simp) (by simp) (by simp)]
      exact hc.cpu_task
  rw [hne, Function.update_self, hg.k]
  have hc := hI.cpu h hh
  refine ⟨?_, ?_, ?_⟩
  · rw [Ghost.after_hart]
    by_cases hs : ∃ x, o = .store (.off_nrs (vs h).k.hart) x
    · obtain ⟨x, rfl⟩ := hs
      rw [hx.mem]
      exact Mem.set_self σ.mem (.off_nrs (vs h).k.hart) x
    · have hs' : ∀ c x, o ≠ .store (.off_nrs c) x := by
        rintro c x rfl
        exact hs ⟨x, by rw [← show c = _ from hp.1]⟩
      rw [hmem _ (hs' _) (by simp) (by simp) (by simp) (by simp), hc.off_nrs]
      exact (Ghost.after_off hs' r).symm
  · rw [Ghost.after_hart]
    by_cases hs : ∃ x, o = .store (.intr_ena_before (vs h).k.hart) x
    · obtain ⟨x, rfl⟩ := hs
      rw [hx.mem]
      exact Mem.set_self σ.mem (.intr_ena_before (vs h).k.hart) x
    · have hs' : ∀ c x, o ≠ .store (.intr_ena_before c) x := by
        rintro c x rfl
        exact hs ⟨x, by rw [← show c = _ from hp]⟩
      rw [hmem _ (hs' _) (by simp) (by simp) (by simp) (by simp), hc.intr_ena_before]
      exact (Ghost.after_ena hs' r).symm
  · rw [Ghost.after_hart]
    by_cases hs : ∃ x, o = .store (.cpu_task (vs h).k.hart) x
    · obtain ⟨x, rfl⟩ := hs
      rw [hx.mem]
      refine (Mem.set_self σ.mem (.cpu_task (vs h).k.hart) x).trans ?_
      obtain ⟨_, ⟨rfl, _⟩ | ⟨t, rfl, _⟩⟩ := hp <;> rfl
    · have hs' : ∀ c x, o ≠ .store (.cpu_task c) x := by
        rintro c x rfl
        exact hs ⟨x, by rw [← show c = _ from hp.1]⟩
      rw [hmem _ (hs' _) (by simp) (by simp) (by simp) (by simp), hc.cpu_task]
      rw [Ghost.after_task hs' r]

theorem Inv.start_step (hs : σ'.mem (.cell .start) ≠ (0 : I32)) :
    (Function.update vs h w 0).k.stage = .opened := by
  by_cases hw : ∃ y, Op.writes (vs h).regs o r = some ⟨.cell .start, y⟩
  · obtain ⟨y, hw⟩ := hw
    cases o with
    | store l x =>
      cases hw
      refine absurd ?_ hs
      rw [hx.mem]
      exact (Mem.set_self σ.mem (.cell .start) _).trans hp
    | amoswap cl x =>
      obtain ⟨t, rfl, _⟩ := hp
      cases hw
    | sc cl x =>
      obtain ⟨h0, hcl⟩ := writes_sc hw
      cases hcl
      obtain ⟨t, hcl, _⟩ | ⟨_, _, _, hb, _⟩ := hp
      · cases hcl
      obtain rfl := hI.stage_cases hh hb
      rw [Function.update_self, hg.k]
      show (if r = (0 : I32) then (vs 0).k.pass else (vs 0).k).stage = .opened
      rw [if_pos h0]
      rfl
    | sd y off => cases hw
    | sd_ctx p y i => cases p <;> cases hw
    | _ => cases hw
  · refine Inv.opened_step hg (hI.start ?_)
    rwa [← hI.mem_of_ne hh hx fun y hw' => hw ⟨y, hw'⟩]

theorem Inv.closed_step {p : TaskPtr}
    (hc : (Function.update vs h w 0).k.stage ≠ .opened ∨ ∃ j, p = .static j) :
    σ'.mem (.lk_cpu p) = none := by
  have hold : σ.mem (.lk_cpu p) = none := by
    refine hI.closed p (hc.imp_left fun hn => ?_)
    exact fun ho => hn (Inv.opened_step hg ho)
  by_cases hw : ∃ y, Op.writes (vs h).regs o r = some ⟨.lk_cpu p, y⟩
  · obtain ⟨y, hw⟩ := hw
    obtain rfl := writes_c hw (by simp) (by simp) (by simp) (by simp)
    obtain ⟨_, rfl⟩ | ⟨t, rfl, hheld, _⟩ := hp
    · rw [hx.mem]
      exact Mem.set_self σ.mem (.lk_cpu p) none
    · rcases hc with hn | ⟨j, hj⟩
      · exact absurd (Inv.opened_step hg (hI.opened h hh ((hI.ok h hh).held_opened t hheld))) hn
      · cases hj
  · rw [hI.mem_of_ne hh hx fun y hw' => hw ⟨y, hw'⟩]
    exact hold

theorem Inv.simple_step (hsafe : Safe cfg c w) : Inv cfg σ' (Function.update vs h w) := by
  have hharts : ∀ h', h' ≠ h → σ'.harts h' = σ.harts h' := fun h' hne => by
    rw [hx.harts, Function.update_of_ne hne]
  have hself : σ'.harts h = { Hart.perform σ.mem (σ.harts h) o with code := c } := by
    rw [hx.harts, Function.update_self]
  have hK := only_update vs h w
  have hk : (Function.update vs h w h).k = (vs h).k.after o r := by
    rw [Function.update_self, hg.k]
  have hboot : ∀ {l}, Loc.boot l = true → h = 0 → (∃ x, o = .sc .start x) → σ'.mem l = σ.mem l := by
    rintro l hl - ⟨x, rfl⟩
    refine hI.mem_of_ne hh hx fun y hw => ?_
    cases (writes_sc hw).2
    cases hl
  have hstart : ∀ {h' : ℕ}, (∃ x, o = .sc .start x) →
      (Function.update vs h w h').k.held = (vs h').k.held ∧
      (Function.update vs h w h').k.run = (vs h').k.run ∧
      (Function.update vs h w h').k.stk = (vs h').k.stk ∧
      (Function.update vs h w h').k.sw = (vs h').k.sw := by
    rintro h' ⟨x, rfl⟩
    by_cases hne : h' = h
    · rw [hne, hk]
      show (if r = (0 : I32) then (vs h).k.pass else (vs h).k).held = _ ∧
        (if r = (0 : I32) then (vs h).k.pass else (vs h).k).run = _ ∧
        (if r = (0 : I32) then (vs h).k.pass else (vs h).k).stk = _ ∧
        (if r = (0 : I32) then (vs h).k.pass else (vs h).k).sw = _
      split <;> exact ⟨rfl, rfl, rfl, rfl⟩
    · rw [Function.update_of_ne hne]
      exact ⟨rfl, rfl, rfl, rfl⟩
  refine ⟨fun h' hh' => ?_, fun h' hh' => ?_, fun h' hh' => ?_, fun h' hh' => ?_,
    fun h' hh' l ho => ?_, fun a ha b hb t hta htb => ?_, fun a ha b hb t hta htb => ?_, ?_,
    fun h' hh' ho => ?_, fun hs => hI.start_step hh hp hx hg hs,
    fun p hc => hI.closed_step hh hp hx hg hc, fun ho => ?_, fun ho => ?_⟩
  · by_cases hne : h' = h
    · rw [hne, hself, Function.update_self]
      exact (hI.hart h hh).perform (hI.owned h hh) hp hg
    · rw [hharts h' hne, Function.update_of_ne hne]
      exact hI.hart h' hh'
  · by_cases hne : h' = h
    · rw [hne, Function.update_self]
      exact hg.ok
    · rw [Function.update_of_ne hne]
      exact hI.ok h' hh'
  · by_cases hne : h' = h
    · rw [hne, hself, Function.update_self]
      exact hsafe
    · rw [hharts h' hne, Function.update_of_ne hne]
      exact hI.safe h' hh'
  · exact hI.cpu_step hh hp hx hg hh'
  · by_cases hne : h' = h
    · rw [hne, Function.update_self] at ho ⊢
      exact hg.owned l ho
    · rw [Function.update_of_ne hne] at ho ⊢
      rw [hI.mem_other hh hp hx hh' hne ho]
      exact hI.owned h' hh' l ho
  · have hfresh := fun ht => hI.held_fresh hh hp hx.answer (t := t) ht
    by_cases hax : a = h <;> by_cases hbx : b = h
    · rw [hax, hbx]
    · rw [hax, hk] at hta
      rw [Function.update_of_ne hbx] at htb
      rcases hfresh hta with hold | hno
      · exact hI.held_inj a ha b hb t (hax ▸ hold) htb
      · exact absurd htb (hno b hb)
    · rw [hbx, hk] at htb
      rw [Function.update_of_ne hax] at hta
      rcases hfresh htb with hold | hno
      · exact hI.held_inj a ha b hb t hta (hbx ▸ hold)
      · exact absurd hta (hno a ha)
    · rw [Function.update_of_ne hax] at hta
      rw [Function.update_of_ne hbx] at htb
      exact hI.held_inj a ha b hb t hta htb
  · have hfresh := fun ht => hI.run_fresh hh hp hx.answer (t := t) ht
    by_cases hax : a = h <;> by_cases hbx : b = h
    · rw [hax, hbx]
    · rw [hax, hk] at hta
      rw [Function.update_of_ne hbx] at htb
      rcases hfresh hta with hold | hno
      · exact hI.run_inj a ha b hb t (hax ▸ hold) htb
      · exact absurd htb (hno b hb)
    · rw [hbx, hk] at htb
      rw [Function.update_of_ne hax] at hta
      rcases hfresh htb with hold | hno
      · exact hI.run_inj a ha b hb t hta (hbx ▸ hold)
      · exact absurd hta (hno a ha)
    · rw [Function.update_of_ne hax] at hta
      rw [Function.update_of_ne hbx] at htb
      exact hI.run_inj a ha b hb t hta htb
  · rw [update_k]
    split
    · next h0 =>
      rw [hg.k]
      rcases (vs h).k.after_stage o r with hs | hs
      · rw [hs, ← h0]
        exact hI.first
      · rw [hs]
        decide
    · exact hI.first
  · by_cases hne : h' = h
    · rw [hne, hk] at ho
      rcases hI.opened_fresh hh hp hx.answer ho with h1 | h1
      · exact Inv.opened_step hg h1
      · rw [← h1, hk]
        exact ho
    · rw [Function.update_of_ne hne] at ho
      exact Inv.opened_step hg (hI.opened h' hh' ho)
  · by_cases hop : (vs 0).k.stage = .opened
    · exact hI.table_simple hh hop hp hx hK hk
    · obtain ⟨h0, hb, hm, hsc⟩ := hI.opening hh hp hx hg hop ho
      exact hI.table_opened hop (hI.table_ready hh hb hm.toTableReady) (fun h' => hstart hsc)
        fun l hl => hboot hl h0 hsc
  · by_cases hop : (vs 0).k.stage = .opened
    · exact hI.contexts_simple hh hp hx hop hK hk
    · obtain ⟨h0, hb, hm, hsc⟩ := hI.opening hh hp hx hg hop ho
      exact hI.contexts_opened hop (hI.table_ready hh hb hm.toTableReady) (fun h' => hstart hsc)
        fun l hl => hboot hl h0 hsc

end

end GQuuuuuunix.Proof
