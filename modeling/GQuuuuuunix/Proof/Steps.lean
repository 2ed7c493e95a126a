import GQuuuuuunix.Proof.Consistent
import GQuuuuuunix.Proof.Assembly
import GQuuuuuunix.Proof.Boot
import GQuuuuuunix.Proof.Atomic

/-! # One operation of a hart, and one round of a loop -/

namespace GQuuuuuunix.Proof
open Lib Kernel
set_option autoImplicit false

variable {cfg : Config} {v : View}

/-! ## The record around an operation -/

/-- A change of the record that leaves the hart, its stack and `switch_to` as they are. -/
structure Ghost.Near (k k' : Ghost) : Prop where
  hart : k'.hart = k.hart
  stk : k'.stk = k.stk
  sw : k'.sw = k.sw
  trap : k'.trap = .idle → k.trap = .idle
  kept : ∀ t, k.sw ≠ none → k.run = some t → k'.run = some t
  run : ∀ t, k'.run = some t → k.run = some t

theorem Ghost.near_drop {k : Ghost} {t : Slot} (hp : ClearPre t k) : k.Near k.drop := by
  refine ⟨rfl, rfl, rfl, fun h => h, fun _ h _ => absurd hp.sw h, fun t' h => ?_⟩
  have h' : (if k.st = .RUNNABLE then none else k.run) = some t' := h
  split at h'
  · cases h'
  · exact h'

theorem Ghost.near_after {o : Op} (hp : Pre cfg o v) (hl : ∀ p, o ≠ .load (.state p))
    (hs : ∀ s, o ≠ .sret s) (r : o.Ret) : v.k.Near (v.k.after o r) := by
  have hrefl : v.k.Near v.k := ⟨rfl, rfl, rfl, fun h => h, fun _ _ h => h, fun _ h => h⟩
  cases o with
  | load l =>
    cases l with
    | state p => exact absurd rfl (hl p)
    | _ => exact hrefl
  | store l x =>
    cases l with
    | state p =>
      show v.k.Near (if v.k.stage = .boot then v.k else v.k.setSt x)
      split <;> exact ⟨rfl, rfl, rfl, fun h => h, fun _ _ h => h, fun _ h => h⟩
    | lk_cpu p =>
      show v.k.Near (if v.k.stage = .boot then v.k else v.k.setOwn (Option.isSome x))
      split <;> exact ⟨rfl, rfl, rfl, fun h => h, fun _ _ h => h, fun _ h => h⟩
    | gticks => exact ⟨rfl, rfl, rfl, fun h => (by cases h), fun _ _ h => h, fun _ h => h⟩
    | time_data =>
      show v.k.Near (if v.k.stage = .boot then v.k else v.k.setTrap .counted)
      split
      · exact hrefl
      · exact ⟨rfl, rfl, rfl, fun h => (by cases h), fun _ _ h => h, fun _ h => h⟩
    | _ => exact ⟨rfl, rfl, rfl, fun h => h, fun _ _ h => h, fun _ h => h⟩
  | amoswap c x =>
    obtain ⟨t, rfl, _, _⟩ := hp
    show v.k.Near (if r = (0 : I32) then v.k.take t else v.k)
    split <;> exact ⟨rfl, rfl, rfl, fun h => h, fun _ _ h => h, fun _ h => h⟩
  | lr c =>
    cases c with
    | isLocked p => exact hrefl
    | start =>
      show v.k.Near (if v.k.stage = .wait ∧ r ≠ (0 : I32) then v.k.pass else v.k)
      split <;> exact ⟨rfl, rfl, rfl, fun h => h, fun _ _ h => h, fun _ h => h⟩
  | sc c x =>
    obtain ⟨t, rfl, _, hc⟩ | ⟨rfl, _, _⟩ := hp
    · show v.k.Near (if r = (0 : I32) then v.k.drop else v.k)
      split
      · exact Ghost.near_drop hc
      · exact hrefl
    · show v.k.Near (if r = (0 : I32) then v.k.pass else v.k)
      split <;> exact ⟨rfl, rfl, rfl, fun h => h, fun _ _ h => h, fun _ h => h⟩
  | w_sip x => exact ⟨rfl, rfl, rfl, fun h => (by cases h), fun _ _ h => h, fun _ h => h⟩
  | enter f =>
    cases f <;> exact ⟨rfl, rfl, rfl, fun h => h, fun _ _ h => h, fun _ h => h⟩
  | point p =>
    cases p with
    | software_interrupt =>
      refine ⟨rfl, rfl, rfl, fun h => ?_, fun _ _ h => h, fun _ h => h⟩
      have h' : (if v.k.hart = 0 then TrapPhase.gticks_due else .counted) = .idle := h
      split at h' <;> cases h'
    | _ => exact ⟨rfl, rfl, rfl, fun h => h, fun _ _ h => h, fun _ h => h⟩
  | sret s => exact absurd rfl (hs s)
  | _ => exact ⟨rfl, rfl, rfl, fun h => h, fun _ _ h => h, fun _ h => h⟩

/-! ## The view around an operation -/

/-- The registers stay, and the words of memory that the two stack pointers lie in. -/
theorem View.Ok.near (hok : v.Ok cfg) {w : View} (hk : w.k.Ok cfg.harts) (hn : v.k.Near w.k)
    (hregs : w.regs = v.regs) (hsie : sie w.m.sstatus = w.k.sie)
    (hcpu : ∀ t, v.k.stk = .task t →
      w.m.mem (.cpu_context v.k.hart 1) = v.m.mem (.cpu_context v.k.hart 1))
    (htask : ∀ t h, v.k.run = some t → v.k.stk = .hart h →
      w.m.mem (.context (.gTasks t) 1) = v.m.mem (.context (.gTasks t) 1)) : w.Ok cfg := by
  refine { hk with tp := ?_, sie_eq := hsie, sp := ?_, sp_run := ?_, roomy := ?_, sched_sp := ?_,
                   task_sp := ?_ }
  · rw [hregs, hn.hart]
    exact hok.tp
  · rw [hregs, hn.sw, hn.stk]
    exact hok.sp
  · rw [hregs]
    intro t ht
    by_cases hsw : v.k.sw = none
    · rw [hok.sp hsw, ← hn.stk] at ht
      exact (hk.stk_task t (Option.some.inj ht)).1
    · exact hn.kept t hsw (hok.sp_run t ht)
  · rw [hregs, hn.sw]
    exact fun hsw ht => hok.roomy hsw (hn.trap ht)
  · rw [hn.stk, hn.hart]
    intro t ht
    rw [hcpu t ht]
    exact hok.sched_sp t ht
  · rw [hn.stk]
    intro t h hrun hstk
    rw [htask t h (hn.run t hrun) hstk]
    exact hok.task_sp t h (hn.run t hrun) hstk

/-- Only registers move. -/
theorem View.Ok.move (hok : v.Ok cfg) {r : Regs} (pc : U64) (htp : r .tp = v.regs .tp)
    (hsp : v.k.sw = none → cfg.layout.stackOf (r .sp) = some v.k.stk)
    (hroomy : v.k.sw = none → v.k.trap = .idle → cfg.layout.Roomy (r .sp))
    (hsw : v.k.sw ≠ none → ∀ t, cfg.layout.stackOf (r .sp) = some (.task t) → v.k.run = some t) :
    ({ v with regs := r, pc := pc } : View).Ok cfg := by
  refine { hok with tp := htp.trans hok.tp, sp := hsp, sp_run := fun t ht => ?_, roomy := hroomy }
  by_cases h : v.k.sw = none
  · have hstk := hsp h
    rw [show cfg.layout.stackOf (r .sp) = some (.task t) from ht] at hstk
    exact (hok.stk_task t (Option.some.inj hstk).symm).1
  · exact hsw h t ht

theorem sie_sret_sstatus {x : U64} (h : spie x = true) : sie (sret_sstatus x) = true := by
  simp [sret_sstatus, h, sie, SSTATUS_SIE, SSTATUS_SPIE, SSTATUS_SPP]

theorem View.Ok.sret (hok : v.Ok cfg) {s : Snapshot} (hp : Pre cfg (.sret s) v) :
    (v.after (.sret s) ()).Ok cfg := by
  obtain ⟨_, _, hint, _, _, _, _, hspie, hroomy, _⟩ := hp
  exact { hok.toOk.sret hint with
    tp := hok.tp
    sie_eq := sie_sret_sstatus hspie
    sp := hok.sp
    sp_run := hok.sp_run
    roomy := fun _ _ => hroomy
    sched_sp := hok.sched_sp
    task_sp := hok.task_sp }

theorem View.Ok.ld_ctx (hok : v.Ok cfg) {p : CtxPtr} {r : Reg} {i : CtxWord}
    (hp : Pre cfg (.ld_ctx p r i) v) : (v.after (.ld_ctx p r i) ()).Ok cfg := by
  obtain ⟨hmem, s, e, t, ρ, hk, rfl⟩ := hp
  have hsw : v.k.sw ≠ none := by rw [hk]; exact fun h => by cases h
  have htp : ∀ x ∈ switch_to_slots, x.1 ≠ .tp := by decide
  have hword : ∀ x ∈ switch_to_slots, x.1 = .sp → x.2 = 1 := by decide
  refine hok.move v.pc (Function.update_of_ne (htp _ hmem).symm _ _) (fun h => absurd h hsw)
    (fun h => absurd h hsw) fun _ t' ht => ?_
  by_cases hr : r = .sp
  · obtain rfl : i = 1 := hword _ hmem hr
    rw [hr] at ht
    have ht' : cfg.layout.stackOf (v.m.mem.ctx (newCtx s v.k.hart t) 1) = some (.task t') := by
      simpa only [regsAfter, Function.update_self] using ht
    have hrun : v.k.run = some t := by rw [hk]; rfl
    cases s with
    | sched =>
      have hsp := hok.sched_sp t (by rw [hk]; rfl)
      rw [show v.m.mem.ctx (newCtx .sched v.k.hart t) 1 = v.m.mem (.cpu_context v.k.hart 1)
        from rfl, hsp] at ht'
      cases ht'
    | scheduler =>
      have hsp := hok.task_sp t v.k.hart hrun (by rw [hk]; rfl)
      rw [show v.m.mem.ctx (newCtx .scheduler v.k.hart t) 1 =
        v.m.mem (.context (.gTasks t) 1) from rfl, hsp] at ht'
      cases ht'
      exact hrun
  · refine hok.sp_run t' ?_
    simpa only [regsAfter, Function.update_of_ne (Ne.symm hr)] using ht

theorem View.Ok.sd_ctx (hok : v.Ok cfg) {p : CtxPtr} {r : Reg} {i : CtxWord}
    (hp : Pre cfg (.sd_ctx p r i) v) : (v.after (.sd_ctx p r i) ()).Ok cfg := by
  obtain ⟨s, e, t, ρ, hk, rfl⟩ := hp
  refine hok.near hok.toOk ⟨rfl, rfl, rfl, fun h => h, fun _ _ h => h, fun _ h => h⟩ rfl
    hok.sie_eq (fun t' hstk => ?_) fun t' h _ hstk => ?_
  · cases s with
    | sched =>
      have hne : Loc.cpu_context v.k.hart 1 ≠ .context (.gTasks t) i := by simp
      exact Mem.set_ne v.m.mem (v.regs r) hne
    | scheduler =>
      rw [hk] at hstk
      cases hstk
  · cases s with
    | sched =>
      rw [hk] at hstk
      cases hstk
    | scheduler =>
      have hne : Loc.context (.gTasks t') 1 ≠ .cpu_context v.k.hart i := by simp
      exact Mem.set_ne v.m.mem (v.regs r) hne

/-- What a store keeps out of the words that hold the two stack pointers. -/
theorem own_store_context {l : Loc} {x : l.Ty} (hp : StorePre l x v) {l' : Loc}
    (hl : (∃ c, l' = .cpu_context c 1) ∨ ((∃ t, l' = .context (.gTasks t) 1) ∧ v.k.stage ≠ .boot)) :
    (v.m.after v.k v.regs (.store l x)).mem l' = v.m.mem l' := by
  show (if v.k.keeps l then { v.m with mem := v.m.mem.set l x } else v.m).mem l' = v.m.mem l'
  split
  · next hkeep =>
    refine Mem.set_ne v.m.mem x ?_
    rintro rfl
    rcases hl with ⟨c, rfl⟩ | ⟨⟨t, rfl⟩, hb⟩
    · exact hp
    · exact hb hp
  · rfl

theorem View.Ok.after (hok : v.Ok cfg) {o : Op} (hp : Pre cfg o v) (hpl : Op.plain o = true)
    (r : o.Ret) : (v.after o r).Ok cfg := by
  have hk := hok.toOk.after hp r
  have hl : ∀ p, o ≠ .load (.state p) := by
    rintro p rfl
    cases hpl
  have hn := fun hs => Ghost.near_after hp hl hs r
  cases o with
  | store l x =>
    refine hok.near hk (hn (by simp)) rfl ?_ (fun t _ => ?_) fun t h hrun _ => ?_
    · rw [show (v.after (.store l x) r).k.sie = v.k.sie from
        v.k.after_sie (o := .store l x) (by simp) (by simp) r, ← hok.sie_eq]
      show sie (if v.k.keeps l then { v.m with mem := v.m.mem.set l x } else v.m).sstatus = _
      split <;> rfl
    · exact own_store_context hp (Or.inl ⟨_, rfl⟩)
    · refine own_store_context hp (Or.inr ⟨⟨t, rfl⟩, ?_⟩)
      rw [hok.run_opened t hrun]
      decide
  | w_sstatus x => exact hok.near hk (hn (by simp)) rfl rfl (fun _ _ => rfl) fun _ _ _ _ => rfl
  | addi_sp i =>
    obtain ⟨_, hsw, ht, hsp⟩ := hp
    refine hok.move v.pc ?_ (fun _ => ?_) (fun _ h => absurd h ht) fun h => absurd hsw h
    · simp only [regsAfter, Function.update_of_ne (show Reg.tp ≠ .sp by decide)]
    · simpa only [regsAfter, Function.update_self] using hsp
  | sd x off =>
    have hne : ∀ l : Loc, (∀ a, l ≠ .stack a) →
        (v.m.after v.k v.regs (.sd x off)).mem l = v.m.mem l :=
      fun l hl => Mem.set_ne v.m.mem _ (hl _)
    exact hok.near hk (hn (by simp)) rfl hok.sie_eq (fun _ _ => hne _ (by simp))
      fun _ _ _ _ => hne _ (by simp)
  | ld x off =>
    obtain ⟨_, hsw, ht, hx, _, hsp⟩ := hp
    refine hok.move v.pc (Function.update_of_ne (Ne.symm hx) _ _) (fun _ => ?_)
      (fun _ h => absurd h ht) fun h => absurd hsw h
    by_cases hr : x = .sp
    · subst hr
      simpa only [regsAfter, Function.update_self] using hsp rfl
    · simpa only [regsAfter, Function.update_of_ne (Ne.symm hr)] using hok.sp hsw
  | ret_c saved =>
    obtain ⟨_, hsw, ht, hsp⟩ := hp
    exact hok.move v.pc rfl (fun _ => hsp) (fun _ h => absurd h ht) fun h => absurd hsw h
  | sret s => exact hok.sret hp
  | sd_ctx p x i => exact hok.sd_ctx hp
  | ld_ctx p x i => exact hok.ld_ctx hp
  | call_switch_to s old new => cases hpl
  | ret old new => cases hpl
  | loop l => cases hpl
  | _ =>
    exact hok.near hk (hn (by simp)) rfl
      (hok.sie_eq.trans (v.k.after_sie (by simp) (by simp) r).symm) (fun _ _ => rfl)
      fun _ _ _ _ => rfl

/-! ## One round of a loop -/

/-- What a program ends in is consistent. -/
theorem wp_ok {α : Type} {p : KProg α} {Q : α → View → Prop} (hp : wp (rules cfg) p Q v)
    (hok : v.Ok cfg) : wp (rules cfg) p (fun a w => Q a w ∧ w.Ok cfg) v := by
  induction p generalizing v with
  | pure a => exact ⟨hp, hok⟩
  | op o f ih =>
    intro v' hi hok'
    obtain ⟨hpre, hq⟩ := hp v' hi hok'
    exact ⟨hpre, fun r w hw hwok => ih r (hq r w hw hwok) hwok⟩

theorem does_loop_round {l : Loop} (hok : v.Ok cfg) (hp : LoopPre cfg l v.k v.m) :
    Does cfg l.round v.k v.m fun _ k' m' => LoopPost l v.k v.m k' m' := by
  cases l with
  | test_set lk => exact does_test_set_round hp
  | store c x =>
    refine does_store_round ?_ ?_ hp
    · obtain ⟨_, _, _, hc⟩ | ⟨_, _, hs, _⟩ := hp
      · exact hc.sie
      · exact hs
    · obtain ⟨t, _, _, hc⟩ | ⟨_, _, _, hst, _⟩ := hp
      · rw [hok.held_opened t hc.held]
        decide
      · rw [hst]
        decide
  | barrier => exact does_barrier_round hp
  | scheduler c => exact does_scheduler_round hp
  | scan c i => exact does_scan_round hp
  | dummy_task => exact does_dummy_task_round hp
  | atomic_store sz a x => exact does_atomic_store_round
  | cmp_xchg sz a e d => exact does_cmp_xchg_round

/-- A loop may be unfolded: a round, then the rest. -/
theorem safe_loop {l : Loop} {f : l.Ret → Code} (hok : v.Ok cfg) (hp : LoopPre cfg l v.k v.m)
    (h : ∀ r w, LoopPost l v.k v.m w.k w.m → w.Ok cfg → Safe cfg (f r) w) :
    Safe cfg (l.round.bind f) v := by
  unfold Safe
  rw [wp_bind]
  refine wp_mono (rules_mono cfg) (fun r w hw => ?_)
    (wp_ok (does_loop_round hok hp v rfl rfl) hok)
  exact h r w hw.1 hw.2

/-- Code of C goes on from wherever a trap may leave the hart. -/
theorem safe_interf {o : Op} {f : o.Ret → Code} {w : View} (ho : o.isAsm = false)
    (h : Safe cfg (.op o f) v) (hi : Interf v w) : Safe cfg (.op o f) w := by
  intro v' hv' hok
  rw [ho, if_neg (by decide)] at hv'
  refine h v' ?_ hok
  rw [ho, if_neg (by decide)]
  exact hi.trans hv'

/-- The instructions of the two assembly files run with interrupts off. -/
theorem sie_of_isAsm {o : Op} (ho : o.isAsm = true) (hp : Pre cfg o v) : v.k.sie = false := by
  cases o <;> cases ho
  case addi_sp => exact hp.1
  case sd => exact hp.1
  case ld => exact hp.1
  case call_c => exact hp
  case sret => exact hp.1
  case sd_ctx =>
    obtain ⟨s, e, t, ρ, hk, _⟩ := hp
    rw [hk]
    rfl
  case ld_ctx =>
    obtain ⟨_, s, e, t, ρ, hk, _⟩ := hp
    rw [hk]
    rfl
  case ret =>
    obtain ⟨s, e, t, ρ, hk, _⟩ := hp
    rw [hk]
    rfl

end GQuuuuuunix.Proof
