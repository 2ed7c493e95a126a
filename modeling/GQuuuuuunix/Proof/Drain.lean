import Mathlib.Logic.Relation
import GQuuuuuunix.Proof.Adequacy

/-! # A hart that holds a lock, alone

It has interrupts off and waits for nobody. Its program is a finite tree, so it comes to the store
that clears the lock, unless it goes on for ever in a loop or by switching between the scheduler
and a task. What the loops need keeps it out of all but those with an `sc`; and in one section a
hart switches from the scheduler to the task and back at most. -/

namespace GQuuuuuunix.Proof
open Lib Kernel Relation
set_option autoImplicit false

variable {cfg : Config} {σ σ' : State} {vs : ℕ → View} {v : View} {h : ℕ} {t : Slot}

/-- Hart `h` makes a step in which no `sc` fails for no reason. -/
def Solo (cfg : Config) (h : ℕ) (σ σ' : State) : Prop :=
  σ.step cfg.layout cfg.harts (.hart h false) = some σ'

theorem Inv.off (hI : Inv cfg σ vs) (hh : h < cfg.harts) (hs : (vs h).k.sie = false) :
    (σ.harts h).interrupted = false := by
  have hsie : sie (σ.harts h).sstatus = false := by
    rw [(hI.hart h hh).sstatus, (hI.ok h hh).sie_eq]
    exact hs
  unfold Hart.interrupted
  rw [hsie]
  rfl

/-- A hart with interrupts off performs its next operation. -/
theorem Inv.solo (hI : Inv cfg σ vs) (hh : h < cfg.harts) (hs : (vs h).k.sie = false) {o : Op}
    {f : o.Ret → Code} (hcode : (σ.harts h).code = .op o f) (ho : Op.simple o = true) :
    ∃ r σ' vs', Solo cfg h σ σ' ∧ Inv cfg σ' vs' ∧ Pre cfg o (vs h) ∧
      σ.exec cfg.layout h false o f = some σ' ∧ Performed σ h false o r (f r) σ' ∧
      (vs' h).k = (vs h).k.after o r := by
  have hsafe := hI.safe h hh
  rw [hcode] at hsafe
  obtain ⟨hp, hpost⟩ := safe_pre hsafe (hI.ok h hh)
  obtain ⟨σ', hx'⟩ := exec_total cfg.layout false ho f
  obtain ⟨r, hx⟩ := exec_simple ho (fun s he => hI.intact hh (he ▸ hp)) hx'
  obtain ⟨w, hgo⟩ := hI.goes hh ho hp hx
  refine ⟨r, σ', Function.update vs h w, (step_op hh (hI.off hh hs) hcode).trans hx',
    hI.simple_step hh hp hx hgo (hpost r w hgo.post hgo.ok), hp, hx', hx, ?_⟩
  rw [Function.update_self, hgo.k]

/-- A hart with interrupts off comes to the round of a loop. -/
theorem Inv.solo_loop (hI : Inv cfg σ vs) (hh : h < cfg.harts) (hs : (vs h).k.sie = false)
    {l : Loop} {f : l.Ret → Code} (hcode : (σ.harts h).code = .op (.loop l) f) :
    Solo cfg h σ (σ.goto h (l.round.bind f)) ∧ Inv cfg (σ.goto h (l.round.bind f)) vs ∧
      ((σ.goto h (l.round.bind f)).harts h).code = l.round.bind f := by
  have hsafe := hI.safe h hh
  rw [hcode] at hsafe
  obtain ⟨hp, hpost⟩ := safe_pre hsafe (hI.ok h hh)
  refine ⟨step_op hh (hI.off hh hs) hcode, hI.goto_step hh ?_, ?_⟩
  · exact safe_loop (hI.ok h hh) hp fun r w hw hwok => hpost r w hw hwok
  · show (Function.update σ.harts h _ h).code = _
    rw [Function.update_self]

/-! ## The loops with an `sc` -/

def Loop.conditional : Loop → Bool
  | .store _ _ | .atomic_store _ _ _ | .cmp_xchg _ _ _ _ => true
  | _ => false

/-- A hart that holds a lock is in no other loop. -/
theorem conditional_of_held {l : Loop} {k : Ghost} {m : Own} (hp : LoopPre cfg l k m)
    (ht : k.held = some t) (hop : k.stage = .opened) : Loop.conditional l = true := by
  have hscan : ∀ {c b e st i}, k ≠ .scanning c b e st i := by
    rintro c b e st i rfl
    cases ht
  cases l with
  | test_set lk =>
    obtain ⟨_, _, hts, _⟩ := hp
    rw [hts.held] at ht
    cases ht
  | barrier =>
    have hw := hp.1
    rw [hop] at hw
    cases hw
  | scheduler c =>
    obtain ⟨_, _, _, hk⟩ := hp
    exact absurd hk hscan
  | scan c i =>
    obtain ⟨_, _, _, _, hk⟩ := hp
    exact absurd hk hscan
  | dummy_task =>
    obtain ⟨_, _, _, _, rfl⟩ := hp
    cases ht
  | _ => rfl

/-- The loop of `ATOMIC_STORE` on a lock ends in its first round. -/
theorem Inv.drain_store (hI : Inv cfg σ vs) (hh : h < cfg.harts) (ht : (vs h).k.held = some t)
    {c : Cell} {x : I32} {f : Unit → Code} (hcode : (σ.harts h).code = .op (.loop (.store c x)) f)
    (hp : ScPre cfg c x (vs h).k (vs h).m) :
    ∃ σ', ReflTransGen (Solo cfg h) σ σ' ∧ σ'.mem (.cell (.isLocked (.gTasks t))) = (0 : I32) := by
  have hs := (hI.ok h hh).held_sie t ht
  obtain ⟨t', rfl, rfl, hclear⟩ | ⟨_, _, _, hboot, _⟩ := hp
  swap
  · rw [(hI.ok h hh).held_opened t ht] at hboot
    cases hboot
  obtain rfl : t' = t := Option.some.inj (hclear.held.symm.trans ht)
  obtain ⟨hs1, hI1, hcode1⟩ := hI.solo_loop hh hs hcode
  obtain ⟨r, σ2, vs2, hs2, hI2, _, hx2, hp2, hk2⟩ := hI1.solo hh hs hcode1 rfl
  have hcode2 := congrArg Hart.code hp2.hart_eq
  have hresv : σ2.resv h = some (.isLocked (.gTasks t')) := by
    cases hx2
    exact Function.update_self ..
  obtain ⟨r', σ3, vs3, hs3, _, _, _, hp3, _⟩ := hI2.solo hh (by rw [hk2]; exact hs) hcode2 rfl
  have hr' : r' = (0 : I32) := Eq.trans hp3.answer (if_pos ⟨hresv, rfl⟩)
  refine ⟨σ3, ((ReflTransGen.single hs1).tail hs2).tail hs3, ?_⟩
  rw [hp3.mem, show Op.writes (σ2.harts h).regs (.sc (.isLocked (.gTasks t')) 0) r' =
    some ⟨.cell (.isLocked (.gTasks t')), (0 : I32)⟩ from if_pos hr']
  exact Mem.set_self σ2.mem (.cell (.isLocked (.gTasks t'))) (0 : I32)

/-- The loop of `ATOMIC_STORE` on an object ends in its first round. -/
theorem Inv.solo_atomic_store (hI : Inv cfg σ vs) (hh : h < cfg.harts)
    (hs : (vs h).k.sie = false) {sz : Width} {a : ℕ} {x : U64} {f : Unit → Code}
    (hcode : (σ.harts h).code = .op (.loop (.atomic_store sz a x)) f) :
    ∃ σ' vs', ReflTransGen (Solo cfg h) σ σ' ∧ Inv cfg σ' vs' ∧ (σ'.harts h).code = f () ∧
      (vs' h).k = (vs h).k := by
  obtain ⟨hs1, hI1, hcode1⟩ := hI.solo_loop hh hs hcode
  obtain ⟨r, σ2, vs2, hs2, hI2, _, hx2, hp2, hk2⟩ := hI1.solo hh hs hcode1 rfl
  have hcode2 := congrArg Hart.code hp2.hart_eq
  have hresv : σ2.objResv h = some a := by
    cases hx2
    exact Function.update_self ..
  obtain ⟨r', σ3, vs3, hs3, hI3, _, _, hp3, hk3⟩ :=
    hI2.solo hh (by rw [hk2]; exact hs) hcode2 rfl
  have hr' : r' = (0 : U64) :=
    Eq.trans hp3.answer (congrArg Prod.fst (if_pos ⟨hresv, rfl⟩))
  refine ⟨σ3, vs3, ((ReflTransGen.single hs1).tail hs2).tail hs3, hI3, ?_, hk3.trans hk2⟩
  rw [hp3.hart_eq, hr']
  rfl

/-- The loop of `CMP_XCHG` ends in its first round. -/
theorem Inv.solo_cmp_xchg (hI : Inv cfg σ vs) (hh : h < cfg.harts)
    (hs : (vs h).k.sie = false) {sz : Width} {a : ℕ} {x y : U64} {f : U64 → Code}
    (hcode : (σ.harts h).code = .op (.loop (.cmp_xchg sz a x y)) f) :
    ∃ r σ' vs', ReflTransGen (Solo cfg h) σ σ' ∧ Inv cfg σ' vs' ∧ (σ'.harts h).code = f r ∧
      (vs' h).k = (vs h).k := by
  obtain ⟨hs1, hI1, hcode1⟩ := hI.solo_loop hh hs hcode
  obtain ⟨r, σ2, vs2, hs2, hI2, _, hx2, hp2, hk2⟩ := hI1.solo hh hs hcode1 rfl
  have hcode2 : (σ2.harts h).code = Prog.bind (if r ≠ x then Pure.pure r else do
      let result ← Atomic.sc sz a y
      if result ≠ 0 then
        loop (.cmp_xchg sz a x y)
      else
        Pure.pure r) f := congrArg Hart.code hp2.hart_eq
  split at hcode2
  · exact ⟨r, σ2, vs2, (ReflTransGen.single hs1).tail hs2, hI2, hcode2, hk2⟩
  have hresv : σ2.objResv h = some a := by
    cases hx2
    exact Function.update_self ..
  obtain ⟨r', σ3, vs3, hs3, hI3, _, _, hp3, hk3⟩ :=
    hI2.solo hh (by rw [hk2]; exact hs) hcode2 rfl
  have hr' : r' = (0 : U64) :=
    Eq.trans hp3.answer (congrArg Prod.fst (if_pos ⟨hresv, rfl⟩))
  refine ⟨r, σ3, vs3, ((ReflTransGen.single hs1).tail hs2).tail hs3, hI3, ?_, hk3.trans hk2⟩
  rw [hp3.hart_eq, hr']
  rfl

/-! ## How often a hart may still switch -/

/-- A bound that every switch in one section lowers: the scheduler with the slot `t` before it may
switch to the task, which may switch back. -/
def Ghost.switches (k : Ghost) (t : Slot) : ℕ :=
  if k.stk = .task t then if k.sw.isSome then 1 else 2
  else if k.sw.isSome then 3
  else if k.scan = t then 4
  else if k.scan = TASK_MAX_NRS ∧ (t : ℕ) = 0 then 5
  else 0

theorem Ghost.after_scan {k : Ghost} {o : Op} (hl : ∀ p, o ≠ .load (.state p))
    (hp : o ≠ .point .pass_begin) (r : o.Ret) : (k.after o r).scan = k.scan := by
  unfold Ghost.after
  split <;> try rfl
  all_goals first
    | exact absurd rfl hp
    | exact absurd rfl (hl _)
    | (split <;> rfl)

/-- The pass of a hart moves on by the slot whose lock the hart holds, or begins. -/
theorem scan_after {o : Op} (hp : Pre cfg o v) (r : o.Ret) :
    (v.k.after o r).scan = v.k.scan ∨
      (∃ t, v.k.held = some t ∧ v.k.scan = t ∧ (v.k.after o r).scan = t + 1) ∨
      o = .point .pass_begin ∧ v.k.scan = TASK_MAX_NRS ∧ (v.k.after o r).scan = 0 := by
  by_cases hl : ∃ p, o = .load (.state p)
  · obtain ⟨p, rfl⟩ := hl
    cases p with
    | static j => exact Or.inl rfl
    | gTasks t =>
      by_cases hc : v.k.held = some t ∧ v.k.run = none
      · rw [show v.k.after (.load (.state (.gTasks t))) r = if r = TaskState.RUNNABLE then
          v.k.claim t else v.k.setScan (t + 1) from if_pos hc]
        split
        · exact Or.inl rfl
        · exact Or.inr (Or.inl ⟨t, hc.1, hp hc.1 hc.2, rfl⟩)
      · exact Or.inl (congrArg Ghost.scan (if_neg hc))
  by_cases hb : o = .point .pass_begin
  · subst hb
    exact Or.inr (Or.inr ⟨rfl, hp.1, rfl⟩)
  · exact Or.inl (Ghost.after_scan (fun p hp => hl ⟨p, hp⟩) hb r)

theorem switches_after {o : Op} (hp : Pre cfg o v) (hheld : v.k.held = some t) (r : o.Ret) :
    (v.k.after o r).switches t ≤ v.k.switches t := by
  have hscan := scan_after hp r
  unfold Ghost.switches
  rw [Ghost.after_stk, Ghost.after_sw]
  split
  · exact le_rfl
  split
  · exact le_rfl
  unfold TASK_MAX_NRS at hscan ⊢
  have ht := t.isLt
  unfold TASK_MAX_NRS at ht
  rcases hscan with hs | ⟨t', ht', hs, hs'⟩ | ⟨-, hs, hs'⟩
  · rw [hs]
  · obtain rfl : t' = t := Option.some.inj (ht'.symm.trans hheld)
    rw [hs, hs']
    split_ifs <;> omega
  · rw [hs, hs']
    split_ifs <;> omega

/-- A lock stays taken until the hart clears it. -/
theorem held_after {o : Op} (hp : Pre cfg o v) (hheld : v.k.held = some t) (r : o.Ret) :
    (v.k.after o r).held = some t ∨
      ∀ ρ, Op.writes ρ o r = some ⟨.cell (.isLocked (.gTasks t)), (0 : I32)⟩ := by
  by_cases ha : ∃ p x, o = .amoswap (.isLocked p) x
  · obtain ⟨p, x, rfl⟩ := ha
    obtain ⟨t', _, _, hts⟩ := hp
    rw [hts.held] at hheld
    cases hheld
  by_cases hs : ∃ p x, o = .sc (.isLocked p) x
  · obtain ⟨p, x, rfl⟩ := hs
    obtain ⟨t', hcl, rfl, hclear⟩ | ⟨hcl, _⟩ := hp
    swap
    · cases hcl
    cases hcl
    obtain rfl : t' = t := Option.some.inj (hclear.held.symm.trans hheld)
    by_cases h0 : r = (0 : I32)
    · exact Or.inr fun ρ => if_pos h0
    · exact Or.inl ((congrArg Ghost.held (if_neg h0)).trans hheld)
  · exact Or.inl ((Ghost.after_held (fun p x he => ha ⟨p, x, he⟩) (fun p x he => hs ⟨p, x, he⟩)
      r).trans hheld)

section
variable {e : I32} {fs : List Fn} {ρ : CtxWord → U64} {s : SwitchSite} {k : Ghost}

theorem switches_call : (Ghost.switching s h e t fs ρ).switches t <
    (Ghost.atSwitch s h e t fs).switches t := by
  cases s with
  | sched =>
    show (if StackId.task t = .task t then 1 else _) < if StackId.task t = .task t then 2 else _
    rw [if_pos rfl, if_pos rfl]
    exact Nat.lt_succ_self 1
  | scheduler =>
    show (if StackId.hart h = .task t then 1 else 3) < if StackId.hart h = .task t then 2
      else if (t : ℕ) = t then 4 else _
    rw [if_neg (by simp), if_neg (by simp), if_pos rfl]
    exact Nat.lt_succ_self 3

theorem Returns.switches (hr : Returns cfg s h e t k) : k.held = some t ∧
    k.switches t < (Ghost.switching s h e t fs ρ).switches t := by
  have hsched : (Ghost.switching .sched h e t fs ρ).switches t = 1 := if_pos rfl
  have hscheduler : (Ghost.switching .scheduler h e t fs ρ).switches t = 3 :=
    if_neg (show ¬ StackId.hart h = .task t from fun hc => by cases hc)
  cases hr with
  | scheduler f hs =>
    subst hs
    refine ⟨rfl, ?_⟩
    rw [hsched, show (Ghost.resumed .scheduler h e t f).switches t = 0 from ?_]
    · exact Nat.one_pos
    · show (if StackId.hart h = .task t then 2 else if (t : ℕ) + 1 = t then 4
        else if (t : ℕ) + 1 = 64 ∧ (t : ℕ) = 0 then 5 else 0) = 0
      rw [if_neg (by simp), if_neg (Nat.succ_ne_self _), if_neg (by omega)]
  | sched f hs =>
    subst hs
    refine ⟨rfl, ?_⟩
    rw [hscheduler, show (Ghost.resumed .sched h e t f).switches t = 2 from if_pos rfl]
    exact Nat.lt_succ_self 2
  | first hs =>
    subst hs
    refine ⟨rfl, ?_⟩
    rw [hscheduler, show (Ghost.firstRun h e t).switches t = 2 from if_pos rfl]
    exact Nat.lt_succ_self 2

end

/-- A step of a hart alone at one of the two ends of `switch_to`. -/
theorem Inv.solo_move (hI : Inv cfg σ vs) (hh : h < cfg.harts) (hs : (vs h).k.sie = false)
    {o : Op} {f : o.Ret → Code} (hcode : (σ.harts h).code = .op o f)
    (hx : ∃ σ', σ.exec cfg.layout h false o f = some σ') : ∃ σ' vs', Solo cfg h σ σ' ∧
      Move cfg σ vs (.hart h false) σ' vs' ∧ Inv cfg σ' vs' := by
  obtain ⟨σ', hx⟩ := hx
  have hi := hI.off hh hs
  obtain ⟨vs', hm, hI'⟩ := hI.hart_step hh hi hcode hx
  exact ⟨σ', vs', (step_op hh hi hcode).trans hx, hm, hI'⟩

theorem Inv.solo_call (hI : Inv cfg σ vs) (hh : h < cfg.harts) (hs : (vs h).k.sie = false)
    {s : SwitchSite} {old new : CtxPtr} {f : Unit → Code}
    (hcode : (σ.harts h).code = .op (.call_switch_to s old new) f)
    (ht : (vs h).k.held = some t) : ∃ σ' vs', Solo cfg h σ σ' ∧ Inv cfg σ' vs' ∧
      (vs' h).k.held = some t ∧ (vs' h).k.switches t < (vs h).k.switches t := by
  obtain ⟨σ', vs', hs', hm, hI'⟩ := hI.solo_move hh hs hcode ⟨_, rfl⟩
  refine ⟨σ', vs', hs', hI', ?_⟩
  have hi := hI.off hh hs
  cases hm with
  | trap _ hi' _ =>
    rw [hi] at hi'
    cases hi'
  | op _ _ hcode' hsimple' =>
    rw [hcode] at hcode'
    cases hcode'
    cases hsimple'
  | loop _ _ hcode' =>
    rw [hcode] at hcode'
    cases hcode'
  | ret _ _ hcode' =>
    rw [hcode] at hcode'
    cases hcode'
  | call _ _ hcode' hk =>
    rw [hcode] at hcode'
    cases hcode'
    rw [Function.update_self, View.called]
    rw [hk] at ht ⊢
    cases ht
    refine ⟨rfl, ?_⟩
    exact switches_call

theorem Inv.solo_ret (hI : Inv cfg σ vs) (hh : h < cfg.harts) (hs : (vs h).k.sie = false)
    {old new : CtxPtr} {f : Unit → Code} (hcode : (σ.harts h).code = .op (.ret old new) f)
    (ht : (vs h).k.held = some t) : ∃ σ' vs', Solo cfg h σ σ' ∧ Inv cfg σ' vs' ∧
      (vs' h).k.held = some t ∧ (vs' h).k.switches t < (vs h).k.switches t := by
  obtain ⟨σ', vs', hs', hm, hI'⟩ := hI.solo_move hh hs hcode ⟨_, rfl⟩
  refine ⟨σ', vs', hs', hI', ?_⟩
  have hi := hI.off hh hs
  cases hm with
  | trap _ hi' _ =>
    rw [hi] at hi'
    cases hi'
  | op _ _ hcode' hsimple' =>
    rw [hcode] at hcode'
    cases hcode'
    cases hsimple'
  | loop _ _ hcode' =>
    rw [hcode] at hcode'
    cases hcode'
  | call _ _ hcode' _ =>
    rw [hcode] at hcode'
    cases hcode'
  | ret _ _ hcode' hk _ hw =>
    rw [Function.update_self]
    rw [hk] at ht ⊢
    cases ht
    exact hw.switches

/-! ## The section ends -/

/-- A hart that holds a lock and is left alone comes to clear it. -/
theorem Inv.drain (hh : h < cfg.harts) (n : ℕ) : ∀ (c : Code) {σ : State} {vs : ℕ → View},
    Inv cfg σ vs → (σ.harts h).code = c → (vs h).k.held = some t → (vs h).k.switches t = n →
    ∃ σ', ReflTransGen (Solo cfg h) σ σ' ∧
      σ'.mem (.cell (.isLocked (.gTasks t))) = (0 : I32) := by
  induction n using Nat.strong_induction_on with
  | _ n ihn =>
  intro c
  induction c with
  | pure a =>
    intro σ vs hI hcode _ _
    have hsafe := hI.safe h hh
    rw [hcode] at hsafe
    exact hsafe.elim
  | op o f ih =>
    intro σ vs hI hcode ht hn
    have hok := hI.ok h hh
    have hs := hok.held_sie t ht
    have hsafe := hI.safe h hh
    rw [hcode] at hsafe
    have hp := (safe_pre hsafe hok).1
    -- what is left of the program, with no more switches to come than before
    have hrest : ∀ r {σ1 : State} {vs1 : ℕ → View}, ReflTransGen (Solo cfg h) σ σ1 →
        Inv cfg σ1 vs1 → (σ1.harts h).code = f r → (vs1 h).k.held = some t →
        (vs1 h).k.switches t ≤ n → ∃ σ', ReflTransGen (Solo cfg h) σ σ' ∧
          σ'.mem (.cell (.isLocked (.gTasks t))) = (0 : I32) := by
      intro r σ1 vs1 hs1 hI1 hcode1 ht1 hn1
      rcases Nat.lt_or_eq_of_le hn1 with hlt | heq
      · obtain ⟨σ', hσ, hm⟩ := ihn _ hlt _ hI1 hcode1 ht1 rfl
        exact ⟨σ', hs1.trans hσ, hm⟩
      · obtain ⟨σ', hσ, hm⟩ := ih r hI1 hcode1 ht1 heq
        exact ⟨σ', hs1.trans hσ, hm⟩
    have hlower : ∀ {σ1 : State} {vs1 : ℕ → View}, Solo cfg h σ σ1 → Inv cfg σ1 vs1 →
        (vs1 h).k.held = some t → (vs1 h).k.switches t < n → ∃ σ',
          ReflTransGen (Solo cfg h) σ σ' ∧
            σ'.mem (.cell (.isLocked (.gTasks t))) = (0 : I32) := by
      intro σ1 vs1 hs1 hI1 ht1 hlt
      obtain ⟨σ', hσ, hm⟩ := ihn _ hlt _ hI1 rfl ht1 rfl
      exact ⟨σ', hσ.head hs1, hm⟩
    by_cases hsimple : Op.simple o = true
    · obtain ⟨r, σ1, vs1, hs1, hI1, _, _, hp1, hk1⟩ := hI.solo hh hs hcode hsimple
      rcases held_after hp ht r with ht1 | hw
      · refine hrest r (.single hs1) hI1 (congrArg Hart.code hp1.hart_eq) (hk1 ▸ ht1) ?_
        rw [hk1, ← hn]
        exact switches_after hp ht r
      · refine ⟨σ1, .single hs1, ?_⟩
        rw [hp1.mem, hw]
        exact Mem.set_self σ.mem (.cell (.isLocked (.gTasks t))) (0 : I32)
    cases o with
    | loop l =>
      have hl := conditional_of_held hp ht (hok.held_opened t ht)
      cases l with
      | store c x => exact hI.drain_store hh ht hcode hp
      | atomic_store sz a x =>
        obtain ⟨σ1, vs1, hs1, hI1, hcode1, hk1⟩ := hI.solo_atomic_store hh hs hcode
        exact hrest () hs1 hI1 hcode1 (hk1 ▸ ht) (by rw [hk1, hn])
      | cmp_xchg sz a x y =>
        obtain ⟨r, σ1, vs1, hs1, hI1, hcode1, hk1⟩ := hI.solo_cmp_xchg hh hs hcode
        exact hrest r hs1 hI1 hcode1 (hk1 ▸ ht) (by rw [hk1, hn])
      | _ => cases hl
    | call_switch_to s old new =>
      obtain ⟨σ1, vs1, hs1, hI1, ht1, hlt⟩ := hI.solo_call hh hs hcode ht
      exact hlower hs1 hI1 ht1 (hn ▸ hlt)
    | ret old new =>
      obtain ⟨σ1, vs1, hs1, hI1, ht1, hlt⟩ := hI.solo_ret hh hs hcode ht
      exact hlower hs1 hI1 ht1 (hn ▸ hlt)
    | panic p => exact hp.elim
    | crash => exact hp.elim
    | _ => exact absurd rfl hsimple

end GQuuuuuunix.Proof
