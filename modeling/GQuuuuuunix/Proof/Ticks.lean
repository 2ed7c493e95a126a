import GQuuuuuunix.Proof.Adequacy
import GQuuuuuunix.Kernel.History

/-! # The software interrupt of a hart in the history of a run

What a step makes of the pending bit of a hart, and of how far the hart is in handling its
interrupt. -/

namespace GQuuuuuunix.Proof
open Lib Kernel
set_option autoImplicit false

variable {cfg : Config} {σ σ' : State} {vs vs' : ℕ → View} {tr : Trace} {e : Event} {h : ℕ}

/-! ## How far the interrupt is handled -/

/-- How far a trap is handled after an operation. -/
def Op.trap (k : Ghost) : Op → TrapPhase
  | .store .gticks _ => .time_due
  | .store .time_data _ => if k.stage = .boot then k.trap else .counted
  | .w_sip _ => .acked
  | .point .software_interrupt => if k.hart = 0 then .gticks_due else .counted
  | .sret _ => .idle
  | _ => k.trap

theorem Ghost.after_trap_eq {k : Ghost} {o : Op} (hst : ∀ l x, o ≠ .store l x)
    (hw : ∀ x, o ≠ .w_sip x) (hp : o ≠ .point .software_interrupt) (hs : ∀ s, o ≠ .sret s)
    (r : o.Ret) : (k.after o r).trap = k.trap := by
  unfold Ghost.after
  split <;> try rfl
  · split
    · split <;> rfl
    · rfl
  · split <;> rfl
  · split <;> rfl
  · exact absurd rfl (hst _ _)
  · exact absurd rfl (hst _ _)
  · split <;> rfl
  · split <;> rfl
  · split <;> rfl
  · split <;> rfl
  · exact absurd rfl (hw _)
  · exact absurd rfl hp
  · exact absurd rfl (hs _)

theorem Ghost.after_trap (k : Ghost) (o : Op) (r : o.Ret) : (k.after o r).trap = Op.trap k o := by
  cases o with
  | store l x =>
    cases l <;> try rfl
    all_goals
      show (if k.stage = .boot then _ else _ : Ghost).trap = _
      first
        | rfl
        | (unfold Op.trap; split <;> rfl)
  | w_sip x => rfl
  | point p =>
    cases p <;> rfl
  | sret s => rfl
  | _ => exact Ghost.after_trap_eq (by simp) (by simp) (by simp) (by simp) r

/-- Outside a trap no operation goes on with one. -/
theorem Op.trap_idle {v : View} {o : Op} (hp : Pre cfg o v) (hi : v.k.trap = .idle) :
    Op.trap v.k o = .idle := by
  unfold Op.trap
  split
  · obtain ⟨_, ht, _⟩ := hp
    rw [hi] at ht
    cases ht
  · obtain ⟨hb, _⟩ | ⟨_, _, ht, _⟩ := hp
    · rw [if_pos hb, hi]
    · rw [hi] at ht
      cases ht
  · obtain ⟨_, ht⟩ := hp
    rw [hi] at ht
    cases ht
  · have ht : v.k.trap = .entered := hp
    rw [hi] at ht
    cases ht
  · rfl
  · exact hi

/-- What a step does to the interrupt of hart `h`. -/
inductive Phase (cfg : Config) (h : ℕ) (x : State × Event) (v v' : View) : Prop where
  | trap : trapped h x = true → (x.1.harts h).ssip = true → v.k.trap = .idle →
      v'.k = v.k.trapAt → Phase cfg h x v v'
  | op {o : Op} {r : o.Ret} : trapped h x = false → performed x = some (h, o) → Pre cfg o v →
      v'.k = v.k.after o r → Phase cfg h x v v'
  | still : trapped h x = false → v'.k.trap = v.k.trap → v'.k.calls = v.k.calls →
      (performed x = none ∨ ∃ g o, performed x = some (g, o) ∧ (g = h → Op.simple o = false)) →
      Phase cfg h x v v'
  | switched {s : SwitchSite} {e : I32} {t : Slot} : trapped h x = false →
      v.k.trap = .idle ∨ v.k.trap = .counted →
      performed x = some (h, .ret (oldCtx s h t) (newCtx s h t)) →
      Returns cfg s h e t v'.k →
      (v'.k.trap ≠ .idle → (x.1.harts h).regs .ra ≠ cfg.layout.dummy_task) → Phase cfg h x v v'

theorem trapped_eq_false {fail : Bool} {g : ℕ} (hi : (σ.harts g).interrupted = false) :
    trapped h (σ, .hart g fail) = false := by
  show (g == h && (σ.harts g).interrupted) = false
  rw [hi, Bool.and_false]

theorem Move.phase (hI : Inv cfg σ vs) (hm : Move cfg σ vs e σ' vs') (h : ℕ) :
    Phase cfg h (σ, e) (vs h) (vs' h) := by
  cases hm with
  | @trap g fail hh hi hsie =>
    by_cases hg : g = h
    · subst hg
      refine .trap (by simp [trapped, hi]) ((Bool.and_eq_true _ _).mp hi).2 ?_ ?_
      · exact ((hI.ok g hh).sie_ok hsie).trap
      · rw [Function.update_self]
        rfl
    · refine .still ?_ ?_ ?_ (Or.inl (performed_interrupted hi))
      · show (g == h && _) = false
        rw [beq_false_of_ne hg, Bool.false_and]
      all_goals rw [Function.update_of_ne (Ne.symm hg)]
  | @op g fail o f r w σ' hh hi hcode hs hp hx hgo =>
    by_cases hg : g = h
    · subst hg
      refine .op (r := r) (trapped_eq_false hi) (performed_eq hi hcode) hp ?_
      rw [Function.update_self]
      exact hgo.k
    · refine .still (trapped_eq_false hi) ?_ ?_ (Or.inr ⟨g, o, performed_eq hi hcode, ?_⟩)
      · rw [Function.update_of_ne (Ne.symm hg)]
      · rw [Function.update_of_ne (Ne.symm hg)]
      · exact fun hgh => absurd hgh hg
  | @loop g fail l f hh hi hcode =>
    exact .still (trapped_eq_false hi) rfl rfl (Or.inr ⟨g, _, performed_eq hi hcode, fun _ => rfl⟩)
  | @call g fail s en t fs f hh hi hcode hk =>
    refine .still (trapped_eq_false hi) ?_ ?_
      (Or.inr ⟨g, _, performed_eq hi hcode, fun _ => rfl⟩)
    · exact update_field Ghost.trap (by rw [View.called, hk]; rfl) h
    · exact update_field Ghost.calls (by rw [View.called, hk]; rfl) h
  | @ret g fail s en t fs ρ f w hh hi hcode hk hsaved hw hra =>
    by_cases hg : g = h
    · subst hg
      refine .switched (e := en) (trapped_eq_false hi) ?_ (performed_eq hi hcode) ?_ ?_
      · rw [hk]
        cases s
        · exact Or.inr rfl
        · exact Or.inl rfl
      all_goals rw [Function.update_self]
      · exact hw
      · exact hra
    · refine .still (trapped_eq_false hi) ?_ ?_
        (Or.inr ⟨g, _, performed_eq hi hcode, fun hgh => absurd hgh hg⟩)
      all_goals rw [Function.update_of_ne (Ne.symm hg)]
  | @compute g r pc hh =>
    have hk : ∀ g', (Function.update vs g { vs g with regs := r, pc := pc } g').k = (vs g').k :=
      update_field id rfl
    exact .still rfl (by rw [hk]) (by rw [hk]) (Or.inl rfl)
  | timer hh => exact .still rfl rfl rfl (Or.inl rfl)

/-- What `switch_to` returns to. -/
theorem Move.afterRet (hm : Move cfg σ vs e σ' vs') {old new : CtxPtr}
    (hp : performed (σ, e) = some (h, .ret old new)) :
    σ'.harts h = (σ.harts h).afterRet cfg.layout σ.parked := by
  cases hm with
  | trap hh hi _ =>
    rw [performed_interrupted hi] at hp
    cases hp
  | op hh hi hcode hs _ _ _ =>
    rw [performed_eq hi hcode] at hp
    cases hp
    cases hs
  | loop hh hi hcode =>
    rw [performed_eq hi hcode] at hp
    cases hp
  | call hh hi hcode _ =>
    rw [performed_eq hi hcode] at hp
    cases hp
  | ret hh hi hcode _ _ _ _ =>
    rw [performed_eq hi hcode] at hp
    cases hp
    exact Function.update_self h _ σ.harts
  | compute hh => cases hp
  | timer hh => cases hp

theorem fired_performed {x : State × Event} (hx : fired h x = true) : performed x = none := by
  obtain ⟨σ, e⟩ := x
  cases e with
  | timer g => rfl
  | _ => cases hx

theorem Returns.site {s : SwitchSite} {en : I32} {t : Slot} {k : Ghost}
    (hr : Returns cfg s h en t k) (hk : k.trap ≠ .idle) : s = .scheduler := by
  cases hr with
  | scheduler f _ => exact absurd rfl hk
  | sched f hs => exact hs
  | first hs => exact hs

theorem Returns.trap {s : SwitchSite} {en : I32} {t : Slot} {k : Ghost}
    (hr : Returns cfg s h en t k) : k.trap = .idle ∨ k.trap = .counted := by
  cases hr with
  | scheduler f _ => exact Or.inl rfl
  | sched f _ => exact Or.inr rfl
  | first _ => exact Or.inl rfl

/-- How a hart comes to have the clock to count. -/
theorem Phase.due {x : State × Event} {v v' : View} (hx : Phase cfg h x v v') {p : TrapPhase}
    (hp : p = .gticks_due ∨ p = .time_due) (hk : v'.k.trap = p) :
    performed x = some (h, .point .software_interrupt) ∨
    (∃ y, p = .time_due ∧ performed x = some (h, .store .gticks y)) ∨
    (v.k.trap = p ∧ (∀ y, performed x ≠ some (h, .store .gticks y)) ∧
      ∀ y, v.k.stage ≠ .boot → performed x ≠ some (h, .store .time_data y)) := by
  cases hx with
  | trap _ _ _ ht =>
    rw [ht, show v.k.trapAt.trap = .entered from rfl] at hk
    subst hk
    rcases hp with hp | hp <;> cases hp
  | @op o r _ hx _ hk' =>
    rw [hk', Ghost.after_trap] at hk
    rw [hx]
    unfold Op.trap at hk
    split at hk
    · next y _ => exact Or.inr (Or.inl ⟨y, hk.symm, rfl⟩)
    · next y _ =>
      split at hk
      · next hb => exact Or.inr (Or.inr ⟨hk, by simp, fun y hn => absurd hb hn⟩)
      · subst hk
        rcases hp with hp | hp <;> cases hp
    · subst hk
      rcases hp with hp | hp <;> cases hp
    · exact Or.inl rfl
    · subst hk
      rcases hp with hp | hp <;> cases hp
    · next hg ht _ _ _ =>
      refine Or.inr (Or.inr ⟨hk, fun y hy => ?_, fun y _ hy => ?_⟩)
      · cases hy
        exact hg _ rfl
      · cases hy
        exact ht _ rfl
  | still _ hk' _ hx =>
    rw [hk'] at hk
    refine Or.inr (Or.inr ⟨hk, fun y hy => ?_, fun y _ hy => ?_⟩)
    all_goals
      rcases hx with hx | ⟨g, o, hx, hs⟩ <;> rw [hx] at hy <;> cases hy
      cases hs rfl
  | switched _ _ _ hr =>
    rcases hr.trap with ht | ht <;> rw [ht] at hk <;> subst hk <;> rcases hp with hp | hp <;>
      cases hp

/-! ## The clock -/

/-- The words that only a plain store writes. -/
def Loc.plain : Loc → Bool
  | .cell _ | .stack _ | .context _ _ | .cpu_context _ _ => false
  | _ => true

theorem writes_plain {l : Loc} (hl : Loc.plain l = true) {ρ : Regs} {o : Op} {r : o.Ret} {x : l.Ty}
    (hw : Op.writes ρ o r = some ⟨l, x⟩) : o = .store l x := by
  cases o with
  | store l' y =>
    cases hw
    rfl
  | amoswap c y =>
    cases hw
    cases hl
  | sc c y =>
    obtain ⟨-, hcl⟩ := writes_sc hw
    cases hcl
    cases hl
  | sd y off =>
    cases hw
    cases hl
  | sd_ctx p y i =>
    cases p <;> cases hw <;> cases hl
  | _ => cases hw

/-- Such a word changes when a hart stores to it. -/
theorem Move.stored {l : Loc} (hl : Loc.plain l = true) (hI : Inv cfg σ vs)
    (hm : Move cfg σ vs e σ' vs') :
    (σ'.mem l = σ.mem l ∧ ∀ g x, performed (σ, e) ≠ some (g, .store l x)) ∨
    ∃ g x, g < cfg.harts ∧ performed (σ, e) = some (g, .store l x) ∧
      Pre cfg (.store l x) (vs g) ∧ σ'.mem l = x := by
  by_cases hq : quiet (σ, e)
  · refine Or.inl ⟨by rw [(hm.still hq).mem], fun g x hp => ?_⟩
    rcases hq with hq | ⟨_, _, hq⟩ <;> rw [hp] at hq <;> cases hq
  cases hm with
  | @op g fail o f r w σ' hh hi hcode hs hp hx hgo =>
    by_cases ho : ∃ x, o = .store l x
    · obtain ⟨x, rfl⟩ := ho
      refine Or.inr ⟨g, x, hh, performed_eq hi hcode, hp, ?_⟩
      rw [hx.mem]
      exact Mem.set_self σ.mem l x
    · refine Or.inl ⟨?_, fun g' x hp' => ?_⟩
      · exact hI.mem_of_ne hh hx fun y hy => ho ⟨y, writes_plain hl hy⟩
      · rw [performed_eq hi hcode] at hp'
        cases hp'
        exact ho ⟨x, rfl⟩
  | call hh hi hcode hk =>
    refine Or.inl ⟨rfl, fun g x hp => ?_⟩
    rw [performed_eq hi hcode] at hp
    cases hp
  | ret hh hi hcode hk hsaved hw =>
    refine Or.inl ⟨rfl, fun g x hp => ?_⟩
    rw [performed_eq hi hcode] at hp
    cases hp
  | trap hh hi _ => exact absurd (quiet_trap hi) hq
  | loop hh hi hcode => exact absurd (quiet_loop hi hcode) hq
  | compute hh => exact absurd (Or.inl rfl) hq
  | timer hh => exact absurd (Or.inl rfl) hq

/-! ## The pending bit -/

/-- Only `timer_vec` sets the bit of a hart, and only its `w_sip` clears it. -/
theorem Move.ssip (hm : Move cfg σ vs e σ' vs') (h : ℕ) :
    (fired h (σ, e) = true ∧ (σ'.harts h).ssip = true) ∨
    (∃ x, performed (σ, e) = some (h, .w_sip x) ∧ x.getLsbD 1 = false ∧
      (σ'.harts h).ssip = false) ∨
    (fired h (σ, e) = false ∧ (∀ x, performed (σ, e) ≠ some (h, .w_sip x)) ∧
      (σ'.harts h).ssip = (σ.harts h).ssip) := by
  have hkeep : ∀ {g : ℕ} {y : Hart} (τ : State), τ.harts = Function.update σ.harts g y →
      y.ssip = (σ.harts g).ssip → (τ.harts h).ssip = (σ.harts h).ssip := by
    intro g y τ hτ hy
    rw [hτ, Function.update_apply]
    split
    · next hg => rw [hg, hy]
    · rfl
  cases hm with
  | @trap g fail hh hi hsie =>
    refine Or.inr (Or.inr ⟨rfl, fun x hx => ?_, hkeep _ rfl rfl⟩)
    rw [performed_interrupted hi] at hx
    cases hx
  | @op g fail o f r w σ' hh hi hcode hs hp hx hgo =>
    by_cases hw : ∃ x, g = h ∧ o = .w_sip x
    · obtain ⟨x, rfl, rfl⟩ := hw
      refine Or.inr (Or.inl ⟨x, performed_eq hi hcode, hp.1, ?_⟩)
      rw [hx.harts, Function.update_self]
      exact hp.1
    · refine Or.inr (Or.inr ⟨rfl, fun x hx' => hw ⟨x, ?_⟩, ?_⟩)
      · rw [performed_eq hi hcode] at hx'
        cases hx'
        exact ⟨rfl, rfl⟩
      · rw [hx.harts, Function.update_apply]
        split
        · next hg =>
          subst hg
          cases o with
          | w_sip x => exact absurd ⟨x, rfl, rfl⟩ hw
          | _ => rfl
        · rfl
  | @loop g fail l f hh hi hcode =>
    refine Or.inr (Or.inr ⟨rfl, fun x hx => ?_, hkeep _ rfl rfl⟩)
    rw [performed_eq hi hcode] at hx
    cases hx
  | @call g fail s en t fs f hh hi hcode hk =>
    refine Or.inr (Or.inr ⟨rfl, fun x hx => ?_, hkeep _ rfl rfl⟩)
    rw [performed_eq hi hcode] at hx
    cases hx
  | @ret g fail s en t fs ρ f w hh hi hcode hk hsaved hw =>
    refine Or.inr (Or.inr ⟨rfl, fun x hx => ?_, hkeep _ rfl ?_⟩)
    · rw [performed_eq hi hcode] at hx
      cases hx
    · unfold Hart.afterRet
      split
      · rfl
      · split
        · split <;> rfl
        · rfl
  | @compute g r pc hh => exact Or.inr (Or.inr ⟨rfl, fun x hx => (by cases hx), hkeep _ rfl rfl⟩)
  | @timer g hh =>
    by_cases hg : g = h
    · subst hg
      refine Or.inl ⟨beq_self_eq_true g, ?_⟩
      have hbit : (σ.harts g).timerTrap.ssip = true := by simp [Hart.timerTrap]
      rwa [← Function.update_self g (σ.harts g).timerTrap σ.harts] at hbit
    · refine Or.inr (Or.inr ⟨beq_false_of_ne hg, fun x hx => (by cases hx), ?_⟩)
      show (Function.update σ.harts g _ h).ssip = _
      rw [Function.update_of_ne (Ne.symm hg)]

end GQuuuuuunix.Proof
