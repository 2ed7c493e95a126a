import GQuuuuuunix.Proof.Barrier
import GQuuuuuunix.Kernel.Start
import Mathlib.Data.Set.Card

/-! # A hart that owns a lock is not interrupted -/

namespace GQuuuuuunix.Properties
open Lib Kernel Proof
set_option autoImplicit false

variable {cfg : Config} {σ σ' : State} {vs vs' : ℕ → View} {tr : Trace} {e : Event} {h : ℕ}

/-- A hart has taken exactly the lock it has in hand. -/
def Taken (cfg : Config) (tr : Trace) (vs : ℕ → View) : Prop :=
  ∀ h < cfg.harts, ∀ p, hasTaken h p tr = true ↔ ∃ t, p = .gTasks t ∧ (vs h).k.held = some t

theorem Taken.frame (hJ : Taken cfg tr vs) {x : State × Event}
    (hn : ∀ h p, lockTurn h p x = none) (hk : ∀ h, (vs' h).k.held = (vs h).k.held) :
    Taken cfg (x :: tr) vs' := by
  intro h hh p
  rw [hasTaken_none (hn h p), hk h]
  exact hJ h hh p

theorem Taken.still (hJ : Taken cfg tr vs) (hq : quiet (σ, e)) (hm : Move cfg σ vs e σ' vs') :
    Taken cfg ((σ, e) :: tr) vs' := by
  refine hJ.frame (fun h p => lockTurn_eq_none (fun c v hp => ?_) fun c v hp => ?_)
    fun h => ((hm.still hq).same h).held
  · rcases hq with hq | ⟨_, _, hq⟩ <;> rw [hp] at hq <;> cases hq
  · rcases hq with hq | ⟨_, _, hq⟩ <;> rw [hp] at hq <;> cases hq

section
variable {o : Op} {r : o.Ret} {fail : Bool} {c : Code} {w : View}

/-- What the performing hart has taken, and what the others have. -/
theorem Taken.update (hJ : Taken cfg tr vs)
    (hw : ∀ p, hasTaken h p ((σ, .hart h fail) :: tr) = true ↔
      ∃ t, p = .gTasks t ∧ w.k.held = some t) :
    Taken cfg ((σ, .hart h fail) :: tr) (Function.update vs h w) := by
  intro h' hh' p
  by_cases hne : h' = h
  · rw [hne, Function.update_self]
    exact hw p
  · rw [Function.update_of_ne hne, hasTaken_none]
    · exact hJ h' hh' p
    · exact if_neg (Ne.symm hne)

theorem Taken.op (hJ : Taken cfg tr vs) (hh : h < cfg.harts)
    (hn : σ.next h = some o) (hp : Pre cfg o (vs h))
    (hx : Performed σ h fail o r c σ') (hg : Goes cfg σ' o r (vs h) w) :
    Taken cfg ((σ, .hart h fail) :: tr) (Function.update vs h w) := by
  refine hJ.update fun p => ?_
  have hold := hJ h hh p
  rw [hg.k]
  by_cases ha : ∃ c v, o = .amoswap c v
  · obtain ⟨cl, v, rfl⟩ := ha
    obtain ⟨t, rfl, _, hpre⟩ := hp
    have hr : r = σ.mem (.cell (.isLocked (.gTasks t))) := hx.answer
    have hturn := lockTurn_amoswap (p := p) fail hn
    show _ ↔ ∃ t', p = .gTasks t' ∧
      (if r = (0 : I32) then (vs h).k.take t else (vs h).k).held = some t'
    rw [hpre.held] at hold
    by_cases h0 : r = (0 : I32)
    · rw [if_pos h0]
      rw [← hr] at hturn
      by_cases hc : p = .gTasks t
      · rw [if_pos ⟨by rw [hc], h0⟩] at hturn
        rw [hasTaken_some hturn]
        exact ⟨fun _ => ⟨t, hc, rfl⟩, fun _ => rfl⟩
      · rw [if_neg fun hx => hc (Cell.isLocked.inj hx.1).symm] at hturn
        rw [hasTaken_none hturn, hold]
        refine ⟨fun ⟨_, _, hx⟩ => (by cases hx), fun ⟨t', hpt, ht'⟩ => ?_⟩
        cases ht'
        exact absurd hpt hc
    · rw [if_neg h0]
      rw [← hr, if_neg fun hx => h0 hx.2] at hturn
      rw [hasTaken_none hturn, hold, hpre.held]
  by_cases hs : ∃ c v, o = .sc c v
  · obtain ⟨cl, v, rfl⟩ := hs
    have hr := sc_answer hx.answer
    have hturn := lockTurn_sc (p := p) fail hn
    obtain ⟨t, rfl, _, hpre⟩ | ⟨rfl, _, _, hst, _⟩ := hp
    · show _ ↔ ∃ t', p = .gTasks t' ∧
        (if r = (0 : I32) then (vs h).k.drop else (vs h).k).held = some t'
      rw [hpre.held] at hold
      by_cases h0 : r = (0 : I32)
      · rw [if_pos h0]
        by_cases hc : p = .gTasks t
        · rw [if_pos ⟨by rw [hc], hr.1 h0⟩] at hturn
          rw [hasTaken_some hturn]
          exact ⟨fun hx => (by cases hx), fun ⟨_, _, hx⟩ => (by cases hx)⟩
        · rw [if_neg fun hx => hc (Cell.isLocked.inj hx.1).symm] at hturn
          rw [hasTaken_none hturn, hold]
          refine ⟨fun ⟨t', hpt, ht'⟩ => ?_, fun ⟨_, _, hx⟩ => (by cases hx)⟩
          cases ht'
          exact absurd hpt hc
      · rw [if_neg h0]
        rw [if_neg fun hx => h0 (hr.2 hx.2)] at hturn
        rw [hasTaken_none hturn, hold, hpre.held]
    · rw [if_neg fun hx => (by cases hx.1)] at hturn
      rw [hasTaken_none hturn, hold]
      show _ ↔ ∃ t', p = .gTasks t' ∧
        (if r = (0 : I32) then (vs h).k.pass else (vs h).k).held = some t'
      split <;> rfl
  · rw [Ghost.after_held (fun _ _ he => ha ⟨_, _, he⟩) (fun _ _ he => hs ⟨_, _, he⟩),
      hasTaken_none, hold]
    have hpf : performed (σ, .hart h fail) = some (h, o) := by
      show (σ.next h).map _ = _
      rw [hn]
      rfl
    refine lockTurn_eq_none (fun c v hx => ha ⟨c, v, ?_⟩) fun c v hx => hs ⟨c, v, ?_⟩
    · rw [hpf] at hx
      exact (Prod.mk.inj (Option.some.inj hx)).2
    · rw [hpf] at hx
      exact (Prod.mk.inj (Option.some.inj hx)).2

end

theorem Returns.held {s : SwitchSite} {en : I32} {t : Slot} {k : Ghost}
    (hr : Returns cfg s h en t k) : k.held = some t := by
  cases hr <;> rfl

theorem Taken.move (hJ : Taken cfg tr vs) (hm : Move cfg σ vs e σ' vs') :
    Taken cfg ((σ, e) :: tr) vs' := by
  have hm' := hm
  cases hm with
  | op hh hi hcode hs hp hx hgo => exact hJ.op hh (next_eq hi hcode) hp hx hgo
  | call hh hi hcode hk =>
    refine hJ.frame (fun h p => lockTurn_eq_none (fun c v hx => ?_) fun c v hx => ?_)
      (update_field Ghost.held ?_)
    · rw [performed_eq hi hcode] at hx
      cases hx
    · rw [performed_eq hi hcode] at hx
      cases hx
    · rw [View.called, hk]
      rfl
  | ret hh hi hcode hk hsaved hw =>
    refine hJ.frame (fun h p => lockTurn_eq_none (fun c v hx => ?_) fun c v hx => ?_)
      (update_field Ghost.held ?_)
    · rw [performed_eq hi hcode] at hx
      cases hx
    · rw [performed_eq hi hcode] at hx
      cases hx
    · rw [Returns.held hw, hk]
      rfl
  | loop hh hi hcode => exact hJ.still (quiet_loop hi hcode) hm'
  | trap hh hi hsie => exact hJ.still (quiet_trap hi) hm'
  | compute hh => exact hJ.still (Or.inl rfl) hm'
  | timer hh => exact hJ.still (Or.inl rfl) hm'

theorem taken_boot : Taken cfg [] (bootViews σ) :=
  fun _ _ _ => ⟨fun hx => (by cases hx), fun ⟨_, _, hx⟩ => (by cases hx)⟩

theorem taken (hg : GRun cfg tr σ vs) : Taken cfg tr vs := by
  induction hg with
  | boot hb => exact taken_boot
  | step _ _ hm _ ih => exact ih.move hm

/-! ## The locks a hart owns -/

/-- The spin locks that are taken and whose `cpu` is hart `h`. -/
def owned (σ : State) (h : ℕ) : Set TaskPtr :=
  {p | σ.mem (.cell (.isLocked p)) = (1 : I32) ∧ σ.mem (.lk_cpu p) = some h}

theorem Inv.owned_eq (hI : Inv cfg σ vs) (hh : h < cfg.harts) :
    owned σ h = {p | ∃ t, p = .gTasks t ∧ (vs h).k.held = some t ∧ (vs h).k.own = true} := by
  ext p
  by_cases hop : (vs 0).k.stage = .opened
  · cases p with
    | static j =>
      refine ⟨fun hx => ?_, fun ⟨t, hx, _⟩ => (by cases hx)⟩
      have hx' := hx.2
      rw [hI.closed _ (Or.inr ⟨j, rfl⟩)] at hx'
      cases hx'
    | gTasks t =>
      have hl := (hI.table hop).lock t
      refine ⟨fun hx => ⟨t, rfl, ((hl.lk_cpu h).1 hx.2).2⟩, fun ⟨t', ht', hheld, hown⟩ => ?_⟩
      cases ht'
      exact ⟨hl.held h hh hheld, (hl.lk_cpu h).2 ⟨hh, hheld, hown⟩⟩
  · refine ⟨fun hx => ?_, fun ⟨t, _, hheld, _⟩ => ?_⟩
    · have hx' := hx.2
      rw [hI.closed _ (Or.inl hop)] at hx'
      cases hx'
    · exact absurd (hI.opened h hh ((hI.ok h hh).held_opened t hheld)) hop

/-- Outside `acquire`, `release` and the atomic operations `off_nrs` is the number of locks the
hart owns, which is 0 or 1; while it is positive interrupts are off; and a hart that has taken a
lock and not cleared it does not take its interrupt. -/
theorem lock_owner_masked (hr : Run (kernel cfg) tr σ) (hh : h < cfg.harts) :
    (inside (σ.harts h).calls = false →
      (owned σ h).encard = ((σ.mem (.off_nrs h) : I32).toNat : ℕ∞) ∧ (owned σ h).encard ≤ 1) ∧
    (0 < (σ.mem (.off_nrs h) : I32).toInt → sie (σ.harts h).sstatus = false) ∧
    ∀ p, hasTaken h p tr = true → (σ.harts h).interrupted = false := by
  obtain ⟨vs, hg⟩ := grun_of_run hr
  have hI := hg.inv
  have hok := hI.ok h hh
  have hx := hI.hart h hh
  have hoff : σ.mem (.off_nrs h) = (vs h).k.off := by
    have hc := (hI.cpu h hh).off_nrs
    rwa [hx.hart] at hc
  have hsie : sie (σ.harts h).sstatus = (vs h).k.sie := by rw [hx.sstatus, hok.sie_eq]
  refine ⟨fun hin => ?_, fun hpos => ?_, fun p htaken => ?_⟩
  · rw [hx.calls] at hin
    obtain ⟨hbal, hown⟩ := hok.balanced hin
    rw [Inv.owned_eq hI hh, hoff, hbal]
    cases hheld : (vs h).k.held with
    | none =>
      have hempty : {p : TaskPtr | ∃ t, p = .gTasks t ∧ (none : Option Slot) = some t ∧
          (vs h).k.own = true} = ∅ := by
        ext p
        exact ⟨fun ⟨_, _, hx, _⟩ => (by cases hx), fun hx => hx.elim⟩
      rw [hempty, Set.encard_empty]
      exact ⟨rfl, zero_le_one⟩
    | some t =>
      have hone : {p : TaskPtr | ∃ t', p = .gTasks t' ∧ some t = some t' ∧
          (vs h).k.own = true} = {.gTasks t} := by
        ext p
        refine ⟨fun ⟨t', hp, ht, _⟩ => ?_, fun hp => ⟨t, hp, rfl, hown (by rw [hheld]; rfl)⟩⟩
        cases ht
        exact hp
      rw [hone, Set.encard_singleton]
      exact ⟨rfl, le_refl 1⟩
  · rw [hsie]
    by_contra hs
    rw [hoff, (hok.sie_ok (by simpa using hs)).off] at hpos
    exact absurd hpos (by decide)
  · obtain ⟨t, _, hheld⟩ := (taken hg h hh p).1 htaken
    have hs := hok.held_sie t hheld
    unfold Hart.interrupted
    rw [hsie, hs]
    rfl

/-- The scheduler of the only hart, about to switch to the first task. -/
theorem lock_owner_masked_dispatch : ∃ (tr : Trace) (σ : State),
    Run (kernel (.sample 1 (by decide) (by decide))) tr σ ∧
      hasTaken 0 (.gTasks 0) tr = true ∧ (σ.harts 0).interrupted = false ∧
      (owned σ 0).encard = ((σ.mem (.off_nrs 0) : I32).toNat : ℕ∞) := by
  obtain ⟨tr, σ, hr, hp⟩ := Run.of_start (.sample 1 (by decide) (by decide)) Layout.sample_apart
    (List.replicate 508 (.hart 0 false))
    (fun x => hasTaken 0 (.gTasks 0) x.1 && !inside (x.2.harts 0).calls) (by decide +kernel)
  obtain ⟨htaken, hin⟩ := (Bool.and_eq_true _ _).mp hp
  obtain ⟨hoff, _, hint⟩ := lock_owner_masked hr Nat.one_pos
  exact ⟨tr, σ, hr, htaken, hint _ htaken, (hoff (by simpa using hin)).1⟩

end GQuuuuuunix.Properties
