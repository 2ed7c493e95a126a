import GQuuuuuunix.Proof.Ticks
import GQuuuuuunix.Kernel.Start

/-! # Ticks are counted once

The pending bit of a hart is cleared after `yield`. A hart that takes its interrupt again before
that counts one tick twice. -/

namespace GQuuuuuunix.Properties
open Lib Kernel Proof
set_option autoImplicit false

variable {cfg : Config} {σ σ' : State} {vs vs' : ℕ → View} {tr : Trace} {e : Event} {h : ℕ}

/-! ## Interrupts that are not acknowledged -/

theorem unacked_trapped {x : State × Event} (hx : trapped h x = true) :
    unacked h (x :: tr) = true := by
  have ht : interruptTurn h x = some true := if_pos hx
  simp only [unacked, List.findSome?_cons, ht, Option.getD_some]

theorem unacked_w_sip {x : State × Event} {y : U64} (hx : trapped h x = false)
    (hp : performed x = some (h, .w_sip y)) : unacked h (x :: tr) = false := by
  have ht : interruptTurn h x = some false := by
    unfold interruptTurn
    rw [if_neg (by simp [hx]), hp]
    exact if_pos rfl
  simp only [unacked, List.findSome?_cons, ht, Option.getD_some]

theorem unacked_other {x : State × Event} (hx : trapped h x = false)
    (hp : ∀ y, performed x ≠ some (h, .w_sip y)) : unacked h (x :: tr) = unacked h tr := by
  have ht : interruptTurn h x = none := by
    unfold interruptTurn
    rw [if_neg (by simp [hx])]
    split
    · next h' y hy =>
      exact if_neg fun hh => hp y (by rw [hy, hh])
    · rfl
  simp only [unacked, List.findSome?_cons, ht]

/-- No hart takes its interrupt before it has acknowledged the last one it took. -/
def Acknowledged (tr : Trace) (σ : State) (e : Event) : Prop :=
  ∀ h, trapped h (σ, e) = true → unacked h tr = false

/-! ## Traps, entries, the clock -/

/-- Every trap, and a tick that is pending and was not taken yet, comes from its own `timer_vec`. -/
theorem traps_le_fired (hg : GRun cfg tr σ vs) (hC : Along Acknowledged tr) (hh : h < cfg.harts) :
    tr.countP (trapped h) + ((σ.harts h).ssip && !unacked h tr).toNat ≤ tr.countP (fired h) := by
  induction hg with
  | boot hb =>
    rw [(hb.harts h hh).ssip]
    exact le_rfl
  | @step tr σ σ' vs vs' e hg hI hm hI' ih =>
    replace ih := ih hC.2
    rw [List.countP_cons, List.countP_cons]
    cases hx : trapped h (σ, e) with
    | true =>
      have hu := hC.1 h hx
      have hs : (σ.harts h).ssip = true := by
        cases hm.phase hI h with
        | trap _ hs _ _ => exact hs
        | op hf _ => rw [hx] at hf; cases hf
        | still hf => rw [hx] at hf; cases hf
        | switched hf => rw [hx] at hf; cases hf
      rw [hs, hu] at ih
      rw [unacked_trapped hx, Bool.not_true, Bool.and_false]
      simp only [Bool.true_and, Bool.not_false, Bool.toNat_true, Bool.toNat_false, if_true] at ih ⊢
      omega
    | false =>
      rw [if_neg Bool.false_ne_true]
      obtain ⟨hf, _⟩ | ⟨y, hp, _, hs⟩ | ⟨_, hp, hs⟩ := hm.ssip h
      · rw [if_pos hf]
        have hle := Bool.toNat_le ((σ'.harts h).ssip && !unacked h ((σ, e) :: tr))
        omega
      · rw [hs, Bool.false_and, Bool.toNat_false]
        omega
      · rw [hs, unacked_other hx hp]
        omega

/-- Every entry, and a trap on its way to the entry, is a trap of its own. -/
theorem entered_le_trapped (hg : GRun cfg tr σ vs) (h : ℕ) :
    tr.countP (entered h) + (decide ((vs h).k.trap = .entered)).toNat ≤
      tr.countP (trapped h) := by
  induction hg with
  | boot hb => exact le_rfl
  | @step tr σ σ' vs vs' e hg hI hm hI' ih =>
    rw [List.countP_cons, List.countP_cons]
    cases hm.phase hI h with
    | trap hx hs hk hk' =>
      rw [if_pos hx, hk', show (vs h).k.trapAt.trap = .entered from rfl,
        not_entered (by rw [trapped_performed hx]; simp)]
      simp only [decide_true, Bool.toNat_true, Bool.false_eq_true, if_false]
      omega
    | @op o r hx hp hpre hk' =>
      rw [hx, hk', Ghost.after_trap]
      by_cases ho : o = .point .software_interrupt
      · subst ho
        have hk : (vs h).k.trap = .entered := hpre
        have hne : Op.trap (vs h).k (.point .software_interrupt) ≠ .entered := by
          show (if (vs h).k.hart = 0 then TrapPhase.gticks_due else .counted) ≠ _
          split <;> simp
        rw [decide_eq_true hk] at ih
        rw [entered_iff.2 hp, decide_eq_false hne]
        simp only [Bool.toNat_true, Bool.toNat_false, if_true, Bool.false_eq_true, if_false] at ih ⊢
        omega
      · rw [not_entered (by rw [hp]; simpa using ho)]
        have himp : Op.trap (vs h).k o = .entered → (vs h).k.trap = .entered := by
          unfold Op.trap
          split <;> intro ht
          · cases ht
          · split at ht
            · exact ht
            · cases ht
          · cases ht
          · exact absurd rfl ho
          · cases ht
          · exact ht
        by_cases ht : Op.trap (vs h).k o = .entered
        · rw [decide_eq_true (himp ht)] at ih
          rw [decide_eq_true ht]
          simp only [Bool.false_eq_true, if_false]
          exact ih
        · rw [decide_eq_false ht]
          simp only [Bool.false_eq_true, if_false, Bool.toNat_false]
          omega
    | still hx hk' _ hp =>
      rw [hx, hk', not_entered]
      · exact ih
      · rcases hp with hp | ⟨g, o, hp, hs⟩
        · rw [hp]
          simp
        · rw [hp]
          rintro ⟨⟩
          cases hs rfl
    | switched hx _ hp hr =>
      rw [hx, not_entered (by rw [hp]; simp)]
      have hne : (vs' h).k.trap ≠ .entered := by
        rcases hr.trap with ht | ht <;> rw [ht] <;> simp
      rw [decide_eq_false hne]
      simp only [Bool.false_eq_true, if_false, Bool.toNat_false]
      omega

theorem countP_entered_le {x : State × Event} :
    tr.countP (entered h) ≤ (x :: tr).countP (entered h) := by
  rw [List.countP_cons]
  exact Nat.le_add_right _ _

theorem countP_entered {x : State × Event}
    (hp : performed x = some (h, .point .software_interrupt)) :
    (x :: tr).countP (entered h) = tr.countP (entered h) + 1 := by
  rw [List.countP_cons, if_pos (entered_iff.2 hp)]

/-- `gticks` counts the entries on hart 0. -/
theorem gticks_le_entered (hg : GRun cfg tr σ vs) :
    (σ.mem .gticks).toNat + (decide ((vs 0).k.trap = .gticks_due)).toNat ≤
      tr.countP (entered 0) := by
  induction hg with
  | boot hb =>
    rw [hb.mem]
    exact le_rfl
  | @step tr σ σ' vs vs' e hg hI hm hI' ih =>
    have hle : tr.countP (entered 0) ≤ ((σ, e) :: tr).countP (entered 0) := countP_entered_le
    obtain ⟨hmem, hno⟩ | ⟨g, x, hh, hp, hpre, hmem⟩ := hm.stored (l := .gticks) rfl hI
    · rw [hmem]
      by_cases hk : (vs' 0).k.trap = .gticks_due
      · rw [decide_eq_true hk, Bool.toNat_true]
        obtain hp | ⟨y, hy, _⟩ | ⟨hk', _⟩ := (hm.phase hI 0).due (Or.inl rfl) hk
        · rw [countP_entered hp]
          omega
        · cases hy
        · rw [decide_eq_true hk', Bool.toNat_true] at ih
          omega
      · rw [decide_eq_false hk, Bool.toNat_false]
        omega
    · obtain ⟨hg0, hk, hx⟩ := hpre
      rw [(hI.hart g hh).hart] at hg0
      subst hg0
      have hown : σ.mem .gticks = (vs 0).m.mem .gticks :=
        hI.owned 0 hh .gticks (hI.hart 0 hh).hart
      have hk' : (vs' 0).k.trap ≠ .gticks_due := by
        intro hk'
        obtain hp' | ⟨y, hy, _⟩ | ⟨_, hno, _⟩ := (hm.phase hI 0).due (Or.inl rfl) hk'
        · rw [hp] at hp'
          cases hp'
        · cases hy
        · exact hno x hp
      rw [decide_eq_true hk, Bool.toNat_true] at ih
      rw [hmem, hx, ← hown, decide_eq_false hk', Bool.toNat_false, BitVec.toNat_add]
      have hmod := Nat.mod_le ((σ.mem .gticks).toNat + (1 : U64).toNat) (2 ^ 64)
      have h1 : (1 : U64).toNat = 1 := rfl
      omega

/-- `time.data` advances by `TICKS` for an entry on hart 0. -/
theorem time_le_entered (hg : GRun cfg tr σ vs) :
    (σ.mem .time_data).toNat + TICKS.toNat *
      (decide ((vs 0).k.trap = .gticks_due ∨ (vs 0).k.trap = .time_due)).toNat ≤
      TICKS.toNat * tr.countP (entered 0) := by
  induction hg with
  | boot hb =>
    rw [hb.mem]
    exact le_rfl
  | @step tr σ σ' vs vs' e hg hI hm hI' ih =>
    have hle : TICKS.toNat * tr.countP (entered 0) ≤
        TICKS.toNat * ((σ, e) :: tr).countP (entered 0) :=
      Nat.mul_le_mul_left TICKS.toNat countP_entered_le
    by_cases hent : performed (σ, e) = some (0, .point .software_interrupt)
    · have hmem : σ'.mem .time_data = σ.mem .time_data := by
        obtain ⟨hmem, _⟩ | ⟨g, x, _, hp, _⟩ := hm.stored (l := .time_data) rfl hI
        · exact hmem
        · rw [hp] at hent
          cases hent
      have hb := Nat.mul_le_mul_left TICKS.toNat
        (Bool.toNat_le (decide ((vs' 0).k.trap = .gticks_due ∨ (vs' 0).k.trap = .time_due)))
      rw [hmem, countP_entered hent, Nat.mul_add]
      omega
    have hdue : (vs' 0).k.trap = .gticks_due ∨ (vs' 0).k.trap = .time_due →
        ((vs 0).k.trap = .gticks_due ∨ (vs 0).k.trap = .time_due) ∧
          ∀ y, (vs 0).k.stage ≠ .boot → performed (σ, e) ≠ some (0, .store .time_data y) := by
      intro hk
      obtain hp | ⟨y, _, hp⟩ | ⟨hk', _, hno⟩ := (hm.phase hI 0).due hk rfl
      · exact absurd hp hent
      · obtain ⟨_, hno⟩ | ⟨g, x, hh, hp', hpre, _⟩ := hm.stored (l := .gticks) rfl hI
        · exact absurd hp (hno 0 y)
        · rw [hp] at hp'
          cases hp'
          refine ⟨Or.inl hpre.2.1, fun y _ hy => ?_⟩
          rw [hp] at hy
          cases hy
      · rw [← hk'] at hk
        exact ⟨hk, hno⟩
    obtain ⟨hmem, hno⟩ | ⟨g, x, hh, hp, hpre, hmem⟩ := hm.stored (l := .time_data) rfl hI
    · rw [hmem]
      by_cases hk : (vs' 0).k.trap = .gticks_due ∨ (vs' 0).k.trap = .time_due
      · rw [decide_eq_true (hdue hk).1] at ih
        rw [decide_eq_true hk]
        omega
      · rw [decide_eq_false hk, Bool.toNat_false]
        omega
    · obtain ⟨hb, hx⟩ | ⟨hg0, hop, hk, hx⟩ := hpre
      · have h0 : (0 : U64).toNat = 0 := rfl
        rw [hmem, hx, h0]
        by_cases hk : (vs' 0).k.trap = .gticks_due ∨ (vs' 0).k.trap = .time_due
        · rw [decide_eq_true (hdue hk).1] at ih
          rw [decide_eq_true hk]
          omega
        · rw [decide_eq_false hk, Bool.toNat_false]
          omega
      · rw [(hI.hart g hh).hart] at hg0
        subst hg0
        have hown : σ.mem .time_data = (vs 0).m.mem .time_data :=
          hI.owned 0 hh .time_data (hI.hart 0 hh).hart
        have hnb : (vs 0).k.stage ≠ .boot := by rw [hop]; simp
        have hk' : ¬ ((vs' 0).k.trap = .gticks_due ∨ (vs' 0).k.trap = .time_due) :=
          fun hk' => (hdue hk').2 x hnb hp
        rw [decide_eq_true (Or.inr hk), Bool.toNat_true] at ih
        rw [hmem, hx, ← hown, decide_eq_false hk', Bool.toNat_false, BitVec.toNat_add]
        have hmod := Nat.mod_le ((σ.mem .time_data).toNat + TICKS.toNat) (2 ^ 64)
        omega

/-! ## Entries into the handler, and the clock, against the ticks -/

/-- While every interrupt is acknowledged before the next is taken, a hart enters the handler at
most once for a tick, and the clock does not run ahead of the ticks of hart 0. -/
theorem tick_counted_once (hr : Run (kernel cfg) tr σ) (hC : Along Acknowledged tr) :
    (∀ h < cfg.harts, tr.countP (entered h) ≤ tr.countP (fired h)) ∧
    (σ.mem .gticks).toNat ≤ tr.countP (fired 0) ∧
    (σ.mem .time_data).toNat ≤ TICKS.toNat * tr.countP (fired 0) := by
  obtain ⟨vs, hg⟩ := grun_of_run hr
  have hent : ∀ h < cfg.harts, tr.countP (entered h) ≤ tr.countP (fired h) := by
    intro h hh
    have h1 := entered_le_trapped hg h
    have h2 := traps_le_fired hg hC hh
    omega
  have h0 := hent 0 cfg.harts_pos
  refine ⟨hent, ?_, ?_⟩
  · have h1 := gticks_le_entered hg
    omega
  · have h1 := time_le_entered hg
    have h2 := Nat.mul_le_mul_left TICKS.toNat h0
    omega

/-! ## Two ticks, and one tick that is counted twice -/

/-- Whether every interrupt was acknowledged in time can be computed. -/
def acknowledged : Trace → Bool
  | [] => true
  | (σ, .hart h fail) :: tr =>
    (!trapped h (σ, .hart h fail) || !unacked h tr) && acknowledged tr
  | _ :: tr => acknowledged tr

theorem along_acknowledged : ∀ {tr : Trace}, acknowledged tr = true → Along Acknowledged tr
  | [], _ => trivial
  | (σ, .hart g fail) :: tr, hb => by
    obtain ⟨hx, htr⟩ := (Bool.and_eq_true _ _).mp hb
    refine ⟨fun h ht => ?_, along_acknowledged htr⟩
    have hg : g = h := by simpa using ((Bool.and_eq_true _ _).mp ht).1
    subst hg
    simpa [ht] using hx
  | (σ, .compute _ _ _) :: tr, hb => ⟨fun _ ht => (by cases ht), along_acknowledged hb⟩
  | (σ, .timer _) :: tr, hb => ⟨fun _ ht => (by cases ht), along_acknowledged hb⟩

/-- A tick is taken in the scheduler and acknowledged, and the next is taken in the first task. -/
theorem tick_counted_once_again : ∃ (tr : Trace) (σ : State),
    Run (kernel (.sample 1 (by decide) (by decide))) tr σ ∧
      tr.filterMap (interruptTurn 0) = [true, false, true] ∧ tr.countP (fired 0) = 2 ∧
      σ.mem .gticks = (2 : U64) ∧ tr.countP (entered 0) ≤ tr.countP (fired 0) ∧
      (σ.mem .gticks).toNat ≤ tr.countP (fired 0) := by
  obtain ⟨tr, σ, hr, hp⟩ := Run.of_start (.sample 1 (by decide) (by decide)) Layout.sample_apart
    (List.replicate 463 (.hart 0 false) ++ .timer 0 :: List.replicate 180 (.hart 0 false) ++
      .timer 0 :: List.replicate 80 (.hart 0 false))
    (fun x => acknowledged x.1 && x.1.filterMap (interruptTurn 0) == [true, false, true] &&
      x.1.countP (fired 0) == 2 && decide (x.2.mem .gticks = (2 : U64))) (by decide +kernel)
  simp only [Bool.and_eq_true, beq_iff_eq, decide_eq_true_eq] at hp
  obtain ⟨⟨⟨hC, hturns⟩, hf⟩, hg⟩ := hp
  obtain ⟨hent, hticks, _⟩ := tick_counted_once hr (along_acknowledged hC)
  exact ⟨tr, σ, hr, hturns, hf, hg, hent 0 Nat.one_pos, hticks⟩

/-- The first task yields before the tick is acknowledged, the second is started by `dummy_task`,
turns interrupts on, and counts the tick again. -/
theorem tick_counted_twice : ∃ (tr : Trace) (σ : State),
    Run (kernel (.sample 1 (by decide) (by decide))) tr σ ∧ tr.countP (fired 0) = 1 ∧
      tr.countP (entered 0) = 2 ∧ σ.mem .gticks = (2 : U64) ∧
      σ.mem .time_data = 2 * TICKS := by
  obtain ⟨tr, σ, hr, hp⟩ := Run.of_start (.sample 1 (by decide) (by decide)) Layout.sample_apart
    (List.replicate 585 (.hart 0 false) ++ .timer 0 :: List.replicate 345 (.hart 0 false))
    (fun x => x.1.countP (fired 0) == 1 && x.1.countP (entered 0) == 2 &&
      decide (x.2.mem .gticks = (2 : U64)) && decide (x.2.mem .time_data = 2 * TICKS))
    (by decide +kernel)
  simp only [Bool.and_eq_true, beq_iff_eq, decide_eq_true_eq] at hp
  exact ⟨tr, σ, hr, hp.1.1.1, hp.1.1.2, hp.1.2, hp.2⟩

end GQuuuuuunix.Properties
