import GQuuuuuunix.Proof.TimerInterrupt

/-! # Ticks and timer interrupts of `02.TimerInterrupt`

The handler leaves the pending bit set, and `sret` takes the hart back into the trap that it has
just handled. -/

namespace GQuuuuuunix.Properties
open Lib Kernel Proof
set_option autoImplicit false

variable {cfg : TimerInterrupt.Config} {σ σ' : State} {tr : Trace} {e : Event}
  {ps ps' : ℕ → TimerInterrupt.Phase}

/-- Hart 0 does not return from a trap with its interrupt pending unless it has executed `timer_vec`
since the trap. -/
def Renewed (tr : Trace) (σ : State) (e : Event) : Prop :=
  (∃ s, performed (σ, e) = some (0, .sret s)) → (σ.harts 0).ssip = true →
    TimerInterrupt.renewed 0 tr = true

/-! ## Traps -/

section
variable {h : ℕ} {x : State × Event}

theorem ssip_of_trapped (hx : trapped h x = true) : (x.1.harts h).ssip = true := by
  obtain ⟨σ, e⟩ := x
  cases e with
  | hart g fail =>
    obtain ⟨rfl, hi⟩ := TimerInterrupt.trapped_hart.1 hx
    exact ((Bool.and_eq_true _ _).mp hi).2
  | compute g r pc => cases hx
  | timer g => cases hx

theorem renewed_trapped (hx : trapped h x = true) :
    TimerInterrupt.renewed h (x :: tr) = false ∧ fired h x = false := by
  obtain ⟨σ, e⟩ := x
  cases e with
  | hart g fail => exact ⟨by simp [TimerInterrupt.renewed, hx, fired], rfl⟩
  | compute g r pc => cases hx
  | timer g => cases hx

theorem renewed_fired (hx : fired h x = true) : TimerInterrupt.renewed h (x :: tr) = true := by
  simp [TimerInterrupt.renewed, hx]

theorem renewed_other (ht : trapped h x = false) (hf : fired h x = false) :
    TimerInterrupt.renewed h (x :: tr) = TimerInterrupt.renewed h tr := by
  simp [TimerInterrupt.renewed, ht, hf]

end

/-- Only a trap and an `sret` take a hart into the handler and out of it. -/
theorem handler_after {h : ℕ} {p : TimerInterrupt.Phase} {o : Op}
    (hp : TimerInterrupt.Pre h p o) (hs : ∀ s, o ≠ .sret s) (r : o.Ret) :
    (p.after o r).handler = p.handler := by
  by_cases hm : p.handler = true
  swap
  · rw [Bool.not_eq_true] at hm
    obtain hk | ⟨rfl, rfl⟩ | ⟨rfl, rfl⟩ | ⟨rfl, _, rfl⟩ := TimerInterrupt.after_main hp hm r
    · rw [hk]
    all_goals rfl
  · rw [hm]
    have hno : ∀ q : TimerInterrupt.Phase, q.handler = false → p ≠ q := by
      rintro q hq rfl
      rw [hq] at hm
      cases hm
    unfold TimerInterrupt.Phase.after
    split
    · rfl
    · rfl
    · split <;> rfl
    · rw [if_neg (hno _ rfl)]
      rfl
    · split
      · rfl
      · rfl
      · exact hm
    · exact absurd hp.1 (hno _ rfl)
    · rw [if_neg (hno _ rfl)]
      exact hm
    · rfl
    · rfl
    · exact absurd rfl (hs _)
    · exact hm

/-- What hart 0, in this phase, has done of the timer interrupts. -/
structure Answers (tr : Trace) (σ : State) (p : TimerInterrupt.Phase) : Prop where
  pending : p.handler = true → (σ.harts 0).ssip = true
  renewed : p.handler = false → (σ.harts 0).ssip = true → TimerInterrupt.renewed 0 tr = true
  count : tr.countP (trapped 0) + (TimerInterrupt.renewed 0 tr).toNat ≤ tr.countP (fired 0)

/-- A step that is no trap of the hart. -/
theorem Answers.step {p p' : TimerInterrupt.Phase} {x : State × Event} (hJ : Answers tr x.1 p)
    (ht : trapped 0 x = false) (hs : (σ'.harts 0).ssip = ((x.1.harts 0).ssip || fired 0 x))
    (hp : p'.handler = p.handler ∨ (p'.handler = false ∧ p.handler = true ∧
      TimerInterrupt.renewed 0 tr = true)) :
    Answers (x :: tr) σ' p' := by
  have hin : p'.handler = true → p.handler = true := by
    intro h'
    rcases hp with hp | ⟨hp, _⟩
    · exact hp.symm.trans h'
    · rw [hp] at h'
      cases h'
  have hcount := hJ.count
  cases hf : fired 0 x with
  | true =>
    rw [hf, Bool.or_true] at hs
    refine ⟨fun _ => hs, fun _ _ => renewed_fired hf, ?_⟩
    rw [renewed_fired hf, List.countP_cons, List.countP_cons, ht, hf, Bool.toNat_true,
      if_neg Bool.false_ne_true, if_pos rfl]
    omega
  | false =>
    rw [hf, Bool.or_false] at hs
    refine ⟨fun h' => hs.trans (hJ.pending (hin h')), fun h' hs' => ?_, ?_⟩ <;>
      rw [renewed_other ht hf]
    · rcases hp with hp | ⟨_, _, hp⟩
      · exact hJ.renewed (hp.symm.trans h') (hs.symm.trans hs')
      · exact hp
    · rw [List.countP_cons, List.countP_cons, ht, hf]
      exact hcount

theorem answers (hg : TimerInterrupt.PRun cfg tr σ ps) (hC : Along Renewed tr) :
    Answers tr σ (ps 0) := by
  induction hg with
  | start hi =>
    refine ⟨fun h' => (by cases h'), fun _ hs => ?_, le_rfl⟩
    rw [(hi.harts 0 cfg.harts_pos).ssip] at hs
    cases hs
  | @step tr σ σ' ps ps' e hg _ hm hb ih =>
    have hJ := ih hC.2
    cases hm.turn 0 with
    | trap ht hp hi hi' =>
      obtain ⟨hr, hf⟩ : TimerInterrupt.renewed 0 ((σ, e) :: tr) = false ∧ fired 0 (σ, e) = false :=
        renewed_trapped ht
      have hssip : (σ.harts 0).ssip = true := ssip_of_trapped ht
      have hcount := hJ.count
      rw [hJ.renewed (by rw [hi]; rfl) hssip, Bool.toNat_true] at hcount
      refine ⟨fun _ => ?_, fun h' => ?_, ?_⟩
      · rw [hb 0, hssip, Bool.true_or]
      · rw [hi'] at h'
        cases h'
      · rw [hr, List.countP_cons, List.countP_cons, ht, hf, if_pos rfl,
          if_neg Bool.false_ne_true, Bool.toNat_false]
        omega
    | @op fail o r ht hp hpre ha hps =>
      refine hJ.step ht (hb 0) ?_
      rw [hps]
      by_cases hs : ∃ s, o = .sret s
      · obtain ⟨s, rfl⟩ := hs
        have hin := TimerInterrupt.handler_of_leaving hpre
        exact Or.inr ⟨rfl, hin, hC.1 ⟨s, hp⟩ (hJ.pending hin)⟩
      · exact Or.inl (handler_after hpre (fun s ho => hs ⟨s, ho⟩) r)
    | still ht hp hps => exact hJ.step ht (hb 0) (Or.inl (congrArg _ hps))

/-! ## Entries into the case, and the tick count -/

/-- The tick of the trap is not counted yet. -/
def early : TimerInterrupt.Phase → Bool
  | .trapped | .counting | .gticks_read _ => true
  | _ => false

theorem early_after (p : TimerInterrupt.Phase) {o : Op} (r : o.Ret) (hl : o ≠ .load .gticks)
    (hp : o ≠ .point .software_interrupt) : p.after o r = p ∨ early (p.after o r) = false := by
  unfold TimerInterrupt.Phase.after
  split
  · exact absurd rfl hl
  · exact Or.inr rfl
  · split <;> exact Or.inr rfl
  · split <;> exact Or.inr rfl
  · split
    · exact Or.inr rfl
    · exact Or.inr rfl
    · exact Or.inl rfl
  · exact Or.inr rfl
  · split
    · exact Or.inr rfl
    · exact Or.inl rfl
  · exact absurd rfl hp
  · exact Or.inr rfl
  · exact Or.inr rfl
  · exact Or.inl rfl

/-- The entries are traps, and the ticks counted are entries. -/
structure Counted (tr : Trace) (σ : State) (p : TimerInterrupt.Phase) : Prop where
  enter : tr.countP (entered 0) + (decide (p = .trapped)).toNat ≤ tr.countP (trapped 0)
  count : (σ.mem .gticks : U64).toNat + (early p && decide (p ≠ .trapped)).toNat ≤
    tr.countP (entered 0)

/-- A step of another hart, or of this one between the accesses that count. -/
theorem Counted.still {p p' : TimerInterrupt.Phase} {x : State × Event} (hJ : Counted tr x.1 p)
    (ht : trapped 0 x = false) (he : entered 0 x = false)
    (hm : σ'.mem .gticks = x.1.mem .gticks) (hp : p' = p ∨ early p' = false) :
    Counted (x :: tr) σ' p' := by
  obtain ⟨henter, hcount⟩ := hJ
  have hle : (decide (p' = .trapped)).toNat ≤ (decide (p = .trapped)).toNat ∧
      (early p' && decide (p' ≠ .trapped)).toNat ≤ (early p && decide (p ≠ .trapped)).toNat := by
    rcases hp with rfl | hp
    · exact ⟨le_rfl, le_rfl⟩
    · have hne : p' ≠ .trapped := by
        rintro rfl
        cases hp
      rw [hp, decide_eq_false hne]
      exact ⟨Nat.zero_le _, Nat.zero_le _⟩
  refine ⟨?_, ?_⟩
  · rw [List.countP_cons, List.countP_cons, ht, he]
    exact (Nat.add_le_add_left hle.1 _).trans henter
  · rw [List.countP_cons, he, hm]
    exact (Nat.add_le_add_left hle.2 _).trans hcount

theorem counted (hg : TimerInterrupt.PRun cfg tr σ ps) : Counted tr σ (ps 0) := by
  induction hg with
  | start hi =>
    refine ⟨le_rfl, ?_⟩
    rw [hi.mem]
    exact le_rfl
  | @step tr σ σ' ps ps' e hg _ hm _ ih =>
    obtain ⟨henter, hcount⟩ := ih
    cases hm.turn 0 with
    | trap ht hp hi hi' =>
      obtain ⟨g, y, hs, _⟩ | ⟨_, hmem⟩ := hm.global (Or.inl rfl)
      · rw [hp] at hs
        cases hs
      have he : entered 0 (σ, e) = false := not_entered (by rw [hp]; simp)
      rw [hi] at henter hcount
      rw [hi']
      refine ⟨?_, ?_⟩
      · rw [List.countP_cons, List.countP_cons, he, ht]
        exact Nat.succ_le_succ henter
      · rw [List.countP_cons, he, hmem]
        exact hcount
    | @op fail o r ht hp hpre ha hps =>
      rw [hps]
      obtain ⟨g, y, hs, hpre', hmem⟩ | ⟨hno, hmem⟩ := hm.global (Or.inl rfl)
      · -- the tick is counted
        rw [hp] at hs
        cases hs
        obtain ⟨_, g, hread, rfl⟩ := hpre'
        have he : entered 0 (σ, e) = false := not_entered (by rw [hp]; simp)
        rw [hread] at henter hcount
        refine ⟨?_, ?_⟩
        · rw [List.countP_cons, List.countP_cons, he, ht]
          exact henter
        · rw [List.countP_cons, he, hmem]
          rw [hg.gticks_read hread] at hcount
          have hle : (g + 1).toNat ≤ g.toNat + 1 := by
            rw [BitVec.toNat_add]
            exact Nat.mod_le _ _
          exact hle.trans hcount
      by_cases hpt : o = .point .software_interrupt
      · subst hpt
        have hi : ps 0 = .trapped := hpre
        have he : entered 0 (σ, e) = true := entered_iff.2 hp
        rw [hi] at henter hcount
        refine ⟨?_, ?_⟩
        · rw [List.countP_cons, List.countP_cons, he, ht]
          exact henter
        · rw [List.countP_cons, he, hmem]
          exact Nat.succ_le_succ hcount
      have he : entered 0 (σ, e) = false := not_entered (by rw [hp]; simpa using hpt)
      by_cases hl : o = .load .gticks
      · subst hl
        obtain ⟨_, hi⟩ := hpre
        rw [hi] at henter hcount
        refine ⟨?_, ?_⟩
        · rw [List.countP_cons, List.countP_cons, he, ht]
          exact henter
        · rw [List.countP_cons, he, hmem]
          exact hcount
      exact Counted.still (p := ps 0) ⟨henter, hcount⟩ ht he hmem (early_after _ r hl hpt)
    | still ht hp hps =>
      refine Counted.still (p := ps 0) ⟨henter, hcount⟩ ht (not_entered (hp _)) ?_ (Or.inl hps)
      obtain ⟨g, y, hs, hpre, _⟩ | ⟨_, hmem⟩ := hm.global (Or.inl rfl)
      · obtain ⟨rfl, _⟩ := hpre
        exact absurd hs (hp _)
      · exact hmem

/-- While hart 0 leaves its handler with the interrupt pending only after a new `timer_vec`, each
timer interrupt brings the hart into the case at most once, and `gticks` is at most their number. -/
theorem ticks_le_fired (hr : Run (TimerInterrupt.machine cfg) tr σ) (hC : Along Renewed tr) :
    tr.countP (entered 0) ≤ tr.countP (fired 0) ∧
      (σ.mem .gticks : U64).toNat ≤ tr.countP (fired 0) := by
  obtain ⟨ps, hg⟩ := TimerInterrupt.prun_of_run hr
  have hJ := counted hg
  have htr := (answers hg hC).count
  have henter := hJ.enter
  have hcount := hJ.count
  constructor <;> omega

/-! ## A pending bit taken twice -/

/-- Whether hart 0 executes an `sret` with its interrupt pending. -/
def returnsPending (x : State × Event) : Bool :=
  match performed x with
  | some (0, .sret _) => (x.1.harts 0).ssip
  | _ => false

def allRenewed : Trace → Bool
  | [] => true
  | x :: tr => (!returnsPending x || TimerInterrupt.renewed 0 tr) && allRenewed tr

theorem along_allRenewed : ∀ {tr : Trace}, allRenewed tr = true → Along Renewed tr
  | [], _ => trivial
  | (σ, e) :: tr, hb => by
    obtain ⟨hx, htr⟩ := (Bool.and_eq_true _ _).mp hb
    refine ⟨fun ⟨s, hp⟩ hs => ?_, along_allRenewed htr⟩
    have hret : returnsPending (σ, e) = true := by
      unfold returnsPending
      rw [hp]
      exact hs
    rw [hret, Bool.not_true, Bool.false_or] at hx
    exact hx

/-- The timer interrupts again in the handler, each time. -/
theorem ticks_le_fired_twice : ∃ (tr : Trace) (σ : State),
    Run (TimerInterrupt.machine (.sample 1 (by decide) (by decide))) tr σ ∧
      (σ.mem .gticks : U64) = 2 ∧ tr.countP (entered 0) ≤ tr.countP (fired 0) ∧
      tr.countP (fired 0) = 2 := by
  obtain ⟨tr, σ, hr, hp⟩ := TimerInterrupt.Run.of_start (.sample 1 (by decide) (by decide))
    Layout.sample_apart (List.replicate 7 (.hart 0 false) ++ .timer 0 ::
      List.replicate 60 (.hart 0 false) ++ .timer 0 :: List.replicate 65 (.hart 0 false))
    (fun x => allRenewed x.1 && decide ((x.2.mem .gticks : U64) = 2) &&
      x.1.countP (fired 0) == 2) (by decide +kernel)
  simp only [Bool.and_eq_true, beq_iff_eq, decide_eq_true_eq] at hp
  obtain ⟨⟨hC, hg⟩, hf⟩ := hp
  exact ⟨tr, σ, hr, hg, (ticks_le_fired hr (along_allRenewed hC)).1, hf⟩

/-- One timer interrupt, two ticks. -/
theorem ticks_le_fired_not : ∃ (tr : Trace) (σ : State),
    Run (TimerInterrupt.machine (.sample 1 (by decide) (by decide))) tr σ ∧
      tr.countP (fired 0) = 1 ∧ tr.countP (entered 0) = 2 ∧ (σ.mem .gticks : U64) = 2 := by
  obtain ⟨tr, σ, hr, hp⟩ := TimerInterrupt.Run.of_start (.sample 1 (by decide) (by decide))
    Layout.sample_apart (List.replicate 7 (.hart 0 false) ++ .timer 0 ::
      List.replicate 125 (.hart 0 false))
    (fun x => x.1.countP (fired 0) == 1 && x.1.countP (entered 0) == 2 &&
      decide ((x.2.mem .gticks : U64) = 2)) (by decide +kernel)
  simp only [Bool.and_eq_true, beq_iff_eq, decide_eq_true_eq] at hp
  obtain ⟨⟨hf, he⟩, hg⟩ := hp
  exact ⟨tr, σ, hr, hf, he, hg⟩

end GQuuuuuunix.Properties
