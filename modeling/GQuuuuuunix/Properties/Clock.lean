import GQuuuuuunix.Proof.TimerInterrupt
import GQuuuuuunix.Proof.Clock

/-! # The clock of `02.TimerInterrupt`

Every hart sets the clock to zero on its way through `kernel_main`, whatever it shows. -/

namespace GQuuuuuunix.TimerInterrupt
open Lib Kernel Proof
set_option autoImplicit false

variable {cfg : Config} {σ σ' : State} {tr : Trace} {e : Event} {x : State × Event}
  {ps ps' : ℕ → Phase} {p : Phase} {g d : U64}

/-- No other hart puts the clock back, unless hart 0 is about to write it. -/
def NoReset (_ : Trace) (σ : State) (e : Event) : Prop :=
  ∀ h v, h ≠ 0 → performed (σ, e) = some (h, .store .time_data v) →
    (σ.mem .time_data : U64) = 0 ∨ ∃ w, σ.next 0 = some (.store .time_data w)

/-! ## The two updates -/

def Phase.adding : Phase → Bool
  | .time_due | .time_read _ => true
  | _ => false

theorem adding_leaving (hp : p.leaving = true) : p.adding = false := by
  cases p <;> first | rfl | cases hp

theorem adding_after {o : Op} {r : o.Ret} (hp : Pre 0 p o) (hg : ∀ x, o ≠ .store .gticks x)
    (ht : ∀ x, o ≠ .store .time_data x) : (p.after o r).adding = p.adding := by
  cases o with
  | load l =>
    cases l with
    | gticks =>
      obtain ⟨_, rfl⟩ := hp
      rfl
    | time_data => obtain ⟨_, rfl | rfl | ⟨_, _, rfl⟩⟩ := hp <;> rfl
    | time_mantissa_bit => obtain ⟨_, ⟨_, rfl⟩ | ⟨_, _, _, rfl⟩⟩ := hp <;> rfl
    | _ => exact hp.elim
  | store l x =>
    cases l with
    | gticks => exact absurd rfl (hg x)
    | time_data => exact absurd rfl (ht x)
    | time_mantissa_bit =>
      obtain ⟨rfl, _⟩ := hp
      rfl
    | _ => exact hp.elim
  | w_sstatus x =>
    show (if p = .intr_due then Phase.idle else p).adding = _
    split
    · next h =>
      rw [h]
      rfl
    · rfl
  | point q =>
    cases q with
    | software_interrupt =>
      obtain rfl : p = .trapped := hp
      rfl
    | _ => exact hp.elim
  | printf m =>
    cases m with
    | tick s f =>
      obtain ⟨_, _, _, _, _, rfl, _⟩ := hp
      rfl
    | _ => rfl
  | sret s => exact (adding_leaving hp).symm
  | _ => rfl

theorem updated_eq_none (hg : ∀ y, performed x ≠ some (0, .store .gticks y))
    (ht : ∀ y, performed x ≠ some (0, .store .time_data y)) : updated x = none := by
  unfold updated
  split
  · next y hp => exact absurd hp (hg y)
  · next y hp => exact absurd hp (ht y)
  · rfl

theorem between_cons_none (hu : updated x = none) : between (x :: tr) = between tr := by
  unfold between
  rw [List.findSome?_cons, hu]

theorem between_cons_some {b : Bool} (hu : updated x = some b) : between (x :: tr) = b := by
  unfold between
  rw [List.findSome?_cons, hu]
  rfl

/-- Hart 0 is between the two updates by its history if and only if it is by its phase. -/
theorem PRun.between (hg : PRun cfg tr σ ps) :
    TimerInterrupt.between tr = (ps 0).adding := by
  induction hg with
  | start hi => rfl
  | @step tr σ σ' ps ps' e hg _ hm _ ih =>
    cases hm.turn 0 with
    | trap _ hp hi hi' =>
      rw [between_cons_none (updated_eq_none (by rw [hp]; simp) (by rw [hp]; simp)), ih, hi, hi']
      rfl
    | @op fail o r _ hp hpre _ hp' =>
      rw [hp']
      by_cases ho : ∃ y, o = .store .gticks y
      · obtain ⟨y, rfl⟩ := ho
        refine between_cons_some ?_
        unfold updated
        rw [hp]
        rfl
      by_cases ht : ∃ y, o = .store .time_data y
      · obtain ⟨y, rfl⟩ := ht
        have ha : ((ps 0).after (.store .time_data y) r).adding = false := by
          show (if ps 0 = .clock_due then Phase.bit_due else .updated).adding = _
          split <;> rfl
        rw [ha]
        refine between_cons_some ?_
        unfold updated
        rw [hp]
        rfl
      · have hu : updated (σ, e) = none := by
          refine updated_eq_none (fun y hy => ?_) fun y hy => ?_
          · rw [hp] at hy
            cases hy
            exact ho ⟨y, rfl⟩
          · rw [hp] at hy
            cases hy
            exact ht ⟨y, rfl⟩
        rw [between_cons_none hu, ih, adding_after hpre (fun y hy => ho ⟨y, hy⟩)
          fun y hy => ht ⟨y, hy⟩]
    | still _ hp hp' =>
      rw [between_cons_none (updated_eq_none (fun y => hp _) fun y => hp _), ih, hp']

/-! ## What the clock shows -/

/-- The clock word `d` and what hart 0 has read of it, at `g` ticks. -/
def Phase.AtClock (p : Phase) (g d : U64) : Prop :=
  match p with
  | .clock_due => g = 0 ∧ d = 0
  | .time_due => d + TICKS = g * TICKS
  | .time_read x => x + TICKS = g * TICKS
  | .frac_data x => x = d ∧ d = g * TICKS
  | .frac_bit x b => x = d ∧ b = 32 ∧ d = g * TICKS
  | .sec_data x b y => x = d ∧ b = 32 ∧ y = d ∧ d = g * TICKS
  | .sec_bit x b y b' => x = d ∧ b = 32 ∧ y = d ∧ b' = 32 ∧ d = g * TICKS
  | _ => d = g * TICKS

theorem AtClock.eq (hc : p.AtClock g d) (hp : p.adding = false) : d = g * TICKS := by
  cases p with
  | time_due => cases hp
  | time_read x => cases hp
  | clock_due =>
    obtain ⟨rfl, rfl⟩ := hc
    decide
  | frac_data x => exact hc.2
  | frac_bit x b => exact hc.2.2
  | sec_data x b y => exact hc.2.2.2
  | sec_bit x b y b' => exact hc.2.2.2.2
  | _ => exact hc

/-- An operation of hart 0 that is not on the three globals. -/
theorem AtClock.after {o : Op} {r : o.Ret} (hc : p.AtClock g d) (hp : Pre 0 p o)
    (hl : ∀ l, o ≠ .load l) (hs : ∀ l y, o ≠ .store l y) : (p.after o r).AtClock g d := by
  cases o with
  | load l => exact absurd rfl (hl l)
  | store l y => exact absurd rfl (hs l y)
  | w_sstatus y =>
    show (if p = .intr_due then Phase.idle else p).AtClock g d
    split
    · next h =>
      rw [h] at hc
      exact hc
    · exact hc
  | point q =>
    cases q with
    | software_interrupt =>
      obtain rfl : p = .trapped := hp
      exact hc
    | _ => exact hp.elim
  | printf m =>
    cases m with
    | tick s f =>
      obtain ⟨_, _, _, _, _, rfl, _⟩ := hp
      exact hc.2.2.2.2
    | _ => exact hc
  | sret s => exact AtClock.eq hc (adding_leaving hp)
  | _ => exact hc

/-- A load by hart 0 of one of the three globals. -/
theorem AtClock.load {l : Loc} {r : l.Ty} {m : Mem} (hc : p.AtClock (m .gticks) (m .time_data))
    (hp : Pre 0 p (.load l)) (hr : r = m l)
    (hbit : ¬ (p = .clock_due ∨ p = .bit_due) → (m .time_mantissa_bit : BitVec 8) = 32) :
    (p.after (.load l) r).AtClock (m .gticks) (m .time_data) := by
  subst hr
  cases l with
  | gticks =>
    obtain ⟨_, rfl⟩ := hp
    exact hc
  | time_data =>
    obtain ⟨_, rfl | rfl | ⟨x, b, rfl⟩⟩ := hp
    · exact hc
    · exact ⟨rfl, hc⟩
    · obtain ⟨hx, hb, hd⟩ := hc
      exact ⟨hx, hb, rfl, hd⟩
  | time_mantissa_bit =>
    obtain ⟨_, ⟨x, rfl⟩ | ⟨x, b, y, rfl⟩⟩ := hp
    · exact ⟨hc.1, hbit (by simp), hc.2⟩
    · obtain ⟨hx, hb, hy, hd⟩ := hc
      exact ⟨hx, hb, hy, hbit (by simp), hd⟩
  | _ => exact hp.elim

/-- A store by hart 0 to one of the three globals. -/
theorem AtClock.store {l : Loc} {y : l.Ty} {r : (Op.store l y).Ret} {m m' : Mem}
    (hc : p.AtClock (m .gticks) (m .time_data)) (hp : Pre 0 p (.store l y))
    (hread : ∀ x, p = .gticks_read x → m .gticks = x) (hl : m' l = y)
    (ho : ∀ l', Global l' → l' ≠ l → m' l' = m l') :
    (p.after (.store l y) r).AtClock (m' .gticks) (m' .time_data) := by
  cases l with
  | gticks =>
    obtain ⟨_, x, rfl, rfl⟩ := hp
    rw [hl, ho .time_data (Or.inr (Or.inl rfl)) (by simp)]
    have hx : (m .time_data : U64) = x * TICKS := by
      rw [← hread x rfl]
      exact hc
    show (m .time_data : U64) + TICKS = (x + 1) * TICKS
    rw [hx, BitVec.add_mul]
    exact congrArg _ (BitVec.one_mul TICKS).symm
  | time_data =>
    rw [hl, ho .gticks (Or.inl rfl) (by simp)]
    show (if p = .clock_due then Phase.bit_due else .updated).AtClock _ _
    obtain ⟨rfl, rfl⟩ | ⟨_, x, rfl, rfl⟩ := hp
    · obtain ⟨hg, _⟩ := hc
      rw [if_pos rfl, hg]
      exact BitVec.zero_mul.symm
    · rw [if_neg (fun h => by cases h)]
      have hsum : x + TICKS = m .gticks * TICKS := hc
      exact hsum
  | time_mantissa_bit =>
    obtain ⟨rfl, _⟩ := hp
    rw [ho .gticks (Or.inl rfl) (by simp), ho .time_data (Or.inr (Or.inl rfl)) (by simp)]
    exact hc
  | _ => exact hp.elim

theorem atClock (hg : PRun cfg tr σ ps) (hC : Along NoReset tr) :
    (ps 0).AtClock (σ.mem .gticks) (σ.mem .time_data) := by
  induction hg with
  | start hi =>
    rw [hi.mem]
    exact ⟨rfl, rfl⟩
  | @step tr σ σ' ps ps' e hg hok hm _ ih =>
    replace ih := ih hC.2
    have hkept : ∀ {l}, Global l → (∀ g y, performed (σ, e) ≠ some (g, .store l y)) →
        σ'.mem l = σ.mem l := by
      intro l hl hno
      obtain ⟨g, y, hs, _⟩ | ⟨_, hmem⟩ := hm.global hl
      · exact absurd hs (hno g y)
      · exact hmem
    cases hm.turn 0 with
    | trap _ hp hi hi' =>
      rw [hi', hkept (l := .gticks) (Or.inl rfl) (by rw [hp]; simp),
        hkept (l := .time_data) (Or.inr (Or.inl rfl)) (by rw [hp]; simp)]
      rw [hi] at ih
      exact ih
    | @op fail o r _ hp hpre ha hp' =>
      rw [hp']
      by_cases hs : ∃ l y, o = .store l y
      · obtain ⟨l, y, rfl⟩ := hs
        refine AtClock.store ih hpre (fun x hx => hg.gticks_read hx) ?_ fun l' hl' hne => ?_
        · have hl : Global l := by
            cases l with
            | gticks => exact Or.inl rfl
            | time_data => exact Or.inr (Or.inl rfl)
            | time_mantissa_bit => exact Or.inr (Or.inr rfl)
            | _ => exact hpre.elim
          obtain ⟨g, z, hz, _, hmem⟩ | ⟨hno, _⟩ := hm.global hl
          · rw [hp] at hz
            cases hz
            exact hmem
          · exact absurd hp (hno 0 y)
        · refine hkept hl' fun g z hz => ?_
          rw [hp] at hz
          cases hz
          exact hne rfl
      have hsame : ∀ {l}, Global l → σ'.mem l = σ.mem l := by
        refine fun hl => hkept hl fun g z hz => ?_
        rw [hp] at hz
        cases hz
        exact hs ⟨_, z, rfl⟩
      rw [hsame (Or.inl rfl), hsame (Or.inr (Or.inl rfl))]
      by_cases hl : ∃ l, o = .load l
      · obtain ⟨l, rfl⟩ := hl
        exact AtClock.load ih hpre ha hg.mantissa_bit
      · exact AtClock.after ih hpre (fun l h => hl ⟨l, h⟩) fun l y h => hs ⟨l, y, h⟩
    | still _ hp hp' =>
      rw [hp']
      have hgt : σ'.mem .gticks = σ.mem .gticks := by
        obtain ⟨g, y, hs, ⟨rfl, _⟩, _⟩ | ⟨_, hmem⟩ := hm.global (Or.inl rfl)
        · exact absurd hs (hp _)
        · exact hmem
      rw [hgt]
      obtain ⟨g, y, hs, hpre, hmem⟩ | ⟨_, hmem⟩ := hm.global (Or.inr (Or.inl rfl))
      · -- another hart boots
        have hg0 : g ≠ 0 := by
          rintro rfl
          exact hp _ hs
        obtain ⟨_, rfl⟩ | ⟨h0, _⟩ := hpre
        · rw [hmem]
          rcases hC.1 g _ hg0 hs with h0 | ⟨w, hn⟩
          · rwa [h0] at ih
          · obtain ⟨hk, _⟩ | ⟨_, x, hk, _⟩ := (hok 0 cfg.harts_pos).pre_next hn
            · rw [hk] at ih ⊢
              exact ⟨ih.1, rfl⟩
            · rw [hk] at ih ⊢
              exact ih
        · exact absurd h0 hg0
      · rw [hmem]
        exact ih

/-! ## The timestamps printed -/

theorem ticked_iff : ticked x = true ↔ ∃ y, performed x = some (0, .store .gticks y) := by
  unfold ticked updated
  split
  · next y hp => exact ⟨fun _ => ⟨y, hp⟩, fun _ => rfl⟩
  · next y hp => simp [hp]
  · next hg _ => exact ⟨fun hf => (by cases hf), fun ⟨y, hy⟩ => absurd hy (hg y)⟩

theorem gticks_eq (hg : PRun cfg tr σ ps) :
    σ.mem .gticks = BitVec.ofNat 64 (tr.countP ticked) := by
  induction hg with
  | start hi =>
    rw [hi.mem]
    rfl
  | @step tr σ σ' ps ps' e hg _ hm _ ih =>
    rw [List.countP_cons]
    obtain ⟨g, y, hs, ⟨rfl, x, hx, rfl⟩, hmem⟩ | ⟨hno, hmem⟩ := hm.global (Or.inl rfl)
    · rw [hmem, if_pos (ticked_iff.2 ⟨_, hs⟩), BitVec.ofNat_add, ← ih, hg.gticks_read hx]
      rfl
    · rw [hmem, if_neg fun ht => ?_]
      · exact ih
      · obtain ⟨y, hy⟩ := ticked_iff.1 ht
        exact hno 0 y hy

/-- What hart 0 prints is the clock at the ticks counted. -/
theorem printed_eq (hg : PRun cfg tr σ ps) (hC : Along NoReset tr)
    (hm : Moved cfg.harts (σ, e) σ' ps ps') {s : U64 × U32} (hs : printed (σ, e) = some s) :
    s = timestamp (BitVec.ofNat 64 (tr.countP ticked) * TICKS) := by
  have hp : performed (σ, e) = some (0, .printf (.tick s.1 s.2)) := by
    unfold printed at hs
    split at hs
    · next sec f hp =>
      cases hs
      exact hp
    · cases hs
  cases hm.turn 0 with
  | trap _ hn _ _ =>
    rw [hn] at hp
    cases hp
  | op _ ho hpre _ _ =>
    rw [hp] at ho
    cases ho
    obtain ⟨_, d, b, d', b', hk, hsec, hf⟩ := hpre
    have hc := atClock hg hC
    rw [hk] at hc
    obtain ⟨hd, rfl, hd', rfl, hclock⟩ := hc
    rw [← gticks_eq hg, ← hclock]
    exact Prod.ext (by rw [hsec, hd']; rfl) (by rw [hf, hd]; rfl)
  | still _ hn _ => exact absurd hp (hn _)

/-- The timestamps come from tick counts that go up. -/
theorem timestamps_eq (hg : PRun cfg tr σ ps) (hC : Along NoReset tr) :
    ∃ ns : List ℕ, timestamps tr = ns.map (fun n => timestamp (BitVec.ofNat 64 n * TICKS)) ∧
      ns.Pairwise (fun later earlier => earlier ≤ later) ∧ ∀ n ∈ ns, n ≤ tr.countP ticked := by
  induction hg with
  | start hi => exact ⟨[], rfl, .nil, fun n hn => by cases hn⟩
  | @step tr σ σ' ps ps' e hg _ hm _ ih =>
    obtain ⟨ns, hns, hpair, hle⟩ := ih hC.2
    have hle' : ∀ n ∈ ns, n ≤ ((σ, e) :: tr).countP ticked := by
      intro n hn
      rw [List.countP_cons]
      exact (hle n hn).trans (Nat.le_add_right _ _)
    cases hp : printed (σ, e) with
    | none =>
      refine ⟨ns, ?_, hpair, hle'⟩
      unfold timestamps
      rw [List.filterMap_cons, hp]
      exact hns
    | some s =>
      refine ⟨tr.countP ticked :: ns, ?_, List.pairwise_cons.2 ⟨hle, hpair⟩, ?_⟩
      · unfold timestamps
        rw [List.filterMap_cons, hp, List.map_cons, ← printed_eq hg hC.2 hm hp]
        exact congrArg _ hns
      · intro n hn
        rcases List.mem_cons.1 hn with rfl | hn
        · rw [List.countP_cons]
          exact Nat.le_add_right _ _
        · exact hle' n hn

end GQuuuuuunix.TimerInterrupt

namespace GQuuuuuunix.Properties
open Lib Kernel Proof
set_option autoImplicit false

variable {cfg : TimerInterrupt.Config} {σ : State} {tr : Trace}

/-- While no late hart puts the clock back, the clock is the tick count times `TICKS` whenever hart
0 is not between its two updates, and until it wraps the timestamps never go back. -/
theorem clock_forward (hr : Run (TimerInterrupt.machine cfg) tr σ)
    (hC : Along TimerInterrupt.NoReset tr) :
    (TimerInterrupt.between tr = false → (σ.mem .time_data : U64) = σ.mem .gticks * TICKS) ∧
      (tr.countP TimerInterrupt.ticked * TICKS.toNat < 2 ^ 64 →
        (TimerInterrupt.timestamps tr).Pairwise fun later earlier =>
          TimerInterrupt.NotAfter earlier later) := by
  obtain ⟨ps, hg⟩ := TimerInterrupt.prun_of_run hr
  refine ⟨fun hb => ?_, fun hw => ?_⟩
  · rw [hg.between] at hb
    exact TimerInterrupt.AtClock.eq (TimerInterrupt.atClock hg hC) hb
  · obtain ⟨ns, hns, hpair, hle⟩ := TimerInterrupt.timestamps_eq hg hC
    rw [hns, List.pairwise_map]
    refine hpair.imp_of_mem fun {b a} hb _ hab => timestamp_mono ?_
    have hclock : ∀ n ≤ tr.countP TimerInterrupt.ticked,
        (BitVec.ofNat 64 n * TICKS).toNat = n * TICKS.toNat := by
      intro n hn
      have hlt := (Nat.mul_le_mul_right TICKS.toNat hn).trans_lt hw
      have hT : 0 < TICKS.toNat := by decide
      have hn' : n < 2 ^ 64 := (Nat.le_mul_of_pos_right n hT).trans_lt hlt
      rw [BitVec.toNat_mul, BitVec.toNat_ofNat, Nat.mod_eq_of_lt hn', Nat.mod_eq_of_lt hlt]
    show (BitVec.ofNat 64 a * TICKS).toNat ≤ (BitVec.ofNat 64 b * TICKS).toNat
    rw [hclock a (hab.trans (hle b hb)), hclock b (hle b hb)]
    exact Nat.mul_le_mul_right _ hab

/-! ## A hart that is late -/

/-- Whether every store to the clock found it at zero, or was by hart 0, can be computed. -/
def noReset : Trace → Bool
  | [] => true
  | x :: tr => (match performed x with
      | some (h, .store .time_data _) => h == 0 || decide ((x.1.mem .time_data : U64) = 0)
      | _ => true) && noReset tr

theorem along_noReset : ∀ {tr : Trace}, noReset tr = true → Along TimerInterrupt.NoReset tr
  | [], _ => trivial
  | (σ, e) :: tr, hb => by
    obtain ⟨hx, htr⟩ := (Bool.and_eq_true _ _).mp hb
    refine ⟨fun h v h0 hp => Or.inl ?_, along_noReset htr⟩
    rw [hp] at hx
    simp only [Bool.or_eq_true, beq_iff_eq, decide_eq_true_eq] at hx
    exact hx.resolve_left h0

/-- Hart 1 boots before the first tick. -/
theorem clock_forward_two : ∃ (tr : Trace) (σ : State),
    Run (TimerInterrupt.machine (.sample 2 (by decide) (by decide))) tr σ ∧
      (σ.mem .gticks : U64) = 2 ∧ (σ.mem .time_data : U64) = σ.mem .gticks * TICKS ∧
      (TimerInterrupt.timestamps tr).length = 2 := by
  obtain ⟨tr, σ, hr, hp⟩ := TimerInterrupt.Run.of_start (.sample 2 (by decide) (by decide))
    Layout.sample_apart (List.replicate 7 (.hart 0 false) ++ List.replicate 7 (.hart 1 false) ++
      .timer 0 :: List.replicate 131 (.hart 0 false))
    (fun x => noReset x.1 && !TimerInterrupt.between x.1 &&
      decide ((x.2.mem .gticks : U64) = 2) && (TimerInterrupt.timestamps x.1).length == 2)
    (by decide +kernel)
  simp only [Bool.and_eq_true, beq_iff_eq, decide_eq_true_eq, Bool.not_eq_true'] at hp
  obtain ⟨⟨⟨hC, hb⟩, hg⟩, hl⟩ := hp
  exact ⟨tr, σ, hr, hg, (clock_forward hr (along_noReset hC)).1 hb, hl⟩

/-- Hart 1 boots after the second tick. -/
theorem clock_forward_not : ∃ (tr : Trace) (σ : State),
    Run (TimerInterrupt.machine (.sample 2 (by decide) (by decide))) tr σ ∧
      TimerInterrupt.between tr = false ∧ (σ.mem .gticks : U64) = 3 ∧
      (σ.mem .time_data : U64) = TICKS ∧
      TimerInterrupt.timestamps tr = [(0, 6), (0, 12), (0, 6)] := by
  obtain ⟨tr, σ, hr, hp⟩ := TimerInterrupt.Run.of_start (.sample 2 (by decide) (by decide))
    Layout.sample_apart (List.replicate 7 (.hart 0 false) ++ .timer 0 ::
      List.replicate 131 (.hart 0 false) ++ List.replicate 7 (.hart 1 false) ++
      List.replicate 83 (.hart 0 false))
    (fun x => !TimerInterrupt.between x.1 && decide ((x.2.mem .gticks : U64) = 3) &&
      decide ((x.2.mem .time_data : U64) = TICKS) &&
      decide (TimerInterrupt.timestamps x.1 = [(0, 6), (0, 12), (0, 6)])) (by decide +kernel)
  simp only [Bool.and_eq_true, decide_eq_true_eq, Bool.not_eq_true'] at hp
  obtain ⟨⟨⟨hb, hg⟩, hd⟩, ht⟩ := hp
  exact ⟨tr, σ, hr, hb, hg, hd, ht⟩

end GQuuuuuunix.Properties
