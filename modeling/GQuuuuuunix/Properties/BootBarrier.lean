import GQuuuuuunix.Proof.Barrier
import GQuuuuuunix.Kernel.Start

/-! # The boot barrier

Every hart clears `start` at the beginning of `kernel_main`, and a hart that is late clears it
again after hart 0 has opened the barrier. -/

namespace GQuuuuuunix.Properties
open Lib Kernel Proof
set_option autoImplicit false

variable {cfg : Config} {σ σ' : State} {vs vs' : ℕ → View} {tr : Trace} {e : Event} {h : ℕ}

/-- Hart `h` is reading the barrier word. -/
def atBarrier (σ : State) (h : ℕ) : Prop :=
  (σ.harts h).calls.head? = some (.atomic_load .start)

instance (σ : State) (h : ℕ) : Decidable (atBarrier σ h) :=
  inferInstanceAs (Decidable (_ = _))

/-- No hart begins `kernel_main` after hart 0 has opened the barrier: the plain write to `start` is
not made any more. -/
def NobodyLate (tr : Trace) (σ : State) (e : Event) : Prop :=
  (∃ x ∈ tr, opensBarrier x = true) → ∀ h v, performed (σ, e) ≠ some (h, .store (.cell .start) v)

/-- A hart writes the barrier word at its prologue, and hart 0 when it opens the barrier. -/
theorem writes_start {v : View} {o : Op} {r : o.Ret} {x : I32} (hp : Pre cfg o v)
    (hw : Op.writes v.regs o r = some ⟨.cell .start, x⟩) :
    (∃ y, o = .store (.cell .start) y) ∨ (o = .sc .start 1 ∧ x = 1) := by
  cases o with
  | store l y =>
    cases hw
    exact Or.inl ⟨_, rfl⟩
  | amoswap c y =>
    obtain ⟨t, rfl, _⟩ := hp
    cases hw
  | sc c y =>
    obtain ⟨-, hcl⟩ := writes_sc hw
    cases hcl
    obtain ⟨t, hcl, _⟩ | ⟨_, rfl, _⟩ := hp
    · cases hcl
    · exact Or.inr ⟨rfl, rfl⟩
  | sd y off => cases hw
  | sd_ctx p y i => cases p <;> cases hw
  | _ => cases hw

theorem start_kept (hg : GRun cfg tr σ vs) (hC : Along NobodyLate tr)
    (hop : (vs 0).k.stage = .opened) : σ.mem (.cell .start) = (1 : I32) := by
  induction hg with
  | boot hb => cases hop
  | @step tr σ σ' vs vs' e hg hI hm hI' ih =>
    have hstill : quiet (σ, e) → σ'.mem (.cell .start) = (1 : I32) := by
      intro hq
      have hs := hm.still hq
      rw [hs.mem]
      exact ih hC.2 ((hs.same 0).stage ▸ hop)
    cases hm with
    | @op h fail o f r w σ' hh hi hcode hs hp hx hgo =>
      by_cases hwr : ∃ x, Op.writes (vs h).regs o r = some ⟨.cell .start, x⟩
      · obtain ⟨x, hwr⟩ := hwr
        have hmem : σ'.mem (.cell .start) = x := by
          rw [hx.mem, (hI.hart h hh).regs, hwr]
          exact Mem.set_self σ.mem (.cell .start) x
        obtain ⟨y, rfl⟩ | ⟨rfl, hx1⟩ := writes_start hp hwr
        · by_cases hold : (vs 0).k.stage = .opened
          · exact absurd (performed_eq hi hcode) (hC.1 ((opened hg).stage.2 hold) h y)
          · obtain ⟨_, _, _, v, ho⟩ := hI.opening hh hp hx hgo hold hop
            cases ho
        · rw [hmem, hx1]
      · have hmem : σ'.mem (.cell .start) = σ.mem (.cell .start) :=
          hI.mem_of_ne hh hx fun y hy => hwr ⟨y, hy⟩
        rw [hmem]
        by_cases hold : (vs 0).k.stage = .opened
        · exact ih hC.2 hold
        · -- the barrier is opened only by writing the word
          obtain ⟨rfl, hb, _, v, rfl⟩ := hI.opening hh hp hx hgo hold hop
          exfalso
          rw [Function.update_self, hgo.k] at hop
          have hop' : (if r = (0 : I32) then (vs 0).k.pass else (vs 0).k).stage = .opened := hop
          split at hop'
          · next h0 => exact hwr ⟨v, if_pos h0⟩
          · exact hold hop'
    | @call h fail s en t fs f hh hi hcode hk =>
      refine ih hC.2 ?_
      rw [update_field Ghost.stage (by rw [View.called, hk]; rfl)] at hop
      exact hop
    | @ret h fail s en t fs ρ f w hh hi hcode hk hsaved hw =>
      refine ih hC.2 ?_
      rw [update_field Ghost.stage (by rw [hw.stage, hk]; rfl)] at hop
      exact hop
    | loop hh hi hcode => exact hstill (quiet_loop hi hcode)
    | trap hh hi hsie => exact hstill (quiet_trap hi)
    | compute hh => exact hstill (Or.inl rfl)
    | timer hh => exact hstill (Or.inl rfl)

/-- Once hart 0 has opened the barrier it stays open, and no hart waits at it in vain, in every run
in which no hart is late. -/
theorem boot_barrier_open (hr : Run (kernel cfg) tr σ) (hC : Along NobodyLate tr)
    (hopen : ∃ x ∈ tr, opensBarrier x = true) :
    σ.mem (.cell .start) = (1 : I32) ∧
      ∀ h, ¬ (atBarrier σ h ∧ σ.mem (.cell .start) = (0 : I32)) := by
  obtain ⟨vs, hg⟩ := grun_of_run hr
  have hstart := start_kept hg hC ((opened hg).stage.1 hopen)
  refine ⟨hstart, fun h ⟨_, h0⟩ => ?_⟩
  rw [hstart] at h0
  cases h0

/-! ## The two orders of arrival -/

/-- Whether nobody was late can be computed. -/
def nobodyLate : Trace → Bool
  | [] => true
  | x :: tr => (match performed x with
      | some (_, .store (.cell .start) _) => !tr.any opensBarrier
      | _ => true) && nobodyLate tr

theorem along_nobodyLate : ∀ {tr : Trace}, nobodyLate tr = true → Along NobodyLate tr
  | [], _ => trivial
  | (σ, e) :: tr, h => by
    obtain ⟨hx, htr⟩ := (Bool.and_eq_true _ _).mp h
    refine ⟨fun ⟨y, hy, hopen⟩ h v hp => ?_, along_nobodyLate htr⟩
    rw [hp] at hx
    have hany : tr.any opensBarrier = true := List.any_eq_true.2 ⟨y, hy, hopen⟩
    dsimp only at hx
    rw [hany] at hx
    cases hx

/-- Hart 1 is at the barrier when hart 0 opens it. -/
theorem boot_barrier_open_two_harts : ∃ (tr : Trace) (σ : State),
    Run (kernel (.sample 2 (by decide) (by decide))) tr σ ∧ Along NobodyLate tr ∧
      atBarrier σ 1 ∧ σ.mem (.cell .start) = (1 : I32) := by
  obtain ⟨tr, σ, hr, hp⟩ := Run.of_start (.sample 2 (by decide) (by decide)) Layout.sample_apart
    (List.replicate 5 (.hart 1 false) ++ List.replicate 449 (.hart 0 false))
    (fun x => nobodyLate x.1 && x.1.any opensBarrier && decide (atBarrier x.2 1))
    (by decide +kernel)
  simp only [Bool.and_eq_true, List.any_eq_true, decide_eq_true_eq] at hp
  obtain ⟨⟨hlate, hopen⟩, hat⟩ := hp
  have hC := along_nobodyLate hlate
  exact ⟨tr, σ, hr, hC, hat, (boot_barrier_open hr hC hopen).1⟩

/-- Hart 1 begins `kernel_main` when hart 0 is in `scheduler`: it clears `start` and waits. -/
theorem boot_barrier_closed_again : ∃ (tr : Trace) (σ : State),
    Run (kernel (.sample 2 (by decide) (by decide))) tr σ ∧
      (∃ x ∈ tr, opensBarrier x = true) ∧ .scheduler ∈ (σ.harts 0).calls ∧
      atBarrier σ 1 ∧ σ.mem (.cell .start) = (0 : I32) := by
  obtain ⟨tr, σ, hr, hp⟩ := Run.of_start (.sample 2 (by decide) (by decide)) Layout.sample_apart
    (List.replicate 460 (.hart 0 false) ++ List.replicate 5 (.hart 1 false))
    (fun x => x.1.any opensBarrier && (x.2.harts 0).calls.contains .scheduler &&
      decide (atBarrier x.2 1) && decide (x.2.mem (.cell .start) = (0 : I32))) (by decide +kernel)
  simp only [Bool.and_eq_true, List.any_eq_true, decide_eq_true_eq] at hp
  obtain ⟨⟨⟨hopen, hs⟩, hat⟩, h0⟩ := hp
  exact ⟨tr, σ, hr, hopen, by simpa using hs, hat, h0⟩

end GQuuuuuunix.Properties
