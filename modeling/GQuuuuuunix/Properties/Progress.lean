import GQuuuuuunix.Lib.Reach
import GQuuuuuunix.Proof.Drain
import GQuuuuuunix.Proof.Reservations
import GQuuuuuunix.Properties.LockOwner

/-! # No hart stops, and no lock stays taken

The machine stops a hart in four ways: at a `PANIC`; at a call through a null function pointer or
a use of a NULL task; when `switch_to` or `sret` goes on with registers that are not those it left;
and at the end of its program. A hart that spins on a lock is not stopped, but gets nowhere until
the lock is cleared. -/

namespace GQuuuuuunix.Properties
open Lib Kernel Proof Relation
set_option autoImplicit false

variable {cfg : Config} {σ σ' : State} {vs : ℕ → View} {v : View} {h : ℕ} {t : Slot}
  {tr : History State (ClientEvent AtomicCall)}

/-! ## Every hart can go on -/

/-- The hart makes no more steps. -/
def Stopped (cfg : Config) (σ : State) (h : ℕ) : Prop :=
  ∃ fail, σ.step cfg.layout cfg.harts (.hart h fail) = none

theorem exec_possible {o : Op} (hp : Pre cfg o v) (fail : Bool) (k : o.Ret → Code) :
    ∃ σ', σ.exec cfg.layout h fail o k = some σ' := by
  cases o with
  | panic p => exact hp.elim
  | crash => exact hp.elim
  | loop l => exact ⟨_, rfl⟩
  | call_switch_to s old new => exact ⟨_, rfl⟩
  | ret old new => exact ⟨_, rfl⟩
  | _ => exact exec_total cfg.layout fail rfl k

theorem Inv.not_stopped (hI : Inv cfg σ vs) (hh : h < cfg.harts) : ¬ Stopped cfg σ h := by
  rintro ⟨fail, hs⟩
  have hsafe := hI.safe h hh
  simp only [State.step, if_pos hh] at hs
  split at hs
  · cases hs
  split at hs
  · next o k hcode =>
    rw [hcode] at hsafe
    obtain ⟨σ', hx⟩ := exec_possible (safe_pre hsafe (hI.ok h hh)).1 fail k
    rw [hx] at hs
    cases hs
  · next a hcode =>
    rw [hcode] at hsafe
    exact hsafe

/-- However the harts and the timers interleave, and whatever functions of atomic.h the tasks call,
no hart is ever stopped. -/
theorem never_stopped (hr : Run (clients cfg Atomic.call) tr σ) (hh : h < cfg.harts) :
    ¬ Stopped cfg σ h := by
  obtain ⟨vs, hI, -⟩ := taskObjs hr
  exact Inv.not_stopped hI hh

/-- The task in slot 0 is in a call. -/
theorem never_stopped_calling : ∃ (tr : History State (ClientEvent AtomicCall)) (σ : State),
    Run (clients (.sample 1 (by decide) (by decide)) Atomic.call) tr σ ∧
      callIn (byTask .sample 0) (kernelTrace tr) = some (.fetch_add .atomic_int_t 7 1) ∧
      ¬ Stopped (.sample 1 (by decide) (by decide)) σ 0 := by
  obtain ⟨tr, σ, hr, hp⟩ := Run.of_perform (M := clients (.sample 1 (by decide) (by decide))
    Atomic.call) (State.start_booting _ Layout.sample_apart)
    (List.replicate 580 (.kernel (.hart 0 false)) ++ .call 0 (.fetch_add .atomic_int_t 7 1) ::
      List.replicate 3 (.kernel (.hart 0 false)))
    (P := fun x => callIn (byTask .sample 0) (kernelTrace x.1) ==
      some (.fetch_add .atomic_int_t 7 1)) (by decide +kernel)
  exact ⟨tr, σ, hr, beq_iff_eq.1 hp, never_stopped hr Nat.one_pos⟩

/-! ## Every lock can be taken -/

/-- The steps of hart `g`, none of whose `sc` fails for no reason. -/
def OnlyHart (g : ℕ) (e : ClientEvent AtomicCall) : Prop := e = .kernel (.hart g false)

theorem Solo.moves (hs : Solo cfg h σ σ') : (clients cfg Atomic.call).Moves (OnlyHart h) σ σ' :=
  ⟨_, rfl, hs⟩

theorem Solo.next {g : ℕ} (hg : h ≠ g) (hs : Solo cfg g σ σ') : σ'.next h = σ.next h := by
  have hharts : σ'.harts h = σ.harts h := by
    unfold Solo at hs
    simp only [State.step] at hs
    split at hs
    swap
    · cases hs
    split at hs
    · cases hs
      exact Function.update_of_ne hg _ _
    split at hs
    · exact exec_other hg hs
    · cases hs
  unfold State.next
  rw [hharts]

/-- While tasks call the functions of atomic.h, too, a hart has taken the lock it has in hand. -/
theorem taken_clients (hr : Run (clients cfg Atomic.call) tr σ) :
    ∃ vs, Inv cfg σ vs ∧ Taken cfg (kernelTrace tr) vs := by
  induction hr with
  | init hb => exact ⟨_, Inv.boot hb, taken_boot⟩
  | @step tr σ σ' e _ hs ih =>
    obtain ⟨vs, hI, hJ⟩ := ih
    cases e with
    | kernel e =>
      obtain ⟨vs', hm, hI'⟩ := hI.step hs
      exact ⟨vs', hI', hJ.move hm⟩
    | call h c =>
      simp only [clients] at hs
      split at hs
      · next hh =>
        obtain ⟨hI', _⟩ :=
          hI.before_step hh (fun hk => does_call c hk fun _ _ hk' => ⟨_, hk'⟩) hs
        exact ⟨vs, hI', hJ⟩
      · cases hs
    | store h sz a x =>
      simp only [clients] at hs
      split at hs
      · cases hs
        exact ⟨vs, hI.of_objs rfl rfl rfl, hJ⟩
      · cases hs

/-- A hart that is about to `TEST_SET` the lock of a task can be let in: at once, or after another
hart, which has taken the lock, has gone on alone. -/
theorem lock_can_be_taken (hr : Run (clients cfg Atomic.call) tr σ) (hh : h < cfg.harts) {x : I32}
    (hn : σ.next h = some (.amoswap (.isLocked (.gTasks t)) x)) :
    ∃ g < cfg.harts, ∃ post σ', Run (clients cfg Atomic.call) (post ++ tr) σ' ∧
      (∀ y ∈ post, OnlyHart g y.2) ∧
      ((post = [] ∧ σ' = σ) ∨ (g ≠ h ∧ hasTaken g (.gTasks t) (kernelTrace tr) = true)) ∧
      lockTurn h (.gTasks t) (σ', .hart h false) = some true := by
  obtain ⟨vs, hI, hJ⟩ := taken_clients hr
  obtain ⟨t', hcl, -, hts⟩ := hI.pre_next hh hn
  cases hcl
  have hlock := (hI.table (hI.opened h hh hts.stage)).lock t
  by_cases hfree : ∀ g < cfg.harts, (vs g).k.held ≠ some t
  · refine ⟨h, hh, [], σ, hr, fun y hy => (by cases hy), Or.inl ⟨rfl, rfl⟩, ?_⟩
    rw [lockTurn_amoswap false hn, if_pos ⟨rfl, hlock.free hfree⟩]
  obtain ⟨g, hg, hheld⟩ : ∃ g < cfg.harts, (vs g).k.held = some t := by
    simpa only [not_forall, Classical.not_imp, not_not, exists_prop] using hfree
  have hne : h ≠ g := by
    rintro rfl
    rw [hts.held] at hheld
    cases hheld
  obtain ⟨σ', hsolo, hclear⟩ := Inv.drain hg _ _ hI rfl hheld rfl
  have hn' : σ'.next h = some (.amoswap (.isLocked (.gTasks t)) x) := by
    clear hclear
    induction hsolo with
    | refl => exact hn
    | tail _ hs ih => exact (Solo.next hne hs).trans ih
  obtain ⟨post, hr', hpost⟩ := hr.extend (hsolo.lift id fun _ _ hs => Solo.moves hs)
  have htaken : hasTaken g (.gTasks t) (kernelTrace tr) = true :=
    (hJ g hg (.gTasks t)).2 ⟨t, rfl, hheld⟩
  refine ⟨g, hg, post, σ', hr', hpost, Or.inr ⟨hne.symm, htaken⟩, ?_⟩
  rw [lockTurn_amoswap false hn', if_pos ⟨rfl, hclear⟩]

/-- The state with the first lock free. -/
def firstFree (σ : State) : State :=
  { σ with mem := σ.mem.set (.cell (.isLocked (.gTasks 0))) (0 : I32) }

theorem next_of_turn (hn : lockTurn h (.gTasks 0) (firstFree σ, .hart h false) = some true) :
    ∃ x, σ.next h = some (.amoswap (.isLocked (.gTasks 0)) x) := by
  simp only [lockTurn, if_true] at hn
  split at hn
  · next c x hnext =>
    split at hn
    · next hc => exact ⟨x, hc.1 ▸ hnext⟩
    · cases hn
  · split at hn <;> cases hn
  · cases hn

theorem locked_of_turn {x : I32} (hn : σ.next h = some (.amoswap (.isLocked (.gTasks 0)) x))
    (ht : lockTurn h (.gTasks 0) (σ, .hart h false) = some true) :
    σ.mem (.cell (.isLocked (.gTasks 0))) = (0 : I32) := by
  rw [lockTurn_amoswap false hn] at ht
  split at ht
  · next hc => exact hc.2
  · cases ht

/-- Hart 1 comes to its `TEST_SET` of the first lock while hart 0 has it. -/
theorem lock_can_be_taken_contended : ∃ (tr : History State (ClientEvent AtomicCall)) (σ : State),
    Run (clients (.sample 2 (by decide) (by decide)) Atomic.call) tr σ ∧
      hasTaken 0 (.gTasks 0) (kernelTrace tr) = true ∧ ∃ post σ',
      Run (clients (.sample 2 (by decide) (by decide)) Atomic.call) (post ++ tr) σ' ∧
      (∀ y ∈ post, OnlyHart 0 y.2) ∧ lockTurn 1 (.gTasks 0) (σ', .hart 1 false) = some true := by
  obtain ⟨tr, σ, hr, hp⟩ := Run.of_perform (M := clients (.sample 2 (by decide) (by decide))
    Atomic.call) (State.start_booting _ Layout.sample_apart)
    (List.replicate 5 (.kernel (.hart 1 false)) ++ List.replicate 495 (.kernel (.hart 0 false)) ++
      List.replicate 38 (.kernel (.hart 1 false)))
    (P := fun x => decide (x.2.mem (.cell (.isLocked (.gTasks 0))) = (1 : I32)) &&
      lockTurn 1 (.gTasks 0) (firstFree x.2, .hart 1 false) == some true) (by decide +kernel)
  obtain ⟨hlock, hn⟩ := (Bool.and_eq_true _ _).mp hp
  obtain ⟨x, hn⟩ := next_of_turn (beq_iff_eq.1 hn)
  obtain ⟨g, hg, post, σ', hr', hpost, hwho, hturn⟩ :=
    lock_can_be_taken hr (show 1 < 2 by decide) hn
  rcases hwho with ⟨rfl, rfl⟩ | ⟨hne, htaken⟩
  · have hfree := locked_of_turn hn hturn
    rw [of_decide_eq_true hlock] at hfree
    exact absurd hfree (by decide)
  · obtain rfl : g = 0 := by
      have hlt : g < 2 := hg
      omega
    exact ⟨tr, σ, hr, htaken, post, σ', hr', hpost, hturn⟩

end GQuuuuuunix.Properties
