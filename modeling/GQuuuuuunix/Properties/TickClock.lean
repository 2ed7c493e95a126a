import GQuuuuuunix.Proof.Ticks
import GQuuuuuunix.Kernel.Start

/-! # The clock of `03.Scheduler` is its count of software interrupts

`gticks` and `time.data` are plain words, updated by hart 0 one after the other. Between the two
updates they disagree by one; otherwise both are exactly what the entries on hart 0 make them. -/

namespace GQuuuuuunix.Properties
open Lib Kernel Proof
set_option autoImplicit false

variable {cfg : Config} {σ σ' : State} {vs vs' : ℕ → View} {v v' : View} {tr : Trace} {e : Event}
  {x : State × Event}

/-! ## What hart 0 does to the clock -/

/-- Hart 0 enters the software-interrupt case, or stores `time.data`. -/
def clockTurn (x : State × Event) : Option Bool :=
  match performed x with
  | some (0, .point .software_interrupt) => some true
  | some (0, .store .time_data _) => some false
  | _ => none

/-- Hart 0 has entered the software-interrupt case and has not stored `time.data` since. -/
def updating (tr : Trace) : Bool := (tr.findSome? clockTurn).getD false

/-- How many of the two updates are to come. -/
def updatesDue : TrapPhase → ℕ
  | .gticks_due => 2
  | .time_due => 1
  | _ => 0

/-- What a step is to the clock. -/
inductive ClockStep (x : State × Event) (v v' : View) : Prop where
  | entry : performed x = some (0, .point .software_interrupt) → v.k.trap = .entered →
      v'.k.trap = .gticks_due → ClockStep x v v'
  | gticks {y : U64} : performed x = some (0, .store .gticks y) → v.k.trap = .gticks_due →
      y = v.m.mem .gticks + (1 : U64) → v'.k.trap = .time_due → ClockStep x v v'
  | time_data {y : U64} : performed x = some (0, .store .time_data y) → v.k.trap = .time_due →
      y = v.m.mem .time_data + TICKS → v'.k.trap = .counted → ClockStep x v v'
  | reset {y : U64} : performed x = some (0, .store .time_data y) → v.k.stage = .boot → y = 0 →
      v'.k.trap = v.k.trap → ClockStep x v v'
  | other : performed x ≠ some (0, .point .software_interrupt) →
      (∀ y, performed x ≠ some (0, .store .gticks y)) →
      (∀ y, performed x ≠ some (0, .store .time_data y)) →
      updatesDue v'.k.trap = updatesDue v.k.trap → ClockStep x v v'

theorem clockStep_op {o : Op} {r : o.Ret} (h0 : v.k.hart = 0) (hx : performed x = some (0, o))
    (hp : Pre cfg o v) (hk : v'.k = v.k.after o r) : ClockStep x v v' := by
  have ht : v'.k.trap = Op.trap v.k o := by rw [hk, Ghost.after_trap]
  by_cases hs : ∃ l y, o = .store l y
  · obtain ⟨l, y, rfl⟩ := hs
    cases l with
    | gticks =>
      obtain ⟨_, hk, hy⟩ := hp
      exact .gticks hx hk hy ht
    | time_data =>
      obtain ⟨hb, hy⟩ | ⟨_, hop, hk, hy⟩ := hp
      · exact .reset hx hb hy (ht.trans (if_pos hb))
      · exact .time_data hx hk hy (ht.trans (if_neg (by rw [hop]; simp)))
    | _ =>
      have ht' : v'.k.trap = v.k.trap := ht
      exact .other (by rw [hx]; simp) (by rw [hx]; simp) (by rw [hx]; simp) (by rw [ht'])
  by_cases hpt : o = .point .software_interrupt
  · subst hpt
    exact .entry hx hp (ht.trans (if_pos h0))
  refine .other (fun hc => ?_) (fun y hc => ?_) (fun y hc => ?_) ?_
  · rw [hx] at hc
    cases hc
    exact hpt rfl
  · rw [hx] at hc
    cases hc
    exact hs ⟨_, _, rfl⟩
  · rw [hx] at hc
    cases hc
    exact hs ⟨_, _, rfl⟩
  · rw [ht]
    cases o with
    | store l y => exact absurd ⟨l, y, rfl⟩ hs
    | point q =>
      cases q with
      | software_interrupt => exact absurd rfl hpt
      | _ => rfl
    | w_sip y =>
      rw [hp.2]
      rfl
    | sret s =>
      rw [hp.2.1]
      rfl
    | _ => rfl

theorem Phase.clockStep (hx : Phase cfg 0 x v v') (h0 : v.k.hart = 0) : ClockStep x v v' := by
  cases hx with
  | trap hx _ hi hk =>
    refine .other ?_ ?_ ?_ ?_
    any_goals rw [trapped_performed hx]; simp
    rw [hk, hi]
    rfl
  | op _ hx hp hk => exact clockStep_op h0 hx hp hk
  | still _ hk _ hx =>
    refine .other (fun hc => ?_) (fun y hc => ?_) (fun y hc => ?_) (by rw [hk])
    all_goals
      rcases hx with hx | ⟨g, o, hx, hs⟩ <;> rw [hx] at hc <;> cases hc
      cases hs rfl
  | switched _ hi hx hr =>
    refine .other ?_ ?_ ?_ ?_
    any_goals rw [hx]; simp
    rcases hr.trap with ht | ht <;> rcases hi with hi | hi <;> rw [ht, hi] <;> rfl

/-- No trap is taken while hart 0 boots, and it does not boot again. -/
theorem Move.boot (hm : Move cfg σ vs e σ' vs') (hI : Inv cfg σ vs)
    (hb : (vs' 0).k.stage = .boot) : (vs 0).k.stage = .boot ∧ trapped 0 (σ, e) = false := by
  cases hm with
  | @trap g fail hh hi hsie =>
    have hst : (vs 0).k.stage = .boot :=
      (update_field Ghost.stage (by rfl) 0).symm.trans hb
    refine ⟨hst, ?_⟩
    have hg : g ≠ 0 := by
      rintro rfl
      rw [((hI.ok _ hh).sie_ok hsie).stage] at hst
      cases hst
    show (g == 0 && _) = false
    rw [beq_false_of_ne hg, Bool.false_and]
  | @op g fail o f r w σ' hh hi hcode hs hp hx hgo =>
    refine ⟨?_, trapped_eq_false hi⟩
    rw [update_k] at hb
    split at hb
    · next h0 =>
      rw [hgo.k] at hb
      rw [h0]
      exact Ghost.after_boot hb
    · exact hb
  | loop hh hi hcode => exact ⟨hb, trapped_eq_false hi⟩
  | call hh hi hcode hk =>
    refine ⟨?_, trapped_eq_false hi⟩
    rwa [update_field Ghost.stage (by rw [View.called, hk]; rfl)] at hb
  | ret hh hi hcode hk hsaved hw =>
    refine ⟨?_, trapped_eq_false hi⟩
    rwa [update_field Ghost.stage (by rw [hw.stage, hk]; rfl)] at hb
  | compute hh => exact ⟨(update_field Ghost.stage (by rfl) 0).symm.trans hb, rfl⟩
  | timer hh => exact ⟨hb, rfl⟩

/-- Only hart 0 stores to the word `l`. -/
def ZeroStores (σ : State) (e : Event) (σ' : State) (l : Loc) : Prop :=
  (σ'.mem l = σ.mem l ∧ ∀ y, performed (σ, e) ≠ some (0, .store l y)) ∨
    ∃ y, performed (σ, e) = some (0, .store l y) ∧ σ'.mem l = y

theorem Move.zeroStores {l : Loc} (hl : Loc.plain l = true) (hI : Inv cfg σ vs)
    (hm : Move cfg σ vs e σ' vs')
    (h0 : ∀ g < cfg.harts, ∀ y, Pre cfg (.store l y) (vs g) → g = 0) : ZeroStores σ e σ' l := by
  obtain ⟨hmem, hno⟩ | ⟨g, y, hg, hp, hpre, hmem⟩ := hm.stored hl hI
  · exact Or.inl ⟨hmem, hno 0⟩
  · obtain rfl := h0 g hg y hpre
    exact Or.inr ⟨y, hp, hmem⟩

theorem ZeroStores.eq {l : Loc} {y : l.Ty} (hs : ZeroStores σ e σ' l)
    (hp : performed (σ, e) = some (0, .store l y)) : σ'.mem l = y := by
  rcases hs with ⟨_, hno⟩ | ⟨y', hp', hm⟩
  · exact absurd hp (hno y)
  · rw [hp] at hp'
    cases hp'
    exact hm

theorem ZeroStores.keep {l : Loc} (hs : ZeroStores σ e σ' l)
    (hno : ∀ y, performed (σ, e) ≠ some (0, .store l y)) : σ'.mem l = σ.mem l := by
  rcases hs with ⟨hm, _⟩ | ⟨y, hp, _⟩
  · exact hm
  · exact absurd hp (hno y)

/-! ## Every run -/

/-- `gticks` and `time.data`, when `n` entries were made on hart 0 and `due` updates for the last
of them are to come. -/
structure ClockIs (mem : Mem) (n due : ℕ) : Prop where
  gticks : (mem .gticks : U64) + (if due = 2 then 1 else 0) = BitVec.ofNat 64 n
  time_data : (mem .time_data : U64) + (if due = 0 then 0 else TICKS) = TICKS * BitVec.ofNat 64 n

theorem ClockIs.entry {mem : Mem} {n : ℕ} (hc : ClockIs mem n 0) : ClockIs mem (n + 1) 2 := by
  obtain ⟨hg, hd⟩ := hc
  rw [if_neg (by simp), add_zero] at hg
  rw [if_pos rfl, add_zero] at hd
  refine ⟨?_, ?_⟩
  · rw [if_pos rfl, hg, BitVec.ofNat_add]
    rfl
  · rw [if_neg (by simp), hd, BitVec.ofNat_add, mul_add]
    exact congrArg _ (mul_one TICKS).symm

theorem ClockIs.gticks_stored {mem mem' : Mem} {n : ℕ} (hc : ClockIs mem n 2)
    (hg : mem' .gticks = (mem .gticks : U64) + 1) (hd : mem' .time_data = mem .time_data) :
    ClockIs mem' n 1 := by
  refine ⟨?_, ?_⟩
  · rw [hg, if_neg (by simp), add_zero, ← hc.gticks, if_pos rfl]
  · rw [hd, ← hc.time_data]
    rfl

theorem ClockIs.time_stored {mem mem' : Mem} {n : ℕ} (hc : ClockIs mem n 1)
    (hg : mem' .gticks = mem .gticks) (hd : mem' .time_data = (mem .time_data : U64) + TICKS) :
    ClockIs mem' n 0 := by
  refine ⟨?_, ?_⟩
  · rw [hg, ← hc.gticks]
    rfl
  · rw [hd, if_pos rfl, add_zero, ← hc.time_data]
    rfl

theorem ClockIs.of {mem mem' : Mem} {n due : ℕ} (hc : ClockIs mem n due)
    (hg : mem' .gticks = mem .gticks) (hd : mem' .time_data = mem .time_data) :
    ClockIs mem' n due := ⟨by rw [hg, hc.gticks], by rw [hd, hc.time_data]⟩

/-- The two words and how far hart 0 is in counting its last entry. -/
structure ClockKept (tr : Trace) (mem : Mem) (k : Ghost) : Prop where
  boot : k.stage = .boot → k.trap = .idle ∧ tr.countP (entered 0) = 0
  turn : updating tr = decide (updatesDue k.trap ≠ 0)
  words : ClockIs mem (tr.countP (entered 0)) (updatesDue k.trap)

theorem updating_cons (x : State × Event) (tr : Trace) :
    updating (x :: tr) = (clockTurn x).getD (updating tr) := by
  unfold updating
  rw [List.findSome?_cons]
  cases clockTurn x <;> rfl

theorem clockTurn_other {x : State × Event}
    (he : performed x ≠ some (0, .point .software_interrupt))
    (hd : ∀ y, performed x ≠ some (0, .store .time_data y)) : clockTurn x = none := by
  unfold clockTurn
  split
  · next hp => exact absurd hp he
  · next y hp => exact absurd hp (hd y)
  · rfl

theorem ClockKept.words_step (hJ : ClockKept tr σ.mem v.k) (hx : ClockStep (σ, e) v v')
    (hown : σ.mem .gticks = v.m.mem .gticks ∧ σ.mem .time_data = v.m.mem .time_data)
    (hG : ZeroStores σ e σ' .gticks) (hT : ZeroStores σ e σ' .time_data) :
    updating ((σ, e) :: tr) = decide (updatesDue v'.k.trap ≠ 0) ∧
      ClockIs σ'.mem (((σ, e) :: tr).countP (entered 0)) (updatesDue v'.k.trap) := by
  obtain ⟨hboot, hturn, hwords⟩ := hJ
  have hcount : performed (σ, e) ≠ some (0, .point .software_interrupt) →
      ((σ, e) :: tr).countP (entered 0) = tr.countP (entered 0) := fun hne => by
    rw [List.countP_cons, not_entered hne, if_neg (by simp), add_zero]
  rw [updating_cons]
  cases hx with
  | entry hp hk hk' =>
    rw [hk] at hwords
    rw [hk', List.countP_cons, if_pos (entered_iff.2 hp), clockTurn, hp]
    exact ⟨rfl, (hwords.entry).of (hG.keep (by rw [hp]; simp)) (hT.keep (by rw [hp]; simp))⟩
  | gticks hp hk hy hk' =>
    rw [hk] at hturn hwords
    rw [hk', hcount (by rw [hp]; simp), clockTurn_other (by rw [hp]; simp) (by rw [hp]; simp)]
    refine ⟨hturn, hwords.gticks_stored ?_ (hT.keep (by rw [hp]; simp))⟩
    rw [hG.eq hp, hy, hown.1]
  | time_data hp hk hy hk' =>
    rw [hk] at hwords
    rw [hk', hcount (by rw [hp]; simp), clockTurn, hp]
    refine ⟨rfl, hwords.time_stored (hG.keep (by rw [hp]; simp)) ?_⟩
    rw [hT.eq hp, hy, hown.2]
  | reset hp hb hy hk' =>
    obtain ⟨hidle, hc⟩ := hboot hb
    rw [hidle, hc] at hwords
    rw [hk', hidle, hcount (by rw [hp]; simp), hc, clockTurn, hp]
    refine ⟨rfl, ?_, ?_⟩
    · rw [hG.keep (by rw [hp]; simp)]
      exact hwords.gticks
    · rw [hT.eq hp, hy]
      rfl
  | other he hg hd hk' =>
    rw [clockTurn_other he hd, hcount he, hk']
    exact ⟨hturn, hwords.of (hG.keep hg) (hT.keep hd)⟩

/-- Hart 0 handles no interrupt while it boots. -/
theorem Phase.idle (hx : Phase cfg 0 x v v') (htrap : trapped 0 x = false)
    (hi : v.k.trap = .idle) (hb : v'.k.stage = .boot) : v'.k.trap = .idle := by
  cases hx with
  | trap ht _ _ _ =>
    rw [htrap] at ht
    cases ht
  | op _ _ hp hk =>
    rw [hk, Ghost.after_trap]
    exact Op.trap_idle hp hi
  | still _ hk _ _ => rw [hk, hi]
  | switched _ _ _ hr =>
    rw [hr.stage] at hb
    cases hb

theorem clock (hg : GRun cfg tr σ vs) : ClockKept tr σ.mem (vs 0).k := by
  induction hg with
  | boot hb =>
    refine ⟨fun _ => ⟨rfl, rfl⟩, rfl, ?_⟩
    rw [hb.mem]
    exact ⟨rfl, rfl⟩
  | @step tr σ σ' vs vs' e hg hI hm hI' ih =>
    have h0 : (vs 0).k.hart = 0 := (hI.hart 0 cfg.harts_pos).hart
    have hx := Phase.clockStep (hm.phase hI 0) h0
    have hG := Move.zeroStores (l := .gticks) rfl hI hm fun g hg y hp =>
      (hI.hart g hg).hart.symm.trans hp.1
    have hT := Move.zeroStores (l := .time_data) rfl hI hm fun g hg y hp => by
      rw [← (hI.hart g hg).hart]
      rcases hp with ⟨hb, _⟩ | ⟨hz, _⟩
      · exact (hI.ok g hg).boot_hart hb
      · exact hz
    have hown := fun l (hl : (vs 0).k.Owns cfg.layout l) => hI.owned 0 cfg.harts_pos l hl
    obtain ⟨hturn, hwords⟩ := ih.words_step hx ⟨hown .gticks h0, hown .time_data h0⟩ hG hT
    refine ⟨fun hb => ?_, hturn, hwords⟩
    obtain ⟨hb0, htrap⟩ := Move.boot hm hI hb
    obtain ⟨hidle, hc⟩ := ih.boot hb0
    have hidle' := Phase.idle (hm.phase hI 0) htrap hidle hb
    refine ⟨hidle', ?_⟩
    rw [List.countP_cons, hc, not_entered, if_neg (by simp)]
    intro hp
    cases hx with
    | entry _ hk _ =>
      rw [hidle] at hk
      cases hk
    | gticks hp' _ _ _ =>
      rw [hp] at hp'
      cases hp'
    | time_data hp' _ _ _ =>
      rw [hp] at hp'
      cases hp'
    | reset hp' _ _ _ =>
      rw [hp] at hp'
      cases hp'
    | other he _ _ _ => exact he hp

/-- At every moment, with any number of harts and any timing of the interrupts: unless hart 0 is
between its entry and its store to `time.data`, `gticks` is the number of entries into the
software-interrupt case on hart 0 and `time.data` that many times `TICKS`, both modulo 2^64. In
between, `time.data` lags by one entry, and `gticks` by at most one. -/
theorem clock_counts_entries (hr : Run (kernel cfg) tr σ) :
    (updating tr = false → σ.mem .gticks = BitVec.ofNat 64 (tr.countP (entered 0)) ∧
      σ.mem .time_data = TICKS * BitVec.ofNat 64 (tr.countP (entered 0))) ∧
    (updating tr = true → (σ.mem .gticks = BitVec.ofNat 64 (tr.countP (entered 0)) ∨
        (σ.mem .gticks : U64) + 1 = BitVec.ofNat 64 (tr.countP (entered 0))) ∧
      (σ.mem .time_data : U64) + TICKS = TICKS * BitVec.ofNat 64 (tr.countP (entered 0))) := by
  obtain ⟨vs, hg⟩ := grun_of_run hr
  obtain ⟨_, hturn, hwords⟩ := clock hg
  rw [hturn]
  refine ⟨fun hu => ?_, fun hu => ?_⟩
  · have hdue : updatesDue (vs 0).k.trap = 0 := by simpa using hu
    rw [hdue] at hwords
    exact ⟨(BitVec.add_zero _).symm.trans hwords.gticks,
      (BitVec.add_zero _).symm.trans hwords.time_data⟩
  · have hdue : updatesDue (vs 0).k.trap ≠ 0 := by simpa using hu
    refine ⟨?_, (congrArg _ (if_neg hdue).symm).trans hwords.time_data⟩
    have hg := hwords.gticks
    split at hg
    · exact Or.inr hg
    · exact Or.inl ((BitVec.add_zero _).symm.trans hg)

/-- One tick in the first task, handled up to the `yield`. -/
theorem clock_counts_entries_once : ∃ (tr : Trace) (σ : State),
    Run (kernel (.sample 1 (by decide) (by decide))) tr σ ∧ tr.countP (entered 0) = 1 ∧
      σ.mem .gticks = (1 : U64) ∧ σ.mem .time_data = TICKS := by
  obtain ⟨tr, σ, hr, hp⟩ := Run.of_start (.sample 1 (by decide) (by decide)) Layout.sample_apart
    (List.replicate 585 (.hart 0 false) ++ .timer 0 :: List.replicate 55 (.hart 0 false))
    (fun x => !updating x.1 && x.1.countP (entered 0) == 1) (by decide +kernel)
  obtain ⟨hu, hn⟩ := (Bool.and_eq_true _ _).mp hp
  obtain ⟨hg, hd⟩ := (clock_counts_entries hr).1 (by simpa using hu)
  rw [beq_iff_eq.1 hn] at hg hd
  exact ⟨tr, σ, hr, beq_iff_eq.1 hn, hg, hd⟩

end GQuuuuuunix.Properties
