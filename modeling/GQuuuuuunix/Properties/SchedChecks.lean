import GQuuuuuunix.Proof.SchedSteps
import GQuuuuuunix.Proof.Ticks
import GQuuuuuunix.Properties.LockOwner

/-! # When the checks of sched suffice

The three checks of `sched` look at one lock; `off_nrs` they do not look at. The switch leaves the
hart in order exactly if the task held no other lock and nothing else had disabled interrupts. -/

namespace GQuuuuuunix.Properties
open Lib Kernel Proof
set_option autoImplicit false

variable {cfg : Config} {h : ℕ} {i : Fin TASK_MAX_NRS} {x y z : TakenState} {v : Nest}
  {pan : Bool}

theorem small_hart (hlt : h < cfg.harts) : h < 2 ^ 31 :=
  (lt_of_lt_of_le hlt cfg.harts_le).trans (by decide)

/-! ## The legs of a run -/

theorem knows_holds {L : Layout} (hf : Knows L h v x) (lk : TaskPtr) :
    x.σ.mem.Holds h lk ↔ v.locks.own lk = true := by
  refine ⟨fun hl => (hf.mem.own lk).1 hl.2, fun hown => ⟨?_, (hf.mem.own lk).2 hown⟩⟩
  exact hf.mem.locked lk (hf.mem.ok lk hown)

/-- `sched` is to come to its call of `switch_to` as it was called. -/
def ToSwitch (h : ℕ) (i : Fin TASK_MAX_NRS) (v0 : Nest) (o : Op) (v : Nest) : Prop :=
  o = .call_switch_to .sched (.task (.gTasks i)) (.cpu h) ∧ v = v0

/-- `switch_to` is to come to its `ret` with the registers of the frame `p`. -/
def ToScheduler (h : ℕ) (i : Fin TASK_MAX_NRS) (v0 : Nest) (p : Parked) (o : Op) (v : Nest) :
    Prop :=
  o = .ret (.task (.gTasks i)) (.cpu h) ∧ ∃ a ρ, v = { v0 with apart := a, regs := ρ } ∧
    ∀ s ∈ switch_to_slots, ρ s.1 = some (p.regs s.2)

/-- The release is to come to its end one level further out, with the lock of the task given
back. -/
def ToRelease (i : Fin TASK_MAX_NRS) (v0 : Nest) (o : Op) (v : Nest) : Prop :=
  o = .leave (.release (.gTasks i)) 0 ∧ v.off = v0.off - 1 ∧
    v.locks.own = Function.update v0.locks.own (.gTasks i) false

/-- Hart `h` is in `sched`, in `switch_to`, or back in its scheduler. -/
inductive OnTheWay (cfg : Config) (h : ℕ) (i : Fin TASK_MAX_NRS) (pan : Bool) (v0 : Nest)
    (p : Parked) (y : TakenState) : Prop where
  | sched : Going cfg.layout h pan (ToSwitch h i v0) y → OnTheWay cfg h i pan v0 p y
  | switching : Going cfg.layout h pan (ToScheduler h i v0 p) y → OnTheWay cfg h i pan v0 p y
  | scheduler : Going cfg.layout h pan (ToRelease i v0) y → OnTheWay cfg h i pan v0 p y

/-- The view of a hart that calls `sched`; its scheduler waits with the frame `p`. -/
structure Called (cfg : Config) (h : ℕ) (i : Fin TASK_MAX_NRS) (v0 : Nest) (p : Parked) : Prop where
  masked : v0.masked = true
  blank : v0.Blank
  apart : v0.apart = true
  task : v0.task = some (.gTasks i)
  frame : v0.frame = some p
  own : v0.locks.own (.gTasks i) = true
  ra : p.regs 0 ≠ cfg.layout.dummy_task
  code : ∃ rest, p.code = (afterSwitch h i).bind fun _ => rest

theorem step_own {σ σ' : State} {n : ℕ} {L : Layout} {fail : Bool}
    (hi : (σ.harts h).interrupted = false) (hs : σ.step L n (.hart h fail) = some σ') :
    h < n ∧ ∃ (o : Op) (k : o.Ret → Code), (σ.harts h).code = .op o k ∧
      σ.exec L h fail o k = some σ' := by
  simp only [State.step, hi, Bool.false_eq_true, if_false] at hs
  split at hs
  swap
  · cases hs
  next hlt =>
  split at hs
  · next o k hcode => exact ⟨hlt, o, k, hcode, hs⟩
  · cases hs

section
variable {v0 : Nest} {p : Parked} (hh : h < 2 ^ 31) (hc : Called cfg h i v0 p)
  (hoff : pan = true ∨ v0.off = 1)
include hh hc hoff

omit hh hoff in
/-- The call of `switch_to` starts the second leg. -/
theorem going_switch {σ' : State} {fail : Bool} {k : Unit → Code} (hf : Knows cfg.layout h v0 y)
    (hn : y.σ.next h = some (.call_switch_to .sched (.task (.gTasks i)) (.cpu h)))
    (hx : y.σ.exec cfg.layout h fail (.call_switch_to .sched (.task (.gTasks i)) (.cpu h)) k =
      some σ') : Going cfg.layout h pan (ToScheduler h i v0 p) (y.step h fail σ') := by
  obtain ⟨hf', hcode⟩ := hf.call_switch_to hc.blank (Or.inl hc.apart) hn hx
  refine ⟨v0, hf', ?_⟩
  show Nests h pan _ (σ'.harts h).code v0 _
  rw [hcode]
  refine nests_switch_to (Or.inr hc.masked) (fun hn => (by cases hn)) fun a ρ hρ => ?_
  exact ⟨rfl, a, ρ, rfl, hρ rfl p hc.frame⟩

/-- The `ret` starts the third. -/
theorem going_ret {σ' : State} {fail : Bool} {k : Unit → Code} (hf : Knows cfg.layout h v y)
    (ha : ToScheduler h i v0 p (.ret (.task (.gTasks i)) (.cpu h)) v)
    (hn : y.σ.next h = some (.ret (.task (.gTasks i)) (.cpu h)))
    (hx : y.σ.exec cfg.layout h fail (.ret (.task (.gTasks i)) (.cpu h)) k = some σ') :
    Going cfg.layout h pan (ToRelease i v0) (y.step h fail σ') := by
  obtain ⟨-, a, ρ, rfl, hρ⟩ := ha
  obtain ⟨hf', hcode⟩ := hf.ret hc.frame hρ hc.ra hn hx
  obtain ⟨rest, hrest⟩ := hc.code
  refine ⟨_, hf', ?_⟩
  show Nests h pan _ (σ'.harts h).code _ _
  rw [hcode, hrest]
  have hv : ({ v0 with apart := a, regs := ρ } : Nest).blank.Ready pan :=
    ⟨Or.inr hc.masked, fun _ => rfl⟩
  exact Nests.bind (nests_after_switch hh hv (Or.inr hc.own) hoff fun b => ⟨rfl, rfl, rfl⟩)

theorem onTheWay_step (hy : OnTheWay cfg h i pan v0 p y)
    (hs : SchedStep cfg h (AtRelease h (.gTasks i)) y z) : OnTheWay cfg h i pan v0 p z := by
  cases hs with
  | others hm =>
    cases hy with
    | sched hg => exact .sched (hg.others hm)
    | switching hg => exact .switching (hg.others hm)
    | scheduler hg => exact .scheduler (hg.others hm)
  | own fail hstop hi hstep =>
    obtain ⟨-, o, k, hcode, hx⟩ := step_own hi hstep
    have hn := next_eq hi hcode
    by_cases he : Op.ends o = true
    · cases hy with
      | sched hg =>
        obtain ⟨w, hf, ⟨rfl, rfl⟩, -⟩ := hg.at_end hcode he
        exact .switching (going_switch hc hf hn hx)
      | switching hg =>
        obtain ⟨w, hf, ha, -⟩ := hg.at_end hcode he
        obtain rfl := ha.1
        exact .scheduler (going_ret hh hc hoff hf ha hn hx)
      | scheduler hg =>
        obtain ⟨w, -, ⟨rfl, -⟩, -⟩ := hg.at_end hcode he
        exact absurd ⟨0, k, hcode⟩ hstop
    · have he : Op.ends o = false := by simpa using he
      cases hy with
      | sched hg => exact .sched (hg.own hh hi hcode he hx)
      | switching hg => exact .switching (hg.own hh hi hcode he hx)
      | scheduler hg => exact .scheduler (hg.own hh hi hcode he hx)

theorem onTheWay_run (hx : OnTheWay cfg h i pan v0 p x)
    (hr : SchedRun cfg h (AtRelease h (.gTasks i)) x y) : OnTheWay cfg h i pan v0 p y := by
  induction hr with
  | refl => exact hx
  | tail _ hs ih => exact onTheWay_step hh hc hoff ih hs

end

/-! ## The call of sched -/

/-- What hart `h` knows when it calls `sched`. -/
def calledView (h : ℕ) (x : TakenState) (p : Parked) : Nest where
  off := x.σ.mem (.off_nrs h)
  masked := true
  task := x.σ.mem (.cpu_task h)
  locks := ⟨x.taken, fun lk => decide (x.σ.mem (.lk_cpu lk) = some h)⟩
  st := fun lk => some (x.σ.mem (.state lk))
  apart := true
  frame := some p
  regs := fun _ => none

theorem calledView_knows (hx : AtSched cfg h i x) {p : Parked}
    (hp : x.σ.parked (x.σ.mem (.cpu_context h 1)) = some p)
    (hctx : ∀ j, x.σ.mem (.cpu_context h j) = p.regs j) :
    Knows cfg.layout h (calledView h x p) x := by
  have hl := hx.locks
  refine ⟨⟨rfl, rfl, hl.locked, fun lk => ?_, fun lk hlk => ?_, hl.acquire, hl.release,
    hl.is_holding, fun lk _ s hs => Option.some.inj hs, fun q hq j => ?_⟩, rfl, hx.tp,
    fun _ => hx.not_interruptible, fun q hq => ?_, fun _ q hq => ?_, fun r y hr => (by cases hr)⟩
  · exact decide_eq_true_iff.symm
  · exact hl.named lk (decide_eq_true_iff.1 hlk)
  · cases hq
    exact hctx j
  · cases hq
    rw [← hctx 1]
    exact hp
  · cases hq
    rw [← hctx 1]
    exact hx.stack

theorem called (hx : AtSched cfg h i x) : ∃ p, Called cfg h i (calledView h x p) p ∧
    Knows cfg.layout h (calledView h x p) x := by
  obtain ⟨p, rest, hp, hctx, hra, hcode⟩ := hx.scheduler
  exact ⟨p, ⟨rfl, fun _ => rfl, rfl, hx.cpu_task, rfl, decide_eq_true hx.holding.2, hra, rest,
    hcode⟩, calledView_knows hx hp hctx⟩

theorem called_going (hx : AtSched cfg h i x) {p : Parked}
    (hc : Called cfg h i (calledView h x p) p) (hf : Knows cfg.layout h (calledView h x p) x) :
    Going cfg.layout h pan (ToSwitch h i (calledView h x p)) x := by
  have hh := small_hart hx.hart_lt
  obtain ⟨k, hk⟩ := hx.code
  refine ⟨_, hf, ?_⟩
  rw [hk]
  exact Nests.bind (nests_sched hh ⟨Or.inr rfl, hc.blank⟩ hc.task hc.own rfl hx.not_running rfl
    ⟨rfl, rfl⟩)

/-- What a hart has when it has released the lock of a task that called `sched`. -/
theorem at_release (hx : AtSched cfg h i x) (hr : SchedRun cfg h (AtRelease h (.gTasks i)) x y)
    (hy : AtRelease h (.gTasks i) y.σ) : y.σ.mem (.off_nrs h) = x.σ.mem (.off_nrs h) - (1 : I32) ∧
      ∀ lk, y.σ.mem.Holds h lk ↔ x.σ.mem.Holds h lk ∧ lk ≠ .gTasks i := by
  obtain ⟨p, hc, hf⟩ := called hx
  have hh := small_hart hx.hart_lt
  obtain ⟨r, k, hcode⟩ := hy
  have hway := onTheWay_run hh hc (Or.inl (rfl : true = true)) (.sched (called_going hx hc hf)) hr
  cases hway with
  | sched hg =>
    obtain ⟨w, -, ⟨hn, -⟩, -⟩ := hg.at_end hcode rfl
    cases hn
  | switching hg =>
    obtain ⟨w, -, ⟨hn, -⟩, -⟩ := hg.at_end hcode rfl
    cases hn
  | scheduler hg =>
    obtain ⟨w, hfw, ⟨-, hoff, hown⟩, -⟩ := hg.at_end hcode rfl
    refine ⟨hfw.mem.off.trans hoff, fun lk => ?_⟩
    rw [knows_holds hfw, knows_holds hf, hown]
    by_cases hlk : lk = .gTasks i
    · rw [hlk, Function.update_self]
      simp
    · rw [Function.update_of_ne hlk]
      simp [hlk]

theorem not_atRelease {σ : State} {o : Op} {k : o.Ret → Code} {lk : TaskPtr}
    (hcode : (σ.harts h).code = .op o k) (hne : ∀ r, o ≠ .leave (.release lk) r) :
    ¬ AtRelease h lk σ := fun ⟨r, _, hc⟩ => hne r (Prog.op.inj (hcode.symm.trans hc)).1

/-- At depth 1 the release comes to its end. -/
theorem comes_to_release (hx : AtSched cfg h i x) (hoff : x.σ.mem (.off_nrs h) = (1 : I32)) :
    ∃ y, SchedRun cfg h (AtRelease h (.gTasks i)) x y ∧ AtRelease h (.gTasks i) y.σ := by
  obtain ⟨p, hc, hf⟩ := called hx
  have hh := small_hart hx.hart_lt
  have hstop : StopsAtEnds h (AtRelease h (.gTasks i)) := by
    intro σ o k hcode he
    refine not_atRelease hcode fun r hn => ?_
    subst hn
    cases he
  have hleg : ∀ {A : Op → Nest → Prop} {z : TakenState}, Going cfg.layout h false A z →
      ∃ (y : TakenState) (o : Op) (k : o.Ret → Code) (v : Nest),
        SchedRun cfg h (AtRelease h (.gTasks i)) z y ∧ Knows cfg.layout h v y ∧ A o v ∧
        (y.σ.harts h).code = .op o k := by
    rintro A z ⟨v, hv, hw⟩
    obtain ⟨y, o, k, hr, hg, hcode, he⟩ := comes_to_end hx.hart_lt hstop _ hv rfl hw
    obtain ⟨w, hw, ha, -⟩ := hg.at_end hcode he
    exact ⟨y, o, k, w, hr, hw, ha, hcode⟩
  obtain ⟨y1, o1, k1, v1, hr1, hf1, ⟨rfl, rfl⟩, hcode1⟩ := hleg (called_going hx hc hf)
  obtain ⟨hn1, hs1⟩ :=
    hf1.masked_step (b := false) hx.hart_lt rfl (not_atRelease hcode1 (by simp)) hcode1 rfl
  obtain ⟨y2, o2, k2, v2, hr2, hf2, ha2, hcode2⟩ := hleg (going_switch hc hf1 hn1 rfl)
  obtain rfl := ha2.1
  have hm2 : v2.masked = true := by
    obtain ⟨-, a, ρ, rfl, -⟩ := ha2
    rfl
  obtain ⟨hn2, hs2⟩ :=
    hf2.masked_step (b := false) hx.hart_lt hm2 (not_atRelease hcode2 (by simp)) hcode2 rfl
  obtain ⟨y3, o3, k3, v3, hr3, hf3, ⟨rfl, -⟩, hcode3⟩ :=
    hleg (going_ret (k := k2) hh hc (Or.inr hoff) hf2 ha2 hn2 rfl)
  exact ⟨y3, ((hr1.tail hs1).trans (hr2.tail hs2)).trans hr3, 0, k3, hcode3⟩

/-! ## The task is resumed -/

/-- The scan is to come to `switch_to` with the lock of the task, or to pass the task over. -/
def ToTask (g : ℕ) (i : Fin TASK_MAX_NRS) (o : Op) (v : Nest) : Prop :=
  (o = .call_switch_to .scheduler (.cpu g) (.task (.gTasks i)) ∧
    v.locks.own (.gTasks i) = true ∧ v.frame = none) ∨ o = .leave (.release (.gTasks i)) 0

/-- `switch_to` is to come to its `ret` with the lock of the task. -/
def ToResume (g : ℕ) (i : Fin TASK_MAX_NRS) (o : Op) (v : Nest) : Prop :=
  o = .ret (.cpu g) (.task (.gTasks i)) ∧ v.locks.own (.gTasks i) = true

/-- What hart `g` knows in its scan. -/
def scanView (g : ℕ) (x : TakenState) : Nest where
  off := x.σ.mem (.off_nrs g)
  masked := false
  task := x.σ.mem (.cpu_task g)
  locks := ⟨x.taken, fun lk => decide (x.σ.mem (.lk_cpu lk) = some g)⟩
  st := fun _ => none
  apart := false
  frame := none
  regs := fun _ => none

theorem scan_going {g : ℕ} (hx : AtScan cfg g i x) : Going cfg.layout g true (ToTask g i) x := by
  have hl := hx.locks
  obtain ⟨k, hk⟩ := hx.code
  refine ⟨scanView g x, ⟨⟨rfl, rfl, hl.locked, fun lk => decide_eq_true_iff.symm,
    fun lk hlk => hl.named lk (decide_eq_true_iff.1 hlk), hl.acquire, hl.release, hl.is_holding,
    fun lk _ s hs => (by cases hs), fun q hq => (by cases hq)⟩, rfl, hx.tp, fun hn => (by cases hn),
    fun q hq => (by cases hq), fun hn => (by cases hn), fun r y hr => (by cases hr)⟩, ?_⟩
  rw [hk]
  refine Nests.bind (nests_scan_body (small_hart hx.hart_lt) ⟨Or.inl rfl, fun _ => rfl⟩ ?_ ?_)
  · exact fun w _ hown hfr => Or.inl ⟨rfl, hown, hfr⟩
  · exact fun w => Or.inr rfl

/-- Where a hart is that may resume the task. -/
def Resuming (cfg : Config) (g : ℕ) (i : Fin TASK_MAX_NRS) (y : TakenState) : Prop :=
  Going cfg.layout g true (ToTask g i) y ∨ Going cfg.layout g true (ToResume g i) y

theorem resuming_step {g : ℕ} (hg : g < 2 ^ 31) (hy : Resuming cfg g i y)
    (hs : SchedStep cfg g
      (fun σ => AtRet g (.cpu g) (.task (.gTasks i)) σ ∨ AtRelease g (.gTasks i) σ) y z) :
    Resuming cfg g i z := by
  cases hs with
  | others hm => exact hy.imp (fun h => h.others hm) fun h => h.others hm
  | @own σ' fail hstop hi hstep =>
    obtain ⟨-, o, k, hcode, hx⟩ := step_own hi hstep
    by_cases he : Op.ends o = true
    · rcases hy with hy | hy
      · obtain ⟨v, hf, ⟨rfl, hown, hfr⟩ | rfl, hb⟩ := hy.at_end hcode he
        · obtain ⟨hf', hcode'⟩ := hf.call_switch_to (hb rfl) (Or.inr hfr) (next_eq hi hcode) hx
          refine Or.inr ⟨v, hf', ?_⟩
          show Nests g true _ (σ'.harts g).code v _
          rw [hcode']
          exact nests_switch_to (Or.inl rfl) (fun _ => hfr) fun a ρ _ => ⟨rfl, hown⟩
        · exact absurd (Or.inr ⟨0, k, hcode⟩) hstop
      · obtain ⟨v, -, ⟨rfl, -⟩, -⟩ := hy.at_end hcode he
        exact absurd (Or.inl ⟨k, hcode⟩) hstop
    · have he : Op.ends o = false := by simpa using he
      exact hy.imp (fun h => h.own hg hi hcode he hx) fun h => h.own hg hi hcode he hx

theorem resuming_run {g : ℕ} (hg : g < 2 ^ 31) (hy : Resuming cfg g i y)
    (hr : SchedRun cfg g
      (fun σ => AtRet g (.cpu g) (.task (.gTasks i)) σ ∨ AtRelease g (.gTasks i) σ) y z) :
    Resuming cfg g i z := by
  induction hr with
  | refl => exact hy
  | tail _ hs ih => exact resuming_step hg ih hs

/-- The hart that resumes the task holds its lock. -/
theorem resumed_holds {g : ℕ} (hy : AtScan cfg g i y) (hr : SchedRun cfg g
      (fun σ => AtRet g (.cpu g) (.task (.gTasks i)) σ ∨ AtRelease g (.gTasks i) σ) y z)
    (hz : AtRet g (.cpu g) (.task (.gTasks i)) z.σ) : z.σ.mem.Holds g (.gTasks i) := by
  have hres := resuming_run (small_hart hy.hart_lt) (Or.inl (scan_going hy)) hr
  obtain ⟨k, hcode⟩ := hz
  rcases hres with hg | hg
  · obtain ⟨v, -, ⟨hn, -⟩ | hn, -⟩ := hg.at_end hcode rfl <;> cases hn
  · obtain ⟨v, hf, ⟨-, hown⟩, -⟩ := hg.at_end hcode rfl
    exact (knows_holds hf _).2 hown

/-- The checks suffice at depth 1, for a task that holds no lock but its own. -/
theorem sched_checks_suffice (hx : AtSched cfg h i x) : ChecksSuffice cfg h i x ↔
    x.σ.mem (.off_nrs h) = (1 : I32) ∧ ∀ lk, x.σ.mem.Holds h lk → lk = .gTasks i := by
  constructor
  · intro hs
    obtain ⟨y, hr, hy⟩ := hs.comes
    obtain ⟨hoff, hlocks⟩ := at_release hx hr hy
    obtain ⟨h0, hnone⟩ := hs.released y hr hy
    refine ⟨?_, fun lk hlk => ?_⟩
    · rw [h0] at hoff
      exact (sub_eq_zero.1 hoff.symm)
    · by_contra hne
      exact hnone lk ((hlocks lk).2 ⟨hlk, hne⟩)
  · rintro ⟨hoff, honly⟩
    refine ⟨comes_to_release hx hoff, fun y hr hy => ?_, fun g y z hy hr hz lk hlk => ?_⟩
    · obtain ⟨hoff', hlocks⟩ := at_release hx hr hy
      refine ⟨?_, fun lk hlk => ?_⟩
      · rw [hoff', hoff]
        rfl
      · obtain ⟨hlk', hne⟩ := (hlocks lk).1 hlk
        exact hne (honly lk hlk')
    · rw [honly lk hlk]
      exact resumed_holds hy hr hz

/-! ## The kernel -/

section
variable {σ σ' : State} {vs vs' : ℕ → View} {tr : Trace} {e : Event}

/-- What a hart has in hand, and its memory, stay while it makes no step of its own. -/
theorem Move.unstepped (hm : Move cfg σ vs e σ' vs') (he : stepped h (σ, e) = false) :
    (vs' h).k = (vs h).k ∧ (vs' h).m = (vs h).m := by
  have hg : ∀ {g : ℕ} {w : View}, (g == h) = false →
      (Function.update vs g w h).k = (vs h).k ∧ (Function.update vs g w h).m = (vs h).m := by
    intro g w hg
    rw [Function.update_of_ne (by simpa using Ne.symm (by simpa using hg))]
    exact ⟨rfl, rfl⟩
  cases hm with
  | trap | op | call | ret => exact hg he
  | loop | timer => exact ⟨rfl, rfl⟩
  | @compute g r pc hh =>
    by_cases hgh : g = h
    · subst hgh
      rw [Function.update_self]
      exact ⟨rfl, rfl⟩
    · exact hg (by simpa using hgh)

/-- Compiled C alone moves the registers of a hart that makes no step. -/
theorem unstepped_regs (hs : σ.step cfg.layout cfg.harts e = some σ')
    (he : stepped h (σ, e) = false) :
    (σ'.harts h).regs = (σ.harts h).regs ∨ Code.isC (σ.harts h).code = true ∧
      cfg.layout.ComputeOk (σ.harts h).regs (σ'.harts h).regs := by
  cases e with
  | timer g =>
    simp only [State.step] at hs
    split at hs <;> cases hs
    left
    by_cases hg : h = g
    · subst hg
      show (Function.update σ.harts h (σ.harts h).timerTrap h).regs = _
      rw [Function.update_self]
      exact timer_vec_regs _ _
    · show (Function.update σ.harts g _ h).regs = _
      rw [Function.update_of_ne hg]
  | compute g r pc =>
    simp only [State.step] at hs
    split at hs
    swap
    · cases hs
    next hc =>
    cases hs
    by_cases hg : h = g
    · subst hg
      right
      show _ ∧ cfg.layout.ComputeOk _ (Function.update σ.harts h _ h).regs
      rw [Function.update_self]
      exact hc.2
    · left
      show (Function.update σ.harts g _ h).regs = _
      rw [Function.update_of_ne hg]
  | hart g fail =>
    have hg : h ≠ g := by
      rintro rfl
      simp [stepped] at he
    simp only [State.step] at hs
    split at hs
    swap
    · cases hs
    split at hs
    · cases hs
      left
      show (Function.update σ.harts g _ h).regs = _
      rw [Function.update_of_ne hg]
    split at hs
    · exact Or.inl (by rw [exec_other hg hs])
    · cases hs

/-- A word of a lock, or the state of a task, that is written by stores only: one that another hart
does not store to stays. -/
theorem Move.unstored (hI : Inv cfg σ vs) (hm : Move cfg σ vs e σ' vs')
    (he : stepped h (σ, e) = false) {l : Loc} (hl : Loc.plain l = true)
    (hno : ∀ g x, g < cfg.harts → g ≠ h → ¬ Pre cfg (.store l x) (vs g)) : σ'.mem l = σ.mem l := by
  obtain ⟨hmem, -⟩ | ⟨g, x, hg, hp, hpre, -⟩ := hm.stored hl hI
  · exact hmem
  · refine absurd hpre (hno g x hg ?_)
    rintro rfl
    cases e with
    | hart g' fail =>
      obtain ⟨o, -, ho⟩ := Option.map_eq_some_iff.1 hp
      rw [(Prod.mk.inj ho).1] at he
      simp [stepped] at he
    | compute | timer => cases hp

/-- Nothing is left behind on the stack of a hart that makes no step. -/
theorem Move.unparked (hI : Inv cfg σ vs) (hm : Move cfg σ vs e σ' vs')
    (he : stepped h (σ, e) = false) {sp : U64} (hsp : cfg.layout.stackOf sp = some (.hart h)) :
    σ'.parked sp = σ.parked sp := by
  cases hm with
  | op hg hi hcode hs hp hx hgo => rw [hx.parked]
  | @call g fail s en t fs f hg hi hcode hk =>
    refine if_neg fun heq => ?_
    rw [Function.update_of_ne (by decide)] at heq
    have hstk := (hI.ok g hg).sp (by rw [hk]; rfl)
    rw [← (hI.hart g hg).regs, ← heq, hsp] at hstk
    have hgh := (hI.ok g hg).stk_hart h (Option.some.inj hstk).symm
    rw [(hI.hart g hg).hart] at hgh
    simp [stepped, hgh] at he
  | _ => rfl

/-- The harts of the kernel make of the machine no more than `Meanwhile` allows for, once the
barrier is open, of a hart whose scheduler waits on the stack of the hart. -/
theorem kernel_meanwhile (hr : Run (kernel cfg) tr σ) (hs : (kernel cfg).step σ e = some σ')
    (hh : h < cfg.harts) (hopen : ∃ x ∈ tr, opensBarrier x = true)
    (hstk : cfg.layout.stackOf (σ.mem (.cpu_context h 1)) = some (.hart h))
    (he : stepped h (σ, e) = false) :
    Meanwhile cfg.layout h (fun lk => hasTaken h lk tr) σ σ' := by
  obtain ⟨vs, hg⟩ := grun_of_run hr
  have hI := hg.inv
  obtain ⟨vs', hm, hI'⟩ := hI.step hs
  obtain ⟨hk, hown⟩ := Move.unstepped hm he
  have hop := (opened hg).stage.1 hopen
  have hop' := (opened (hg.step hI hm hI')).stage.1
    (hopen.imp fun x hx => ⟨List.mem_cons_of_mem _ hx.1, hx.2⟩)
  have hhart := (hI.hart h hh).hart
  have hhart' := (hI'.hart h hh).hart
  have hboot : ∀ {g}, g < cfg.harts → (vs g).k.stage ≠ .boot := by
    intro g hg hb
    rw [← hI.stage_cases hg hb, hb] at hop
    cases hop
  have hlock : ∀ {lk}, hasTaken h lk tr = true → ∃ t, lk = .gTasks t ∧ (vs h).k.held = some t :=
    fun ht => (taken hg h hh _).1 ht
  have hcpu := hI.cpu h hh
  have hcpu' := hI'.cpu h hh
  rw [hk] at hcpu'
  refine
    { code := step_unstepped hs he
      sstatus := ?_
      tp := ?_
      sp := ?_
      regs := ?_
      off_nrs := ?_
      cpu_task := ?_
      cpu_context := fun i => ?_
      parked := Move.unparked hI hm he hstk
      acquire := fun lk => Move.unstored hI hm he rfl fun g x hg _ hp => hboot hg hp
      release := fun lk => Move.unstored hI hm he rfl fun g x hg _ hp => hboot hg hp
      is_holding := fun lk => Move.unstored hI hm he rfl fun g x hg _ hp => hboot hg hp
      lk_cpu := fun lk => ?_
      isLocked := fun lk ht => ?_
      state := fun lk ht => ?_ }
  · rw [(hI'.hart h hh).sstatus, (hI.hart h hh).sstatus, hown]
  · obtain hr | ⟨-, hc⟩ := unstepped_regs hs he
    · rw [hr]
    · exact hc.1
  · obtain hr | ⟨-, hc⟩ := unstepped_regs hs he
    · rw [hr]
    · exact hc.2.1
  · intro hc
    obtain hr | ⟨hc', -⟩ := unstepped_regs hs he
    · exact hr
    · rw [hc] at hc'
      cases hc'
  · rw [← hhart]
    exact hcpu'.off_nrs.trans hcpu.off_nrs.symm
  · rw [← hhart]
    exact hcpu'.cpu_task.trans hcpu.cpu_task.symm
  · rw [hI.owned h hh (.cpu_context h i) hhart.symm, ← hown]
    exact hI'.owned h hh (.cpu_context h i) hhart'.symm
  · cases lk with
    | static j => rw [hI.closed _ (Or.inr ⟨j, rfl⟩), hI'.closed _ (Or.inr ⟨j, rfl⟩)]
    | gTasks t =>
      rw [((hI.table hop).lock t).lk_cpu, ((hI'.table hop').lock t).lk_cpu]
      simp only [hk]
  · obtain ⟨t, rfl, hheld⟩ := hlock ht
    rw [((hI.table hop).lock t).held h hh hheld]
    exact ((hI'.table hop').lock t).held h hh (by rw [hk]; exact hheld)
  · obtain ⟨t, rfl, hheld⟩ := hlock ht
    refine Move.unstored hI hm he rfl fun g x hg hne hp => ?_
    obtain hb | ⟨t', heq, ht', -⟩ := hp
    · exact hboot hg hb
    · cases heq
      exact hne (hI.held_inj g hg h hh t ht' hheld)

/-- The kernel itself calls `sched` at depth 1 only, from a task that holds no lock but its own. -/
theorem kernel_sched_depth (hr : Run (kernel cfg) tr σ) (hh : h < cfg.harts) {old new : CtxPtr}
    (hn : σ.next h = some (.call_switch_to .sched old new)) :
    σ.mem (.off_nrs h) = (1 : I32) ∧
      ∃ t, old = .task (.gTasks t) ∧ ∀ lk, hasTaken h lk tr = true ↔ lk = .gTasks t := by
  obtain ⟨vs, hg⟩ := grun_of_run hr
  have hI := hg.inv
  obtain ⟨en, t, hk, rfl, -⟩ := hI.pre_next hh hn
  have hhart := (hI.hart h hh).hart
  refine ⟨?_, t, rfl, fun lk => ?_⟩
  · have hoff := (hI.cpu h hh).off_nrs
    rw [hhart] at hoff
    rw [hoff, hk]
    rfl
  · rw [taken hg h hh lk, hk]
    exact ⟨fun ⟨t', hlk, ht'⟩ => (by cases ht'; exact hlk), fun hlk => ⟨t, hlk, rfl⟩⟩

end

/-! ## One call -/

/-- Hart 0 calls `sched` in the first task, with `n` in `off_nrs` and the locks of `own` in hand;
its scheduler waits on the stack that it booted on. -/
def callingSched (n : I32) (own : TaskPtr → Bool) : TakenState where
  σ :=
    { State.start (.sample 1 Nat.one_pos one_le_max) with
      harts := fun h =>
        { Hart.start (.sample 1 Nat.one_pos one_le_max) h with
          regs := fun
            | .sp => Layout.sample.stackTop 0
            | _ => 0
          code := sched }
      mem := fun
        | .off_nrs _ => n
        | .cpu_task _ => some (.gTasks 0)
        | .cpu_context _ j => if j = 1 then Layout.sample.startSp 0 else 0
        | .state _ => TaskState.RUNNABLE
        | .cell (.isLocked lk) => if own lk then (1 : I32) else 0
        | .lk_cpu lk => if own lk then some 0 else none
        | .lk_acquire _ => LockFn.acquire_lk
        | .lk_release _ => LockFn.release_lk
        | .lk_is_holding _ => LockFn.is_holding_lk
        | l => Mem.zero l
      parked := fun _ => some
        { regs := fun j => if j = 1 then Layout.sample.startSp 0 else 0
          calls := []
          code := afterSwitch 0 0 } }
  taken := own

theorem callingSched_atSched (n : I32) (own : TaskPtr → Bool) (h0 : own (.gTasks 0) = true) :
    AtSched (.sample 1 Nat.one_pos one_le_max) 0 0 (callingSched n own) where
  hart_lt := Nat.one_pos
  tp := rfl
  code := ⟨.pure, (Prog.bind_pure sched).symm⟩
  cpu_task := rfl
  locks :=
    { acquire := fun _ => rfl
      release := fun _ => rfl
      is_holding := fun _ => rfl
      named := fun lk hlk => by
        change (if own lk then some 0 else none) = some 0 at hlk
        split at hlk
        · next ho => exact ho
        · cases hlk
      locked := fun lk hlk => by
        show (if own lk then (1 : I32) else 0) ≠ 0
        rw [if_pos (show own lk = true from hlk)]
        decide }
  scheduler := ⟨_, .pure (), rfl, fun _ => rfl, by decide, (Prog.bind_pure _).symm⟩
  stack := show Layout.sample.stackOf (Layout.sample.stackTop 0) ≠
    Layout.sample.stackOf (Layout.sample.startSp 0) by decide
  holding := by
    refine ⟨?_, ?_⟩
    · show (if own (.gTasks 0) then (1 : I32) else 0) ≠ 0
      rw [if_pos h0]
      decide
    · show (if own (.gTasks 0) then some 0 else none) = some 0
      rw [if_pos h0]
  not_running := show TaskState.RUNNABLE ≠ .RUNNING by decide
  not_interruptible := show sie 0 = false by decide

/-- A task with one more lock in hand passes the checks and leaves its hart at depth 1. -/
theorem sched_checks_not : ∃ x : TakenState, AtSched (.sample 1 Nat.one_pos one_le_max) 0 0 x ∧
    ¬ ChecksSuffice (.sample 1 Nat.one_pos one_le_max) 0 0 x := by
  have hx := callingSched_atSched 2 (fun lk => lk = .gTasks 0 || lk = .static 0) (by decide)
  refine ⟨_, hx, fun hs => ?_⟩
  obtain ⟨y, hr, hy⟩ := hs.comes
  have h0 := (hs.released y hr hy).1
  rw [(at_release hx hr hy).1] at h0
  exact absurd h0 (by decide)

/-- A task that holds its own lock only. -/
theorem sched_checks_suffice_one : ChecksSuffice (.sample 1 Nat.one_pos one_le_max) 0 0
    (callingSched 1 fun lk => lk = .gTasks 0) := by
  refine (sched_checks_suffice (callingSched_atSched 1 _ (by decide))).2 ⟨rfl, fun lk hlk => ?_⟩
  have hcpu : (if decide (lk = .gTasks 0) = true then some 0 else none) = some 0 := hlk.2
  by_contra hne
  rw [if_neg (by simpa using hne)] at hcpu
  cases hcpu

end GQuuuuuunix.Properties
