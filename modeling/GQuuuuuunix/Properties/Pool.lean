import GQuuuuuunix.Lib.Pool
import GQuuuuuunix.Lib.Simulation
import GQuuuuuunix.Proof.Clients
import GQuuuuuunix.Proof.Drain
import GQuuuuuunix.Proof.Programs

/-! # The harts are a pool of workers

Of the locks, the table of tasks, the contexts and `switch_to`, what remains to be seen from outside
is which hart begins a pass over the table, takes a task, or gives it back. -/

namespace GQuuuuuunix.Properties
open Lib Kernel Proof
set_option autoImplicit false

variable {cfg : Config} {σ σ' : State} {vs vs' : ℕ → View} {h : ℕ} {e : Event}
  {s : Pool ℕ Slot}

/-- A hart begins a pass, or calls `switch_to` for a task. -/
def poolEvent (x : State × Event) : Option (PoolEvent ℕ Slot) :=
  match performed x with
  | some (h, .point .pass_begin) => some (.pass h)
  | some (h, .call_switch_to .scheduler _ (.task (.gTasks t))) => some (.dispatch h t)
  | some (h, .call_switch_to .sched (.task (.gTasks t)) _) => some (.park h t)
  | _ => none

/-- What the scheduler of a machine with tasks `0` to `n - 1` is for. -/
abbrev schedulerPool (n : ℕ) : System (Pool ℕ Slot) (PoolEvent ℕ Slot) := pool Fin.val n

/-- The task a hart is at: the one it runs, or has called `switch_to` for. -/
def Ghost.job (k : Ghost) : Option Slot :=
  match k.sw, k.stk with
  | none, .task t => some t
  | some (t, _), .hart _ => some t
  | _, _ => none

theorem Ghost.job_run {n : ℕ} {k : Ghost} (hk : k.Ok n) {t : Slot} (hj : Ghost.job k = some t) :
    k.run = some t := by
  unfold Ghost.job at hj
  split at hj <;> cases hj
  · next hstk => exact (hk.stk_task t hstk).1
  · next ρ _ _ hsw => exact hk.sw_run t ρ hsw

/-- The pool `s` is at the tasks that the harts are at, in passes that are as far. -/
structure Pooled (cfg : Config) (vs : ℕ → View) (s : Pool ℕ Slot) : Prop where
  matched : s.Matched
  job : ∀ h < cfg.harts, s.job h = Ghost.job (vs h).k
  idle : ∀ h, cfg.harts ≤ h → s.job h = none
  cursor : ∀ h < cfg.harts, s.cursor h ≤ (vs h).k.scan

theorem Pooled.keep (hP : Pooled cfg vs s) {w : View} (hj : Ghost.job w.k = Ghost.job (vs h).k)
    (hs : (vs h).k.scan ≤ w.k.scan) : Pooled cfg (Function.update vs h w) s := by
  refine ⟨hP.matched, fun h' hh' => ?_, hP.idle, fun h' hh' => ?_⟩
  · rw [hP.job h' hh']
    by_cases hne : h' = h
    · rw [hne, Function.update_self, hj]
    · rw [Function.update_of_ne hne]
  · by_cases hne : h' = h
    · rw [hne, Function.update_self]
      exact (hP.cursor h (hne ▸ hh')).trans hs
    · rw [Function.update_of_ne hne]
      exact hP.cursor h' hh'

/-- A hart goes on to the task `j`, or gives its task up. -/
theorem Pooled.update (hP : Pooled cfg vs s) (hh : h < cfg.harts) {w : View} {s' : Pool ℕ Slot}
    {j : Option Slot} {c : ℕ} (hm : s'.Matched) (hjob : s'.job = Function.update s.job h j)
    (hcur : s'.cursor = Function.update s.cursor h c) (hj : j = Ghost.job w.k)
    (hc : c ≤ w.k.scan) : Pooled cfg (Function.update vs h w) s' := by
  refine ⟨hm, fun h' hh' => ?_, fun h' hh' => ?_, fun h' hh' => ?_⟩
  · rw [hjob]
    by_cases hne : h' = h
    · rw [hne, Function.update_self, Function.update_self, hj]
    · rw [Function.update_of_ne hne, Function.update_of_ne hne, hP.job h' hh']
  · have hne : h' ≠ h := fun heq => absurd (heq ▸ hh') (Nat.not_le.2 hh)
    rw [hjob, Function.update_of_ne hne, hP.idle h' hh']
  · rw [hcur]
    by_cases hne : h' = h
    · rw [hne, Function.update_self, Function.update_self]
      exact hc
    · rw [Function.update_of_ne hne, Function.update_of_ne hne]
      exact hP.cursor h' hh'

/-! ## One step -/

theorem scan_le_after {o : Op} {v : View} (hp : Pre cfg o v) (hb : o ≠ .point .pass_begin)
    (r : o.Ret) : v.k.scan ≤ (v.k.after o r).scan := by
  rcases scan_after hp r with hs | ⟨t, -, hs, hs'⟩ | ⟨hb', -⟩
  · exact hs.ge
  · rw [hs, hs']
    exact Nat.le_succ t
  · exact absurd hb' hb

theorem Ghost.job_after (k : Ghost) (o : Op) (r : o.Ret) :
    Ghost.job (k.after o r) = Ghost.job k := by
  unfold Ghost.job
  rw [Ghost.after_stk, Ghost.after_sw]

/-- A hart between passes is at no task. -/
theorem job_pass_begin {v : View} (hok : v.Ok cfg) (hp : Pre cfg (.point .pass_begin) v) :
    Ghost.job v.k = none := by
  cases hj : Ghost.job v.k with
  | none => rfl
  | some t =>
    have hrun := Ghost.job_run hok.toOk hj
    rw [hp.2.1] at hrun
    cases hrun

/-- What a step shows of the pool. -/
abbrev PoolShows (cfg : Config) (vs : ℕ → View) :
    Pool ℕ Slot → Option (PoolEvent ℕ Slot) → Prop :=
  Shows (schedulerPool cfg.pids.length) (fun x => some x.2) (Pooled cfg vs)

theorem poolEvent_next {o : Op} {f : o.Ret → Code} {fail : Bool}
    (hi : (σ.harts h).interrupted = false) (hcode : (σ.harts h).code = .op o f)
    (hb : o ≠ .point .pass_begin) (hs : ∀ site old new, o ≠ .call_switch_to site old new) :
    poolEvent (σ, .hart h fail) = none := by
  unfold poolEvent
  rw [performed_eq hi hcode]
  split
  · next heq => cases heq; exact absurd rfl hb
  · next heq => cases heq; exact absurd rfl (hs _ _ _)
  · next heq => cases heq; exact absurd rfl (hs _ _ _)
  · rfl

theorem poolEvent_trap {fail : Bool} (hi : (σ.harts h).interrupted = true) :
    poolEvent (σ, .hart h fail) = none := by
  have hp : performed (σ, .hart h fail) = none := by
    show (σ.next h).map _ = none
    rw [State.next, if_pos hi]
    rfl
  unfold poolEvent
  rw [hp]

/-- An operation. -/
theorem Pooled.op (hP : Pooled cfg vs s) (hI : Inv cfg σ vs) (hh : h < cfg.harts) {o : Op}
    {f : o.Ret → Code} {r : o.Ret} {w : View} {fail : Bool}
    (hi : (σ.harts h).interrupted = false) (hcode : (σ.harts h).code = .op o f)
    (hs : Op.simple o = true) (hp : Pre cfg o (vs h)) (hk : w.k = (vs h).k.after o r) :
    PoolShows cfg (Function.update vs h w) s (poolEvent (σ, .hart h fail)) := by
  have hjob : Ghost.job w.k = Ghost.job (vs h).k := by rw [hk, Ghost.job_after]
  by_cases hb : o = .point .pass_begin
  · subst hb
    have hidle : s.job h = none := (hP.job h hh).trans (job_pass_begin (hI.ok h hh) hp)
    have hev : poolEvent (σ, .hart h fail) = some (.pass h) := by
      unfold poolEvent
      rw [performed_eq hi hcode]
    rw [hev]
    have hstep : (schedulerPool cfg.pids.length).step s (.pass h) = some _ := pool_pass hidle
    have hm := hP.matched.step hstep
    refine .step hstep (hP.update hh (j := s.job h) hm ?_ rfl ?_ (Nat.zero_le _)) rfl
    · exact (Function.update_eq_self h s.job).symm
    · rw [hjob, hP.job h hh]
  · rw [poolEvent_next hi hcode hb fun site old new heq => by rw [heq] at hs; cases hs]
    refine .still (hP.keep hjob ?_)
    rw [hk]
    exact scan_le_after hp hb r

section
variable {site : SwitchSite} {en : I32} {t : Slot} {fs : List Fn} {ρ : CtxWord → U64} {k : Ghost}

/-- The hart returns to the task it switches to, or to no task. -/
theorem Returns.job (hr : Returns cfg site h en t k) :
    Ghost.job k = Ghost.job (.switching site h en t fs ρ) := by
  unfold Ghost.job
  rw [hr.sw, hr.stk]
  cases site <;> rfl

theorem Returns.scan (hr : Returns cfg site h en t k) : k.scan = t + 1 := by cases hr <;> rfl

end

/-- A call of `switch_to`. -/
theorem Pooled.call (hP : Pooled cfg vs s) (hI : Inv cfg σ vs) (hh : h < cfg.harts)
    {site : SwitchSite} {en : I32} {t : Slot} {fs : List Fn} {f : Unit → Code} {w : View}
    {fail : Bool} {ρ : CtxWord → U64} (hi : (σ.harts h).interrupted = false)
    (hcode : (σ.harts h).code = .op (.call_switch_to site (oldCtx site h t) (newCtx site h t)) f)
    (hk : (vs h).k = .atSwitch site h en t fs) (hw : w.k = .switching site h en t fs ρ) :
    PoolShows cfg (Function.update vs h w) s (poolEvent (σ, .hart h fail)) := by
  have hrun : (vs h).k.run = some t := by rw [hk]; rfl
  have hjob := hP.job h hh
  have hcur := hP.cursor h hh
  have hev : performed (σ, .hart h fail) = some (h, _) := performed_eq hi hcode
  have hop := hI.opened h hh ((hI.ok h hh).run_opened t hrun)
  rw [hk] at hjob hcur
  cases site with
  | scheduler =>
    have hlt := (((hI.table hop).state t).running h hh hrun).2
    have hnobody : s.worker t = none := by
      refine hP.matched.waiting fun h' hj => ?_
      rcases Nat.lt_or_ge h' cfg.harts with hh' | hh'
      · rw [hP.job h' hh'] at hj
        obtain rfl := hI.run_inj h' hh' h hh t (Ghost.job_run (hI.ok h' hh').toOk hj) hrun
        rw [hk] at hj
        cases hj
      · rw [hP.idle h' hh'] at hj
        cases hj
    have hstep : (schedulerPool cfg.pids.length).step s (.dispatch h t) = some _ :=
      pool_dispatch hjob hnobody hcur hlt
    rw [show poolEvent (σ, .hart h fail) = some (.dispatch h t) by unfold poolEvent; rw [hev]; rfl]
    refine .step hstep (hP.update hh (hP.matched.step hstep) rfl rfl ?_ ?_) rfl
    · rw [hw]
      rfl
    · rw [hw]
      exact le_rfl
  | sched =>
    have hstep : (schedulerPool cfg.pids.length).step s (.park h t) = some _ := pool_park hjob
    rw [show poolEvent (σ, .hart h fail) = some (.park h t) by unfold poolEvent; rw [hev]; rfl]
    refine .step hstep (hP.update hh (c := s.cursor h) (hP.matched.step hstep) rfl ?_ ?_ ?_) rfl
    · exact (Function.update_eq_self h s.cursor).symm
    · rw [hw]
      rfl
    · rw [hw]
      exact hcur

theorem Pooled.move (hP : Pooled cfg vs s) (hI : Inv cfg σ vs) (hm : Move cfg σ vs e σ' vs') :
    PoolShows cfg vs' s (poolEvent (σ, e)) := by
  cases hm with
  | @trap h fail hh hi hsie =>
    rw [poolEvent_trap hi]
    exact .still (hP.keep rfl le_rfl)
  | op hh hi hcode hs hp hx hg => exact hP.op hI hh hi hcode hs hp hg.k
  | loop hh hi hcode =>
    rw [poolEvent_next hi hcode (fun heq => by cases heq) fun _ _ _ heq => by cases heq]
    exact .still hP
  | @call h fail site en t fs f hh hi hcode hk =>
    have hw : ((vs h).called cfg.layout site t).k = .switching site h en t fs
        (ctxOf (Function.update (vs h).regs .ra (cfg.layout.switch_ret site))) := by
      show Ghost.switching site (vs h).k.hart (vs h).k.ena t (vs h).k.calls _ = _
      rw [hk]
      rfl
    exact hP.call hI hh hi hcode hk hw
  | ret hh hi hcode hk hsaved hw =>
    rw [poolEvent_next hi hcode (fun heq => by cases heq) fun _ _ _ heq => by cases heq]
    refine .still (hP.keep ?_ ?_)
    · rw [hk]
      exact Returns.job hw
    · rw [hk, Returns.scan hw]
      exact le_rfl
  | compute hh => exact .still (hP.keep rfl le_rfl)
  | timer hh => exact .still hP

/-! ## Runs -/

section
variable {tr : History State (ClientEvent AtomicCall)} {ce : ClientEvent AtomicCall}

/-- What a step of the machine with its tasks shows of the pool. -/
def poolEventOf (x : State × ClientEvent AtomicCall) : Option (PoolEvent ℕ Slot) :=
  match x.2 with
  | .kernel e => poolEvent (x.1, e)
  | _ => none

/-- The pool `s` does what the machine in the state `σ` does. -/
def Pools (cfg : Config) (σ : State) (s : Pool ℕ Slot) : Prop :=
  ∃ vs, Inv cfg σ vs ∧ InAsm cfg σ vs ∧ Pooled cfg vs s

theorem pools_boot (hb : σ.Booting cfg) :
    Pools cfg σ ⟨fun _ => none, fun _ => none, fun _ => cfg.pids.length⟩ := by
  refine ⟨bootViews σ, Inv.boot hb, fun _ _ hs => absurd rfl hs, fun w j => ?_, fun h _ => rfl,
    fun _ _ => rfl, fun h _ => cfg.pids_le⟩
  exact ⟨fun h => (by cases h), fun h => (by cases h)⟩

theorem Pools.step (hp : Pools cfg σ s) (hs : (clients cfg Atomic.call).step σ ce = some σ') :
    Shows (schedulerPool cfg.pids.length) (fun x => some x.2) (Pools cfg σ') s
      (poolEventOf (σ, ce)) := by
  obtain ⟨vs, hI, hA, hP⟩ := hp
  cases ce with
  | kernel e =>
    obtain ⟨vs', hm, hI'⟩ := hI.step hs
    exact (hP.move hI hm).mono fun s' hP' => ⟨vs', hI', hA.move hI hm, hP'⟩
  | call h k =>
    simp only [clients] at hs
    split at hs
    swap
    · cases hs
    next hh =>
    obtain ⟨hI', f, hcode, rfl⟩ := hI.before_step hh (fun hk => does_call k hk fun _ _ hk' =>
      ⟨_, hk'⟩) hs
    refine .still ⟨vs, hI', ?_, hP⟩
    rw [← Function.update_eq_self h vs]
    exact hA.update rfl fun hs => absurd (hA.loop hh hcode) hs
  | store h sz a x =>
    simp only [clients] at hs
    split at hs <;> cases hs
    exact .still ⟨vs, hI.of_objs rfl rfl rfl, hA, hP⟩

/-- The scheduler refines a pool of workers that go round a table: in every run, the passes that the
harts begin, their switches to tasks and those back are a run of the pool, in which a worker takes a
job only where nobody is at it and only further on in its pass, and puts back what it took. Where a
hart is not in `switch_to`, it is on the stack of the task that its worker is at, or on its own. -/
theorem refines_pool (hr : Run (clients cfg Atomic.call) tr σ) :
    ∃ tr' s, Run (schedulerPool cfg.pids.length) tr' s ∧
      tr'.map Prod.snd = tr.filterMap poolEventOf ∧
      ∀ h < cfg.harts, ∀ o, σ.next h = some o → o.ofSwitch = false →
        cfg.layout.stackOf ((σ.harts h).regs .sp) =
          some ((s.job h).elim (.hart h) StackId.task) := by
  obtain ⟨tr', s, hr', ⟨vs, hI, hA, hP⟩, hobs⟩ :=
    hr.simulate (N := schedulerPool cfg.pids.length) (fun _ σ s => Pools cfg σ s)
      (fun σ hb => ⟨_, rfl, pools_boot hb⟩) fun tr σ ce σ' s _ hp hs => hp.step hs
  refine ⟨tr', s, hr', ?_, fun h hh o hn ho => ?_⟩
  · rw [← hobs, ← List.filterMap_eq_map]
    rfl
  obtain ⟨-, f, hcode⟩ := next_some hn
  have hsw := hA.sw_none hh hcode ho
  rw [(hI.hart h hh).regs, (hI.ok h hh).sp hsw, hP.job h hh]
  unfold Ghost.job
  rw [hsw]
  cases hstk : (vs h).k.stk with
  | task t => rfl
  | hart g =>
    obtain rfl : g = h := ((hI.ok h hh).stk_hart g hstk).trans (hI.hart h hh).hart
    rfl

end

/-- The first task runs on hart 0, is preempted there, and goes on on hart 1. -/
theorem refines_pool_moved : ∃ (tr' : History (Pool ℕ Slot) (PoolEvent ℕ Slot)) (s : Pool ℕ Slot),
    Run (schedulerPool 2) tr' s ∧ tr'.map Prod.snd =
      [.dispatch 1 0, .pass 1, .park 0 0, .dispatch 0 0, .pass 0] := by
  obtain ⟨tr, σ, hr, hp⟩ := Run.of_perform
    (M := clients (.sample 2 (by decide) (by decide)) Atomic.call)
    (State.start_booting (.sample 2 (by decide) (by decide)) Layout.sample_apart)
    (List.replicate 3 (.kernel (.hart 1 false)) ++ (List.replicate 589 (.kernel (.hart 0 false)) ++
      .kernel (.timer 0) :: (List.replicate 200 (.kernel (.hart 0 false)) ++
        List.replicate 100 (.kernel (.hart 1 false)))))
    (P := fun x => x.1.filterMap poolEventOf ==
      [.dispatch 1 0, .pass 1, .park 0 0, .dispatch 0 0, .pass 0]) (by decide +kernel)
  obtain ⟨tr', s, hr', hobs, -⟩ := refines_pool hr
  exact ⟨tr', s, hr', hobs.trans (beq_iff_eq.1 hp)⟩

end GQuuuuuunix.Properties
