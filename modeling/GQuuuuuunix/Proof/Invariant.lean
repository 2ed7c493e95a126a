import GQuuuuuunix.Proof.Execution

/-! # The invariant of the machine

Beside each hart its view: what the hart may assume. The invariant says that every hart is where
its view says it is and safe there, that the private memory of the views is the memory, that no
two views claim the same thing, and what the shared memory holds as a function of the views. -/

namespace GQuuuuuunix.Proof
open Lib Kernel
set_option autoImplicit false

/-! ## The parts -/

/-- Hart `h` is where `v` says it is. -/
structure HartIs (h : ℕ) (x : Hart) (v : View) : Prop where
  hart : v.k.hart = h
  regs : x.regs = v.regs
  pc : x.pc = v.pc
  mode : x.mode = .supervisor
  sstatus : x.sstatus = v.m.sstatus
  sepc : x.sepc = v.m.sepc
  scause : x.scause = v.m.scause
  stvec : x.stvec = v.k.stvec
  calls : x.calls = v.k.calls

/-- The fields of `gCpus[h]` that the code of other harts never touches. -/
structure CpuIs (mem : Mem) (k : Ghost) : Prop where
  off_nrs : mem (.off_nrs k.hart) = k.off
  intr_ena_before : mem (.intr_ena_before k.hart) = k.ena
  cpu_task : mem (.cpu_task k.hart) = k.task.map .gTasks

/-- The lock of slot `t`, by what the harts have in hand. -/
structure LockIs (cfg : Config) (mem : Mem) (K : ℕ → Ghost) (t : Slot) : Prop where
  held : ∀ h < cfg.harts, (K h).held = some t → mem (.cell (.isLocked (.gTasks t))) = (1 : I32)
  free : (∀ h < cfg.harts, (K h).held ≠ some t) → mem (.cell (.isLocked (.gTasks t))) = (0 : I32)
  lk_cpu : ∀ h, mem (.lk_cpu (.gTasks t)) = some h ↔
    h < cfg.harts ∧ (K h).held = some t ∧ (K h).own = true
  acquire : mem (.lk_acquire (.gTasks t)) = LockFn.acquire_lk
  release : mem (.lk_release (.gTasks t)) = LockFn.release_lk
  is_holding : mem (.lk_is_holding (.gTasks t)) = LockFn.is_holding_lk

/-- `state` of slot `t`: what the hart that runs the task last made it, else as it rests. -/
structure StateIs (cfg : Config) (mem : Mem) (K : ℕ → Ghost) (t : Slot) : Prop where
  running : ∀ h < cfg.harts, (K h).run = some t →
    mem (.state (.gTasks t)) = (K h).st ∧ (t : ℕ) < cfg.pids.length
  idle : (∀ h < cfg.harts, (K h).run ≠ some t) → mem (.state (.gTasks t)) =
    if (t : ℕ) < cfg.pids.length then TaskState.RUNNABLE else TaskState.UNUSED

structure Table (cfg : Config) (mem : Mem) (K : ℕ → Ghost) : Prop where
  lock : ∀ t, LockIs cfg mem K t
  state : ∀ t, StateIs cfg mem K t

/-- A call of `switch_to` by the program with the view `v`, which goes on with `c`, is parked with
the registers `ρ`. -/
structure Continues (cfg : Config) (σ : State) (s : SwitchSite) (ρ : CtxWord → U64) (v : View)
    (c : Code) : Prop where
  parked : σ.parked (ρ 1) = some ⟨ρ, v.k.calls, c⟩
  ra : ρ 0 ≠ cfg.layout.dummy_task
  stack : cfg.layout.stackOf (ρ 1) = some v.k.stk
  roomy : s = .scheduler → cfg.layout.Roomy (ρ 1)
  same : s = .sched → ∀ a, cfg.layout.stackOf a = some v.k.stk →
    σ.mem (.stack a) = v.m.mem (.stack a)
  safe : ∀ w, Resumed cfg.layout s v w → w.Ok cfg → Safe cfg c w

def switchStack (s : SwitchSite) (h : ℕ) (t : Slot) : StackId :=
  match s with | .sched => .task t | .scheduler => .hart h

/-- The registers `ρ` take a hart back to the call of `switch_to` made for task `t`, in `sched` or
by the scheduler of hart `h`. -/
def Resumable (cfg : Config) (σ : State) (s : SwitchSite) (h : ℕ) (t : Slot)
    (ρ : CtxWord → U64) : Prop :=
  ∃ v c, Continues cfg σ s ρ v c ∧ v.k.run = some t ∧ v.k.stk = switchStack s h t ∧
    (s = .scheduler → v.k.hart = h)

/-- The saved contexts are complete, and lead back to where they were saved. -/
structure Contexts (cfg : Config) (σ : State) (K : ℕ → Ghost) : Prop where
  task : ∀ t : Slot, (t : ℕ) < cfg.pids.length → (∀ h < cfg.harts, (K h).stk ≠ .task t) →
    (∀ i, σ.mem (.context (.gTasks t) i) = initCtx cfg.layout t i) ∨
    ∃ h, Resumable cfg σ .sched h t fun i => σ.mem (.context (.gTasks t) i)
  hart : ∀ h < cfg.harts, ∀ t, (K h).stk = .task t →
    Resumable cfg σ .scheduler h t fun i => σ.mem (.cpu_context h i)
  leaving : ∀ h < cfg.harts, ∀ s t ρ, (K h).sw = some (t, ρ) → (K h).stk = switchStack s h t →
    Resumable cfg σ s h t ρ

structure Inv (cfg : Config) (σ : State) (vs : ℕ → View) : Prop where
  hart : ∀ h < cfg.harts, HartIs h (σ.harts h) (vs h)
  ok : ∀ h < cfg.harts, (vs h).Ok cfg
  safe : ∀ h < cfg.harts, Safe cfg (σ.harts h).code (vs h)
  cpu : ∀ h < cfg.harts, CpuIs σ.mem (vs h).k
  owned : ∀ h < cfg.harts, ∀ l, (vs h).k.Owns cfg.layout l → σ.mem l = (vs h).m.mem l
  held_inj : ∀ h < cfg.harts, ∀ h' < cfg.harts, ∀ t,
    (vs h).k.held = some t → (vs h').k.held = some t → h = h'
  run_inj : ∀ h < cfg.harts, ∀ h' < cfg.harts, ∀ t,
    (vs h).k.run = some t → (vs h').k.run = some t → h = h'
  first : (vs 0).k.stage ≠ .wait
  opened : ∀ h < cfg.harts, (vs h).k.stage = .opened → (vs 0).k.stage = .opened
  start : σ.mem (.cell .start) ≠ (0 : I32) → (vs 0).k.stage = .opened
  closed : ∀ p, (vs 0).k.stage ≠ .opened ∨ (∃ j, p = .static j) → σ.mem (.lk_cpu p) = none
  table : (vs 0).k.stage = .opened → Table cfg σ.mem fun h => (vs h).k
  contexts : (vs 0).k.stage = .opened → Contexts cfg σ fun h => (vs h).k

/-! ## No two harts have the same thing in hand -/

variable {cfg : Config} {σ : State} {vs : ℕ → View}

theorem Inv.stage_cases (hI : Inv cfg σ vs) {h : ℕ} (hh : h < cfg.harts)
    (hb : (vs h).k.stage = .boot) : h = 0 := by
  rw [← (hI.hart h hh).hart]
  exact (hI.ok h hh).boot_hart hb

theorem Inv.not_boot (hI : Inv cfg σ vs) {h h' : ℕ} (hh : h < cfg.harts) (hh' : h' < cfg.harts)
    (ho : (vs h).k.stage = .opened) : (vs h').k.stage ≠ .boot := by
  intro hb
  have h0 := hI.opened h hh ho
  rw [← hI.stage_cases hh' hb, hb] at h0
  cases h0

theorem Inv.stk_inj (hI : Inv cfg σ vs) {h h' : ℕ} (hh : h < cfg.harts) (hh' : h' < cfg.harts)
    (hs : (vs h).k.stk = (vs h').k.stk) : h = h' := by
  cases hk : (vs h).k.stk with
  | hart c =>
    have h1 := (hI.ok h hh).stk_hart c hk
    have h2 := (hI.ok h' hh').stk_hart c (hs ▸ hk)
    rw [(hI.hart h hh).hart] at h1
    rw [(hI.hart h' hh').hart] at h2
    exact h1.symm.trans h2
  | task t =>
    exact hI.run_inj h hh h' hh' t ((hI.ok h hh).stk_task t hk).1
      ((hI.ok h' hh').stk_task t (hs ▸ hk)).1

/-- What one hart owns no other does. -/
theorem Inv.owns_inj (hI : Inv cfg σ vs) {h h' : ℕ} (hh : h < cfg.harts) (hh' : h' < cfg.harts)
    {l : Loc} (ho : (vs h).k.Owns cfg.layout l) (ho' : (vs h').k.Owns cfg.layout l) : h = h' := by
  have hx := (hI.hart h hh).hart
  have hx' := (hI.hart h' hh').hart
  have hboot : (vs h).k.stage = .boot → (vs h').k.stage = .boot → h = h' := fun hb hb' =>
    (hI.stage_cases hh hb).trans (hI.stage_cases hh' hb').symm
  have hopen : ∀ {c t}, c < cfg.harts → (vs c).k.run = some t → (vs c).k.stage = .opened :=
    fun hc hr => (hI.ok _ hc).run_opened _ hr
  cases l with
  | cpu_context c i => rw [← hx, ← hx', ← show c = _ from ho, ← show c = _ from ho']
  | stack a => exact hI.stk_inj hh hh' (Option.some.inj (ho.symm.trans ho'))
  | gticks => rw [← hx, ← hx', show (vs h).k.hart = 0 from ho, show (vs h').k.hart = 0 from ho']
  | time_data =>
    rw [← hx, ← hx', show (vs h).k.hart = 0 from ho, show (vs h').k.hart = 0 from ho']
  | context p i =>
    cases p with
    | static j => exact hboot ho.1 ho'.1
    | gTasks t =>
      rcases ho with hr | hb <;> rcases ho' with hr' | hb'
      · exact hI.run_inj h hh h' hh' t hr hr'
      · exact absurd hb' (hI.not_boot hh hh' (hopen hh hr))
      · exact absurd hb (hI.not_boot hh' hh (hopen hh' hr'))
      · exact hboot hb hb'
  | _ => exact hboot ho.1 ho'.1

end GQuuuuuunix.Proof
