import GQuuuuuunix.Kernel.History
import Mathlib.Logic.Relation

/-! # A call of sched, from any state

A task calls `sched` with any locks in hand and anything in `off_nrs`. The hart switches to its
scheduler, which gives the lock of the task back; later the scheduler of some hart resumes the
task. Between any two operations of the hart the others make of the machine what they like, but
for what belongs to this hart alone. -/

namespace GQuuuuuunix.Kernel
open Lib
set_option autoImplicit false

/-- `is_holding_lk(lk)` returns 1 on hart `h`. -/
def Mem.Holds (m : Mem) (h : ℕ) (lk : TaskPtr) : Prop :=
  m (.cell (.isLocked lk)) ≠ (0 : I32) ∧ m (.lk_cpu lk) = some h

/-! ## A hart among the others -/

/-- The machine, with the locks that the hart in question has swapped a 1 into and not cleared. -/
structure TakenState where
  σ : State
  taken : TaskPtr → Bool

/-- `σ'`, after hart `h` has made a step. -/
def TakenState.step (x : TakenState) (h : ℕ) (fail : Bool) (σ' : State) : TakenState :=
  ⟨σ', fun p => (lockTurn h p (x.σ, .hart h fail)).getD (x.taken p)⟩

/-- What the other harts, and compiled C on hart `h` itself, may make of `σ` between two operations
of the hart. The hart keeps its `struct cpu`, its name on locks, the frame its scheduler left, and
what is under the locks it has taken. An interrupt that the hart takes and returns from is covered
too. -/
structure Meanwhile (L : Layout) (h : ℕ) (taken : TaskPtr → Bool) (σ σ' : State) : Prop where
  code : (σ'.harts h).code = (σ.harts h).code
  sstatus : (σ'.harts h).sstatus = (σ.harts h).sstatus
  tp : (σ'.harts h).regs .tp = (σ.harts h).regs .tp
  sp : L.stackOf ((σ'.harts h).regs .sp) = L.stackOf ((σ.harts h).regs .sp)
  regs : Code.isC (σ.harts h).code = false → (σ'.harts h).regs = (σ.harts h).regs
  off_nrs : σ'.mem (.off_nrs h) = σ.mem (.off_nrs h)
  cpu_task : σ'.mem (.cpu_task h) = σ.mem (.cpu_task h)
  cpu_context : ∀ i, σ'.mem (.cpu_context h i) = σ.mem (.cpu_context h i)
  parked : σ'.parked (σ.mem (.cpu_context h 1)) = σ.parked (σ.mem (.cpu_context h 1))
  acquire : ∀ lk, σ'.mem (.lk_acquire lk) = σ.mem (.lk_acquire lk)
  release : ∀ lk, σ'.mem (.lk_release lk) = σ.mem (.lk_release lk)
  is_holding : ∀ lk, σ'.mem (.lk_is_holding lk) = σ.mem (.lk_is_holding lk)
  lk_cpu : ∀ lk, σ'.mem (.lk_cpu lk) = some h ↔ σ.mem (.lk_cpu lk) = some h
  isLocked : ∀ lk, taken lk = true → σ'.mem (.cell (.isLocked lk)) = σ.mem (.cell (.isLocked lk))
  state : ∀ lk, taken lk = true → σ'.mem (.state lk) = σ.mem (.state lk)

section
variable (cfg : Config) (h : ℕ)

/-- One step of a run of hart `h` among the others; the hart makes none once `stop` holds. -/
inductive SchedStep (stop : State → Prop) : TakenState → TakenState → Prop where
  | own {x : TakenState} {σ' : State} (fail : Bool) : ¬ stop x.σ →
      (x.σ.harts h).interrupted = false →
      x.σ.step cfg.layout cfg.harts (.hart h fail) = some σ' →
      SchedStep stop x (x.step h fail σ')
  | others {x : TakenState} {σ' : State} : Meanwhile cfg.layout h x.taken x.σ σ' →
      SchedStep stop x ⟨σ', x.taken⟩

abbrev SchedRun (stop : State → Prop) : TakenState → TakenState → Prop :=
  Relation.ReflTransGen (SchedStep cfg h stop)

end

/-- Hart `h` is at the end of `release_lk(lk)`. -/
def AtRelease (h : ℕ) (lk : TaskPtr) (σ : State) : Prop :=
  ∃ r k, (σ.harts h).code = .op (.leave (.release lk) r) k

/-- Hart `h` is at the `ret` of `switch_to(old, new)`: what it performs next belongs to `new`. -/
def AtRet (h : ℕ) (old new : CtxPtr) (σ : State) : Prop :=
  ∃ k, (σ.harts h).code = .op (.ret old new) k

/-- The lock functions are in place; only a lock that hart `h` has taken bears its name, and it is
locked. -/
structure TakenState.LocksOk (x : TakenState) (h : ℕ) : Prop where
  acquire : ∀ lk, x.σ.mem (.lk_acquire lk) = LockFn.acquire_lk
  release : ∀ lk, x.σ.mem (.lk_release lk) = LockFn.release_lk
  is_holding : ∀ lk, x.σ.mem (.lk_is_holding lk) = LockFn.is_holding_lk
  named : ∀ lk, x.σ.mem (.lk_cpu lk) = some h → x.taken lk = true
  locked : ∀ lk, x.taken lk = true → x.σ.mem (.cell (.isLocked lk)) ≠ (0 : I32)

/-- The scheduler of hart `h` waits in the context of the hart, in its call of `switch_to` for
`&gTasks[i]`. -/
def State.Waits (L : Layout) (h : ℕ) (i : Fin TASK_MAX_NRS) (σ : State) : Prop :=
  ∃ p rest, σ.parked (σ.mem (.cpu_context h 1)) = some p ∧
    (∀ j, σ.mem (.cpu_context h j) = p.regs j) ∧ p.regs 0 ≠ L.dummy_task ∧
    p.code = (afterSwitch h i).bind fun _ => rest

/-- Hart `h` calls `sched` in the task `&gTasks[i]`, in a state in which its three checks pass. -/
structure AtSched (cfg : Config) (h : ℕ) (i : Fin TASK_MAX_NRS) (x : TakenState) : Prop where
  hart_lt : h < cfg.harts
  tp : (x.σ.harts h).regs .tp = BitVec.ofNat 64 h
  code : ∃ k, (x.σ.harts h).code = sched.bind k
  cpu_task : x.σ.mem (.cpu_task h) = some (.gTasks i)
  locks : x.LocksOk h
  scheduler : x.σ.Waits cfg.layout h i
  stack : cfg.layout.stackOf ((x.σ.harts h).regs .sp) ≠
    cfg.layout.stackOf (x.σ.mem (.cpu_context h 1))
  /-- The three checks of `sched`. -/
  holding : x.σ.mem.Holds h (.gTasks i)
  not_running : x.σ.mem (.state (.gTasks i)) ≠ TaskState.RUNNING
  not_interruptible : sie (x.σ.harts h).sstatus = false

/-- Hart `g` comes to `&gTasks[i]` in its scan of the table. -/
structure AtScan (cfg : Config) (g : ℕ) (i : Fin TASK_MAX_NRS) (x : TakenState) : Prop where
  hart_lt : g < cfg.harts
  tp : (x.σ.harts g).regs .tp = BitVec.ofNat 64 g
  code : ∃ k, (x.σ.harts g).code = (scan_body g i).bind k
  locks : x.LocksOk g

/-- What the checks are there for. The release comes to its end, and leaves the hart at depth 0
with no lock; a hart that resumes the task holds each of the locks that the task was switched out
with. -/
structure ChecksSuffice (cfg : Config) (h : ℕ) (i : Fin TASK_MAX_NRS) (x : TakenState) : Prop where
  comes : ∃ y, SchedRun cfg h (AtRelease h (.gTasks i)) x y ∧ AtRelease h (.gTasks i) y.σ
  released : ∀ y, SchedRun cfg h (AtRelease h (.gTasks i)) x y → AtRelease h (.gTasks i) y.σ →
    y.σ.mem (.off_nrs h) = (0 : I32) ∧ ∀ lk, ¬ y.σ.mem.Holds h lk
  resumed : ∀ g y z, AtScan cfg g i y →
    SchedRun cfg g (fun σ => AtRet g (.cpu g) (.task (.gTasks i)) σ ∨ AtRelease g (.gTasks i) σ)
      y z →
    AtRet g (.cpu g) (.task (.gTasks i)) z.σ →
    ∀ lk, x.σ.mem.Holds h lk → z.σ.mem.Holds g lk

end GQuuuuuunix.Kernel
