import GQuuuuuunix.Kernel.Machine

/-! # What a hart has in hand

The proofs follow, beside each hart, a record that the machine does not have: which lock the hart
holds, which task it has the right to run, which stack it is on, how far its pass over the table
is. `Ghost.Ok` and `View.Ok` say how the parts of that record fit together; every operation keeps
them. -/

namespace GQuuuuuunix.Proof
open Lib Kernel
set_option autoImplicit false

/-- An entry of `gTasks`. -/
abbrev Slot := Fin TASK_MAX_NRS

/-- Hart 0 is booting; another hart is before or at the barrier; the barrier is passed. -/
inductive Stage where
  | boot | wait | opened
  deriving DecidableEq

/-- How far a trap is handled. -/
inductive TrapPhase where
  | idle | entered | gticks_due | time_due | counted | acked
  deriving DecidableEq

structure Ghost where
  hart : ℕ
  sie : Bool
  off : I32
  ena : I32
  /-- `cpu->task`. -/
  task : Option Slot
  /-- The task whose lock the hart took with `TEST_SET` and has not cleared. -/
  held : Option Slot
  /-- `lk->cpu` of that lock is this hart. -/
  own : Bool
  /-- The task the hart has the right to run, from finding it runnable to releasing its lock. -/
  run : Option Slot
  /-- `state` of that task. -/
  st : TaskState
  stage : Stage
  /-- The stack of the program that the hart is running. -/
  stk : StackId
  /-- Inside `switch_to`: the task switched to or from, and the registers it was called with. -/
  sw : Option (Slot × (CtxWord → U64))
  calls : List Fn
  /-- The first slot that the pass of the scheduler has not decided; 64 between passes. -/
  scan : ℕ
  trap : TrapPhase
  stvec : Bool
  /-- The task whose `switch_to` to the scheduler returned, until its lock is released. -/
  back : Option Slot

/-! ## The fields the C functions change one at a time -/

def Ghost.setOff (k : Ghost) (x : I32) : Ghost := { k with off := x }

def Ghost.setEna (k : Ghost) (x : I32) : Ghost := { k with ena := x }

def Ghost.setSie (k : Ghost) (b : Bool) : Ghost := { k with sie := b }

def Ghost.setCalls (k : Ghost) (fs : List Fn) : Ghost := { k with calls := fs }

/-- The lock of `t` is taken by `TEST_SET`. -/
def Ghost.take (k : Ghost) (t : Slot) : Ghost := { k with held := some t, own := false }

def Ghost.setSt (k : Ghost) (x : TaskState) : Ghost := { k with st := x }

def Ghost.setTask (k : Ghost) (x : Option Slot) : Ghost := { k with task := x }

def Ghost.setScan (k : Ghost) (i : ℕ) : Ghost := { k with scan := i }

/-- The hart is past the barrier. -/
def Ghost.pass (k : Ghost) : Ghost := { k with stage := .opened }

def Ghost.setTrap (k : Ghost) (p : TrapPhase) : Ghost := { k with trap := p }

/-- The hart has just taken its interrupt. -/
def Ghost.trapAt (k : Ghost) : Ghost :=
  { k with sie := false, calls := .kernelvec k.hart :: k.calls, trap := .entered }

/-- The scheduler finds task `t` RUNNABLE. -/
def Ghost.claim (k : Ghost) (t : Slot) : Ghost := { k with run := some t, st := .RUNNABLE }

def Ghost.setOwn (k : Ghost) (b : Bool) : Ghost := { k with own := b }

/-- The lock is cleared; a task marked RUNNABLE is given up with it. -/
def Ghost.drop (k : Ghost) : Ghost :=
  { k with held := none, run := if k.st = .RUNNABLE then none else k.run }

/-- The same program on hart `c`, with what that hart has in `intr_ena_before`. -/
def Ghost.on (k : Ghost) (c : ℕ) (e : I32) : Ghost := { k with hart := c, ena := e }

/-- After `acquire` of the lock of `t`; `e` is what `push_off` found of the interrupts. -/
def Ghost.locked (k : Ghost) (t : Slot) (e : I32) : Ghost :=
  { k with sie := false, off := 1, ena := e, held := some t, own := true }

/-- After `release`, before interrupts come on again. -/
def Ghost.unlocked (k : Ghost) : Ghost :=
  { k with off := 0, held := none, own := false, back := none,
           run := if k.st = .RUNNABLE then none else k.run }

/-! ## Calls -/

def Fn.lockBody : Fn → Bool
  | .acquire _ | .release _ | .test_set _ | .atomic_store _ | .atomic_load _ | .atomic _ => true
  | _ => false

/-- Inside the body of `acquire`, `release` or an atomic operation, since the last trap. -/
def inside : List Fn → Bool
  | [] => false
  | .kernelvec _ :: _ => false
  | f :: fs => Fn.lockBody f || inside fs

theorem inside_cons_body {f : Fn} (fs : List Fn) (hf : Fn.lockBody f = true) :
    inside (f :: fs) = true := by
  cases f <;> simp_all [inside, Fn.lockBody]

theorem inside_cons {f : Fn} (fs : List Fn) (hf : Fn.lockBody f = false)
    (hk : ∀ h, f ≠ .kernelvec h) : inside (f :: fs) = inside fs := by
  cases f <;> simp_all [inside, Fn.lockBody]

/-! ## The record is consistent -/

/-- A trap may be taken here. -/
structure Ghost.Interruptible (k : Ghost) : Prop where
  off : k.off = 0
  held : k.held = none
  stage : k.stage = .opened
  stvec : k.stvec = true
  sw : k.sw = none
  trap : k.trap = .idle
  place : (k.run = none ∧ k.stk = .hart k.hart) ∨ ∃ t, k.stk = .task t ∧ k.st = .RUNNING

theorem Ghost.Interruptible.on {k : Ghost} (hi : k.Interruptible) {c : ℕ} (e : I32)
    (hc : k.run = none → c = k.hart) : (k.on c e).Interruptible := by
  refine ⟨hi.off, hi.held, hi.stage, hi.stvec, hi.sw, hi.trap, ?_⟩
  rcases hi.place with ⟨hr, hs⟩ | ht
  · refine Or.inl ⟨hr, ?_⟩
    rw [show (k.on c e).hart = k.hart from hc hr]
    exact hs
  · exact Or.inr ht

structure Ghost.Ok (n : ℕ) (k : Ghost) : Prop where
  hart_lt : k.hart < n
  boot_hart : k.stage = .boot → k.hart = 0
  stk_hart : ∀ h, k.stk = .hart h → h = k.hart
  stk_task : ∀ t, k.stk = .task t → k.run = some t ∧ k.task = some t ∧ k.scan = t + 1
  run_opened : ∀ t, k.run = some t → k.stage = .opened
  held_opened : ∀ t, k.held = some t → k.stage = .opened
  run_st : ∀ t, k.run = some t → (k.st = .RUNNABLE ∧ k.held = some t) ∨ k.st = .RUNNING
  run_held : ∀ t h, k.run = some t → k.stk = .hart h → k.held = some t
  held_run : ∀ t t', k.held = some t → k.run = some t' → t = t'
  task_run : ∀ t, k.task = some t → k.run = some t
  own_held : k.own = true → k.held.isSome
  held_sie : ∀ t, k.held = some t → k.sie = false
  sie_ok : k.sie = true → k.Interruptible
  balanced : inside k.calls = false →
    k.off = (if k.held.isSome then 1 else 0) ∧ (k.held.isSome → k.own = true)
  back_held : ∀ t, k.back = some t → k.held = some t
  scheduler_opened : .scheduler ∈ k.calls → k.stage = .opened
  sw_run : ∀ t ρ, k.sw = some (t, ρ) → k.run = some t

/-! ## The registers and the memory that are the hart's own -/

/-- The trap registers, and the memory as far as it is the hart's own. -/
structure Own where
  sstatus : U64
  sepc : U64
  scause : U64
  mem : Mem

structure View where
  k : Ghost
  regs : Regs
  pc : U64
  m : Own

structure View.Ok (cfg : Config) (v : View) : Prop extends Ghost.Ok cfg.harts v.k where
  tp : v.regs .tp = BitVec.ofNat 64 v.k.hart
  sie_eq : sie v.m.sstatus = v.k.sie
  sp : v.k.sw = none → cfg.layout.stackOf (v.regs .sp) = some v.k.stk
  sp_run : ∀ t, cfg.layout.stackOf (v.regs .sp) = some (.task t) → v.k.run = some t
  roomy : v.k.sw = none → v.k.trap = .idle → cfg.layout.Roomy (v.regs .sp)
  sched_sp : ∀ t, v.k.stk = .task t →
    cfg.layout.stackOf (v.m.mem (.cpu_context v.k.hart 1)) = some (.hart v.k.hart)
  task_sp : ∀ t h, v.k.run = some t → v.k.stk = .hart h →
    cfg.layout.stackOf (v.m.mem (.context (.gTasks t) 1)) = some (.task t)

/-- What only hart 0 touches, and only before it opens the barrier. -/
def Loc.boot : Loc → Bool
  | .pid _ | .context _ _ | .state _ | .cell (.isLocked _) | .lk_cpu _ | .lk_acquire _
  | .lk_release _ | .lk_is_holding _ | .taskNrs | .time_mantissa_bit => true
  | _ => false

/-- The locations no other hart touches. -/
def Ghost.Owns (L : Layout) (k : Ghost) : Loc → Prop
  | .cpu_context c _ => c = k.hart
  | .context (.gTasks t) _ => k.run = some t ∨ k.stage = .boot
  | .stack a => L.stackOf a = some k.stk
  | .gticks | .time_data => k.hart = 0
  | l => k.stage = .boot ∧ Loc.boot l = true

/-! ## The two calls of `switch_to` -/

/-- A hart about to switch for task `t`. `sched` is called by the handler of a trap, the task
marked RUNNABLE; `scheduler` has marked it RUNNING. -/
def Ghost.atSwitch (s : SwitchSite) (h : ℕ) (ena : I32) (t : Slot) (calls : List Fn) : Ghost where
  hart := h
  sie := false
  off := 1
  ena := ena
  task := some t
  held := some t
  own := true
  run := some t
  st := match s with | .sched => .RUNNABLE | .scheduler => .RUNNING
  stage := .opened
  stk := match s with | .sched => .task t | .scheduler => .hart h
  sw := none
  calls := calls
  scan := match s with | .sched => t + 1 | .scheduler => t
  trap := match s with | .sched => .counted | .scheduler => .idle
  stvec := true
  back := none

def oldCtx (s : SwitchSite) (h : ℕ) (t : Slot) : CtxPtr :=
  match s with | .sched => .task (.gTasks t) | .scheduler => .cpu h

def newCtx (s : SwitchSite) (h : ℕ) (t : Slot) : CtxPtr :=
  match s with | .sched => .cpu h | .scheduler => .task (.gTasks t)

/-- The hart inside `switch_to`, called with the registers `ρ`. -/
def Ghost.switching (s : SwitchSite) (h : ℕ) (ena : I32) (t : Slot) (calls : List Fn)
    (ρ : CtxWord → U64) : Ghost :=
  { Ghost.atSwitch s h ena t calls with sw := some (t, ρ), scan := t + 1 }

/-- The hart that goes on after `switch_to`: on any hart in `sched`, on the same in `scheduler`. -/
def Ghost.resumed (s : SwitchSite) (h : ℕ) (ena : I32) (t : Slot) (calls : List Fn) : Ghost :=
  { Ghost.atSwitch s h ena t calls with
    st := match s with | .sched => .RUNNING | .scheduler => .RUNNABLE
    scan := t + 1 }

/-- The hart at the first instruction of `dummy_task`. -/
def Ghost.firstRun (h : ℕ) (ena : I32) (t : Slot) : Ghost :=
  { Ghost.resumed .sched h ena t [] with trap := .idle }

end GQuuuuuunix.Proof
