import GQuuuuuunix.Kernel.MachineMode
import GQuuuuuunix.Kernel.Start

/-! # From reset to the scheduler

Each hart runs `entry.s` and `start` by itself. Those that have come to `kernel_main` run the
kernel, while others are still in machine mode, or never get out of it. -/

namespace GQuuuuuunix.PowerOn
open Lib Kernel
set_option autoImplicit false

/-! ## entry.s -/

/-- `_entry`, instruction by instruction, up to `start`; `ra` is where `start` would return. -/
def _entry (kstack mhartid ra : U64) (r : Regs) : Regs :=
  -- la sp, kstack
  let r := Function.update r .sp kstack
  -- li a0, 1024*4; csrr a1, mhartid; addi a1, a1, 1
  let r := Function.update r .a0 (1024 * 4)
  let r := Function.update r .a1 mhartid
  let r := Function.update r .a1 (r .a1 + 1)
  -- mul a0, a0, a1; add sp, sp, a0
  let r := Function.update r .a0 (r .a0 * r .a1)
  let r := Function.update r .sp (r .sp + r .a0)
  -- call start
  Function.update r .ra ra

/-- Hart `h` at reset, when it has run `_entry`. -/
structure Reset (L : Layout) (timer_scratch : U64) (h : ℕ) (x : MachineMode.Hart) : Prop
    extends MachineMode.Reset timer_scratch h x where
  regs : ∃ ra r, x.regs = _entry L.kstack (x.csr .mhartid) ra r
  sie : sie (x.csr .mstatus) = false
  ssip : x.ssip = false

def hart (L : Layout) (timer_scratch : U64) (h : ℕ) :
    System MachineMode.Hart MachineMode.Event where
  init := Reset L timer_scratch h
  step := MachineMode.step

/-! ## The hand-over -/

/-- The bits of `mstatus` that `sstatus` shows. -/
def SSTATUS_BITS : U64 := 0x80000003000de762

/-- The hart is at the first instruction of `kernel_main`. -/
def atKernel (x : MachineMode.Hart) : Bool :=
  match x.pc with
  | .kernel_main => true
  | _ => false

def mode : MachineMode.Mode → Option Mode
  | .user => some .user
  | .supervisor => some .supervisor
  | .machine => none

/-- The hart `x` as the kernel knows it; of `y` it has the registers that only supervisor mode
writes. -/
def handOver (cfg : Config) (x : MachineMode.Hart) (m : Mode) (r : Regs) (pc : U64)
    (y : Kernel.Hart) : Kernel.Hart :=
  { y with
    regs := r
    pc := pc
    mode := m
    sstatus := x.csr .mstatus &&& SSTATUS_BITS
    ssip := x.ssip
    timer := x.timer
    calls := []
    code := kernel_main cfg.layout cfg.pids }

/-! ## The board -/

structure Board where
  machine : ℕ → MachineMode.Hart
  /-- The harts that have come to `kernel_main`. -/
  up : ℕ → Bool
  /-- Of the other harts it has the registers that only supervisor mode writes. -/
  kernel : Kernel.State

inductive Event where
  /-- Hart `h` goes on in machine mode. -/
  | machine (h : ℕ) (e : MachineMode.Event)
  /-- The `mret` of hart `h` goes to `kernel_main`; `r` is what compiled `start` has made of its
  registers, its frame still on the stack. -/
  | arrive (h : ℕ) (r : Regs) (pc : U64)
  | kernel (e : Kernel.Event)

/-- The hart an event of the kernel is about. -/
def hartOf : Kernel.Event → ℕ
  | .hart h _ | .compute h _ _ | .timer h => h

def Board.step (cfg : Config) (b : Board) : Event → Option Board
  | .machine h e =>
    if h < cfg.harts ∧ b.up h = false then
      match MachineMode.step (b.machine h) e with
      | some x =>
        if atKernel x then none else some { b with machine := Function.update b.machine h x }
      | none => none
    else none
  | .arrive h r pc =>
    if h < cfg.harts ∧ b.up h = false then
      match MachineMode.step (b.machine h) .instr with
      | some x =>
        match mode x.mode with
        | some m =>
          if atKernel x ∧ cfg.layout.ComputeOk x.regs r then
            some { machine := Function.update b.machine h x, up := Function.update b.up h true,
                   kernel := b.kernel.setHart h (handOver cfg x m r pc (b.kernel.harts h)) }
          else none
        | none => none
      | none => none
    else none
  | .kernel e =>
    if b.up (hartOf e) then
      (b.kernel.step cfg.layout cfg.harts e).map fun σ => { b with kernel := σ }
    else none

structure Board.Reset (cfg : Config) (timer_scratch : U64) (b : Board) : Prop where
  harts : ∀ h < cfg.harts, PowerOn.Reset cfg.layout timer_scratch h (b.machine h)
  up : ∀ h, b.up h = false
  stvec : ∀ h < cfg.harts, (b.kernel.harts h).stvec = false
  mem : b.kernel.mem = Mem.zero
  resv : ∀ h, b.kernel.resv h = none
  objResv : ∀ h, b.kernel.objResv h = none
  parked : ∀ sp, b.kernel.parked sp = none

def board (cfg : Config) (timer_scratch : U64) : System Board Event where
  init := Board.Reset cfg timer_scratch
  step := Board.step cfg

/-- What the kernel knows of the board: the harts that are not up are still to boot. -/
structure Board.Agrees (cfg : Config) (b : Board) (σ : State) : Prop where
  up : ∀ h, b.up h = true → σ.harts h = b.kernel.harts h
  down : ∀ h < cfg.harts, b.up h = false → (σ.harts h).Booting cfg h
  mem : σ.mem = b.kernel.mem
  objs : σ.objs = b.kernel.objs
  resv : σ.resv = b.kernel.resv
  objResv : σ.objResv = b.kernel.objResv
  parked : σ.parked = b.kernel.parked

/-! ## What a run of the board did -/

def kernelEvent : Board × Event → Option Kernel.Event
  | (_, .kernel e) => some e
  | _ => none

/-- What hart `h` did in machine mode. -/
def machineTurn (h : ℕ) : Board × Event → Option (MachineMode.Hart × MachineMode.Event)
  | (b, .machine h' e) => if h' = h then some (b.machine h, e) else none
  | (b, .arrive h' _ _) => if h' = h then some (b.machine h, .instr) else none
  | _ => none

/-- The clock as `init_timer` read it. -/
def clockRead : MachineMode.Hart × MachineMode.Event → Option U64
  | (x, .instr) => if x.next = some .load_mtime then some x.mtime else none
  | _ => none

/-- The machine timer interrupted hart `h` in the kernel. -/
def timerFired (h : ℕ) : Board × Event → Bool
  | (_, .kernel (.timer h')) => h' == h
  | _ => false

/-! ## One board -/

def Board.atReset (cfg : Config) (timer_scratch : U64) : Board where
  machine h := { MachineMode.Hart.atReset timer_scratch h with
    regs := _entry cfg.layout.kstack (BitVec.ofNat 64 h) 0 fun _ => 0 }
  up := fun _ => false
  kernel := State.start cfg

theorem Board.atReset_reset (cfg : Config) (timer_scratch : U64) :
    (Board.atReset cfg timer_scratch).Reset cfg timer_scratch := by
  refine ⟨fun h _ => ?_, fun _ => rfl, fun _ _ => rfl, rfl, fun _ => rfl, fun _ => rfl,
    fun _ => rfl⟩
  have hx := MachineMode.Hart.atReset_reset timer_scratch h
  refine ⟨⟨hx.mode, hx.pc, hx.mie, hx.mhartid⟩, ⟨0, fun _ => 0, rfl⟩, ?_, rfl⟩
  show Kernel.sie 0 = false
  decide

end GQuuuuuunix.PowerOn
