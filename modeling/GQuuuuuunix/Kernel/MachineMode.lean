import GQuuuuuunix.Kernel.Trap
import GQuuuuuunix.Lib.Run

/-! # start.c

A hart from reset to `kernel_main`: the program of `start` in machine mode, and the machine timer
that may interrupt it. An address of code is what is left to run from there. -/

namespace GQuuuuuunix.MachineMode
open Lib Kernel
set_option autoImplicit false

/-! ## riscv.h, mem_layout.h -/

def MSTATUS_MPP_MASK : U64 := 3#64 <<< 11
def MSTATUS_MPP_S : U64 := 1#64 <<< 11
def MSTATUS_MIE : U64 := 1#64 <<< 3
def MSTATUS_MPIE : U64 := 1#64 <<< 7
def SIE_SEIE : U64 := 1#64 <<< 9
def SIE_STIE : U64 := 1#64 <<< 5
def SIE_SSIE : U64 := 1#64 <<< 1
def MIE_MTIE : U64 := 1#64 <<< 7

def CLINT_BASE : U64 := 0x2000000

def CLINT_MTIMECMP (hartid : U64) : U64 := CLINT_BASE + 0x4000 + 8 * hartid

/-- The control registers that are read and written as plain words. -/
inductive Csr where
  | mhartid | mstatus | satp | medeleg | mideleg | sie | pmpaddr0 | pmpcfg0 | mie
  deriving DecidableEq, Repr

/-- The `mret` of `start`, or the one of `timer_vec`. -/
inductive MretSite where
  | start | timer_vec
  deriving DecidableEq, Repr

inductive Op where
  | csrr (c : Csr)
  | csrw (c : Csr) (x : U64)
  | w_mepc_kernel_main
  | w_mtvec_timer_vec
  | w_mscratch (x : U64)
  | w_tp (x : U64)
  -- `*(u64*) CLINT_MTIME`, `*(u64*) CLINT_MTIMECMP(hart_id)`, `per_hart_scratch[i]`
  | load_mtime
  | store_mtimecmp (x : U64)
  | store_scratch (i : Fin 5) (x : U64)
  -- `timer_vec` up to its `mret`
  | timer_vec
  | mret (s : MretSite)
  deriving DecidableEq, Repr

@[reducible] def Op.Ret : Op → Type
  | .csrr _ | .load_mtime => U64
  | _ => Unit

abbrev MProg := Prog Op Op.Ret

abbrev Code := MProg Unit

def one (o : Op) : MProg o.Ret := Prog.lift o

/-! ## start.c -/

/-- `init_timer`; `timer_scratch` is the address of the array. -/
def init_timer (timer_scratch : U64) : MProg Unit := do
  let hart_id ← one (.csrr .mhartid)
  let interval : U64 := 10000
  let now ← one .load_mtime
  one (.store_mtimecmp (now + interval))
  one (.store_scratch 3 (CLINT_MTIMECMP hart_id))
  one (.store_scratch 4 interval)
  one (.w_mscratch (timer_scratch + 40 * hart_id))
  one .w_mtvec_timer_vec
  let x ← one (.csrr .mstatus)
  one (.csrw .mstatus (x ||| MSTATUS_MIE))
  let x ← one (.csrr .mie)
  one (.csrw .mie (x ||| MIE_MTIE))

def start (timer_scratch : U64) : MProg Unit := do
  let x ← one (.csrr .mstatus)
  let x := x &&& ~~~MSTATUS_MPP_MASK
  let x := x ||| MSTATUS_MPP_S
  one (.csrw .mstatus x)
  one .w_mepc_kernel_main
  one (.csrw .satp 0)
  one (.csrw .medeleg 0xffff)
  one (.csrw .mideleg 0xffff)
  let x ← one (.csrr .sie)
  one (.csrw .sie (x ||| SIE_SEIE ||| SIE_STIE ||| SIE_SSIE))
  one (.csrw .pmpaddr0 0x3fffffffffffff)
  one (.csrw .pmpcfg0 0xf)
  init_timer timer_scratch
  let hartid ← one (.csrr .mhartid)
  let id : I32 := hartid.setWidth 32
  one (.w_tp (id.signExtend 64))
  one (.mret .start)

/-- `timer_vec`. -/
def timerVec : MProg Unit := do
  one .timer_vec
  one (.mret .timer_vec)

/-! ## The hart -/

inductive Mode where
  | user | supervisor | machine
  deriving DecidableEq, Repr

/-- Where a hart is, or where `mret` takes it. -/
inductive Pc where
  | kernel_main
  | code (c : Code)
  /-- What `mepc` holds at reset. -/
  | unknown

structure Hart where
  mode : Mode
  pc : Pc
  mepc : Pc
  csr : Csr → U64
  regs : Regs
  /-- `mtvec` holds `timer_vec`. -/
  mtvec : Bool
  timer : Timer
  mtime : U64
  ssip : Bool

/-- The bits of `mstatus`; `mie` is its MIE. -/
def mie (x : U64) : Bool := x.getLsbD 3
def mpie (x : U64) : Bool := x.getLsbD 7
def mpp (x : U64) : Mode :=
  if x.getLsbD 11 then (if x.getLsbD 12 then .machine else .supervisor) else .user

def Mode.mpp : Mode → U64
  | .user => 0
  | .supervisor => MSTATUS_MPP_S
  | .machine => MSTATUS_MPP_MASK

def Hart.setCsr (x : Hart) (c : Csr) (v : U64) : Hart :=
  { x with csr := Function.update x.csr c v }

/-- `mstatus` after a trap taken in mode `m`. -/
def trap_mstatus (x : U64) (m : Mode) : U64 :=
  let x := if mie x then x ||| MSTATUS_MPIE else x &&& ~~~MSTATUS_MPIE
  let x := x &&& ~~~MSTATUS_MIE
  (x &&& ~~~MSTATUS_MPP_MASK) ||| m.mpp

def mret_mstatus (x : U64) : U64 :=
  let x := if mpie x then x ||| MSTATUS_MIE else x &&& ~~~MSTATUS_MIE
  (x ||| MSTATUS_MPIE) &&& ~~~MSTATUS_MPP_MASK

def Hart.trap (x : Hart) : Hart :=
  { x.setCsr .mstatus (trap_mstatus (x.csr .mstatus) x.mode) with
    mode := .machine, mepc := x.pc, pc := if x.mtvec then .code timerVec else .unknown }

def Hart.mret (x : Hart) : Hart :=
  { x.setCsr .mstatus (mret_mstatus (x.csr .mstatus)) with
    mode := mpp (x.csr .mstatus), pc := x.mepc }

/-- The machine timer interrupt is pending. -/
def Hart.mtip (x : Hart) : Bool := decide (x.timer.mtimecmp ≤ x.mtime)

/-- The machine timer interrupt would be taken; `mie` the register, then MIE of `mstatus`. -/
def Hart.enabled (x : Hart) : Bool :=
  (x.csr .mie).getLsbD 7 && (x.mode ≠ .machine || mie (x.csr .mstatus))

/-- Only `mv` to `tp`, and memory, are open to all modes. -/
def Op.privileged : Op → Bool
  | .w_tp _ | .load_mtime | .store_mtimecmp _ | .store_scratch _ _ => false
  | _ => true

def Hart.exec (x : Hart) : (o : Op) → (o.Ret → Code) → Hart
  | .csrr c, k => { x with pc := .code (k (x.csr c)) }
  | .csrw c v, k => { x.setCsr c v with pc := .code (k ()) }
  | .w_mepc_kernel_main, k => { x with mepc := .kernel_main, pc := .code (k ()) }
  | .w_mtvec_timer_vec, k => { x with mtvec := true, pc := .code (k ()) }
  | .w_mscratch v, k => { x with timer := { x.timer with mscratch := v }, pc := .code (k ()) }
  | .w_tp v, k => { x with regs := Function.update x.regs .tp v, pc := .code (k ()) }
  | .load_mtime, k => { x with pc := .code (k x.mtime) }
  | .store_mtimecmp v, k => { x with timer := { x.timer with mtimecmp := v }, pc := .code (k ()) }
  | .store_scratch i v, k =>
    { x with
      timer := { x.timer with scratch := Function.update x.timer.scratch i v }
      pc := .code (k ()) }
  | .timer_vec, k =>
    let (t, r, sip) := Kernel.timer_vec x.timer x.regs
    { x with timer := t, regs := r, ssip := sip.getLsbD 1, pc := .code (k ()) }
  | .mret _, _ => x.mret

inductive Event where
  /-- The hart executes its next instruction. -/
  | instr
  /-- The hart takes the machine timer interrupt. -/
  | interrupt
  /-- The clock goes on. -/
  | time (t : U64)
  deriving DecidableEq

/-- The operation that comes next. -/
def Hart.next (x : Hart) : Option Op :=
  match x.pc with
  | .code (.op o _) => some o
  | _ => none

/-- An instruction above the privilege of the hart is illegal, and `kernel_main` is not followed. -/
def step (x : Hart) : Event → Option Hart
  | .instr =>
    match x.pc with
    | .code (.op o k) => if o.privileged && x.mode ≠ .machine then none else some (x.exec o k)
    | _ => none
  | .interrupt => if x.enabled && x.mtip then some x.trap else none
  | .time t => some { x with mtime := t }

/-- A hart at reset. -/
structure Reset (timer_scratch : U64) (h : ℕ) (x : Hart) : Prop where
  mode : x.mode = .machine
  pc : x.pc = .code (start timer_scratch)
  mie : mie (x.csr .mstatus) = false
  mhartid : x.csr .mhartid = BitVec.ofNat 64 h

def machine (timer_scratch : U64) (h : ℕ) : System Hart Event where
  init := Reset timer_scratch h
  step := step

/-! ## One hart -/

/-- A hart at reset with every register at zero. -/
def Hart.atReset (timer_scratch : U64) (h : ℕ) : Hart where
  mode := .machine
  pc := .code (start timer_scratch)
  mepc := .unknown
  csr := fun
    | .mhartid => BitVec.ofNat 64 h
    | _ => 0
  regs := fun _ => 0
  mtvec := false
  timer := ⟨0, fun _ => 0, 0⟩
  mtime := 0
  ssip := false

theorem Hart.atReset_reset (timer_scratch : U64) (h : ℕ) :
    Reset timer_scratch h (Hart.atReset timer_scratch h) :=
  ⟨rfl, rfl, by show MachineMode.mie 0 = false; decide, rfl⟩

end GQuuuuuunix.MachineMode
