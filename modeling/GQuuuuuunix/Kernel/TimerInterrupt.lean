import GQuuuuuunix.Kernel.History
import GQuuuuuunix.Kernel.Start

/-! # `02.TimerInterrupt`

The same files riscv.h, start.c and kvec.s as in `03.Scheduler`, with a main loop that waits, and a
trap handler that counts and prints the ticks of hart 0. There are no tasks and no locks; of a
`Layout` only `kstack` is used. -/

namespace GQuuuuuunix.TimerInterrupt
open Lib Kernel
set_option autoImplicit false

/-! ## trap.c -/

/-- The body of `case 0x8000000000000001L`. -/
def software_interrupt : KProg Unit := do
  point .software_interrupt
  let hartid ← r_tp
  if hartid = 0 then
    let g ← load .gticks
    store .gticks (g + 1)
    let d ← load .time_data
    store .time_data (d + TICKS)
    let data ← load .time_data
    let bit ← load .time_mantissa_bit
    let fraction_decimal := get_time_decimal data bit
    let data ← load .time_data
    let bit ← load .time_mantissa_bit
    printf (.tick (data >>> bit.toNat) fraction_decimal)

/-- It leaves `sip` as it is. -/
def kernel_trap_handler : KProg Unit := do
  let sepc ← r_sepc
  let sstatus ← r_sstatus
  let scause ← r_scause
  if scause = 0x8000000000000001 then
    software_interrupt
  w_sepc sepc
  w_sstatus sstatus

/-! ## kvec.s -/

/-- `kernelvec`, entered by a trap of a program with the registers of `s`. -/
def kernelvec (s : Snapshot) : KProg Unit := do
  one (.addi_sp (-256))
  Prog.each (fun x => one (.sd x.1 x.2)) kernelvec_saves
  let saved ← one .call_c
  kernel_trap_handler
  one (.ret_c saved)
  Prog.each (fun x => one (.ld x.1 x.2)) kernelvec_loads
  one (.addi_sp 256)
  one (.sret s)

/-! ## main.c -/

/-- `kernel_main` up to `for (;;) asm volatile("wfi");`, which is its end here. -/
def kernel_main : KProg Unit := do
  let cpu_id ← r_tp
  w_stvec_kernelvec
  if cpu_id = 0 then
    printf .booted
  store .time_data 0
  store .time_mantissa_bit 32
  intr_on

/-! ## The machine -/

structure Config where
  layout : Layout
  harts : ℕ
  harts_pos : 0 < harts
  harts_le : harts ≤ MAX_CPU_NUMS

/-- The hart takes its pending software interrupt. -/
def trap (x : Hart) (h : ℕ) : Hart :=
  { x.trap h with
    code := if x.stvec then (kernelvec x.snapshot).bind fun _ => x.code else crash }

def step (L : Layout) (n : ℕ) (σ : State) : Event → Option State
  | .hart h fail =>
    if h < n then
      if (σ.harts h).interrupted then some (σ.setHart h (trap (σ.harts h) h))
      else
        match (σ.harts h).code with
        | .op o k => σ.exec L h fail o k
        -- `wfi` may always go on at once
        | .pure _ => some σ
    else none
  | .compute h r pc =>
    if h < n ∧ Code.isC (σ.harts h).code ∧ L.ComputeOk (σ.harts h).regs r then
      some (σ.setHart h { σ.harts h with regs := r, pc := pc })
    else none
  | .timer h => if h < n then some (σ.setHart h (σ.harts h).timerTrap) else none

/-- Hart `h` as `start` hands it to `kernel_main`. -/
structure Booting (cfg : Config) (h : ℕ) (x : Hart) : Prop where
  code : x.code = kernel_main
  tp : x.regs .tp = BitVec.ofNat 64 h
  stack : cfg.layout.stackOf (x.regs .sp) = some (.hart h)
  roomy : cfg.layout.Roomy (x.regs .sp)
  mode : x.mode = .supervisor
  sie : sie x.sstatus = false
  ssip : x.ssip = false
  stvec : x.stvec = false
  calls : x.calls = []

structure Start (cfg : Config) (σ : State) : Prop where
  harts : ∀ h < cfg.harts, Booting cfg h (σ.harts h)
  mem : σ.mem = Mem.zero

def machine (cfg : Config) : System State Event where
  init := Start cfg
  step := step cfg.layout cfg.harts

/-! ## What happened in a run -/

/-- The update of the tick count or of the clock that hart 0 has just made in its handler. -/
def updated (x : State × Event) : Option Bool :=
  match performed x with
  | some (0, .store .gticks _) => some true
  | some (0, .store .time_data _) => some false
  | _ => none

/-- Hart 0 is between the two updates in `kernel_trap_handler`. -/
def between (tr : Trace) : Bool := (tr.findSome? updated).getD false

/-- `gticks++`. -/
def ticked (x : State × Event) : Bool := updated x == some true

/-- The timestamp that hart 0 printed. -/
def printed (x : State × Event) : Option (U64 × U32) :=
  match performed x with
  | some (0, .printf (.tick s f)) => some (s, f)
  | _ => none

/-- The timestamps of hart 0, the last one first. -/
def timestamps (tr : Trace) : List (U64 × U32) := tr.filterMap printed

/-- The order of timestamps: seconds, then the fraction. -/
def NotAfter (a b : U64 × U32) : Prop := a.1 < b.1 ∨ a.1 = b.1 ∧ a.2 ≤ b.2

/-- Hart `h` executed `timer_vec` after the last trap it took. -/
def renewed (h : ℕ) (tr : Trace) : Bool :=
  (tr.findSome? fun x =>
    if fired h x then some true else if trapped h x then some false else none).getD false

/-! ## One machine -/

/-- Hart `h` at the first instruction of `kernel_main`. -/
def startHart (cfg : Config) (h : ℕ) : Hart where
  regs := fun
    | .tp => BitVec.ofNat 64 h
    | .sp => cfg.layout.startSp h
    | _ => 0
  pc := 0
  mode := .supervisor
  sstatus := 0
  sepc := 0
  scause := 0
  ssip := false
  stvec := false
  timer := ⟨0, fun _ => 0, 0⟩
  calls := []
  code := kernel_main

def start (cfg : Config) : State where
  harts := startHart cfg
  resv := fun _ => none
  objResv := fun _ => none
  mem := Mem.zero
  objs := fun _ => 0
  parked := fun _ => none

theorem start_init (cfg : Config) (hL : cfg.layout.Apart) : Start cfg (start cfg) := by
  refine ⟨fun h hh => ?_, rfl⟩
  have hm : h < MAX_CPU_NUMS := Nat.lt_of_lt_of_le hh cfg.harts_le
  have hstk := fun (j : ℕ) (hj : j ≤ 256) => stackOf_startSp hL hm hj
  have h0 : cfg.layout.stackOf (cfg.layout.startSp h) = some (.hart h) := by
    have h := hstk 0 (Nat.zero_le _)
    rwa [show BitVec.ofNat 64 0 = 0#64 from rfl, BitVec.sub_zero] at h
  refine ⟨rfl, rfl, h0, fun j hj => ?_, rfl, ?_, rfl, rfl, rfl⟩
  · refine (hstk j ?_).trans h0.symm
    have := List.mem_range.1 hj
    omega
  · show Kernel.sie 0 = false
    decide

/-- A machine with `n` harts. -/
def Config.sample (n : ℕ) (hpos : 0 < n) (hle : n ≤ MAX_CPU_NUMS) : Config where
  layout := .sample
  harts := n
  harts_pos := hpos
  harts_le := hle

/-- What a list of events makes of a machine that starts is reached by a run. -/
theorem Run.of_start (cfg : Config) (hL : cfg.layout.Apart) (es : List Event)
    (P : History State Event × State → Bool)
    (h : (perform (machine cfg) es ([], start cfg)).any P = true) :
    ∃ tr σ, Run (machine cfg) tr σ ∧ P (tr, σ) = true :=
  Run.of_perform (M := machine cfg) (start_init cfg hL) _ h

end GQuuuuuunix.TimerInterrupt
