import GQuuuuuunix.Kernel.Main
import GQuuuuuunix.Lib.Run

/-! # The machine: harts, memory, interrupts, and one step of each

A hart runs what is left of its program, one operation at a time; harts interleave freely and
every operation is one atomic step. Between operations compiled C moves its own registers and
program counter in a way the source does not fix, so `Event.compute` lets it: it keeps `tp`, and
keeps `sp` on the stack it is on with room for one more frame of `kernelvec`. The locals of a C
function live in the rest of its program; they are left on the stack, at `sp`, when `switch_to` is
called, and found again by `ret` through `ra` and `sp`.

Resuming compiled code with other registers than it left has no meaning in C. The machine then
goes to `crash`, and so it does for a call through a null function pointer. -/

namespace GQuuuuuunix.Kernel
open Lib
set_option autoImplicit false

/-! ## State -/

structure Hart where
  regs : Regs
  pc : U64
  mode : Mode
  sstatus : U64
  sepc : U64
  scause : U64
  /-- The supervisor software interrupt pending bit of `sip`. -/
  ssip : Bool
  /-- `stvec` holds `kernelvec`. -/
  stvec : Bool
  timer : Timer
  /-- The calls in progress, innermost first. -/
  calls : List Fn
  code : Code

/-- What a call of `switch_to` leaves on the stack. -/
structure Parked where
  regs : CtxWord → U64
  calls : List Fn
  code : Code

structure State where
  harts : ℕ → Hart
  /-- The reservation each hart's last `lr` took: on a cell, or on an atomic object of a task. -/
  resv : ℕ → Option Cell
  objResv : ℕ → Option ℕ
  mem : Mem
  /-- The double words that hold the atomic objects of the tasks. -/
  objs : ℕ → U64
  /-- Indexed by stack pointer. -/
  parked : U64 → Option Parked

def State.setHart (σ : State) (h : ℕ) (x : Hart) : State :=
  { σ with harts := Function.update σ.harts h x }

/-- Hart `h` goes on with `c`. -/
def State.goto (σ : State) (h : ℕ) (c : Code) : State :=
  σ.setHart h { σ.harts h with code := c }

/-- A write by hart `h` to `c` ends the reservations of the other harts on it. -/
def State.breakResv (σ : State) (h : ℕ) (c : Cell) : State :=
  { σ with resv := fun h' => if h' ≠ h ∧ σ.resv h' = some c then none else σ.resv h' }

def State.write (σ : State) (h : ℕ) (l : Loc) (v : l.Ty) : State :=
  let σ := { σ with mem := σ.mem.set l v }
  match l with
  | .cell c => σ.breakResv h c
  | _ => σ

/-- Hart `h` stores `x` in the object `a`. -/
def State.writeObj (σ : State) (h : ℕ) (sz : Width) (a : ℕ) (x : U64) : State :=
  { σ with
    objs := Function.update σ.objs a (sz.write (σ.objs a) x)
    objResv := fun h' => if h' ≠ h ∧ σ.objResv h' = some a then none else σ.objResv h' }

/-- The hart's reservation, whatever it was on, ends. -/
def State.clearResv (σ : State) (h : ℕ) : State :=
  { σ with
    resv := Function.update σ.resv h none
    objResv := Function.update σ.objResv h none }

/-- An instruction on an atomic object: what it leaves in the register, and the state after. -/
def State.atomic (σ : State) (h : ℕ) (fail : Bool) : AtomicInsn → U64 × State
  | .lr sz a =>
    let σ' := σ.clearResv h
    (sz.read (σ.objs a), { σ' with objResv := Function.update σ.objResv h (some a) })
  | .sc sz a x =>
    if σ.objResv h = some a ∧ fail = false then (0, (σ.clearResv h).writeObj h sz a x)
    else (1, σ.clearResv h)
  | .amo f sz a x =>
    let old := sz.read (σ.objs a)
    (old, σ.writeObj h sz a (f.apply old x))

/-! ## The trap registers -/

def trap_sstatus (x : U64) (m : Mode) : U64 :=
  let x := if sie x then x ||| SSTATUS_SPIE else x &&& ~~~SSTATUS_SPIE
  let x := if m = .supervisor then x ||| SSTATUS_SPP else x &&& ~~~SSTATUS_SPP
  x &&& ~~~SSTATUS_SIE

def sret_sstatus (x : U64) : U64 :=
  let y := if spie x then x ||| SSTATUS_SIE else x &&& ~~~SSTATUS_SIE
  (y ||| SSTATUS_SPIE) &&& ~~~SSTATUS_SPP

def sret_mode (x : U64) : Mode := if spp x then .supervisor else .user

/-- The supervisor software interrupt. -/
def SOFTWARE_INTERRUPT : U64 := 0x8000000000000001

def Hart.snapshot (x : Hart) : Snapshot :=
  { regs := x.regs, pc := x.pc, mode := x.mode, sie := sie x.sstatus }

/-- Hart `h` takes its pending software interrupt. -/
def Hart.trap (x : Hart) (h : ℕ) : Hart :=
  { x with
    mode := .supervisor
    sstatus := trap_sstatus x.sstatus x.mode
    sepc := x.pc
    scause := SOFTWARE_INTERRUPT
    calls := .kernelvec h :: x.calls
    code := if x.stvec then (kernelvec x.snapshot).bind fun _ => x.code else crash }

/-- What `sret` makes of the hart, before it goes on. -/
def Hart.afterSret (x : Hart) : Hart :=
  { x with
    pc := x.sepc
    mode := sret_mode x.sstatus
    sstatus := sret_sstatus x.sstatus
    calls := x.calls.tail }

/-- The program that was interrupted finds what it left, but for the hart it is on. -/
def Snapshot.intact (s : Snapshot) (x : Hart) : Prop :=
  x.pc = s.pc ∧ x.mode = s.mode ∧ ∀ r ∈ Reg.all, r ≠ .tp → x.regs r = s.regs r

instance (s : Snapshot) (x : Hart) : Decidable (s.intact x) :=
  inferInstanceAs (Decidable (_ ∧ _ ∧ ∀ r ∈ Reg.all, r ≠ .tp → x.regs r = s.regs r))

/-! ## switch_to -/

/-- `struct context`: the register that each word is for. -/
def contextRegs : List Reg :=
  [.ra, .sp, .s0, .s1, .s2, .s3, .s4, .s5, .s6, .s7, .s8, .s9, .s10, .s11]

/-- A context has room for what compiled C relies on across a call, and where to go on. -/
theorem mem_contextRegs (r : Reg) : r ∈ contextRegs ↔ r = .ra ∨ r.calleeSaved = true := by
  cases r <;> decide

/-- The context that these registers make. -/
def ctxOf (r : Regs) : CtxWord → U64 := fun i => r (contextRegs.get i)

/-- The `ret` of `switch_to`: the code at `ra`, with the frame at `sp`. -/
def Hart.afterRet (L : Layout) (parked : U64 → Option Parked) (x : Hart) : Hart :=
  if x.regs .ra = L.dummy_task then { x with calls := [], code := dummy_task }
  else
    match parked (x.regs .sp) with
    | some p =>
      if ∀ i, ctxOf x.regs i = p.regs i then { x with calls := p.calls, code := p.code }
      else { x with code := crash }
    | none => { x with code := crash }

/-- The call of `switch_to`: `ra` is set and the caller's frame stays on the stack. -/
def State.callSwitch (L : Layout) (σ : State) (h : ℕ) (s : SwitchSite) (old new : CtxPtr)
    (k : Code) : State :=
  let x := σ.harts h
  let regs := Function.update x.regs .ra (L.switch_ret s)
  let p : Parked := { regs := ctxOf regs, calls := x.calls, code := k }
  { σ.setHart h { x with regs := regs, code := switch_to old new } with
    parked := fun sp => if sp = regs .sp then some p else σ.parked sp }

/-! ## One operation -/

/-- Hart `h` performs `o` and goes on with `k`; `fail` makes an `sc` fail for no reason. A hart in
`PANIC` or past a crash makes no more steps. -/
def State.exec (L : Layout) (σ : State) (h : ℕ) (fail : Bool) :
    (o : Op) → (o.Ret → Code) → Option State
  | .load l, k => some (σ.goto h (k (σ.mem l)))
  | .store l v, k => some ((σ.write h l v).goto h (k ()))
  | .amoswap c v, k => some ((σ.write h (.cell c) v).goto h (k (σ.mem (.cell c))))
  | .lr c, k =>
    let σ' := σ.clearResv h
    some ({ σ' with resv := Function.update σ.resv h (some c) }.goto h (k (σ.mem (.cell c))))
  | .sc c v, k =>
    let σ' := σ.clearResv h
    if σ.resv h = some c ∧ fail = false then some ((σ'.write h (.cell c) v).goto h (k (0 : I32)))
    else some (σ'.goto h (k (1 : I32)))
  | .atomic i, k =>
    let (r, σ') := σ.atomic h fail i
    some (σ'.goto h (k r))
  | .fence, k => some (σ.goto h (k ()))
  | .r_tp, k => some (σ.goto h (k ((σ.harts h).regs .tp)))
  | .r_sstatus, k => some (σ.goto h (k (σ.harts h).sstatus))
  | .w_sstatus x, k => some (σ.setHart h { σ.harts h with sstatus := x, code := k () })
  | .r_sepc, k => some (σ.goto h (k (σ.harts h).sepc))
  | .w_sepc x, k => some (σ.setHart h { σ.harts h with sepc := x, code := k () })
  | .r_scause, k => some (σ.goto h (k (σ.harts h).scause))
  | .r_sip, k => some (σ.goto h (k (if (σ.harts h).ssip then 2 else 0)))
  | .w_sip x, k =>
    some (σ.setHart h { σ.harts h with ssip := x.getLsbD 1, code := k () })
  | .w_stvec, k => some (σ.setHart h { σ.harts h with stvec := true, code := k () })
  | .printf _, k => some (σ.goto h (k ()))
  | .loop l, k => some (σ.goto h (l.round.bind k))
  | .enter f, k =>
    some (σ.setHart h { σ.harts h with calls := f :: (σ.harts h).calls, code := k () })
  | .leave _ _, k =>
    some (σ.setHart h { σ.harts h with calls := (σ.harts h).calls.tail, code := k () })
  | .point _, k => some (σ.goto h (k ()))
  | .panic _, _ => none
  | .crash, _ => none
  | .call_switch_to s old new, k => some (σ.callSwitch L h s old new (k ()))
  | .addi_sp i, k =>
    let x := σ.harts h
    some (σ.setHart h { x with
      regs := Function.update x.regs .sp (x.regs .sp + BitVec.ofInt 64 i), code := k () })
  | .sd r off, k =>
    let x := σ.harts h
    some ((σ.write h (.stack (x.regs .sp + BitVec.ofNat 64 off)) (x.regs r)).goto h (k ()))
  | .ld r off, k =>
    let x := σ.harts h
    let v := σ.mem (.stack (x.regs .sp + BitVec.ofNat 64 off))
    some (σ.setHart h { x with regs := Function.update x.regs r v, code := k () })
  | .call_c, k => some (σ.goto h (k (σ.harts h).regs))
  | .ret_c saved, k =>
    let x := σ.harts h
    some (σ.setHart h { x with
      regs := fun r => if r.calleeSaved then saved r else x.regs r, code := k () })
  | .sret s, k =>
    let x := (σ.harts h).afterSret
    some (σ.setHart h { x with code := if s.intact x then k () else crash })
  | .sd_ctx p r i, k =>
    some ({ σ with mem := σ.mem.setCtx p i ((σ.harts h).regs r) }.goto h (k ()))
  | .ld_ctx p r i, k =>
    let x := σ.harts h
    some (σ.setHart h { x with
      regs := Function.update x.regs r (σ.mem.ctx p i), code := k () })
  | .ret _ _, _ => some (σ.setHart h ((σ.harts h).afterRet L σ.parked))

/-! ## One step -/

inductive Event where
  /-- Hart `h` takes its pending interrupt if it can, else performs its next operation. -/
  | hart (h : ℕ) (fail : Bool)
  /-- Compiled C on hart `h` moves its registers. -/
  | compute (h : ℕ) (regs : Regs) (pc : U64)
  /-- The machine timer interrupts hart `h`, which runs `timer_vec`. -/
  | timer (h : ℕ)

/-- A frame of `kernelvec` below `sp` stays on the stack that `sp` is on. -/
def Layout.Roomy (L : Layout) (sp : U64) : Prop :=
  ∀ j ∈ List.range 257, L.stackOf (sp - BitVec.ofNat 64 j) = L.stackOf sp

instance (L : Layout) (sp : U64) : Decidable (L.Roomy sp) :=
  inferInstanceAs (Decidable (∀ j ∈ List.range 257, _))

/-- What compiled C may make of its registers. -/
def Layout.ComputeOk (L : Layout) (r r' : Regs) : Prop :=
  r' .tp = r .tp ∧ L.stackOf (r' .sp) = L.stackOf (r .sp) ∧ L.Roomy (r' .sp)

instance (L : Layout) (r r' : Regs) : Decidable (L.ComputeOk r r') :=
  inferInstanceAs (Decidable (_ ∧ _ ∧ _))

def Code.isC : Code → Bool
  | .op o _ => !o.isAsm
  | .pure _ => false

def Hart.timerTrap (x : Hart) : Hart :=
  let (t, r, sip) := timer_vec x.timer x.regs
  { x with timer := t, regs := r, ssip := x.ssip || sip.getLsbD 1 }

/-- The interrupt of hart `x` is pending and enabled. -/
def Hart.interrupted (x : Hart) : Bool := sie x.sstatus && x.ssip

def State.step (L : Layout) (n : ℕ) (σ : State) : Event → Option State
  | .hart h fail =>
    if h < n then
      if (σ.harts h).interrupted then some (σ.setHart h ((σ.harts h).trap h))
      else
        match (σ.harts h).code with
        | .op o k => σ.exec L h fail o k
        | .pure _ => none
    else none
  | .compute h r pc =>
    if h < n ∧ Code.isC (σ.harts h).code ∧ L.ComputeOk (σ.harts h).regs r then
      some (σ.setHart h { σ.harts h with regs := r, pc := pc })
    else none
  | .timer h => if h < n then some (σ.setHart h (σ.harts h).timerTrap) else none

/-! ## Booting the kernel -/

/-- A machine and the tasks its hart 0 adds. -/
structure Config where
  layout : Layout
  harts : ℕ
  pids : List I32
  harts_pos : 0 < harts
  harts_le : harts ≤ MAX_CPU_NUMS
  pids_le : pids.length ≤ TASK_MAX_NRS

/-- Hart `h` as `start` hands it to `kernel_main`. -/
structure Hart.Booting (cfg : Config) (h : ℕ) (x : Hart) : Prop where
  code : x.code = kernel_main cfg.layout cfg.pids
  tp : x.regs .tp = BitVec.ofNat 64 h
  stack : cfg.layout.stackOf (x.regs .sp) = some (.hart h)
  roomy : cfg.layout.Roomy (x.regs .sp)
  mode : x.mode = .supervisor
  sie : sie x.sstatus = false
  ssip : x.ssip = false
  stvec : x.stvec = false
  calls : x.calls = []

structure State.Booting (cfg : Config) (σ : State) : Prop where
  harts : ∀ h < cfg.harts, (σ.harts h).Booting cfg h
  mem : σ.mem = Mem.zero
  resv : ∀ h, σ.resv h = none
  objResv : ∀ h, σ.objResv h = none
  parked : ∀ sp, σ.parked sp = none

def kernel (cfg : Config) : System State Event where
  init := State.Booting cfg
  step := State.step cfg.layout cfg.harts

end GQuuuuuunix.Kernel
