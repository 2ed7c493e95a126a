import GQuuuuuunix.Kernel.Sched

/-! # trap.c and kvec.s -/

namespace GQuuuuuunix.Kernel
open Lib
set_option autoImplicit false

/-! ## fixed_point.h -/

def fixed_point_get_integer (data : U64) (mantissa_bit : BitVec 8) : U64 :=
  data >>> mantissa_bit.toNat

def fixed_point_get_mantissa (data : U64) (mantissa_bit : BitVec 8) : U64 :=
  data &&& (((1 : U64) <<< mantissa_bit.toNat) - 1)

/-! ## trap.c -/

def TICKS : U64 := 0x3FFFF

/-- `get_time_decimal`: the five decimal digits of the fraction. -/
def get_time_decimal (data : U64) (mantissa_bit : BitVec 8) : U32 :=
  let mantissa := data &&& (((1 : U64) <<< mantissa_bit.toNat) - 1)
  let denom := (1 : U64) <<< mantissa_bit.toNat
  let mantissa := mantissa * 100000
  (mantissa / denom).setWidth 32

/-- `get_cur_task() != NULL && get_cur_task()->state == RUNNING`. -/
def cur_task_running : KProg Bool := do
  match ← get_cur_task with
  | none => pure false
  | some _ =>
    deref (← get_cur_task) fun t => do
      let s ← load (.state t)
      pure (decide (s = .RUNNING))

/-- The body of `case 0x8000000000000001L`. -/
def software_interrupt : KProg Unit := do
  point .software_interrupt
  let hartid ← r_tp
  if hartid = 0 then
    let g ← load .gticks
    store .gticks (g + 1)
    let d ← load .time_data
    store .time_data (d + TICKS)
  if ← cur_task_running then
    let data ← load .time_data
    let bit ← load .time_mantissa_bit
    let fraction_decimal := get_time_decimal data bit
    let data ← load .time_data
    let bit ← load .time_mantissa_bit
    printf (.tick (data >>> bit.toNat) fraction_decimal)
    yield
  let x ← r_sip
  w_sip (x &&& ~~~2)

def kernel_trap_handler : KProg Unit := do
  let sepc ← r_sepc
  let sstatus ← r_sstatus
  let scause ← r_scause
  if sstatus &&& SSTATUS_SPP = 0 then
    PANIC .trap_not_supervisor
  if (← intr_get) ≠ 0 then
    PANIC .trap_intr_on
  if scause = 0x8000000000000001 then
    software_interrupt
  w_sepc sepc
  w_sstatus sstatus

/-! ## kvec.s, kernelvec -/

/-- The `sd` instructions of `kernelvec`: a register and its offset from `sp`. -/
def kernelvec_saves : List (Reg × ℕ) :=
  [(.ra, 0), (.sp, 8), (.gp, 16), (.tp, 24), (.t0, 32), (.t1, 40), (.t2, 48), (.s0, 56),
   (.s1, 64), (.a0, 72), (.a1, 80), (.a2, 88), (.a3, 96), (.a4, 104), (.a5, 112), (.a6, 120),
   (.a7, 128), (.s2, 136), (.s3, 144), (.s4, 152), (.s5, 160), (.s6, 168), (.s7, 176),
   (.s8, 184), (.s9, 192), (.s10, 200), (.s11, 208), (.t3, 216), (.t4, 224), (.t5, 232),
   (.t6, 240)]

/-- The `ld` instructions of `kernelvec`; `tp` is not restored, "in case we moved CPUs". -/
def kernelvec_loads : List (Reg × ℕ) :=
  [(.ra, 0), (.sp, 8), (.gp, 16), (.t0, 32), (.t1, 40), (.t2, 48), (.s0, 56),
   (.s1, 64), (.a0, 72), (.a1, 80), (.a2, 88), (.a3, 96), (.a4, 104), (.a5, 112), (.a6, 120),
   (.a7, 128), (.s2, 136), (.s3, 144), (.s4, 152), (.s5, 160), (.s6, 168), (.s7, 176),
   (.s8, 184), (.s9, 192), (.s10, 200), (.s11, 208), (.t3, 216), (.t4, 224), (.t5, 232),
   (.t6, 240)]

/-- `kernelvec`, entered by a trap of a program with the registers of `s`. -/
def kernelvec (s : Snapshot) : KProg Unit := do
  one (.addi_sp (-256))
  Prog.each (fun x => one (.sd x.1 x.2)) kernelvec_saves
  let saved ← one .call_c
  kernel_trap_handler
  one (.ret_c saved)
  Prog.each (fun x => one (.ld x.1 x.2)) kernelvec_loads
  one (.addi_sp 256)
  one (.sret s)

/-! ## kvec.s, timer_vec -/

instance scratchWords : NeZero 5 := ⟨by decide⟩

/-- The machine-mode timer of a hart: `mscratch`, the five words of `timer_scratch[hart]` it
points to, and the hart's MTIMECMP. -/
structure Timer where
  mscratch : U64
  scratch : Fin 5 → U64
  mtimecmp : U64

/-- `timer_vec`, instruction by instruction; `.2.2` is the value it writes to `sip`. -/
def timer_vec (t : Timer) (r : Regs) : Timer × Regs × U64 :=
  -- csrrw a0, mscratch, a0
  let mscratch := r .a0
  let r := Function.update r .a0 t.mscratch
  -- sd a1, 0(a0); sd a2, 8(a0); sd a3, 16(a0)
  let scratch := Function.update t.scratch 0 (r .a1)
  let scratch := Function.update scratch 1 (r .a2)
  let scratch := Function.update scratch 2 (r .a3)
  -- ld a1, 24(a0); ld a2, 32(a0); ld a3, 0(a1)
  let r := Function.update r .a1 (scratch 3)
  let r := Function.update r .a2 (scratch 4)
  let r := Function.update r .a3 t.mtimecmp
  -- add a3, a3, a2; sd a3, 0(a1)
  let r := Function.update r .a3 (r .a3 + r .a2)
  let mtimecmp := r .a3
  -- li a1, 2; csrw sip, a1
  let r := Function.update r .a1 2
  let sip := r .a1
  -- ld a3, 16(a0); ld a2, 8(a0); ld a1, 0(a0)
  let r := Function.update r .a3 (scratch 2)
  let r := Function.update r .a2 (scratch 1)
  let r := Function.update r .a1 (scratch 0)
  -- csrrw a0, mscratch, a0
  let a0 := r .a0
  let r := Function.update r .a0 mscratch
  ({ mscratch := a0, scratch := scratch, mtimecmp := mtimecmp }, r, sip)

/-- The interrupted program finds every register as it was. -/
@[simp] theorem timer_vec_regs (t : Timer) (r : Regs) : (timer_vec t r).2.1 = r := by
  funext x
  cases x <;> simp [timer_vec]

@[simp] theorem timer_vec_sip (t : Timer) (r : Regs) : (timer_vec t r).2.2 = 2 := by
  simp [timer_vec]

end GQuuuuuunix.Kernel
