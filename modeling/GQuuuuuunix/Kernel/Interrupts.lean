import GQuuuuuunix.Kernel.Types

/-! # Interrupt control of a hart: riscv.h, and the per-hart half of task.c -/

namespace GQuuuuuunix.Kernel
open Lib
set_option autoImplicit false

/-! ## riscv.h -/

def SSTATUS_SPP : U64 := 1#64 <<< 8
def SSTATUS_SPIE : U64 := 1#64 <<< 5
def SSTATUS_SIE : U64 := 1#64 <<< 1

/-- The three bits of `sstatus` the kernel uses. -/
def sie (x : U64) : Bool := x.getLsbD 1
def spie (x : U64) : Bool := x.getLsbD 5
def spp (x : U64) : Bool := x.getLsbD 8

def intr_on : KProg Unit := do
  let x ← r_sstatus
  w_sstatus (x ||| SSTATUS_SIE)

def intr_off : KProg Unit := do
  let x ← r_sstatus
  w_sstatus (x &&& ~~~SSTATUS_SIE)

def intr_get : KProg I32 := do
  let x ← r_sstatus
  pure (if x &&& SSTATUS_SIE ≠ 0 then 1 else 0)

/-! ## task.c -/

def get_cpuid : KProg I32 := do
  let x ← r_tp
  pure (x.setWidth 32)

/-- `&gCpus[get_cpuid()]`. -/
def get_cur_cpu : KProg ℕ := do
  let id ← get_cpuid
  pure id.toInt.toNat

def get_cur_task : KProg (Option TaskPtr) := do
  let cur_cpu ← get_cur_cpu
  load (.cpu_task cur_cpu)

/-- What follows an access through a task pointer; NULL is not mapped. -/
def deref {α : Type} (t : Option TaskPtr) (k : TaskPtr → KProg α) : KProg α :=
  match t with
  | some p => k p
  | none => do
    crash
    k (.static 0)

def push_off : KProg Unit := do
  let old ← intr_get
  intr_off
  let c ← get_cur_cpu
  let nrs ← load (.off_nrs c)
  if nrs = 0 then
    let c ← get_cur_cpu
    store (.intr_ena_before c) old
  let c ← get_cur_cpu
  let nrs ← load (.off_nrs c)
  store (.off_nrs c) (nrs + 1)

def pop_off : KProg Unit := do
  let c ← get_cur_cpu
  if (← intr_get) ≠ 0 then
    PANIC .pop_off_interruptible
  if (← load (.off_nrs c)).slt 1 then
    PANIC .pop_off_nrs
  let nrs ← load (.off_nrs c)
  store (.off_nrs c) (nrs - 1)
  if (← load (.off_nrs c)) = 0 then
    if (← load (.intr_ena_before c)) ≠ 0 then
      intr_on

/-! ## The bits the CSR accesses read and change -/

theorem SSTATUS_SIE_eq : SSTATUS_SIE = BitVec.twoPow 64 1 := by decide

theorem SSTATUS_SPP_eq : SSTATUS_SPP = BitVec.twoPow 64 8 := by decide

theorem and_SIE_ne_zero (x : U64) : x &&& SSTATUS_SIE ≠ 0 ↔ sie x = true := by
  rw [SSTATUS_SIE_eq, BitVec.and_twoPow, sie]
  cases x.getLsbD 1 <;> decide

theorem and_SPP_eq_zero (x : U64) : x &&& SSTATUS_SPP = 0 ↔ spp x = false := by
  rw [SSTATUS_SPP_eq, BitVec.and_twoPow, spp]
  cases x.getLsbD 8 <;> decide

@[simp] theorem sie_or_SIE (x : U64) : sie (x ||| SSTATUS_SIE) = true := by
  simp [sie, SSTATUS_SIE]

@[simp] theorem sie_and_not_SIE (x : U64) : sie (x &&& ~~~SSTATUS_SIE) = false := by
  simp [sie, SSTATUS_SIE]

/-- The id of a hart survives its way through an `int`. -/
theorem cpuid_of_lt {h : ℕ} (hh : h < 2 ^ 31) :
    ((BitVec.ofNat 64 h).setWidth 32).toInt.toNat = h := by
  have hn : ((BitVec.ofNat 64 h).setWidth 32).toNat = h := by
    rw [BitVec.toNat_setWidth, BitVec.toNat_ofNat]
    omega
  rw [BitVec.toInt_eq_toNat_of_lt (by omega), hn]
  rfl

end GQuuuuuunix.Kernel
