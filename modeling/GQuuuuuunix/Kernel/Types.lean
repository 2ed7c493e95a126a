import Mathlib.Data.BitVec
import Mathlib.Logic.Function.Basic
import Mathlib.Data.List.FinRange
import GQuuuuuunix.Lib.Prog

/-! # The data of `03.Scheduler`

Registers, the globals of the kernel as typed memory locations, and the operations its code
performs: one operation is one access to memory or to a control register, or one instruction of
the two assembly files.

Pointers are names. `TaskPtr` is a `struct task_struct *` (an entry of `gTasks`, or one of the
static structs of main.c), and also names the lock inside that struct; `ℕ` is a `struct cpu *`,
an index of `gCpus`. -/

namespace GQuuuuuunix.Kernel
open Lib
set_option autoImplicit false

abbrev U64 := BitVec 64
abbrev U32 := BitVec 32

/-- C `int`; the compiler makes its arithmetic wrap. -/
abbrev I32 := BitVec 32

/-- `i64`. -/
abbrev I64 := BitVec 64

/-! ## param.h -/

abbrev STACK_SIZE : ℕ := 4096
abbrev MAX_CPU_NUMS : ℕ := 4
abbrev TASK_MAX_NRS : ℕ := 64

instance taskSlots : NeZero TASK_MAX_NRS := ⟨by decide⟩

/-! ## Registers -/

inductive Reg where
  | ra | sp | gp | tp | t0 | t1 | t2 | s0 | s1 | a0 | a1 | a2 | a3 | a4 | a5 | a6 | a7
  | s2 | s3 | s4 | s5 | s6 | s7 | s8 | s9 | s10 | s11 | t3 | t4 | t5 | t6
  deriving DecidableEq, Repr

abbrev Regs := Reg → U64

def Reg.all : List Reg :=
  [.ra, .sp, .gp, .tp, .t0, .t1, .t2, .s0, .s1, .a0, .a1, .a2, .a3, .a4, .a5, .a6, .a7,
   .s2, .s3, .s4, .s5, .s6, .s7, .s8, .s9, .s10, .s11, .t3, .t4, .t5, .t6]

theorem Reg.mem_all (r : Reg) : r ∈ Reg.all := by cases r <;> decide

/-- The registers a function of the ABI hands back as it found them. -/
def Reg.calleeSaved : Reg → Bool
  | .sp | .s0 | .s1 | .s2 | .s3 | .s4 | .s5 | .s6 | .s7 | .s8 | .s9 | .s10 | .s11 => true
  | _ => false

/-! ## task.h, spin_lock.h -/

inductive TaskState where
  | UNUSED | USED | SLEEPING | RUNNABLE | RUNNING | ZOMBIE
  deriving DecidableEq, Repr

/-- `&gTasks[i]`, or the address of a task struct outside the table. -/
inductive TaskPtr where
  | gTasks (i : Fin TASK_MAX_NRS)
  | static (k : ℕ)
  deriving DecidableEq, Repr

/-- A word of `struct context`: 0 is `ra`, 1 is `sp`, `2 + j` is `s[j]`; word `i` is at byte
`8 * i`. -/
abbrev CtxWord := Fin 14

instance ctxWords : NeZero 14 := ⟨by decide⟩

/-- `&task->context`, or `&gCpus[c].context`. -/
inductive CtxPtr where
  | task (t : TaskPtr)
  | cpu (c : ℕ)
  deriving DecidableEq, Repr

/-- The function pointers of `struct spin_lock`. -/
inductive LockFn where
  | null | acquire_lk | release_lk | is_holding_lk
  deriving DecidableEq, Repr

/-- The `atomic_int_t` objects: the `isLocked` word of a task's lock, and `start` of main.c. -/
inductive Cell where
  | isLocked (lk : TaskPtr)
  | start
  deriving DecidableEq, Repr

/-! ## atomic.h, types.h -/

inductive AtomicTy where
  | atomic_int_t | atomic_long_t | atomic_ulong_t
  deriving DecidableEq, Repr

@[reducible] def AtomicTy.bits : AtomicTy → ℕ
  | .atomic_int_t => 32
  | .atomic_long_t | .atomic_ulong_t => 64

/-- The type of `val`. -/
abbrev AtomicTy.Val (ty : AtomicTy) : Type := BitVec ty.bits

/-- The suffix of an instruction: a word, or a double word. -/
inductive Width where
  | w | d
  deriving DecidableEq, Repr

/-- `amoswap`, `amoadd`, `amoand`, `amoor` and `amoxor`. -/
inductive Amo where
  | swap | add | and | or | xor
  deriving DecidableEq, Repr

/-- An instruction of atomic.h on the atomic object `a` of a task, with what is in the source
register. -/
inductive AtomicInsn where
  | lr (sz : Width) (a : ℕ)
  | sc (sz : Width) (a : ℕ) (x : U64)
  | amo (f : Amo) (sz : Width) (a : ℕ) (x : U64)
  deriving DecidableEq, Repr

/-- A call of a macro of atomic.h on the atomic object `a` of a task. -/
inductive AtomicCall where
  | test_set (ty : AtomicTy) (a : ℕ)
  | cmp_xchg (ty : AtomicTy) (a : ℕ) (expected desired : ty.Val)
  | load (ty : AtomicTy) (a : ℕ)
  | store (ty : AtomicTy) (a : ℕ) (val : ty.Val)
  | fetch_add (ty : AtomicTy) (a : ℕ) (val : ty.Val)
  | fetch_sub (ty : AtomicTy) (a : ℕ) (val : ty.Val)
  | fetch_and (ty : AtomicTy) (a : ℕ) (val : ty.Val)
  | fetch_or (ty : AtomicTy) (a : ℕ) (val : ty.Val)
  | fetch_xor (ty : AtomicTy) (a : ℕ) (val : ty.Val)
  deriving DecidableEq, Repr

/-! ## Memory -/

inductive Loc where
  | off_nrs (c : ℕ)
  | intr_ena_before (c : ℕ)
  | cpu_task (c : ℕ)
  | cpu_context (c : ℕ) (i : CtxWord)
  | pid (t : TaskPtr)
  | context (t : TaskPtr) (i : CtxWord)
  | state (t : TaskPtr)
  | cell (c : Cell)
  | lk_cpu (lk : TaskPtr)
  | lk_acquire (lk : TaskPtr)
  | lk_release (lk : TaskPtr)
  | lk_is_holding (lk : TaskPtr)
  | taskNrs
  | gticks
  | time_data
  | time_mantissa_bit
  | stack (a : U64)
  deriving DecidableEq

@[reducible] def Loc.Ty : Loc → Type
  | .off_nrs _ | .intr_ena_before _ | .pid _ | .cell _ => I32
  | .taskNrs => I64
  | .cpu_task _ => Option TaskPtr
  | .state _ => TaskState
  | .lk_cpu _ => Option ℕ
  | .lk_acquire _ | .lk_release _ | .lk_is_holding _ => LockFn
  | .time_mantissa_bit => BitVec 8
  | .cpu_context _ _ | .context _ _ | .gticks | .time_data | .stack _ => U64

abbrev Mem := (l : Loc) → l.Ty

/-- Zeroed .bss. -/
def Mem.zero : Mem
  | .off_nrs _ | .intr_ena_before _ | .pid _ | .cell _ => (0 : I32)
  | .taskNrs => (0 : I64)
  | .cpu_task _ => (none : Option TaskPtr)
  | .state _ => TaskState.UNUSED
  | .lk_cpu _ => (none : Option ℕ)
  | .lk_acquire _ | .lk_release _ | .lk_is_holding _ => LockFn.null
  | .time_mantissa_bit => (0 : BitVec 8)
  | .cpu_context _ _ | .context _ _ | .gticks | .time_data | .stack _ => (0 : U64)

/-- The memory after `*l = v`. -/
def Mem.set (m : Mem) : (l : Loc) → l.Ty → Mem
  | .off_nrs c, v => fun | .off_nrs c' => if c' = c then v else m (.off_nrs c') | l => m l
  | .intr_ena_before c, v =>
    fun | .intr_ena_before c' => if c' = c then v else m (.intr_ena_before c') | l => m l
  | .cpu_task c, v => fun | .cpu_task c' => if c' = c then v else m (.cpu_task c') | l => m l
  | .cpu_context c i, v => fun
    | .cpu_context c' i' => if c' = c ∧ i' = i then v else m (.cpu_context c' i')
    | l => m l
  | .pid t, v => fun | .pid t' => if t' = t then v else m (.pid t') | l => m l
  | .context t i, v =>
    fun | .context t' i' => if t' = t ∧ i' = i then v else m (.context t' i') | l => m l
  | .state t, v => fun | .state t' => if t' = t then v else m (.state t') | l => m l
  | .cell c, v => fun | .cell c' => if c' = c then v else m (.cell c') | l => m l
  | .lk_cpu t, v => fun | .lk_cpu t' => if t' = t then v else m (.lk_cpu t') | l => m l
  | .lk_acquire t, v =>
    fun | .lk_acquire t' => if t' = t then v else m (.lk_acquire t') | l => m l
  | .lk_release t, v =>
    fun | .lk_release t' => if t' = t then v else m (.lk_release t') | l => m l
  | .lk_is_holding t, v =>
    fun | .lk_is_holding t' => if t' = t then v else m (.lk_is_holding t') | l => m l
  | .taskNrs, v => fun | .taskNrs => v | l => m l
  | .gticks, v => fun | .gticks => v | l => m l
  | .time_data, v => fun | .time_data => v | l => m l
  | .time_mantissa_bit, v => fun | .time_mantissa_bit => v | l => m l
  | .stack a, v => fun | .stack a' => if a' = a then v else m (.stack a') | l => m l

@[simp] theorem Mem.set_self (m : Mem) (l : Loc) (v : l.Ty) : m.set l v l = v := by
  cases l <;> simp [Mem.set]

theorem Mem.set_ne (m : Mem) {l l' : Loc} (v : l.Ty) (h : l' ≠ l) : m.set l v l' = m l' := by
  cases l <;> cases l' <;> simp_all [Mem.set]

/-- `p->ra`, `p->sp`, `p->s[j]`. -/
def Mem.ctx (m : Mem) : CtxPtr → CtxWord → U64
  | .task t, i => m (.context t i)
  | .cpu c, i => m (.cpu_context c i)

def Mem.setCtx (m : Mem) : CtxPtr → CtxWord → U64 → Mem
  | .task t, i, v => m.set (.context t i) v
  | .cpu c, i, v => m.set (.cpu_context c i) v

theorem Mem.ctx_setCtx_self (m : Mem) (p : CtxPtr) (i : CtxWord) (v : U64) :
    (m.setCtx p i v).ctx p i = v := by
  cases p with
  | task t => exact Mem.set_self m (.context t i) v
  | cpu c => exact Mem.set_self m (.cpu_context c i) v

theorem Mem.ctx_setCtx_ne (m : Mem) {p q : CtxPtr} {i j : CtxWord} (v : U64)
    (h : ¬ (q = p ∧ j = i)) : (m.setCtx p i v).ctx q j = m.ctx q j := by
  cases p <;> cases q <;> simp only [Mem.setCtx, Mem.ctx] <;> rw [Mem.set_ne] <;> simp_all

/-! ## Program points -/

inductive PanicSite where
  | acquire_is_holding | release_not_holding
  | pop_off_interruptible | pop_off_nrs
  | sched_lock_not_holding | sched_task_running | sched_interruptible
  | trap_not_supervisor | trap_intr_on
  deriving DecidableEq, Repr

/-- The calls whose extent the properties speak of. `kernelvec h` is the trap taken on hart `h`. -/
inductive Fn where
  | acquire (lk : TaskPtr) | release (lk : TaskPtr) | is_holding (lk : TaskPtr)
  | test_set (c : Cell) | atomic_store (c : Cell) | atomic_load (c : Cell)
  | scheduler | yield | kernelvec (h : ℕ)
  | atomic (c : AtomicCall)
  deriving DecidableEq, Repr

/-- Program points inside a function: the software-interrupt case of the trap handler, the start
and the end of a pass of `scheduler` over the table, the return of `switch_to` in `scheduler` with
its loop variable, and the end of an operation on an atomic object with `a0`. -/
inductive Point where
  | software_interrupt | pass_begin | pass_end | switched_back (t : Fin TASK_MAX_NRS)
  | returned (a0 : U64)
  deriving DecidableEq, Repr

/-- The loops of the source, each with the values it carries from one round to the next. -/
inductive Loop where
  | test_set (lk : TaskPtr)
  | store (c : Cell) (v : I32)
  | barrier
  | scheduler (cur_cpu : ℕ)
  | scan (cur_cpu : ℕ) (t : ℕ)
  | dummy_task
  | atomic_store (sz : Width) (a : ℕ) (val : U64)
  | cmp_xchg (sz : Width) (a : ℕ) (expected desired : U64)
  deriving DecidableEq, Repr

/-- What a loop leaves in the register that is read after it. -/
@[reducible] def Loop.Ret : Loop → Type
  | .cmp_xchg _ _ _ _ => U64
  | _ => Unit

/-- What is printed. -/
inductive Msg where
  | booting | booted | sched (pid : I32) | task_running | run | run_run
  | tick (sec : U64) (fraction : U32)
  deriving DecidableEq, Repr

/-- The call of `switch_to` in `sched`, or the one in `scheduler`. -/
inductive SwitchSite where
  | sched | scheduler
  deriving DecidableEq, Repr

inductive Mode where
  | user | supervisor
  deriving DecidableEq, Repr

/-- What the interrupted program must find again after `sret`. -/
structure Snapshot where
  regs : Regs
  pc : U64
  mode : Mode
  sie : Bool

/-! ## Operations -/

inductive Op where
  -- memory
  | load (l : Loc)
  | store (l : Loc) (v : l.Ty)
  | amoswap (c : Cell) (v : I32)
  | lr (c : Cell)
  | sc (c : Cell) (v : I32)
  | atomic (i : AtomicInsn)
  | fence
  -- registers of the hart
  | r_tp
  | r_sstatus
  | w_sstatus (x : U64)
  | r_sepc
  | w_sepc (x : U64)
  | r_scause
  | r_sip
  | w_sip (x : U64)
  | w_stvec
  -- the console
  | printf (m : Msg)
  -- control
  | loop (l : Loop)
  | enter (f : Fn)
  | leave (f : Fn) (r : I32)
  | point (p : Point)
  | panic (p : PanicSite)
  | crash
  | call_switch_to (s : SwitchSite) (old new : CtxPtr)
  -- kvec.s
  | addi_sp (i : Int)
  | sd (r : Reg) (off : ℕ)
  | ld (r : Reg) (off : ℕ)
  | call_c
  | ret_c (saved : Regs)
  | sret (s : Snapshot)
  -- switch.s
  | sd_ctx (p : CtxPtr) (r : Reg) (i : CtxWord)
  | ld_ctx (p : CtxPtr) (r : Reg) (i : CtxWord)
  | ret (old new : CtxPtr)

@[reducible] def Op.Ret : Op → Type
  | .load l => l.Ty
  | .amoswap _ _ | .lr _ | .sc _ _ => I32
  | .atomic _ | .r_tp | .r_sstatus | .r_sepc | .r_scause | .r_sip => U64
  | .loop l => l.Ret
  | .call_c => Regs
  | _ => Unit

/-- The instructions of kvec.s and switch.s; everything else is compiled C. -/
def Op.isAsm : Op → Bool
  | .addi_sp _ | .sd _ _ | .ld _ _ | .call_c | .sret _ | .sd_ctx _ _ _ | .ld_ctx _ _ _
  | .ret _ _ => true
  | _ => false

abbrev KProg := Prog Op Op.Ret

/-- What is left to run on a hart; reaching its end is falling off `kernel_main`. -/
abbrev Code := KProg Unit

/-- One operation as a program. -/
def one (o : Op) : KProg o.Ret := Prog.lift o

def load (l : Loc) : KProg l.Ty := one (.load l)
def store (l : Loc) (v : l.Ty) : KProg Unit := one (.store l v)
def amoswap (c : Cell) (v : I32) : KProg I32 := one (.amoswap c v)
def lr (c : Cell) : KProg I32 := one (.lr c)
def sc (c : Cell) (v : I32) : KProg I32 := one (.sc c v)
def atomic (i : AtomicInsn) : KProg U64 := one (.atomic i)
def smp_mb : KProg Unit := one .fence
def r_tp : KProg U64 := one .r_tp
def r_sstatus : KProg U64 := one .r_sstatus
def w_sstatus (x : U64) : KProg Unit := one (.w_sstatus x)
def r_sepc : KProg U64 := one .r_sepc
def w_sepc (x : U64) : KProg Unit := one (.w_sepc x)
def r_scause : KProg U64 := one .r_scause
def r_sip : KProg U64 := one .r_sip
def w_sip (x : U64) : KProg Unit := one (.w_sip x)
def w_stvec_kernelvec : KProg Unit := one .w_stvec
def printf (m : Msg) : KProg Unit := one (.printf m)
def loop (l : Loop) : KProg l.Ret := one (.loop l)
def enter (f : Fn) : KProg Unit := one (.enter f)
def leave (f : Fn) (r : I32) : KProg Unit := one (.leave f r)
def point (p : Point) : KProg Unit := one (.point p)
def PANIC (p : PanicSite) : KProg Unit := one (.panic p)
def crash : KProg Unit := one .crash
def call_switch_to (s : SwitchSite) (old new : CtxPtr) : KProg Unit :=
  one (.call_switch_to s old new)

end GQuuuuuunix.Kernel
