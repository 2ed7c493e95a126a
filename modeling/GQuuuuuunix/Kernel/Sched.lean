import GQuuuuuunix.Kernel.SpinLock

/-! # switch.s, sched.c and the task half of task.c -/

namespace GQuuuuuunix.Kernel
open Lib
set_option autoImplicit false

/-! ## Addresses fixed by the linker -/

/-- A row of `task_stack`, or the row of `kstack` that a hart boots on. -/
inductive StackId where
  | task (i : Fin TASK_MAX_NRS)
  | hart (h : ℕ)
  deriving DecidableEq, Repr

structure Layout where
  task_stack : U64
  kstack : U64
  dummy_task : U64
  /-- The return addresses of the two calls of `switch_to`. -/
  switch_ret : SwitchSite → U64
  switch_ret_ne : ∀ s, switch_ret s ≠ dummy_task

/-- The index of the 4096-byte row that ends at or above `sp` (a stack pointer is just above what
it has pushed), if `sp` is in one of the `rows` rows from `base` on. -/
def rowOf (base sp : U64) (rows : ℕ) : Option ℕ :=
  let row := (sp - 1 - base).toNat / STACK_SIZE
  if row < rows then some row else none

/-- The stack that a stack pointer is in. -/
def Layout.stackOf (L : Layout) (sp : U64) : Option StackId :=
  match rowOf L.task_stack sp TASK_MAX_NRS with
  | some i => some (.task (Fin.ofNat TASK_MAX_NRS i))
  | none => (rowOf L.kstack sp MAX_CPU_NUMS).map .hart

/-- `task_stack[i] + STACK_SIZE`. -/
def Layout.stackTop (L : Layout) (i : Fin TASK_MAX_NRS) : U64 :=
  L.task_stack + BitVec.ofNat 64 (STACK_SIZE * i) + BitVec.ofNat 64 STACK_SIZE

/-! ## switch.s -/

/-- The registers of `struct context` with the word each is kept in, in the order of the
instructions of `switch_to`. -/
def switch_to_slots : List (Reg × CtxWord) :=
  [(.ra, 0), (.sp, 1), (.s0, 2), (.s1, 3), (.s2, 4), (.s3, 5), (.s4, 6), (.s5, 7), (.s6, 8),
   (.s7, 9), (.s8, 10), (.s9, 11), (.s10, 12), (.s11, 13)]

def switch_to (old new : CtxPtr) : KProg Unit := do
  Prog.each (fun s => one (.sd_ctx old s.1 s.2)) switch_to_slots
  Prog.each (fun s => one (.ld_ctx new s.1 s.2)) switch_to_slots
  one (.ret old new)

/-! ## sched.c -/

/-- `task->lk.is_holding(&task->lk)` and the other checks, then the switch to the scheduler. -/
def sched : KProg Unit := do
  deref (← get_cur_task) fun task => do
    if (← call_is_holding task) = 0 then
      PANIC .sched_lock_not_holding
    if (← load (.state task)) = .RUNNING then
      PANIC .sched_task_running
    if (← intr_get) ≠ 0 then
      PANIC .sched_interruptible
    let c ← get_cur_cpu
    let intr_ena_before ← load (.intr_ena_before c)
    let c ← get_cur_cpu
    call_switch_to .sched (.task task) (.cpu c)
    let c ← get_cur_cpu
    store (.intr_ena_before c) intr_ena_before

def yield : KProg Unit := do
  enter .yield
  deref (← get_cur_task) fun task => do
    call_acquire task
    store (.state task) .RUNNABLE
    sched
    call_release task
    leave .yield 0

/-- The body of `for (t = gTasks; ...)` at `t = &gTasks[i]`. -/
def scan_body (cur_cpu : ℕ) (i : Fin TASK_MAX_NRS) : KProg Unit := do
  let t := TaskPtr.gTasks i
  call_acquire t
  if (← load (.state t)) = .RUNNABLE then
    store (.state t) .RUNNING
    let pid ← load (.pid t)
    printf (.sched pid)
    store (.cpu_task cur_cpu) (some t)
    call_switch_to .scheduler (.cpu cur_cpu) (.task t)
    point (.switched_back i)
    store (.cpu_task cur_cpu) none
  call_release t

/-- `scheduler`, from the return of `switch_to` for slot `i` to the end of the round. -/
def afterSwitch (c : ℕ) (i : Fin TASK_MAX_NRS) : KProg Unit := do
  point (.switched_back i)
  store (.cpu_task c) none
  call_release (.gTasks i)

/-- One round of `for (t = gTasks; t < &gTasks[TASK_MAX_NRS]; t++)`. -/
def scan_round (cur_cpu t : ℕ) : KProg Unit :=
  if h : t < TASK_MAX_NRS then do
    scan_body cur_cpu ⟨t, h⟩
    loop (.scan cur_cpu (t + 1))
  else pure ()

/-- One round of `for (;;)` in `scheduler`. -/
def scheduler_round (cur_cpu : ℕ) : KProg Unit := do
  intr_on
  point .pass_begin
  loop (.scan cur_cpu 0)
  point .pass_end
  loop (.scheduler cur_cpu)

def scheduler : KProg Unit := do
  enter .scheduler
  let cur_cpu ← get_cur_cpu
  store (.cpu_task cur_cpu) none
  loop (.scheduler cur_cpu)

/-! ## task.c -/

/-- One round of `while (true)` in `dummy_task`; the delay loop touches no shared memory. -/
def dummy_task_round : KProg Unit := do
  intr_on
  printf .run
  printf .run_run
  loop .dummy_task

def dummy_task : KProg Unit := do
  printf .task_running
  deref (← get_cur_task) fun t => do
    call_release t
    loop .dummy_task

/-- The index `nrs % TASK_MAX_NRS`. -/
def taskSlot (nrs : I64) : Fin TASK_MAX_NRS := Fin.ofNat TASK_MAX_NRS (nrs.srem 64).toNat

def init_task (L : Layout) (task : TaskPtr) (pid : I32) : KProg Unit := do
  store (.state task) .RUNNABLE
  store (.pid task) pid
  store (.context task 0) L.dummy_task
  let nrs ← load .taskNrs
  store (.context task 1) (L.stackTop (taskSlot nrs))
  init_spin_lock task

/-- `*dst = *src` for one aligned word. -/
def copy_word (dst src : Loc) (h : src.Ty = dst.Ty) : KProg Unit := do
  let v ← load src
  store dst (h ▸ v)

/-- `memcpy` of a `struct task_struct`: both structs are 8-aligned, so `memcpy_n` copies the 21
eight-byte words in order, each holding one field. -/
def memcpy_task (dst src : TaskPtr) : KProg Unit := do
  copy_word (.pid dst) (.pid src) rfl
  Prog.each (fun i => copy_word (.context dst i) (.context src i) rfl) (List.finRange 14)
  copy_word (.state dst) (.state src) rfl
  copy_word (.cell (.isLocked dst)) (.cell (.isLocked src)) rfl
  copy_word (.lk_cpu dst) (.lk_cpu src) rfl
  copy_word (.lk_acquire dst) (.lk_acquire src) rfl
  copy_word (.lk_release dst) (.lk_release src) rfl
  copy_word (.lk_is_holding dst) (.lk_is_holding src) rfl

def addTask (task : TaskPtr) : KProg Unit := do
  let nrs ← load .taskNrs
  store .taskNrs (nrs + 1)
  memcpy_task (.gTasks (taskSlot nrs)) task

end GQuuuuuunix.Kernel
