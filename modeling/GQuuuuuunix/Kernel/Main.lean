import GQuuuuuunix.Kernel.Trap
import GQuuuuuunix.Kernel.Atomic

/-! # main.c, and the rounds of every loop -/

namespace GQuuuuuunix.Kernel
open Lib
set_option autoImplicit false

/-- One round of `while (ATOMIC_LOAD(&start) == 0);`. -/
def barrier_round : KProg Unit := do
  if (← atomic_load_i32 .start) = 0 then
    loop .barrier

/-- `init_task(&task, pid); addTask(&task);` for the `k`-th static task struct. -/
def add_static (L : Layout) (t : ℕ × I32) : KProg Unit := do
  init_task L (.static t.1) t.2
  addTask (.static t.1)

/-- `kernel_main`, for the tasks with the given pids; main.c has `[0, 1, 2, 3, 4]`. -/
def kernel_main (L : Layout) (pids : List I32) : KProg Unit := do
  let cpu_id ← r_tp
  store (.cell .start) 0
  w_stvec_kernelvec
  if cpu_id = 0 then
    printf .booting
    store .time_data 0
    store .time_mantissa_bit 32
    Prog.each (fun i => init_spin_lock (.gTasks i)) (List.finRange TASK_MAX_NRS)
    Prog.each (add_static L) ((List.range pids.length).zip pids)
    printf .booted
    let _val ← atomic_store_i32 .start 1
  else
    loop .barrier
  scheduler

def Loop.round : (l : Loop) → KProg l.Ret
  | .test_set lk => test_set_round lk
  | .store c v => store_round c v
  | .barrier => barrier_round
  | .scheduler c => scheduler_round c
  | .scan c t => scan_round c t
  | .dummy_task => dummy_task_round
  | .atomic_store sz a val => Atomic.store_round sz a val
  | .cmp_xchg sz a expected desired => Atomic.cmp_xchg_round sz a expected desired

end GQuuuuuunix.Kernel
