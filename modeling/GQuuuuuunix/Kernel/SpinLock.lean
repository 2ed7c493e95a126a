import GQuuuuuunix.Kernel.Interrupts

/-! # atomic.h and spin_lock.c -/

namespace GQuuuuuunix.Kernel
open Lib
set_option autoImplicit false

/-! ## atomic.h, the `atomic_int_t` operations -/

/-- `TEST_SET` on an `atomic_int_t`. -/
def test_set_i32 (a_int : Cell) : KProg I32 := do
  enter (.test_set a_int)
  push_off
  let old ← amoswap a_int 1
  pop_off
  leave (.test_set a_int) old
  pure old

/-- `ATOMIC_LOAD` on an `atomic_int_t`. -/
def atomic_load_i32 (a_int : Cell) : KProg I32 := do
  enter (.atomic_load a_int)
  let old ← lr a_int
  leave (.atomic_load a_int) old
  pure old

/-- One round of `1: lr.w; sc.w; bnez 1b`. -/
def store_round (a_int : Cell) (val : I32) : KProg Unit := do
  let _tmp ← lr a_int
  let result ← sc a_int val
  if result ≠ 0 then
    loop (.store a_int val)

/-- `ATOMIC_STORE` on an `atomic_int_t`. -/
def atomic_store_i32 (a_int : Cell) (val : I32) : KProg I32 := do
  enter (.atomic_store a_int)
  push_off
  loop (.store a_int val)
  pop_off
  leave (.atomic_store a_int) val
  pure val

/-! ## spin_lock.c -/

def is_holding_lk (lk : TaskPtr) : KProg I32 := do
  enter (.is_holding lk)
  let val ← load (.cell (.isLocked lk))
  let r ← if val ≠ 0 then do
      let c ← get_cur_cpu
      let cpu ← load (.lk_cpu lk)
      pure (if cpu = some c then 1 else 0)
    else pure (0 : I32)
  leave (.is_holding lk) r
  pure r

/-- `lk->is_holding(lk)`. -/
def call_is_holding (lk : TaskPtr) : KProg I32 := do
  match ← load (.lk_is_holding lk) with
  | .is_holding_lk => is_holding_lk lk
  | _ => do
    crash
    pure 0

/-- One round of `while (TEST_SET(&lk->isLocked) != 0);`. -/
def test_set_round (lk : TaskPtr) : KProg Unit := do
  if (← test_set_i32 (.isLocked lk)) ≠ 0 then
    loop (.test_set lk)

def acquire_lk (lk : TaskPtr) : KProg Unit := do
  enter (.acquire lk)
  push_off
  if (← call_is_holding lk) ≠ 0 then
    PANIC .acquire_is_holding
  loop (.test_set lk)
  smp_mb
  let c ← get_cur_cpu
  store (.lk_cpu lk) (some c)
  leave (.acquire lk) 0

def release_lk (lk : TaskPtr) : KProg Unit := do
  enter (.release lk)
  if (← call_is_holding lk) = 0 then
    PANIC .release_not_holding
  store (.lk_cpu lk) none
  smp_mb
  let _val ← atomic_store_i32 (.isLocked lk) 0
  pop_off
  leave (.release lk) 0

/-- `t->lk.acquire(&t->lk)`. -/
def call_acquire (lk : TaskPtr) : KProg Unit := do
  match ← load (.lk_acquire lk) with
  | .acquire_lk => acquire_lk lk
  | _ => crash

/-- `t->lk.release(&t->lk)`. -/
def call_release (lk : TaskPtr) : KProg Unit := do
  match ← load (.lk_release lk) with
  | .release_lk => release_lk lk
  | _ => crash

def init_spin_lock (lk : TaskPtr) : KProg Unit := do
  store (.cell (.isLocked lk)) 0
  store (.lk_cpu lk) none
  store (.lk_acquire lk) .acquire_lk
  store (.lk_release lk) .release_lk
  store (.lk_is_holding lk) .is_holding_lk

/-- The lock is free and its function pointers are set. -/
structure LockReady (mem : Mem) (p : TaskPtr) : Prop where
  isLocked : mem (.cell (.isLocked p)) = (0 : I32)
  lk_cpu : mem (.lk_cpu p) = none
  acquire : mem (.lk_acquire p) = LockFn.acquire_lk
  release : mem (.lk_release p) = LockFn.release_lk
  is_holding : mem (.lk_is_holding p) = LockFn.is_holding_lk

end GQuuuuuunix.Kernel
