import GQuuuuuunix.Kernel.History

/-! # Code with its interrupt-disable sections marked

A program in which the calls of `push_off` and `pop_off` stand as such, between operations that
leave `sstatus` and the two words of `struct cpu` alone. The functions of spin_lock.c and of
atomic.h are programs of this kind. Such a program may be what one hart runs, while the other
harts make of the rest of the machine what they like. -/

namespace GQuuuuuunix.Kernel
open Lib
set_option autoImplicit false

inductive SecOp where
  | push_off | pop_off
  | op (o : Op)

@[reducible] def SecOp.Ret : SecOp → Type
  | .op o => o.Ret
  | _ => Unit

abbrev SecProg := Prog SecOp SecOp.Ret

def SecOp.code : (s : SecOp) → KProg s.Ret
  | .push_off => Kernel.push_off
  | .pop_off => Kernel.pop_off
  | .op o => one o

/-- The program as the hart runs it. -/
def SecProg.code {α : Type} : SecProg α → KProg α
  | .pure a => .pure a
  | .op s k => s.code.bind fun r => SecProg.code (k r)

namespace Sec

def push_off : SecProg Unit := Prog.lift SecOp.push_off
def pop_off : SecProg Unit := Prog.lift SecOp.pop_off
def op (o : Op) : SecProg o.Ret := Prog.lift (SecOp.op o)

/-- A program with no section in it. -/
def plain {α : Type} : KProg α → SecProg α
  | .pure a => .pure a
  | .op o k => .op (.op o) fun r => plain (k r)

/-! ## spin_lock.c -/

def test_set_i32 (a_int : Cell) : SecProg I32 := do
  op (.enter (.test_set a_int))
  push_off
  let old ← op (.amoswap a_int 1)
  pop_off
  op (.leave (.test_set a_int) old)
  pure old

def test_set_round (lk : TaskPtr) : SecProg Unit := do
  if (← test_set_i32 (.isLocked lk)) ≠ 0 then
    op (.loop (.test_set lk))

def atomic_store_i32 (a_int : Cell) (val : I32) : SecProg I32 := do
  op (.enter (.atomic_store a_int))
  push_off
  op (.loop (.store a_int val))
  pop_off
  op (.leave (.atomic_store a_int) val)
  pure val

def acquire_lk (lk : TaskPtr) : SecProg Unit := do
  op (.enter (.acquire lk))
  push_off
  if (← plain (call_is_holding lk)) ≠ 0 then
    op (.panic .acquire_is_holding)
  op (.loop (.test_set lk))
  op .fence
  let c ← plain get_cur_cpu
  op (.store (.lk_cpu lk) (some c))
  op (.leave (.acquire lk) 0)

def release_lk (lk : TaskPtr) : SecProg Unit := do
  op (.enter (.release lk))
  if (← plain (call_is_holding lk)) = 0 then
    op (.panic .release_not_holding)
  op (.store (.lk_cpu lk) none)
  op .fence
  let _val ← atomic_store_i32 (.isLocked lk) 0
  pop_off
  op (.leave (.release lk) 0)

def call_acquire (lk : TaskPtr) : SecProg Unit := do
  match ← op (.load (.lk_acquire lk)) with
  | .acquire_lk => acquire_lk lk
  | _ => op .crash

def call_release (lk : TaskPtr) : SecProg Unit := do
  match ← op (.load (.lk_release lk)) with
  | .release_lk => release_lk lk
  | _ => op .crash

/-! ## atomic.h -/

def fetch (f : Amo) (sz : Width) (a : ℕ) (val : U64) : SecProg U64 := do
  push_off
  let old ← op (.atomic (.amo f sz a val))
  pop_off
  pure old

def fetchInt (f : Amo) (a : ℕ) (val : I32) : SecProg I32 := do
  let old ← fetch f .w a (Atomic.ofInt val)
  pure (Atomic.toInt old)

/-- The `ATOMIC_FETCH` that performs `f` on an object of the type, or its `TEST_SET`. -/
def fetchOf (f : Amo) : (ty : AtomicTy) → ℕ → ty.Val → SecProg ty.Val
  | .atomic_int_t, a, val => fetchInt f a val
  | .atomic_long_t, a, val => fetch f .d a val
  | .atomic_ulong_t, a, val => fetch f .d a val

def store (sz : Width) (a : ℕ) (val : U64) : SecProg Unit := do
  push_off
  op (.loop (.atomic_store sz a val))
  pop_off

def body : AtomicCall → SecProg U64
  | .test_set ty a => do pure (ty.toReg (← fetchOf .swap ty a 1))
  | .cmp_xchg ty a e d => plain (Atomic.body (.cmp_xchg ty a e d))
  | .load ty a => plain (Atomic.body (.load ty a))
  | .store ty a v => do
    store ty.width a (ty.toReg v)
    pure (ty.toReg v)
  | .fetch_add ty a v => do pure (ty.toReg (← fetchOf .add ty a v))
  | .fetch_sub ty a v => do pure (ty.toReg (← fetchOf .add ty a v))
  | .fetch_and ty a v => do pure (ty.toReg (← fetchOf .and ty a v))
  | .fetch_or ty a v => do pure (ty.toReg (← fetchOf .or ty a v))
  | .fetch_xor ty a v => do pure (ty.toReg (← fetchOf .xor ty a v))

def atomic (c : AtomicCall) : SecProg Unit := do
  op (.enter (.atomic c))
  let a0 ← body c
  op (.point (.returned a0))
  op (.leave (.atomic c) 0)

end Sec

/-! ## Sequences of calls -/

inductive SecCall where
  | push_off | pop_off
  | acquire (lk : TaskPtr) | release (lk : TaskPtr) | is_holding (lk : TaskPtr)
  | atomic (c : AtomicCall)
  deriving DecidableEq, Repr

/-- The call as the kernel makes it. -/
def SecCall.run : SecCall → KProg Unit
  | .push_off => Kernel.push_off
  | .pop_off => Kernel.pop_off
  | .acquire lk => Kernel.call_acquire lk
  | .release lk => Kernel.call_release lk
  | .is_holding lk => do
    let _r ← Kernel.call_is_holding lk
  | .atomic c => Atomic.call c

def SecCall.prog : SecCall → SecProg Unit
  | .push_off => Sec.push_off
  | .pop_off => Sec.pop_off
  | .acquire lk => Sec.call_acquire lk
  | .release lk => Sec.call_release lk
  | .is_holding lk => do
    let _r ← Sec.plain (Kernel.call_is_holding lk)
  | .atomic c => Sec.atomic c

/-! ## Balance -/

/-- The loops that a program may have in it, and the levels their rounds may add. -/
def Loop.sections : (l : Loop) → SecProg l.Ret
  | .test_set lk => Sec.test_set_round lk
  | l => Sec.plain l.round

/-- At depth `d` the loop leaves `sstatus` and the two words of `struct cpu` as they are. -/
def Loop.Neutral (d : ℕ) : Loop → Prop
  | .test_set _ => d + 1 < 2 ^ 31
  | .store _ _ | .barrier | .atomic_store _ _ _ | .cmp_xchg _ _ _ _ => True
  | .scheduler _ | .scan _ _ | .dummy_task => False

def Op.Neutral (d : ℕ) : Op → Prop
  | .store (.off_nrs _) _ | .store (.intr_ena_before _) _ | .w_sstatus _
  | .panic .pop_off_interruptible | .panic .pop_off_nrs | .call_switch_to _ _ _ | .ret_c _ => False
  | .loop l => l.Neutral d
  | o => o.isAsm = false

/-- No operation follows on the hart. -/
def Op.stops : Op → Bool
  | .panic _ | .crash => true
  | _ => false

/-- What a step of the program asks of the depth, and what it makes of it. -/
def depthRules : Rules SecOp SecOp.Ret ℕ
  | .push_off, Q, d => d + 1 < 2 ^ 31 ∧ Q () (d + 1)
  | .pop_off, Q, d => 0 < d ∧ Q () (d - 1)
  | .op o, Q, d => o.Neutral d ∧ (o.stops = false → ∀ r, Q r d)

/-- Every `pop_off` has its `push_off` before it, the depth stays below 2^31, and the end is at
depth 0. -/
def SecProg.Balanced (p : SecProg Unit) : Prop := wp depthRules p (fun _ d => d = 0) 0

/-- The levels that a call comes to above the depth it begins at. -/
def SecCall.levels : SecCall → ℕ
  | .pop_off | .is_holding _ => 0
  | .push_off | .release _ | .atomic _ => 1
  | .acquire _ => 2

/-- The depth after the call. -/
def SecCall.after (d : ℕ) : SecCall → ℕ
  | .push_off | .acquire _ => d + 1
  | .pop_off | .release _ => d - 1
  | .is_holding _ | .atomic _ => d

def SecCall.closes : SecCall → Bool
  | .pop_off | .release _ => true
  | _ => false

/-- From the depth `d` the calls come to depth 0 and never below it. -/
def nestedFrom : ℕ → List SecCall → Prop
  | d, [] => d = 0
  | d, c :: cs => d + c.levels < 2 ^ 31 ∧ (c.closes = true → 0 < d) ∧ nestedFrom (c.after d) cs

/-- `q` is what is left of the program after a part of it that leaves the depth `d`. -/
inductive SecProg.Reaches {α : Type} (p : SecProg α) : SecProg α → ℕ → Prop where
  | start : Reaches p p 0
  | push_off {k : Unit → SecProg α} {d : ℕ} : Reaches p (.op .push_off k) d →
      Reaches p (k ()) (d + 1)
  | pop_off {k : Unit → SecProg α} {d : ℕ} : Reaches p (.op .pop_off k) (d + 1) →
      Reaches p (k ()) d
  | op {o : Op} {k : o.Ret → SecProg α} {d : ℕ} (r : o.Ret) : Reaches p (.op (.op o) k) d →
      (∀ l, o ≠ .loop l) → Reaches p (k r) d
  | loop {l : Loop} {k : l.Ret → SecProg α} {d : ℕ} : Reaches p (.op (.op (.loop l)) k) d →
      Reaches p (l.sections.bind k) d

/-! ## A hart that runs such a program -/

inductive SecEvent where
  /-- The hart takes its pending interrupt if it can, else performs its next operation. -/
  | step (fail : Bool)
  | compute (regs : Regs) (pc : U64)
  | timer
  /-- The other harts make of the machine what `τ` has. -/
  | others (τ : State)

/-- All as in `τ`, but hart `h` and the two words of its `struct cpu`, which the other harts have
no way to: `get_cur_cpu` leads them to their own. -/
def State.others (σ : State) (h : ℕ) (τ : State) : State :=
  { τ with
    harts := Function.update τ.harts h (σ.harts h)
    mem := (τ.mem.set (.off_nrs h) (σ.mem (.off_nrs h))).set (.intr_ena_before h)
      (σ.mem (.intr_ena_before h)) }

/-- Hart `h` in front of the program, with `x` in `sstatus`. -/
structure State.Sections (h : ℕ) (p : SecProg Unit) (x : U64) (σ : State) : Prop where
  code : (σ.harts h).code = p.code
  tp : (σ.harts h).regs .tp = BitVec.ofNat 64 h
  sstatus : (σ.harts h).sstatus = x
  off_nrs : σ.mem (.off_nrs h) = (0 : I32)

def sections (L : Layout) (h : ℕ) (p : SecProg Unit) (x : U64) : System State SecEvent where
  init := State.Sections h p x
  step σ
    | .step fail => State.step L (h + 1) σ (.hart h fail)
    | .compute r pc => State.step L (h + 1) σ (.compute h r pc)
    | .timer => State.step L (h + 1) σ (.timer h)
    | .others τ => some (σ.others h τ)

/-- `sstatus` of hart `h`, and the two words of its `struct cpu`. -/
structure CpuView where
  sstatus : U64
  off_nrs : I32
  intr_ena_before : I32

def State.cpu (σ : State) (h : ℕ) : CpuView :=
  ⟨(σ.harts h).sstatus, σ.mem (.off_nrs h), σ.mem (.intr_ena_before h)⟩

/-! ## What happened -/

/-- The hart wrote `sstatus`, and disabled interrupts with it or did not. -/
def sstatusTurn (h : ℕ) : State × SecEvent → Option Bool
  | (σ, .step _) =>
    match σ.next h with
    | some (.w_sstatus y) => some (!sie y)
    | _ => none
  | _ => none

/-- Interrupts were disabled, and have not been enabled since. -/
def disabled (h : ℕ) (tr : History State SecEvent) : Bool :=
  (tr.findSome? (sstatusTurn h)).getD false

/-- A trap, if the hart takes one, is taken after interrupts were disabled and before they are
enabled again. -/
def TrapInside (h : ℕ) (tr : History State SecEvent) (σ : State) : SecEvent → Prop
  | .step _ => (σ.harts h).interrupted = true → disabled h tr = true
  | _ => True

end GQuuuuuunix.Kernel
