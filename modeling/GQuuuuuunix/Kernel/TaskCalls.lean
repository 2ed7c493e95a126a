import GQuuuuuunix.Kernel.Main

/-! # Calls of init_task and addTask

What the two functions make of memory when they are called in some order, by whoever sets up the
tasks. -/

namespace GQuuuuuunix.Kernel
open Lib
set_option autoImplicit false

/-- An operation that is no access to memory. -/
inductive NotAccess where
  | mk

/-- Loads and stores, for a program that has memory to itself. -/
def memExec : (o : Op) → Mem → Except NotAccess (o.Ret × Mem)
  | .load l, m => .ok (m l, m)
  | .store l x, m => .ok ((), m.set l x)
  | _, _ => .error .mk

/-- A call on the `k`-th static task struct. -/
inductive TaskCall where
  | init_task (k : ℕ) (pid : I32)
  | addTask (k : ℕ)
  deriving DecidableEq

def TaskCall.run (L : Layout) : TaskCall → KProg Unit
  | .init_task k pid => Kernel.init_task L (.static k) pid
  | .addTask k => Kernel.addTask (.static k)

/-- The memory after the calls. -/
def afterCalls (L : Layout) (cs : List TaskCall) (m : Mem) : Except NotAccess (Unit × Mem) :=
  (Prog.each (TaskCall.run L) cs).run memExec m

/-- The table before the first `addTask`. -/
structure Mem.TableEmpty (m : Mem) : Prop where
  taskNrs : m .taskNrs = (0 : I64)
  unused : ∀ t, m (.state (.gTasks t)) = TaskState.UNUSED

def TaskCall.inited : TaskCall → Option ℕ
  | .init_task k _ => some k
  | .addTask _ => none

def TaskCall.added : TaskCall → Option ℕ
  | .init_task _ _ => none
  | .addTask k => some k

/-- The structs that are initialised, in order. -/
def inits (cs : List TaskCall) : List ℕ := cs.filterMap TaskCall.inited

/-- The structs that are added, in order. -/
def adds (cs : List TaskCall) : List ℕ := cs.filterMap TaskCall.added

/-- Every struct is initialised once, and added once, later. -/
structure Lifecycle (cs : List TaskCall) : Prop where
  inits_nodup : (inits cs).Nodup
  adds_nodup : (adds cs).Nodup
  init_first : ∀ pre k post, cs = pre ++ .addTask k :: post → k ∈ inits pre
  add_later : ∀ k ∈ inits cs, k ∈ adds cs

/-- No two occupied slots have their stack pointer in one row of `task_stack`. -/
def StacksPrivate (m : Mem) : Prop :=
  ∀ s t : Fin TASK_MAX_NRS, m (.state (.gTasks s)) ≠ TaskState.UNUSED →
    m (.state (.gTasks t)) ≠ TaskState.UNUSED →
    m (.context (.gTasks s) 1) = m (.context (.gTasks t) 1) → s = t

/-- No `init_task` comes right after another. -/
def Separated (cs : List TaskCall) : Prop :=
  cs.IsChain fun a b => a.inited = none ∨ b.inited = none

instance (cs : List TaskCall) : Decidable (Separated cs) :=
  inferInstanceAs (Decidable (List.IsChain _ cs))

/-! ## Tasks added while others run -/

/-- The slot holds a task that runs or may run. -/
def Live (m : Mem) (t : Fin TASK_MAX_NRS) : Prop :=
  m (.state (.gTasks t)) = TaskState.RUNNABLE ∨ m (.state (.gTasks t)) = TaskState.RUNNING

instance (m : Mem) (t : Fin TASK_MAX_NRS) : Decidable (Live m t) :=
  inferInstanceAs (Decidable (_ ∨ _))

/-- What scheduling makes of a table in which `n` tasks were added: they go between RUNNABLE and
RUNNING; their pids, the slots never used and `taskNrs` stay. -/
structure Scheduling (n : ℕ) (m m' : Mem) : Prop where
  taskNrs : m' .taskNrs = m .taskNrs
  pid : ∀ t, m' (.pid (.gTasks t)) = m (.pid (.gTasks t))
  live : ∀ t, Live m t → Live m' t
  rest : ∀ t : Fin TASK_MAX_NRS, n ≤ t → m' (.state (.gTasks t)) = m (.state (.gTasks t))

/-- The memory after the pairs `ts` of `init_task` and `addTask`, with scheduling in between; `lost`
says whether an `addTask` wrote over a live slot. -/
inductive Added (L : Layout) : List (ℕ × I32) → Bool → Mem → Prop where
  | start {m : Mem} : m.TableEmpty → Added L [] false m
  | pair {ts : List (ℕ × I32)} {lost : Bool} {m m' : Mem} {k : ℕ} {pid : I32} :
      Added L ts lost m → k ∉ ts.map Prod.fst →
      (add_static L (k, pid)).run memExec m = .ok ((), m') →
      Added L (ts ++ [(k, pid)]) (lost || decide (Live m (taskSlot (m .taskNrs)))) m'
  | scheduling {ts : List (ℕ × I32)} {lost : Bool} {m m' : Mem} :
      Added L ts lost m → Scheduling ts.length m m' → Added L ts lost m'

/-- Every task added has a slot of its own, under its own pid. -/
def Kept (ts : List (ℕ × I32)) (m : Mem) : Prop :=
  ∃ s : Fin ts.length → Fin TASK_MAX_NRS, Function.Injective s ∧
    ∀ i, Live m (s i) ∧ m (.pid (.gTasks (s i))) = (ts.get i).2

end GQuuuuuunix.Kernel
