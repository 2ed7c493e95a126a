import GQuuuuuunix.Kernel.Clients

/-! # Programs as coroutines

`kernel_main` on the boot stack of every hart and `dummy_task` on the stack of every task hand over
to each other by `switch_to` and are interrupted by traps. What each of them does on its own account
is read off the history of the machine. -/

namespace GQuuuuuunix.Kernel
open Lib
set_option autoImplicit false

variable {κ : Type}

/-- An operation, and what it was answered. -/
abbrev Action := Σ o : Op, o.Ret

/-- What hart `h` is answered. A loop goes on with its round, and there is no way back from `PANIC`,
a crash, or the `ret` of `switch_to`. -/
def State.answer (σ : State) (h : ℕ) (fail : Bool) : (o : Op) → Option o.Ret
  | .load l => some (σ.mem l)
  | .amoswap c _ | .lr c => some (σ.mem (.cell c))
  | .sc c _ => some (if σ.resv h = some c ∧ fail = false then (0 : I32) else 1)
  | .atomic i => some (σ.atomic h fail i).1
  | .r_tp => some ((σ.harts h).regs .tp)
  | .r_sstatus => some (σ.harts h).sstatus
  | .r_sepc => some (σ.harts h).sepc
  | .r_scause => some (σ.harts h).scause
  | .r_sip => some (if (σ.harts h).ssip then 2 else 0)
  | .call_c => some (σ.harts h).regs
  | .loop _ | .panic _ | .crash | .ret _ _ => none
  | .store _ _ | .fence | .w_sstatus _ | .w_sepc _ | .w_sip _ | .w_stvec | .printf _ | .enter _
  | .leave _ _ | .point _ | .call_switch_to _ _ _ | .addi_sp _ | .sd _ _ | .ld _ _ | .ret_c _
  | .sret _ | .sd_ctx _ _ _ | .ld_ctx _ _ _ => some ()

/-- The instructions of switch.s. -/
def Op.ofSwitch : Op → Bool
  | .sd_ctx _ _ _ | .ld_ctx _ _ _ | .ret _ _ => true
  | _ => false

/-- What was done, and the answer. The call of `switch_to` counts, not what it is made of. -/
def action : State × Event → Option Action
  | (σ, .hart h fail) =>
    (σ.next h).bind fun o => if o.ofSwitch then none else (σ.answer h fail o).map (Sigma.mk o)
  | _ => none

/-- A hart with its `sp` on the stack `s` made a step of its own. -/
def onStack (L : Layout) (s : StackId) : State × Event → Bool
  | (σ, .hart h _) => L.stackOf ((σ.harts h).regs .sp) == some s
  | _ => false

/-- A trap enters a handler, and `sret` leaves it. -/
def handlerTurn (d : ℕ) : State × Event → ℕ
  | (σ, .hart h _) =>
    if (σ.harts h).interrupted then d + 1
    else
      match σ.next h with
      | some (.sret _) => d - 1
      | _ => d
  | _ => d

/-- The handlers that the program on the stack `s` is in. -/
def trapDepth (L : Layout) (s : StackId) : Trace → ℕ
  | [] => 0
  | x :: tr => if onStack L s x then handlerTurn (trapDepth L s tr) x else trapDepth L s tr

/-- What the program on the stack `s` did outside the handlers, the newest first. -/
def ownActions (L : Layout) (s : StackId) : Trace → List Action
  | [] => []
  | x :: tr =>
    if onStack L s x ∧ trapDepth L s tr = 0 then (action x).toList ++ ownActions L s tr
    else ownActions L s tr

/-- The stacks of the programs there are. -/
def StackId.Live (cfg : Config) : StackId → Prop
  | .hart h => h < cfg.harts
  | .task t => (t : ℕ) < cfg.pids.length

/-- The program that begins on a stack. -/
def StackId.program (cfg : Config) : StackId → Code
  | .hart _ => kernel_main cfg.layout cfg.pids
  | .task _ => dummy_task

/-- What the program `p` may do by itself, the newest first, and what is then left of it: an operation
is answered, a loop goes round, and a task may make a call at the top of its loop. -/
inductive Coroutine (prog : κ → KProg Unit) (p : Code) : List Action → Code → Prop where
  | start : Coroutine prog p [] p
  | act {l : List Action} {o : Op} {f : o.Ret → Code} (r : o.Ret) : (∀ x, o ≠ .loop x) →
      Coroutine prog p l (.op o f) → Coroutine prog p (⟨o, r⟩ :: l) (f r)
  | round {l : List Action} {x : Loop} {f : x.Ret → Code} :
      Coroutine prog p l (.op (.loop x) f) → Coroutine prog p l (x.round.bind f)
  | call {l : List Action} {f : Unit → Code} (k : κ) :
      Coroutine prog p l (.op (.loop .dummy_task) f) →
      Coroutine prog p l ((prog k).bind fun _ => .op (.loop .dummy_task) f)

end GQuuuuuunix.Kernel
