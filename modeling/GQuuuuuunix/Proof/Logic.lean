import GQuuuuuunix.Proof.Ghost

/-! # The rules of the operations

For each operation: what it needs (`Pre`), what its answer says (`Ans`), and what it makes of the
record of its hart (`after`). `rules` assembles them into the transformers that `wp` needs; before
an operation of compiled C a trap may come between, which `Interf` allows for. -/

namespace GQuuuuuunix.Proof
open Lib Kernel
set_option autoImplicit false

/-! ## What an operation makes of the record -/

def slotOf : Option TaskPtr → Option Slot
  | some (.gTasks t) => some t
  | _ => none

def Ghost.after (k : Ghost) : (o : Op) → o.Ret → Ghost
  | .load (.state (.gTasks t)), r =>
    if k.held = some t ∧ k.run = none then
      if r = .RUNNABLE then k.claim t else k.setScan (t + 1)
    else k
  | .store (.off_nrs _) x, _ => k.setOff x
  | .store (.intr_ena_before _) x, _ => k.setEna x
  | .store (.cpu_task _) x, _ => k.setTask (slotOf x)
  | .store (.state _) x, _ => if k.stage = .boot then k else k.setSt x
  | .store (.lk_cpu _) x, _ => if k.stage = .boot then k else k.setOwn x.isSome
  | .store .gticks _, _ => k.setTrap .time_due
  | .store .time_data _, _ => if k.stage = .boot then k else k.setTrap .counted
  | .amoswap (.isLocked (.gTasks t)) _, r =>
    if r = (0 : I32) then k.take t else k
  | .lr .start, r => if k.stage = .wait ∧ r ≠ (0 : I32) then k.pass else k
  | .sc (.isLocked _) _, r => if r = (0 : I32) then k.drop else k
  | .sc .start _, r => if r = (0 : I32) then k.pass else k
  | .w_sstatus x, _ => k.setSie (Kernel.sie x)
  | .w_sip _, _ => k.setTrap .acked
  | .w_stvec, _ => { k with stvec := true }
  | .enter (.release lk), _ => { k with calls := .release lk :: k.calls, back := none }
  | .enter f, _ => k.setCalls (f :: k.calls)
  | .leave _ _, _ => k.setCalls k.calls.tail
  | .point .software_interrupt, _ =>
    k.setTrap (if k.hart = 0 then .gticks_due else .counted)
  | .point .pass_begin, _ => k.setScan 0
  | .point (.switched_back t), _ => { k with back := some t }
  | .sret _, _ => { k with sie := true, trap := .idle, calls := k.calls.tail }
  | _, _ => k

theorem Ghost.after_hart (k : Ghost) (o : Op) (r : o.Ret) : (k.after o r).hart = k.hart := by
  unfold Ghost.after
  split <;> try rfl
  all_goals split <;> try rfl
  split <;> rfl

/-- The registers after an instruction of kvec.s or switch.s, or the return of a C function. -/
def regsAfter (mem : Mem) (r : Regs) : Op → Regs
  | .addi_sp i => Function.update r .sp (r .sp + BitVec.ofInt 64 i)
  | .ld x off => Function.update r x (mem (.stack (r .sp + BitVec.ofNat 64 off)))
  | .ret_c saved => fun x => if x.calleeSaved then saved x else r x
  | .ld_ctx p x i => Function.update r x (mem.ctx p i)
  | _ => r

/-- A store to `l` is to memory that is the hart's own. -/
def Ghost.keeps (k : Ghost) : Loc → Bool
  | .gticks | .time_data => true
  | l => decide (k.stage = .boot) && Loc.boot l

def Own.after (k : Ghost) (r : Regs) (m : Own) : Op → Own
  | .store l x => if k.keeps l then { m with mem := m.mem.set l x } else m
  | .w_sstatus x => { m with sstatus := x }
  | .w_sepc x => { m with sepc := x }
  | .sd x off => { m with mem := m.mem.set (.stack (r .sp + BitVec.ofNat 64 off)) (r x) }
  | .sd_ctx p x i => { m with mem := m.mem.setCtx p i (r x) }
  | .sret _ => { m with sstatus := sret_sstatus m.sstatus }
  | _ => m

def View.after (v : View) (o : Op) (r : o.Ret) : View where
  k := v.k.after o r
  regs := regsAfter v.m.mem v.regs o
  pc := match o with | .sret _ => v.m.sepc | _ => v.pc
  m := v.m.after v.k v.regs o

/-! ## Named situations -/

/-- `task.context` as `init_task` makes it, for the task added to slot `t`. -/
def initCtx (L : Layout) (t : Slot) : CtxWord → U64 :=
  fun i => if i = 0 then L.dummy_task else if i = 1 then L.stackTop t else 0

/-- What hart 0 has made of the table when it opens the barrier. -/
structure TableReady (cfg : Config) (mem : Mem) : Prop where
  lock : ∀ t, LockReady mem (.gTasks t)
  state : ∀ t : Slot, mem (.state (.gTasks t)) =
    if (t : ℕ) < cfg.pids.length then TaskState.RUNNABLE else TaskState.UNUSED
  context : ∀ t : Slot, (t : ℕ) < cfg.pids.length →
    ∀ i, mem (.context (.gTasks t) i) = initCtx cfg.layout t i

/-- What hart 0 has set up when it opens the barrier. -/
structure BootReady (cfg : Config) (mem : Mem) : Prop extends TableReady cfg mem where
  time_mantissa_bit : mem .time_mantissa_bit = (32 : BitVec 8)

/-- A hart in `scheduler`, with no task in hand and the slots before `i` decided. -/
def Ghost.scanning (c : ℕ) (b : Bool) (e : I32) (st : TaskState) (i : ℕ) : Ghost where
  hart := c
  sie := b
  off := 0
  ena := e
  task := none
  held := none
  own := false
  run := none
  st := st
  stage := .opened
  stk := .hart c
  sw := none
  calls := [.scheduler]
  scan := i
  trap := .idle
  stvec := true
  back := none

/-- A hart in task `t`, outside the handler and holding no lock. -/
def Ghost.running (h : ℕ) (b : Bool) (e : I32) (t : Slot) (calls : List Fn) : Ghost where
  hart := h
  sie := b
  off := 0
  ena := e
  task := some t
  held := none
  own := false
  run := some t
  st := .RUNNING
  stage := .opened
  stk := .task t
  sw := none
  calls := calls
  scan := t + 1
  trap := .idle
  stvec := true
  back := none

/-- The hart may swap a 1 into `isLocked` of the lock of `t`. -/
structure TestSetPre (t : Slot) (k : Ghost) : Prop where
  sie : k.sie = false
  stage : k.stage = .opened
  held : k.held = none
  inside : inside k.calls = true
  run : ∀ t', k.run = some t' → t' = t

/-- The hart may clear `isLocked` of the lock of `t`: the lock is its own, `lk->cpu` is cleared,
and the task is either given up or goes on with the lock free. -/
structure ClearPre (t : Slot) (k : Ghost) : Prop where
  sie : k.sie = false
  held : k.held = some t
  own : k.own = false
  inside : inside k.calls = true
  back : k.back = none
  sw : k.sw = none
  place : (k.st = .RUNNABLE ∧ k.task = none) ∨ k.run = none ∨ (k.st = .RUNNING ∧ k.stk = .task t)

/-- The conditional stores of the kernel: a lock is cleared, or hart 0 opens the barrier. -/
def ScPre (cfg : Config) (c : Cell) (x : I32) (k : Ghost) (m : Own) : Prop :=
  (∃ t, c = .isLocked (.gTasks t) ∧ x = 0 ∧ ClearPre t k) ∨
  (c = .start ∧ x = 1 ∧ k.sie = false ∧ k.stage = .boot ∧ BootReady cfg m.mem)

/-- The stack `s` holds the same words. -/
def SameStack (L : Layout) (s : StackId) (m m' : Own) : Prop :=
  ∀ a, L.stackOf a = some s → m'.mem (.stack a) = m.mem (.stack a)

/-- The view `v'` a program goes on with after the call of `switch_to` it made with the view
`v`. -/
def Resumed (L : Layout) (s : SwitchSite) (v v' : View) : Prop :=
  ∃ t h e, v.k.run = some t ∧ v'.k = .resumed s h e t v.k.calls ∧
    (s = .scheduler → h = v.k.hart) ∧
    (s = .sched → SameStack L (.task t) v.m v'.m)

/-- What may happen to a hart between two operations of compiled C. With interrupts off only
registers move. With interrupts on a trap may be taken and handled, and a task may go on
elsewhere. -/
def Moved (k : Ghost) (m : Own) (k' : Ghost) (m' : Own) : Prop :=
  if k.sie = true then ∃ c e, k' = k.on c e ∧ (k.run = none → c = k.hart)
  else k' = k ∧ m' = m

/-! ## Loops -/

def LoopPre (cfg : Config) : Loop → Ghost → Own → Prop
  | .test_set lk, k, _ => ∃ t, lk = .gTasks t ∧ TestSetPre t k ∧ k.off = 1
  | .store c x, k, m => ScPre cfg c x k m
  | .barrier, k, _ => k.stage = .wait ∧ k.sie = false ∧ k.off = 0
  | .scheduler c, k, _ => ∃ b e st, k = .scanning c b e st TASK_MAX_NRS
  | .scan c i, k, _ => i ≤ TASK_MAX_NRS ∧ ∃ b e st, k = .scanning c b e st i
  | .dummy_task, k, _ => ∃ h b e t, k = .running h b e t []
  | .atomic_store _ _ _, _, _ | .cmp_xchg _ _ _ _, _, _ => True

def LoopPost : Loop → Ghost → Own → Ghost → Own → Prop
  | .test_set lk, k, m, k', m' =>
    ∃ t, lk = .gTasks t ∧ k' = k.take t ∧ m' = m
  | .store c x, k, m, k', m' => k' = k.after (.sc c x) (0 : I32) ∧ m' = m
  | .barrier, k, m, k', m' => k' = k.pass ∧ m' = m
  | .scan c _, _, _, k', _ => ∃ b e st, k' = .scanning c b e st TASK_MAX_NRS
  | .scheduler _, _, _, _, _ | .dummy_task, _, _, _, _ => False
  | .atomic_store _ _ _, k, m, k', m' | .cmp_xchg _ _ _ _, k, m, k', m' => Moved k m k' m'

/-! ## What an operation needs -/

def LoadPre : Loc → Ghost → Prop
  | .state (.gTasks t), k => k.held = some t → k.run = none → k.scan = t
  | _, _ => True

def StorePre : (l : Loc) → l.Ty → View → Prop
  | .off_nrs c, _, v => c = v.k.hart ∧ v.k.sie = false ∧ inside v.k.calls = true
  | .intr_ena_before c, _, v => c = v.k.hart
  | .cpu_task c, x, v => c = v.k.hart ∧
    ((x = none ∧ v.k.stk = .hart c) ∨ ∃ t, x = some (.gTasks t) ∧ v.k.run = some t)
  | .cell .start, x, _ => x = (0 : I32)
  | .lk_cpu p, x, v => (v.k.stage = .boot ∧ x = none) ∨
    ∃ t, p = .gTasks t ∧ v.k.held = some t ∧ inside v.k.calls = true ∧
      (x = some v.k.hart ∨ x = none)
  | .state p, x, v => v.k.stage = .boot ∨
    ∃ t, p = .gTasks t ∧ v.k.held = some t ∧ v.k.run = some t ∧
      (x = .RUNNABLE ∨ (x = .RUNNING ∧ v.k.scan = t))
  | .gticks, x, v => v.k.hart = 0 ∧ v.k.trap = .gticks_due ∧ x = v.m.mem .gticks + (1 : U64)
  | .time_data, x, v => (v.k.stage = .boot ∧ x = (0 : U64)) ∨
    (v.k.hart = 0 ∧ v.k.stage = .opened ∧ v.k.trap = .time_due ∧ x = v.m.mem .time_data + TICKS)
  | .cpu_context _ _, _, _ | .stack _, _, _ => False
  | _, _, v => v.k.stage = .boot

def PointPre : Point → Ghost → Prop
  | .software_interrupt, k => k.trap = .entered
  | .pass_begin, k => k.scan = TASK_MAX_NRS ∧ k.run = none ∧ k.stk = .hart k.hart ∧
    k.stage = .opened
  | .pass_end, k => k.scan = TASK_MAX_NRS
  | .switched_back t, k => k.run = some t ∧ k.held = some t ∧ k.own = true ∧ k.back = none ∧
    k.scan = t + 1 ∧ k.stk = .hart k.hart
  | .returned _, _ => True

def Pre (cfg : Config) : Op → View → Prop
  | .load l, v => LoadPre l v.k
  | .store l x, v => StorePre l x v
  | .amoswap c x, v => ∃ t, c = .isLocked (.gTasks t) ∧ x = 1 ∧ TestSetPre t v.k
  | .sc c x, v => ScPre cfg c x v.k v.m
  | .w_sstatus x, v => sie x = true → v.k.Interruptible
  | .w_sip x, v => x.getLsbD 1 = false ∧ v.k.trap = .counted
  | .loop l, v => LoopPre cfg l v.k v.m
  | .enter f, v => (∀ h, f ≠ .kernelvec h) ∧
    (∀ lk, f = .release lk → ∃ t, lk = .gTasks t ∧ v.k.held = some t ∧ v.k.own = true) ∧
    (f = .scheduler → v.k.stage = .opened)
  | .leave f _, v => (v.k.calls.head? = some f ∧ ∀ h, f ≠ .kernelvec h) ∧
    (inside v.k.calls.tail = false →
      v.k.off = (if v.k.held.isSome then 1 else 0) ∧ (v.k.held.isSome → v.k.own = true))
  | .point p, v => PointPre p v.k
  | .panic _, _ | .crash, _ => False
  | .call_switch_to s old new, v => ∃ e t, v.k = .atSwitch s v.k.hart e t v.k.calls ∧
    old = oldCtx s v.k.hart t ∧ new = newCtx s v.k.hart t
  | .addi_sp i, v => v.k.sie = false ∧ v.k.sw = none ∧ v.k.trap ≠ .idle ∧
    cfg.layout.stackOf (v.regs .sp + BitVec.ofInt 64 i) = some v.k.stk
  | .sd _ off, v => v.k.sie = false ∧ v.k.sw = none ∧
    cfg.layout.stackOf (v.regs .sp + BitVec.ofNat 64 off) = some v.k.stk
  | .ld r off, v => v.k.sie = false ∧ v.k.sw = none ∧ v.k.trap ≠ .idle ∧ r ≠ .tp ∧
    cfg.layout.stackOf (v.regs .sp + BitVec.ofNat 64 off) = some v.k.stk ∧
    (r = .sp → cfg.layout.stackOf (v.m.mem (.stack (v.regs .sp + BitVec.ofNat 64 off))) =
      some v.k.stk)
  | .call_c, v => v.k.sie = false
  | .ret_c saved, v => v.k.sie = false ∧ v.k.sw = none ∧ v.k.trap ≠ .idle ∧
    cfg.layout.stackOf (saved .sp) = some v.k.stk
  | .sret s, v => v.k.sie = false ∧ v.k.trap = .acked ∧
    (v.k.after (.sret s) ()).Interruptible ∧
    v.m.sepc = s.pc ∧ s.mode = .supervisor ∧ s.sie = true ∧
    spp v.m.sstatus = true ∧ spie v.m.sstatus = true ∧ cfg.layout.Roomy (v.regs .sp) ∧
    ∀ r, r ≠ .tp → v.regs r = s.regs r
  | .sd_ctx p _ _, v => ∃ s e t ρ, v.k = .switching s v.k.hart e t v.k.calls ρ ∧
    p = oldCtx s v.k.hart t
  | .ld_ctx p r i, v => (r, i) ∈ switch_to_slots ∧
    ∃ s e t ρ, v.k = .switching s v.k.hart e t v.k.calls ρ ∧ p = newCtx s v.k.hart t
  | .ret old new, v => ∃ s e t ρ, v.k = .switching s v.k.hart e t v.k.calls ρ ∧
    old = oldCtx s v.k.hart t ∧ new = newCtx s v.k.hart t ∧
    (∀ i, v.m.mem.ctx old i = ρ i) ∧ ∀ i, ctxOf v.regs i = v.m.mem.ctx new i
  | _, _ => True

/-! ## What an operation answers -/

/-- What is known of memory that other harts may read or write too. -/
def LoadKnown : (l : Loc) → Ghost → l.Ty → Prop
  | .off_nrs c, k, r => c = k.hart → r = k.off
  | .intr_ena_before c, k, r => c = k.hart → r = k.ena
  | .cpu_task c, k, r => c = k.hart → r = k.task.map .gTasks
  | .state (.gTasks t), k, r => k.run = some t → r = k.st
  | .cell (.isLocked (.gTasks t)), k, r => k.held = some t → r = (1 : I32)
  | .lk_cpu (.gTasks t), k, r =>
    k.stage = .opened → (r = some k.hart ↔ k.held = some t ∧ k.own = true)
  | .lk_acquire (.gTasks _), k, r => k.stage = .opened → r = LockFn.acquire_lk
  | .lk_release (.gTasks _), k, r => k.stage = .opened → r = LockFn.release_lk
  | .lk_is_holding (.gTasks _), k, r => k.stage = .opened → r = LockFn.is_holding_lk
  | _, _, _ => True

def LoadAns (L : Layout) (l : Loc) (v : View) (r : l.Ty) : Prop :=
  LoadKnown l v.k r ∧ (v.k.Owns L l → r = v.m.mem l)

def Ans (L : Layout) : (o : Op) → View → o.Ret → Prop
  | .load l, v, r => LoadAns L l v r
  | .r_tp, v, r => r = BitVec.ofNat 64 v.k.hart
  | .r_sstatus, v, r => r = v.m.sstatus
  | .r_sepc, v, r => r = v.m.sepc
  | .r_scause, v, r => r = v.m.scause
  | .call_c, v, r => r = v.regs
  | _, _, _ => True

/-- `o`, performed with the view `v` and answered by `r`, goes on with the view `v'`. A load of
`state` that finds a task to run brings its context with it. -/
def Post (cfg : Config) : (o : Op) → View → o.Ret → View → Prop
  | .loop l, v, _, v' => LoopPost l v.k v.m v'.k v'.m
  | .call_switch_to s _ _, v, _, v' => Resumed cfg.layout s v v'
  | .ret _ _, _, _, _ => False
  | .load (.state p), v, r, v' => LoadAns cfg.layout (.state p) v r ∧
    ∃ μ, (v.k.held = none ∨ v.k.run ≠ none → μ = v.m.mem) ∧
      v' = { v with k := v.k.after (.load (.state p)) r, m := { v.m with mem := μ } }
  | o, v, r, v' => Ans cfg.layout o v r ∧ v' = v.after o r

/-! ## The rules -/

def Interf (v v' : View) : Prop := Moved v.k v.m v'.k v'.m

def rules (cfg : Config) : Rules Op Op.Ret View := fun o Q v =>
  ∀ v', (if o.isAsm then v' = v else Interf v v') → v'.Ok cfg →
    Pre cfg o v' ∧ ∀ r w, Post cfg o v' r w → w.Ok cfg → Q r w

/-- The hart runs on for ever without a panic or a crash. -/
def Safe (cfg : Config) (c : Code) (v : View) : Prop := wp (rules cfg) c (fun _ _ => False) v

theorem rules_mono (cfg : Config) : (rules cfg).Mono := by
  intro o Q Q' v hQ h v' hi hok
  obtain ⟨hp, hq⟩ := h v' hi hok
  exact ⟨hp, fun r w hw hwok => hQ r w (hq r w hw hwok)⟩

theorem Moved.refl (k : Ghost) (m : Own) : Moved k m k m := by
  unfold Moved
  split
  · exact ⟨k.hart, k.ena, rfl, fun _ => rfl⟩
  · exact ⟨rfl, rfl⟩

theorem Moved.cases {k k' : Ghost} {m m' : Own} (h : Moved k m k' m') :
    ∃ c e, k' = k.on c e ∧ (k.run = none → c = k.hart) := by
  unfold Moved at h
  split at h
  · exact h
  · exact ⟨k.hart, k.ena, h.1, fun _ => rfl⟩

theorem Moved.of_sie {k k' : Ghost} {m m' : Own} (hs : k.sie = false) (h : Moved k m k' m') :
    k' = k ∧ m' = m := by
  unfold Moved at h
  rwa [if_neg (by simp [hs])] at h

theorem Moved.trans {a b c : Ghost} {ma mb mc : Own} (h1 : Moved a ma b mb)
    (h2 : Moved b mb c mc) : Moved a ma c mc := by
  by_cases ha : a.sie = true
  · obtain ⟨h, e, rfl, hh⟩ := h1.cases
    obtain ⟨h', e', rfl, hh'⟩ := h2.cases
    unfold Moved
    rw [if_pos ha]
    exact ⟨h', e', rfl, fun hr => (hh' hr).trans (hh hr)⟩
  · have ha' : a.sie = false := by simpa using ha
    obtain ⟨rfl, rfl⟩ := h1.of_sie ha'
    exact h2

/-- The calls in progress do not matter to what may happen meanwhile. -/
theorem Moved.of_setCalls {k k' : Ghost} {m m' : Own} {fs : List Fn}
    (h : Moved (k.setCalls fs) m k' m') : Moved k m (k'.setCalls k.calls) m' := by
  by_cases hs : k.sie = true
  · obtain ⟨c, e, rfl, hc⟩ := h.cases
    unfold Moved
    rw [if_pos hs]
    exact ⟨c, e, rfl, hc⟩
  · have hs' : k.sie = false := by simpa using hs
    obtain ⟨rfl, rfl⟩ := h.of_sie (show (k.setCalls fs).sie = false from hs')
    exact Moved.refl k _

theorem Interf.refl (v : View) : Interf v v := Moved.refl v.k v.m

theorem Interf.trans {a b c : View} (h1 : Interf a b) (h2 : Interf b c) : Interf a c :=
  Moved.trans h1 h2

end GQuuuuuunix.Proof
