import GQuuuuuunix.Kernel.TaskCalls

/-! # What init_task and addTask make of memory -/

namespace GQuuuuuunix.Proof
open Lib Kernel
set_option autoImplicit false

variable {L : Layout} {m m' : Mem} {p dst src : TaskPtr} {pid : I32}

/-- The word is a field of the task struct. -/
def Loc.fieldOf (p : TaskPtr) : Loc → Bool
  | .pid q | .context q _ | .state q | .cell (.isLocked q) | .lk_cpu q | .lk_acquire q
  | .lk_release q | .lk_is_holding q => q = p
  | _ => false

/-! ## The index of a slot -/

theorem taskSlot_of_lt {n : ℕ} (hn : n < 2 ^ 63) :
    taskSlot (BitVec.ofNat 64 n) = Fin.ofNat TASK_MAX_NRS n := by
  have hx : (BitVec.ofNat 64 n).toNat = n := by
    rw [BitVec.toNat_ofNat]
    omega
  have hmsb : (BitVec.ofNat 64 n).msb = false := BitVec.msb_eq_false_iff_two_mul_lt.2 (by omega)
  have hrem : ((BitVec.ofNat 64 n).srem 64).toNat = n % 64 := by
    rw [BitVec.srem_eq, hmsb]
    show (BitVec.ofNat 64 n % 64).toNat = _
    rw [BitVec.toNat_umod, hx]
    rfl
  unfold taskSlot
  rw [hrem]
  apply Fin.ext
  show n % 64 % 64 = n % 64
  omega

/-! ## init_task -/

structure Initialised (L : Layout) (p : TaskPtr) (pid : I32) (m m' : Mem) : Prop where
  state : m' (.state p) = TaskState.RUNNABLE
  pid : m' (.pid p) = pid
  sp : m' (.context p 1) = L.stackTop (taskSlot (m .taskNrs))
  frame : ∀ l, Loc.fieldOf p l = false → m' l = m l

/-- The memory after `init_task`. -/
def Mem.initTask (L : Layout) (p : TaskPtr) (pid : I32) (m : Mem) : Mem :=
  ((((((((m.set (.state p) TaskState.RUNNABLE).set (.pid p) pid).set (.context p 0)
    L.dummy_task).set (.context p 1) (L.stackTop (taskSlot (m .taskNrs)))).set
    (.cell (.isLocked p)) (0 : I32)).set (.lk_cpu p) none).set (.lk_acquire p)
    LockFn.acquire_lk).set (.lk_release p) LockFn.release_lk).set (.lk_is_holding p)
    LockFn.is_holding_lk

theorem run_init_task : (init_task L p pid).run memExec m = .ok ((), Mem.initTask L p pid m) := rfl

theorem initialised : Initialised L p pid m (Mem.initTask L p pid m) := by
  refine ⟨?_, ?_, ?_, fun l hl => ?_⟩
  · simp [Mem.initTask, Mem.set]
  · simp [Mem.initTask, Mem.set]
  · simp [Mem.initTask, Mem.set]
  · cases l with
    | cell c => cases c <;> simp_all [Mem.initTask, Mem.set, Loc.fieldOf]
    | _ => simp_all [Mem.initTask, Mem.set, Loc.fieldOf]

/-! ## addTask -/

theorem run_load {l : Loc} {α : Type} {f : l.Ty → KProg α} :
    (load l >>= f).run memExec m = (f (m l)).run memExec m := rfl

theorem run_store {l : Loc} {x : l.Ty} {α : Type} {f : Unit → KProg α} :
    (store l x >>= f).run memExec m = (f ()).run memExec (m.set l x) := rfl

theorem run_copy_word {d s : Loc} {h : s.Ty = d.Ty} {α : Type} {f : Unit → KProg α} :
    (copy_word d s h >>= f).run memExec m = (f ()).run memExec (m.set d (h ▸ m s)) := rfl

/-- The words `is` of the context. -/
def copyWords (dst src : TaskPtr) (is : List CtxWord) (m : Mem) : Mem :=
  is.foldl (fun m i => m.set (.context dst i) (m (.context src i))) m

theorem run_copy_context (is : List CtxWord) {α : Type} {f : Unit → KProg α} :
    (Prog.each (fun i => copy_word (.context dst i) (.context src i) rfl) is >>= f).run memExec m =
      (f ()).run memExec (copyWords dst src is m) := by
  induction is generalizing m with
  | nil => rfl
  | cons i is ih => exact ih

theorem copyWords_eq (hne : src ≠ dst) (is : List CtxWord) (m : Mem) (l : Loc) :
    copyWords dst src is m l = match l with
      | .context p i => if p = dst ∧ i ∈ is then m (.context src i) else m (.context p i)
      | l => m l := by
  induction is generalizing m with
  | nil => cases l <;> simp [copyWords]
  | cons i is ih =>
    show copyWords dst src is (m.set (.context dst i) (m (.context src i))) l = _
    rw [ih]
    cases l with
    | context p j =>
      simp only [Mem.set, hne, false_and, if_false, List.mem_cons]
      by_cases hp : p = dst
      · by_cases hj : j = i
        · subst hj
          simp [hp]
        · simp [hp, hj]
      · simp [hp]
    | _ => rfl

structure TaskCopied (dst src : TaskPtr) (m m' : Mem) : Prop where
  state : m' (.state dst) = m (.state src)
  pid : m' (.pid dst) = m (.pid src)
  context : ∀ i, m' (.context dst i) = m (.context src i)
  frame : ∀ l, Loc.fieldOf dst l = false → m' l = m l

/-- The memory after `*dst = *src`. -/
def Mem.copyTask (dst src : TaskPtr) (m : Mem) : Mem :=
  let m := m.set (.pid dst) (m (.pid src))
  let m := copyWords dst src (List.finRange 14) m
  let m := m.set (.state dst) (m (.state src))
  let m := m.set (.cell (.isLocked dst)) (m (.cell (.isLocked src)))
  let m := m.set (.lk_cpu dst) (m (.lk_cpu src))
  let m := m.set (.lk_acquire dst) (m (.lk_acquire src))
  let m := m.set (.lk_release dst) (m (.lk_release src))
  m.set (.lk_is_holding dst) (m (.lk_is_holding src))

theorem run_memcpy_task :
    (memcpy_task dst src).run memExec m = .ok ((), Mem.copyTask dst src m) := by
  unfold memcpy_task
  rw [run_copy_word, run_copy_context]
  rfl

theorem taskCopied (hne : src ≠ dst) : TaskCopied dst src m (Mem.copyTask dst src m) := by
  have hw := copyWords_eq hne (List.finRange 14)
  refine ⟨?_, ?_, fun i => ?_, fun l hl => ?_⟩
  · simp [Mem.copyTask, Mem.set, hw]
  · simp [Mem.copyTask, Mem.set, hw]
  · simp [Mem.copyTask, Mem.set, hw]
  · have hself : decide (dst = dst) = true := decide_eq_true rfl
    have hset : ∀ l', Loc.fieldOf dst l' = true → ∀ (m : Mem) (x : l'.Ty), m.set l' x l = m l := by
      intro l' hl' m x
      refine Mem.set_ne m x fun he => ?_
      rw [he, hl'] at hl
      cases hl
    have hwords : ∀ m, copyWords dst src (List.finRange 14) m l = m l := by
      intro m
      rw [hw]
      cases l with
      | context p i => exact if_neg fun h => of_decide_eq_false hl h.1
      | _ => rfl
    unfold Mem.copyTask
    rw [hset (.lk_is_holding dst) hself, hset (.lk_release dst) hself, hset (.lk_acquire dst) hself,
      hset (.lk_cpu dst) hself, hset (.cell (.isLocked dst)) hself, hset (.state dst) hself, hwords,
      hset (.pid dst) hself]

theorem run_addTask : (addTask p).run memExec m = .ok ((),
    Mem.copyTask (.gTasks (taskSlot (m .taskNrs))) p (m.set .taskNrs (m .taskNrs + 1))) := by
  unfold addTask
  rw [run_load, run_store, run_memcpy_task]

end GQuuuuuunix.Proof
