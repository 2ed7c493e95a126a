import GQuuuuuunix.Proof.Scheduler

/-! # Booting: the table, the barrier, and the way into the scheduler -/

namespace GQuuuuuunix.Proof
open Lib Kernel
set_option autoImplicit false

variable {cfg : Config} {α β : Type} {k : Ghost} {m : Own}

/-! ## The memory hart 0 has to itself -/

/-- Hart 0 before it opens the barrier. -/
structure InBoot (k : Ghost) : Prop where
  sie : k.sie = false
  stage : k.stage = .boot
  held : k.held = none

def Own.set (m : Own) (l : Loc) (x : l.Ty) : Own := { m with mem := m.mem.set l x }

theorem boot_keeps {l : Loc} (hb : InBoot k) (hl : Loc.boot l = true) : k.keeps l = true := by
  cases l <;> simp_all [Ghost.keeps, Loc.boot, hb.stage]

theorem owns_boot {L : Layout} {l : Loc} (hb : k.stage = .boot) (hl : Loc.boot l = true) :
    k.Owns L l := by
  cases l with
  | context p i => cases p with
    | gTasks t => exact Or.inr hb
    | static j => exact ⟨hb, rfl⟩
  | cpu_context | stack | gticks | time_data => cases hl
  | _ => exact ⟨hb, hl⟩

theorem boot_store {l : Loc} {x : l.Ty} {Q : Unit → Ghost → Own → Prop} (hb : InBoot k)
    (hl : Loc.boot l = true) (hp : ∀ v : View, v.k = k → StorePre l x v)
    (h : Q () k (m.set l x)) : Does cfg (store l x) k m Q := by
  refine Does.plain rfl rfl hb.sie fun v hk _ _ => ⟨hp v hk, fun r _ => ?_⟩
  have hk' : k.after (.store l x) r = k := by
    cases l with
    | lk_cpu p => exact if_pos hb.stage
    | state p => exact if_pos hb.stage
    | off_nrs | intr_ena_before | cpu_task | gticks | time_data => cases hl
    | _ => rfl
  have hm : m.after k v.regs (.store l x) = m.set l x := if_pos (boot_keeps hb hl)
  rw [hk', hm]
  exact h

theorem does_boot_lk_cpu {p : TaskPtr} {Q : Unit → Ghost → Own → Prop} (hb : InBoot k)
    (h : Q () k (m.set (.lk_cpu p) none)) : Does cfg (store (.lk_cpu p) none) k m Q :=
  boot_store hb rfl (fun v hk => Or.inl ⟨by rw [hk]; exact hb.stage, rfl⟩) h

theorem does_boot_store {l : Loc} {x : l.Ty} {Q : Unit → Ghost → Own → Prop} (hb : InBoot k)
    (hl : Loc.boot l = true) (hn : ∀ p, l ≠ .lk_cpu p) (h : Q () k (m.set l x)) :
    Does cfg (store l x) k m Q := by
  refine boot_store hb hl (fun v hk => ?_) h
  have hst : v.k.stage = .boot := by rw [hk]; exact hb.stage
  cases l with
  | lk_cpu p => exact (hn p rfl).elim
  | state p => exact Or.inl hst
  | cell c =>
    cases c with
    | isLocked p => exact hst
    | start => cases hl
  | off_nrs | intr_ena_before | cpu_task | gticks | time_data | cpu_context | stack => cases hl
  | _ => exact hst

theorem does_boot_load {l : Loc} {Q : l.Ty → Ghost → Own → Prop} (hb : InBoot k)
    (hl : Loc.boot l = true) (h : Q (m.mem l) k m) : Does cfg (load l) k m Q := by
  have hne : ∀ {t : Slot}, ¬ (k.held = some t ∧ k.run = none) := by
    intro t hn
    rw [hb.held] at hn
    cases hn.1
  refine Does.op rfl hb.sie fun v hk hm _ => ⟨?_, fun r w hw _ => ?_⟩
  · show LoadPre l v.k
    cases l with
    | state p =>
      cases p with
      | gTasks t =>
        intro hh
        rw [hk, hb.held] at hh
        cases hh
      | static j => trivial
    | _ => trivial
  · have hst : v.k.stage = .boot := by rw [hk]; exact hb.stage
    have hans : LoadAns cfg.layout l v r := by
      cases l <;> exact hw.1
    have hr : r = v.m.mem l := hans.2 (owns_boot hst hl)
    have hkm : w.k = k ∧ w.m = m := by
      cases l with
      | state p =>
        obtain ⟨_, μ, hμ, rfl⟩ := hw
        have hμ' := hμ (Or.inl (by rw [hk, hb.held]))
        subst hμ'
        refine ⟨?_, hm⟩
        show v.k.after (.load (.state p)) r = k
        rw [hk]
        cases p with
        | gTasks t => exact if_neg hne
        | static j => rfl
      | _ =>
        obtain ⟨_, rfl⟩ := hw
        exact ⟨hk, hm⟩
    rw [hkm.1, hkm.2, hr, hm]
    exact h

theorem does_each {f : β → KProg Unit} {I : List β → Own → Prop}
    (hstep : ∀ x xs m, I (x :: xs) m → Does cfg (f x) k m fun _ k' m' => k' = k ∧ I xs m') :
    ∀ {xs : List β} {m : Own} {Q : Unit → Ghost → Own → Prop}, I xs m →
      (∀ m', I [] m' → Q () k m') → Does cfg (Prog.each f xs) k m Q
  | [], m, _, hI, hQ => Does.pure (hQ m hI)
  | x :: xs, m, _, hI, hQ => by
      refine Does.bind ((hstep x xs m hI).mono ?_)
      rintro _ k' m' ⟨hk, hI'⟩
      rw [hk]
      exact does_each hstep hI' hQ

/-! ## init_spin_lock, init_task, addTask -/

/-- The memory after `init_spin_lock`. -/
def Own.initLock (m : Own) (p : TaskPtr) : Own :=
  ((((m.set (.cell (.isLocked p)) (0 : I32)).set (.lk_cpu p) none).set (.lk_acquire p)
    LockFn.acquire_lk).set (.lk_release p) LockFn.release_lk).set (.lk_is_holding p)
    LockFn.is_holding_lk

theorem does_init_spin_lock {p : TaskPtr} {Q : Unit → Ghost → Own → Prop} (hb : InBoot k)
    (h : Q () k (m.initLock p)) : Does cfg (init_spin_lock p) k m Q := by
  unfold init_spin_lock
  refine Does.bind (does_boot_store hb rfl (by simp) ?_)
  refine Does.bind (does_boot_lk_cpu hb ?_)
  refine Does.bind (does_boot_store hb rfl (by simp) ?_)
  refine Does.bind (does_boot_store hb rfl (by simp) ?_)
  exact does_boot_store hb rfl (by simp) h

/-- The memory after `init_task`. -/
def Own.initTask (L : Layout) (m : Own) (p : TaskPtr) (pid : I32) : Own :=
  ((((m.set (.state p) TaskState.RUNNABLE).set (.pid p) pid).set (.context p 0)
    L.dummy_task).set (.context p 1) (L.stackTop (taskSlot (m.mem .taskNrs)))).initLock p

theorem does_init_task {p : TaskPtr} {pid : I32} {Q : Unit → Ghost → Own → Prop}
    (hb : InBoot k) (h : Q () k (m.initTask cfg.layout p pid)) :
    Does cfg (init_task cfg.layout p pid) k m Q := by
  unfold init_task
  refine Does.bind (does_boot_store hb rfl (by simp) ?_)
  refine Does.bind (does_boot_store hb rfl (by simp) ?_)
  refine Does.bind (does_boot_store hb rfl (by simp) ?_)
  refine Does.bind (does_boot_load hb rfl ?_)
  refine Does.bind (does_boot_store hb rfl (by simp) ?_)
  exact does_init_spin_lock hb h

/-- The words of `context` that are not to be copied any more are those of `src`. -/
def copyContext (m : Mem) (dst src : TaskPtr) (todo : List CtxWord) : Mem
  | .context p i => if p = dst ∧ i ∉ todo then m (.context src i) else m (.context p i)
  | l => m l

theorem copyContext_all (m : Mem) (dst src : TaskPtr) :
    copyContext m dst src (List.finRange 14) = m := by
  funext l
  cases l <;> simp [copyContext]

theorem copyContext_set {m : Mem} {dst src : TaskPtr} (hne : src ≠ dst) {i : CtxWord}
    {todo : List CtxWord} (hi : i ∉ todo) :
    (copyContext m dst src (i :: todo)).set (.context dst i)
      (copyContext m dst src (i :: todo) (.context src i)) =
    copyContext m dst src todo := by
  funext l
  cases l with
  | context p j =>
    simp only [Mem.set, copyContext, hne, false_and, if_false, List.mem_cons]
    by_cases hj : j = i
    · subst hj
      by_cases hp : p = dst <;> simp [hp, hi]
    · simp [hj]
  | _ => rfl

/-- `*dst = *src`: the twenty-one words of a task struct. -/
def Own.copyTask (m : Own) (dst src : TaskPtr) : Own :=
  let m := m.set (.pid dst) (m.mem (.pid src))
  let m := { m with mem := copyContext m.mem dst src [] }
  let m := m.set (.state dst) (m.mem (.state src))
  let m := m.set (.cell (.isLocked dst)) (m.mem (.cell (.isLocked src)))
  let m := m.set (.lk_cpu dst) none
  let m := m.set (.lk_acquire dst) (m.mem (.lk_acquire src))
  let m := m.set (.lk_release dst) (m.mem (.lk_release src))
  m.set (.lk_is_holding dst) (m.mem (.lk_is_holding src))

theorem does_copy_context {dst src : TaskPtr} {Q : Unit → Ghost → Own → Prop} (hb : InBoot k)
    (hne : src ≠ dst) (h : Q () k { m with mem := copyContext m.mem dst src [] }) :
    Does cfg (Prog.each (fun i => copy_word (.context dst i) (.context src i) rfl)
      (List.finRange 14)) k m Q := by
  refine does_each (I := fun xs m' => xs.Nodup ∧
    m' = { m with mem := copyContext m.mem dst src xs }) ?_ ?_ ?_
  · rintro i xs m' ⟨hnd, rfl⟩
    rw [List.nodup_cons] at hnd
    refine Does.bind (does_boot_load hb rfl ?_)
    refine does_boot_store hb rfl (by simp) ⟨rfl, hnd.2, ?_⟩
    rw [← copyContext_set hne hnd.1]
    rfl
  · exact ⟨List.nodup_finRange 14, by rw [copyContext_all]⟩
  · rintro m' ⟨_, rfl⟩
    exact h

theorem does_memcpy_task {dst src : TaskPtr} {Q : Unit → Ghost → Own → Prop} (hb : InBoot k)
    (hne : src ≠ dst) (hcpu : m.mem (.lk_cpu src) = none) (h : Q () k (m.copyTask dst src)) :
    Does cfg (memcpy_task dst src) k m Q := by
  have hcopy : ∀ {l l' : Loc} {hl : l'.Ty = l.Ty} {m : Own} {P : Unit → Ghost → Own → Prop},
      Loc.boot l = true → Loc.boot l' = true → (∀ p, l ≠ .lk_cpu p) →
      P () k (m.set l (hl ▸ m.mem l')) → Does cfg (copy_word l l' hl) k m P := by
    intro l l' hl m P h1 h2 h3 hP
    exact Does.bind (does_boot_load hb h2 (does_boot_store hb h1 h3 hP))
  have hnone : ∀ {m : Own} {P : Unit → Ghost → Own → Prop}, m.mem (.lk_cpu src) = none →
      P () k (m.set (.lk_cpu dst) none) →
      Does cfg (copy_word (.lk_cpu dst) (.lk_cpu src) rfl) k m P := by
    intro m P h1 hP
    refine Does.bind (does_boot_load hb rfl ?_)
    show Does cfg (store (.lk_cpu dst) (m.mem (.lk_cpu src))) k m P
    rw [h1]
    exact does_boot_lk_cpu hb hP
  unfold memcpy_task
  refine Does.bind (hcopy rfl rfl (by simp) ?_)
  refine Does.bind (does_copy_context hb hne ?_)
  refine Does.bind (hcopy rfl rfl (by simp) ?_)
  refine Does.bind (hcopy rfl rfl (by simp) ?_)
  refine Does.bind (hnone hcpu ?_)
  refine Does.bind (hcopy rfl rfl (by simp) ?_)
  refine Does.bind (hcopy rfl rfl (by simp) ?_)
  exact hcopy rfl rfl (by simp) h

/-! ## The table -/

theorem lockReady_initLock (m : Own) (p : TaskPtr) : LockReady (m.initLock p).mem p := by
  constructor <;> simp [Own.initLock, Own.set, Mem.set]

theorem lockReady_initLock_ne {m : Own} {p q : TaskPtr} (hne : q ≠ p) (h : LockReady m.mem q) :
    LockReady (m.initLock p).mem q := by
  obtain ⟨h1, h2, h3, h4, h5⟩ := h
  constructor <;> simp [Own.initLock, Own.set, Mem.set, *]

theorem lockReady_copyTask {m : Own} {dst src : TaskPtr} (h : LockReady m.mem src) :
    LockReady (m.copyTask dst src).mem dst := by
  obtain ⟨h1, h2, h3, h4, h5⟩ := h
  constructor <;> simp [Own.copyTask, Own.set, Mem.set, copyContext, *]

theorem lockReady_copyTask_ne {m : Own} {dst src q : TaskPtr} (hne : q ≠ dst)
    (h : LockReady m.mem q) : LockReady (m.copyTask dst src).mem q := by
  obtain ⟨h1, h2, h3, h4, h5⟩ := h
  constructor <;> simp [Own.copyTask, Own.set, Mem.set, copyContext, *]

theorem lockReady_initTask_ne {L : Layout} {m : Own} {p q : TaskPtr} {pid : I32} (hne : q ≠ p)
    (h : LockReady m.mem q) : LockReady (m.initTask L p pid).mem q :=
  lockReady_initLock_ne hne ⟨h.isLocked, h.lk_cpu, h.acquire, h.release, h.is_holding⟩

theorem lockReady_set_taskNrs {m : Own} {p : TaskPtr} {x : I64} (h : LockReady m.mem p) :
    LockReady (m.set .taskNrs x).mem p :=
  ⟨h.isLocked, h.lk_cpu, h.acquire, h.release, h.is_holding⟩

/-- The table when the locks of the slots in `todo` are to be initialised yet, and `a` tasks are
added. -/
structure BootMem (L : Layout) (mem : Mem) (todo : List Slot) (a : ℕ) : Prop where
  lock : ∀ t, t ∉ todo → LockReady mem (.gTasks t)
  state : ∀ t : Slot, mem (.state (.gTasks t)) =
    if (t : ℕ) < a then TaskState.RUNNABLE else TaskState.UNUSED
  context : ∀ t : Slot, (t : ℕ) < a → ∀ i, mem (.context (.gTasks t) i) = initCtx L t i
  taskNrs : mem .taskNrs = BitVec.ofNat 64 a
  fresh : ∀ j ≥ a, ∀ i, mem (.context (.static j) i) = (0 : U64)
  bit : mem .time_mantissa_bit = (32 : BitVec 8)

theorem BootMem.initLock {L : Layout} {m : Own} {t : Slot} {todo : List Slot} {a : ℕ}
    (h : BootMem L m.mem (t :: todo) a) : BootMem L (m.initLock (.gTasks t)).mem todo a := by
  refine ⟨fun t' ht => ?_, h.state, h.context, h.taskNrs, h.fresh, h.bit⟩
  by_cases h1 : t' = t
  · subst h1
    exact lockReady_initLock m _
  · exact lockReady_initLock_ne (by simpa using h1) (h.lock t' (by simp [h1, ht]))

theorem taskSlot_ofNat (t : Slot) : taskSlot (BitVec.ofNat 64 t) = t := by
  revert t
  decide +kernel

/-- The memory after `init_task` and `addTask` of the `t`-th task struct. -/
def Own.addStatic (L : Layout) (m : Own) (t : Slot) (pid : I32) : Own :=
  ((m.initTask L (.static t) pid).set .taskNrs (BitVec.ofNat 64 t + 1)).copyTask
    (.gTasks t) (.static t)

theorem BootMem.add {L : Layout} {m : Own} {t : Slot} {pid : I32} (h : BootMem L m.mem [] t) :
    BootMem L (m.addStatic L t pid).mem [] (t + 1) := by
  have hne : ∀ {t' : Slot}, t' ≠ t → (t' : ℕ) ≠ t := fun h1 hn => h1 (Fin.ext hn)
  refine ⟨fun t' ht => ?_, fun t' => ?_, fun t' ht i => ?_, ?_, fun j hj i => ?_, ?_⟩
  · by_cases h1 : t' = t
    · subst h1
      have h2 : LockReady (m.initTask L (.static t') pid).mem (.static t') :=
        lockReady_initLock _ _
      exact lockReady_copyTask (lockReady_set_taskNrs h2)
    · refine lockReady_copyTask_ne (by simpa using h1) (lockReady_set_taskNrs ?_)
      exact lockReady_initTask_ne (by simp) (h.lock t' ht)
  · by_cases h1 : t' = t
    · simp [Own.addStatic, Own.copyTask, Own.initTask, Own.initLock, Own.set, Mem.set,
        copyContext, h1]
    · have h2 : ((t' : ℕ) < t + 1) = ((t' : ℕ) < t) := by
        apply propext
        have := hne h1
        omega
      simp only [h2]
      simp [Own.addStatic, Own.copyTask, Own.initTask, Own.initLock, Own.set, Mem.set,
        copyContext, h1, h.state t']
  · by_cases h1 : t' = t
    · subst h1
      have h01 : ¬ (1 : CtxWord) = 0 := by decide
      by_cases hi0 : i = 0
      · simp [Own.addStatic, Own.copyTask, Own.initTask, Own.initLock, Own.set, Mem.set,
          copyContext, initCtx, hi0]
      · simp [Own.addStatic, Own.copyTask, Own.initTask, Own.initLock, Own.set, Mem.set,
          copyContext, initCtx, hi0, h.taskNrs, taskSlot_ofNat, h.fresh]
    · have h2 := hne h1
      simp only [Own.addStatic, Own.copyTask, Own.initTask, Own.initLock, Own.set, Mem.set,
        copyContext]
      simp only [TaskPtr.gTasks.injEq, h1, false_and, if_false, reduceCtorEq]
      exact h.context t' (by omega) i
  · simp [Own.addStatic, Own.copyTask, Own.set, Mem.set, copyContext, BitVec.ofNat_add]
  · have h1 : j ≠ (t : ℕ) := by omega
    simp only [Own.addStatic, Own.copyTask, Own.initTask, Own.initLock, Own.set, Mem.set,
      copyContext]
    simp only [TaskPtr.static.injEq, h1, false_and, if_false, reduceCtorEq]
    exact h.fresh j (by omega) i
  · simp only [Own.addStatic, Own.copyTask, Own.initTask, Own.initLock, Own.set, Mem.set,
      copyContext]
    exact h.bit

theorem does_add_static {t : Slot} {pid : I32} {Q : Unit → Ghost → Own → Prop} (hb : InBoot k)
    (hm : BootMem cfg.layout m.mem [] t) (h : Q () k (m.addStatic cfg.layout t pid)) :
    Does cfg (add_static cfg.layout ((t : ℕ), pid)) k m Q := by
  unfold add_static
  refine Does.bind (does_init_task hb ?_)
  unfold addTask
  refine Does.bind (does_boot_load hb rfl ?_)
  have hnrs : (m.initTask cfg.layout (.static t) pid).mem .taskNrs = BitVec.ofNat 64 t :=
    hm.taskNrs
  rw [hnrs]
  refine Does.bind (does_boot_store hb rfl (by simp) ?_)
  rw [taskSlot_ofNat]
  have hlock : LockReady (m.initTask cfg.layout (.static t) pid).mem (.static t) :=
    lockReady_initLock _ _
  exact does_memcpy_task hb (by simp) (lockReady_set_taskNrs hlock).lk_cpu h

theorem does_add_tasks (hb : InBoot k) : ∀ {pids : List I32} {a : ℕ} {m : Own}
    {Q : Unit → Ghost → Own → Prop}, BootMem cfg.layout m.mem [] a →
    a + pids.length ≤ TASK_MAX_NRS →
    (∀ m', BootMem cfg.layout m'.mem [] (a + pids.length) → Q () k m') →
    Does cfg (Prog.each (add_static cfg.layout) ((List.range' a pids.length).zip pids)) k m Q
  | [], a, m, Q, hm, _, hQ => Does.pure (hQ m hm)
  | pid :: pids, a, m, Q, hm, ha, hQ => by
      have ha' : a < TASK_MAX_NRS := by simp at ha; omega
      refine Does.bind (does_add_static (t := ⟨a, ha'⟩) hb hm ?_)
      refine does_add_tasks hb (BootMem.add hm) (by simp at ha ⊢; omega) fun m' hm' => ?_
      refine hQ m' ?_
      rw [show a + (pid :: pids).length = a + 1 + pids.length by simp; omega]
      exact hm'

theorem BootMem.ready {mem : Mem} (h : BootMem cfg.layout mem [] cfg.pids.length) :
    BootReady cfg mem :=
  ⟨⟨fun t => h.lock t (by simp), h.state, h.context⟩, h.bit⟩

/-! ## The barrier -/

/-- A hart on its way from `kernel_main` to the barrier. -/
def Ghost.booting (h : ℕ) : Ghost where
  hart := h
  sie := false
  off := 0
  ena := 0
  task := none
  held := none
  own := false
  run := none
  st := .UNUSED
  stage := if h = 0 then .boot else .wait
  stk := .hart h
  sw := none
  calls := []
  scan := TASK_MAX_NRS
  trap := .idle
  stvec := false
  back := none

/-- Hart 0 opens the barrier. -/
theorem does_open_barrier {Q : I32 → Ghost → Own → Prop} (hm : BootReady cfg m.mem)
    (h : Q 1 ((Ghost.scanning 0 false 0 .UNUSED TASK_MAX_NRS).setCalls []) m) :
    Does cfg (atomic_store_i32 .start 1) { Ghost.booting 0 with stvec := true } m Q := by
  have hin : inside [Fn.atomic_store .start] = true := rfl
  unfold atomic_store_i32
  refine Does.bind (does_enter rfl (by simp) (by simp) (by simp) ?_)
  refine Does.bind (does_push_off rfl hin ?_)
  refine Does.bind (does_loop rfl (Or.inr ⟨rfl, rfl, rfl, rfl, hm⟩) fun _ k' m' hp => ?_)
  obtain ⟨rfl, rfl⟩ := hp
  refine Does.bind (does_pop_off_last rfl hin rfl rfl ?_)
  exact Does.bind (does_leave rfl ⟨rfl, by simp⟩ (fun _ => ⟨rfl, fun hn => by cases hn⟩)
    (Does.pure h))

/-- A hart that reads 0 goes on waiting; one that reads anything else is past the barrier. -/
theorem does_load_start {Q : I32 → Ghost → Own → Prop} (hw : k.stage = .wait)
    (hs : k.sie = false) (hoff : k.off = 0) (h0 : Q 0 k m)
    (h1 : ∀ r, r ≠ 0 → Q r k.pass m) :
    Does cfg (atomic_load_i32 .start) k m Q := by
  unfold atomic_load_i32
  refine Does.of_ok rfl hs fun hok => ?_
  have hheld : k.held = none := by
    cases hh : k.held with
    | none => rfl
    | some t =>
      have hst := hok.held_opened t hh
      rw [hw] at hst
      cases hst
  have hb : k.off = (if k.held.isSome then 1 else 0) ∧ (k.held.isSome → k.own = true) := by
    rw [hheld, hoff]
    exact ⟨rfl, fun hn => by cases hn⟩
  refine Does.bind (does_enter hs (by simp) (by simp) (by simp) ?_)
  refine Does.bind (Does.plain rfl rfl (by exact hs) fun v _ _ _ => ⟨trivial, fun r _ => ?_⟩)
  by_cases hr : r = (0 : I32)
  · subst hr
    rw [show Ghost.after _ (.lr .start) (0 : I32) = k.setCalls (.atomic_load .start :: k.calls)
      from if_neg (fun hn => hn.2 rfl)]
    exact Does.bind (does_leave (by exact hs) ⟨rfl, by simp⟩ (fun _ => hb) (Does.pure h0))
  · rw [show Ghost.after _ (.lr .start) r = (k.setCalls (.atomic_load .start :: k.calls)).pass
      from if_pos ⟨hw, hr⟩]
    exact Does.bind (does_leave (by exact hs) ⟨rfl, by simp⟩ (fun _ => hb) (Does.pure (h1 r hr)))

theorem does_barrier_round (hp : LoopPre cfg .barrier k m) :
    Does cfg barrier_round k m fun _ k' m' => LoopPost .barrier k m k' m' := by
  obtain ⟨hw, hs, hoff⟩ := hp
  unfold barrier_round
  refine Does.bind (does_load_start hw hs hoff ?_ fun r hr => ?_)
  · refine does_if_pos rfl ?_
    exact does_loop hs ⟨hw, hs, hoff⟩ fun _ k' m' h => h
  · exact does_if_neg hr (Does.pure ⟨rfl, rfl⟩)

/-! ## kernel_main -/

theorem does_store_start {Q : Unit → Ghost → Own → Prop} (hs : k.sie = false) (h : Q () k m) :
    Does cfg (store (.cell .start) (0 : I32)) k m Q := by
  refine Does.plain rfl rfl hs fun v _ _ _ => ⟨rfl, fun _ _ => ?_⟩
  have hm : m.after k v.regs (.store (.cell .start) (0 : I32)) = m := by
    simp [Own.after, Ghost.keeps, Loc.boot]
  rw [hm]
  exact h

theorem does_init_time {Q : Unit → Ghost → Own → Prop} (hb : InBoot k)
    (h : Q () k (m.set .time_data (0 : U64))) :
    Does cfg (store .time_data (0 : U64)) k m Q := by
  refine Does.plain rfl rfl hb.sie fun v hk _ _ => ⟨?_, fun r _ => ?_⟩
  · exact Or.inl ⟨by rw [hk]; exact hb.stage, rfl⟩
  · rw [show k.after (.store .time_data (0 : U64)) r = k from if_pos hb.stage]
    exact h

theorem bootMem_zero (L : Layout) {m : Own} (hm : m.mem = Mem.zero) :
    BootMem L ((m.set .time_data (0 : U64)).set .time_mantissa_bit (32 : BitVec 8)).mem
      (List.finRange TASK_MAX_NRS) 0 := by
  refine ⟨fun t ht => (ht (List.mem_finRange t)).elim, fun t => ?_, fun t ht => ?_, ?_,
    fun j _ i => ?_, rfl⟩
  · show m.mem (.state (.gTasks t)) = _
    rw [hm]
    rfl
  · exact (Nat.not_lt_zero _ ht).elim
  · show m.mem .taskNrs = _
    rw [hm]
    rfl
  · show m.mem (.context (.static j) i) = _
    rw [hm]
    rfl

theorem does_init_table {Q : Unit → Ghost → Own → Prop} (hb : InBoot k) (hm : m.mem = Mem.zero)
    {p : KProg Unit}
    (h : ∀ m', BootReady cfg m'.mem → Does cfg p k m' Q) :
    Does cfg (do
      store .time_data 0
      store .time_mantissa_bit 32
      Prog.each (fun i => init_spin_lock (.gTasks i)) (List.finRange TASK_MAX_NRS)
      Prog.each (add_static cfg.layout) ((List.range cfg.pids.length).zip cfg.pids)
      p) k m Q := by
  refine Does.bind (does_init_time hb ?_)
  refine Does.bind (does_boot_store hb rfl (by simp) ?_)
  refine Does.bind (does_each (I := fun xs m' => BootMem cfg.layout m'.mem xs 0)
    (fun t ts m' hI => does_init_spin_lock hb ⟨rfl, hI.initLock⟩) (bootMem_zero _ hm)
    fun m1 h1 => ?_)
  rw [List.range_eq_range']
  refine Does.bind (does_add_tasks hb h1 (by simpa using cfg.pids_le) fun m2 h2 => ?_)
  rw [Nat.zero_add] at h2
  exact h m2 h2.ready

/-- A hart's program from `kernel_main` on, with .bss zeroed. -/
theorem does_kernel_main {h : ℕ} {Q : Unit → Ghost → Own → Prop} (hm : m.mem = Mem.zero) :
    Does cfg (kernel_main cfg.layout cfg.pids) (.booting h) m Q := by
  unfold kernel_main
  refine Does.of_ok rfl rfl fun hok => ?_
  have hlt : h < 4 := lt_of_lt_of_le hok.hart_lt cfg.harts_le
  refine Does.bind (does_r_tp rfl ?_)
  refine Does.bind (does_store_start rfl ?_)
  refine Does.bind (Does.plain rfl rfl rfl fun _ _ _ _ => ⟨trivial, fun _ _ => ?_⟩)
  by_cases h0 : h = 0
  · subst h0
    refine does_if_pos rfl ?_
    refine Does.bind (does_silent rfl rfl rfl (fun _ _ => trivial) (fun _ => rfl)
      (fun _ => rfl) fun _ => ?_)
    refine does_init_table ⟨rfl, rfl, rfl⟩ hm fun m' hm' => ?_
    refine Does.bind (does_silent rfl rfl rfl (fun _ _ => trivial) (fun _ => rfl)
      (fun _ => rfl) fun _ => ?_)
    exact Does.bind (does_open_barrier hm' does_scheduler)
  · refine does_if_neg (show ¬ BitVec.ofNat 64 h = 0 from ?_) ?_
    · intro hn
      have h1 := congrArg BitVec.toNat hn
      simp at h1
      omega
    have hst : (Ghost.booting h).stage = .wait := if_neg h0
    refine Does.bind (does_loop rfl ⟨hst, rfl, rfl⟩ fun _ k' m' hp => ?_)
    obtain ⟨rfl, rfl⟩ := hp
    exact does_scheduler

end GQuuuuuunix.Proof
