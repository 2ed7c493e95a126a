import GQuuuuuunix.Kernel.Machine

/-! # The text of the functions that neither switch nor handle a trap

What is proved operation by operation of every function of the kernel is proved once of the
operations they are made of. -/

namespace GQuuuuuunix.Proof
open Lib Kernel
set_option autoImplicit false

variable {α β : Type}

/-- The operations that are nowhere but in `switch_to` and where it is called, in the trap
handler, in `yield`, in `dummy_task`, and in the operations on atomic objects. -/
def Op.special : Op → Bool
  | .call_switch_to _ _ _ | .ret _ _ | .sret _ | .enter .yield | .leave .yield _
  | .point .software_interrupt | .load .time_data | .printf (.tick _ _) | .w_sip _
  | .atomic _ | .enter (.atomic _) | .leave (.atomic _) _ | .point (.returned _)
  | .loop (.atomic_store _ _ _) | .loop (.cmp_xchg _ _ _ _) | .loop .dummy_task => true
  | _ => false

/-- Every operation of the program satisfies `P`. -/
abbrev Text (P : Op → Prop) (p : KProg α) : Prop := p.Forall fun o _ => P o

/-- A function with no special operation. -/
abbrev Plain (p : KProg α) : Prop := Text (fun o => Op.special o = false) p

section
variable {P : Op → Prop}

theorem Text.bind {p : KProg α} {f : α → KProg β} (hp : Text P p) (hf : ∀ a, Text P (f a)) :
    Text P (p >>= f) := Prog.Forall.bind (fun _ _ h => h) hf hp

theorem text_pure (a : α) : Text P (Pure.pure a : KProg α) := trivial

theorem text_one {o : Op} (ho : P o) : Text P (one o) := ⟨ho, fun _ => trivial⟩

theorem text_ite {c : Prop} [Decidable c] {p q : KProg α} (hp : Text P p) (hq : Text P q) :
    Text P (if c then p else q) := by
  split
  · exact hp
  · exact hq

theorem text_each {f : β → KProg Unit} (hf : ∀ x, Text P (f x)) : ∀ xs, Text P (Prog.each f xs)
  | [] => trivial
  | x :: xs => (hf x).bind fun _ => text_each hf xs

theorem text_deref {t : Option TaskPtr} {k : TaskPtr → KProg α} (hc : P .crash)
    (hk : ∀ p, Text P (k p)) : Text P (deref t k) := by
  cases t with
  | some p => exact hk p
  | none => exact (text_one hc).bind fun _ => hk _

/-! ## push_off, pop_off -/

/-- The operations of `push_off` and `pop_off`. -/
def Op.ofOff : Op → Bool
  | .r_tp | .r_sstatus | .w_sstatus _ | .panic _ | .load (.off_nrs _) | .load (.intr_ena_before _)
  | .store (.off_nrs _) _ | .store (.intr_ena_before _) _ => true
  | _ => false

variable (hP : ∀ o, Op.ofOff o = true → P o)
include hP

theorem text_intr_on : Text P intr_on := (text_one (hP _ rfl)).bind fun _ => text_one (hP _ rfl)

theorem text_intr_off : Text P intr_off := (text_one (hP _ rfl)).bind fun _ => text_one (hP _ rfl)

theorem text_intr_get : Text P intr_get := (text_one (hP _ rfl)).bind fun _ => text_pure _

theorem text_get_cur_cpu : Text P get_cur_cpu :=
  Text.bind ((text_one (hP _ rfl)).bind fun _ => text_pure _) fun _ => text_pure _

theorem text_push_off : Text P push_off := by
  refine (text_intr_get hP).bind fun old => (text_intr_off hP).bind fun _ =>
    (text_get_cur_cpu hP).bind fun c => (text_one (hP _ rfl)).bind fun nrs => ?_
  have hrest : Text P (do
      let c ← get_cur_cpu
      let nrs ← load (.off_nrs c)
      store (.off_nrs c) (nrs + 1)) :=
    (text_get_cur_cpu hP).bind fun _ => (text_one (hP _ rfl)).bind fun _ => text_one (hP _ rfl)
  exact text_ite ((text_get_cur_cpu hP).bind fun _ => (text_one (hP _ rfl)).bind fun _ => hrest)
    hrest

theorem text_pop_off : Text P pop_off := by
  have hend : ∀ c, Text P (do
      let nrs ← load (.off_nrs c)
      store (.off_nrs c) (nrs - 1)
      if (← load (.off_nrs c)) = 0 then
        if (← load (.intr_ena_before c)) ≠ 0 then
          intr_on) := fun c =>
    (text_one (hP _ rfl)).bind fun _ => (text_one (hP _ rfl)).bind fun _ =>
      (text_one (hP _ rfl)).bind fun _ => text_ite ((text_one (hP _ rfl)).bind fun _ =>
        text_ite (text_intr_on hP) (text_pure _)) (text_pure _)
  have hnrs : ∀ c, Text P (do
      if (← load (.off_nrs c)).slt 1 then
        PANIC .pop_off_nrs
      let nrs ← load (.off_nrs c)
      store (.off_nrs c) (nrs - 1)
      if (← load (.off_nrs c)) = 0 then
        if (← load (.intr_ena_before c)) ≠ 0 then
          intr_on) := fun c => (text_one (hP _ rfl)).bind fun _ =>
    text_ite ((text_one (hP _ rfl)).bind fun _ => hend c) (hend c)
  exact (text_get_cur_cpu hP).bind fun c => (text_intr_get hP).bind fun _ =>
    text_ite ((text_one (hP _ rfl)).bind fun _ => hnrs c) (hnrs c)

end

theorem special_ofOff (o : Op) (ho : Op.ofOff o = true) : Op.special o = false := by
  unfold Op.ofOff at ho
  split at ho <;> first | rfl | cases ho

theorem plain_one {o : Op} (ho : Op.special o = false) : Plain (one o) := ⟨ho, fun _ => trivial⟩

/-! ## riscv.h, task.c, atomic.h -/

theorem plain_intr_on : Plain intr_on := text_intr_on special_ofOff

theorem plain_intr_get : Plain intr_get := text_intr_get special_ofOff

theorem plain_get_cur_cpu : Plain get_cur_cpu := text_get_cur_cpu special_ofOff

theorem plain_get_cur_task : Plain get_cur_task := plain_get_cur_cpu.bind fun _ => plain_one rfl

theorem plain_push_off : Plain push_off := text_push_off special_ofOff

theorem plain_pop_off : Plain pop_off := text_pop_off special_ofOff

theorem plain_test_set_i32 (a : Cell) : Plain (test_set_i32 a) :=
  (plain_one rfl).bind fun _ => plain_push_off.bind fun _ => (plain_one rfl).bind fun _ =>
    plain_pop_off.bind fun _ => (plain_one rfl).bind fun _ => text_pure _

theorem plain_atomic_load_i32 (a : Cell) : Plain (atomic_load_i32 a) :=
  (plain_one rfl).bind fun _ => (plain_one rfl).bind fun _ =>
    (plain_one rfl).bind fun _ => text_pure _

theorem plain_store_round (a : Cell) (x : I32) : Plain (store_round a x) :=
  (plain_one rfl).bind fun _ => (plain_one rfl).bind fun _ => text_ite (plain_one rfl) (text_pure _)

theorem plain_atomic_store_i32 (a : Cell) (x : I32) : Plain (atomic_store_i32 a x) :=
  (plain_one rfl).bind fun _ => plain_push_off.bind fun _ => (plain_one rfl).bind fun _ =>
    plain_pop_off.bind fun _ => (plain_one rfl).bind fun _ => text_pure _

/-! ## spin_lock.c -/

theorem plain_is_holding_lk (lk : TaskPtr) : Plain (is_holding_lk lk) := by
  refine (plain_one rfl).bind fun _ => (plain_one rfl).bind fun val => ?_
  have hend : ∀ r : I32, Plain (do
      leave (.is_holding lk) r
      pure r) := fun _ => (plain_one rfl).bind fun _ => text_pure _
  exact text_ite (plain_get_cur_cpu.bind fun _ => (plain_one rfl).bind fun _ => hend _) (hend _)

theorem plain_call_is_holding (lk : TaskPtr) : Plain (call_is_holding lk) := by
  refine (plain_one rfl).bind fun fn => ?_
  cases fn with
  | is_holding_lk => exact plain_is_holding_lk lk
  | _ => exact (plain_one rfl).bind fun _ => text_pure _

theorem plain_test_set_round (lk : TaskPtr) : Plain (test_set_round lk) :=
  (plain_test_set_i32 _).bind fun _ => text_ite (plain_one rfl) (text_pure _)

theorem plain_acquire_lk (lk : TaskPtr) : Plain (acquire_lk lk) := by
  have hend : Plain (do
      loop (.test_set lk)
      smp_mb
      let c ← get_cur_cpu
      store (.lk_cpu lk) (some c)
      leave (.acquire lk) 0) :=
    (plain_one rfl).bind fun _ => (plain_one rfl).bind fun _ => plain_get_cur_cpu.bind fun _ =>
      (plain_one rfl).bind fun _ => plain_one rfl
  exact (plain_one rfl).bind fun _ => plain_push_off.bind fun _ => (plain_call_is_holding lk).bind
    fun _ => text_ite ((plain_one rfl).bind fun _ => hend) hend

theorem plain_release_lk (lk : TaskPtr) : Plain (release_lk lk) := by
  have hend : Plain (do
      store (.lk_cpu lk) none
      smp_mb
      let _val ← atomic_store_i32 (.isLocked lk) 0
      pop_off
      leave (.release lk) 0) :=
    (plain_one rfl).bind fun _ => (plain_one rfl).bind fun _ => (plain_atomic_store_i32 _ _).bind
      fun _ => plain_pop_off.bind fun _ => plain_one rfl
  exact (plain_one rfl).bind fun _ => (plain_call_is_holding lk).bind fun _ =>
    text_ite ((plain_one rfl).bind fun _ => hend) hend

theorem plain_call_acquire (lk : TaskPtr) : Plain (call_acquire lk) := by
  refine (plain_one rfl).bind fun fn => ?_
  cases fn with
  | acquire_lk => exact plain_acquire_lk lk
  | _ => exact plain_one rfl

theorem plain_call_release (lk : TaskPtr) : Plain (call_release lk) := by
  refine (plain_one rfl).bind fun fn => ?_
  cases fn with
  | release_lk => exact plain_release_lk lk
  | _ => exact plain_one rfl

theorem plain_init_spin_lock (lk : TaskPtr) : Plain (init_spin_lock lk) :=
  (plain_one rfl).bind fun _ => (plain_one rfl).bind fun _ => (plain_one rfl).bind fun _ =>
    (plain_one rfl).bind fun _ => plain_one rfl

/-! ## sched.c, task.c, main.c -/

theorem plain_afterSwitch (c : ℕ) (i : Fin TASK_MAX_NRS) : Plain (afterSwitch c i) :=
  (plain_one rfl).bind fun _ => (plain_one rfl).bind fun _ => plain_call_release _

theorem plain_scheduler_round (c : ℕ) : Plain (scheduler_round c) :=
  plain_intr_on.bind fun _ => (plain_one rfl).bind fun _ => (plain_one rfl).bind fun _ =>
    (plain_one rfl).bind fun _ => plain_one rfl

theorem plain_scheduler : Plain scheduler :=
  (plain_one rfl).bind fun _ => plain_get_cur_cpu.bind fun _ => (plain_one rfl).bind fun _ =>
    plain_one rfl

theorem plain_init_task (L : Layout) (task : TaskPtr) (pid : I32) : Plain (init_task L task pid) :=
  (plain_one rfl).bind fun _ => (plain_one rfl).bind fun _ => (plain_one rfl).bind fun _ =>
    (plain_one rfl).bind fun _ => (plain_one rfl).bind fun _ => plain_init_spin_lock _

theorem plain_copy_word (dst src : Loc) (h : src.Ty = dst.Ty)
    (hs : Op.special (.load src) = false) : Plain (copy_word dst src h) :=
  (plain_one hs).bind fun _ => plain_one rfl

theorem plain_memcpy_task (dst src : TaskPtr) : Plain (memcpy_task dst src) :=
  (plain_copy_word _ _ _ rfl).bind fun _ =>
    (text_each (fun _ => plain_copy_word _ _ _ rfl) _).bind fun _ =>
    (plain_copy_word _ _ _ rfl).bind fun _ => (plain_copy_word _ _ _ rfl).bind fun _ =>
      (plain_copy_word _ _ _ rfl).bind fun _ => (plain_copy_word _ _ _ rfl).bind fun _ =>
        (plain_copy_word _ _ _ rfl).bind fun _ => plain_copy_word _ _ _ rfl

theorem plain_add_static (L : Layout) (t : ℕ × I32) : Plain (add_static L t) :=
  (plain_init_task _ _ _).bind fun _ => (plain_one rfl).bind fun _ => (plain_one rfl).bind fun _ =>
    plain_memcpy_task _ _

theorem plain_barrier_round : Plain barrier_round :=
  (plain_atomic_load_i32 _).bind fun _ => text_ite (plain_one rfl) (text_pure _)

theorem plain_kernel_main (L : Layout) (pids : List I32) : Plain (kernel_main L pids) := by
  refine (plain_one rfl).bind fun id => (plain_one rfl).bind fun _ => (plain_one rfl).bind fun _ =>
    text_ite ?_ ((plain_one rfl).bind fun _ => plain_scheduler)
  exact (plain_one rfl).bind fun _ => (plain_one rfl).bind fun _ => (plain_one rfl).bind fun _ =>
    (text_each (fun _ => plain_init_spin_lock _) _).bind fun _ =>
      (text_each (fun _ => plain_add_static _ _) _).bind fun _ => (plain_one rfl).bind fun _ =>
        (plain_atomic_store_i32 _ _).bind fun _ => plain_scheduler

/-! ## Loops on objects, and functions that switch -/

section
variable {P : Op → Prop}

theorem text_obj_store_round (sz : Width) (a : ℕ) (x : U64) (hi : ∀ i, P (.atomic i))
    (hl : P (.loop (.atomic_store sz a x))) : Text P (Atomic.store_round sz a x) :=
  (text_one (hi _)).bind fun _ => (text_one (hi _)).bind fun _ =>
    text_ite (text_one hl) (text_pure _)

theorem text_cmp_xchg_round (sz : Width) (a : ℕ) (e d : U64) (hi : ∀ i, P (.atomic i))
    (hl : P (.loop (.cmp_xchg sz a e d))) : Text P (Atomic.cmp_xchg_round sz a e d) :=
  (text_one (hi _)).bind fun _ => text_ite (text_pure _) ((text_one (hi _)).bind fun _ =>
    text_ite (text_one hl) (text_pure _))

variable (hP : ∀ o, Op.special o = false → P o)
include hP

theorem Plain.text {p : KProg α} (hp : Plain p) : Text P p := hp.mono fun o _ => hP o

theorem text_op {o : Op} (ho : Op.special o = false) : Text P (one o) := text_one (hP o ho)

theorem text_dummy_task_round (hl : P (.loop .dummy_task)) : Text P dummy_task_round :=
  (plain_intr_on.text hP).bind fun _ => (text_op hP rfl).bind fun _ =>
    (text_op hP rfl).bind fun _ => text_one hl

theorem text_dummy_task (hl : P (.loop .dummy_task)) : Text P dummy_task :=
  (text_op hP rfl).bind fun _ => (plain_get_cur_task.text hP).bind fun _ =>
    text_deref (hP _ rfl) fun _ => ((plain_call_release _).text hP).bind fun _ => text_one hl

theorem text_sched (hs : ∀ old new, P (.call_switch_to .sched old new)) : Text P sched := by
  refine (plain_get_cur_task.text hP).bind fun _ => text_deref (hP _ rfl) fun task => ?_
  have hswitch : Text P (do
      let c ← get_cur_cpu
      let intr_ena_before ← load (.intr_ena_before c)
      let c ← get_cur_cpu
      call_switch_to .sched (.task task) (.cpu c)
      let c ← get_cur_cpu
      store (.intr_ena_before c) intr_ena_before) :=
    (plain_get_cur_cpu.text hP).bind fun _ => (text_op hP rfl).bind fun _ =>
      (plain_get_cur_cpu.text hP).bind fun _ => (text_one (hs _ _)).bind fun _ =>
        (plain_get_cur_cpu.text hP).bind fun _ => text_op hP rfl
  refine ((plain_call_is_holding _).text hP).bind fun _ => ?_
  refine text_ite ((text_op hP rfl).bind fun _ => ?_) ?_ <;>
  refine (text_op hP rfl).bind fun _ => text_ite ((text_op hP rfl).bind fun _ => ?_) ?_ <;>
  exact (plain_intr_get.text hP).bind fun _ =>
    text_ite ((text_op hP rfl).bind fun _ => hswitch) hswitch

theorem text_yield (hs : ∀ old new, P (.call_switch_to .sched old new)) (he : P (.enter .yield))
    (hl : ∀ r, P (.leave .yield r)) : Text P yield :=
  (text_one he).bind fun _ => (plain_get_cur_task.text hP).bind fun _ =>
    text_deref (hP _ rfl) fun _ => ((plain_call_acquire _).text hP).bind fun _ =>
      (text_op hP rfl).bind fun _ => (text_sched hP hs).bind fun _ =>
        ((plain_call_release _).text hP).bind fun _ => text_one (hl _)

theorem text_cur_task_running : Text P cur_task_running := by
  refine (plain_get_cur_task.text hP).bind fun t => ?_
  cases t with
  | none => exact text_pure _
  | some _ =>
    exact (plain_get_cur_task.text hP).bind fun _ => text_deref (hP _ rfl) fun _ =>
      (text_op hP rfl).bind fun _ => text_pure _

theorem text_switch_to (old new : CtxPtr) (hr : P (.ret old new)) : Text P (switch_to old new) :=
  (text_each (fun _ => text_op hP rfl) _).bind fun _ => (text_each (fun _ => text_op hP rfl) _).bind
    fun _ => text_one hr

end

end GQuuuuuunix.Proof
