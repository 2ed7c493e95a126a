import GQuuuuuunix.Proof.Text

/-! # The text of the handler and of the scheduler

What the kernel does on its own account: neither a call on an atomic object nor the way back to an
interrupted program. -/

namespace GQuuuuuunix.Proof
open Lib Kernel
set_option autoImplicit false

/-- The operations that are not a program's own: not those of `dummy_task`, of calls on atomic
objects, or the `sret` that goes back to a program. -/
def Op.ofKernel : Op → Bool
  | .sret _ | .atomic _ | .enter (.atomic _) | .leave (.atomic _) _ | .point (.returned _)
  | .loop (.atomic_store _ _ _) | .loop (.cmp_xchg _ _ _ _) | .loop .dummy_task => false
  | _ => true

theorem ofKernel_plain (o : Op) (ho : Op.special o = false) : Op.ofKernel o = true := by
  unfold Op.ofKernel
  split <;> first | rfl | cases ho

section
variable {α : Type} {P : Op → Prop} (hP : ∀ o, Op.ofKernel o = true → P o)
include hP

theorem Plain.kernel {p : KProg α} (hp : Plain p) : Text P p :=
  hp.text fun o ho => hP o (ofKernel_plain o ho)

theorem text_kernel {o : Op} (ho : Op.ofKernel o = true) : Text P (one o) := text_one (hP o ho)

theorem text_acknowledge : Text P (do
    let x ← r_sip
    w_sip (x &&& ~~~2)) := (text_kernel hP rfl).bind fun _ => text_kernel hP rfl

theorem text_software_interrupt : Text P software_interrupt := by
  have hplain : ∀ o, Op.special o = false → P o := fun o ho => hP o (ofKernel_plain o ho)
  have hrest : Text P (do
      if ← cur_task_running then
        let data ← load .time_data
        let bit ← load .time_mantissa_bit
        let fraction_decimal := get_time_decimal data bit
        let data ← load .time_data
        let bit ← load .time_mantissa_bit
        printf (.tick (data >>> bit.toNat) fraction_decimal)
        yield
      let x ← r_sip
      w_sip (x &&& ~~~2)) := by
    refine (text_cur_task_running hplain).bind fun running => text_ite ?_ (text_acknowledge hP)
    exact (text_kernel hP rfl).bind fun _ => (text_kernel hP rfl).bind fun _ =>
      (text_kernel hP rfl).bind fun _ => (text_kernel hP rfl).bind fun _ =>
        (text_kernel hP rfl).bind fun _ => (text_yield hplain (fun _ _ => hP _ rfl) (hP _ rfl)
          fun _ => hP _ rfl).bind fun _ => text_acknowledge hP
  refine (text_kernel hP rfl).bind fun _ => (text_kernel hP rfl).bind fun _ => text_ite ?_ hrest
  exact (text_kernel hP rfl).bind fun _ => (text_kernel hP rfl).bind fun _ =>
    (text_kernel hP rfl).bind fun _ => (text_kernel hP rfl).bind fun _ => hrest

theorem text_kernel_trap_handler : Text P kernel_trap_handler := by
  have hend : ∀ sepc sstatus : U64, Text P (do
      w_sepc sepc
      w_sstatus sstatus) := fun _ _ => (text_kernel hP rfl).bind fun _ => text_kernel hP rfl
  have hcase : ∀ sepc sstatus scause : U64, Text P (do
      if scause = 0x8000000000000001 then
        software_interrupt
      w_sepc sepc
      w_sstatus sstatus) := fun _ _ _ =>
    text_ite ((text_software_interrupt hP).bind fun _ => hend _ _) (hend _ _)
  have hintr : ∀ sepc sstatus scause : U64, Text P (do
      if (← intr_get) ≠ 0 then
        PANIC .trap_intr_on
      if scause = 0x8000000000000001 then
        software_interrupt
      w_sepc sepc
      w_sstatus sstatus) := fun _ _ _ => (plain_intr_get.kernel hP).bind fun _ =>
    text_ite ((text_kernel hP rfl).bind fun _ => hcase _ _ _) (hcase _ _ _)
  exact (text_kernel hP rfl).bind fun _ => (text_kernel hP rfl).bind fun _ =>
    (text_kernel hP rfl).bind fun _ =>
      text_ite ((text_kernel hP rfl).bind fun _ => hintr _ _ _) (hintr _ _ _)

/-- `kernelvec` up to its `sret`. -/
theorem text_kernelvec {s : Snapshot} (hs : P (.sret s)) : Text P (kernelvec s) :=
  (text_kernel hP rfl).bind fun _ => (text_each (fun _ => text_kernel hP rfl) _).bind fun _ =>
    (text_kernel hP rfl).bind fun _ => (text_kernel_trap_handler hP).bind fun _ =>
      (text_kernel hP rfl).bind fun _ => (text_each (fun _ => text_kernel hP rfl) _).bind fun _ =>
        (text_kernel hP rfl).bind fun _ => text_one hs

theorem text_scan_body (c : ℕ) (i : Fin TASK_MAX_NRS) : Text P (scan_body c i) := by
  refine ((plain_call_acquire _).kernel hP).bind fun _ => (text_kernel hP rfl).bind fun _ =>
    text_ite ?_ ((plain_call_release _).kernel hP)
  exact (text_kernel hP rfl).bind fun _ => (text_kernel hP rfl).bind fun _ =>
    (text_kernel hP rfl).bind fun _ => (text_kernel hP rfl).bind fun _ =>
      (text_kernel hP rfl).bind fun _ => (plain_afterSwitch c i).kernel hP

/-- A round of a loop of the kernel. -/
theorem text_round {l : Loop} (hl : Op.ofKernel (.loop l) = true) : Text P l.round := by
  cases l with
  | test_set lk => exact (plain_test_set_round lk).kernel hP
  | store c x => exact (plain_store_round c x).kernel hP
  | barrier => exact plain_barrier_round.kernel hP
  | scheduler c => exact (plain_scheduler_round c).kernel hP
  | scan c t =>
    show Text P (scan_round c t)
    unfold scan_round
    split
    · exact (text_scan_body hP c _).bind fun _ => text_kernel hP rfl
    · exact text_pure _
  | _ => cases hl

end

end GQuuuuuunix.Proof
