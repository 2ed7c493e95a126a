import GQuuuuuunix.Kernel.Machine

/-! # Machines that boot

`start.s` puts each hart at the end of its row of `kstack` before it goes to `kernel_main`. -/

namespace GQuuuuuunix.Kernel
open Lib
set_option autoImplicit false

/-- The linker keeps `kstack` out of `task_stack`. -/
def Layout.Apart (L : Layout) : Prop :=
  ∀ h < MAX_CPU_NUMS, ∀ j ≤ 256, rowOf L.task_stack
    (L.kstack + BitVec.ofNat 64 (STACK_SIZE * (h + 1)) - BitVec.ofNat 64 j) TASK_MAX_NRS = none

/-- `kstack + STACK_SIZE * (hartid + 1)`. -/
def Layout.startSp (L : Layout) (h : ℕ) : U64 := L.kstack + BitVec.ofNat 64 (STACK_SIZE * (h + 1))

/-- Hart `h` at the first instruction of `kernel_main`. -/
def Hart.start (cfg : Config) (h : ℕ) : Hart where
  regs := fun
    | .tp => BitVec.ofNat 64 h
    | .sp => cfg.layout.startSp h
    | _ => 0
  pc := 0
  mode := .supervisor
  sstatus := 0
  sepc := 0
  scause := 0
  ssip := false
  stvec := false
  timer := ⟨0, fun _ => 0, 0⟩
  calls := []
  code := kernel_main cfg.layout cfg.pids

def State.start (cfg : Config) : State where
  harts := Hart.start cfg
  resv := fun _ => none
  objResv := fun _ => none
  mem := Mem.zero
  objs := fun _ => 0
  parked := fun _ => none

theorem stackOf_startSp {L : Layout} (hL : L.Apart) {h : ℕ} (hh : h < MAX_CPU_NUMS) {j : ℕ}
    (hj : j ≤ 256) : L.stackOf (L.startSp h - BitVec.ofNat 64 j) = some (.hart h) := by
  have hrow : rowOf L.kstack (L.startSp h - BitVec.ofNat 64 j) MAX_CPU_NUMS = some h := by
    have hn : (L.startSp h - BitVec.ofNat 64 j - 1 - L.kstack).toNat = 4096 * h + (4095 - j) := by
      unfold Layout.startSp STACK_SIZE
      unfold MAX_CPU_NUMS at hh
      bv_omega
    have hr : (4096 * h + (4095 - j)) / 4096 = h := by omega
    simp only [rowOf, hn, STACK_SIZE, hr, if_pos hh]
  unfold Layout.stackOf
  rw [show rowOf L.task_stack (L.startSp h - BitVec.ofNat 64 j) TASK_MAX_NRS = none from
    hL h hh j hj, hrow]
  rfl

theorem State.start_booting (cfg : Config) (hL : cfg.layout.Apart) :
    (State.start cfg).Booting cfg := by
  refine ⟨fun h hh => ?_, rfl, fun _ => rfl, fun _ => rfl, fun _ => rfl⟩
  have hm : h < MAX_CPU_NUMS := Nat.lt_of_lt_of_le hh cfg.harts_le
  have hstk := fun (j : ℕ) (hj : j ≤ 256) => stackOf_startSp hL hm hj
  have h0 : cfg.layout.stackOf (cfg.layout.startSp h) = some (.hart h) := by
    have h := hstk 0 (Nat.zero_le _)
    rwa [show BitVec.ofNat 64 0 = 0#64 from rfl, BitVec.sub_zero] at h
  refine ⟨rfl, rfl, h0, fun j hj => ?_, rfl, ?_, rfl, rfl, rfl⟩
  · refine (hstk j ?_).trans h0.symm
    have := List.mem_range.1 hj
    omega
  · show sie 0 = false
    decide

/-! ## One layout -/

/-- `kstack` at the start of memory, the tasks' stacks after it. -/
def Layout.sample : Layout where
  task_stack := 0x80304000
  kstack := 0x80300000
  dummy_task := 0x80000800
  switch_ret
    | .sched => 0x80001000
    | .scheduler => 0x80001100
  switch_ret_ne := by
    intro s
    cases s <;> decide

theorem Layout.sample_apart : Layout.sample.Apart := by
  intro h hh j hj
  unfold rowOf
  refine if_neg ?_
  simp only [Layout.sample, STACK_SIZE, TASK_MAX_NRS, MAX_CPU_NUMS] at hh ⊢
  have hn : 64 * 4096 ≤ (0x80300000#64 + BitVec.ofNat 64 (4096 * (h + 1)) - BitVec.ofNat 64 j -
      1 - 0x80304000#64).toNat := by bv_omega
  exact Nat.not_lt.2 ((Nat.le_div_iff_mul_le (by decide)).2 hn)

theorem one_le_max : 1 ≤ MAX_CPU_NUMS := by decide

/-- A machine with `n` harts that adds two tasks. -/
def Config.sample (n : ℕ) (hpos : 0 < n) (hle : n ≤ MAX_CPU_NUMS) : Config where
  layout := .sample
  harts := n
  pids := [0, 1]
  harts_pos := hpos
  harts_le := hle
  pids_le := by decide

/-- What a list of events makes of a machine that boots is reached by a run. -/
theorem Run.of_start (cfg : Config) (hL : cfg.layout.Apart) (es : List Event)
    (P : History State Event × State → Bool)
    (h : (perform (kernel cfg) es ([], State.start cfg)).any P = true) :
    ∃ tr σ, Run (kernel cfg) tr σ ∧ P (tr, σ) = true :=
  Run.of_perform (M := kernel cfg) (State.start_booting cfg hL) _ h

/-- Hart 1 comes to the barrier, and hart 0 boots and preempts the first task. -/
def firstPreempted : List Event :=
  List.replicate 5 (.hart 1 false) ++ List.replicate 585 (.hart 0 false) ++
    .timer 0 :: List.replicate 222 (.hart 0 false)

end GQuuuuuunix.Kernel
