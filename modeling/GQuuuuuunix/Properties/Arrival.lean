import GQuuuuuunix.Kernel.PowerOn
import GQuuuuuunix.Properties.Handover

/-! # How a hart comes to `kernel_main`

`start` is followed word by word up to its `mret`. A hart that the machine timer interrupts before
that is lost: neither the code it runs nor `mepc` leads to `kernel_main` any more. -/

namespace GQuuuuuunix.MachineMode
open Lib Kernel PowerOn
set_option autoImplicit false

variable {L : Layout} {timer_scratch : U64} {h : ℕ} {x x' x₀ : Hart} {tr : History Hart Event}

/-! ## What start sets up -/

/-- The words that `start` writes. -/
inductive Word where
  | csr (c : Csr)
  | tp | mscratch | mtimecmp
  | scratch (i : Fin 5)
  deriving DecidableEq

def Hart.word (x : Hart) : Word → U64
  | .csr c => x.csr c
  | .tp => x.regs .tp
  | .mscratch => x.timer.mscratch
  | .mtimecmp => x.timer.mtimecmp
  | .scratch i => x.timer.scratch i

/-- The words as hart `h` is handed over; `w₀` are those at reset, and `t` is the clock as
`init_timer` read it. -/
structure Prepared (timer_scratch : U64) (h : ℕ) (w₀ : Word → U64) (t : U64) (w : Word → U64) :
    Prop where
  tp : w .tp = BitVec.ofNat 64 h
  sie : Kernel.sie (w (.csr .mstatus)) = Kernel.sie (w₀ (.csr .mstatus))
  satp : w (.csr .satp) = 0
  medeleg : w (.csr .medeleg) = 0xffff
  mideleg : w (.csr .mideleg) = 0xffff
  csr_sie : w (.csr .sie) = w₀ (.csr .sie) ||| SIE_SEIE ||| SIE_STIE ||| SIE_SSIE
  csr_mie : w (.csr .mie) = w₀ (.csr .mie) ||| MIE_MTIE
  pmpaddr0 : w (.csr .pmpaddr0) = 0x3fffffffffffff
  pmpcfg0 : w (.csr .pmpcfg0) = 0xf
  mscratch : w .mscratch = timer_scratch + 40 * BitVec.ofNat 64 h
  mtimecmp_addr : w (.scratch 3) = CLINT_MTIMECMP (BitVec.ofNat 64 h)
  interval : w (.scratch 4) = 10000
  mtimecmp : w .mtimecmp = t + 10000

/-- What each instruction of `start` makes of the words and of the clock that was read. -/
def effect (timer_scratch : U64) (h : ℕ) (w₀ : Word → U64) :
    Rules Op Op.Ret ((Word → U64) × Option U64)
  | .csrr c, Q, (w, t) => Q (w (.csr c)) (w, t)
  | .csrw c v, Q, (w, t) => Q () (Function.update w (.csr c) v, t)
  | .w_mepc_kernel_main, Q, x => Q () x
  | .w_mtvec_timer_vec, Q, x => Q () x
  | .w_mscratch v, Q, (w, t) => Q () (Function.update w .mscratch v, t)
  | .w_tp v, Q, (w, t) => Q () (Function.update w .tp v, t)
  | .load_mtime, Q, (w, _) => ∀ t, Q t (w, some t)
  | .store_mtimecmp v, Q, (w, t) => Q () (Function.update w .mtimecmp v, t)
  | .store_scratch i v, Q, (w, t) => Q () (Function.update w (.scratch i) v, t)
  | .timer_vec, _, _ => False
  | .mret s, _, (w, t) => s = .start ∧ ∃ u, t = some u ∧
      Prepared timer_scratch h w₀ u
        (Function.update w (.csr .mstatus) (mret_mstatus (w (.csr .mstatus))))

/-- The code comes to the hand-over. -/
def Leads (timer_scratch : U64) (h : ℕ) (w₀ : Word → U64) (c : Code) (w : Word → U64)
    (t : Option U64) : Prop :=
  wp (effect timer_scratch h w₀) c (fun _ _ => False) (w, t)

theorem hart_cases (hh : h < MAX_CPU_NUMS) : h = 0 ∨ h = 1 ∨ h = 2 ∨ h = 3 := by
  unfold MAX_CPU_NUMS at hh
  omega

theorem hart_id (hh : h < MAX_CPU_NUMS) :
    BitVec.signExtend 64 (BitVec.setWidth 32 (BitVec.ofNat 64 h)) = BitVec.ofNat 64 h := by
  rcases hart_cases hh with rfl | rfl | rfl | rfl <;> rfl

/-- The supervisor's interrupts stay as they were. -/
theorem sie_start (y : U64) :
    Kernel.sie (mret_mstatus (y &&& ~~~MSTATUS_MPP_MASK ||| MSTATUS_MPP_S ||| MSTATUS_MIE)) =
      Kernel.sie y := by
  unfold mret_mstatus
  split <;> simp [Kernel.sie, MSTATUS_MPP_MASK, MSTATUS_MPP_S, MSTATUS_MIE, MSTATUS_MPIE]

theorem start_leads {w : Word → U64} (hm : w (.csr .mhartid) = BitVec.ofNat 64 h)
    (hh : h < MAX_CPU_NUMS) : Leads timer_scratch h w (start timer_scratch) w none := by
  intro t
  refine ⟨rfl, t, rfl, ?_⟩
  refine ⟨?_, ?_, rfl, rfl, rfl, rfl, rfl, rfl, rfl, ?_, ?_, rfl, rfl⟩
  · exact (congrArg (fun y : U64 => (y.setWidth 32).signExtend 64) hm).trans (hart_id hh)
  · exact sie_start _
  · exact congrArg (fun y : U64 => timer_scratch + 40 * y) hm
  · exact congrArg CLINT_MTIMECMP hm

/-! ## The words along a run -/

theorem word_csrw (c : Csr) (v : U64) (k : Unit → Code) :
    (x.exec (.csrw c v) k).word = Function.update x.word (.csr c) v := by
  funext w
  cases w with
  | csr c' =>
    by_cases hc : c' = c
    · subst hc
      simp [Hart.word, Hart.exec, Hart.setCsr]
    · simp [Hart.word, Hart.exec, Hart.setCsr, hc]
  | _ => rfl

theorem word_w_tp (v : U64) (k : Unit → Code) :
    (x.exec (.w_tp v) k).word = Function.update x.word .tp v := by
  funext w
  cases w <;> rfl

theorem word_w_mscratch (v : U64) (k : Unit → Code) :
    (x.exec (.w_mscratch v) k).word = Function.update x.word .mscratch v := by
  funext w
  cases w <;> rfl

theorem word_store_mtimecmp (v : U64) (k : Unit → Code) :
    (x.exec (.store_mtimecmp v) k).word = Function.update x.word .mtimecmp v := by
  funext w
  cases w <;> rfl

theorem word_mret :
    x.mret.word = Function.update x.word (.csr .mstatus) (mret_mstatus (x.csr .mstatus)) :=
  word_csrw (x := x) .mstatus _ fun _ => .pure ()

theorem word_scratch (i : Fin 5) (v : U64) (k : Unit → Code) :
    (x.exec (.store_scratch i v) k).word = Function.update x.word (.scratch i) v := by
  funext w
  cases w with
  | scratch j =>
    by_cases hj : j = i
    · subst hj
      simp [Hart.word, Hart.exec]
    · simp [Hart.word, Hart.exec, hj]
  | _ => rfl

/-- The latest clock that was read. -/
def readClock (tr : History Hart Event) : Option U64 := tr.findSome? clockRead

theorem clockRead_instr (x : Hart) :
    clockRead (x, .instr) = if x.next = some .load_mtime then some x.mtime else none := rfl

/-- An instruction of `start` before its `mret`. -/
theorem Leads.instr {w₀ : Word → U64} {o : Op} {k : o.Ret → Code}
    (hl : Leads timer_scratch h w₀ (.op o k) x.word (readClock tr)) (ho : ∀ s, o ≠ .mret s)
    (hpc : x.pc = .code (.op o k)) : ∃ c, (x.exec o k).pc = .code c ∧
      Leads timer_scratch h w₀ c (x.exec o k).word (readClock ((x, .instr) :: tr)) := by
  have hn : x.next = some o := by
    unfold Hart.next
    rw [hpc]
  have hold : o ≠ .load_mtime → readClock ((x, .instr) :: tr) = readClock tr := by
    intro ho
    have hnone : clockRead (x, .instr) = none := by
      rw [clockRead_instr, hn]
      exact if_neg fun hx => ho (Option.some.inj hx)
    unfold readClock
    rw [List.findSome?_cons, hnone]
  cases o with
  | load_mtime =>
    refine ⟨_, rfl, ?_⟩
    have hread : readClock ((x, .instr) :: tr) = some x.mtime := by
      unfold readClock
      rw [List.findSome?_cons, clockRead_instr, if_pos hn]
    rw [hread]
    exact hl x.mtime
  | mret s => exact absurd rfl (ho s)
  | timer_vec => exact hl.elim
  | csrr c =>
    rw [hold (by simp)]
    exact ⟨_, rfl, hl⟩
  | csrw c v =>
    rw [hold (by simp), word_csrw]
    exact ⟨_, rfl, hl⟩
  | store_scratch i v =>
    rw [hold (by simp), word_scratch]
    exact ⟨_, rfl, hl⟩
  | store_mtimecmp v =>
    rw [hold (by simp), word_store_mtimecmp]
    exact ⟨_, rfl, hl⟩
  | w_mscratch v =>
    rw [hold (by simp), word_w_mscratch]
    exact ⟨_, rfl, hl⟩
  | w_tp v =>
    rw [hold (by simp), word_w_tp]
    exact ⟨_, rfl, hl⟩
  | w_mepc_kernel_main =>
    rw [hold (by simp)]
    exact ⟨_, rfl, hl⟩
  | w_mtvec_timer_vec =>
    rw [hold (by simp)]
    exact ⟨_, rfl, hl⟩

/-! ## Harts that are lost -/

/-- The code of the window, or `timer_vec`. -/
inductive Pc.Tail : Pc → Prop where
  | start {c : Code} : Starts c .opened → Pc.Tail (.code c)
  | vec : Pc.Tail (.code timerVec)
  | vecEnd : Pc.Tail (.code (one (.mret .timer_vec)))

/-- Neither this code nor the one it returns to comes to `kernel_main`. -/
structure Hart.Lost (x : Hart) : Prop where
  mtvec : x.mtvec = true
  pc : x.pc.Tail
  mepc : x.mepc.Tail

theorem Hart.Lost.not_kernel (hx : x.Lost) : atKernel x = false := by
  have hpc := hx.pc
  unfold atKernel
  cases hc : x.pc with
  | kernel_main =>
    rw [hc] at hpc
    cases hpc
  | _ => rfl

theorem Hart.lost_trap (hmtvec : x.mtvec = true) (hpc : x.pc.Tail) : x.trap.Lost := by
  refine ⟨hmtvec, ?_, hpc⟩
  show Pc.Tail (if x.mtvec then .code timerVec else .unknown)
  rw [hmtvec]
  exact .vec

theorem Hart.Lost.instr {o : Op} {k : o.Ret → Code} (hx : x.Lost) (hpc : x.pc = .code (.op o k)) :
    (x.exec o k).Lost := by
  have htail := hx.pc
  generalize hp : x.pc = p at htail
  cases htail with
  | start hc =>
    cases hpc.symm.trans hp
    rcases hc.opened_cases with ho | rfl
    · obtain ⟨c, hc', hs⟩ := hc.plain (x := x) ho (fun h => absurd rfl h) fun h => absurd rfl h
      obtain ⟨_, hmepc, hmtvec, _⟩ := exec_plain (x := x) ho k
      exact ⟨hmtvec.trans hx.mtvec, by rw [hc']; exact .start hs, by rw [hmepc]; exact hx.mepc⟩
    · exact ⟨hx.mtvec, hx.mepc, hx.mepc⟩
  | vec =>
    cases hpc.symm.trans hp
    exact ⟨hx.mtvec, .vecEnd, hx.mepc⟩
  | vecEnd =>
    cases hpc.symm.trans hp
    exact ⟨hx.mtvec, hx.mepc, hx.mepc⟩

theorem Hart.Lost.step {e : Event} (hx : x.Lost) (hs : step x e = some x') : x'.Lost := by
  cases e with
  | time t =>
    cases hs
    exact ⟨hx.mtvec, hx.pc, hx.mepc⟩
  | interrupt =>
    simp only [MachineMode.step] at hs
    split at hs
    · cases hs
      exact Hart.lost_trap hx.mtvec hx.pc
    · cases hs
  | instr =>
    obtain ⟨o, k, hpc, _, rfl⟩ := step_instr hs
    exact hx.instr hpc

/-! ## Every hart that comes up -/

/-- The hart is handed over, made of `x₀`; `t` is the clock as `init_timer` read it. -/
structure Arrived (timer_scratch : U64) (h : ℕ) (x₀ : Hart) (t : U64) (x : Hart) : Prop where
  mode : x.mode = .supervisor
  regs : x.regs = Function.update x₀.regs .tp (BitVec.ofNat 64 h)
  ssip : x.ssip = x₀.ssip
  words : Prepared timer_scratch h x₀.word t x.word

/-- Where a hart is that has not been in `kernel_main` before. -/
inductive Rising (timer_scratch : U64) (h : ℕ) (x₀ : Hart) (tr : History Hart Event) (x : Hart) :
    Prop where
  | leads {c : Code} : ¬ Interrupted tr → x.mode = .machine → x.pc = .code c →
      x.regs = Function.update x₀.regs .tp (x.regs .tp) → x.ssip = x₀.ssip →
      Leads timer_scratch h x₀.word c x.word (readClock tr) → Rising timer_scratch h x₀ tr x
  | arrived {t : U64} : ¬ Interrupted tr → x.pc = .kernel_main → readClock tr = some t →
      Arrived timer_scratch h x₀ t x → Rising timer_scratch h x₀ tr x
  | lost : Interrupted tr → x.Lost → Rising timer_scratch h x₀ tr x

theorem atKernel_eq (hpc : x.pc = .kernel_main) : atKernel x = true := by
  unfold atKernel
  rw [hpc]

/-- Beside the words, `start` leaves the hart as it was. -/
theorem exec_rest {o : Op} {k : o.Ret → Code}
    (hr : x.regs = Function.update x₀.regs .tp (x.regs .tp)) (hs : x.ssip = x₀.ssip)
    (ho : o ≠ .timer_vec) :
    (x.exec o k).regs = Function.update x₀.regs .tp ((x.exec o k).regs .tp) ∧
      (x.exec o k).ssip = x₀.ssip := by
  cases o with
  | timer_vec => exact absurd rfl ho
  | w_tp v =>
    refine ⟨?_, hs⟩
    show Function.update x.regs .tp v =
      Function.update x₀.regs .tp (Function.update x.regs .tp v .tp)
    rw [Function.update_self, hr, Function.update_idem]
  | _ => exact ⟨hr, hs⟩

theorem exec_mode {o : Op} {k : o.Ret → Code} (ho : ∀ s, o ≠ .mret s) :
    (x.exec o k).mode = x.mode := by
  cases o with
  | mret s => exact absurd rfl (ho s)
  | _ => rfl

theorem Reached.hand_over {k : Unit → Code} (hR : Reached tr x) (hn : ¬ Interrupted tr)
    (hm : x.mode = .machine) (hpc : x.pc = .code (.op (.mret .start) k)) :
    mpp (x.csr .mstatus) = .supervisor ∧ x.mepc = .kernel_main := by
  cases hR with
  | closed _ hpc' hc hp =>
    cases hpc.symm.trans hpc'
    exact absurd hc.2 hp
  | intact _ _ _ _ hmpp hmepc => exact ⟨hmpp, hmepc⟩
  | clobbered _ _ _ _ _ hi => exact absurd hi hn
  | inside _ _ _ _ _ _ _ hi => exact absurd hi hn
  | handed hm' => exact absurd hm hm'
  | handedInside _ hv => rcases hv with hv | hv <;> cases hpc.symm.trans hv

theorem Rising.instr (hJ : Rising timer_scratch h x₀ tr x) (hR : Reached tr x)
    (hk : atKernel x = false) (hs : step x .instr = some x') :
    Rising timer_scratch h x₀ ((x, .instr) :: tr) x' := by
  have hi : Interrupted ((x, .instr) :: tr) ↔ Interrupted tr := interrupted_cons (by simp)
  cases hJ with
  | lost hn hx => exact .lost (hi.2 hn) (hx.step hs)
  | arrived _ hpc => exact absurd (atKernel_eq hpc) (by simp [hk])
  | leads hn hm hpc hregs hssip hl =>
    obtain ⟨o, k, hpc', _, rfl⟩ := step_instr hs
    cases hpc.symm.trans hpc'
    by_cases ho : ∃ s, o = .mret s
    · obtain ⟨s, rfl⟩ := ho
      obtain ⟨rfl, t, ht, hw⟩ := hl
      obtain ⟨hmpp, hmepc⟩ := hR.hand_over hn hm hpc
      have hword : x.mret.word = Function.update x.word (.csr .mstatus)
          (mret_mstatus (x.word (.csr .mstatus))) := word_mret
      have htp : x.regs .tp = BitVec.ofNat 64 h := hw.tp
      rw [← hword] at hw
      refine .arrived (mt hi.1 hn) hmepc ?_ ⟨hmpp, ?_, hssip, hw⟩
      · have hnone : clockRead (x, .instr) = none := by
          rw [clockRead_instr]
          unfold Hart.next
          rw [hpc]
          exact if_neg fun h => by cases h
        unfold readClock
        rw [List.findSome?_cons, hnone]
        exact ht
      · rw [← htp]
        exact hregs
    · have hmret : ∀ s, o ≠ .mret s := fun s hs => ho ⟨s, hs⟩
      have hvec : o ≠ .timer_vec := by
        rintro rfl
        exact hl.elim
      obtain ⟨hregs', hssip'⟩ := exec_rest (k := k) hregs hssip hvec
      obtain ⟨c, hc, hl'⟩ := hl.instr hmret hpc
      exact .leads (mt hi.1 hn) ((exec_mode hmret).trans hm) hc hregs' hssip' hl'

theorem Rising.interrupt (hJ : Rising timer_scratch h x₀ tr x) (hR : Reached tr x)
    (hk : atKernel x = false) (hs : step x .interrupt = some x') :
    Rising timer_scratch h x₀ ((x, .interrupt) :: tr) x' := by
  refine .lost interrupted_now ?_
  simp only [step] at hs
  split at hs
  · next he =>
    cases hs
    have he' : x.enabled = true := ((Bool.and_eq_true _ _).mp he).1
    cases hJ with
    | lost hn hx => exact Hart.lost_trap hx.mtvec hx.pc
    | arrived _ hpc => exact absurd (atKernel_eq hpc) (by simp [hk])
    | leads hn hm hpc hregs hssip hl =>
      cases hR with
      | closed hm _ _ _ hmie =>
        rw [not_enabled hm hmie] at he'
        cases he'
      | intact hm hpc hc hmtvec => exact Hart.lost_trap hmtvec (by rw [hpc]; exact .start hc)
      | clobbered _ _ _ _ _ hn' => exact absurd hn' hn
      | inside _ _ _ _ _ _ _ hn' => exact absurd hn' hn
      | handed hm' => exact absurd hm hm'
      | handedInside hm _ _ hmie =>
        rw [not_enabled hm hmie] at he'
        cases he'
  · cases hs

theorem Rising.time {t : U64} (hJ : Rising timer_scratch h x₀ tr x) (hk : atKernel x = false) :
    Rising timer_scratch h x₀ ((x, .time t) :: tr) { x with mtime := t } := by
  have hi : Interrupted ((x, .time t) :: tr) ↔ Interrupted tr := interrupted_cons (by simp)
  cases hJ with
  | lost hn hx => exact .lost (hi.2 hn) ⟨hx.mtvec, hx.pc, hx.mepc⟩
  | arrived _ hpc => exact absurd (atKernel_eq hpc) (by simp [hk])
  | leads hn hm hpc hregs hssip hl => exact .leads (mt hi.1 hn) hm hpc hregs hssip hl

theorem Rising.step {e : Event} (hJ : Rising timer_scratch h x₀ tr x) (hR : Reached tr x)
    (hk : atKernel x = false) (hs : step x e = some x') :
    Rising timer_scratch h x₀ ((x, e) :: tr) x' := by
  cases e with
  | instr => exact hJ.instr hR hk hs
  | interrupt => exact hJ.interrupt hR hk hs
  | time t =>
    cases hs
    exact hJ.time hk

/-- The runs from reset are those of the hart by itself. -/
theorem machine_run (hr : Run (hart L timer_scratch h) tr x) :
    Run (machine timer_scratch h) tr x := by
  induction hr with
  | init hx => exact .init hx.toReset
  | step _ hs ih => exact ih.step hs

theorem rising (hh : h < MAX_CPU_NUMS) (hr : Run (hart L timer_scratch h) tr x)
    (hk : ∀ y ∈ tr, atKernel y.1 = false) :
    ∃ x₀, PowerOn.Reset L timer_scratch h x₀ ∧ Rising timer_scratch h x₀ tr x := by
  induction hr with
  | @init x hx =>
    refine ⟨x, hx, .leads (fun ⟨_, hy, _⟩ => by cases hy) hx.mode hx.pc ?_ rfl
      (start_leads hx.mhartid hh)⟩
    exact (Function.update_eq_self _ _).symm
  | @step tr x x' e hr hs ih =>
    obtain ⟨hx, hk⟩ := List.forall_mem_cons.1 hk
    obtain ⟨x₀, h0, hJ⟩ := ih hk
    exact ⟨x₀, h0, hJ.step (reached (machine_run hr)) hx hs⟩

end GQuuuuuunix.MachineMode
