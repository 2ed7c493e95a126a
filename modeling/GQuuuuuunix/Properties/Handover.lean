import GQuuuuuunix.Kernel.MachineMode

/-! # From `start` to `kernel_main`

`start` writes `mepc` and MPP early and reads them in its last instruction. Between the end of
`init_timer` and that instruction the machine timer may interrupt, and writes both. -/

namespace GQuuuuuunix.MachineMode
open Lib Kernel
set_option autoImplicit false

variable {timer_scratch : U64} {h : ℕ} {x x' : Hart} {tr : History Hart Event} {e : Event}

/-! ## The bits of `mstatus` -/

theorem mpp_eq {a b : U64} (h11 : a.getLsbD 11 = b.getLsbD 11) (h12 : a.getLsbD 12 = b.getLsbD 12) :
    mpp a = mpp b := by
  unfold mpp
  rw [h11, h12]

/-- MPP is set to supervisor mode. -/
theorem mpp_set (y : U64) : mpp (y &&& ~~~MSTATUS_MPP_MASK ||| MSTATUS_MPP_S) = .supervisor := by
  have h11 : (y &&& ~~~MSTATUS_MPP_MASK ||| MSTATUS_MPP_S).getLsbD 11 = true := by
    simp [MSTATUS_MPP_MASK, MSTATUS_MPP_S]
  have h12 : (y &&& ~~~MSTATUS_MPP_MASK ||| MSTATUS_MPP_S).getLsbD 12 = false := by
    simp [MSTATUS_MPP_MASK, MSTATUS_MPP_S]
  unfold mpp
  rw [h11, h12]
  rfl

theorem mie_set (y : U64) : mie (y &&& ~~~MSTATUS_MPP_MASK ||| MSTATUS_MPP_S) = mie y := by
  simp [mie, MSTATUS_MPP_MASK, MSTATUS_MPP_S]

theorem mpp_or_MIE (y : U64) : mpp (y ||| MSTATUS_MIE) = mpp y := by
  apply mpp_eq <;> simp [MSTATUS_MIE]

theorem mpp_trap (y : U64) (m : Mode) : mpp (trap_mstatus y m) = m := by
  unfold trap_mstatus
  cases m <;> simp [mpp, Mode.mpp, MSTATUS_MPP_MASK, MSTATUS_MPP_S]

theorem mie_trap (y : U64) (m : Mode) : mie (trap_mstatus y m) = false := by
  unfold trap_mstatus
  cases m <;> simp [mie, Mode.mpp, MSTATUS_MPP_MASK, MSTATUS_MPP_S, MSTATUS_MIE]

theorem mpp_mret (y : U64) : mpp (mret_mstatus y) = .user := by
  unfold mret_mstatus
  simp [mpp, MSTATUS_MPP_MASK]

/-! ## How far `start` is -/

/-- Before MPP is written, before `mepc` is, before `mtvec` is, before MIE is, and after. -/
inductive Stage where
  | fresh | mpp_set | mepc_set | mtvec_set | opened
  deriving DecidableEq

/-- What the instructions of `start` ask of the stage, and make of it. -/
def rules : Rules Op Op.Ret Stage
  | .csrr .mstatus, Q, p => (p = .fresh ∨ p = .mtvec_set) ∧
      ∀ y, mie y = false → (p ≠ .fresh → mpp y = .supervisor) → Q y p
  | .csrw .mstatus y, Q, p => mpp y = .supervisor ∧
      ((p = .fresh ∧ mie y = false ∧ Q () .mpp_set) ∨ (p = .mtvec_set ∧ Q () .opened))
  | .w_mepc_kernel_main, Q, p => p = .mpp_set ∧ Q () .mepc_set
  | .w_mtvec_timer_vec, Q, p => p = .mepc_set ∧ Q () .mtvec_set
  | .mret s, _, p => s = .start ∧ p = .opened
  | .timer_vec, _, _ => False
  | _, Q, p => ∀ r, Q r p

/-- `start` ends in its `mret`. -/
def Starts (c : Code) (p : Stage) : Prop := wp rules c (fun _ _ => False) p

theorem starts (timer_scratch : U64) : Starts (start timer_scratch) .fresh := by
  refine ⟨Or.inl rfl, fun y hy _ => ⟨mpp_set y, Or.inl ⟨rfl, (mie_set y).trans hy, rfl, ?_⟩⟩⟩
  intro _ _ _ sie _ _ _ hart_id now _ _ _ _
  refine ⟨rfl, Or.inr rfl, fun y _ hm => ⟨?_, Or.inr ⟨rfl, ?_⟩⟩⟩
  · exact (mpp_or_MIE y).trans (hm (fun h => by cases h))
  · intro mie _ hartid _
    exact ⟨rfl, rfl⟩

/-! ## What a run reaches -/

/-- The hart runs `timer_vec`. -/
def Hart.inVec (x : Hart) : Prop := x.pc = .code timerVec ∨ x.pc = .code (one (.mret .timer_vec))

/-- The machine timer interrupted the hart. -/
def Interrupted (tr : History Hart Event) : Prop := ∃ y ∈ tr, y.2 = .interrupt

inductive Reached (tr : History Hart Event) (x : Hart) : Prop where
  | closed {c : Code} {p : Stage} : x.mode = .machine → x.pc = .code c → Starts c p →
      p ≠ .opened → mie (x.csr .mstatus) = false →
      (p ≠ .fresh → mpp (x.csr .mstatus) = .supervisor) →
      (p = .mepc_set ∨ p = .mtvec_set → x.mepc = .kernel_main) →
      (p = .mtvec_set → x.mtvec = true) → ¬ Interrupted tr → Reached tr x
  | intact {c : Code} : x.mode = .machine → x.pc = .code c → Starts c .opened → x.mtvec = true →
      mpp (x.csr .mstatus) = .supervisor → x.mepc = .kernel_main → ¬ Interrupted tr → Reached tr x
  | clobbered {c : Code} : x.mode = .machine → x.pc = .code c → Starts c .opened → x.mtvec = true →
      mpp (x.csr .mstatus) = .user → Interrupted tr → Reached tr x
  | inside {c : Code} : x.mode = .machine → x.inVec → x.mtvec = true →
      mie (x.csr .mstatus) = false → mpp (x.csr .mstatus) = .machine → x.mepc = .code c →
      Starts c .opened → Interrupted tr → Reached tr x
  | handed : x.mode ≠ .machine → x.mtvec = true → Reached tr x
  | handedInside : x.mode = .machine → x.inVec → x.mtvec = true →
      mie (x.csr .mstatus) = false → mpp (x.csr .mstatus) ≠ .machine → Reached tr x

theorem interrupted_cons {y : Hart × Event} (hy : y.2 ≠ .interrupt) :
    Interrupted (y :: tr) ↔ Interrupted tr := by
  unfold Interrupted
  rw [List.exists_mem_cons_iff]
  exact or_iff_right hy

theorem interrupted_now : Interrupted ((x, .interrupt) :: tr) :=
  ⟨_, List.mem_cons_self .., rfl⟩

/-! ## One step -/

/-- The clock may go on at any time. -/
theorem Reached.time {t : U64} (hJ : Reached tr x) :
    Reached ((x, .time t) :: tr) { x with mtime := t } := by
  have hi : Interrupted ((x, .time t) :: tr) ↔ Interrupted tr := interrupted_cons (by simp)
  cases hJ with
  | closed hm hpc hc hp hmie hmpp hmepc hmtvec hn =>
    exact .closed hm hpc hc hp hmie hmpp hmepc hmtvec (mt hi.1 hn)
  | intact hm hpc hc hmtvec hmpp hmepc hn =>
    exact .intact hm hpc hc hmtvec hmpp hmepc (mt hi.1 hn)
  | clobbered hm hpc hc hmtvec hmpp hn => exact .clobbered hm hpc hc hmtvec hmpp (hi.2 hn)
  | inside hm hv hmtvec hmie hmpp hmepc hc hn =>
    exact .inside hm hv hmtvec hmie hmpp hmepc hc (hi.2 hn)
  | handed hm hmtvec => exact .handed hm hmtvec
  | handedInside hm hv hmtvec hmie hmpp => exact .handedInside hm hv hmtvec hmie hmpp

theorem not_enabled (hm : x.mode = .machine) (hmie : mie (x.csr .mstatus) = false) :
    x.enabled = false := by
  simp [Hart.enabled, hm, hmie]

/-- A trap into `timer_vec`. -/
theorem trap_spec (hmtvec : x.mtvec = true) :
    x.trap.mode = .machine ∧ x.trap.inVec ∧ x.trap.mtvec = true ∧
      mie (x.trap.csr .mstatus) = false ∧ mpp (x.trap.csr .mstatus) = x.mode ∧
      x.trap.mepc = x.pc := by
  have hcsr : x.trap.csr .mstatus = trap_mstatus (x.csr .mstatus) x.mode := rfl
  refine ⟨rfl, Or.inl ?_, hmtvec, ?_, ?_, rfl⟩
  · show (if x.mtvec then Pc.code timerVec else .unknown) = _
    rw [hmtvec]
    rfl
  · rw [hcsr]
    exact mie_trap _ _
  · rw [hcsr]
    exact mpp_trap _ _

theorem Reached.interrupt (hJ : Reached tr x) (he : x.enabled = true) :
    Reached ((x, .interrupt) :: tr) x.trap := by
  have hclosed : x.mode = .machine → mie (x.csr .mstatus) = false →
      Reached ((x, .interrupt) :: tr) x.trap := by
    intro hm hmie
    rw [not_enabled hm hmie] at he
    cases he
  have hopened : ∀ c, x.mode = .machine → x.pc = .code c → Starts c .opened → x.mtvec = true →
      Reached ((x, .interrupt) :: tr) x.trap := by
    intro c hm hpc hc hmtvec
    obtain ⟨hm', hv, hmtvec', hmie, hmpp, hmepc⟩ := trap_spec hmtvec
    exact .inside hm' hv hmtvec' hmie (hmpp.trans hm) (hmepc.trans hpc) hc interrupted_now
  cases hJ with
  | closed hm _ _ _ hmie => exact hclosed hm hmie
  | intact hm hpc hc hmtvec => exact hopened _ hm hpc hc hmtvec
  | clobbered hm hpc hc hmtvec => exact hopened _ hm hpc hc hmtvec
  | inside hm _ _ hmie => exact hclosed hm hmie
  | handed hm hmtvec =>
    obtain ⟨hm', hv, hmtvec', hmie, hmpp, _⟩ := trap_spec hmtvec
    exact .handedInside hm' hv hmtvec' hmie (by rwa [hmpp])
  | handedInside hm _ _ hmie => exact hclosed hm hmie

/-- The instructions that leave alone what the hand-over needs. -/
def Op.plain : Op → Bool
  | .csrw .mstatus _ | .w_mepc_kernel_main | .w_mtvec_timer_vec | .mret _ => false
  | _ => true

theorem exec_plain {o : Op} (ho : o.plain = true) (k : o.Ret → Code) :
    (x.exec o k).mode = x.mode ∧ (x.exec o k).mepc = x.mepc ∧ (x.exec o k).mtvec = x.mtvec ∧
      (x.exec o k).csr .mstatus = x.csr .mstatus := by
  cases o with
  | csrw c v =>
    refine ⟨rfl, rfl, rfl, ?_⟩
    cases c with
    | mstatus => cases ho
    | _ => rfl
  | w_mepc_kernel_main => cases ho
  | w_mtvec_timer_vec => cases ho
  | mret s => cases ho
  | _ => exact ⟨rfl, rfl, rfl, rfl⟩

/-- A plain instruction of `start`. -/
theorem Starts.plain {o : Op} {k : o.Ret → Code} {p : Stage} (hc : Starts (.op o k) p)
    (ho : o.plain = true) (hmie : p ≠ .opened → mie (x.csr .mstatus) = false)
    (hmpp : p ≠ .opened → p ≠ .fresh → mpp (x.csr .mstatus) = .supervisor) :
    ∃ c, (x.exec o k).pc = .code c ∧ Starts c p := by
  cases o with
  | csrr c =>
    refine ⟨_, rfl, ?_⟩
    cases c with
    | mstatus =>
      obtain ⟨hp, hk⟩ := hc
      have hne : p ≠ .opened := by rcases hp with rfl | rfl <;> simp
      exact hk _ (hmie hne) (hmpp hne)
    | _ => exact hc _
  | csrw c v =>
    refine ⟨_, rfl, ?_⟩
    cases c with
    | mstatus => cases ho
    | _ => exact hc ()
  | w_mepc_kernel_main => cases ho
  | w_mtvec_timer_vec => cases ho
  | timer_vec => exact hc.elim
  | mret s => cases ho
  | load_mtime => exact ⟨_, rfl, hc _⟩
  | _ => exact ⟨_, rfl, hc ()⟩

theorem step_instr {x' : Hart} (hs : step x .instr = some x') :
    ∃ o k, x.pc = .code (.op o k) ∧ (o.privileged = true → x.mode = .machine) ∧
      x' = x.exec o k := by
  simp only [step] at hs
  split at hs
  · next o k hpc =>
    split at hs
    · cases hs
    · next hn =>
      cases hs
      refine ⟨o, k, hpc, fun hp => by_contra fun hm => hn ?_, rfl⟩
      simp [hp, hm]
  · cases hs

/-- An instruction of `start` before the window opens. -/
theorem Reached.closed_instr {o : Op} {k : o.Ret → Code} {p : Stage} (hm : x.mode = .machine)
    (hc : Starts (.op o k) p) (hp : p ≠ .opened) (hmie : mie (x.csr .mstatus) = false)
    (hmpp : p ≠ .fresh → mpp (x.csr .mstatus) = .supervisor)
    (hmepc : p = .mepc_set ∨ p = .mtvec_set → x.mepc = .kernel_main)
    (hmtvec : p = .mtvec_set → x.mtvec = true) (hn : ¬ Interrupted ((x, .instr) :: tr)) :
    Reached ((x, .instr) :: tr) (x.exec o k) := by
  by_cases ho : o.plain = true
  · obtain ⟨c, hpc, hc'⟩ := hc.plain ho (fun _ => hmie) fun _ => hmpp
    obtain ⟨hm', hmepc', hmtvec', hcsr⟩ := exec_plain (x := x) ho k
    exact .closed (hm'.trans hm) hpc hc' hp (by rwa [hcsr]) (by rwa [hcsr])
      (by rwa [hmepc']) (by rwa [hmtvec']) hn
  cases o with
  | csrw c y =>
    cases c with
    | mstatus =>
      obtain ⟨hy, ⟨rfl, hmie', hc'⟩ | ⟨rfl, hc'⟩⟩ := hc
      · exact .closed hm rfl hc' (by simp) hmie' (fun _ => hy)
          (fun h => by rcases h with h | h <;> cases h) (fun h => by cases h) hn
      · exact .intact hm rfl hc' (hmtvec rfl) hy (hmepc (Or.inr rfl)) hn
    | _ => exact absurd rfl ho
  | w_mepc_kernel_main =>
    obtain ⟨rfl, hc'⟩ := hc
    exact .closed hm rfl hc' (by simp) hmie (fun _ => hmpp (by simp)) (fun _ => rfl)
      (fun h => by cases h) hn
  | w_mtvec_timer_vec =>
    obtain ⟨rfl, hc'⟩ := hc
    exact .closed hm rfl hc' (by simp) hmie (fun _ => hmpp (by simp))
      (fun _ => hmepc (Or.inl rfl)) (fun _ => rfl) hn
  | mret s => exact absurd hc.2 hp
  | _ => exact absurd rfl ho

/-- An instruction of `start` in the window: one more before the last, or the last. -/
theorem Starts.opened_cases {o : Op} {k : o.Ret → Code} (hc : Starts (.op o k) .opened) :
    o.plain = true ∨ o = .mret .start := by
  cases o with
  | csrw c y =>
    cases c with
    | mstatus =>
      obtain ⟨_, ⟨h, _⟩ | ⟨h, _⟩⟩ := hc <;> cases h
    | _ => exact Or.inl rfl
  | w_mepc_kernel_main => cases hc.1
  | w_mtvec_timer_vec => cases hc.1
  | mret s =>
    obtain ⟨rfl, _⟩ := hc
    exact Or.inr rfl
  | _ => exact Or.inl rfl

/-- `timer_vec` goes on, or returns. -/
theorem inVec_instr {o : Op} {k : o.Ret → Code} (hv : x.inVec) (hpc : x.pc = .code (.op o k)) :
    (o.plain = true ∧ (x.exec o k).inVec) ∨ (o = .mret .timer_vec ∧ x.exec o k = x.mret) := by
  rcases hv with hv | hv
  · cases hpc.symm.trans hv
    exact Or.inl ⟨rfl, Or.inr rfl⟩
  · cases hpc.symm.trans hv
    exact Or.inr ⟨rfl, rfl⟩

theorem Reached.instr (hJ : Reached tr x) (hs : step x .instr = some x') :
    Reached ((x, .instr) :: tr) x' := by
  have hi : Interrupted ((x, .instr) :: tr) ↔ Interrupted tr := interrupted_cons (by simp)
  obtain ⟨o, k, hpc, hpriv, rfl⟩ := step_instr hs
  have hmret : mpp ((x.mret).csr .mstatus) = .user := mpp_mret _
  cases hJ with
  | closed hm hpc' hc hp hmie hmpp hmepc hmtvec hn =>
    cases hpc.symm.trans hpc'
    exact closed_instr hm hc hp hmie hmpp hmepc hmtvec (mt hi.1 hn)
  | intact hm hpc' hc hmtvec hmpp hmepc hn =>
    cases hpc.symm.trans hpc'
    rcases hc.opened_cases with ho | rfl
    · obtain ⟨c, hpc', hc'⟩ := hc.plain ho (fun h => absurd rfl h) fun h => absurd rfl h
      obtain ⟨hm', hmepc', hmtvec', hcsr⟩ := exec_plain (x := x) ho k
      exact .intact (hm'.trans hm) hpc' hc' (by rwa [hmtvec']) (by rwa [hcsr]) (by rwa [hmepc'])
        (mt hi.1 hn)
    · refine .handed ?_ hmtvec
      show mpp (x.csr .mstatus) ≠ _
      rw [hmpp]
      simp
  | clobbered hm hpc' hc hmtvec hmpp hn =>
    cases hpc.symm.trans hpc'
    rcases hc.opened_cases with ho | rfl
    · obtain ⟨c, hpc', hc'⟩ := hc.plain ho (fun h => absurd rfl h) fun h => absurd rfl h
      obtain ⟨hm', _, hmtvec', hcsr⟩ := exec_plain (x := x) ho k
      exact .clobbered (hm'.trans hm) hpc' hc' (by rwa [hmtvec']) (by rwa [hcsr]) (hi.2 hn)
    · refine .handed ?_ hmtvec
      show mpp (x.csr .mstatus) ≠ _
      rw [hmpp]
      simp
  | inside hm hv hmtvec hmie hmpp hmepc hc hn =>
    rcases inVec_instr hv hpc with ⟨ho, hv'⟩ | ⟨rfl, hx⟩
    · obtain ⟨hm', hmepc', hmtvec', hcsr⟩ := exec_plain (x := x) ho k
      exact .inside (hm'.trans hm) hv' (by rwa [hmtvec']) (by rwa [hcsr]) (by rwa [hcsr])
        (hmepc'.trans hmepc) hc (hi.2 hn)
    · exact .clobbered hmpp hmepc hc hmtvec hmret (hi.2 hn)
  | handed hm hmtvec =>
    have ho : o.plain = true := by
      cases o with
      | csrw c y => exact absurd (hpriv rfl) hm
      | w_mepc_kernel_main => exact absurd (hpriv rfl) hm
      | w_mtvec_timer_vec => exact absurd (hpriv rfl) hm
      | mret s => exact absurd (hpriv rfl) hm
      | _ => rfl
    obtain ⟨hm', _, hmtvec', _⟩ := exec_plain (x := x) ho k
    exact .handed (by rwa [hm']) (by rwa [hmtvec'])
  | handedInside hm hv hmtvec hmie hmpp =>
    rcases inVec_instr hv hpc with ⟨ho, hv'⟩ | ⟨rfl, hx⟩
    · obtain ⟨hm', _, hmtvec', hcsr⟩ := exec_plain (x := x) ho k
      exact .handedInside (hm'.trans hm) hv' (by rwa [hmtvec']) (by rwa [hcsr]) (by rwa [hcsr])
    · exact .handed hmpp hmtvec

theorem reached (hr : Run (machine timer_scratch h) tr x) : Reached tr x := by
  refine Run.invariant Reached (fun x hi => ?_) (fun tr x e x' _ hJ hs => ?_) hr
  · exact .closed hi.mode hi.pc (starts timer_scratch) (by simp) hi.mie (fun h => absurd rfl h)
      (fun h => by rcases h with h | h <;> cases h) (fun h => by cases h)
      fun ⟨_, hy, _⟩ => by cases hy
  · change step x e = some x' at hs
    cases e with
    | instr => exact hJ.instr hs
    | interrupt =>
      simp only [step] at hs
      split at hs
      · next he =>
        cases hs
        exact hJ.interrupt ((Bool.and_eq_true _ _).mp he).1
      · cases hs
    | time t =>
      cases hs
      exact hJ.time

end GQuuuuuunix.MachineMode

namespace GQuuuuuunix.Properties
open Lib Kernel
set_option autoImplicit false

variable {timer_scratch : U64} {h : ℕ} {x x' : MachineMode.Hart}
  {tr : History MachineMode.Hart MachineMode.Event}

/-- The last instruction of `start` goes to `kernel_main` in supervisor mode if and only if the
machine timer has not interrupted the hart before it. -/
theorem handover_iff (hr : Run (MachineMode.machine timer_scratch h) ((x, .instr) :: tr) x')
    (hn : x.next = some (.mret .start)) :
    (x'.pc = .kernel_main ∧ x'.mode = .supervisor) ↔ ∀ y ∈ tr, y.2 ≠ .interrupt := by
  have hI : (∀ y ∈ tr, y.2 ≠ .interrupt) ↔ ¬ MachineMode.Interrupted tr :=
    ⟨fun h ⟨y, hy, he⟩ => h y hy he, fun h y hy he => h ⟨y, hy, he⟩⟩
  rw [hI]
  have hreached : MachineMode.Reached tr x := by
    cases hr with
    | step hr _ => exact MachineMode.reached hr
  obtain ⟨o, k, hpc, hpriv, rfl⟩ := MachineMode.step_instr hr.next
  obtain rfl : o = .mret .start := by
    unfold MachineMode.Hart.next at hn
    rw [hpc] at hn
    exact Option.some.inj hn
  have hnot : ¬ x.inVec := by
    rintro (hv | hv) <;> cases hpc.symm.trans hv
  show x.mepc = .kernel_main ∧ MachineMode.mpp (x.csr .mstatus) = .supervisor ↔ _
  cases hreached with
  | closed hm hpc' hc hp =>
    cases hpc.symm.trans hpc'
    exact absurd hc.2 hp
  | intact _ _ _ _ hmpp hmepc hn => exact ⟨fun _ => hn, fun _ => ⟨hmepc, hmpp⟩⟩
  | clobbered _ _ _ _ hmpp hn =>
    refine ⟨fun ⟨_, hs⟩ => ?_, fun hno => absurd hn hno⟩
    rw [hmpp] at hs
    cases hs
  | inside _ hv => exact absurd hv hnot
  | handed hm => exact absurd (hpriv rfl) hm
  | handedInside _ hv => exact absurd hv hnot

/-! ## With and without an interrupt -/

/-- What a list of events ends in, when the last of them is the `mret` of `start`. -/
theorem run_to_mret (es : List MachineMode.Event)
    (P : MachineMode.Hart → History MachineMode.Hart MachineMode.Event → MachineMode.Hart → Bool)
    (h : (perform (MachineMode.machine 0 0) es ([], .atReset 0 0)).any (fun y =>
      match y.1 with
      | (x, .instr) :: tr => decide (x.next = some (.mret .start)) && P x tr y.2
      | _ => false) = true) :
    ∃ x tr x', Run (MachineMode.machine 0 0) ((x, .instr) :: tr) x' ∧
      x.next = some (.mret .start) ∧ P x tr x' = true := by
  obtain ⟨tr, x', hr, hp⟩ := Run.of_perform (M := MachineMode.machine 0 0)
    (MachineMode.Hart.atReset_reset 0 0) es h
  dsimp only at hp
  split at hp
  · next x tr =>
    obtain ⟨hn, hP⟩ := (Bool.and_eq_true _ _).mp hp
    exact ⟨x, tr, x', hr, of_decide_eq_true hn, hP⟩
  · cases hp

/-- The timer is late. -/
theorem handover_uninterrupted : ∃ x tr x', Run (MachineMode.machine 0 0) ((x, .instr) :: tr) x' ∧
    x.next = some (.mret .start) ∧ x'.pc = .kernel_main ∧ x'.mode = .supervisor := by
  obtain ⟨x, tr, x', hr, hn, hp⟩ := run_to_mret (List.replicate 24 .instr)
    (fun _ tr _ => tr.all fun y => decide (y.2 ≠ .interrupt)) (by decide +kernel)
  refine ⟨x, tr, x', hr, hn, (handover_iff hr hn).2 fun y hy => ?_⟩
  exact of_decide_eq_true (List.all_eq_true.1 hp y hy)

/-- The timer interrupts right after `init_timer`: the hart comes out of `start` in user mode, at
the instruction that was interrupted. -/
theorem handover_not : ∃ x tr x', Run (MachineMode.machine 0 0) ((x, .instr) :: tr) x' ∧
    x.next = some (.mret .start) ∧ x'.pc ≠ .kernel_main ∧ x'.mode = .user := by
  obtain ⟨x, tr, x', hr, hn, hp⟩ := run_to_mret
    (List.replicate 21 .instr ++ .time 10000 :: .interrupt :: List.replicate 5 .instr)
    (fun _ _ x' => decide (x'.mode = .user) && x'.next.isSome) (by decide +kernel)
  obtain ⟨hm, hs⟩ := (Bool.and_eq_true _ _).mp hp
  refine ⟨x, tr, x', hr, hn, fun hpc => ?_, of_decide_eq_true hm⟩
  unfold MachineMode.Hart.next at hs
  rw [hpc] at hs
  cases hs

end GQuuuuuunix.Properties
