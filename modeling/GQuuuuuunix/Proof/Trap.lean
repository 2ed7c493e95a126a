import GQuuuuuunix.Proof.Scheduler

/-! # The trap handler -/

namespace GQuuuuuunix.Proof
open Lib Kernel
set_option autoImplicit false

variable {cfg : Config} {α β : Type} {k : Ghost} {m : Own}

/-! ## Where a trap finds the hart -/

/-- A trap is taken in the scheduler, with no task in hand, or in a task outside the handler. -/
theorem Ghost.Ok.interruptible_cases {n : ℕ} (hok : k.Ok n) (hs : k.sie = true) :
    (∃ c e st i fs, k = (Ghost.scanning c true e st i).setCalls fs) ∨
    ∃ c e t fs, k = .running c true e t fs := by
  obtain ⟨hoff, hheld, hstage, hstvec, hsw, htrap, hplace⟩ := hok.sie_ok hs
  have hown : k.own = false := by
    by_contra h
    have h' := hok.own_held (by simpa using h)
    rw [hheld] at h'
    cases h'
  have hback : k.back = none := by
    cases hb : k.back with
    | none => rfl
    | some t =>
      have h' := hok.back_held t hb
      rw [hheld] at h'
      cases h'
  rcases hplace with ⟨hrun, hstk⟩ | ⟨t, hstk, hst⟩
  · have htask : k.task = none := by
      cases ht : k.task with
      | none => rfl
      | some t =>
        have h' := hok.task_run t ht
        rw [hrun] at h'
        cases h'
    refine Or.inl ⟨k.hart, k.ena, k.st, k.scan, k.calls, ?_⟩
    cases k
    simp_all [Ghost.scanning, Ghost.setCalls]
  · obtain ⟨hrun, htask, hscan⟩ := hok.stk_task t hstk
    refine Or.inr ⟨k.hart, k.ena, t, k.calls, ?_⟩
    cases k
    simp_all [Ghost.running]

/-! ## case 0x8000000000000001 -/

theorem does_point_software_interrupt {Q : Unit → Ghost → Own → Prop} (hs : k.sie = false)
    (ht : k.trap = .entered)
    (h : Q () (k.setTrap (if k.hart = 0 then .gticks_due else .counted)) m) :
    Does cfg (point .software_interrupt) k m Q := by
  refine Does.plain rfl rfl hs fun v hk _ _ => ⟨?_, fun _ _ => h⟩
  show v.k.trap = .entered
  rw [hk, ht]

theorem does_load_gticks {Q : U64 → Ghost → Own → Prop} (hs : k.sie = false)
    (hh : k.hart = 0) (h : Q (m.mem .gticks) k m) : Does cfg (load .gticks) k m Q := by
  refine Does.plain rfl rfl hs fun v hk hm _ => ⟨trivial, fun r ha => ?_⟩
  rw [show r = v.m.mem .gticks from ha.2 (by rw [hk]; exact hh), hm]
  exact h

theorem does_store_gticks {Q : Unit → Ghost → Own → Prop} (hs : k.sie = false)
    (hh : k.hart = 0) (ht : k.trap = .gticks_due)
    (h : ∀ m', (∀ a, m'.mem (.stack a) = m.mem (.stack a)) → Q () (k.setTrap .time_due) m') :
    Does cfg (store .gticks (m.mem .gticks + 1)) k m Q := by
  refine Does.plain rfl rfl hs fun v hk hm _ => ⟨?_, fun _ _ => h _ fun a => rfl⟩
  show v.k.hart = 0 ∧ v.k.trap = .gticks_due ∧ m.mem .gticks + 1 = v.m.mem .gticks + 1
  rw [hk, hm]
  exact ⟨hh, ht, rfl⟩

theorem does_load_time {Q : U64 → Ghost → Own → Prop} (hs : k.sie = false)
    (hh : k.hart = 0) (h : Q (m.mem .time_data) k m) : Does cfg (load .time_data) k m Q := by
  refine Does.plain rfl rfl hs fun v hk hm _ => ⟨trivial, fun r ha => ?_⟩
  rw [show r = v.m.mem .time_data from ha.2 (by rw [hk]; exact hh), hm]
  exact h

theorem does_store_time {Q : Unit → Ghost → Own → Prop} (hs : k.sie = false)
    (hh : k.hart = 0) (hst : k.stage = .opened) (ht : k.trap = .time_due)
    (h : ∀ m', (∀ a, m'.mem (.stack a) = m.mem (.stack a)) → Q () (k.setTrap .counted) m') :
    Does cfg (store .time_data (m.mem .time_data + TICKS)) k m Q := by
  have hb : ¬ k.stage = .boot := by rw [hst]; decide
  refine Does.plain rfl rfl hs fun v hk hm _ => ⟨?_, fun _ _ => ?_⟩
  · refine Or.inr ?_
    rw [hk, hm]
    exact ⟨hh, hst, ht, rfl⟩
  · rw [show k.after (.store .time_data (m.mem .time_data + TICKS)) () = k.setTrap .counted
      from if_neg hb]
    exact h _ fun a => rfl

/-- `software_interrupt` after the clock is advanced. -/
def software_interrupt_rest : KProg Unit := do
  if ← cur_task_running then
    let data ← load .time_data
    let bit ← load .time_mantissa_bit
    let fraction_decimal := get_time_decimal data bit
    let data ← load .time_data
    let bit ← load .time_mantissa_bit
    printf (.tick (data >>> bit.toNat) fraction_decimal)
    yield
  let x ← r_sip
  w_sip (x &&& ~~~2)

theorem software_interrupt_eq : software_interrupt = (do
    point .software_interrupt
    let hartid ← r_tp
    if hartid = 0 then
      let g ← load .gticks
      store .gticks (g + 1)
      let d ← load .time_data
      store .time_data (d + TICKS)
    software_interrupt_rest) := rfl

/-- Hart 0 advances the clock, the others do not. -/
theorem does_software_interrupt {Q : Unit → Ghost → Own → Prop} (hs : k.sie = false)
    (hst : k.stage = .opened) (ht : k.trap = .entered)
    (h : ∀ m', (∀ a, m'.mem (.stack a) = m.mem (.stack a)) →
      Does cfg software_interrupt_rest (k.setTrap .counted) m' Q) :
    Does cfg software_interrupt k m Q := by
  rw [software_interrupt_eq]
  refine Does.of_ok rfl hs fun hok => ?_
  have hc : k.hart < 4 := lt_of_lt_of_le hok.hart_lt cfg.harts_le
  refine Does.bind (does_point_software_interrupt hs ht ?_)
  refine Does.bind (does_r_tp (by exact hs) ?_)
  by_cases h0 : k.hart = 0
  · rw [if_pos h0]
    refine does_if_pos (show BitVec.ofNat 64 k.hart = 0 by rw [h0]; rfl) ?_
    refine Does.bind (does_load_gticks (by exact hs) h0 ?_)
    refine Does.bind (does_store_gticks (by exact hs) h0 rfl fun m1 h1 => ?_)
    refine Does.bind (does_load_time (by exact hs) h0 ?_)
    refine Does.bind (does_store_time (by exact hs) h0 hst rfl fun m2 h2 => ?_)
    exact h m2 fun a => (h2 a).trans (h1 a)
  · rw [if_neg h0]
    refine does_if_neg (show ¬ BitVec.ofNat 64 k.hart = 0 from ?_) ?_
    · intro hn
      have h1 := congrArg BitVec.toNat hn
      simp at h1
      omega
    · exact h m fun a => rfl

theorem does_cur_task_none {Q : Bool → Ghost → Own → Prop} (hs : k.sie = false)
    (ht : k.task = none) (h : Q false k m) : Does cfg cur_task_running k m Q := by
  unfold cur_task_running
  refine Does.bind (does_get_cur_task hs ?_)
  rw [ht]
  exact Does.pure h

theorem does_cur_task_running {t : Slot} {Q : Bool → Ghost → Own → Prop} (hs : k.sie = false)
    (ht : k.task = some t) (hrun : k.run = some t) (hst : k.st = .RUNNING) (h : Q true k m) :
    Does cfg cur_task_running k m Q := by
  unfold cur_task_running
  refine Does.bind (does_get_cur_task hs ?_)
  rw [ht]
  refine Does.bind (does_get_cur_task hs ?_)
  rw [ht]
  refine Does.bind (does_load_state_run hs hrun (Does.pure ?_))
  rw [hst]
  exact h

theorem and_not_two (x : U64) : (x &&& ~~~2#64).getLsbD 1 = false := by
  simp

theorem does_acknowledge {Q : Unit → Ghost → Own → Prop} (hs : k.sie = false)
    (ht : k.trap = .counted) (h : Q () (k.setTrap .acked) m) :
    Does cfg (do let x ← r_sip; w_sip (x &&& ~~~2)) k m Q := by
  refine Does.bind (does_silent rfl rfl hs (fun _ _ => trivial) (fun _ => rfl) (fun _ => rfl)
    fun x => ?_)
  refine Does.plain rfl rfl hs fun v hk _ _ => ⟨⟨and_not_two x, ?_⟩, fun _ _ => h⟩
  rw [hk, ht]

/-- In the scheduler there is no task to preempt. -/
theorem does_rest_none {Q : Unit → Ghost → Own → Prop} (hs : k.sie = false)
    (ht : k.trap = .counted) (htask : k.task = none) (h : Q () (k.setTrap .acked) m) :
    Does cfg software_interrupt_rest k m Q := by
  unfold software_interrupt_rest
  refine Does.bind (does_cur_task_none hs htask ?_)
  refine does_if_neg (by decide) ?_
  exact does_acknowledge hs ht h

/-- A task yields, and acknowledges the interrupt on the hart it comes back on. -/
theorem does_rest_task {c : ℕ} {e : I32} {t : Slot} {f : List Fn} {Q : Unit → Ghost → Own → Prop}
    (h : ∀ c' e' m', SameStack cfg.layout (.task t) m m' →
      Q () ((Ghost.running c' false e' t f).setTrap .acked) m') :
    Does cfg software_interrupt_rest ((Ghost.running c false e t f).setTrap .counted) m Q := by
  have hload : ∀ {l : Loc} {P : l.Ty → Ghost → Own → Prop}, Op.plain (.load l) = true →
      (∀ v : View, LoadPre l v.k) →
      (∀ r, ((Ghost.running c false e t f).setTrap .counted).after (.load l) r =
        (Ghost.running c false e t f).setTrap .counted) →
      (∀ r, P r ((Ghost.running c false e t f).setTrap .counted) m) →
      Does cfg (load l) ((Ghost.running c false e t f).setTrap .counted) m P :=
    fun hpl hp hk hP => does_silent rfl hpl rfl (fun v _ => hp v) hk (fun _ => rfl) hP
  unfold software_interrupt_rest
  refine Does.bind (does_cur_task_running rfl rfl rfl rfl ?_)
  refine does_if_pos rfl ?_
  refine Does.bind (hload rfl (fun _ => trivial) (fun _ => rfl) fun data => ?_)
  refine Does.bind (hload rfl (fun _ => trivial) (fun _ => rfl) fun bit => ?_)
  refine Does.bind (hload rfl (fun _ => trivial) (fun _ => rfl) fun data' => ?_)
  refine Does.bind (hload rfl (fun _ => trivial) (fun _ => rfl) fun bit' => ?_)
  refine Does.bind (does_silent rfl rfl rfl (fun _ _ => trivial) (fun _ => rfl) (fun _ => rfl)
    fun _ => ?_)
  refine Does.bind (does_yield fun c' e' m' hm => ?_)
  exact does_acknowledge rfl rfl (h c' e' m' hm)

/-! ## kernel_trap_handler -/

theorem does_software_interrupt_case {n : ℕ} {Q : Unit → Ghost → Own → Prop} (hok : k.Ok n)
    (hs : k.sie = true)
    (hQ : ∀ c e m', (k.run = none → c = k.hart) → SameStack cfg.layout k.stk m m' →
      Q () ((k.trapAt.on c e).setTrap .acked) m') :
    Does cfg software_interrupt k.trapAt m Q := by
  refine does_software_interrupt rfl (hok.sie_ok hs).stage rfl fun m1 h1 => ?_
  rcases hok.interruptible_cases hs with ⟨c, e, st, i, fs, rfl⟩ | ⟨c, e, t, fs, rfl⟩
  · exact does_rest_none rfl rfl rfl (hQ c e m1 (fun _ => rfl) fun a _ => h1 a)
  · refine does_rest_task (f := .kernelvec c :: fs) fun c' e' m' hm => ?_
    exact hQ c' e' m' (fun hn => by cases hn) fun a ha => (hm a ha).trans (h1 a)

/-- `kernel_trap_handler` puts `sepc` and `sstatus` back, on the hart it ends on. -/
theorem does_kernel_trap_handler {n : ℕ} {Q : Unit → Ghost → Own → Prop} (hok : k.Ok n)
    (hs : k.sie = true) (hspp : spp m.sstatus = true) (hcause : m.scause = SOFTWARE_INTERRUPT)
    (hQ : ∀ c e m', (k.run = none → c = k.hart) → m'.sepc = m.sepc → m'.sstatus = m.sstatus →
      SameStack cfg.layout k.stk m m' → Q () ((k.trapAt.on c e).setTrap .acked) m') :
    Does cfg kernel_trap_handler k.trapAt m Q := by
  have hsie : k.trapAt.sie = false := rfl
  unfold kernel_trap_handler
  refine Does.bind (does_r_sepc hsie ?_)
  refine Does.bind (does_r_sstatus hsie fun hsst => ?_)
  refine Does.bind (does_r_scause hsie ?_)
  refine does_if_neg (fun hn => ?_) ?_
  · have hn' : spp m.sstatus = false := (and_SPP_eq_zero _).1 hn
    rw [hspp] at hn'
    cases hn'
  refine Does.bind (does_intr_get hsie ?_)
  refine does_if_neg (by decide) ?_
  refine does_if_pos hcause ?_
  refine Does.bind (does_software_interrupt_case hok hs fun c e m1 hc1 h1 => ?_)
  refine Does.bind (Does.plain rfl rfl rfl fun _ _ _ _ => ⟨trivial, fun _ _ => ?_⟩)
  refine Does.plain rfl rfl rfl fun u _ _ _ => ⟨fun hx => ?_, fun _ _ => ?_⟩
  · rw [hsst] at hx
    cases hx
  · have hk : (((k.trapAt.on c e).setTrap .acked).after (.w_sstatus m.sstatus) ()) =
        (k.trapAt.on c e).setTrap .acked := by
      show ((k.trapAt.on c e).setTrap .acked).setSie (sie m.sstatus) = _
      rw [hsst]
      rfl
    show Q () (((k.trapAt.on c e).setTrap .acked).after (.w_sstatus m.sstatus) ()) _
    rw [hk]
    exact hQ c e _ hc1 rfl rfl h1

end GQuuuuuunix.Proof
