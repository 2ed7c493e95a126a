import GQuuuuuunix.Proof.Reads

/-! # A hart alone in its handler

While no other hart makes a step, a hart that takes its interrupt comes to the reads of the clock
if it runs a task, and to its `sret` if it does not; hart 0 has then counted one tick. -/

namespace GQuuuuuunix.Proof
open Lib Kernel
set_option autoImplicit false

variable {α : Type} {h : ℕ} {task : Option TaskPtr}

/-! ## The operations of the handler -/

/-- Nothing read of the clock yet, one value, two values; or past the `sret`. -/
inductive Stand where
  | fresh
  | once (d : U64)
  | twice (d d' : U64)
  | left

/-- The operations of the handler of a hart that has `task` in `cpu->task`. -/
def Stand.Pre (task : Option TaskPtr) (q : Stand) : Op → Prop
  | .load .time_data => q = .fresh ∨ ∃ d, q = .once d
  | .load (.state p) => task = some p
  | .load _ | .store .gticks _ | .store .time_data _ | .r_tp | .r_sstatus | .w_sstatus _ | .r_sepc
  | .w_sepc _ | .r_scause | .r_sip | .w_sip _ | .point .software_interrupt | .panic _ | .addi_sp _
  | .sd _ _ | .ld _ _ | .call_c | .ret_c _ => True
  | .printf (.tick s f) => task ≠ none ∧
    ∃ d d', q = .twice d d' ∧ s = d' >>> 32 ∧ f = get_time_decimal d 32
  | .sret _ => task = none
  | _ => False

/-- What hart `h` is answered there. -/
def Answered (h : ℕ) (task : Option TaskPtr) : (o : Op) → o.Ret → Prop
  | .load (.cpu_task c), r => c = h → r = task
  | .load (.state p), r => task = some p → r = .RUNNING
  | .load .time_mantissa_bit, r => r = (32 : BitVec 8)
  | .r_tp, r => r = BitVec.ofNat 64 h
  | .r_scause, r => r = SOFTWARE_INTERRUPT
  | .printf (.tick _ _), _ | .panic _, _ => False
  | _, _ => True

def Stand.after (q : Stand) : (o : Op) → o.Ret → Stand
  | .load .time_data, r =>
    match q with
    | .once d => .twice d r
    | _ => .once r
  | .sret _, _ => .left
  | _, _ => q

def handler (h : ℕ) (task : Option TaskPtr) : Rules Op Op.Ret Stand := fun o Q q =>
  q = .left ∨ (q.Pre task o ∧ ∀ r, Answered h task o r → Q r (q.after o r))

theorem handler_mono : (handler h task).Mono := by
  intro o Q Q' q h hQ
  rcases hQ with hq | ⟨hp, hr⟩
  · exact Or.inl hq
  · exact Or.inr ⟨hp, fun r ha => h r _ (hr r ha)⟩

/-- What is left to run, from `q` on. -/
abbrev Handles (h : ℕ) (task : Option TaskPtr) (c : Code) (q : Stand) : Prop :=
  wp (handler h task) c (fun _ _ => True) q

theorem handles_left (c : Code) : Handles h task c .left := by
  cases c with
  | pure a => trivial
  | op o f => exact Or.inl rfl

theorem handler_op {o : Op} {f : o.Ret → KProg α} {Q : α → Stand → Prop} {q : Stand}
    (hp : q.Pre task o)
    (hr : ∀ r, Answered h task o r → wp (handler h task) (f r) Q (q.after o r)) :
    wp (handler h task) (.op o f) Q q := Or.inr ⟨hp, hr⟩

/-- The registers and the stack of the hart itself. -/
def Op.steady : Op → Bool
  | .r_tp | .r_sstatus | .w_sstatus _ | .r_sepc | .w_sepc _ | .r_scause | .r_sip | .w_sip _
  | .addi_sp _ | .sd _ _ | .ld _ _ | .call_c | .ret_c _ => true
  | _ => false

abbrev Steady (p : KProg α) : Prop := Text (fun o => Op.steady o = true) p

theorem handler_steady {Q : α → Stand → Prop} {q : Stand} :
    ∀ {p : KProg α}, Steady p → (∀ a, Q a q) → wp (handler h task) p Q q
  | .pure a, _, hQ => hQ a
  | .op o f, hp, hQ => by
    have ho := hp.1
    have hpre : q.Pre task o := by cases o <;> first | exact trivial | cases ho
    have hafter : ∀ r, q.after o r = q := by
      intro r
      cases o <;> first | rfl | cases ho
    refine handler_op hpre fun r _ => ?_
    rw [hafter]
    exact handler_steady (hp.2 r) hQ

theorem steady_one {o : Op} (ho : Op.steady o = true) : Steady (one o) := text_one ho

/-! ## The handler of a trap -/

theorem handler_get_cur_task {Q : Option TaskPtr → Stand → Prop} {q : Stand} (hlt : h < 2 ^ 31)
    (hQ : Q task q) : wp (handler h task) get_cur_task Q q := by
  refine handler_op trivial fun x hx => ?_
  obtain rfl : x = BitVec.ofNat 64 h := hx
  refine handler_op trivial fun r hr => ?_
  obtain rfl : r = task := hr (cpuid_of_lt hlt)
  exact hQ

theorem handler_cur_task_running {Q : Bool → Stand → Prop} {q : Stand} (hlt : h < 2 ^ 31)
    (hQ : Q task.isSome q) : wp (handler h task) cur_task_running Q q := by
  unfold cur_task_running
  refine wp_seq (handler_get_cur_task hlt ?_)
  cases task with
  | none => exact hQ
  | some p =>
    refine wp_seq (handler_get_cur_task hlt ?_)
    refine handler_op rfl fun s hs => ?_
    obtain rfl : s = .RUNNING := hs rfl
    exact hQ

theorem handler_software_interrupt_rest {Q : Unit → Stand → Prop} {q : Stand} (hlt : h < 2 ^ 31)
    (hq : q = .fresh ∨ task = none) (hQ : task = none → Q () q) :
    wp (handler h task) software_interrupt_rest Q q := by
  unfold software_interrupt_rest
  refine wp_seq (handler_cur_task_running hlt ?_)
  cases task with
  | none => exact handler_steady ((steady_one rfl).bind fun _ => steady_one rfl) fun _ => hQ rfl
  | some p =>
    obtain rfl | hn := hq
    swap
    · cases hn
    refine handler_op (Or.inl rfl) fun d _ => handler_op trivial fun bit hbit => ?_
    obtain rfl : bit = 32 := hbit
    refine handler_op (Or.inr ⟨d, rfl⟩) fun d' _ => handler_op trivial fun bit hbit => ?_
    obtain rfl : bit = 32 := hbit
    exact handler_op ⟨by simp, d, d', rfl, rfl, rfl⟩ fun _ hf => hf.elim

theorem ofNat_eq_zero_of_lt (hlt : h < 2 ^ 31) (h0 : BitVec.ofNat 64 h = 0) : h = 0 := by
  have hn : (BitVec.ofNat 64 h).toNat = 0 := by
    rw [h0]
    rfl
  rw [BitVec.toNat_ofNat] at hn
  omega

theorem handler_software_interrupt {Q : Unit → Stand → Prop} (hlt : h < 2 ^ 31)
    (h0 : h = 0 → task = none) (hQ : ∀ q, q ≠ .left → task = none → Q () q) :
    wp (handler h task) software_interrupt Q .fresh := by
  rw [software_interrupt_eq]
  refine handler_op trivial fun _ _ => handler_op trivial fun hartid hid => ?_
  obtain rfl : hartid = BitVec.ofNat 64 h := hid
  show wp _ (if BitVec.ofNat 64 h = 0 then _ else _) Q .fresh
  split
  · next hz =>
    have hn := h0 (ofNat_eq_zero_of_lt hlt hz)
    refine handler_op trivial fun g _ => handler_op trivial fun _ _ => ?_
    refine handler_op (Or.inl rfl) fun d _ => handler_op trivial fun _ _ => ?_
    exact handler_software_interrupt_rest hlt (Or.inr hn)
      (hQ _ (show Stand.once d ≠ .left by simp))
  · exact handler_software_interrupt_rest hlt (Or.inl rfl) (hQ _ (by simp))

theorem handler_kernel_trap_handler {Q : Unit → Stand → Prop} (hlt : h < 2 ^ 31)
    (h0 : h = 0 → task = none) (hQ : ∀ q, q ≠ .left → task = none → Q () q) :
    wp (handler h task) kernel_trap_handler Q .fresh := by
  unfold kernel_trap_handler
  refine handler_op trivial fun sepc _ => handler_op trivial fun sstatus _ =>
    handler_op trivial fun scause hs => ?_
  obtain rfl : scause = SOFTWARE_INTERRUPT := hs
  show wp _ (if sstatus &&& SSTATUS_SPP = 0 then _ else _) Q .fresh
  split
  · exact handler_op trivial fun _ hf => hf.elim
  refine handler_op trivial fun x _ => ?_
  show wp _ (if (if x &&& SSTATUS_SIE ≠ 0 then (1 : I32) else 0) ≠ 0 then _ else _) Q .fresh
  split
  · exact handler_op trivial fun _ hf => hf.elim
  show wp _ (software_interrupt >>= fun _ => _) Q .fresh
  refine wp_seq (handler_software_interrupt hlt h0 fun q hq hn => ?_)
  exact handler_steady ((steady_one rfl).bind fun _ => steady_one rfl) fun _ => hQ q hq hn

/-- The handler comes to its `sret`, or prints a line. -/
theorem handler_kernelvec (s : Snapshot) (hlt : h < 2 ^ 31) (h0 : h = 0 → task = none) :
    wp (handler h task) (kernelvec s) (fun _ q => q = .left) .fresh := by
  have hsave : Steady (Prog.each (fun x => one (.sd x.1 x.2)) kernelvec_saves) :=
    text_each (fun _ => steady_one rfl) _
  have hload : Steady (Prog.each (fun x => one (.ld x.1 x.2)) kernelvec_loads) :=
    text_each (fun _ => steady_one rfl) _
  unfold kernelvec
  refine wp_seq (handler_steady (steady_one rfl) fun _ => ?_)
  refine wp_seq (handler_steady hsave fun _ => ?_)
  refine wp_seq (handler_steady (steady_one rfl) fun saved => ?_)
  refine wp_seq (handler_kernel_trap_handler hlt h0 fun q hq hn => ?_)
  refine wp_seq (handler_steady (steady_one rfl) fun _ => ?_)
  refine wp_seq (handler_steady hload fun _ => ?_)
  refine wp_seq (handler_steady (steady_one rfl) fun _ => ?_)
  exact handler_op hn fun _ _ => rfl

/-! ## One operation of a hart that handles its interrupt -/

variable {cfg : Config} {σ σ' : State} {vs vs' : ℕ → View} {tr : Trace} {B d : U64} {q : Stand}

theorem Inv.uninterrupted (hI : Inv cfg σ vs) (hh : h < cfg.harts)
    (ht : (vs h).k.trap ≠ .idle) : (σ.harts h).interrupted = false := by
  have hok := hI.ok h hh
  have hsie : sie (σ.harts h).sstatus = false := by
    rw [(hI.hart h hh).sstatus, hok.sie_eq, Bool.eq_false_iff]
    exact fun hs => ht (hok.sie_ok hs).trap
  unfold Hart.interrupted
  rw [hsie]
  rfl

/-- A hart that handles its interrupt performs its next operation. -/
theorem GRun.perform (hg : GRun cfg tr σ vs) (hh : h < cfg.harts) (ht : (vs h).k.trap ≠ .idle)
    {o : Op} {f : o.Ret → Code} (hcode : (σ.harts h).code = .op o f)
    (hs : Op.simple o = true) : ∃ r σ' w, (kernel cfg).step σ (.hart h false) = some σ' ∧
      Pre cfg o (vs h) ∧ Performed σ h false o r (f r) σ' ∧ w.k = (vs h).k.after o r ∧
      GRun cfg ((σ, .hart h false) :: tr) σ' (Function.update vs h w) := by
  have hI := hg.inv
  have hsafe := hI.safe h hh
  rw [hcode] at hsafe
  obtain ⟨hp, hpost⟩ := safe_pre hsafe (hI.ok h hh)
  obtain ⟨σ', hx'⟩ := exec_total cfg.layout false hs f
  obtain ⟨r, hx⟩ := exec_simple hs (fun s he => hI.intact hh (he ▸ hp)) hx'
  obtain ⟨w, hgo⟩ := hI.goes hh hs hp hx
  have hi := hI.uninterrupted hh ht
  exact ⟨r, σ', w, (step_op hh hi hcode).trans hx', hp, hx, hgo.k,
    hg.step hI (.op hh hi hcode hs hp hx hgo)
      (hI.simple_step hh hp hx hgo (hpost r w hgo.post hgo.ok))⟩

/-! ## The clock in the handler -/

/-- Whether the tick of the interrupt has been counted. -/
def TrapPhase.counts : TrapPhase → Bool
  | .counted | .acked | .idle => true
  | _ => false

/-- The clock at phase `p` of the handler of hart `h`, when it was `d` at the entry. -/
def clockAt (h : ℕ) (d : U64) (p : TrapPhase) : U64 :=
  if h = 0 ∧ p.counts = true then d + TICKS else d

theorem counts_after {v : View} {o : Op} (hp : Pre cfg o v) (h0 : v.k.hart = 0)
    (hno : ∀ y, o ≠ .store .time_data y) : (Op.trap v.k o).counts = v.k.trap.counts := by
  unfold Op.trap
  split
  · obtain ⟨_, ht, _⟩ := hp
    rw [ht]
    rfl
  · exact absurd rfl (hno _)
  · obtain ⟨_, ht⟩ := hp
    rw [ht]
    rfl
  · rw [show v.k.trap = .entered from hp, if_pos h0]
    rfl
  · obtain ⟨_, ht, _⟩ := hp
    rw [ht]
    rfl
  · rfl

theorem Inv.clockAt_after (hI : Inv cfg σ vs) (hh : h < cfg.harts) {o : Op} {r : o.Ret} {c : Code}
    (hst : (vs h).k.stage = .opened) (hp : Pre cfg o (vs h)) (hx : Performed σ h false o r c σ')
    (hd : σ.mem .time_data = clockAt h d (vs h).k.trap) :
    σ'.mem .time_data = clockAt h d ((vs h).k.after o r).trap := by
  have hhart := (hI.hart h hh).hart
  rw [Ghost.after_trap]
  by_cases hs : ∃ y, o = .store .time_data y
  · obtain ⟨y, rfl⟩ := hs
    have hmem : σ'.mem .time_data = y := by
      rw [hx.mem]
      exact Mem.set_self σ.mem .time_data y
    have htrap : Op.trap (vs h).k (.store .time_data y) = .counted :=
      if_neg (by rw [hst]; decide)
    obtain ⟨hb, _⟩ | ⟨h0, _, ht, hy⟩ := hp
    · rw [hst] at hb
      cases hb
    have hz : h = 0 := hhart.symm.trans h0
    have hown : σ.mem .time_data = (vs h).m.mem .time_data := hI.owned h hh .time_data h0
    rw [hmem, htrap, hy, ← hown, hd, ht]
    simp [clockAt, hz, TrapPhase.counts]
  · have hmem : σ'.mem .time_data = σ.mem .time_data :=
      hI.mem_of_ne hh hx fun y hy => hs ⟨y, writes_plain rfl hy⟩
    rw [hmem, hd]
    unfold clockAt
    by_cases hz : h = 0
    · rw [counts_after hp (hhart.trans hz) fun y hy => hs ⟨y, hy⟩]
    · rw [if_neg fun hc => hz hc.1, if_neg fun hc => hz hc.1]

/-! ## The rest of the handler -/

/-- Hart `h` handles its interrupt with `t` in `cpu->task`; the clock was `d` at the entry, and has
never been past `B`. -/
structure Alone (cfg : Config) (B d : U64) (h : ℕ) (t : Option Slot) (tr : Trace) (σ : State)
    (vs : ℕ → View) : Prop where
  run : Run (kernel cfg) tr σ
  views : GRun cfg tr σ vs
  hart_lt : h < cfg.harts
  trap : (vs h).k.trap ≠ .idle
  task : (vs h).k.task = t
  st : t ≠ none → (vs h).k.st = .RUNNING
  scause : (σ.harts h).scause = SOFTWARE_INTERRUPT
  clock : σ.mem .time_data = clockAt h d (vs h).k.trap
  past : ∀ x ∈ tr, (x.1.mem .time_data : U64) ≤ B

/-- The other harts are where they were. -/
def OthersStay (h : ℕ) (σ : State) (vs : ℕ → View) (σ' : State) (vs' : ℕ → View) : Prop :=
  ∀ g, g ≠ h → σ'.harts g = σ.harts g ∧ vs' g = vs g

theorem OthersStay.refl : OthersStay h σ vs σ vs := fun _ _ => ⟨rfl, rfl⟩

theorem OthersStay.trans {σ'' : State} {vs'' : ℕ → View} (h1 : OthersStay h σ vs σ' vs')
    (h2 : OthersStay h σ' vs' σ'' vs'') : OthersStay h σ vs σ'' vs'' := fun g hg =>
  ⟨(h2 g hg).1.trans (h1 g hg).1, (h2 g hg).2.trans (h1 g hg).2⟩

variable {t : Option Slot}

theorem Alone.answered (ha : Alone cfg B d h t tr σ vs) {o : Op} {r : o.Ret}
    (hr : Answer σ h false o r) (hpanic : ∀ p, o ≠ .panic p)
    (hprint : ∀ s f, o ≠ .printf (.tick s f)) : Answered h (t.map .gTasks) o r := by
  have hI := ha.views.inv
  have hhart := (hI.hart h ha.hart_lt).hart
  have hopen := hI.opened h ha.hart_lt (handling_opened ha.views ha.hart_lt ha.trap)
  cases o with
  | load l =>
    obtain rfl : r = σ.mem l := hr
    cases l with
    | cpu_task c =>
      rintro rfl
      have hc := (hI.cpu c ha.hart_lt).cpu_task
      rwa [hhart, ha.task] at hc
    | state p =>
      intro hp
      cases t with
      | none => cases hp
      | some t =>
        cases hp
        have hrun := (hI.ok h ha.hart_lt).task_run t ha.task
        exact (((hI.table hopen).state t).running h ha.hart_lt hrun).1.trans (ha.st (by simp))
    | time_mantissa_bit => exact mantissa_bit ha.views hopen
    | _ => trivial
  | r_tp =>
    obtain rfl : r = (σ.harts h).regs .tp := hr
    show (σ.harts h).regs .tp = _
    rw [(hI.hart h ha.hart_lt).regs, (hI.ok h ha.hart_lt).tp, hhart]
  | r_scause =>
    obtain rfl : r = (σ.harts h).scause := hr
    exact ha.scause
  | printf m =>
    cases m with
    | tick s f => exact absurd rfl (hprint s f)
    | _ => trivial
  | panic p => exact absurd rfl (hpanic p)
  | _ => trivial

theorem Stand.Pre.simple {o : Op} (hq : q.Pre task o) (hpanic : ∀ p, o ≠ .panic p) :
    Op.simple o = true := by
  cases o with
  | panic p => exact absurd rfl (hpanic p)
  | loop l => exact hq.elim
  | call_switch_to s old new => exact hq.elim
  | ret old new => exact hq.elim
  | crash => exact hq.elim
  | _ => rfl

/-- The handler changes neither the task nor its state. -/
theorem Stand.Pre.kept {o : Op} (hq : q.Pre task o) {k : Ghost} (hrun : task ≠ none → k.run ≠ none)
    (r : o.Ret) : (k.after o r).task = k.task ∧ (k.after o r).st = k.st := by
  cases o with
  | load l =>
    cases l with
    | state p =>
      have hk : k.run ≠ none := hrun (by rw [show task = some p from hq]; simp)
      cases p with
      | static j => exact ⟨rfl, rfl⟩
      | gTasks t =>
        show (if k.held = some t ∧ k.run = none then _ else k : Ghost).task = _ ∧
          (if k.held = some t ∧ k.run = none then _ else k : Ghost).st = _
        rw [if_neg fun hc => hk hc.2]
        exact ⟨rfl, rfl⟩
    | _ => exact ⟨rfl, rfl⟩
  | store l x =>
    cases l with
    | gticks => exact ⟨rfl, rfl⟩
    | time_data =>
      show (if k.stage = .boot then k else k.setTrap .counted).task = _ ∧
        (if k.stage = .boot then k else k.setTrap .counted).st = _
      split <;> exact ⟨rfl, rfl⟩
    | _ => exact hq.elim
  | point p =>
    cases p with
    | software_interrupt => exact ⟨rfl, rfl⟩
    | _ => exact hq.elim
  | printf m =>
    cases m with
    | tick s f => exact ⟨rfl, rfl⟩
    | _ => exact hq.elim
  | lr c => exact hq.elim
  | sc c x => exact hq.elim
  | amoswap c x => exact hq.elim
  | enter f => exact hq.elim
  | leave f x => exact hq.elim
  | w_stvec => exact hq.elim
  | _ => exact ⟨rfl, rfl⟩

theorem trap_after {k : Ghost} {o : Op} (ht : k.trap ≠ .idle) (hs : ∀ s, o ≠ .sret s) (r : o.Ret) :
    (k.after o r).trap ≠ .idle := by
  rw [Ghost.after_trap]
  unfold Op.trap
  split
  · simp
  · split
    · exact ht
    · simp
  · simp
  · split <;> simp
  · exact absurd rfl (hs _)
  · exact ht

theorem perform_scause (mem : Mem) (x : Hart) (o : Op) :
    (Hart.perform mem x o).scause = x.scause := by
  cases o <;> rfl

/-- The hart goes on by one operation, not the `sret` and not the printed line. -/
theorem Alone.step (ha : Alone cfg B d h t tr σ vs) (hB : ∀ p, clockAt h d p ≤ B)
    {o : Op} {f : o.Ret → Code} (hcode : (σ.harts h).code = .op o f)
    (hq : q.Pre (t.map .gTasks) o) (hs : ∀ s, o ≠ .sret s)
    (hprint : ∀ s f, o ≠ .printf (.tick s f)) :
    ∃ r σ' vs', Answered h (t.map .gTasks) o r ∧ Answer σ h false o r ∧
      (σ'.harts h).code = f r ∧ Alone cfg B d h t ((σ, .hart h false) :: tr) σ' vs' ∧
      OthersStay h σ vs σ' vs' := by
  have hI := ha.views.inv
  have hsafe := hI.safe h ha.hart_lt
  have hpanic : ∀ p, o ≠ .panic p := by
    rintro p rfl
    rw [hcode] at hsafe
    exact (safe_pre hsafe (hI.ok h ha.hart_lt)).1
  have hopen := handling_opened ha.views ha.hart_lt ha.trap
  obtain ⟨r, σ', w, hstep, hp, hx, hk, hg⟩ :=
    ha.views.perform ha.hart_lt ha.trap hcode (Stand.Pre.simple hq hpanic)
  have hrun : t.map TaskPtr.gTasks ≠ none → (vs h).k.run ≠ none := by
    cases t with
    | none => exact fun hn => absurd rfl hn
    | some t =>
      intro _
      rw [(hI.ok h ha.hart_lt).task_run t ha.task]
      simp
  obtain ⟨htask, hst⟩ := Stand.Pre.kept hq hrun r
  refine ⟨r, σ', _, ha.answered hx.answer hpanic hprint, hx.answer, ?_,
    ⟨ha.run.step hstep, hg, ha.hart_lt, ?_, ?_, ?_, ?_, ?_, ?_⟩,
    fun g hne => ⟨?_, Function.update_of_ne hne _ _⟩⟩
  · rw [hx.harts, Function.update_self]
  · rw [Function.update_self, hk]
    exact trap_after ha.trap hs r
  · rw [Function.update_self, hk, htask]
    exact ha.task
  · rw [Function.update_self, hk, hst]
    exact ha.st
  · rw [hx.harts, Function.update_self]
    exact (perform_scause _ _ _).trans ha.scause
  · rw [Function.update_self, hk]
    exact hI.clockAt_after ha.hart_lt hopen hp hx ha.clock
  · intro x hx
    rcases List.mem_cons.1 hx with rfl | hx
    · show σ.mem .time_data ≤ B
      rw [ha.clock]
      exact hB _
    · exact ha.past x hx
  · rw [hx.harts, Function.update_of_ne hne]

theorem Stand.after_eq {o : Op} (hs : ∀ s, o ≠ .sret s) (hl : o ≠ .load .time_data) (r : o.Ret) :
    q.after o r = q := by
  cases o with
  | load l => cases l <;> first | rfl | exact absurd rfl hl
  | sret s => exact absurd rfl (hs s)
  | _ => rfl

theorem Stand.after_ne_left {o : Op} (hq : q ≠ .left) (hs : ∀ s, o ≠ .sret s) (r : o.Ret) :
    q.after o r ≠ .left := by
  by_cases hl : o = .load .time_data
  · subst hl
    cases q <;> simp [Stand.after]
  · rw [Stand.after_eq hs hl]
    exact hq

/-- The hart comes to an operation of `S`, which has its `sret` and the printed line. -/
theorem Alone.go {S : Op → Prop} (hB : ∀ p, clockAt h d p ≤ B)
    (hprint : ∀ s f, S (.printf (.tick s f))) (hsret : t = none → ∀ s, S (.sret s)) :
    ∀ (c : Code) {tr : Trace} {σ : State} {vs : ℕ → View} {q : Stand},
      Alone cfg B d h t tr σ vs → (σ.harts h).code = c → q ≠ .left →
      Handles h (t.map .gTasks) c q → ∃ tr' σ' vs' q' o f, Alone cfg B d h t tr' σ' vs' ∧
        OthersStay h σ vs σ' vs' ∧ (σ'.harts h).code = .op o f ∧ S o ∧ q' ≠ .left ∧
        Handles h (t.map .gTasks) (.op o f) q' ∧ (S (.load .time_data) → q' = q)
  | .pure a, _, _, _, _, ha, hcode, _, _ => by
    have hsafe := ha.views.inv.safe h ha.hart_lt
    rw [hcode] at hsafe
    exact hsafe.elim
  | .op o f, tr, σ, vs, q, ha, hcode, hne, hq => by
    by_cases hstop : S o
    · exact ⟨tr, σ, vs, q, o, f, ha, .refl, hcode, hstop, hne, hq, fun _ => rfl⟩
    obtain ⟨hpre, hpost⟩ := hq.resolve_left hne
    have hs : ∀ s, o ≠ .sret s := by
      rintro s rfl
      exact hstop (hsret (Option.map_eq_none_iff.1 hpre) s)
    have hp : ∀ s f, o ≠ .printf (.tick s f) := by
      rintro sec frac rfl
      exact hstop (hprint sec frac)
    obtain ⟨r, σ1, vs1, hans, _, hcode1, ha1, hothers⟩ := ha.step hB hcode hpre hs hp
    obtain ⟨tr', σ', vs', q', o', f', ha', hothers', hcode', hstop', hne', hq', hkept⟩ :=
      Alone.go hB hprint hsret (f r) ha1 hcode1 (Stand.after_ne_left hne hs r) (hpost r hans)
    refine ⟨tr', σ', vs', q', o', f', ha', hothers.trans hothers', hcode', hstop', hne', hq', ?_⟩
    intro hl
    rw [hkept hl, Stand.after_eq hs]
    rintro rfl
    exact hstop hl

/-! ## From the interrupt to the handler, and back -/

/-- A hart with interrupts on is interrupted by the machine timer and enters the handler. -/
theorem GRun.enter (hg : GRun cfg tr σ vs) (hr : Run (kernel cfg) tr σ) (hh : h < cfg.harts)
    (hs : (vs h).k.sie = true) (hpast : ∀ x ∈ tr, (x.1.mem .time_data : U64) ≤ B)
    (hd : σ.mem .time_data = d) (hB : d ≤ B) (hlt : h < 2 ^ 31)
    (h0 : h = 0 → (vs h).k.task = none) : ∃ tr' σ' vs',
      Alone cfg B d h (vs h).k.task tr' σ' vs' ∧ OthersStay h σ vs σ' vs' ∧
      Handles h ((vs h).k.task.map .gTasks) (σ'.harts h).code .fresh := by
  have hI := hg.inv
  have hok := hI.ok h hh
  have hx := hI.hart h hh
  have hI1 := hI.timer_step hh
  have hself : ∀ (τ : State) (y : Hart), (τ.setHart h y).harts h = y := fun τ y => by
    simp only [State.setHart, Function.update_self]
  have hi : ((σ.setHart h (σ.harts h).timerTrap).harts h).interrupted = true := by
    have hsie : sie (σ.harts h).timerTrap.sstatus = true := by
      rw [show (σ.harts h).timerTrap.sstatus = (σ.harts h).sstatus from rfl, hx.sstatus, hok.sie_eq]
      exact hs
    have hssip : (σ.harts h).timerTrap.ssip = true := by simp [Hart.timerTrap]
    rw [hself, Hart.interrupted, hsie, hssip]
    rfl
  have hg1 := hg.step hI (.timer hh) hI1
  have hr1 := hr.step (show (kernel cfg).step σ (.timer h) = _ from if_pos hh)
  have hI2 := hI1.trap_step hh hs
  have hr2 := hr1.step (show (kernel cfg).step _ (.hart h false) = _ from
    (if_pos hh).trans (if_pos hi))
  have hst : (vs h).k.task ≠ none → (vs h).k.st = .RUNNING := by
    intro hne
    rcases (hok.sie_ok hs).place with ⟨hr, _⟩ | ⟨_, _, hst⟩
    · obtain ⟨t, ht⟩ := Option.ne_none_iff_exists'.1 hne
      rw [hok.task_run t ht] at hr
      cases hr
    · exact hst
  refine ⟨_, _, _, ⟨hr2, hg1.step hI1 (.trap hh hi hs) hI2, hh, ?_, ?_, ?_, ?_, ?_, ?_⟩,
    fun g hne => ⟨?_, Function.update_of_ne hne _ _⟩, ?_⟩
  · rw [Function.update_self]
    show TrapPhase.entered ≠ .idle
    simp
  · rw [Function.update_self]
    rfl
  · rw [Function.update_self]
    exact hst
  · rw [hself]
    rfl
  · rw [Function.update_self]
    show σ.mem .time_data = clockAt h d .entered
    rw [hd]
    exact (if_neg fun hc => by cases hc.2).symm
  · intro x hx
    rcases List.mem_cons.1 hx with rfl | hx
    · exact hd.trans_le hB
    rcases List.mem_cons.1 hx with rfl | hx
    · exact hd.trans_le hB
    · exact hpast x hx
  · show Function.update (Function.update σ.harts h _) h _ g = _
    rw [Function.update_of_ne hne, Function.update_of_ne hne]
  · have hstvec : ((σ.setHart h (σ.harts h).timerTrap).harts h).stvec = true := by
      rw [hself]
      exact hx.stvec.trans (hok.sie_ok hs).stvec
    rw [hself, Hart.trap, if_pos hstvec]
    show wp _ (Prog.bind _ _) _ _
    rw [wp_bind]
    refine wp_mono handler_mono (fun _ q hq => ?_) (handler_kernelvec _ hlt fun hz => ?_)
    · rw [show q = .left from hq]
      exact handles_left _
    · rw [h0 hz]
      rfl

/-- Hart 0 runs no task and takes interrupts; the clock shows `d`. -/
structure Idling (cfg : Config) (B d : U64) (tr : Trace) (σ : State) (vs : ℕ → View) : Prop where
  run : Run (kernel cfg) tr σ
  views : GRun cfg tr σ vs
  sie : (vs 0).k.sie = true
  task : (vs 0).k.task = none
  clock : σ.mem .time_data = d
  past : ∀ x ∈ tr, (x.1.mem .time_data : U64) ≤ B

/-- Hart 0 counts one tick, whatever the other harts are at. -/
theorem Idling.tick (hw : Idling cfg B d tr σ vs) (hB : d ≤ B) (hB' : d + TICKS ≤ B) :
    ∃ tr' σ' vs', Idling cfg B (d + TICKS) tr' σ' vs' ∧ OthersStay 0 σ vs σ' vs' := by
  obtain ⟨tr1, σ1, vs1, ha, ho1, hq⟩ := hw.views.enter hw.run cfg.harts_pos hw.sie hw.past
    hw.clock hB (by decide) fun _ => hw.task
  rw [hw.task] at ha hq
  have hBc : ∀ p, clockAt 0 d p ≤ B := by
    intro p
    unfold clockAt
    split
    · exact hB'
    · exact hB
  obtain ⟨tr2, σ2, vs2, q, o, f, ha2, ho2, hcode, hstop, hne, hq2, _⟩ :=
    ha.go (S := fun o => (∃ s, o = .sret s) ∨ ∃ s f, o = .printf (.tick s f)) hBc
      (fun s f => Or.inr ⟨s, f, rfl⟩) (fun _ s => Or.inl ⟨s, rfl⟩) _ rfl (by simp) hq
  obtain ⟨hpre, _⟩ := hq2.resolve_left hne
  obtain ⟨s, rfl⟩ | ⟨s, f, rfl⟩ := hstop
  swap
  · exact absurd rfl hpre.1
  obtain ⟨r, σ3, w, hstep, hp, hx, hk, hg⟩ := ha2.views.perform cfg.harts_pos ha2.trap hcode rfl
  refine ⟨_, σ3, _, ⟨ha2.run.step hstep, hg, ?_, ?_, ?_, ?_⟩, (ho1.trans ho2).trans fun g hne =>
    ⟨?_, Function.update_of_ne hne _ _⟩⟩
  · rw [Function.update_self, hk]
    rfl
  · rw [Function.update_self, hk]
    exact ha2.task
  · have hmem : σ3.mem = σ2.mem := hx.mem
    rw [hmem, ha2.clock, hp.2.1]
    rfl
  · intro x hx
    rcases List.mem_cons.1 hx with rfl | hx
    · show σ2.mem .time_data ≤ B
      rw [ha2.clock]
      exact hBc _
    · exact ha2.past x hx
  · rw [hx.harts, Function.update_of_ne hne]

/-- Any number of ticks, one after the other. -/
theorem Idling.ticks (hw : Idling cfg B 0 tr σ vs) (n : ℕ) (hn : n * TICKS.toNat ≤ B.toNat) :
    ∃ tr' σ' vs', Idling cfg B (BitVec.ofNat 64 n * TICKS) tr' σ' vs' ∧
      OthersStay 0 σ vs σ' vs' := by
  have hT : TICKS.toNat = 262143 := by decide
  have hle : ∀ m ≤ n, BitVec.ofNat 64 m * TICKS ≤ B := by
    intro m hm
    have hB := B.isLt
    have hmul := Nat.mul_le_mul_right TICKS.toNat hm
    rw [BitVec.le_def, BitVec.toNat_mul, BitVec.toNat_ofNat]
    rw [hT] at hn hmul ⊢
    rw [Nat.mod_eq_of_lt (show m < 2 ^ 64 by omega), Nat.mod_eq_of_lt (by omega)]
    exact hmul.trans hn
  clear hn
  induction n with
  | zero =>
    refine ⟨tr, σ, vs, ?_, .refl⟩
    rwa [show BitVec.ofNat 64 0 = 0#64 from rfl, BitVec.zero_mul]
  | succ n ih =>
    obtain ⟨tr1, σ1, vs1, hw1, ho1⟩ := ih fun m hm => hle m (hm.trans (Nat.le_succ n))
    have hsum : BitVec.ofNat 64 n * TICKS + TICKS = BitVec.ofNat 64 (n + 1) * TICKS := by
      rw [BitVec.ofNat_add, BitVec.add_mul, BitVec.one_mul]
    obtain ⟨tr2, σ2, vs2, hw2, ho2⟩ := hw1.tick (hle n (Nat.le_succ n))
      (by rw [hsum]; exact hle (n + 1) le_rfl)
    rw [hsum] at hw2
    exact ⟨tr2, σ2, vs2, hw2, ho1.trans ho2⟩

/-! ## The line of another hart -/

variable {u : Slot}

theorem clockAt_other (h0 : h ≠ 0) (p : TrapPhase) : clockAt h d p = d :=
  if_neg fun hc => h0 hc.1

/-- A hart that runs a task comes to its next read of the clock. -/
theorem Alone.read (ha : Alone cfg B d h (some u) tr σ vs) (h0 : h ≠ 0) (hB : d ≤ B)
    (hq : Handles h (some (.gTasks u)) (σ.harts h).code q)
    (hf : q = .fresh ∨ ∃ d', q = .once d') : ∃ tr' σ' vs',
      Alone cfg B d h (some u) tr' σ' vs' ∧ OthersStay h σ vs σ' vs' ∧
      Handles h (some (.gTasks u)) (σ'.harts h).code (q.after (.load .time_data) d) := by
  have hBc : ∀ p, clockAt h d p ≤ B := fun p => by rwa [clockAt_other h0]
  have hne : q ≠ .left := by rcases hf with rfl | ⟨d', rfl⟩ <;> simp
  obtain ⟨tr1, σ1, vs1, q1, o, f, ha1, ho1, hcode, hstop, hne1, hq1, hkept⟩ :=
    ha.go (S := fun o => o = .load .time_data ∨ ∃ s f, o = .printf (.tick s f)) hBc
      (fun s f => Or.inr ⟨s, f, rfl⟩) (fun hn => by cases hn) _ rfl hne hq
  obtain rfl : q1 = q := hkept (Or.inl rfl)
  obtain ⟨hpre, hpost⟩ := hq1.resolve_left hne1
  obtain rfl | ⟨s, f, rfl⟩ := hstop
  · obtain ⟨r, σ2, vs2, hans, hr, hcode2, ha2, ho2⟩ :=
      ha1.step hBc hcode hpre (by simp) (by simp)
    obtain rfl : r = d := by
      rw [show r = σ1.mem .time_data from hr, ha1.clock, clockAt_other h0]
    refine ⟨_, σ2, vs2, ha2, ho1.trans ho2, ?_⟩
    rw [hcode2]
    exact hpost r hans
  · obtain ⟨_, _, _, hk, _⟩ := hpre
    rcases hf with hf | ⟨d', hf⟩ <;> rw [hf] at hk <;> cases hk

/-- A hart that has read the clock twice comes to print what it has read. -/
theorem Alone.print (ha : Alone cfg B d h (some u) tr σ vs) (h0 : h ≠ 0) (hB : d ≤ B) {d1 d2 : U64}
    (hq : Handles h (some (.gTasks u)) (σ.harts h).code (.twice d1 d2)) : ∃ tr' σ' vs',
      Alone cfg B d h (some u) tr' σ' vs' ∧
      σ'.next h = some (.printf (.tick (d2 >>> 32) (get_time_decimal d1 32))) := by
  have hBc : ∀ p, clockAt h d p ≤ B := fun p => by rwa [clockAt_other h0]
  obtain ⟨tr1, σ1, vs1, q1, o, f, ha1, _, hcode, hstop, hne1, hq1, hkept⟩ :=
    ha.go (S := fun o => o = .load .time_data ∨ ∃ s f, o = .printf (.tick s f)) hBc
      (fun s f => Or.inr ⟨s, f, rfl⟩) (fun hn => by cases hn) _ rfl (by simp) hq
  obtain rfl : q1 = .twice d1 d2 := hkept (Or.inl rfl)
  obtain ⟨hpre, _⟩ := hq1.resolve_left hne1
  refine ⟨tr1, σ1, vs1, ha1, ?_⟩
  obtain rfl | ⟨s, f, rfl⟩ := hstop
  · obtain hk | ⟨_, hk⟩ := hpre <;> cases hk
  · obtain ⟨_, _, _, hk, rfl, rfl⟩ := hpre
    cases hk
    exact next_eq (ha1.views.inv.uninterrupted ha1.hart_lt ha1.trap) hcode

/-- Meanwhile hart 0 has counted a tick. -/
theorem Alone.meanwhile {d' : U64} {tr' : Trace} (ha : Alone cfg B d h t tr σ vs)
    (hw : Idling cfg B d' tr' σ' vs') (ho : OthersStay 0 σ vs σ' vs') (h0 : h ≠ 0) :
    Alone cfg B d' h t tr' σ' vs' := by
  obtain ⟨hhart, hview⟩ := ho h h0
  refine ⟨hw.run, hw.views, ha.hart_lt, ?_, ?_, ?_, ?_, ?_, hw.past⟩
  · rw [hview]
    exact ha.trap
  · rw [hview]
    exact ha.task
  · rw [hview]
    exact ha.st
  · rw [hhart]
    exact ha.scause
  · rw [clockAt_other h0]
    exact hw.clock

/-- And hart 0 waits on while another hart goes on. -/
theorem Idling.meanwhile {tr' : Trace} (hw : Idling cfg B d tr σ vs)
    (ha : Alone cfg B d h t tr' σ' vs') (ho : OthersStay h σ vs σ' vs') (h0 : h ≠ 0) :
    Idling cfg B d tr' σ' vs' := by
  obtain ⟨_, hview⟩ := ho 0 h0.symm
  refine ⟨ha.run, ha.views, ?_, ?_, ?_, ha.past⟩
  · rw [hview]
    exact hw.sie
  · rw [hview]
    exact hw.task
  · rw [ha.clock, clockAt_other h0]

/-- A hart in a task is interrupted and reads the clock, hart 0 counts a tick, and the hart reads
the clock again and comes to print. -/
theorem Idling.torn (hw : Idling cfg B d tr σ vs) (hB : d ≤ B)
    (hB' : d + TICKS ≤ B) (hh : h < cfg.harts) (h0 : h ≠ 0) (hlt : h < 2 ^ 31)
    (hs : (vs h).k.sie = true) (ht : (vs h).k.task = some u) : ∃ tr' σ',
      Run (kernel cfg) tr' σ' ∧ (∀ x ∈ tr', (x.1.mem .time_data : U64) ≤ B) ∧
      σ'.next h = some (.printf (.tick ((d + TICKS) >>> 32) (get_time_decimal d 32))) := by
  obtain ⟨tr1, σ1, vs1, ha1, ho1, hq1⟩ := hw.views.enter hw.run hh hs hw.past hw.clock hB hlt
    fun hz => absurd hz h0
  rw [ht] at ha1 hq1
  obtain ⟨tr2, σ2, vs2, ha2, ho2, hq2⟩ := ha1.read h0 hB hq1 (Or.inl rfl)
  have hw2 := hw.meanwhile ha2 (ho1.trans ho2) h0
  obtain ⟨tr3, σ3, vs3, hw3, ho3⟩ := hw2.tick hB hB'
  have ha3 := ha2.meanwhile hw3 ho3 h0
  rw [← (ho3 h h0).1] at hq2
  obtain ⟨tr4, σ4, vs4, ha4, _, hq4⟩ := ha3.read h0 hB' hq2 (Or.inr ⟨d, rfl⟩)
  obtain ⟨tr5, σ5, vs5, ha5, hn⟩ := ha4.print h0 hB' hq4
  exact ⟨tr5, σ5, ha5.run, ha5.past, hn⟩

end GQuuuuuunix.Proof
