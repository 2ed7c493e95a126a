import GQuuuuuunix.Proof.Clients
import GQuuuuuunix.Proof.Objects
import GQuuuuuunix.Proof.Trap

/-! # Reservations across traps and switches

A program that a trap interrupts between `lr` and `sc` goes on with its own reservation or with
none: if the handler yields, the hart that takes the task up again has come through the `sc` of
`release_lk`, whatever was reserved on it meanwhile. So as long as the reservation of a hart is
left, the object holds what the `lr` of its task found. -/

namespace GQuuuuuunix.Proof
open Lib Kernel
set_option autoImplicit false

/-! ## The rules of the handler -/

section
variable {C : AtomicCall → Prop} {α : Type} {v : ObjView × Bool}

/-- An operation that does nothing to the objects and ends no reservation. -/
theorem obj_same {o : Op} {Q : o.Ret → ObjView × Bool → Prop} (hp : ObjPre C o v)
    (hs : ∀ r w, ObjPost o v r w → w = v) (hQ : ∀ r, Q r v) : Obj C (one o) Q v :=
  ⟨hp, fun r w hw => hs r w hw ▸ hQ r⟩

theorem obj_cur_task_running {Q : Bool → ObjView × Bool → Prop}
    (hQ : ∀ a w, Fresher v w → Q a w) : Obj C cur_task_running Q v :=
  obj_plain (text_cur_task_running fun _ ho => ho) hQ

theorem obj_acknowledge {Q : Unit → ObjView × Bool → Prop} (hQ : Q () v) :
    Obj C (do let x ← r_sip; w_sip (x &&& ~~~2)) Q v :=
  Obj.bind (obj_same trivial (fun _ _ hw => hw) fun x =>
    obj_same (and_not_two x) (fun _ _ hw => hw) fun _ => hQ)

theorem obj_software_interrupt_rest {Q : Unit → ObjView × Bool → Prop}
    (hQ : ∀ w, Fresher v w → Q () w) : Obj C software_interrupt_rest Q v := by
  refine Obj.bind (obj_cur_task_running fun running w1 h1 => ?_)
  cases running with
  | false => exact obj_acknowledge (hQ _ h1)
  | true =>
    refine Obj.bind (obj_same trivial (fun _ _ hw => hw) fun data => ?_)
    refine Obj.bind (obj_plain (plain_one rfl) fun bit w2 h2 => ?_)
    refine Obj.bind (obj_same trivial (fun _ _ hw => hw) fun data => ?_)
    refine Obj.bind (obj_plain (plain_one rfl) fun bit w3 h3 => ?_)
    refine Obj.bind (obj_same trivial (fun _ _ hw => hw) fun _ => ?_)
    refine Obj.bind (obj_yield (obj_acknowledge (hQ _ (Or.inr ?_))))
    rw [((h1.trans h2).trans h3).fst]

theorem obj_software_interrupt {Q : Unit → ObjView × Bool → Prop}
    (hQ : ∀ w, Fresher v w → Q () w) : Obj C software_interrupt Q v := by
  rw [software_interrupt_eq]
  refine Obj.bind (obj_same trivial (fun _ _ hw => hw) fun _ => ?_)
  refine Obj.bind (obj_plain (plain_one rfl) fun hartid w1 h1 => ?_)
  have hrest : ∀ w, Fresher v w → Obj C software_interrupt_rest Q w := fun w h =>
    obj_software_interrupt_rest fun w' h' => hQ w' (h.trans h')
  show Obj C (if hartid = 0 then _ else _) Q w1
  split
  · refine Obj.bind (obj_plain (plain_one rfl) fun g w2 h2 => ?_)
    refine Obj.bind (obj_plain (plain_one rfl) fun _ w3 h3 => ?_)
    refine Obj.bind (obj_same trivial (fun _ _ hw => hw) fun d => ?_)
    refine Obj.bind (obj_plain (plain_one rfl) fun _ w4 h4 => ?_)
    exact hrest w4 (((h1.trans h2).trans h3).trans h4)
  · exact hrest w1 h1

theorem obj_kernel_trap_handler {Q : Unit → ObjView × Bool → Prop}
    (hQ : ∀ w, Fresher v w → Q () w) : Obj C kernel_trap_handler Q v := by
  refine Obj.bind (obj_plain (plain_one rfl) fun sepc w1 h1 => ?_)
  refine Obj.bind (obj_plain (plain_one rfl) fun sstatus w2 h2 => ?_)
  refine Obj.bind (obj_plain (plain_one rfl) fun scause w3 h3 => obj_panic_if ?_)
  refine Obj.bind (obj_plain plain_intr_get fun i w4 h4 => obj_panic_if ?_)
  have h := ((h1.trans h2).trans h3).trans h4
  have hend : ∀ w, Fresher v w → Obj C (do w_sepc sepc; w_sstatus sstatus) Q w := fun w hw =>
    obj_plain ((plain_one rfl).bind fun _ => plain_one rfl) fun _ w' h' => hQ w' (hw.trans h')
  split
  · exact Obj.bind (obj_software_interrupt fun w5 h5 => hend w5 (h.trans h5))
  · exact hend w4 h

theorem obj_kernelvec {s : Snapshot} {Q : Unit → ObjView × Bool → Prop}
    (hQ : ∀ w, Fresher v w → Q () w) : Obj C (kernelvec s) Q v := by
  refine Obj.bind (obj_plain (plain_one rfl) fun _ w1 h1 => ?_)
  refine Obj.bind (obj_plain (text_each (fun _ => plain_one rfl) _) fun _ w2 h2 => ?_)
  refine Obj.bind (obj_plain (plain_one rfl) fun saved w3 h3 => ?_)
  refine Obj.bind (obj_kernel_trap_handler fun w4 h4 => ?_)
  refine Obj.bind (obj_plain (plain_one rfl) fun _ w5 h5 => ?_)
  refine Obj.bind (obj_plain (text_each (fun _ => plain_one rfl) _) fun _ w6 h6 => ?_)
  refine Obj.bind (obj_plain (plain_one rfl) fun _ w7 h7 => ?_)
  have h := (((((h1.trans h2).trans h3).trans h4).trans h5).trans h6).trans h7
  exact obj_same trivial (fun _ _ hw => hw) fun _ => hQ w7 h

theorem obj_dummy_task {Q : Unit → ObjView × Bool → Prop} (hc : v.1.call = none)
    (hi : v.1.insns = []) : Obj C dummy_task Q v := by
  refine Obj.bind (obj_plain (plain_one rfl) fun _ w1 h1 => ?_)
  refine Obj.bind (obj_plain plain_get_cur_task fun t w2 h2 => obj_deref fun task => ?_)
  refine Obj.bind (obj_release ⟨⟨rfl, ?_⟩, fun _ _ h => h.elim⟩)
  rw [(h1.trans h2).fst]
  exact ⟨hc, hi⟩

theorem ObjPre.unstale {o : Op} {u : ObjView} (hp : ObjPre C o (u, true)) :
    ObjPre C o (u, false) := by
  unfold ObjPre at hp ⊢
  split <;> first | exact hp | exact absurd hp.1 (by simp) | trivial

/-- What an operation may leave where no reservation is another's, it may leave where one is. -/
theorem ObjPost.unstale {o : Op} {r : o.Ret} {u : ObjView} {w : ObjView × Bool}
    (hp : ObjPre C o (u, true)) (hw : ObjPost o (u, false) r w) :
    ObjPost o (u, true) r w ∨ w.2 = false ∧ ObjPost o (u, true) r (w.1, true) := by
  cases o with
  | loop l =>
    cases l with
    | store c x => exact Or.inl hw
    | dummy_task => exact hw.elim
    | atomic_store sz a x => exact absurd hp.1 (by simp)
    | cmp_xchg sz a x y => exact absurd hp.1 (by simp)
    | _ => exact Or.inl (Or.inr (hw.elim id id))
  | panic s => exact hw.elim
  | crash => exact hw.elim
  | ret old new => exact hw.elim
  | call_switch_to s old new => exact Or.inl hw
  | sc c x => exact Or.inl hw
  | _ =>
    have hw' : w = (_, false) := hw
    rw [hw']
    exact Or.inr ⟨rfl, rfl⟩

/-- What a program does when the reservation of its hart may be another's, it does when not. -/
theorem Obj.unstale {p : KProg α} {u : ObjView} (hp : Obj C p (fun _ _ => True) (u, true)) :
    Obj C p (fun _ _ => True) (u, false) := by
  induction p generalizing u with
  | pure a => trivial
  | op o f ih =>
    obtain ⟨hpre, hpost⟩ := hp
    refine ⟨hpre.unstale, fun r w hw => ?_⟩
    rcases hw.unstale hpre with h | ⟨hb, h⟩
    · exact hpost r w h
    · obtain ⟨u', b⟩ := w
      cases hb
      exact ih r (hpost r _ h)

end

/-! ## What a step does to the reservations -/

section
variable {L : Layout} {σ σ' : State} {h h' a : ℕ} {fail : Bool}

theorem writeObj_resv {sz : Width} {b : ℕ} {x : U64} (hne : h' ≠ h)
    (hr : (σ.writeObj h sz b x).objResv h' = some a) :
    σ.objResv h' = some a ∧ (σ.writeObj h sz b x).objs a = σ.objs a := by
  have hr' : (if h' ≠ h ∧ σ.objResv h' = some b then none else σ.objResv h') = some a := hr
  split at hr'
  · cases hr'
  · next hb =>
    refine ⟨hr', Function.update_of_ne ?_ _ _⟩
    rintro rfl
    exact hb ⟨hne, hr'⟩

/-- While the reservation of another hart is left, the object is. -/
theorem atomic_resv {i : AtomicInsn} (hne : h' ≠ h)
    (hr : (σ.atomic h fail i).2.objResv h' = some a) :
    σ.objResv h' = some a ∧ (σ.atomic h fail i).2.objs a = σ.objs a := by
  have hclear : (σ.clearResv h).objResv h' = σ.objResv h' := Function.update_of_ne hne _ _
  cases i with
  | lr sz b =>
    refine ⟨?_, rfl⟩
    rw [← hr]
    exact (Function.update_of_ne hne _ _).symm
  | sc sz b x =>
    unfold State.atomic at hr ⊢
    dsimp only at hr ⊢
    split at hr
    · next hc =>
      rw [if_pos hc]
      obtain ⟨h1, h2⟩ := writeObj_resv hne hr
      exact ⟨hclear ▸ h1, h2⟩
    · next hc =>
      rw [if_neg hc]
      exact ⟨hclear ▸ hr, rfl⟩
  | amo f sz b x => exact writeObj_resv hne hr

/-- An operation on no object makes no reservation on one. -/
theorem exec_objResv {o : Op} {k : o.Ret → Code} (ho : ∀ i, o ≠ .atomic i)
    (hx : σ.exec L h fail o k = some σ') (hr : σ'.objResv h' = some a) :
    σ.objResv h' = some a := by
  have hclear : (σ.clearResv h).objResv h' = some a → σ.objResv h' = some a := by
    intro hc
    by_cases hne : h' = h
    · rw [hne] at hc
      rw [show (σ.clearResv h).objResv h = none from Function.update_self ..] at hc
      cases hc
    · rwa [show (σ.clearResv h).objResv h' = _ from Function.update_of_ne hne ..] at hc
  cases o with
  | atomic i => exact absurd rfl (ho i)
  | store l y =>
    cases hx
    cases l <;> exact hr
  | lr c =>
    cases hx
    exact hclear hr
  | sc c y =>
    simp only [State.exec] at hx
    split at hx <;> cases hx
    · exact hclear hr
    · exact hclear hr
  | panic s => cases hx
  | crash => cases hx
  | _ =>
    cases hx
    exact hr

theorem exec_sc_objResv {c : Cell} {y : I32} {k : I32 → Code}
    (hx : σ.exec L h fail (.sc c y) k = some σ') : σ'.objResv h = none := by
  simp only [State.exec] at hx
  split at hx <;> cases hx
  · exact Function.update_self ..
  · exact Function.update_self ..

theorem exec_resv {o : Op} {k : o.Ret → Code} (hx : σ.exec L h fail o k = some σ') (hne : h' ≠ h)
    (hr : σ'.objResv h' = some a) : σ.objResv h' = some a ∧ σ'.objs a = σ.objs a := by
  by_cases ho : ∃ i, o = .atomic i
  · obtain ⟨i, rfl⟩ := ho
    cases hx
    exact atomic_resv hne hr
  · have ho' : ∀ i, o ≠ .atomic i := fun i hi => ho ⟨i, hi⟩
    exact ⟨exec_objResv ho' hx hr, by rw [exec_objs ho' hx]⟩

end

/-! ## Where the program of a task is -/

variable {cfg : Config} {σ σ' : State} {vs vs' : ℕ → View} {tr tr' : Trace} {h : ℕ} {t : Slot}
  {ρ : CtxWord → U64} {u : ObjView} {e : Event}

/-- A task may make any call. -/
abbrev ObjSafe (c : Code) (v : ObjView × Bool) : Prop := Obj (fun _ => True) c (fun _ _ => True) v

/-- While the hart has its reservation, the object holds what the `lr` found. -/
def Reserved (σ : State) (h : ℕ) (l : List Done) : Prop :=
  ∀ sz a r l', l = (.lr sz a, r) :: l' → σ.objResv h = some a → sz.read (σ.objs a) = r

/-- Hart `h` runs a task that has done `u`. -/
def TaskRuns (σ : State) (h : ℕ) (u : ObjView) : Prop :=
  ∃ b, ObjSafe (σ.harts h).code (u, b) ∧ (b = false → Reserved σ h u.insns)

/-- The context `ρ` leads to `c`. -/
def Leads (L : Layout) (parked : U64 → Option Parked) (ρ : CtxWord → U64) (c : Code) : Prop :=
  if ρ 0 = L.dummy_task then c = dummy_task else ∃ fs, parked (ρ 1) = some ⟨ρ, fs, c⟩

/-- A task that has done `u` waits in the context `ρ`. -/
def TaskWaits (cfg : Config) (σ : State) (ρ : CtxWord → U64) (u : ObjView) : Prop :=
  ∀ c, Leads cfg.layout σ.parked ρ c → ObjSafe c (u, true)

/-- What the tasks have done to the atomic objects, and the rest of their programs. -/
structure TaskObjs (cfg : Config) (tr : Trace) (σ : State) (vs : ℕ → View) : Prop where
  asm : ∀ h < cfg.harts, (vs h).k.sw ≠ none →
    Text (fun o => o.isAsm = true) (σ.harts h).code
  runs : ∀ h < cfg.harts, ∀ t, (vs h).k.stk = .task t → (vs h).k.sw = none →
    TaskRuns σ h (viewBy (byTask cfg.layout t) tr)
  leaves : ∀ h < cfg.harts, ∀ t ρ, (vs h).k.stk = .task t → (vs h).k.sw = some (t, ρ) →
    TaskWaits cfg σ ρ (viewBy (byTask cfg.layout t) tr)
  waits : (vs 0).k.stage = .opened → ∀ t : Slot, (t : ℕ) < cfg.pids.length →
    (∀ h < cfg.harts, (vs h).k.stk ≠ .task t) →
    TaskWaits cfg σ (fun i => σ.mem (.context (.gTasks t) i)) (viewBy (byTask cfg.layout t) tr)
  closed : (vs 0).k.stage ≠ .opened → ∀ t, viewBy (byTask cfg.layout t) tr = .start

theorem afterRet_leads (L : Layout) (parked : U64 → Option Parked) (x : Hart) :
    (x.afterRet L parked).code = crash ∨
      Leads L parked (ctxOf x.regs) (x.afterRet L parked).code := by
  have hra : ctxOf x.regs 0 = x.regs .ra := ctxOf_slot x.regs (x := (.ra, 0)) (by decide)
  have hsp : ctxOf x.regs 1 = x.regs .sp := ctxOf_slot x.regs (x := (.sp, 1)) (by decide)
  unfold Hart.afterRet Leads
  rw [hra, hsp]
  split
  · exact Or.inr rfl
  · split
    · next p hp =>
      split
      · next hρ => exact Or.inr ⟨p.calls, by rw [hp, funext hρ]⟩
      · exact Or.inl rfl
    · exact Or.inl rfl

theorem objSafe_crash (v : ObjView × Bool) : ObjSafe crash v := ⟨trivial, fun _ _ hw => hw.elim⟩

theorem Reserved.of (hr : Reserved σ h u.insns)
    (hs : ∀ a, σ'.objResv h = some a → σ.objResv h = some a ∧ σ'.objs a = σ.objs a) :
    Reserved σ' h u.insns := by
  intro sz a r l' hl ha
  obtain ⟨h1, h2⟩ := hs a ha
  rw [h2]
  exact hr sz a r l' hl h1

theorem TaskRuns.of (hr : TaskRuns σ h u) (hc : (σ'.harts h).code = (σ.harts h).code)
    (hs : ∀ a, σ'.objResv h = some a → σ.objResv h = some a ∧ σ'.objs a = σ.objs a) :
    TaskRuns σ' h u := by
  obtain ⟨b, hc', hres⟩ := hr
  exact ⟨b, hc ▸ hc', fun hb => (hres hb).of hs⟩

theorem TaskWaits.of (hw : TaskWaits cfg σ ρ u) (hp : σ'.parked (ρ 1) = σ.parked (ρ 1)) :
    TaskWaits cfg σ' ρ u := by
  intro c hc
  refine hw c ?_
  unfold Leads at hc ⊢
  rwa [hp] at hc

/-- A task waiting to run for the first time has done nothing. -/
theorem taskWaits_init (t : Slot) : TaskWaits cfg σ (initCtx cfg.layout t) .start := by
  intro c hc
  rw [show c = dummy_task from (if_pos rfl).mp hc]
  exact obj_dummy_task rfl rfl

/-! ## One step -/

/-- Only a hart that runs the task does anything in its name. -/
theorem viewBy_other (hI : Inv cfg σ vs) (hJ : TaskObjs cfg tr σ vs) (hh : h < cfg.harts)
    {fail : Bool} (ht : (vs h).k.stk = .task t → (vs h).k.sw ≠ none) :
    viewBy (byTask cfg.layout t) ((σ, .hart h fail) :: tr) = viewBy (byTask cfg.layout t) tr := by
  refine viewBy_skip fun hp => ?_
  have hsp : cfg.layout.stackOf ((vs h).regs .sp) = some (.task t) := by
    rw [← (hI.hart h hh).regs]
    exact beq_iff_eq.1 hp
  have hsw : (vs h).k.sw ≠ none := by
    intro hsw
    refine ht ?_ hsw
    exact Option.some.inj (((hI.ok h hh).sp hsw).symm.trans hsp)
  have hasm := hJ.asm h hh hsw
  by_contra hev
  obtain ⟨ev, hev⟩ := Option.ne_none_iff_exists'.1 hev
  obtain ⟨_, _, _, o, heq, hn, ho⟩ := objEvent_some hev
  cases heq
  obtain ⟨_, f, hcode⟩ := next_some hn
  rw [hcode] at hasm
  have ho' := hasm.1
  unfold State.objEvent at ho
  split at ho <;> first | cases ho; done | cases ho'

/-- What a hart does on the stack of its task, it does in its name. -/
theorem byTask_self (hI : Inv cfg σ vs) (hh : h < cfg.harts) (ht : (vs h).k.stk = .task t)
    (hsw : (vs h).k.sw = none) (fail : Bool) :
    byTask cfg.layout t (σ, .hart h fail) = true := by
  refine beq_iff_eq.2 ?_
  rw [(hI.hart h hh).regs, (hI.ok h hh).sp hsw, ht]

/-- A step of hart `h` that does not switch. -/
theorem TaskObjs.frame (hI : Inv cfg σ vs) (hJ : TaskObjs cfg tr σ vs) (hh : h < cfg.harts)
    (hview : ∀ t, ((vs h).k.stk = .task t → (vs h).k.sw ≠ none) →
      viewBy (byTask cfg.layout t) tr' = viewBy (byTask cfg.layout t) tr)
    (hstk : ∀ h', (vs' h').k.stk = (vs h').k.stk) (hsw : ∀ h', (vs' h').k.sw = (vs h').k.sw)
    (hcode : ∀ h', h' ≠ h → (σ'.harts h').code = (σ.harts h').code)
    (hres : ∀ h', h' ≠ h → ∀ a, σ'.objResv h' = some a →
      σ.objResv h' = some a ∧ σ'.objs a = σ.objs a)
    (hparked : σ'.parked = σ.parked)
    (hasm : (vs h).k.sw ≠ none → Text (fun o => o.isAsm = true) (σ'.harts h).code)
    (hrun : ∀ t, (vs h).k.stk = .task t → (vs h).k.sw = none →
      TaskRuns σ' h (viewBy (byTask cfg.layout t) tr'))
    (hopen : (vs 0).k.stage = .opened → (vs' 0).k.stage = .opened)
    (hwaits : (vs' 0).k.stage = .opened → ∀ t : Slot, (t : ℕ) < cfg.pids.length →
      (∀ h < cfg.harts, (vs h).k.stk ≠ .task t) →
      TaskWaits cfg σ' (fun i => σ'.mem (.context (.gTasks t) i))
        (viewBy (byTask cfg.layout t) tr)) : TaskObjs cfg tr' σ' vs' where
  asm h' hh' hs := by
    rw [hsw h'] at hs
    by_cases hne : h' = h
    · rw [hne] at hs ⊢
      exact hasm hs
    · rw [hcode h' hne]
      exact hJ.asm h' hh' hs
  runs h' hh' t ht hs := by
    rw [hstk h'] at ht
    rw [hsw h'] at hs
    by_cases hne : h' = h
    · rw [hne] at ht hs ⊢
      exact hrun t ht hs
    · rw [hview t fun ht' => absurd (hI.stk_inj hh' hh (ht.trans ht'.symm)) hne]
      exact (hJ.runs h' hh' t ht hs).of (hcode h' hne) (hres h' hne)
  leaves h' hh' t ρ ht hs := by
    rw [hstk h'] at ht
    rw [hsw h'] at hs
    rw [hview t fun ht' => ?_]
    · exact (hJ.leaves h' hh' t ρ ht hs).of (by rw [hparked])
    · rw [← hI.stk_inj hh' hh (ht.trans ht'.symm), hs]
      exact Option.some_ne_none _
  waits ho t hlt hno := by
    have hno' : ∀ h < cfg.harts, (vs h).k.stk ≠ .task t := fun h hh => hstk h ▸ hno h hh
    rw [hview t fun ht => absurd ht (hno' h hh)]
    exact hwaits ho t hlt hno'
  closed hc t := by
    rw [hview t fun ht => absurd (hI.opened h hh ?_) fun ho => hc (hopen ho)]
    · exact hJ.closed (fun ho => hc (hopen ho)) t
    · exact (hI.ok h hh).run_opened t ((hI.ok h hh).stk_task t ht).1

/-- A step of hart `h` that neither switches nor opens the barrier nor writes to a context that a
task waits in. -/
theorem TaskObjs.step (hI : Inv cfg σ vs) (hJ : TaskObjs cfg tr σ vs) (hh : h < cfg.harts)
    (hview : ∀ t, ((vs h).k.stk = .task t → (vs h).k.sw ≠ none) →
      viewBy (byTask cfg.layout t) tr' = viewBy (byTask cfg.layout t) tr)
    (hstk : ∀ h', (vs' h').k.stk = (vs h').k.stk) (hsw : ∀ h', (vs' h').k.sw = (vs h').k.sw)
    (hcode : ∀ h', h' ≠ h → (σ'.harts h').code = (σ.harts h').code)
    (hres : ∀ h', h' ≠ h → ∀ a, σ'.objResv h' = some a →
      σ.objResv h' = some a ∧ σ'.objs a = σ.objs a)
    (hparked : σ'.parked = σ.parked)
    (hasm : (vs h).k.sw ≠ none → Text (fun o => o.isAsm = true) (σ'.harts h).code)
    (hrun : ∀ t, (vs h).k.stk = .task t → (vs h).k.sw = none →
      TaskRuns σ' h (viewBy (byTask cfg.layout t) tr'))
    (hopen : (vs 0).k.stage = .opened ↔ (vs' 0).k.stage = .opened)
    (hmem : (vs 0).k.stage = .opened → ∀ t : Slot, (∀ h < cfg.harts, (vs h).k.stk ≠ .task t) →
      ∀ i, σ'.mem (.context (.gTasks t) i) = σ.mem (.context (.gTasks t) i)) :
    TaskObjs cfg tr' σ' vs' := by
  refine hJ.frame hI hh hview hstk hsw hcode hres hparked hasm hrun hopen.1 fun ho t hlt hno => ?_
  rw [funext (hmem (hopen.2 ho) t hno)]
  exact (hJ.waits (hopen.2 ho) t hlt hno).of (by rw [hparked])

theorem update_code {x : Hart} {h' : ℕ} (hne : h' ≠ h)
    (hx : σ'.harts = Function.update σ.harts h x) :
    (σ'.harts h').code = (σ.harts h').code := by
  rw [hx, Function.update_of_ne hne]

/-- A hart goes on with other code. -/
theorem TaskObjs.goto (hI : Inv cfg σ vs) (hJ : TaskObjs cfg tr σ vs) (hh : h < cfg.harts)
    {x : Hart} (hsame : ∀ h', (vs h').k.Same (vs' h').k)
    (hview : ∀ t, viewBy (byTask cfg.layout t) tr' = viewBy (byTask cfg.layout t) tr)
    (hasm : (vs h).k.sw ≠ none → Text (fun o => o.isAsm = true) x.code)
    (hrun : ∀ u b, ObjSafe (σ.harts h).code (u, b) → ObjSafe x.code (u, b)) :
    TaskObjs cfg tr' (σ.setHart h x) vs' := by
  have hcode : ((σ.setHart h x).harts h).code = x.code :=
    congrArg Hart.code (show Function.update σ.harts h x h = x from Function.update_self ..)
  refine hJ.step hI hh (fun t _ => hview t) (fun h' => (hsame h').stk) (fun h' => (hsame h').sw)
    (fun h' hne => update_code hne rfl) (fun _ _ _ hr => ⟨hr, rfl⟩) rfl (fun hs => ?_)
    (fun t ht hs => ?_) (by rw [(hsame 0).stage]) fun _ _ _ _ => rfl
  · rw [hcode]
    exact hasm hs
  · obtain ⟨b, hc, hres⟩ := hJ.runs h hh t ht hs
    refine ⟨b, ?_, fun hb => ?_⟩
    · rw [hcode, hview t]
      exact hrun _ b hc
    · rw [hview t]
      exact hres hb

theorem TaskObjs.still (hI : Inv cfg σ vs) (hJ : TaskObjs cfg tr σ vs) (hq : quiet (σ, e))
    (hm : Move cfg σ vs e σ' vs') : TaskObjs cfg ((σ, e) :: tr) σ' vs' := by
  have hs := hm.still hq
  cases hm with
  | trap hh hi hsie =>
    have hsw := ((hI.ok _ hh).sie_ok hsie).sw
    refine hJ.goto hI hh hs.same (fun t => viewBy_skip fun _ => objEvent_interrupted hi)
      (fun hs => absurd hsw hs) fun u b hc => ?_
    have hstvec : (σ.harts _).stvec = true :=
      (hI.hart _ hh).stvec.trans ((hI.ok _ hh).sie_ok hsie).stvec
    show ObjSafe (if (σ.harts _).stvec then _ else crash) _
    rw [if_pos hstvec]
    refine Obj.bind (obj_kernelvec fun w hw => ?_)
    rcases hw with rfl | rfl
    · exact hc
    · cases b with
      | false => exact hc
      | true => exact hc.unstale
  | loop hh hi hcode =>
    refine hJ.goto hI hh hs.same (fun t => viewBy_skip fun _ => objEvent_next (next_eq hi hcode))
      (fun hs => ?_) fun u b hc => ?_
    · have hasm := hJ.asm _ hh hs
      rw [hcode] at hasm
      cases hasm.1
    · rw [hcode] at hc
      exact Obj.bind (obj_round _ hc.1 hc.2)
  | op hh hi hcode hsimple =>
    rcases hq with hq | ⟨_, _, hq⟩ <;> rw [performed_eq hi hcode] at hq <;> cases hq
    cases hsimple
  | call hh hi hcode =>
    rcases hq with hq | ⟨_, _, hq⟩ <;> rw [performed_eq hi hcode] at hq <;> cases hq
  | ret hh hi hcode =>
    rcases hq with hq | ⟨_, _, hq⟩ <;> rw [performed_eq hi hcode] at hq <;> cases hq
  | compute hh =>
    refine hJ.goto hI hh hs.same (fun t => viewBy_skip fun hp => by cases hp)
      (hJ.asm _ hh) fun u b hc => hc
  | timer hh =>
    refine hJ.goto hI hh hs.same (fun t => viewBy_skip fun hp => by cases hp)
      (hJ.asm _ hh) fun u b hc => hc

theorem reserved_insn {fail : Bool} {i : AtomicInsn} {k : U64 → Code} {l : List Done}
    (hx : σ.exec cfg.layout h fail (.atomic i) k = some σ') :
    Reserved σ' h ((i, (σ.atomic h fail i).1) :: l) := by
  intro sz a r l' hl _
  cases hx
  cases i with
  | lr sz b =>
    cases hl
    rfl
  | _ => cases hl

theorem Reserved.after (hr : Reserved σ h u.insns) {fail : Bool} {o : Op} {r : o.Ret}
    {k : o.Ret → Code} (hx : σ.exec cfg.layout h fail o k = some σ')
    (ha : Answer σ h fail o r) : Reserved σ' h (u.after o r).insns := by
  unfold ObjView.after
  split
  · intro sz a r l' hl
    cases hl
  · rw [show _ = _ from ha]
    exact reserved_insn hx
  · intro sz a r l' hl
    cases hl
  · next ho _ =>
    have ho' : ∀ i, o ≠ .atomic i := by
      rintro i rfl
      exact ho i r rfl HEq.rfl
    exact hr.of fun a ha => ⟨exec_objResv ho' hx ha, by rw [exec_objs ho' hx]⟩

/-- A task performs an operation. -/
theorem TaskRuns.op (hr : TaskRuns σ h u) {fail : Bool} {o : Op} {r : o.Ret} {f : o.Ret → Code}
    (hs : Op.simple o = true) (hcode : (σ.harts h).code = .op o f)
    (hx : σ.exec cfg.layout h fail o f = some σ') (hp : Performed σ h fail o r (f r) σ') :
    TaskRuns σ' h (u.after o r) := by
  obtain ⟨b, hc, hres⟩ := hr
  rw [hcode] at hc
  refine ⟨staleAfter b o, ?_, fun hb => ?_⟩
  · rw [hp.hart_eq]
    exact hc.2 r _ (objPost_after (fun l he => by subst he; cases hs)
      (fun s he => by subst he; cases hs) (fun he => by subst he; cases hs)
      (fun old new he => by subst he; cases hs) _ r)
  · unfold staleAfter at hb
    split at hb
    · cases hb
    · intro sz a r' l' _ ha
      rw [exec_sc_objResv hx] at ha
      cases ha
    · exact (hres hb).after hx hp.answer

theorem TaskObjs.op (hI : Inv cfg σ vs) (hJ : TaskObjs cfg tr σ vs) (hh : h < cfg.harts)
    {fail : Bool} {o : Op} {r : o.Ret} {f : o.Ret → Code} {w : View}
    (hi : (σ.harts h).interrupted = false) (hcode : (σ.harts h).code = .op o f)
    (hs : Op.simple o = true) (hx : σ.exec cfg.layout h fail o f = some σ')
    (hp : Pre cfg o (vs h)) (hpf : Performed σ h fail o r (f r) σ')
    (hg : Goes cfg σ' o r (vs h) w) :
    TaskObjs cfg ((σ, .hart h fail) :: tr) σ' (Function.update vs h w) := by
  refine hJ.frame hI hh (fun t => viewBy_other hI hJ hh)
    (update_field Ghost.stk (by rw [hg.k, Ghost.after_stk]))
    (update_field Ghost.sw (by rw [hg.k, Ghost.after_sw]))
    (fun h' hne => update_code hne hpf.harts) (fun h' hne a => exec_resv hx hne) hpf.parked
    (fun hsw => ?_) (fun t ht hsw => ?_) (Inv.opened_step hg) fun hop' t hlt hno => ?_
  · have hasm := hJ.asm h hh hsw
    rw [hcode] at hasm
    rw [hpf.hart_eq]
    exact hasm.2 r
  · rw [viewBy_after (next_eq hi hcode) (byTask_self hI hh ht hsw fail) hpf.answer]
    exact (hJ.runs h hh t ht hsw).op hs hcode hx hpf
  · by_cases hop : (vs 0).k.stage = .opened
    · rw [funext (hI.context_frame hh hp hpf hop (hno h hh))]
      exact (hJ.waits hop t hlt hno).of (by rw [hpf.parked])
    -- hart 0 opens the barrier: every context is as `init_task` made it
    · obtain ⟨_, hb, hm, x, rfl⟩ := hI.opening hh hp hpf hg hop hop'
      have hready := hI.table_ready hh hb hm.toTableReady
      rw [hJ.closed hop t, show (fun i => σ'.mem (.context (.gTasks t) i)) = initCtx cfg.layout t
        from funext fun i => ?_]
      · exact taskWaits_init t
      · refine Eq.trans (hI.mem_of_ne hh hpf fun y hw => ?_) (hready.context t hlt i)
        cases (writes_sc hw).2

/-! ## The two ends of switch_to -/

theorem asm_switch_to (old new : CtxPtr) :
    Text (fun o => o.isAsm = true) (switch_to old new) :=
  have hone : ∀ {o : Op}, o.isAsm = true → Text (fun o => o.isAsm = true) (one o) := fun ho =>
    text_one ho
  (text_each (fun _ => hone rfl) _).bind fun _ =>
    (text_each (fun _ => hone rfl) _).bind fun _ => hone rfl

/-- A frame is left on another stack. -/
theorem TaskWaits.park (hw : TaskWaits cfg σ ρ u) {a : U64} {p : Parked}
    (hp : σ'.parked = fun sp => if sp = a then some p else σ.parked sp)
    (hρ : ρ 0 = cfg.layout.dummy_task ∨ ρ 1 ≠ a) : TaskWaits cfg σ' ρ u := by
  intro c hc
  refine hw c ?_
  unfold Leads at hc ⊢
  split
  · next h0 => rwa [if_pos h0] at hc
  · next h0 =>
    rw [if_neg h0, hp] at hc
    obtain ⟨fs, hc⟩ := hc
    exact ⟨fs, (if_neg (hρ.resolve_left h0)).symm.trans hc⟩

/-- A task that has called `switch_to` waits where it did. -/
theorem taskWaits_parked {r : Regs} {c : Code} (hc : ObjSafe c (u, true))
    (hp : ∃ fs, σ.parked (r .sp) = some ⟨ctxOf r, fs, c⟩) (hra : r .ra ≠ cfg.layout.dummy_task) :
    TaskWaits cfg σ (ctxOf r) u := by
  intro c' hl
  unfold Leads at hl
  obtain ⟨fs, hp⟩ := hp
  rw [ctxOf_slot r (x := (.ra, 0)) (by decide), ctxOf_slot r (x := (.sp, 1)) (by decide),
    if_neg hra, hp] at hl
  obtain ⟨_, hl⟩ := hl
  cases hl
  exact hc

section
variable {s : SwitchSite} {en : I32} {fs : List Fn}

theorem Resumable.stack {σ : State} (hr : Resumable cfg σ .sched h t ρ) :
    cfg.layout.stackOf (ρ 1) = some (.task t) := by
  obtain ⟨v, c, hc, _, hs, _⟩ := hr
  rw [hc.stack, hs]
  rfl

theorem TaskObjs.call (hI : Inv cfg σ vs) (hJ : TaskObjs cfg tr σ vs) (hh : h < cfg.harts)
    {fail : Bool} {f : Unit → Code} (hi : (σ.harts h).interrupted = false)
    (hcode : (σ.harts h).code = .op (.call_switch_to s (oldCtx s h t) (newCtx s h t)) f)
    (hk : (vs h).k = .atSwitch s h en t fs) :
    TaskObjs cfg ((σ, .hart h fail) :: tr)
      (σ.callSwitch cfg.layout h s (oldCtx s h t) (newCtx s h t) (f ()))
      (Function.update vs h ((vs h).called cfg.layout s t)) := by
  have hop : (vs 0).k.stage = .opened := hI.opened h hh (by rw [hk]; rfl)
  have hstk : ∀ h', (Function.update vs h ((vs h).called cfg.layout s t) h').k.stk =
      (vs h').k.stk := by
    refine update_field Ghost.stk ?_
    rw [View.called, hk]
    rfl
  have hsw : (vs h).k.sw = none := by rw [hk]; rfl
  have hview : ∀ t, viewBy (byTask cfg.layout t) ((σ, .hart h fail) :: tr) =
      viewBy (byTask cfg.layout t) tr := fun t =>
    viewBy_skip fun _ => objEvent_next (next_eq hi hcode)
  have hsp : cfg.layout.stackOf ((σ.harts h).regs .sp) = some (vs h).k.stk := by
    rw [(hI.hart h hh).regs]
    exact (hI.ok h hh).sp hsw
  have hregs : Function.update (σ.harts h).regs .ra (cfg.layout.switch_ret s) .sp =
      (σ.harts h).regs .sp := Function.update_of_ne (by decide) _ _
  have hother : ∀ {t' : Slot} {ρ : CtxWord → U64} {u}, (vs h).k.stk ≠ .task t' →
      (ρ 0 = cfg.layout.dummy_task ∨ cfg.layout.stackOf (ρ 1) = some (.task t')) →
      TaskWaits cfg σ ρ u → TaskWaits cfg (σ.callSwitch cfg.layout h s (oldCtx s h t)
        (newCtx s h t) (f ())) ρ u := by
    intro t' ρ u hne hρ hw
    refine hw.park rfl (hρ.imp_right fun hst ha => hne ?_)
    rw [ha, hregs, hsp] at hst
    exact Option.some.inj hst
  have hne : ∀ {h'}, h' ≠ h → (σ.callSwitch cfg.layout h s (oldCtx s h t) (newCtx s h t)
      (f ())).harts h' = σ.harts h' := fun hne => Function.update_of_ne hne _ _
  refine ⟨fun h' hh' hs' => ?_, fun h' hh' t' ht hs' => ?_, fun h' hh' t' ρ ht hs' => ?_,
    fun _ t' hlt hno => ?_, fun hc => ?_⟩
  · by_cases hhh : h' = h
    · rw [hhh]
      show Text _ (Function.update σ.harts h _ h).code
      rw [Function.update_self]
      exact asm_switch_to _ _
    · rw [Function.update_of_ne hhh] at hs'
      rw [hne hhh]
      exact hJ.asm h' hh' hs'
  · by_cases hhh : h' = h
    · rw [hhh, Function.update_self] at hs'
      cases hs'
    · rw [Function.update_of_ne hhh] at hs' ht
      rw [hview t']
      exact (hJ.runs h' hh' t' ht hs').of (by rw [hne hhh]) fun a ha => ⟨ha, rfl⟩
  · rw [hstk h'] at ht
    rw [hview t']
    by_cases hhh : h' = h
    · rw [hhh, Function.update_self] at hs'
      rw [hhh] at ht
      cases hs'
      obtain ⟨b, hc, _⟩ := hJ.runs h hh _ ht hsw
      rw [hcode] at hc
      refine taskWaits_parked (c := f ()) (hc.2 () _ rfl) ⟨(σ.harts h).calls, ?_⟩ ?_
      · show (if _ then _ else _) = _
        rw [(hI.hart h hh).regs, if_pos rfl]
      · rw [Function.update_self]
        exact cfg.layout.switch_ret_ne s
    · rw [Function.update_of_ne hhh] at hs'
      refine hother (fun ht' => hhh (hI.stk_inj hh' hh (ht.trans ht'.symm))) (Or.inr ?_)
        (hJ.leaves h' hh' t' ρ ht hs')
      exact ((hI.contexts hop).leaving h' hh' .sched t' ρ hs' ht).stack
  · have hno' : ∀ h < cfg.harts, (vs h).k.stk ≠ .task t' := fun h hh => hstk h ▸ hno h hh
    rw [hview t']
    refine hother (hno' h hh) ?_ (hJ.waits hop t' hlt hno')
    refine ((hI.contexts hop).task t' hlt hno').imp (fun hinit => hinit 0) fun hr => ?_
    obtain ⟨h0, hr⟩ := hr
    exact hr.stack
  · refine absurd ?_ hc
    rw [update_k]
    split
    · rfl
    · exact hop

/-- The registers, at the `ret` of `switch_to`, are the context of the task. -/
theorem Inv.loaded (hI : Inv cfg σ vs) (hh : h < cfg.harts) {c : CtxPtr} {f : Unit → Code}
    (hi : (σ.harts h).interrupted = false)
    (hcode : (σ.harts h).code = .op (.ret c (.task (.gTasks t))) f)
    (hrun : (vs h).k.run = some t) (i : CtxWord) :
    ctxOf (σ.harts h).regs i = σ.mem (.context (.gTasks t) i) := by
  obtain ⟨_, _, _, _, _, _, _, _, hload⟩ := hI.pre_next hh (next_eq hi hcode)
  rw [(hI.hart h hh).regs, hload i]
  exact (hI.owned h hh (.context (.gTasks t) i) (Or.inl hrun)).symm

theorem TaskObjs.ret (hI : Inv cfg σ vs) (hJ : TaskObjs cfg tr σ vs) (hh : h < cfg.harts)
    {fail : Bool} {f : Unit → Code} {w : View} (hi : (σ.harts h).interrupted = false)
    (hcode : (σ.harts h).code = .op (.ret (oldCtx s h t) (newCtx s h t)) f)
    (hk : (vs h).k = .switching s h en t fs ρ)
    (hsaved : ∀ i, σ.mem.ctx (oldCtx s h t) i = ρ i) (hw : Returns cfg s h en t w.k) :
    TaskObjs cfg ((σ, .hart h fail) :: tr)
      (σ.setHart h ((σ.harts h).afterRet cfg.layout σ.parked)) (Function.update vs h w) := by
  have hop : (vs 0).k.stage = .opened := hI.opened h hh (by rw [hk]; rfl)
  have hview : ∀ t, viewBy (byTask cfg.layout t) ((σ, .hart h fail) :: tr) =
      viewBy (byTask cfg.layout t) tr := fun t =>
    viewBy_skip fun _ => objEvent_next (next_eq hi hcode)
  have hstk : (vs h).k.stk = switchStack s h t := by
    rw [hk]
    cases s <;> rfl
  have hne : ∀ {h'}, h' ≠ h → (σ.setHart h ((σ.harts h).afterRet cfg.layout σ.parked)).harts h' =
      σ.harts h' := fun hne => Function.update_of_ne hne _ _
  refine ⟨fun h' hh' hs' => ?_, fun h' hh' t' ht hs' => ?_, fun h' hh' t' ρ' ht hs' => ?_,
    fun _ t' hlt hno => ?_, fun hc => ?_⟩
  · by_cases hhh : h' = h
    · rw [hhh, Function.update_self] at hs'
      exact absurd hw.sw hs'
    · rw [Function.update_of_ne hhh] at hs'
      rw [hne hhh]
      exact hJ.asm h' hh' hs'
  · rw [hview t']
    by_cases hhh : h' = h
    swap
    · rw [Function.update_of_ne hhh] at hs' ht
      exact (hJ.runs h' hh' t' ht hs').of (by rw [hne hhh]) fun a ha => ⟨ha, rfl⟩
    rw [hhh, Function.update_self, hw.stk] at ht
    rw [hhh]
    cases s with
    | sched => cases ht
    | scheduler =>
      cases ht
      refine ⟨true, ?_, fun hb => by cases hb⟩
      have hrun : (vs h).k.run = some t := by rw [hk]; rfl
      have hno : ∀ h' < cfg.harts, (vs h').k.stk ≠ .task t := by
        intro h' hh' hs
        obtain rfl := hI.run_uniq hh hrun h' hh' (hI.stk_run hh' hs)
        rw [hstk] at hs
        cases hs
      have hwait := hJ.waits hop t (((hI.table hop).state t).running h hh hrun).2 hno
      rw [show (fun i => σ.mem (.context (.gTasks t) i)) = ctxOf (σ.harts h).regs from
        funext fun i => (hI.loaded hh hi hcode hrun i).symm] at hwait
      show ObjSafe (Function.update σ.harts h _ h).code _
      rw [Function.update_self]
      rcases afterRet_leads cfg.layout σ.parked (σ.harts h) with hc | hc
      · rw [hc]
        exact objSafe_crash _
      · exact hwait _ hc
  · rw [hview t']
    by_cases hhh : h' = h
    · rw [hhh, Function.update_self, hw.sw] at hs'
      cases hs'
    · rw [Function.update_of_ne hhh] at hs' ht
      exact (hJ.leaves h' hh' t' ρ' ht hs').of rfl
  · rw [hview t']
    by_cases hout : s = .sched ∧ t' = t
    · obtain ⟨rfl, rfl⟩ := hout
      have hleave := hJ.leaves h hh t' ρ hstk (by rw [hk]; rfl)
      rw [← funext hsaved] at hleave
      exact hleave.of rfl
    · refine (hJ.waits hop t' hlt fun h' hh' hs => ?_).of rfl
      by_cases hhh : h' = h
      · rw [hhh, hstk] at hs
        cases s with
        | sched =>
          cases hs
          exact hout ⟨rfl, rfl⟩
        | scheduler => cases hs
      · refine hno h' hh' ?_
        rw [Function.update_of_ne hhh]
        exact hs
  · refine absurd ?_ hc
    rw [update_k]
    split
    · exact hw.stage
    · exact hop

end

/-! ## Every run -/

theorem TaskObjs.move (hI : Inv cfg σ vs) (hJ : TaskObjs cfg tr σ vs)
    (hs : σ.step cfg.layout cfg.harts e = some σ') (hm : Move cfg σ vs e σ' vs') :
    TaskObjs cfg ((σ, e) :: tr) σ' vs' := by
  have hm' := hm
  cases hm with
  | op hh hi hcode hsimple hp hx hgo =>
    simp only [State.step, if_pos hh, hi, hcode] at hs
    exact hJ.op hI hh hi hcode hsimple hs hp hx hgo
  | call hh hi hcode hk => exact hJ.call hI hh hi hcode hk
  | ret hh hi hcode hk hsaved hw => exact hJ.ret hI hh hi hcode hk hsaved hw
  | loop hh hi hcode => exact hJ.still hI (quiet_loop hi hcode) hm'
  | trap hh hi => exact hJ.still hI (quiet_trap hi) hm'
  | compute hh => exact hJ.still hI (Or.inl rfl) hm'
  | timer hh => exact hJ.still hI (Or.inl rfl) hm'

theorem taskObjs_boot : TaskObjs cfg [] σ (bootViews σ) where
  asm _ _ hs := absurd rfl hs
  runs _ _ _ ht := by cases ht
  leaves _ _ _ _ ht := by cases ht
  waits ho := by cases ho
  closed _ _ := rfl

/-- A task that makes a call, at the top of its loop. -/
theorem TaskObjs.before (hI : Inv cfg σ vs) (hJ : TaskObjs cfg tr σ vs) (hh : h < cfg.harts)
    {f : Unit → Code} (hcode : (σ.harts h).code = .op (.loop .dummy_task) f) (c : AtomicCall) :
    TaskObjs cfg tr (σ.goto h ((Atomic.call c).bind fun _ => .op (.loop .dummy_task) f)) vs := by
  refine hJ.goto hI hh (fun _ => Ghost.Same.refl _) (fun _ => rfl) (fun hs => ?_) fun u b hc => ?_
  · have hasm := hJ.asm h hh hs
    rw [hcode] at hasm
    cases hasm.1
  · rw [hcode] at hc
    obtain ⟨⟨rfl, hcall, _⟩, -⟩ := hc
    exact Obj.bind (obj_call c trivial hcall ⟨⟨rfl, rfl, rfl⟩, fun _ _ hw => hw.elim⟩)

/-- A task that stores to an object, at the top of its loop. -/
theorem TaskObjs.write (hI : Inv cfg σ vs) (hJ : TaskObjs cfg tr σ vs) (hh : h < cfg.harts)
    {f : Unit → Code} (hcode : (σ.harts h).code = .op (.loop .dummy_task) f) {sz : Width} {a : ℕ}
    {x : U64} : TaskObjs cfg tr (σ.writeObj h sz a x) vs := by
  refine hJ.step hI hh (fun _ _ => rfl) (fun _ => rfl) (fun _ => rfl) (fun _ _ => rfl)
    (fun h' hne b hr => writeObj_resv hne hr) rfl (hJ.asm h hh) (fun t ht hs => ?_) Iff.rfl
    fun _ _ _ _ => rfl
  obtain ⟨b, hc, -⟩ := hJ.runs h hh t ht hs
  refine ⟨b, hc, fun hb sz' a' r l hl => ?_⟩
  rw [hcode] at hc
  rw [hc.1.2.2] at hl
  cases hl

/-- What goes on in memory is not about the objects. -/
theorem Inv.of_objs (hI : Inv cfg σ vs) (hharts : σ'.harts = σ.harts) (hmem : σ'.mem = σ.mem)
    (hparked : σ'.parked = σ.parked) : Inv cfg σ' vs := by
  have h0 := cfg.harts_pos
  have hx := hI.replace_same h0 hmem hparked (x := σ.harts 0)
    (hharts.trans (Function.update_eq_self 0 σ.harts).symm) (hI.hart 0 h0)
    (hI.ok 0 h0) (hI.safe 0 h0) ⟨rfl, rfl, rfl, rfl, rfl, rfl, rfl, rfl⟩ rfl rfl rfl
  rwa [Function.update_eq_self] at hx

theorem taskObjs_step {ce : ClientEvent AtomicCall} {tr : History State (ClientEvent AtomicCall)}
    (hI : Inv cfg σ vs) (hJ : TaskObjs cfg (kernelTrace tr) σ vs)
    (hs : (clients cfg Atomic.call).step σ ce = some σ') :
    ∃ vs', Inv cfg σ' vs' ∧ TaskObjs cfg (kernelTrace ((σ, ce) :: tr)) σ' vs' := by
  cases ce with
  | kernel e =>
    obtain ⟨vs', hm, hI'⟩ := hI.step hs
    exact ⟨vs', hI', hJ.move hI hs hm⟩
  | call h c =>
    simp only [clients] at hs
    split at hs
    · next hh =>
      obtain ⟨hI', f, hcode, rfl⟩ := hI.before_step hh
        (fun hk => does_call c hk fun _ _ hk' => ⟨_, hk'⟩) hs
      exact ⟨vs, hI', hJ.before hI hh hcode c⟩
    · cases hs
  | store h sz a x =>
    simp only [clients] at hs
    split at hs
    · next hc =>
      cases hs
      obtain ⟨hh, htop⟩ := hc
      unfold State.atTop at htop
      split at htop
      · next f hcode =>
        exact ⟨vs, hI.of_objs rfl rfl rfl, hJ.write hI hh hcode⟩
      · cases htop
    · cases hs

/-- What a run of tasks that call the functions of atomic.h keeps. -/
theorem taskObjs {tr : History State (ClientEvent AtomicCall)}
    (hr : Run (clients cfg Atomic.call) tr σ) :
    ∃ vs, Inv cfg σ vs ∧ TaskObjs cfg (kernelTrace tr) σ vs := by
  refine Run.invariant (fun tr σ => ∃ vs, Inv cfg σ vs ∧ TaskObjs cfg (kernelTrace tr) σ vs)
    (fun σ hb => ⟨bootViews σ, Inv.boot hb, taskObjs_boot⟩) (fun tr σ ce σ' _ hI hs => ?_) hr
  obtain ⟨vs, hI, hJ⟩ := hI
  exact taskObjs_step hI hJ hs

end GQuuuuuunix.Proof
