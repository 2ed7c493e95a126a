import GQuuuuuunix.Proof.Adequacy
import GQuuuuuunix.Proof.Text
import GQuuuuuunix.Kernel.History

/-! # Where the code of a hart comes from

What a hart has left to run was put together from the functions of the source. Two things are
read off their text: an `sret` goes on with the program whose interrupt put it there, and the
`switch_to` of `scheduler` with the rest of the round it was called in. -/

namespace GQuuuuuunix.Proof
open Lib Kernel
set_option autoImplicit false

variable {α β : Type}

/-! ## The text of the functions -/

/-- What follows an `sret` satisfies `P`, and what follows a `switch_to` is as in the source. -/
def Shape (P : Snapshot → KProg α → Prop) : (o : Op) → (o.Ret → KProg α) → Prop
  | .sret s, k => P s (k ())
  | .call_switch_to .scheduler old new, k =>
    ∃ c t f, old = .cpu c ∧ new = .task (.gTasks t) ∧ k () = (afterSwitch c t).bind f
  | _, _ => True

abbrev Shaped (P : Snapshot → KProg α → Prop) (p : KProg α) : Prop := p.Forall (Shape P)

/-- A function of C: it has no `sret`. -/
abbrev IsC (p : KProg α) : Prop := Shaped (fun _ _ => False) p

theorem Shaped.mono {P P' : Snapshot → KProg α → Prop} {p : KProg α} (hp : Shaped P p)
    (h : ∀ s c, P s c → P' s c) : Shaped P' p := by
  refine Prog.Forall.mono (fun o k hk => ?_) hp
  unfold Shape at hk ⊢
  split
  · exact h _ _ hk
  · exact hk
  · trivial

theorem Shaped.bind {P : Snapshot → KProg α → Prop} {P' : Snapshot → KProg β → Prop}
    {p : KProg α} {f : α → KProg β} (hp : Shaped P p) (h : ∀ s c, P s c → P' s (c.bind f))
    (hf : ∀ a, Shaped P' (f a)) : Shaped P' (p.bind f) := by
  refine Prog.Forall.bind (fun o k hk => ?_) hf hp
  unfold Shape at hk ⊢
  split
  · exact h _ _ hk
  · obtain ⟨c, t, g, ho, hn, hk⟩ := hk
    refine ⟨c, t, fun r => (g r).bind f, ho, hn, ?_⟩
    show (k ()).bind f = _
    rw [hk, Prog.bind_assoc]
  · trivial

theorem IsC.bind {P : Snapshot → KProg β → Prop} {p : KProg α} {f : α → KProg β} (hp : IsC p)
    (hf : ∀ a, Shaped P (f a)) : Shaped P (p >>= f) :=
  Shaped.bind hp (fun _ _ h => h.elim) hf

/-- The operations that the rules for `switch_to` and `sret` do not speak of. -/
def Op.straight : Op → Bool
  | .sret _ | .call_switch_to .scheduler _ _ => false
  | _ => true

theorem shape_straight {P : Snapshot → KProg α → Prop} {o : Op} {k : o.Ret → KProg α}
    (ho : Op.straight o = true) : Shape P o k := by
  unfold Shape
  split
  · cases ho
  · cases ho
  · trivial

theorem isC_one {o : Op} (ho : Op.straight o = true) : IsC (one o) := by
  exact ⟨shape_straight ho, fun _ => trivial⟩

theorem isC_ite {c : Prop} [Decidable c] {p q : KProg α} (hp : IsC p) (hq : IsC q) :
    IsC (if c then p else q) := by
  split
  · exact hp
  · exact hq

/-- A function without `sret` and without the `switch_to` of `scheduler`. -/
theorem isC_straight {p : KProg α} (hp : Text (fun o => Op.straight o = true) p) : IsC p :=
  hp.mono fun _ _ ho => shape_straight ho

theorem straight_plain (o : Op) (ho : Op.special o = false) : Op.straight o = true := by
  cases o <;> first | rfl | cases ho

theorem Plain.isC {p : KProg α} (hp : Plain p) : IsC p := isC_straight (hp.text straight_plain)

theorem isC_yield : IsC yield :=
  isC_straight (text_yield straight_plain (fun _ _ => rfl) rfl fun _ => rfl)

theorem isC_scan_body (c : ℕ) (i : Slot) : IsC (scan_body c i) := by
  refine (plain_call_acquire _).isC.bind fun _ => (isC_one rfl).bind fun _ =>
    isC_ite ?_ (plain_call_release _).isC
  refine (isC_one rfl).bind fun _ => (isC_one rfl).bind fun _ => (isC_one rfl).bind fun _ =>
    (isC_one rfl).bind fun _ => ⟨⟨c, i, .pure, rfl, rfl, ?_⟩, fun _ => (plain_afterSwitch c i).isC⟩
  exact (Prog.bind_pure (afterSwitch c i)).symm

theorem isC_scan_round (c t : ℕ) : IsC (scan_round c t) := by
  unfold scan_round
  split
  · exact (isC_scan_body c _).bind fun _ => ⟨trivial, fun _ => trivial⟩
  · trivial

theorem isC_round (l : Loop) : IsC l.round := by
  cases l with
  | test_set lk => exact (plain_test_set_round lk).isC
  | store c v => exact (plain_store_round c v).isC
  | barrier => exact plain_barrier_round.isC
  | scheduler c => exact (plain_scheduler_round c).isC
  | scan c t => exact isC_scan_round c t
  | dummy_task => exact isC_straight (text_dummy_task_round straight_plain rfl)
  | atomic_store sz a x => exact isC_straight (text_obj_store_round sz a x (fun _ => rfl) rfl)
  | cmp_xchg sz a e d => exact isC_straight (text_cmp_xchg_round sz a e d (fun _ => rfl) rfl)

/-! ### trap.c, kvec.s, switch.s -/

theorem isC_cur_task_running : IsC cur_task_running :=
  isC_straight (text_cur_task_running straight_plain)

theorem isC_software_interrupt : IsC software_interrupt := by
  have hack : IsC (do
      let x ← r_sip
      w_sip (x &&& ~~~2)) := (isC_one rfl).bind fun _ => ⟨trivial, fun _ => trivial⟩
  have hyield : IsC (do
      if ← cur_task_running then
        let data ← load .time_data
        let bit ← load .time_mantissa_bit
        let fraction_decimal := get_time_decimal data bit
        let data ← load .time_data
        let bit ← load .time_mantissa_bit
        printf (.tick (data >>> bit.toNat) fraction_decimal)
        yield
      let x ← r_sip
      w_sip (x &&& ~~~2)) := by
    refine isC_cur_task_running.bind fun _ => isC_ite ?_ hack
    exact (isC_one rfl).bind fun _ => (isC_one rfl).bind fun _ => (isC_one rfl).bind fun _ =>
      (isC_one rfl).bind fun _ => (isC_one rfl).bind fun _ => isC_yield.bind fun _ => hack
  refine (isC_one rfl).bind fun _ => (isC_one rfl).bind fun _ => isC_ite ?_ hyield
  exact (isC_one rfl).bind fun _ => (isC_one rfl).bind fun _ => (isC_one rfl).bind fun _ =>
    (isC_one rfl).bind fun _ => hyield

theorem isC_kernel_trap_handler : IsC kernel_trap_handler := by
  have hend : ∀ sepc sstatus, IsC (do
      w_sepc sepc
      w_sstatus sstatus) := fun _ _ => (isC_one rfl).bind fun _ => ⟨trivial, fun _ => trivial⟩
  refine (isC_one rfl).bind fun sepc => (isC_one rfl).bind fun sstatus =>
    (isC_one rfl).bind fun scause => ?_
  have hcase : IsC (do
      if scause = 0x8000000000000001 then
        software_interrupt
      w_sepc sepc
      w_sstatus sstatus) := isC_ite (isC_software_interrupt.bind fun _ => hend _ _) (hend _ _)
  have hintr : IsC (do
      if (← intr_get) ≠ 0 then
        PANIC .trap_intr_on
      if scause = 0x8000000000000001 then
        software_interrupt
      w_sepc sepc
      w_sstatus sstatus) :=
    plain_intr_get.isC.bind fun _ => isC_ite ((isC_one rfl).bind fun _ => hcase) hcase
  exact isC_ite ((isC_one rfl).bind fun _ => hintr) hintr

theorem isC_switch_to (old new : CtxPtr) : IsC (switch_to old new) :=
  isC_straight (text_switch_to straight_plain old new rfl)

/-- `kernelvec` ends with the `sret` of the program it was entered from. -/
theorem shaped_kernelvec (s : Snapshot) :
    Shaped (fun s' c => s' = s ∧ c = .pure ()) (kernelvec s) :=
  (isC_one rfl).bind fun _ =>
    (isC_straight (text_each (fun _ => text_op straight_plain rfl) _)).bind fun _ =>
    (isC_one rfl).bind fun _ => isC_kernel_trap_handler.bind fun _ => (isC_one rfl).bind fun _ =>
      (isC_straight (text_each (fun _ => text_op straight_plain rfl) _)).bind fun _ =>
      (isC_one rfl).bind fun _ =>
        ⟨⟨rfl, rfl⟩, fun _ => trivial⟩

/-! ## The code of a run -/

variable {cfg : Config} {σ σ' : State} {vs vs' : ℕ → View} {tr : Trace} {e : Event} {h : ℕ}

/-- The program that `sret` goes on with was interrupted. -/
def TrapIn (tr : Trace) (s : Snapshot) (c : Code) : Prop := ∃ x ∈ tr, Interrupted s c x

theorem shaped_cons {x : State × Event} {c : Code} (hc : Shaped (TrapIn tr) c) :
    Shaped (TrapIn (x :: tr)) c :=
  hc.mono fun _ _ ⟨y, hy, hi⟩ => ⟨y, List.mem_cons_of_mem _ hy, hi⟩

theorem IsC.shaped {c : Code} (hc : IsC c) : Shaped (TrapIn tr) c := hc.mono fun _ _ h => h.elim

structure Codes (cfg : Config) (tr : Trace) (σ : State) : Prop where
  hart : ∀ h < cfg.harts, Shaped (TrapIn tr) (σ.harts h).code
  parked : ∀ sp p, σ.parked sp = some p → Shaped (TrapIn tr) p.code
  scheduler : ∀ sp p h, cfg.layout.stackOf sp = some (.hart h) → σ.parked sp = some p →
    ∃ c t f, p.code = (afterSwitch c t).bind f

/-- One hart goes on with other code. -/
theorem Codes.goto (hc : Codes cfg tr σ) {x : State × Event} {y : Hart}
    (hh : σ'.harts = Function.update σ.harts h y) (hp : σ'.parked = σ.parked)
    (hy : h < cfg.harts → Shaped (TrapIn (x :: tr)) y.code) : Codes cfg (x :: tr) σ' where
  hart h' hh' := by
    rw [hh]
    by_cases hne : h' = h
    · subst hne
      rw [Function.update_self]
      exact hy hh'
    · rw [Function.update_of_ne hne]
      exact shaped_cons (hc.hart h' hh')
  parked sp p hs := shaped_cons (hc.parked sp p (hp ▸ hs))
  scheduler sp p h hsp hs := hc.scheduler sp p h hsp (hp ▸ hs)

/-- What is left after an operation. -/
theorem Codes.rest (hc : Codes cfg tr σ) (hh : h < cfg.harts) {o : Op} {f : o.Ret → Code}
    (hcode : (σ.harts h).code = .op o f) :
    Shape (TrapIn tr) o f ∧ ∀ r, Shaped (TrapIn tr) (f r) := by
  have h := hc.hart h hh
  rw [hcode] at h
  exact h

theorem Codes.trap (hc : Codes cfg tr σ) (hh : h < cfg.harts) {fail : Bool}
    (hi : (σ.harts h).interrupted = true) :
    Codes cfg ((σ, .hart h fail) :: tr) (σ.setHart h ((σ.harts h).trap h)) := by
  refine hc.goto rfl rfl fun _ => ?_
  show Shaped _ (if (σ.harts h).stvec then _ else crash)
  split
  · refine Shaped.bind (shaped_kernelvec _) ?_ fun _ => shaped_cons (hc.hart h hh)
    rintro s c ⟨rfl, rfl⟩
    exact ⟨_, List.mem_cons_self, hi, rfl, rfl⟩
  · exact ⟨trivial, fun _ => trivial⟩

theorem Codes.call (hI : Inv cfg σ vs) (hc : Codes cfg tr σ) (hh : h < cfg.harts) {s : SwitchSite}
    {en : I32} {t : Slot} {fs : List Fn} {f : Unit → Code} {x : State × Event}
    (hcode : (σ.harts h).code = .op (.call_switch_to s (oldCtx s h t) (newCtx s h t)) f)
    (hk : (vs h).k = .atSwitch s h en t fs) :
    Codes cfg (x :: tr) (σ.callSwitch cfg.layout h s (oldCtx s h t) (newCtx s h t) (f ())) := by
  obtain ⟨hshape, hrest⟩ := hc.rest hh hcode
  have hsp : (Function.update (σ.harts h).regs .ra (cfg.layout.switch_ret s)) .sp =
      (vs h).regs .sp := by
    rw [Function.update_of_ne (by decide), (hI.hart h hh).regs]
  refine ⟨fun h' hh' => ?_, fun sp p hp => ?_, fun sp p c hs hp => ?_⟩
  · show Shaped _ (Function.update σ.harts h _ h').code
    by_cases hne : h' = h
    · subst hne
      rw [Function.update_self]
      exact (isC_switch_to _ _).shaped
    · rw [Function.update_of_ne hne]
      exact shaped_cons (hc.hart h' hh')
  · dsimp only [State.callSwitch] at hp
    split at hp
    · cases hp
      exact shaped_cons (hrest ())
    · exact shaped_cons (hc.parked sp p hp)
  · dsimp only [State.callSwitch] at hp
    split at hp
    · next heq =>
      cases hp
      -- only `scheduler` calls `switch_to` on the stack of a hart
      cases s with
      | sched =>
        rw [heq, hsp, (hI.ok h hh).sp (by rw [hk]; rfl), hk] at hs
        cases hs
      | scheduler =>
        obtain ⟨c', t', g, _, _, hf⟩ := hshape
        exact ⟨c', t', g, hf⟩
    · exact hc.scheduler sp p c hs hp

theorem Codes.ret (hc : Codes cfg tr σ) {x : State × Event} :
    Codes cfg (x :: tr) (σ.setHart h ((σ.harts h).afterRet cfg.layout σ.parked)) := by
  refine hc.goto rfl rfl fun _ => ?_
  unfold Hart.afterRet
  split
  · exact (isC_straight (text_dummy_task straight_plain rfl)).shaped
  · split
    · next p hp =>
      split
      · exact shaped_cons (hc.parked _ p hp)
      · exact ⟨trivial, fun _ => trivial⟩
    · exact ⟨trivial, fun _ => trivial⟩

theorem codes (hg : GRun cfg tr σ vs) : Codes cfg tr σ := by
  induction hg with
  | boot hb =>
    refine ⟨fun h hh => ?_, fun sp p hp => ?_, fun sp p _ _ hp => ?_⟩
    · rw [(hb.harts h hh).code]
      exact (plain_kernel_main _ _).isC.shaped
    · rw [hb.parked] at hp
      cases hp
    · rw [hb.parked] at hp
      cases hp
  | @step tr σ σ' vs vs' e hg hI hm hI' ih =>
    cases hm with
    | trap hh hi _ => exact ih.trap hh hi
    | op hh hi hcode hs hp hx _ =>
      exact ih.goto hx.harts hx.parked fun _ => shaped_cons ((ih.rest hh hcode).2 _)
    | loop hh hi hcode =>
      refine ih.goto rfl rfl fun _ => ?_
      exact Shaped.bind (isC_round _) (fun _ _ h => h.elim) fun r =>
        shaped_cons ((ih.rest hh hcode).2 r)
    | call hh hi hcode hk => exact ih.call hI hh hcode hk
    | ret hh hi hcode hk hsaved hw => exact ih.ret
    | compute hh => exact ih.goto rfl rfl fun hh => shaped_cons (ih.hart _ hh)
    | timer hh => exact ih.goto rfl rfl fun hh => shaped_cons (ih.hart _ hh)

end GQuuuuuunix.Proof
