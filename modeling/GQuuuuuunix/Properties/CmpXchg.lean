import GQuuuuuunix.Proof.Reservations

/-! # CMP_XCHG is atomic

With interrupts on, a task in `CMP_XCHG` may be interrupted between its `lr` and its `sc`, and may
even go on with the `sc` on another hart. -/

namespace GQuuuuuunix.Properties
open Lib Kernel Proof
set_option autoImplicit false

variable {cfg : Config} {L : Layout} {n : ℕ} {σ σ' : State} {vs : ℕ → View} {tr : Trace} {e : Event}
  {h : ℕ} {t : Slot} {ty : AtomicTy} {p : State × Event → Bool}

/-! ## What happened since a call began -/

theorem callSince_of_callIn {c : AtomicCall} (hc : callIn p tr = some c) :
    ∃ since, CallSince p c tr since := by
  have hf : tr.findSome? (callTurn p) = some (some c) := Option.join_eq_some_iff.1 hc
  obtain ⟨since, b, pre, rfl, hb, hsince⟩ := List.findSome?_eq_some_iff.1 hf
  unfold callTurn at hb
  split at hb
  swap
  · cases hb
  next hp =>
  split at hb <;> cases hb
  next hev => exact ⟨since, b, pre, rfl, hp, hev, hsince⟩

/-- The instructions of a call are those that came since it began. -/
theorem insns_since {b : State × Event} {pre since : Trace} {c : AtomicCall} (hp : p b = true)
    (hb : objEvent b = some (.begins c)) (hs : ∀ z ∈ since, callTurn p z = none) :
    (viewBy p (since ++ b :: pre)).insns = since.filterMap (insnBy p) := by
  induction since with
  | nil =>
    rw [List.nil_append, viewBy_see hp hb]
    rfl
  | cons z since ih =>
    have ih := ih fun y hy => hs y (List.mem_cons_of_mem _ hy)
    have hz := hs z List.mem_cons_self
    rw [List.cons_append, List.filterMap_cons]
    unfold callTurn at hz
    unfold insnBy
    by_cases hpz : p z = true
    swap
    · rw [viewBy_skip fun h => absurd h hpz, if_neg hpz, ih]
      rfl
    rw [if_pos hpz] at hz ⊢
    cases hev : objEvent z with
    | none =>
      rw [viewBy_skip fun _ => hev, ih]
      rfl
    | some ev =>
      rw [viewBy_see hpz hev]
      cases ev with
      | begins c =>
        rw [hev] at hz
        cases hz
      | insn i r => exact congrArg _ ih
      | ends c =>
        rw [hev] at hz
        cases hz

theorem insnBy_some {x : State × Event} {i : AtomicInsn} {r : U64}
    (hx : insnBy p x = some (i, r)) : p x = true ∧ objEvent x = some (.insn i r) := by
  unfold insnBy at hx
  split at hx
  swap
  · cases hx
  next hp =>
  split at hx <;> cases hx
  next hev => exact ⟨hp, hev⟩

/-- What a step leaves of the objects when it is no instruction, or one that does not write. -/
theorem objs_idle (hs : σ.step L n e = some σ') (hp : p (σ, e) = true)
    (hi : ∀ x : Done, insnBy p (σ, e) = some x → x.Idle) : σ'.objs = σ.objs := by
  funext a
  refine objs_unwritten hs ?_
  unfold insnBy at hi
  rw [if_pos hp] at hi
  unfold writesObj
  split
  · next hev =>
    rw [hev] at hi
    exact (hi _ rfl).elim
  · next b _ r hev =>
    rw [hev] at hi
    have hr : r ≠ 0 := hi _ rfl
    rw [beq_false_of_ne hr, Bool.and_false]
  · rfl

/-- What the kernel did in a run of the tasks, it did from a state of that run. -/
theorem kernelTrace_run {κ : Type} {prog : κ → KProg Unit}
    {tr : History State (ClientEvent κ)} (hr : Run (clients cfg prog) tr σ)
    {post pre : Trace} {τ : State} (htr : kernelTrace tr = post ++ (τ, e) :: pre) :
    (∃ tr', Run (clients cfg prog) tr' τ ∧ kernelTrace tr' = pre) ∧
      ∃ τ', τ.step cfg.layout cfg.harts e = some τ' := by
  obtain ⟨l₁, l₂, rfl, -, hl₂⟩ := List.filterMap_eq_append_iff.1 htr
  obtain ⟨l₃, ⟨τ', ce⟩, l₄, rfl, -, hx, hl₄⟩ := List.filterMap_eq_cons_iff.1 hl₂
  cases ce with
  | kernel e' =>
    cases hx
    rw [← List.append_assoc] at hr
    exact ⟨⟨l₄, hr.past, hl₄⟩, hr.moved⟩
  | _ => cases hx

theorem step_of_mem {κ : Type} {prog : κ → KProg Unit} {tr : History State (ClientEvent κ)}
    (hr : Run (clients cfg prog) tr σ) {z : State × Event} (hz : z ∈ kernelTrace tr) :
    ∃ τ, z.1.step cfg.layout cfg.harts z.2 = some τ := by
  obtain ⟨post, pre, htr⟩ := List.append_of_mem hz
  exact (kernelTrace_run hr htr).2

/-- The newest instruction of a call, and where it was performed. -/
theorem newest_insn {since : Trace} {i : AtomicInsn} {r : U64} {l : List Done}
    (hs : since.filterMap (insnBy p) = (i, r) :: l) : ∃ post y pre, since = post ++ y :: pre ∧
      (p y = true ∧ objEvent y = some (.insn i r)) ∧ (∀ z ∈ post, insnBy p z = none) ∧
      pre.filterMap (insnBy p) = l := by
  obtain ⟨post, y, pre, rfl, hpost, hy, hpre⟩ := List.filterMap_eq_cons_iff.1 hs
  exact ⟨post, y, pre, rfl, insnBy_some hy, hpost, hpre⟩

/-- A call whose other instructions do not write leaves the objects, but for the newest. -/
theorem rest_idle {κ : Type} {prog : κ → KProg Unit} {tr : History State (ClientEvent κ)}
    (hr : Run (clients cfg prog) tr σ) {post pre rest : Trace} {y : State × Event}
    (htr : kernelTrace tr = post ++ y :: pre ++ rest) (hpost : ∀ z ∈ post, insnBy p z = none)
    (hpre : Idle (pre.filterMap (insnBy p))) : ∀ z ∈ post ++ pre, p z = true →
      ∃ τ, z.1.step cfg.layout cfg.harts z.2 = some τ ∧ τ.objs = z.1.objs := by
  intro z hz hpz
  obtain ⟨τ, hτ⟩ := step_of_mem hr (z := z) (by rw [htr]; simp at hz ⊢; tauto)
  refine ⟨τ, hτ, objs_idle hτ hpz fun x hx => ?_⟩
  rcases List.mem_append.1 hz with hz | hz
  · have hnone : insnBy p z = none := hpost z hz
    rw [show insnBy p z = some x from hx] at hnone
    cases hnone
  · exact hpre x (List.mem_filterMap.2 ⟨z, hz, hx⟩)

/-! ## The instant -/

theorem toReg_ofReg_read (x : U64) : ty.toReg (ty.ofReg (ty.width.read x)) = ty.width.read x := by
  cases ty with
  | atomic_int_t =>
    show Atomic.ofInt (Atomic.toInt (Atomic.ofInt _)) = _
    rw [toInt_ofInt]
    rfl
  | _ => rfl

/-- A hart that is not in `switch_to` is on the stack of the task that `sp` is on. -/
theorem stk_of_next (hI : Inv cfg σ vs) (hJ : TaskObjs cfg tr σ vs) (hh : h < cfg.harts) {o : Op}
    (hn : σ.next h = some o) (ho : o.isAsm = false)
    (ht : cfg.layout.stackOf ((σ.harts h).regs .sp) = some (.task t)) :
    (vs h).k.stk = .task t ∧ (vs h).k.sw = none := by
  have hsw : (vs h).k.sw = none := by
    by_contra hsw
    have hasm := hJ.asm h hh hsw
    obtain ⟨_, f, hcode⟩ := next_some hn
    rw [hcode] at hasm
    have ho' : o.isAsm = true := hasm.1
    rw [ho] at ho'
    cases ho'
  rw [(hI.hart h hh).regs, (hI.ok h hh).sp hsw] at ht
  exact ⟨Option.some.inj ht, hsw⟩

/-- What the program of a task needs for its next operation. -/
theorem objPre_next (hI : Inv cfg σ vs) (hJ : TaskObjs cfg tr σ vs) (hh : h < cfg.harts) {o : Op}
    (hn : σ.next h = some o) (ho : o.isAsm = false)
    (ht : cfg.layout.stackOf ((σ.harts h).regs .sp) = some (.task t)) :
    ∃ b, ObjPre (fun _ => True) o (viewBy (byTask cfg.layout t) tr, b) ∧
      (b = false → Reserved σ h (viewBy (byTask cfg.layout t) tr).insns) := by
  obtain ⟨hstk, hsw⟩ := stk_of_next hI hJ hh hn ho ht
  obtain ⟨b, hc, hres⟩ := hJ.runs h hh t hstk hsw
  obtain ⟨_, f, hcode⟩ := next_some hn
  rw [hcode] at hc
  exact ⟨b, hc.1, hres⟩

theorem objEvent_insn {x : State × Event} {i : AtomicInsn} {r : U64}
    (hx : objEvent x = some (.insn i r)) : ∃ σ g fail, x = (σ, .hart g fail) ∧
      σ.next g = some (.atomic i) ∧ (σ.atomic g fail i).1 = r := by
  obtain ⟨σ, g, fail, o, rfl, hn, ho⟩ := objEvent_some hx
  unfold State.objEvent at ho
  split at ho
  · cases ho
  · injection ho with ho
    injection ho with hi hr
    subst hi
    exact ⟨σ, g, fail, rfl, hn, hr⟩
  · cases ho
  · cases ho

theorem resv_of_sc {g : ℕ} {fail : Bool} {sz : Width} {a : ℕ} {x : U64}
    (hx : (σ.atomic g fail (.sc sz a x)).1 = 0) : σ.objResv g = some a := by
  unfold State.atomic at hx
  dsimp only at hx
  split at hx
  · next hc => exact hc.1
  · cases hx

/-- An `sc` of a task that succeeds finds what the `lr` before it found. -/
theorem sc_finds (hI : Inv cfg σ vs) (hJ : TaskObjs cfg tr σ vs)
    (hs : σ.step cfg.layout cfg.harts e = some σ') (hp : byTask cfg.layout t (σ, e) = true)
    {sz : Width} {a : ℕ} {x r : U64} {l : List Done}
    (hev : objEvent (σ, e) = some (.insn (.sc sz a x) 0))
    (hl : (viewBy (byTask cfg.layout t) tr).insns = (.lr sz a, r) :: l) :
    sz.read (σ.objs a) = r := by
  obtain ⟨_, g, fail, heq, hn, h0⟩ := objEvent_insn hev
  cases heq
  have hg : g < cfg.harts := by
    by_contra hg
    simp only [State.step, if_neg hg] at hs
    cases hs
  obtain ⟨b, hpre, hres⟩ := objPre_next hI hJ hg hn rfl (beq_iff_eq.1 hp)
  exact hres hpre.1 sz a r l hl (resv_of_sc h0)

/-- What a successful `sc` of the call makes of the objects. -/
theorem sc_writes (hs : σ.step L n e = some σ') {a : ℕ} {d : ty.Val}
    (hev : objEvent (σ, e) = some (.insn (.sc ty.width a (ty.toReg d)) 0)) :
    σ'.val ty a = d ∧ ∀ b ≠ a, σ'.objs b = σ.objs b := by
  refine ⟨?_, fun b hb => ?_⟩
  · unfold State.val
    rw [step_objs hs, hev]
    show ty.ofWord (if a = a ∧ (0 : U64) = 0 then _ else _) = d
    rw [if_pos ⟨rfl, rfl⟩, ofWord_write, ofReg_toReg]
  · rw [step_objs hs, hev]
    exact if_neg fun hx => hb hx.1.symm

/-! ## The call -/

section
variable {tr : History State (ClientEvent AtomicCall)} {since pre₀ : Trace} {x : State × Event}
  {a : ℕ} {expected desired : ty.Val} {l : List Done}

/-- The `sc` of the call succeeded: that was the instant. -/
theorem exchanged_at_sc (hr : Run (clients cfg Atomic.call) tr σ)
    (htr : kernelTrace tr = since ++ x :: pre₀) (hpx : byTask cfg.layout t x = true)
    (hx : objEvent x = some (.begins (.cmp_xchg ty a expected desired)))
    (hturn : ∀ z ∈ since, callTurn (byTask cfg.layout t) z = none) (hl : Idle l)
    (hs : since.filterMap (insnBy (byTask cfg.layout t)) =
      (.sc ty.width a (ty.toReg desired), 0) :: (.lr ty.width a, ty.toReg expected) :: l) :
    ExchangedOnce cfg.layout cfg.harts (byTask cfg.layout t) ty a expected desired since
      (ty.toReg expected) := by
  obtain ⟨post, ⟨τ, e⟩, pre, rfl, ⟨hpy, hy⟩, hpost, hpre⟩ := newest_insn hs
  have htr' : kernelTrace tr = post ++ (τ, e) :: (pre ++ x :: pre₀) := by
    rw [htr, List.append_assoc, List.cons_append]
  obtain ⟨⟨tr', hr', htr''⟩, τ', hτ⟩ := kernelTrace_run hr htr'
  obtain ⟨vs', hI', hJ'⟩ := taskObjs hr'
  have hpre' : ∀ z ∈ pre, callTurn (byTask cfg.layout t) z = none := fun z hz =>
    hturn z (List.mem_append_right _ (List.mem_cons_of_mem _ hz))
  have hval : τ.val ty a = expected := by
    have hread := sc_finds hI' hJ' hτ hpy hy (by rw [htr'', insns_since hpx hx hpre', hpre])
    show ty.ofReg (ty.width.read (τ.objs a)) = expected
    rw [hread, ofReg_toReg]
  refine ⟨post, τ, e, pre, rfl, hpy, by rw [hval], ⟨τ', hτ, fun _ => sc_writes hτ hy, ?_⟩, ?_⟩
  · exact fun hne => absurd hval hne
  · refine rest_idle hr htr hpost ?_
    rw [hpre]
    exact hl.cons trivial

/-- The last `lr` of the call found another value: that was the instant. -/
theorem exchanged_at_lr (hr : Run (clients cfg Atomic.call) tr σ)
    (htr : kernelTrace tr = since ++ x :: pre₀) (hl : Idle l) {r : U64}
    (hs : since.filterMap (insnBy (byTask cfg.layout t)) = (.lr ty.width a, r) :: l)
    (hre : r ≠ ty.toReg expected) :
    ExchangedOnce cfg.layout cfg.harts (byTask cfg.layout t) ty a expected desired since
      (ty.toReg (ty.ofReg r)) := by
  obtain ⟨post, ⟨τ, e⟩, pre, rfl, ⟨hpy, hy⟩, hpost, hpre⟩ := newest_insn hs
  obtain ⟨τ', hτ⟩ := step_of_mem hr (z := (τ, e)) (by rw [htr]; simp)
  have hread : r = ty.width.read (τ.objs a) := by
    obtain ⟨_, g, fail, heq, -, hread⟩ := objEvent_insn hy
    cases heq
    exact hread.symm
  refine ⟨post, τ, e, pre, rfl, hpy, ?_, ⟨τ', hτ, fun hval => ?_, fun _ => ?_⟩, ?_⟩
  · rw [hread]
    rfl
  · refine absurd ?_ hre
    rw [← hval, hread]
    exact (toReg_ofReg_read _).symm
  · refine objs_idle hτ hpy fun y hz => ?_
    obtain ⟨i, s⟩ := y
    obtain ⟨-, hev⟩ := insnBy_some hz
    rw [hy] at hev
    cases hev
    trivial
  · refine rest_idle hr htr hpost ?_
    rw [hpre]
    exact hl

/-- A task at the return of `CMP_XCHG`, whatever happened since it called it: the call took effect
at one instant. -/
theorem cmp_xchg_atomic (hr : Run (clients cfg Atomic.call) tr σ) (hh : h < cfg.harts)
    (ht : cfg.layout.stackOf ((σ.harts h).regs .sp) = some (.task t)) {a0 : U64}
    (hn : σ.next h = some (.point (.returned a0)))
    (hc : callIn (byTask cfg.layout t) (kernelTrace tr) =
      some (.cmp_xchg ty a expected desired)) :
    ∃ since, CallSince (byTask cfg.layout t) (.cmp_xchg ty a expected desired) (kernelTrace tr)
        since ∧
      ExchangedOnce cfg.layout cfg.harts (byTask cfg.layout t) ty a expected desired since a0 := by
  obtain ⟨vs, hI, hJ⟩ := taskObjs hr
  obtain ⟨b, ⟨c, hcall, hends⟩, -⟩ := objPre_next hI hJ hh hn rfl ht
  rw [viewBy_call, hc] at hcall
  cases hcall
  obtain ⟨since, hsince⟩ := callSince_of_callIn hc
  obtain ⟨x, pre₀, htr, hpx, hx, hturn⟩ := hsince
  rw [htr, insns_since hpx hx hturn] at hends
  refine ⟨since, ⟨x, pre₀, htr, hpx, hx, hturn⟩, ?_⟩
  obtain ⟨l, r, hl, rfl, hif⟩ := hends
  split at hif
  · next hre =>
    rw [hre, ofReg_toReg]
    rw [hre] at hif
    exact exchanged_at_sc hr htr hpx hx hturn hl hif
  · next hre => exact exchanged_at_lr hr htr hl hif hre

end

/-- Hart 1, in the task in slot 0, is about to return 0 from `c`. -/
def returnsZero (c : AtomicCall) (x : History State (ClientEvent AtomicCall) × State) : Bool :=
  (match x.2.next 1 with
    | some (.point (.returned a0)) => a0 == 0
    | _ => false) &&
    Layout.sample.stackOf ((x.2.harts 1).regs .sp) == some (.task 0) &&
    callIn (byTask .sample 0) (kernelTrace x.1) == some c

/-- The hart on which the task in slot 0 executed an instruction of its call. -/
def insnHart (x : State × Event) : Option ℕ :=
  if (insnBy (byTask .sample 0) x).isSome then (performed x).map Prod.fst else none

/-- The first task changes 0 to 5. Hart 0 preempts it after its `lr`; it goes on with the `sc` on
hart 1, where that fails, and it tries again. -/
theorem cmp_xchg_atomic_moved : ∃ (tr : History State (ClientEvent AtomicCall)) (σ : State)
    (since : Trace), Run (clients (.sample 2 (by decide) (by decide)) Atomic.call) tr σ ∧
      (kernelTrace tr).filterMap insnHart = [1, 1, 1, 0] ∧
      CallSince (byTask .sample 0) (.cmp_xchg .atomic_int_t 7 0 5) (kernelTrace tr) since ∧
      ExchangedOnce .sample 2 (byTask .sample 0) .atomic_int_t 7 0 5 since 0 := by
  obtain ⟨tr, σ, hr, hp⟩ := Run.of_perform (M := clients (.sample 2 (by decide) (by decide))
    Atomic.call) (State.start_booting _ Layout.sample_apart)
    (List.replicate 5 (.kernel (.hart 1 false)) ++ List.replicate 580 (.kernel (.hart 0 false)) ++
      .call 0 (.cmp_xchg .atomic_int_t 7 0 5) :: (List.replicate 3 (.kernel (.hart 0 false)) ++
        .kernel (.timer 0) :: (List.replicate 222 (.kernel (.hart 0 false)) ++
          List.replicate 164 (.kernel (.hart 1 false)))))
    (P := fun x => returnsZero (.cmp_xchg .atomic_int_t 7 0 5) x &&
      (kernelTrace x.1).filterMap insnHart == [1, 1, 1, 0]) (by decide +kernel)
  simp only [returnsZero, Bool.and_eq_true, beq_iff_eq] at hp
  obtain ⟨⟨⟨hn, ht⟩, hc⟩, hharts⟩ := hp
  split at hn
  · next a0 hnext =>
    obtain rfl : a0 = 0 := beq_iff_eq.1 hn
    obtain ⟨since, hs, hx⟩ := cmp_xchg_atomic hr (show 1 < 2 by decide) ht hnext hc
    exact ⟨tr, σ, since, hr, hharts, hs, hx⟩
  · cases hn

end GQuuuuuunix.Properties
