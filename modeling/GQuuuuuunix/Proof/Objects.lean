import GQuuuuuunix.Proof.AtomicCalls

/-! # The atomic objects in a run

What a step does to an object, and what the history says of the calls that are being made. -/

namespace GQuuuuuunix.Proof
open Lib Kernel
set_option autoImplicit false

variable {L : Layout} {n : ℕ} {σ σ' : State} {tr : Trace} {h a : ℕ}
  {p : State × Event → Bool} {x : State × Event}

/-! ## The history of the calls -/

/-- What those have done that `p` selects. -/
def viewBy (p : State × Event → Bool) : Trace → ObjView
  | [] => .start
  | x :: tr =>
    if p x then
      match objEvent x with
      | some ev => (viewBy p tr).see ev
      | none => viewBy p tr
    else viewBy p tr

theorem viewBy_skip (hx : p x = true → objEvent x = none) : viewBy p (x :: tr) = viewBy p tr := by
  by_cases hp : p x = true
  · rw [viewBy, if_pos hp, hx hp]
  · rw [viewBy, if_neg hp]

theorem viewBy_see {ev : ObjEvent} (hp : p x = true) (hx : objEvent x = some ev) :
    viewBy p (x :: tr) = (viewBy p tr).see ev := by
  rw [viewBy, if_pos hp, hx]

theorem callIn_none (hx : callTurn p x = none) : callIn p (x :: tr) = callIn p tr := by
  unfold callIn
  rw [List.findSome?_cons, hx]

theorem callIn_some {c : Option AtomicCall} (hx : callTurn p x = some c) :
    callIn p (x :: tr) = c := by
  unfold callIn
  rw [List.findSome?_cons, hx]
  rfl

theorem viewBy_call : (viewBy p tr).call = callIn p tr := by
  induction tr with
  | nil => rfl
  | cons x tr ih =>
    by_cases hp : p x = true
    swap
    · rw [viewBy_skip fun h => absurd h hp, callIn_none (if_neg hp), ih]
    cases hx : objEvent x with
    | none =>
      have ht : callTurn p x = none := by
        rw [callTurn, if_pos hp, hx]
      rw [viewBy_skip fun _ => hx, callIn_none ht, ih]
    | some ev =>
      rw [viewBy_see hp hx]
      cases ev with
      | begins c =>
        have ht : callTurn p x = some (some c) := by rw [callTurn, if_pos hp, hx]
        rw [callIn_some ht]
        rfl
      | insn i r =>
        have ht : callTurn p x = none := by rw [callTurn, if_pos hp, hx]
        rw [callIn_none ht, ← ih]
        rfl
      | ends c =>
        have ht : callTurn p x = some none := by rw [callTurn, if_pos hp, hx]
        rw [callIn_some ht]
        rfl

/-- The newest instruction of the call in progress, where it was performed. -/
theorem viewBy_insns {i : AtomicInsn} {r : U64} {l : List Done}
    (hv : (viewBy p tr).insns = (i, r) :: l) : ∃ y pre, LastDone p tr y pre ∧
      objEvent y = some (.insn i r) ∧ (viewBy p pre).insns = l ∧
      (viewBy p pre).call = (viewBy p tr).call := by
  induction tr with
  | nil => cases hv
  | cons x tr ih =>
    by_cases hskip : p x = true → objEvent x = none
    · rw [viewBy_skip hskip] at hv ⊢
      obtain ⟨y, pre, ⟨post, rfl, hy, hpost⟩, hev, hl, hc⟩ := ih hv
      refine ⟨y, pre, ⟨x :: post, rfl, hy, fun z hz => ?_⟩, hev, hl, hc⟩
      rcases List.mem_cons.1 hz with rfl | hz
      · exact hskip
      · exact hpost z hz
    · obtain ⟨hp, hx⟩ := Classical.not_imp.1 hskip
      obtain ⟨ev, hev⟩ := Option.ne_none_iff_exists'.1 hx
      rw [viewBy_see hp hev] at hv ⊢
      cases ev with
      | begins c => cases hv
      | ends c => cases hv
      | insn j s =>
        cases hv
        exact ⟨x, tr, ⟨[], rfl, hp, fun z hz => by cases hz⟩, hev, rfl, rfl⟩

/-! ## The event of an operation -/

theorem objEvent_next {fail : Bool} {o : Op} (hn : σ.next h = some o) :
    objEvent (σ, .hart h fail) = σ.objEvent h fail o := by
  show (σ.next h).bind _ = _
  rw [hn]
  rfl

theorem objEvent_interrupted {fail : Bool} (hi : (σ.harts h).interrupted = true) :
    objEvent (σ, .hart h fail) = none := by
  show (σ.next h).bind _ = _
  rw [State.next, if_pos hi]
  rfl

/-- Who did something to the objects, and with which operation. -/
theorem objEvent_some {ev : ObjEvent} (hx : objEvent x = some ev) : ∃ σ g fail o,
    x = (σ, .hart g fail) ∧ σ.next g = some o ∧ σ.objEvent g fail o = some ev := by
  obtain ⟨σ, e⟩ := x
  cases e with
  | hart g fail =>
    obtain ⟨o, hn, ho⟩ := Option.bind_eq_some_iff.1 hx
    exact ⟨σ, g, fail, o, rfl, hn, ho⟩
  | compute g r pc => cases hx
  | timer g => cases hx

/-- The history after an operation, by what the machine answered. -/
theorem viewBy_after {fail : Bool} {o : Op} {r : o.Ret} (hn : σ.next h = some o)
    (hp : p (σ, .hart h fail) = true) (ha : Answer σ h fail o r) :
    viewBy p ((σ, .hart h fail) :: tr) = (viewBy p tr).after o r := by
  cases hev : σ.objEvent h fail o with
  | none =>
    rw [viewBy_skip fun _ => (objEvent_next hn).trans hev]
    unfold ObjView.after
    split <;> first | rfl | cases hev
  | some ev =>
    rw [viewBy_see hp ((objEvent_next hn).trans hev)]
    unfold State.objEvent at hev
    split at hev <;> cases hev
    · rfl
    · rw [show r = _ from ha]
      rfl
    · rfl

/-! ## What an event does to the objects -/

/-- The double word of the object `a`, which was `w`. -/
def objAfter (a : ℕ) (w : U64) : Option ObjEvent → U64
  | some (.insn (.amo f sz b x) r) => if b = a then sz.write w (f.apply r x) else w
  | some (.insn (.sc sz b x) r) => if b = a ∧ r = 0 then sz.write w x else w
  | _ => w

theorem atomic_objs (fail : Bool) (i : AtomicInsn) : (σ.atomic h fail i).2.objs a =
    objAfter a (σ.objs a) (some (.insn i (σ.atomic h fail i).1)) := by
  have hw : ∀ (τ : State) sz b x, (τ.writeObj h sz b x).objs a =
      if b = a then sz.write (τ.objs a) x else τ.objs a := by
    intro τ sz b x
    show Function.update τ.objs b _ a = _
    by_cases hb : b = a
    · subst hb
      rw [Function.update_self, if_pos rfl]
    · rw [Function.update_of_ne (Ne.symm hb), if_neg hb]
  cases i with
  | lr sz b => rfl
  | sc sz b x =>
    unfold State.atomic
    by_cases hc : σ.objResv h = some b ∧ fail = false
    · simp only [if_pos hc, objAfter, hw, and_true]
      rfl
    · simp only [if_neg hc, objAfter]
      rw [if_neg (by simp)]
      rfl
  | amo f sz b x =>
    show (σ.writeObj h sz b _).objs a = if b = a then _ else _
    rw [hw]
    by_cases hb : b = a
    · subst hb
      rfl
    · rw [if_neg hb, if_neg hb]

theorem exec_objs {fail : Bool} {o : Op} {k : o.Ret → Code} (ho : ∀ i, o ≠ .atomic i)
    (hx : σ.exec L h fail o k = some σ') : σ'.objs = σ.objs := by
  have hwrite : ∀ (τ : State) l y, (τ.write h l y).objs = τ.objs := by
    intro τ l y
    cases l <;> rfl
  cases o with
  | atomic i => exact absurd rfl (ho i)
  | store l y =>
    cases hx
    exact hwrite _ _ _
  | amoswap c y =>
    cases hx
    exact hwrite _ _ _
  | sd r off =>
    cases hx
    exact hwrite _ _ _
  | sc c y =>
    simp only [State.exec] at hx
    split at hx <;> cases hx
    · exact hwrite _ _ _
    · rfl
  | panic s => cases hx
  | crash => cases hx
  | _ =>
    cases hx
    rfl

theorem step_objs {e : Event} (hs : σ.step L n e = some σ') :
    σ'.objs a = objAfter a (σ.objs a) (objEvent (σ, e)) := by
  cases e with
  | timer g =>
    simp only [State.step] at hs
    split at hs <;> cases hs
    rfl
  | compute g r pc =>
    simp only [State.step] at hs
    split at hs <;> cases hs
    rfl
  | hart g fail =>
    simp only [State.step] at hs
    split at hs
    swap
    · cases hs
    split at hs
    · next hi =>
      cases hs
      rw [objEvent_interrupted hi]
      rfl
    · next hi =>
      split at hs
      swap
      · cases hs
      next o k hcode =>
      have hn : σ.next g = some o := next_eq (by simpa using hi) hcode
      rw [objEvent_next hn]
      by_cases ho : ∃ i, o = .atomic i
      · obtain ⟨i, rfl⟩ := ho
        cases hs
        exact atomic_objs fail i
      · rw [exec_objs (fun i hi => ho ⟨i, hi⟩) hs]
        unfold State.objEvent
        split <;> first | rfl | exact absurd ⟨_, rfl⟩ ho

/-- What writes no object leaves it. -/
theorem objs_unwritten {e : Event} (hs : σ.step L n e = some σ')
    (hw : writesObj a (σ, e) = false) : σ'.objs a = σ.objs a := by
  rw [step_objs hs]
  unfold writesObj at hw
  unfold objAfter
  split
  · next hev =>
    rw [hev] at hw
    rw [if_neg (by simpa using hw)]
  · next hev =>
    rw [hev] at hw
    rw [if_neg (by simpa using hw)]
  · rfl

/-! ## Harts that only make calls -/

/-- The operations of a call. -/
def Op.ofCall : Op → Bool
  | .atomic _ | .enter (.atomic _) | .leave (.atomic _) _ | .point (.returned _)
  | .loop (.atomic_store _ _ _) | .loop (.cmp_xchg _ _ _ _) => true
  | o => Op.ofOff o

abbrev OfCall {α : Type} (q : KProg α) : Prop := Text (fun o => Op.ofCall o = true) q

theorem ofCall_ofOff (o : Op) (ho : Op.ofOff o = true) : Op.ofCall o = true := by
  unfold Op.ofCall
  split <;> first | rfl | exact ho

theorem ofCall_one {o : Op} (ho : Op.ofCall o = true) : OfCall (one o) := ⟨ho, fun _ => trivial⟩

theorem ofCall_fetch (f : Amo) (sz : Width) (b : ℕ) (x : U64) : OfCall (Atomic.fetch f sz b x) :=
  (text_push_off ofCall_ofOff).bind fun _ => (ofCall_one rfl).bind fun _ =>
    (text_pop_off ofCall_ofOff).bind fun _ => text_pure _

theorem ofCall_fetchVal (f : Amo) (ty : AtomicTy) (b : ℕ) (v : ty.Val) :
    OfCall (fetchVal f ty b v) := (ofCall_fetch _ _ _ _).bind fun _ => text_pure _

theorem ofCall_body (c : AtomicCall) : OfCall (Atomic.body c) := by
  have hfetch : ∀ {ty : AtomicTy} {f b v} {q : KProg ty.Val}, q = fetchVal f ty b v →
      OfCall (do pure (ty.toReg (← q))) := by
    rintro ty f b v q rfl
    exact (ofCall_fetchVal f ty b v).bind fun _ => text_pure _
  cases c with
  | test_set ty b => exact hfetch (test_set_eq ty b)
  | cmp_xchg ty b e d =>
    show OfCall (do pure (ty.toReg (← Atomic.CMP_XCHG ty b e d)))
    rw [cmp_xchg_eq]
    exact Text.bind ((ofCall_one rfl).bind fun _ => text_pure _) fun _ => text_pure _
  | load ty b => cases ty <;> exact (ofCall_one rfl).bind fun _ => text_pure _
  | store ty b v =>
    show OfCall (do
      pure (ty.toReg (← (Atomic.ATOMIC_STORE ty b v).getD (Atomic.storeCode ty b v))))
    rw [Atomic.store_eq]
    refine Text.bind (Text.bind ?_ fun _ => text_pure _) fun _ => text_pure _
    exact (text_push_off ofCall_ofOff).bind fun _ => (ofCall_one rfl).bind fun _ =>
      text_pop_off ofCall_ofOff
  | fetch_add ty b v =>
    exact hfetch (fetchVal_eq (M := fun ty => Atomic.ATOMIC_FETCH_ADD ty b) rfl rfl rfl ty v)
  | fetch_sub ty b v =>
    exact hfetch (fetchVal_eq (M := fun ty => Atomic.ATOMIC_FETCH_SUB ty b) rfl rfl rfl ty v)
  | fetch_and ty b v =>
    exact hfetch (fetchVal_eq (M := fun ty => Atomic.ATOMIC_FETCH_AND ty b) rfl rfl rfl ty v)
  | fetch_or ty b v =>
    exact hfetch (fetchVal_eq (M := fun ty => Atomic.ATOMIC_FETCH_OR ty b) rfl rfl rfl ty v)
  | fetch_xor ty b v =>
    exact hfetch (fetchVal_eq (M := fun ty => Atomic.ATOMIC_FETCH_XOR ty b) rfl rfl rfl ty v)

theorem ofCall_call (c : AtomicCall) : OfCall (Atomic.call c) :=
  (ofCall_one rfl).bind fun _ => (ofCall_body c).bind fun _ => (ofCall_one rfl).bind fun _ =>
    ofCall_one rfl

theorem ofCall_round {l : Loop} (hl : Op.ofCall (.loop l) = true) : OfCall l.round := by
  cases l with
  | atomic_store sz b x =>
    exact (ofCall_one rfl).bind fun _ => (ofCall_one rfl).bind fun _ =>
      text_ite (ofCall_one rfl) (text_pure _)
  | cmp_xchg sz b e d =>
    exact (ofCall_one rfl).bind fun _ => text_ite (text_pure _) ((ofCall_one rfl).bind fun _ =>
      text_ite (ofCall_one rfl) (text_pure _))
  | _ => cases hl

/-- A hart with the calls `cs`, in the midst of them. -/
structure AtomicCaller (C : AtomicCall → Prop) (tr : Trace) (cs : List AtomicCall) (h : ℕ)
    (x : Hart) : Prop where
  calls : Obj C x.code (fun _ w => w.1.ended.reverse = cs ∧ w.1.insns = [])
    (viewBy (stepped h) tr, false)
  text : OfCall x.code
  mine : ∀ c, (viewBy (stepped h) tr).call = some c → C c
  ssip : x.ssip = false

variable {C : AtomicCall → Prop} {cs : ℕ → List AtomicCall} {w : ℕ → U64}

theorem obj_each (l : List AtomicCall) (hC : ∀ c ∈ l, C c) :
    Obj C (Prog.each Atomic.call l) (fun _ w => w.1.ended.reverse = l ∧ w.1.insns = [])
      (.start, false) := by
  refine wp_each (objRules_mono C) (fun xs w => w.2 = false ∧ w.1.call = none ∧ w.1.insns = [] ∧
    w.1.ended.reverse ++ xs = l) ?_ ?_ l _ ⟨rfl, rfl, rfl, rfl⟩
  · rintro c xs ⟨u, b⟩ ⟨rfl, hcall, _, hl⟩
    refine obj_call c (hC c ?_) hcall ⟨rfl, rfl, rfl, ?_⟩
    · rw [← hl]
      simp
    · rw [← hl]
      simp
  · rintro u ⟨_, _, hi, hl⟩
    rw [List.append_nil] at hl
    exact ⟨hl, hi⟩

theorem atomicCaller_init (hi : State.Atomics n w cs σ) (hC : ∀ h < n, ∀ c ∈ cs h, C c) {h : ℕ}
    (hh : h < n) : AtomicCaller C [] (cs h) h (σ.harts h) := by
  have hx := hi.harts h hh
  refine ⟨?_, ?_, fun _ hc => (by cases hc), hx.ssip⟩
  · rw [hx.code]
    exact obj_each (cs h) (hC h hh)
  · rw [hx.code]
    exact text_each (fun c => ofCall_call c) _

theorem AtomicCaller.interrupted {l : List AtomicCall} {x : Hart}
    (hx : AtomicCaller C tr l h x) : x.interrupted = false := by
  unfold Hart.interrupted
  rw [hx.ssip, Bool.and_false]

/-- A hart meets what its next operation needs. -/
theorem AtomicCaller.pre {l : List AtomicCall} (hx : AtomicCaller C tr l h (σ.harts h)) {o : Op}
    (hn : σ.next h = some o) : ObjPre C o (viewBy (stepped h) tr, false) := by
  obtain ⟨_, f, hcode⟩ := next_some hn
  have hcalls := hx.calls
  rw [hcode] at hcalls
  exact hcalls.1

/-- A hart makes a step of its own. -/
theorem AtomicCaller.hart_step {l : List AtomicCall} {fail : Bool} {o : Op} {f : o.Ret → Code}
    (hx : AtomicCaller C tr l h (σ.harts h)) (hcode : (σ.harts h).code = .op o f)
    (hs : σ.exec L h fail o f = some σ') :
    AtomicCaller C ((σ, .hart h fail) :: tr) l h (σ'.harts h) := by
  have hn := next_eq hx.interrupted hcode
  have hp : stepped h (σ, .hart h fail) = true := beq_self_eq_true h
  have hcalls := hx.calls
  have htext := hx.text
  rw [hcode] at hcalls htext
  obtain ⟨hpre, hpost⟩ := hcalls
  obtain ⟨ho, htext⟩ := htext
  by_cases hl : ∃ l, o = .loop l
  · obtain ⟨l, rfl⟩ := hl
    cases hs
    have hv : viewBy (stepped h) ((σ, .hart h fail) :: tr) = viewBy (stepped h) tr :=
      viewBy_skip fun _ => objEvent_next hn
    show AtomicCaller C _ _ h (Function.update σ.harts h _ h)
    rw [Function.update_self]
    refine ⟨?_, ?_, hv ▸ hx.mine, hx.ssip⟩
    · rw [hv]
      exact Obj.bind (obj_round l hpre hpost)
    · exact (ofCall_round ho).bind htext
  have hsimple : Op.simple o = true := by
    cases o <;> first | rfl | exact absurd ⟨_, rfl⟩ hl | (cases ho; done) | cases hs
  obtain ⟨r, hperf⟩ := exec_simple hsimple (fun s he => by subst he; cases ho) hs
  rw [hperf.harts, Function.update_self]
  refine ⟨?_, htext r, fun c hc => ?_, ?_⟩
  · rw [viewBy_after hn hp hperf.answer]
    have hq := hpost r _ (objPost_after (fun l he => hl ⟨l, he⟩) (fun s he => by subst he; cases hs)
      (fun he => by subst he; cases hs) (fun old new he => by subst he; cases ho) _ r)
    have hb : staleAfter false o = false := by
      unfold staleAfter
      split <;> first | rfl | cases ho
    rwa [hb] at hq
  · rw [viewBy_after hn hp hperf.answer] at hc
    unfold ObjView.after at hc
    split at hc
    · cases hc
      exact hpre.2
    · exact hx.mine c hc
    · cases hc
    · exact hx.mine c hc
  · cases o <;> first | exact hx.ssip | cases ho

theorem atomicCaller_step (hI : ∀ h < n, AtomicCaller C tr (cs h) h (σ.harts h)) {e : Event}
    (hs : (atomicCalls L n w cs).step σ e = some σ') {h : ℕ} (hh : h < n) :
    AtomicCaller C ((σ, e) :: tr) (cs h) h (σ'.harts h) := by
  have hold := hI h hh
  cases e with
  | timer g => cases hs
  | compute g r pc =>
    simp only [atomicCalls, State.step] at hs
    split at hs <;> cases hs
    have hv : viewBy (stepped h) ((σ, .compute g r pc) :: tr) = viewBy (stepped h) tr :=
      viewBy_skip fun hp => by cases hp
    show AtomicCaller C _ _ h (Function.update σ.harts g _ h)
    by_cases hg : h = g
    · subst hg
      rw [Function.update_self]
      exact ⟨hv ▸ hold.calls, hold.text, hv ▸ hold.mine, hold.ssip⟩
    · rw [Function.update_of_ne hg]
      exact ⟨hv ▸ hold.calls, hold.text, hv ▸ hold.mine, hold.ssip⟩
  | hart g fail =>
    simp only [atomicCalls, State.step] at hs
    split at hs
    swap
    · cases hs
    next hgn =>
    rw [if_neg (by simp [(hI g hgn).interrupted])] at hs
    split at hs
    swap
    · cases hs
    next o f hcode =>
    by_cases hg : h = g
    · subst hg
      exact hold.hart_step hcode hs
    · have hv : viewBy (stepped h) ((σ, .hart g fail) :: tr) = viewBy (stepped h) tr :=
        viewBy_skip fun hp => absurd (beq_iff_eq.1 hp).symm hg
      rw [exec_other hg hs]
      exact ⟨hv ▸ hold.calls, hold.text, hv ▸ hold.mine, hold.ssip⟩

theorem atomicCallers (hC : ∀ h < n, ∀ c ∈ cs h, C c) (hr : Run (atomicCalls L n w cs) tr σ)
    {h : ℕ} (hh : h < n) : AtomicCaller C tr (cs h) h (σ.harts h) := by
  revert h
  refine Run.invariant (fun tr σ => ∀ {h}, h < n → AtomicCaller C tr (cs h) h (σ.harts h))
    (fun s hi => atomicCaller_init hi hC) (fun tr s e s' _ hI hs => ?_) hr
  exact atomicCaller_step (fun h hh => hI hh) hs

theorem atomicCalls_step {e : Event} (hs : (atomicCalls L n w cs).step σ e = some σ') :
    σ.step L n e = some σ' := by
  cases e with
  | timer g => cases hs
  | _ => exact hs

/-- Nobody writes the object between `x` and now. -/
theorem objs_between {x : State × Event} {pre mid : Trace} {σ₂ : State}
    (hx : (atomicCalls L n w cs).step x.1 x.2 = some σ')
    (hr : Run (atomicCalls L n w cs) (mid ++ x :: pre) σ₂)
    (hmid : ∀ z ∈ mid, writesObj a z = false) : σ₂.objs a = σ'.objs a := by
  induction mid generalizing σ₂ with
  | nil =>
    have hσ := Option.some.inj (hx.symm.trans (Run.next (e := x.2) hr))
    rw [hσ]
  | cons z mid ih =>
    cases hr with
    | step hr hs =>
      rw [objs_unwritten (atomicCalls_step hs) (hmid _ (List.mem_cons_self ..))]
      exact ih hr fun z hz => hmid z (List.mem_cons_of_mem _ hz)

/-- The hart that writes an object does it with an instruction of the call it is in. -/
theorem updates_next (hC : ∀ h < n, ∀ c ∈ cs h, C c) (hr : Run (atomicCalls L n w cs) tr σ)
    {c : AtomicCall} {e : Event} (hu : Updates a h c tr (σ, e))
    (hs : (atomicCalls L n w cs).step σ e = some σ') : ∃ fail i r, e = .hart h fail ∧ C c ∧
      σ.next h = some (.atomic i) ∧ AtomicCall.Next c (viewBy (stepped h) tr).insns i ∧
      objEvent (σ, e) = some (.insn i r) := by
  obtain ⟨hp, hw, hc⟩ := hu
  rw [← viewBy_call] at hc
  cases hev : objEvent (σ, e) with
  | none =>
    rw [writesObj, hev] at hw
    cases hw
  | some ev =>
    obtain ⟨_, g, fail, o, heq, hn, ho⟩ := objEvent_some hev
    cases heq
    cases beq_iff_eq.1 hp
    have hh : h < n := by
      by_contra hh
      simp only [atomicCalls, State.step, if_neg hh] at hs
      cases hs
    have hx := atomicCallers hC hr hh
    unfold State.objEvent at ho
    split at ho <;> cases ho
    · rw [writesObj, hev] at hw
      cases hw
    · obtain ⟨_, c', hc', hnext⟩ := hx.pre hn
      cases hc.symm.trans hc'
      exact ⟨fail, _, _, rfl, hx.mine _ hc, hn, hnext, rfl⟩
    · rw [writesObj, hev] at hw
      cases hw

end GQuuuuuunix.Proof
