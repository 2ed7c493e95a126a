import GQuuuuuunix.Lib.Simulation
import GQuuuuuunix.Proof.Linear
import GQuuuuuunix.Properties.CmpXchg

/-! # The calls of tasks are linearizable

Tasks call the functions of atomic.h with interrupts on; between two instructions of a call the task
may be preempted and go on elsewhere, and other tasks call or store on the same objects. Whatever
they observe they could observe if every call took effect at one instant. -/

namespace GQuuuuuunix.Properties
open Lib Kernel Proof
set_option autoImplicit false

variable {cfg : Config} {L : Layout} {σ σ' : State} {h a : ℕ} {fail : Bool} {t : Slot}
  {ty : AtomicTy} {c : AtomicCall}

/-! ## The instructions on typed values -/

/-- What is stored, of the value that was there and the operand. -/
def amoVal {n : ℕ} : Amo → BitVec n → BitVec n → BitVec n
  | .swap, _, y => y
  | .add, x, y => x + y
  | .and, x, y => x &&& y
  | .or, x, y => x ||| y
  | .xor, x, y => x ^^^ y

theorem toInt_apply (f : Amo) (x y : U64) :
    Atomic.toInt (f.apply x y) = amoVal f (Atomic.toInt x) (Atomic.toInt y) := by
  cases f with
  | swap => rfl
  | add => exact BitVec.setWidth_add x y (by decide)
  | and => exact BitVec.setWidth_and
  | or => exact BitVec.setWidth_or
  | xor => exact BitVec.setWidth_xor

theorem write_apply (f : Amo) (x : U64) (v : ty.Val) :
    ty.width.write x (f.apply (ty.width.read x) (ty.toReg v)) =
      ty.width.write x (ty.toReg (amoVal f (ty.ofWord x) v)) := by
  cases ty with
  | atomic_int_t =>
    show _ ++ Atomic.toInt (f.apply (Atomic.ofInt _) (Atomic.ofInt v)) =
      _ ++ Atomic.toInt (Atomic.ofInt (amoVal f (Atomic.toInt (Atomic.ofInt _)) v))
    simp only [toInt_apply, toInt_ofInt]
  | _ => cases f <;> rfl

/-- An `amo` leaves the value it found, and changes it. -/
theorem amo_eq (h : ℕ) (fail : Bool) (f : Amo) (v : ty.Val) :
    (ty.toReg (ty.get σ.objs a), ty.put σ.objs a (amoVal f (ty.get σ.objs a) v)) =
      (ty.toReg (ty.ofReg (σ.atomic h fail (.amo f ty.width a (ty.toReg v))).1),
        (σ.atomic h fail (.amo f ty.width a (ty.toReg v))).2.objs) :=
  Prod.ext rfl (congrArg (Function.update σ.objs a) (write_apply f (σ.objs a) v)).symm

theorem loaded_read (x : U64) :
    AtomicCall.loaded ty (ty.width.read x) = ty.loaded (ty.ofWord x) := by
  cases ty <;> rfl

/-- What an `sc` leaves in its register, and of the objects. -/
theorem atomic_sc (x : U64) : (σ.atomic h fail (.sc ty.width a x)).2.objs =
    if (σ.atomic h fail (.sc ty.width a x)).1 = 0 then
      Function.update σ.objs a (ty.width.write (σ.objs a) x) else σ.objs := by
  unfold State.atomic
  dsimp only
  split
  · rfl
  · rfl

/-! ## The instant of a call -/

/-- An instruction after which the call has not acted leaves the objects. -/
theorem answer_none {i : AtomicInsn} {l : List Done} (hn : AtomicCall.Next c l i)
    (ha : AtomicCall.answer c i (σ.atomic h fail i).1 = none) :
    (σ.atomic h fail i).2.objs = σ.objs := by
  cases c with
  | store ty a v =>
    obtain ⟨-, rfl | rfl⟩ := hn
    · rfl
    · rw [atomic_sc, if_neg fun h0 => by rw [h0] at ha; cases ha]
  | cmp_xchg ty a e d =>
    obtain ⟨-, rfl | ⟨rfl, -⟩⟩ := hn
    · rfl
    · rw [atomic_sc, if_neg fun h0 => by rw [h0] at ha; cases ha]
  | _ => cases ha

/-- The instruction by which the call acts does what the call is for. -/
theorem answer_some {i : AtomicInsn} {l : List Done} {a0 : U64} (hn : AtomicCall.Next c l i)
    (hsc : ∀ ty a e d, c = .cmp_xchg ty a e d → i = .sc ty.width a (ty.toReg d) →
      (σ.atomic h fail i).1 = 0 → ty.get σ.objs a = e)
    (ha : AtomicCall.answer c i (σ.atomic h fail i).1 = some a0) :
    AtomicCall.apply c σ.objs = (a0, (σ.atomic h fail i).2.objs) := by
  cases c with
  | store ty a v =>
    obtain ⟨-, rfl | rfl⟩ := hn
    · cases ha
    · have ha' : (if _ then _ else _) = some a0 := ha
      split at ha' <;> cases ha'
      next h0 =>
      rw [atomic_sc, if_pos h0]
      rfl
  | cmp_xchg ty a e d =>
    obtain ⟨-, rfl | ⟨rfl, -⟩⟩ := hn
    · have ha' : (if _ then _ else _) = some a0 := ha
      split at ha' <;> cases ha'
      next hne =>
      refine Prod.ext rfl (if_neg fun he => hne ?_)
      rw [← he]
      exact (toReg_ofReg_read _).symm
    · have ha' : (if _ then _ else _) = some a0 := ha
      split at ha' <;> cases ha'
      next h0 =>
      have he := hsc ty a e d rfl rfl h0
      rw [atomic_sc, if_pos h0, AtomicCall.apply, if_pos he, he]
      rfl
  | load ty a =>
    obtain ⟨-, hi⟩ := hn
    cases hi
    cases ha
    exact Prod.ext (loaded_read _).symm rfl
  | test_set ty a =>
    obtain ⟨-, hi⟩ := hn
    cases hi
    cases ha
    exact amo_eq h fail .swap 1
  | fetch_add ty a v =>
    obtain ⟨-, hi⟩ := hn
    cases hi
    cases ha
    exact amo_eq h fail .add v
  | fetch_sub ty a v =>
    obtain ⟨-, hi⟩ := hn
    cases hi
    cases ha
    exact amo_eq h fail .add v
  | fetch_and ty a v =>
    obtain ⟨-, hi⟩ := hn
    cases hi
    cases ha
    exact amo_eq h fail .and v
  | fetch_or ty a v =>
    obtain ⟨-, hi⟩ := hn
    cases hi
    cases ha
    exact amo_eq h fail .or v
  | fetch_xor ty a v =>
    obtain ⟨-, hi⟩ := hn
    cases hi
    cases ha
    exact amo_eq h fail .xor v

/-! ## The call that a task is in -/

/-- A call that has begun and not returned is the call of the history. -/
theorem pendingBy_call {tr : Trace} {d : Option U64} (hp : pendingBy L t tr = some (c, d)) :
    (viewBy (byTask L t) tr).call = some c := by
  induction tr generalizing d with
  | nil => cases hp
  | cons x tr ih =>
    obtain ⟨σ, e⟩ := x
    by_cases hs : onStack L (.task t) (σ, e) = true
    swap
    · rw [viewBy_skip fun hb => absurd (byTask_eq L t ▸ hb) hs]
      rw [pendingBy, if_neg hs] at hp
      exact ih hp
    have hb : byTask L t (σ, e) = true := by rwa [byTask_eq]
    cases e with
    | hart h fail =>
      cases hn : σ.next h with
      | none =>
        have hev : objEvent (σ, .hart h fail) = none := by
          show (σ.next h).bind _ = _
          rw [hn]
          rfl
        rw [viewBy_skip fun _ => hev]
        rw [pendingBy, if_pos hs, OpenCall.event, hn] at hp
        exact ih hp
      | some o =>
        have hev : objEvent (σ, .hart h fail) = σ.objEvent h fail o := objEvent_next hn
        rw [pendingBy_hart hs hn] at hp
        unfold OpenCall.step at hp
        split at hp
        · next c' =>
          cases hp
          rw [viewBy_see hb hev]
          rfl
        · next i =>
          obtain ⟨⟨c', d'⟩, hq, heq⟩ := Option.map_eq_some_iff.1 hp
          cases heq
          rw [viewBy_see hb hev]
          exact ih hq
        · cases hp
        · cases hp
        · next he ha hr hl =>
          rw [viewBy_skip fun _ => hev.trans ?_]
          · exact ih hp
          unfold State.objEvent
          split
          · next c' => exact absurd rfl (he c')
          · next i => exact absurd rfl (ha i)
          · next c' x => exact absurd rfl (hl c' x)
          · rfl
    | compute h r pc => cases hs
    | timer h => cases hs

/-! ## The simulation -/

abbrev Objects := Shared Slot AtomicCall U64 (ℕ → U64)

/-- The objects, and for each task its call, are what the history and the machine say. -/
structure Linked (L : Layout) (tr : Trace) (σ : State) (s : Objects) : Prop where
  world : s.world = σ.objs
  pending : ∀ t, s.pending t = pendingBy L t tr

section
variable {tr : History State (ClientEvent AtomicCall)} {s s₁ : Objects} {e : Event}

/-- The calls of the tasks that are not on the stack of the step. -/
theorem pendingBy_other {tr : Trace} {t' : Slot}
    (ht : L.stackOf ((σ.harts h).regs .sp) = some (.task t)) (hne : t' ≠ t) :
    pendingBy L t' ((σ, .hart h fail) :: tr) = pendingBy L t' tr := by
  refine if_neg fun hs => hne ?_
  have ht' : L.stackOf ((σ.harts h).regs .sp) = some (.task t') := beq_iff_eq.1 hs
  cases ht.symm.trans ht'
  rfl

/-- A step that moves the call of task `t` to `v`. -/
theorem Linked.update {tr : Trace} (hl : Linked L tr σ s)
    (ht : L.stackOf ((σ.harts h).regs .sp) = some (.task t)) {o : Op} (hn : σ.next h = some o)
    {v : OpenCall} (hv : (pendingBy L t tr).step σ h fail o = v) (hw : s₁.world = σ'.objs)
    (hs : s₁.pending = Function.update s.pending t v) :
    Linked L ((σ, .hart h fail) :: tr) σ' s₁ := by
  refine ⟨hw, fun t' => ?_⟩
  rw [hs]
  by_cases hne : t' = t
  · rw [hne, Function.update_self, pendingBy_hart (beq_iff_eq.2 ht) hn, hv]
  · rw [Function.update_of_ne hne, pendingBy_other ht hne, hl.pending]

/-- A step that moves no call. -/
theorem Linked.keep {tr : Trace} (hl : Linked L tr σ s) (ho : σ'.objs = σ.objs)
    (hp : ∀ t, pendingBy L t ((σ, e) :: tr) = pendingBy L t tr) :
    Linked L ((σ, e) :: tr) σ' s :=
  ⟨hl.world.trans ho.symm, fun t => (hl.pending t).trans (hp t).symm⟩

theorem Linked.step {tr : Trace} (hl : Linked L tr σ s)
    (ht : L.stackOf ((σ.harts h).regs .sp) = some (.task t)) {o : Op} (hn : σ.next h = some o)
    (hv : (pendingBy L t tr).step σ h fail o = pendingBy L t tr) (ho : σ'.objs = σ.objs) :
    Linked L ((σ, .hart h fail) :: tr) σ' s := by
  refine hl.update ht hn hv (hl.world.trans ho.symm) ?_
  rw [← hl.pending, Function.update_eq_self]

theorem step_exec {n : ℕ} {o : Op} (hs : σ.step L n (.hart h fail) = some σ')
    (hn : σ.next h = some o) : h < n ∧ ∃ f, σ.exec L h fail o f = some σ' := by
  obtain ⟨hi, f, hcode⟩ := next_some hn
  simp only [State.step, hi, hcode] at hs
  split at hs
  · next hh => exact ⟨hh, f, hs⟩
  · cases hs

/-- An `sc` of `CMP_XCHG` that succeeds finds what was expected. -/
theorem sc_expected (hr : Run (clients cfg Atomic.call) tr σ)
    (ht : cfg.layout.stackOf ((σ.harts h).regs .sp) = some (.task t))
    {e d : ty.Val} (hn : σ.next h = some (.atomic (.sc ty.width a (ty.toReg d))))
    (hc : pendingBy cfg.layout t (kernelTrace tr) = some (.cmp_xchg ty a e d, none))
    (hs : σ.step cfg.layout cfg.harts (.hart h fail) = some σ')
    (h0 : (σ.atomic h fail (.sc ty.width a (ty.toReg d))).1 = 0) : ty.get σ.objs a = e := by
  obtain ⟨hh, -⟩ := step_exec hs hn
  obtain ⟨vs, hI, hJ⟩ := taskObjs hr
  obtain ⟨b, ⟨-, c, hcall, hnext⟩, -⟩ := objPre_next hI hJ hh hn rfl ht
  obtain rfl : c = .cmp_xchg ty a e d := Option.some.inj (hcall.symm.trans (pendingBy_call hc))
  obtain ⟨-, hi | ⟨-, l, hl⟩⟩ := hnext
  · cases hi
  have hp : byTask cfg.layout t (σ, .hart h fail) = true := beq_iff_eq.2 ht
  have hev : objEvent (σ, .hart h fail) = some (.insn (.sc ty.width a (ty.toReg d)) 0) := by
    rw [objEvent_next hn, ← h0]
    rfl
  show ty.ofReg (ty.width.read (σ.objs a)) = e
  rw [sc_finds hI hJ hs hp hev hl, ofReg_toReg]

theorem calledBy_task (ht : L.stackOf ((σ.harts h).regs .sp) = some (.task t)) {o : Op}
    (hn : σ.next h = some o) : calledBy L (σ, .kernel (.hart h fail)) = callEvent t o := by
  simp only [calledBy, ht, hn]
  rfl

/-- What a step of the machine is to the objects. -/
abbrev Follow (w : ℕ → U64) (R : Objects → Prop) (s : Objects) (o : Option AtomicEvent) : Prop :=
  Shows (atomicObjects w) (fun x => x.2.shown) R s o

/-- A task performs an instruction of its call. -/
theorem linked_atomic {w : ℕ → U64} (hr : Run (clients cfg Atomic.call) tr σ) {i : AtomicInsn}
    (hl : Linked cfg.layout (kernelTrace tr) σ s)
    (ht : cfg.layout.stackOf ((σ.harts h).regs .sp) = some (.task t))
    (hn : σ.next h = some (.atomic i))
    (hc : pendingBy cfg.layout t (kernelTrace tr) = some (c, none))
    (hs : σ.step cfg.layout cfg.harts (.hart h fail) = some σ') :
    Follow w (Linked cfg.layout ((σ, .hart h fail) :: kernelTrace tr) σ') s none := by
  obtain ⟨hh, f, hx⟩ := step_exec hs hn
  obtain ⟨vs, hI, hJ⟩ := taskObjs hr
  obtain ⟨b, ⟨-, c', hcall, hnext⟩, -⟩ := objPre_next hI hJ hh hn rfl ht
  obtain rfl : c' = c := Option.some.inj (hcall.symm.trans (pendingBy_call hc))
  have hobjs : σ'.objs = (σ.atomic h fail i).2.objs := by
    cases hx
    rfl
  have hv : (pendingBy cfg.layout t (kernelTrace tr)).step σ h fail (.atomic i) =
      some (c', AtomicCall.answer c' i (σ.atomic h fail i).1) := by
    rw [hc]
    rfl
  cases ha : AtomicCall.answer c' i (σ.atomic h fail i).1 with
  | none => exact .still (hl.step ht hn (by rw [hv, ha, hc]) (hobjs.trans (answer_none hnext ha)))
  | some a0 =>
    have happly : AtomicCall.apply c' s.world = (a0, σ'.objs) := by
      rw [hl.world, hobjs]
      refine answer_some hnext (fun ty a e d hcx hix h0 => ?_) ha
      subst hcx hix
      exact sc_expected hr ht hn hc hs h0
    refine .step (sharedObject_acts ((hl.pending t).trans hc)) (hl.update ht hn hv ?_ ?_) rfl
    · rw [happly]
    · rw [happly, ha]

/-- A task goes on with an operation on no object. -/
theorem linked_task {w : ℕ → U64} {o : Op} {f : o.Ret → Code}
    (hl : Linked cfg.layout (kernelTrace tr) σ s)
    (ht : cfg.layout.stackOf ((σ.harts h).regs .sp) = some (.task t)) (hn : σ.next h = some o)
    (hc : LinRest cfg.layout (kernelTrace tr) (.task t) (.op o f)) (ho : ∀ i, o ≠ .atomic i)
    (hobjs : σ'.objs = σ.objs) :
    Follow w (Linked cfg.layout ((σ, .hart h fail) :: kernelTrace tr) σ') s
      (calledBy cfg.layout (σ, .kernel (.hart h fail))) := by
  obtain ⟨hpre, -⟩ := hc
  rw [calledBy_task ht hn]
  cases o with
  | atomic i => exact absurd rfl (ho i)
  | enter g =>
    cases g with
    | atomic c =>
      have hworld : s.world = σ'.objs := hl.world.trans hobjs.symm
      refine .step (sharedObject_begins ((hl.pending t).trans hpre)) ?_ rfl
      exact hl.update ht hn rfl hworld rfl
    | _ => exact .still (hl.step ht hn rfl hobjs)
  | leave g x =>
    cases g with
    | atomic c => exact .still (hl.step ht hn hpre.symm hobjs)
    | _ => exact .still (hl.step ht hn rfl hobjs)
  | point q =>
    cases q with
    | returned a0 =>
      obtain ⟨c, hc⟩ := hpre
      refine .step (sharedObject_returns ((hl.pending t).trans hc)) (hl.update ht hn rfl ?_ rfl) rfl
      exact hl.world.trans hobjs.symm
    | _ => exact .still (hl.step ht hn rfl hobjs)
  | _ => exact .still (hl.step ht hn rfl hobjs)

theorem calledBy_noCall {o : Op} (hn : σ.next h = some o) (ho : Op.noCall o = true) :
    calledBy L (σ, .kernel (.hart h fail)) = none := by
  have hev : ∀ t, callEvent t o = none := by
    intro t
    unfold callEvent
    split <;> first | rfl | cases ho
  unfold calledBy
  dsimp only
  rw [hn]
  split
  · exact hev _
  · rfl

/-- A hart makes a step of its own. -/
theorem linked_hart {w : ℕ → U64} (hr : Run (clients cfg Atomic.call) tr σ)
    (hl : Linked cfg.layout (kernelTrace tr) σ s)
    (hs : σ.step cfg.layout cfg.harts (.hart h fail) = some σ') :
    Follow w (Linked cfg.layout ((σ, .hart h fail) :: kernelTrace tr) σ') s
      (calledBy cfg.layout (σ, .kernel (.hart h fail))) := by
  cases hn : σ.next h with
  | none =>
    have hev : objEvent (σ, .hart h fail) = none := by
      show (σ.next h).bind _ = _
      rw [hn]
      rfl
    have hc : calledBy cfg.layout (σ, .kernel (.hart h fail)) = none := by
      unfold calledBy
      dsimp only
      rw [hn]
      split <;> rfl
    rw [hc]
    refine .still (hl.keep (funext fun a => ?_) fun t => pendingBy_none hn)
    rw [step_objs hs, hev]
    rfl
  | some o =>
    obtain ⟨hh, f, hx⟩ := step_exec hs hn
    by_cases ho : Op.noCall o = true
    · rw [calledBy_noCall hn ho]
      refine .still (hl.keep (exec_objs (fun i hi => ?_) hx) fun t => pendingBy_noCall hn ho)
      rw [hi] at ho
      cases ho
    have hsw : o.ofSwitch = false := Bool.eq_false_iff.2 fun hsw => ho (noCall_ofSwitch o hsw)
    have hfollows := linRest_follows.run (fun k _ _ _ _ hk => does_call k hk fun _ _ hk' =>
      ⟨_, hk'⟩) hr
    obtain ⟨st, f', ht, hc⟩ := hfollows.next hh hn hsw
    cases st with
    | hart g => exact absurd hc.1 ho
    | task t =>
      by_cases hi : ∃ i, o = .atomic i
      · obtain ⟨i, rfl⟩ := hi
        obtain ⟨c, hpend⟩ := hc.1
        rw [calledBy_task ht hn]
        exact linked_atomic hr hl ht hn hpend hs
      · have hne : ∀ i, o ≠ .atomic i := fun i he => hi ⟨i, he⟩
        exact linked_task hl ht hn hc hne (exec_objs hne hx)

theorem linked_step {w : ℕ → U64} {ce : ClientEvent AtomicCall}
    (hr : Run (clients cfg Atomic.call) tr σ) (hl : Linked cfg.layout (kernelTrace tr) σ s)
    (hs : (clients cfg Atomic.call).step σ ce = some σ') :
    Follow w (Linked cfg.layout (kernelTrace ((σ, ce) :: tr)) σ') s
      (calledBy cfg.layout (σ, ce)) := by
  cases ce with
  | kernel e =>
    cases e with
    | hart h fail => exact linked_hart hr hl hs
    | compute g r pc =>
      exact .still (hl.keep (funext fun a => step_objs (e := .compute g r pc) hs) fun t => rfl)
    | timer g =>
      exact .still (hl.keep (funext fun a => step_objs (L := cfg.layout) (e := .timer g) hs)
        fun t => rfl)
  | call h c =>
    simp only [clients] at hs
    split at hs
    swap
    · cases hs
    refine .still ⟨hl.world.trans ?_, hl.pending⟩
    unfold State.before at hs
    split at hs <;> cases hs
    rfl
  | store h sz a x =>
    simp only [clients] at hs
    split at hs <;> cases hs
    have hout : (atomicObjects w).step s (.outside ⟨sz, a, x⟩) =
        some { s with world := PlainStore.apply ⟨sz, a, x⟩ s.world } := rfl
    refine .step hout ⟨?_, hl.pending⟩ rfl
    show PlainStore.apply ⟨sz, a, x⟩ s.world = _
    rw [hl.world]
    rfl

end

section
variable {σ₀ : State} {tr : History State (ClientEvent AtomicCall)}

theorem linked_run (hb : σ₀.Booting cfg) (hr : Run ((clients cfg Atomic.call).from σ₀) tr σ) :
    ∃ tr' s, Run (atomicObjects σ₀.objs) tr' s ∧ Linked cfg.layout (kernelTrace tr) σ s ∧
      tr'.filterMap (fun x => x.2.shown) = tr.filterMap (calledBy cfg.layout) := by
  have hrun : ∀ {tr : History State (ClientEvent AtomicCall)} {σ : State},
      Run ((clients cfg Atomic.call).from σ₀) tr σ → Run (clients cfg Atomic.call) tr σ := by
    intro tr σ hr
    have hr' : Run (clients cfg Atomic.call) (tr ++ []) σ := Run.append (.init hb) hr
    rwa [List.append_nil] at hr'
  exact Run.simulate (N := atomicObjects σ₀.objs)
    (fun tr σ s => Linked cfg.layout (kernelTrace tr) σ s)
    (fun σ hσ => ⟨_, rfl, ⟨by rw [hσ], fun _ => rfl⟩⟩)
    (fun tr σ ce σ' s hr hl hs => linked_step (hrun hr) hl hs) hr

/-- The functions of atomic.h that tasks call are linearizable: in every run, with any preemption
and migration of the tasks, and with plain stores of other tasks between the calls, the beginnings
of the calls, their returns with their results, and the stores are those of a run in which every
call reads and changes its object at one instant; and the objects are then the same. -/
theorem linearizable (hb : σ₀.Booting cfg) (hr : Run ((clients cfg Atomic.call).from σ₀) tr σ) :
    ∃ tr' s, Run (atomicObjects σ₀.objs) tr' s ∧ s.world = σ.objs ∧
      tr'.filterMap (fun x => x.2.shown) = tr.filterMap (calledBy cfg.layout) := by
  obtain ⟨tr', s, hr', hl, hobs⟩ := linked_run hb hr
  exact ⟨tr', s, hr', hl.world, hobs⟩

end

/-- The first task is preempted between the `lr` and the `sc` of its call; the second calls then, on
the same object, and returns first. -/
theorem linearizable_preempted :
    ∃ (σ : State) (tr' : History Objects AtomicEvent) (s : Objects),
      Run (atomicObjects fun _ => 0) tr' s ∧ s.world = σ.objs ∧
      tr'.filterMap (fun x => x.2.shown) = [.returns 1 0, .begins 1 (.fetch_add .atomic_int_t 7 2),
        .begins 0 (.cmp_xchg .atomic_int_t 7 0 5)] := by
  obtain ⟨tr, σ, hr, hp⟩ := Run.of_perform
    (M := (clients (.sample 1 (by decide) (by decide)) Atomic.call).from
      (.start (.sample 1 (by decide) (by decide)))) rfl
    (List.replicate 580 (.kernel (.hart 0 false)) ++ .call 0 (.cmp_xchg .atomic_int_t 7 0 5) ::
      (List.replicate 3 (.kernel (.hart 0 false)) ++ .kernel (.timer 0) ::
        (List.replicate 292 (.kernel (.hart 0 false)) ++ .call 0 (.fetch_add .atomic_int_t 7 2) ::
          List.replicate 20 (.kernel (.hart 0 false)))))
    (P := fun x => x.1.filterMap (calledBy .sample) == [.returns 1 0,
      .begins 1 (.fetch_add .atomic_int_t 7 2), .begins 0 (.cmp_xchg .atomic_int_t 7 0 5)])
    (by decide +kernel)
  have hb := State.start_booting (.sample 1 (by decide) (by decide)) Layout.sample_apart
  obtain ⟨tr', s, hr', hw, hobs⟩ := linearizable hb hr
  exact ⟨σ, tr', s, hr', hw, hobs.trans (beq_iff_eq.1 hp)⟩

/-! ## Counters -/

/-- What a call adds to the `val` of the object `a`. -/
def added (ty : AtomicTy) (a : ℕ) : AtomicCall → ty.Val
  | .fetch_add _ b v | .fetch_sub _ b v => if b = a then v.setWidth ty.bits else 0
  | _ => 0

/-- The object of a call. -/
def AtomicCall.obj : AtomicCall → ℕ
  | .test_set _ a | .cmp_xchg _ a _ _ | .load _ a | .store _ a _ | .fetch_add _ a _
  | .fetch_sub _ a _ | .fetch_and _ a _ | .fetch_or _ a _ | .fetch_xor _ a _ => a

/-- The call is on another object, or loads the counter `a`, or adds to it. -/
def CounterCall (ty : AtomicTy) (a : ℕ) (c : AtomicCall) : Prop :=
  AtomicCall.obj c ≠ a ∨ (∃ ty', c = .load ty' a) ∨
    ∃ v : ty.Val, c = .fetch_add ty a v ∨ c = .fetch_sub ty a v

theorem get_put (w : ℕ → U64) (v : ty.Val) : ty.get (ty.put w a v) a = v := by
  unfold AtomicTy.get AtomicTy.put
  rw [Function.update_self, ofWord_write, ofReg_toReg]

theorem apply_other (hc : AtomicCall.obj c ≠ a) (w : ℕ → U64) : (c.apply w).2 a = w a := by
  have hput : ∀ {ty : AtomicTy} {b v}, b ≠ a → ty.put w b v a = w a := fun hb =>
    Function.update_of_ne hb.symm _ _
  cases c with
  | load ty b => rfl
  | cmp_xchg ty b e d =>
    show (if _ then _ else w) a = w a
    split
    · exact hput hc
    · rfl
  | _ => exact hput hc

theorem CounterCall.adds (hc : CounterCall ty a c) :
    Adds AtomicCall.apply (fun w => ty.get w a) (added ty a) c := by
  intro w
  rcases hc with hne | ⟨ty', rfl⟩ | ⟨v, rfl | rfl⟩
  · have hadd : added ty a c = 0 := by
      cases c <;> first | rfl | exact if_neg hne
    rw [hadd]
    exact (congrArg ty.ofWord (apply_other hne w)).trans (BitVec.add_zero _).symm
  · exact (BitVec.add_zero _).symm
  all_goals
    show ty.get (ty.put w a (ty.get w a + v)) a =
      ty.get w a + if a = a then v.setWidth ty.bits else 0
    rw [get_put, if_pos rfl, BitVec.setWidth_eq]

/-- No addition is lost: however the tasks that add to a counter are preempted and moved between
harts, the counter is, when no task is in a call, what the calls that were made add up to. -/
theorem counter_conserved {σ₀ : State} (hb : σ₀.Booting cfg)
    {tr : History State (ClientEvent AtomicCall)}
    (hr : Run ((clients cfg Atomic.call).from σ₀) tr σ)
    (hcalls : ∀ t c, .begins t c ∈ tr.filterMap (calledBy cfg.layout) → CounterCall ty a c)
    (hstores : ∀ x, .outside x ∈ tr.filterMap (calledBy cfg.layout) → x.a ≠ a)
    (hidle : ∀ t, inCall t (tr.filterMap (calledBy cfg.layout)) = false) :
    σ.val ty a = σ₀.val ty a +
      (((tr.filterMap (calledBy cfg.layout)).filterMap SharedEvent.call).map (added ty a)).sum := by
  obtain ⟨tr', s, hr', hl, hobs⟩ := linked_run hb hr
  have hmem : ∀ x ∈ tr', ∀ e, x.2.shown = some e → e ∈ tr.filterMap (calledBy cfg.layout) :=
    fun x hx e he => hobs ▸ List.mem_filterMap.2 ⟨x, hx, he⟩
  have hcount := (Run.counted (φ := fun w => ty.get w a) (δ := added ty a) hr' fun x hx => ?_).sum
  · have hdue : ∑ t, toAdd (added ty a) (s.pending t) = 0 := by
      refine Finset.sum_eq_zero fun t _ => ?_
      have hnone := hr'.inCall t
      rw [hobs, hidle t] at hnone
      rw [Option.isNone_iff_eq_none.1 (Option.isSome_eq_false_iff.1 hnone)]
      rfl
    rw [hdue, add_zero, hl.world] at hcount
    rw [← hobs, List.filterMap_filterMap]
    simp only [SharedEvent.shown_call]
    exact hcount
  · refine ⟨fun c hc => ?_, fun o ho w => ?_⟩
    · cases hx2 : x.2 with
      | begins t c' =>
        rw [hx2] at hc
        cases hc
        exact (hcalls t c (hmem x hx _ (by rw [hx2]; rfl))).adds
      | _ =>
        rw [hx2] at hc
        cases hc
    · have hne := hstores o (hmem x hx _ (by rw [ho]; rfl))
      exact congrArg ty.ofWord (Function.update_of_ne hne.symm _ _)

/-- The first task is preempted on hart 0 inside its call, and goes on with it on hart 1; the second
calls in the meantime, on the same counter. -/
theorem counter_conserved_preempted : ∃ (tr : History State (ClientEvent AtomicCall)) (σ : State),
    Run ((clients (.sample 2 (by decide) (by decide)) Atomic.call).from
      (.start (.sample 2 (by decide) (by decide)))) tr σ ∧
    tr.filterMap (calledBy .sample) = [.returns 0 2, .returns 1 0,
      .begins 1 (.fetch_sub .atomic_int_t 7 2), .begins 0 (.fetch_add .atomic_int_t 7 3)] ∧
    switchedOutOn 0 (kernelTrace tr) = some 0 ∧ σ.val .atomic_int_t 7 = 5 := by
  obtain ⟨tr, σ, hr, hp⟩ := Run.of_perform
    (M := (clients (.sample 2 (by decide) (by decide)) Atomic.call).from
      (.start (.sample 2 (by decide) (by decide)))) rfl
    (List.replicate 5 (.kernel (.hart 1 false)) ++ List.replicate 580 (.kernel (.hart 0 false)) ++
      .call 0 (.fetch_add .atomic_int_t 7 3) :: (List.replicate 2 (.kernel (.hart 0 false)) ++
        .kernel (.timer 0) :: (List.replicate 222 (.kernel (.hart 0 false)) ++
          List.replicate 165 (.kernel (.hart 1 false)) ++
          List.replicate 70 (.kernel (.hart 0 false)) ++
          .call 0 (.fetch_sub .atomic_int_t 7 2) ::
            (List.replicate 24 (.kernel (.hart 0 false)) ++
              List.replicate 16 (.kernel (.hart 1 false))))))
    (P := fun x => x.1.filterMap (calledBy .sample) == [.returns 0 2, .returns 1 0,
      .begins 1 (.fetch_sub .atomic_int_t 7 2), .begins 0 (.fetch_add .atomic_int_t 7 3)] &&
      switchedOutOn 0 (kernelTrace x.1) == some 0)
    (by decide +kernel)
  have hb := State.start_booting (.sample 2 (by decide) (by decide)) Layout.sample_apart
  obtain ⟨hobs, hout⟩ := (Bool.and_eq_true _ _).mp hp
  replace hobs := beq_iff_eq.1 hobs
  change tr.filterMap (calledBy (Config.sample 2 (by decide) (by decide)).layout) = _ at hobs
  have hsum : σ.val .atomic_int_t 7 = _ := counter_conserved hb hr
    (by
      intro t c hc
      rw [hobs] at hc
      simp only [List.mem_cons, SharedEvent.begins.injEq, reduceCtorEq, false_or,
        List.not_mem_nil, or_false] at hc
      rcases hc with ⟨-, rfl⟩ | ⟨-, rfl⟩
      · exact .inr (.inr ⟨2, .inr rfl⟩)
      · exact .inr (.inr ⟨3, .inl rfl⟩))
    (by
      intro x hx
      rw [hobs] at hx
      simp at hx)
    (by
      rw [hobs]
      decide)
  rw [hobs] at hsum
  exact ⟨tr, σ, hr, hobs, beq_iff_eq.1 hout, hsum⟩

end GQuuuuuunix.Properties
