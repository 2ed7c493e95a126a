import GQuuuuuunix.Kernel.AtomicObjects
import GQuuuuuunix.Proof.KernelText
import GQuuuuuunix.Proof.Programs

/-! # When a call acts on its object

A call acts at its `amo`, at its `sc` that succeeds, or at the `lr` that finds what it returns. The
instruction and what it left in its register tell, and with them what the call returns. -/

namespace GQuuuuuunix.Proof
open Lib Kernel
set_option autoImplicit false

/-! ## The instant -/

/-- What the call returns, if the instruction `i` that left `r` was the one by which it acted. -/
def AtomicCall.answer : AtomicCall → AtomicInsn → U64 → Option U64
  | .store ty _ v, .sc _ _ _, r => if r = 0 then some (ty.toReg v) else none
  | .store _ _ _, _, _ => none
  | .cmp_xchg ty _ e _, .lr _ _, r =>
    if r = ty.toReg e then none else some (ty.toReg (ty.ofReg r))
  | .cmp_xchg ty _ e _, _, r => if r = 0 then some (ty.toReg e) else none
  | .load ty _, _, r => some (AtomicCall.loaded ty r)
  | c, _, r => some ((AtomicCall.ty c).toReg ((AtomicCall.ty c).ofReg r))

/-- The call that a task is in, with what it returns once it has acted. -/
abbrev OpenCall := Option (AtomicCall × Option U64)

def OpenCall.insn (v : OpenCall) (i : AtomicInsn) (r : U64) : OpenCall :=
  v.map fun q => (q.1, AtomicCall.answer q.1 i r)

def OpenCall.after (v : OpenCall) : (o : Op) → o.Ret → OpenCall
  | .enter (.atomic c), _ => some (c, none)
  | .atomic i, r => v.insn i r
  | .point (.returned _), _ => none
  | .leave (.atomic _) _, _ => none
  | _, _ => v

/-! ## The rules -/

def LinPre : Op → OpenCall → Prop
  | .enter (.atomic _), v | .leave (.atomic _) _, v | .loop .dummy_task, v => v = none
  | .atomic _, v => ∃ c, v = some (c, none)
  | .point (.returned a0), v => ∃ c, v = some (c, some a0)
  | .loop (.atomic_store sz a x), v => ∃ ty val, v = some (.store ty a val, none) ∧
      sz = ty.width ∧ x = ty.toReg val
  | .loop (.cmp_xchg sz a x y), v => ∃ ty e d, v = some (.cmp_xchg ty a e d, none) ∧
      sz = ty.width ∧ x = ty.toReg e ∧ y = ty.toReg d
  | _, _ => True

def LinPost : (o : Op) → OpenCall → o.Ret → OpenCall → Prop
  | .loop (.atomic_store _ _ x), v, _, w => w = v.map fun q => (q.1, some x)
  | .loop (.cmp_xchg _ _ _ _), v, r, w =>
    w = v.map fun q => (q.1, some ((AtomicCall.ty q.1).toReg ((AtomicCall.ty q.1).ofReg r)))
  | .loop .dummy_task, _, _, _ | .panic _, _, _, _ | .crash, _, _, _ | .ret _ _, _, _, _ => False
  | o, v, r, w => w = v.after o r

def linear : Rules Op Op.Ret OpenCall := fun o Q v =>
  LinPre o v ∧ ∀ r w, LinPost o v r w → Q r w

abbrev Lin {α : Type} (p : KProg α) (Q : α → OpenCall → Prop) (v : OpenCall) : Prop :=
  wp linear p Q v

/-- The operations that are no task's own. -/
def Op.noCall : Op → Bool
  | .sret _ => true
  | o => Op.ofKernel o

theorem noCall_kernel (o : Op) (ho : Op.ofKernel o = true) : Op.noCall o = true := by
  unfold Op.noCall
  split
  · rfl
  · exact ho

theorem OpenCall.after_noCall {o : Op} (ho : Op.noCall o = true) (v : OpenCall) (r : o.Ret) :
    v.after o r = v := by
  unfold OpenCall.after
  split <;> first | rfl | cases ho

section
variable {α β : Type} {v : OpenCall} {c : AtomicCall}

theorem Lin.bind {p : KProg α} {f : α → KProg β} {Q : β → OpenCall → Prop}
    (hp : Lin p (fun a w => Lin (f a) Q w) v) : Lin (p >>= f) Q v := wp_seq hp

theorem lin_noCall {o : Op} {Q : o.Ret → OpenCall → Prop} (ho : Op.noCall o = true)
    (hQ : ∀ r, Q r v) : linear o Q v := by
  refine ⟨?_, fun r w hw => ?_⟩
  · unfold LinPre
    split <;> trivial
  · unfold LinPost at hw
    split at hw
    any_goals cases ho
    · exact hw.elim
    · exact hw.elim
    · exact hw.elim
    · rw [hw, v.after_noCall ho]
      exact hQ r

/-- A program that makes no call. -/
theorem lin_text {p : KProg α} {Q : α → OpenCall → Prop} (hp : Text (fun o => Op.noCall o = true) p)
    (hQ : ∀ a, Q a v) : Lin p Q v :=
  wp_forall (S := linear) (R := fun v w => w = v) (fun _ => rfl)
    (fun huv hvw => hvw.trans huv)
    (fun _ _ _ ho h => lin_noCall ho fun r => h r _ rfl) hp fun a _ hw => hw ▸ hQ a

theorem lin_plain {p : KProg α} {Q : α → OpenCall → Prop} (hp : Plain p) (hQ : ∀ a, Q a v) :
    Lin p Q v := lin_text (hp.kernel noCall_kernel) hQ

theorem lin_kernelvec {s : Snapshot} {Q : Unit → OpenCall → Prop} (hQ : Q () v) :
    Lin (kernelvec s) Q v := lin_text (text_kernelvec noCall_kernel rfl) fun _ => hQ

/-! ## atomic.h -/

theorem lin_atomic {i : AtomicInsn} {Q : U64 → OpenCall → Prop}
    (hQ : ∀ r, Q r (some (c, AtomicCall.answer c i r))) : Lin (atomic i) Q (some (c, none)) :=
  ⟨⟨c, rfl⟩, fun r w hw => (show w = some (c, AtomicCall.answer c i r) from hw) ▸ hQ r⟩

theorem lin_fetchVal {f : Amo} {ty : AtomicTy} {a : ℕ} {x : ty.Val} {p : KProg ty.Val}
    {Q : U64 → OpenCall → Prop} (hp : p = fetchVal f ty a x)
    (hans : ∀ i r, AtomicCall.answer c i r = some (ty.toReg (ty.ofReg r)))
    (hQ : ∀ a0, Q a0 (some (c, some a0))) :
    Lin (do pure (ty.toReg (← p))) Q (some (c, none)) := by
  subst hp
  refine Lin.bind (Lin.bind (Lin.bind (lin_plain plain_push_off fun _ => ?_)))
  refine Lin.bind (lin_atomic fun r => Lin.bind (lin_plain plain_pop_off fun _ => ?_))
  rw [hans]
  exact hQ _

theorem lin_body (c : AtomicCall) {Q : U64 → OpenCall → Prop}
    (hQ : ∀ a0, Q a0 (some (c, some a0))) : Lin (Atomic.body c) Q (some (c, none)) := by
  cases c with
  | test_set ty a => exact lin_fetchVal (test_set_eq ty a) (fun _ _ => rfl) hQ
  | cmp_xchg ty a e d =>
    show Lin (do pure (ty.toReg (← Atomic.CMP_XCHG ty a e d))) Q _
    rw [cmp_xchg_eq]
    refine Lin.bind (Lin.bind ⟨⟨ty, e, d, rfl, rfl, rfl, rfl⟩, ?_⟩)
    rintro r w rfl
    exact hQ _
  | load ty a => cases ty <;> exact lin_atomic fun r => hQ _
  | store ty a x =>
    show Lin (do
      pure (ty.toReg (← (Atomic.ATOMIC_STORE ty a x).getD (Atomic.storeCode ty a x)))) Q _
    rw [Atomic.store_eq]
    refine Lin.bind (Lin.bind (Lin.bind (lin_plain plain_push_off fun _ => ?_)))
    refine Lin.bind ⟨⟨ty, x, rfl, rfl, rfl⟩, ?_⟩
    rintro r w rfl
    show Lin pop_off _ _
    exact lin_plain plain_pop_off fun _ => hQ _
  | fetch_add ty a x =>
    exact lin_fetchVal (fetchVal_eq (M := fun ty => Atomic.ATOMIC_FETCH_ADD ty a) rfl rfl rfl ty x)
      (fun _ _ => rfl) hQ
  | fetch_sub ty a x =>
    exact lin_fetchVal (fetchVal_eq (M := fun ty => Atomic.ATOMIC_FETCH_SUB ty a) rfl rfl rfl ty x)
      (fun _ _ => rfl) hQ
  | fetch_and ty a x =>
    exact lin_fetchVal (fetchVal_eq (M := fun ty => Atomic.ATOMIC_FETCH_AND ty a) rfl rfl rfl ty x)
      (fun _ _ => rfl) hQ
  | fetch_or ty a x =>
    exact lin_fetchVal (fetchVal_eq (M := fun ty => Atomic.ATOMIC_FETCH_OR ty a) rfl rfl rfl ty x)
      (fun _ _ => rfl) hQ
  | fetch_xor ty a x =>
    exact lin_fetchVal (fetchVal_eq (M := fun ty => Atomic.ATOMIC_FETCH_XOR ty a) rfl rfl rfl ty x)
      (fun _ _ => rfl) hQ

theorem lin_call (c : AtomicCall) {Q : Unit → OpenCall → Prop} (hQ : Q () none) :
    Lin (Atomic.call c) Q none := by
  refine Lin.bind ⟨rfl, ?_⟩
  rintro _ w rfl
  refine Lin.bind (lin_body c fun a0 => Lin.bind ⟨⟨c, rfl⟩, ?_⟩)
  rintro _ w rfl
  refine ⟨rfl, ?_⟩
  rintro _ w rfl
  exact hQ

/-! ## The loops -/

theorem lin_store_round {sz : Width} {a : ℕ} {x : U64} {Q : Unit → OpenCall → Prop}
    (hp : LinPre (.loop (.atomic_store sz a x)) v)
    (hQ : ∀ w, LinPost (.loop (.atomic_store sz a x)) v () w → Q () w) :
    Lin (Atomic.store_round sz a x) Q v := by
  obtain ⟨ty, val, rfl, rfl, rfl⟩ := hp
  refine Lin.bind (lin_atomic fun y => Lin.bind (lin_atomic fun r => ?_))
  show Lin _ Q (some (_, if r = 0 then _ else _))
  by_cases hr : r = 0
  · rw [if_pos hr, if_neg (by simpa using hr)]
    exact hQ _ rfl
  · rw [if_neg hr, if_pos hr]
    exact ⟨⟨ty, val, rfl, rfl, rfl⟩, fun _ w hw => hQ w hw⟩

theorem lin_cmp_xchg_round {sz : Width} {a : ℕ} {x y : U64} {Q : U64 → OpenCall → Prop}
    (hp : LinPre (.loop (.cmp_xchg sz a x y)) v)
    (hQ : ∀ r w, LinPost (.loop (.cmp_xchg sz a x y)) v r w → Q r w) :
    Lin (Atomic.cmp_xchg_round sz a x y) Q v := by
  obtain ⟨ty, e, d, rfl, rfl, rfl, rfl⟩ := hp
  refine Lin.bind (lin_atomic fun old => ?_)
  show Lin _ Q (some (_, if old = _ then _ else _))
  by_cases ho : old = ty.toReg e
  · rw [if_pos ho, if_neg (by simpa using ho)]
    refine Lin.bind (lin_atomic fun r => ?_)
    show Lin _ Q (some (_, if r = 0 then _ else _))
    by_cases hr : r = 0
    · rw [if_pos hr, if_neg (by simpa using hr)]
      refine hQ old _ ?_
      rw [ho]
      show some (_, some (ty.toReg e)) = some (_, some (ty.toReg (ty.ofReg (ty.toReg e))))
      rw [ofReg_toReg]
    · rw [if_neg hr, if_pos hr]
      exact ⟨⟨ty, e, d, rfl, rfl, rfl, rfl⟩, fun r w hw => hQ r w hw⟩
  · rw [if_neg ho, if_pos ho]
    exact hQ old _ rfl

theorem lin_round (l : Loop) {Q : l.Ret → OpenCall → Prop} (hp : LinPre (.loop l) v)
    (hQ : ∀ r w, LinPost (.loop l) v r w → Q r w) : Lin l.round Q v := by
  cases l with
  | dummy_task =>
    refine Lin.bind (lin_plain plain_intr_on fun _ => ?_)
    refine Lin.bind (lin_plain (plain_one rfl) fun _ => ?_)
    exact Lin.bind (lin_plain (plain_one rfl) fun _ => ⟨hp, fun _ _ hw => hw.elim⟩)
  | atomic_store sz a x => exact lin_store_round hp fun w hw => hQ () w hw
  | cmp_xchg sz a x y => exact lin_cmp_xchg_round hp hQ
  | _ => exact lin_text (text_round noCall_kernel rfl) fun r => hQ r v rfl

theorem lin_dummy_task {Q : Unit → OpenCall → Prop} : Lin dummy_task Q none := by
  refine Lin.bind (lin_plain (plain_one rfl) fun _ => Lin.bind (lin_plain plain_get_cur_task ?_))
  intro t
  cases t with
  | none => exact ⟨trivial, fun _ _ hw => hw.elim⟩
  | some p =>
    refine Lin.bind (lin_plain (plain_call_release p) fun _ => ?_)
    exact ⟨rfl, fun _ _ hw => hw.elim⟩

end

/-! ## The history of the calls -/

section
variable {L : Layout} {cfg : Config} {σ : State} {tr : Trace} {h : ℕ} {fail : Bool} {t : Slot}
  {s : StackId}

/-- What an operation of hart `h` makes of the call of its task. -/
def OpenCall.step (v : OpenCall) (σ : State) (h : ℕ) (fail : Bool) : Op → OpenCall
  | .enter (.atomic c) => some (c, none)
  | .atomic i => v.insn i (σ.atomic h fail i).1
  | .point (.returned _) => none
  | .leave (.atomic _) _ => none
  | _ => v

def OpenCall.event (v : OpenCall) : State × Event → OpenCall
  | (σ, .hart h fail) => ((σ.next h).map (v.step σ h fail)).getD v
  | _ => v

/-- The call of task `t`. -/
def pendingBy (L : Layout) (t : Slot) : Trace → OpenCall
  | [] => none
  | x :: tr =>
    if onStack L (.task t) x then (pendingBy L t tr).event x else pendingBy L t tr

theorem pendingBy_hart (hs : onStack L (.task t) (σ, .hart h fail) = true) {o : Op}
    (hn : σ.next h = some o) :
    pendingBy L t ((σ, .hart h fail) :: tr) = (pendingBy L t tr).step σ h fail o := by
  rw [pendingBy, if_pos hs, OpenCall.event, hn]
  rfl

theorem pendingBy_none (hn : σ.next h = none) :
    pendingBy L t ((σ, .hart h fail) :: tr) = pendingBy L t tr := by
  rw [pendingBy, OpenCall.event, hn]
  exact ite_self _

theorem next_interrupted (hi : (σ.harts h).interrupted = true) : σ.next h = none := by
  rw [State.next, if_pos hi]

theorem OpenCall.step_noCall {o : Op} (ho : Op.noCall o = true) (v : OpenCall) :
    v.step σ h fail o = v := by
  unfold OpenCall.step
  split <;> first | rfl | cases ho

theorem pendingBy_noCall {o : Op} (hn : σ.next h = some o) (ho : Op.noCall o = true) :
    pendingBy L t ((σ, .hart h fail) :: tr) = pendingBy L t tr := by
  by_cases hs : onStack L (.task t) (σ, .hart h fail) = true
  · rw [pendingBy_hart hs hn, OpenCall.step_noCall ho]
  · exact if_neg hs

theorem noCall_ofSwitch (o : Op) (ho : o.ofSwitch = true) : Op.noCall o = true := by
  unfold Op.ofSwitch at ho
  split at ho <;> first | rfl | cases ho

theorem pendingBy_absent {e : Event} (ha : Absent L (.task t) (σ, e)) :
    pendingBy L t ((σ, e) :: tr) = pendingBy L t tr := by
  by_cases hs : onStack L (.task t) (σ, e) = true
  swap
  · exact if_neg hs
  obtain ⟨g, o, hp, ho⟩ := ha hs
  cases e with
  | hart h fail =>
    obtain ⟨o', hn, heq⟩ := Option.map_eq_some_iff.1 hp
    cases heq
    exact pendingBy_noCall hn (noCall_ofSwitch o ho)
  | compute h r pc => cases hp
  | timer h => cases hp

/-- The answer of the machine in the history. -/
theorem pendingBy_after (hs : onStack L (.task t) (σ, .hart h fail) = true) {o : Op} {r : o.Ret}
    (hn : σ.next h = some o) (ha : Answer σ h fail o r) :
    pendingBy L t ((σ, .hart h fail) :: tr) = (pendingBy L t tr).after o r := by
  rw [pendingBy_hart hs hn]
  cases o with
  | atomic i =>
    rw [show r = _ from ha]
    rfl
  | enter f => cases f <;> rfl
  | leave f x => cases f <;> rfl
  | point q => cases q <;> rfl
  | _ => rfl

theorem linPost_after {o : Op} (ho : Op.simple o = true) (v : OpenCall) (r : o.Ret) :
    LinPost o v r (v.after o r) := by
  unfold LinPost
  split <;> first | rfl | cases ho

/-- A program of a task comes to its next call with what it has in hand; one of a hart makes no
calls. -/
def LinRest (L : Layout) (tr : Trace) : StackId → Code → Prop
  | .task t, c => Lin c (fun _ _ => True) (pendingBy L t tr)
  | .hart _, c => Text (fun o => Op.noCall o = true) c

theorem LinRest.of_task {c : Code} {t : Slot} {v : OpenCall} (hv : pendingBy L t tr = v)
    (hc : Lin c (fun _ _ => True) v) : LinRest L tr (.task t) c := by
  subst hv
  exact hc

theorem LinRest.advance (hs : onStack cfg.layout s (σ, .hart h fail) = true) {c c' : Code}
    (hcode : (σ.harts h).code = c) (ha : Advance σ h fail c c') (hc : LinRest cfg.layout tr s c) :
    LinRest cfg.layout ((σ, .hart h fail) :: tr) s c' := by
  cases s with
  | task t =>
    cases ha with
    | trap hi => exact .of_task (pendingBy_none (next_interrupted hi)) (Lin.bind (lin_kernelvec hc))
    | op hi ho hsw ha =>
      exact .of_task (pendingBy_after hs (next_eq hi hcode) ha) (hc.2 _ _ (linPost_after ho _ _))
    | loop hi =>
      exact .of_task (pendingBy_hart hs (next_eq hi hcode)) (Lin.bind (lin_round _ hc.1 hc.2))
    | switch hi => exact .of_task (pendingBy_hart hs (next_eq hi hcode)) (hc.2 () _ rfl)
  | hart g =>
    cases ha with
    | trap hi => exact (text_kernelvec noCall_kernel rfl).bind fun _ => hc
    | op hi ho hsw ha => exact hc.2 _
    | @loop l f hi =>
      refine (text_round noCall_kernel ?_).bind hc.2
      have hl : Op.noCall (.loop l) = true := hc.1
      exact hl
    | switch hi => exact hc.2 ()

theorem linRest_follows : Follows cfg Atomic.call (LinRest cfg.layout) where
  main _ := (plain_kernel_main _ _).kernel noCall_kernel
  fresh _ := lin_dummy_task
  absent {tr σ e s c} ha hc := by
    cases s with
    | task t => exact .of_task (pendingBy_absent ha) hc
    | hart g => exact hc
  advance hs hcode ha hc := LinRest.advance hs hcode ha hc
  call {tr s f} k hc := by
    cases s with
    | task t =>
      obtain ⟨hv, -⟩ := hc
      exact .of_task hv (Lin.bind (lin_call k ⟨rfl, fun _ _ hw => hw.elim⟩))
    | hart g => cases hc.1

end

end GQuuuuuunix.Proof
