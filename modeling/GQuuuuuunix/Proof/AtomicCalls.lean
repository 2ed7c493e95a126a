import GQuuuuuunix.Kernel.AtomicCalls
import GQuuuuuunix.Proof.Text
import GQuuuuuunix.Proof.History

/-! # The rules of the calls on atomic objects

What a program has done to the objects in the call it is in is all that the rules speak of. A flag
goes with it: after a `switch_to` the reservation of the hart may be that of another program, and
no instruction on an object may come before an `sc` of the kernel has ended it. -/

namespace GQuuuuuunix.Proof
open Lib Kernel
set_option autoImplicit false

/-! ## Values in registers and in the objects -/

theorem toInt_ofInt (x : I32) : Atomic.toInt (Atomic.ofInt x) = x := by
  apply BitVec.eq_of_getLsbD_eq
  intro i hi
  simp [BitVec.getLsbD_signExtend, hi]
  omega

section
variable {ty : AtomicTy}

theorem ofReg_toReg (v : ty.Val) : ty.ofReg (ty.toReg v) = v := by
  cases ty with
  | atomic_int_t => exact toInt_ofInt v
  | _ => rfl

theorem ofWord_write (x y : U64) : ty.ofWord (ty.width.write x y) = ty.ofReg y := by
  cases ty with
  | atomic_int_t =>
    show Atomic.toInt (Atomic.ofInt ((x.extractLsb' 32 32 ++ y.setWidth 32).setWidth 32)) = _
    rw [toInt_ofInt]
    exact BitVec.setWidth_append_eq_right
  | _ => rfl

end

/-! ## What a call does -/

/-- An instruction with what it leaves in its register. -/
abbrev Done := AtomicInsn × U64

/-- The instruction wrote nothing. -/
def Done.Idle : Done → Prop
  | (.lr _ _, _) => True
  | (.sc _ _ _, r) => r ≠ 0
  | (.amo _ _ _ _, _) => False

/-- None of the instructions wrote. -/
def Idle (l : List Done) : Prop := ∀ x ∈ l, x.Idle

theorem Idle.nil : Idle [] := fun _ h => by cases h

theorem Idle.cons {x : Done} {l : List Done} (hx : x.Idle) (hl : Idle l) : Idle (x :: l) := by
  intro y hy
  rcases List.mem_cons.1 hy with rfl | hy
  · exact hx
  · exact hl y hy

namespace AtomicCall

def ty : AtomicCall → AtomicTy
  | .test_set ty _ | .cmp_xchg ty _ _ _ | .load ty _ | .store ty _ _ | .fetch_add ty _ _
  | .fetch_sub ty _ _ | .fetch_and ty _ _ | .fetch_or ty _ _ | .fetch_xor ty _ _ => ty

/-- The instruction of a call that has only one. -/
def insn : AtomicCall → Option AtomicInsn
  | .test_set ty a => some (.amo .swap ty.width a (ty.toReg 1))
  | .load ty a => some (.lr ty.width a)
  | .fetch_add ty a v | .fetch_sub ty a v => some (.amo .add ty.width a (ty.toReg v))
  | .fetch_and ty a v => some (.amo .and ty.width a (ty.toReg v))
  | .fetch_or ty a v => some (.amo .or ty.width a (ty.toReg v))
  | .fetch_xor ty a v => some (.amo .xor ty.width a (ty.toReg v))
  | .store _ _ _ | .cmp_xchg _ _ _ _ => none

/-- The call, after the instructions `l` (the newest first), may perform `i`. -/
def Next : AtomicCall → List Done → AtomicInsn → Prop
  | .store ty a v, l, i => Idle l ∧ (i = .lr ty.width a ∨ i = .sc ty.width a (ty.toReg v))
  | .cmp_xchg ty a e d, l, i => Idle l ∧ (i = .lr ty.width a ∨
      i = .sc ty.width a (ty.toReg d) ∧ ∃ l', l = (.lr ty.width a, ty.toReg e) :: l')
  | c, l, i => l = [] ∧ insn c = some i

/-- The value of `ATOMIC_LOAD` in `a0`, when the `lr` left `r`. -/
def loaded : AtomicTy → U64 → U64
  | .atomic_int_t, r | .atomic_ulong_t, r => Atomic.ofInt (Atomic.toInt r)
  | .atomic_long_t, r => r

/-- The call, after the instructions `l`, returns `a0`. -/
def Ends : AtomicCall → List Done → U64 → Prop
  | .store ty a v, l, a0 => (∃ l' y, Idle l' ∧
      l = (.sc ty.width a (ty.toReg v), 0) :: (.lr ty.width a, y) :: l') ∧ a0 = ty.toReg v
  | .cmp_xchg ty a e d, l, a0 => ∃ l' r, Idle l' ∧ a0 = ty.toReg (ty.ofReg r) ∧
      if r = ty.toReg e then l = (.sc ty.width a (ty.toReg d), 0) :: (.lr ty.width a, r) :: l'
      else l = (.lr ty.width a, r) :: l'
  | .load ty a, l, a0 => ∃ r, l = [(.lr ty.width a, r)] ∧ a0 = loaded ty r
  | c, l, a0 => ∃ i r, insn c = some i ∧ l = [(i, r)] ∧ a0 = (ty c).toReg ((ty c).ofReg r)

end AtomicCall

/-- What a program has done: the call it is in, the instructions of that call, the newest first,
and the calls it has ended, the newest first. -/
structure ObjView where
  call : Option AtomicCall
  insns : List Done
  ended : List AtomicCall

namespace ObjView

def start : ObjView := ⟨none, [], []⟩

def see (v : ObjView) : ObjEvent → ObjView
  | .begins c => { v with call := some c, insns := [] }
  | .insn i r => { v with insns := (i, r) :: v.insns }
  | .ends c => { call := none, insns := [], ended := c :: v.ended }

def after (v : ObjView) : (o : Op) → o.Ret → ObjView
  | .enter (.atomic c), _ => v.see (.begins c)
  | .atomic i, r => v.see (.insn i r)
  | .leave (.atomic c) _, _ => v.see (.ends c)
  | _, _ => v

theorem after_special {v : ObjView} {o : Op} (ho : Op.special o = false) (r : o.Ret) :
    v.after o r = v := by
  unfold after
  split <;> first | rfl | cases ho

end ObjView

/-! ## The rules -/

/-- The flag after an operation. -/
def staleAfter (b : Bool) : Op → Bool
  | .call_switch_to _ _ _ => true
  | .sc _ _ => false
  | _ => b

/-- What an operation needs of a program whose calls are all in `C`. -/
def ObjPre (C : AtomicCall → Prop) : Op → ObjView × Bool → Prop
  | .enter (.atomic c), v => v.1.call = none ∧ C c
  | .leave (.atomic c) _, v => v.1.call = some c ∧ ∃ a0, AtomicCall.Ends c v.1.insns a0
  | .atomic i, v => v.2 = false ∧ ∃ c, v.1.call = some c ∧ AtomicCall.Next c v.1.insns i
  | .point (.returned a0), v => ∃ c, v.1.call = some c ∧ AtomicCall.Ends c v.1.insns a0
  | .loop (.atomic_store sz a x), v => v.2 = false ∧ Idle v.1.insns ∧ ∃ ty val,
      v.1.call = some (.store ty a val) ∧ sz = ty.width ∧ x = ty.toReg val
  | .loop (.cmp_xchg sz a x y), v => v.2 = false ∧ Idle v.1.insns ∧ ∃ ty e d,
      v.1.call = some (.cmp_xchg ty a e d) ∧ sz = ty.width ∧ x = ty.toReg e ∧ y = ty.toReg d
  | .loop .dummy_task, v => v.2 = false ∧ v.1.call = none ∧ v.1.insns = []
  | .w_sip x, _ => x.getLsbD 1 = false
  | _, _ => True

def ObjPost : (o : Op) → ObjView × Bool → o.Ret → ObjView × Bool → Prop
  | .loop (.atomic_store sz a x), v, _, w => ∃ l y, Idle l ∧
      w = ({ v.1 with insns := (.sc sz a x, 0) :: (.lr sz a, y) :: l }, false)
  | .loop (.cmp_xchg sz a e d), v, r, w => ∃ l, Idle l ∧
      w = ({ v.1 with insns := if r = e then (.sc sz a d, 0) :: (.lr sz a, r) :: l
                               else (.lr sz a, r) :: l }, false)
  | .loop (.store _ _), v, _, w => w = (v.1, false)
  | .loop .dummy_task, _, _, _ => False
  | .loop _, v, _, w => w = v ∨ w = (v.1, false)
  | .panic _, _, _, _ | .crash, _, _, _ | .ret _ _, _, _, _ => False
  | o, v, r, w => w = (v.1.after o r, staleAfter v.2 o)

def objRules (C : AtomicCall → Prop) : Rules Op Op.Ret (ObjView × Bool) := fun o Q v =>
  ObjPre C o v ∧ ∀ r w, ObjPost o v r w → Q r w

theorem objRules_mono (C : AtomicCall → Prop) : (objRules C).Mono :=
  fun _ _ _ _ h hQ => ⟨hQ.1, fun r w hw => h r w (hQ.2 r w hw)⟩

abbrev Obj (C : AtomicCall → Prop) {α : Type} (p : KProg α) (Q : α → ObjView × Bool → Prop)
    (v : ObjView × Bool) : Prop := wp (objRules C) p Q v

theorem objPost_after {o : Op} (ho : ∀ l, o ≠ .loop l) (hp : ∀ s, o ≠ .panic s) (hc : o ≠ .crash)
    (hr : ∀ old new, o ≠ .ret old new) (v : ObjView × Bool) (r : o.Ret) :
    ObjPost o v r (v.1.after o r, staleAfter v.2 o) := by
  unfold ObjPost
  split
  · exact absurd rfl (ho _)
  · exact absurd rfl (ho _)
  · exact absurd rfl (ho _)
  · exact absurd rfl (ho _)
  · exact absurd rfl (ho _)
  · exact absurd rfl (hp _)
  · exact absurd rfl hc
  · exact absurd rfl (hr _ _)
  · rfl

/-- What a function that touches no object does: it may end the reservation of its hart. -/
def Fresher (v w : ObjView × Bool) : Prop := w = v ∨ w = (v.1, false)

section
variable {C : AtomicCall → Prop} {α β : Type} {v : ObjView × Bool}

theorem Fresher.trans {u w : ObjView × Bool} (h : Fresher u v) (h' : Fresher v w) :
    Fresher u w := by
  rcases h with rfl | rfl
  · exact h'
  · rcases h' with rfl | rfl <;> exact Or.inr rfl

theorem Fresher.fst {w : ObjView × Bool} (h : Fresher v w) : w.1 = v.1 := by
  rcases h with rfl | rfl <;> rfl

theorem Fresher.of_false {u : ObjView} {w : ObjView × Bool} (h : Fresher (u, false) w) :
    w = (u, false) := by
  rcases h with rfl | rfl <;> rfl

theorem Obj.bind {p : KProg α} {f : α → KProg β} {Q : β → ObjView × Bool → Prop}
    (hp : Obj C p (fun a w => Obj C (f a) Q w) v) : Obj C (p >>= f) Q v := wp_seq hp

theorem Obj.mono {p : KProg α} {Q Q' : α → ObjView × Bool → Prop} (hp : Obj C p Q' v)
    (h : ∀ a w, Q' a w → Q a w) : Obj C p Q v := wp_mono (objRules_mono C) h hp

theorem obj_special {o : Op} {Q : o.Ret → ObjView × Bool → Prop} (ho : Op.special o = false)
    (hQ : ∀ r w, Fresher v w → Q r w) : objRules C o Q v := by
  refine ⟨?_, fun r w hw => hQ r w ?_⟩
  · unfold ObjPre
    split <;> trivial
  · unfold ObjPost at hw
    split at hw
    any_goals cases ho
    · exact Or.inr hw
    · exact hw
    · exact hw.elim
    · exact hw.elim
    · rw [hw, v.1.after_special ho]
      unfold staleAfter
      split
      · cases ho
      · exact Or.inr rfl
      · exact Or.inl rfl

/-- A function with no special operation does nothing but end a reservation. -/
theorem obj_plain {p : KProg α} {Q : α → ObjView × Bool → Prop} (hp : Plain p)
    (hQ : ∀ a w, Fresher v w → Q a w) : Obj C p Q v :=
  wp_forall (S := objRules C) (R := Fresher) (fun _ => Or.inl rfl) Fresher.trans
    (fun _ _ _ ho h => obj_special ho h) hp hQ

/-- The same where the flag is down. -/
theorem obj_plain_false {p : KProg α} {Q : α → ObjView × Bool → Prop} {u : ObjView}
    (hp : Plain p) (hQ : ∀ a, Q a (u, false)) : Obj C p Q (u, false) :=
  obj_plain hp fun a _ hw => hw.of_false ▸ hQ a

/-! ## atomic.h -/

theorem obj_atomic {i : AtomicInsn} {Q : U64 → ObjView × Bool → Prop} {u : ObjView}
    {c : AtomicCall} (hc : u.call = some c) (hn : AtomicCall.Next c u.insns i)
    (hQ : ∀ r, Q r (u.see (.insn i r), false)) : Obj C (atomic i) Q (u, false) :=
  ⟨⟨rfl, c, hc, hn⟩, fun r w hw => (show w = (u.see (.insn i r), false) from hw) ▸ hQ r⟩

theorem obj_fetch {f : Amo} {sz : Width} {a : ℕ} {x : U64} {Q : U64 → ObjView × Bool → Prop}
    {u : ObjView} {c : AtomicCall} (hc : u.call = some c)
    (hn : AtomicCall.Next c u.insns (.amo f sz a x))
    (hQ : ∀ r, Q r (u.see (.insn (.amo f sz a x) r), false)) :
    Obj C (Atomic.fetch f sz a x) Q (u, false) := by
  refine Obj.bind (obj_plain_false plain_push_off fun _ => ?_)
  refine Obj.bind (obj_atomic hc hn fun r => ?_)
  exact Obj.bind (obj_plain_false plain_pop_off fun _ => hQ r)

/-- `ATOMIC_FETCH_...` in terms of the register. -/
def fetchVal (f : Amo) (ty : AtomicTy) (a : ℕ) (v : ty.Val) : KProg ty.Val := do
  let old ← Atomic.fetch f ty.width a (ty.toReg v)
  pure (ty.ofReg old)

theorem fetchVal_eq {f : Amo} {a : ℕ} {M : (ty : AtomicTy) → ty.Val → KProg ty.Val}
    (hi : M .atomic_int_t = Atomic.fetchInt f a) (hl : M .atomic_long_t = Atomic.fetch f .d a)
    (hu : M .atomic_ulong_t = Atomic.fetch f .d a) (ty : AtomicTy) (v : ty.Val) :
    M ty v = fetchVal f ty a v := by
  cases ty with
  | atomic_int_t => rw [hi]; rfl
  | atomic_long_t => rw [hl]; exact (Prog.bind_pure _).symm
  | atomic_ulong_t => rw [hu]; exact (Prog.bind_pure _).symm

theorem test_set_eq (ty : AtomicTy) (a : ℕ) : Atomic.TEST_SET ty a = fetchVal .swap ty a 1 := by
  cases ty with
  | atomic_int_t => rfl
  | _ => exact (Prog.bind_pure _).symm

theorem cmp_xchg_eq (ty : AtomicTy) (a : ℕ) (e d : ty.Val) : Atomic.CMP_XCHG ty a e d = (do
    let old ← loop (.cmp_xchg ty.width a (ty.toReg e) (ty.toReg d))
    pure (ty.ofReg old)) := by
  cases ty with
  | atomic_int_t => rfl
  | _ => exact (Prog.bind_pure _).symm

theorem obj_load {ty : AtomicTy} {a : ℕ} {Q : U64 → ObjView × Bool → Prop} {u : ObjView}
    (hc : u.call = some (.load ty a)) (hi : u.insns = [])
    (hQ : ∀ r, Q (AtomicCall.loaded ty r) (u.see (.insn (.lr ty.width a) r), false)) :
    Obj C (do pure (ty.loadToReg (← Atomic.ATOMIC_LOAD ty a))) Q (u, false) := by
  cases ty <;> exact obj_atomic hc ⟨hi, rfl⟩ fun r => hQ r

theorem obj_fetchVal {f : Amo} {ty : AtomicTy} {a : ℕ} {v : ty.Val} {p : KProg ty.Val}
    {Q : U64 → ObjView × Bool → Prop} {u : ObjView} {c : AtomicCall} (hc : u.call = some c)
    (hn : AtomicCall.Next c u.insns (.amo f ty.width a (ty.toReg v))) (hp : p = fetchVal f ty a v)
    (hQ : ∀ r, Q (ty.toReg (ty.ofReg r))
      (u.see (.insn (.amo f ty.width a (ty.toReg v)) r), false)) :
    Obj C (do pure (ty.toReg (← p))) Q (u, false) := by
  subst hp
  exact Obj.bind (Obj.bind (obj_fetch hc hn fun r => hQ r))

theorem obj_body (c : AtomicCall) {Q : U64 → ObjView × Bool → Prop} {u : ObjView}
    (hc : u.call = some c) (hi : u.insns = [])
    (hQ : ∀ a0 l, AtomicCall.Ends c l a0 → Q a0 ({ u with insns := l }, false)) :
    Obj C (Atomic.body c) Q (u, false) := by
  have hone : ∀ i r, u.see (.insn i r) = { u with insns := [(i, r)] } := by
    intro i r
    show ({ u with insns := (i, r) :: u.insns } : ObjView) = _
    rw [hi]
  cases c with
  | test_set ty a =>
    refine obj_fetchVal hc ⟨hi, rfl⟩ (test_set_eq ty a) fun r => ?_
    rw [hone]
    exact hQ _ _ ⟨_, r, rfl, rfl, rfl⟩
  | cmp_xchg ty a e d =>
    show Obj C (do pure (ty.toReg (← Atomic.CMP_XCHG ty a e d))) Q (u, false)
    rw [cmp_xchg_eq]
    refine Obj.bind (Obj.bind ⟨⟨rfl, hi ▸ Idle.nil, ty, e, d, hc, rfl, rfl, rfl⟩, ?_⟩)
    rintro r w ⟨l, hl, rfl⟩
    refine hQ _ _ ⟨l, r, hl, rfl, ?_⟩
    split <;> rfl
  | load ty a =>
    refine obj_load hc hi fun r => ?_
    rw [hone]
    exact hQ _ _ ⟨r, rfl, rfl⟩
  | store ty a v =>
    show Obj C (do
      pure (ty.toReg (← (Atomic.ATOMIC_STORE ty a v).getD (Atomic.storeCode ty a v)))) Q (u, false)
    rw [Atomic.store_eq]
    refine Obj.bind (Obj.bind (Obj.bind (obj_plain_false plain_push_off fun _ => ?_)))
    refine Obj.bind ⟨⟨rfl, hi ▸ Idle.nil, ty, v, hc, rfl, rfl⟩, ?_⟩
    rintro r w ⟨l, y, hl, rfl⟩
    show Obj C pop_off _ _
    exact obj_plain_false plain_pop_off fun _ => hQ _ _ ⟨⟨l, y, hl, rfl⟩, rfl⟩
  | fetch_add ty a v =>
    refine obj_fetchVal hc ⟨hi, rfl⟩ (fetchVal_eq (M := fun ty => Atomic.ATOMIC_FETCH_ADD ty a)
      rfl rfl rfl ty v) fun r => ?_
    rw [hone]
    exact hQ _ _ ⟨_, r, rfl, rfl, rfl⟩
  | fetch_sub ty a v =>
    refine obj_fetchVal hc ⟨hi, rfl⟩ (fetchVal_eq (M := fun ty => Atomic.ATOMIC_FETCH_SUB ty a)
      rfl rfl rfl ty v) fun r => ?_
    rw [hone]
    exact hQ _ _ ⟨_, r, rfl, rfl, rfl⟩
  | fetch_and ty a v =>
    refine obj_fetchVal hc ⟨hi, rfl⟩ (fetchVal_eq (M := fun ty => Atomic.ATOMIC_FETCH_AND ty a)
      rfl rfl rfl ty v) fun r => ?_
    rw [hone]
    exact hQ _ _ ⟨_, r, rfl, rfl, rfl⟩
  | fetch_or ty a v =>
    refine obj_fetchVal hc ⟨hi, rfl⟩ (fetchVal_eq (M := fun ty => Atomic.ATOMIC_FETCH_OR ty a)
      rfl rfl rfl ty v) fun r => ?_
    rw [hone]
    exact hQ _ _ ⟨_, r, rfl, rfl, rfl⟩
  | fetch_xor ty a v =>
    refine obj_fetchVal hc ⟨hi, rfl⟩ (fetchVal_eq (M := fun ty => Atomic.ATOMIC_FETCH_XOR ty a)
      rfl rfl rfl ty v) fun r => ?_
    rw [hone]
    exact hQ _ _ ⟨_, r, rfl, rfl, rfl⟩

theorem obj_call (c : AtomicCall) {Q : Unit → ObjView × Bool → Prop} {u : ObjView}
    (hC : C c) (hc : u.call = none) (hQ : Q () (⟨none, [], c :: u.ended⟩, false)) :
    Obj C (Atomic.call c) Q (u, false) := by
  refine Obj.bind ⟨⟨hc, hC⟩, ?_⟩
  rintro _ w rfl
  refine Obj.bind (obj_body c rfl rfl fun a0 l hl => Obj.bind ⟨⟨c, rfl, hl⟩, ?_⟩)
  rintro _ w rfl
  refine ⟨⟨rfl, a0, hl⟩, ?_⟩
  rintro _ w rfl
  exact hQ

/-! ### The rounds of the two loops -/

theorem obj_store_round {sz : Width} {a : ℕ} {x : U64} {v : ObjView × Bool}
    {Q : Unit → ObjView × Bool → Prop} (hp : ObjPre C (.loop (.atomic_store sz a x)) v)
    (hQ : ∀ w, ObjPost (.loop (.atomic_store sz a x)) v () w → Q () w) :
    Obj C (Atomic.store_round sz a x) Q v := by
  obtain ⟨u, b⟩ := v
  obtain ⟨rfl, hl, ty, val, hc, rfl, rfl⟩ := hp
  refine Obj.bind (obj_atomic hc ⟨hl, Or.inl rfl⟩ fun y => ?_)
  have hl' : Idle ((.lr ty.width a, y) :: u.insns) := hl.cons trivial
  refine Obj.bind (obj_atomic hc ⟨hl', Or.inr rfl⟩ fun r => ?_)
  by_cases hr : r = 0
  · subst hr
    rw [if_neg (by simp)]
    exact hQ _ ⟨u.insns, y, hl, rfl⟩
  · rw [if_pos hr]
    refine ⟨⟨rfl, hl'.cons hr, ty, val, hc, rfl, rfl⟩, ?_⟩
    rintro _ w ⟨l, z, hz, rfl⟩
    exact hQ _ ⟨l, z, hz, rfl⟩

theorem obj_cmp_xchg_round {sz : Width} {a : ℕ} {x y : U64} {v : ObjView × Bool}
    {Q : U64 → ObjView × Bool → Prop} (hp : ObjPre C (.loop (.cmp_xchg sz a x y)) v)
    (hQ : ∀ r w, ObjPost (.loop (.cmp_xchg sz a x y)) v r w → Q r w) :
    Obj C (Atomic.cmp_xchg_round sz a x y) Q v := by
  obtain ⟨u, b⟩ := v
  obtain ⟨rfl, hl, ty, e, d, hc, rfl, rfl, rfl⟩ := hp
  refine Obj.bind (obj_atomic hc ⟨hl, Or.inl rfl⟩ fun old => ?_)
  by_cases ho : old = ty.toReg e
  · rw [if_neg (by simpa using ho)]
    have hl' : Idle ((.lr ty.width a, old) :: u.insns) := hl.cons trivial
    refine Obj.bind (obj_atomic hc ⟨hl', Or.inr ⟨rfl, u.insns, by rw [ho]; rfl⟩⟩ fun r => ?_)
    by_cases hr : r = 0
    · subst hr
      rw [if_neg (by simp)]
      refine hQ _ _ ⟨u.insns, hl, ?_⟩
      rw [if_pos ho]
      rfl
    · rw [if_pos hr]
      refine ⟨⟨rfl, hl'.cons hr, ty, e, d, hc, rfl, rfl, rfl⟩, ?_⟩
      rintro r' w ⟨l, hz, rfl⟩
      exact hQ _ _ ⟨l, hz, rfl⟩
  · rw [if_pos ho]
    refine hQ _ _ ⟨u.insns, hl, ?_⟩
    rw [if_neg ho]
    rfl

/-! ## spin_lock.c -/

theorem obj_atomic_store {c : Cell} {x : I32} {Q : I32 → ObjView × Bool → Prop}
    (hQ : Q x (v.1, false)) : Obj C (atomic_store_i32 c x) Q v := by
  refine Obj.bind (obj_plain (plain_one rfl) fun _ w1 h1 => ?_)
  refine Obj.bind (obj_plain plain_push_off fun _ w2 h2 => ?_)
  rw [← (h1.trans h2).fst] at hQ
  refine Obj.bind ⟨trivial, ?_⟩
  rintro _ w rfl
  refine Obj.bind (obj_plain_false plain_pop_off fun _ => ?_)
  exact Obj.bind (obj_plain_false (plain_one rfl) fun _ => hQ)

theorem obj_panic_if {c : Prop} [Decidable c] {s : PanicSite} {p : KProg α}
    {Q : α → ObjView × Bool → Prop} (hp : Obj C p Q v) : Obj C (do
      if c then
        PANIC s
      p) Q v := by
  split
  · exact ⟨trivial, fun _ _ h => h.elim⟩
  · exact hp

theorem obj_release_lk {lk : TaskPtr} {Q : Unit → ObjView × Bool → Prop}
    (hQ : Q () (v.1, false)) : Obj C (release_lk lk) Q v := by
  refine Obj.bind (obj_plain (plain_one rfl) fun _ w1 h1 => ?_)
  refine Obj.bind (obj_plain (plain_call_is_holding lk) fun r w2 h2 => obj_panic_if ?_)
  refine Obj.bind (obj_plain (plain_one rfl) fun _ w3 h3 => ?_)
  refine Obj.bind (obj_plain (plain_one rfl) fun _ w4 h4 => Obj.bind (obj_atomic_store ?_))
  refine Obj.bind (obj_plain_false plain_pop_off fun _ => ?_)
  refine obj_plain_false (plain_one rfl) fun _ => ?_
  rwa [(((h1.trans h2).trans h3).trans h4).fst]

theorem obj_crash {k : Unit → KProg α} {Q : α → ObjView × Bool → Prop} :
    Obj C (.op .crash k) Q v := ⟨trivial, fun _ _ h => h.elim⟩

theorem obj_release {lk : TaskPtr} {Q : Unit → ObjView × Bool → Prop}
    (hQ : Q () (v.1, false)) : Obj C (call_release lk) Q v := by
  refine Obj.bind (obj_plain (plain_one rfl) fun f w hw => ?_)
  rw [← hw.fst] at hQ
  cases f with
  | release_lk => exact obj_release_lk hQ
  | _ => exact obj_crash

/-! ## sched.c -/

/-- Whatever hart a program goes on with after `switch_to`, it ends that hart's reservation. -/
theorem obj_switch {s : SwitchSite} {old new : CtxPtr} {Q : Unit → ObjView × Bool → Prop}
    (hQ : Q () (v.1, true)) : Obj C (call_switch_to s old new) Q v := by
  refine ⟨trivial, ?_⟩
  rintro _ w rfl
  exact hQ

theorem obj_deref {t : Option TaskPtr} {k : TaskPtr → KProg α} {Q : α → ObjView × Bool → Prop}
    (hk : ∀ p, Obj C (k p) Q v) : Obj C (deref t k) Q v := by
  cases t with
  | some p => exact hk p
  | none => exact obj_crash

theorem obj_sched {Q : Unit → ObjView × Bool → Prop} (hQ : ∀ b, Q () (v.1, b)) :
    Obj C sched Q v := by
  refine Obj.bind (obj_plain plain_get_cur_task fun t w1 h1 => obj_deref fun task => ?_)
  refine Obj.bind (obj_plain (plain_call_is_holding task) fun r w2 h2 => obj_panic_if ?_)
  refine Obj.bind (obj_plain (plain_one rfl) fun st w3 h3 => obj_panic_if ?_)
  refine Obj.bind (obj_plain plain_intr_get fun i w4 h4 => obj_panic_if ?_)
  refine Obj.bind (obj_plain plain_get_cur_cpu fun c w5 h5 => ?_)
  refine Obj.bind (obj_plain (plain_one rfl) fun e w6 h6 => ?_)
  refine Obj.bind (obj_plain plain_get_cur_cpu fun c' w7 h7 => Obj.bind (obj_switch ?_))
  refine Obj.bind (obj_plain plain_get_cur_cpu fun c'' w8 h8 => ?_)
  refine obj_plain (plain_one rfl) fun _ w9 h9 => ?_
  have h : w7.1 = v.1 :=
    ((((((h1.trans h2).trans h3).trans h4).trans h5).trans h6).trans h7).fst
  rw [show w9 = (v.1, w9.2) from Prod.ext ((h8.trans h9).fst.trans h) rfl]
  exact hQ w9.2

theorem obj_yield {Q : Unit → ObjView × Bool → Prop} (hQ : Q () (v.1, false)) :
    Obj C yield Q v := by
  refine Obj.bind ⟨trivial, ?_⟩
  rintro _ w rfl
  refine Obj.bind (obj_plain plain_get_cur_task fun t w1 h1 => obj_deref fun task => ?_)
  refine Obj.bind (obj_plain (plain_call_acquire task) fun _ w2 h2 => ?_)
  refine Obj.bind (obj_plain (plain_one rfl) fun _ w3 h3 => Obj.bind (obj_sched fun b => ?_))
  refine Obj.bind (obj_release ⟨trivial, ?_⟩)
  rintro _ w rfl
  show Q () (w3.1, false)
  rw [((h1.trans h2).trans h3).fst]
  exact hQ

theorem obj_scan_body {c : ℕ} {i : Fin TASK_MAX_NRS} {Q : Unit → ObjView × Bool → Prop}
    (hQ : Q () (v.1, false)) : Obj C (scan_body c i) Q v := by
  refine Obj.bind (obj_plain (plain_call_acquire _) fun _ w1 h1 => ?_)
  refine Obj.bind (obj_plain (plain_one rfl) fun st w2 h2 => ?_)
  split
  · refine Obj.bind (obj_plain (plain_one rfl) fun _ w3 h3 => ?_)
    refine Obj.bind (obj_plain (plain_one rfl) fun pid w4 h4 => ?_)
    refine Obj.bind (obj_plain (plain_one rfl) fun _ w5 h5 => ?_)
    refine Obj.bind (obj_plain (plain_one rfl) fun _ w6 h6 => Obj.bind (obj_switch ?_))
    refine Obj.bind (obj_plain (plain_one rfl) fun _ w7 h7 => ?_)
    refine Obj.bind (obj_plain (plain_one rfl) fun _ w8 h8 => obj_release ?_)
    have h : w6.1 = v.1 := (((((h1.trans h2).trans h3).trans h4).trans h5).trans h6).fst
    rw [(h7.trans h8).fst]
    exact h ▸ hQ
  · refine obj_release ?_
    rwa [(h1.trans h2).fst]

/-! ## One round of a loop -/

theorem obj_cell_round {c : Cell} {x : I32} {Q : Unit → ObjView × Bool → Prop}
    (hQ : Q () (v.1, false)) : Obj C (store_round c x) Q v := by
  refine Obj.bind (obj_plain (plain_one rfl) fun _ w1 h1 => Obj.bind ⟨trivial, ?_⟩)
  rintro r w rfl
  rw [← h1.fst] at hQ
  show Obj C (if r ≠ 0 then loop (.store c x) else pure ()) Q (w1.1, false)
  split
  · refine ⟨trivial, ?_⟩
    rintro _ w rfl
    exact hQ
  · exact hQ

theorem obj_dummy_task_round {Q : Unit → ObjView × Bool → Prop}
    (hp : ObjPre C (.loop .dummy_task) v) : Obj C dummy_task_round Q v := by
  obtain ⟨u, b⟩ := v
  obtain ⟨rfl, hc⟩ := hp
  refine Obj.bind (obj_plain_false plain_intr_on fun _ => ?_)
  refine Obj.bind (obj_plain_false (plain_one rfl) fun _ => ?_)
  refine Obj.bind (obj_plain_false (plain_one rfl) fun _ => ?_)
  exact ⟨⟨rfl, hc⟩, fun _ _ h => h.elim⟩

theorem obj_round (l : Loop) {Q : l.Ret → ObjView × Bool → Prop} (hp : ObjPre C (.loop l) v)
    (hQ : ∀ r w, ObjPost (.loop l) v r w → Q r w) : Obj C l.round Q v := by
  cases l with
  | test_set lk => exact obj_plain (plain_test_set_round lk) hQ
  | store c x => exact obj_cell_round (hQ () _ rfl)
  | barrier => exact obj_plain plain_barrier_round hQ
  | scheduler c => exact obj_plain (plain_scheduler_round c) hQ
  | scan c t =>
    show Obj C (scan_round c t) Q v
    unfold scan_round
    split
    · refine Obj.bind (obj_scan_body ?_)
      exact obj_plain (plain_one rfl) fun r w hw => hQ r w (Or.inr hw.of_false)
    · exact hQ () v (Or.inl rfl)
  | dummy_task => exact obj_dummy_task_round hp
  | atomic_store sz a x => exact obj_store_round hp fun w hw => hQ () w hw
  | cmp_xchg sz a x y => exact obj_cmp_xchg_round hp hQ

end

end GQuuuuuunix.Proof
