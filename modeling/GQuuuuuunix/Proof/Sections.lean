import GQuuuuuunix.Kernel.Sections
import GQuuuuuunix.Proof.Execution

/-! # Programs with sections

That the marked programs are the functions of the kernel, that sequences of their calls are
balanced, and what `push_off` and `pop_off` do to `sstatus` and `struct cpu`. -/

namespace GQuuuuuunix.Proof
open Lib Kernel
set_option autoImplicit false

/-! ## The marked programs are the functions -/

section
variable {α β : Type}

theorem code_bind (p : SecProg α) (f : α → SecProg β) :
    SecProg.code (p.bind f) = p.code.bind fun a => (f a).code := by
  induction p with
  | pure a => rfl
  | op s k ih =>
    show s.code.bind (fun r => SecProg.code ((k r).bind f)) = _
    simp only [ih]
    exact (Prog.bind_assoc _ _ _).symm

theorem code_plain (c : KProg α) : (Sec.plain c).code = c := by
  induction c with
  | pure a => rfl
  | op o k ih =>
    show Prog.op o (fun r => (Sec.plain (k r)).code) = _
    simp only [ih]

end

theorem code_push_off : Sec.push_off.code = push_off := Prog.bind_pure _

theorem code_pop_off : Sec.pop_off.code = pop_off := Prog.bind_pure _

theorem code_ite {α : Type} (P : Prop) [Decidable P] (p q : SecProg α) :
    SecProg.code (if P then p else q) = if P then p.code else q.code := by
  split <;> rfl

theorem code_test_set_round (lk : TaskPtr) :
    (Sec.test_set_round lk).code = test_set_round lk := by
  unfold Sec.test_set_round Sec.test_set_i32 test_set_round test_set_i32
  simp only [Prog.bind_eq, code_bind, code_ite, code_push_off, code_pop_off]
  rfl

theorem code_acquire_lk (lk : TaskPtr) : (Sec.acquire_lk lk).code = acquire_lk lk := by
  unfold Sec.acquire_lk acquire_lk
  simp only [Prog.bind_eq, code_bind, code_plain, code_ite, code_push_off]
  rfl

theorem code_release_lk (lk : TaskPtr) : (Sec.release_lk lk).code = release_lk lk := by
  unfold Sec.release_lk release_lk Sec.atomic_store_i32 atomic_store_i32
  simp only [Prog.bind_eq, code_bind, code_plain, code_ite, code_push_off, code_pop_off]
  rfl

theorem code_call_acquire (lk : TaskPtr) : (Sec.call_acquire lk).code = call_acquire lk := by
  unfold Sec.call_acquire call_acquire
  simp only [Prog.bind_eq, code_bind]
  refine congrArg (Prog.bind _) (funext fun r => ?_)
  cases r with
  | acquire_lk => exact code_acquire_lk lk
  | _ => rfl

theorem code_call_release (lk : TaskPtr) : (Sec.call_release lk).code = call_release lk := by
  unfold Sec.call_release call_release
  simp only [Prog.bind_eq, code_bind]
  refine congrArg (Prog.bind _) (funext fun r => ?_)
  cases r with
  | release_lk => exact code_release_lk lk
  | _ => rfl

theorem code_fetch (f : Amo) (sz : Width) (a : ℕ) (val : U64) :
    (Sec.fetch f sz a val).code = Atomic.fetch f sz a val := by
  unfold Sec.fetch Atomic.fetch
  simp only [Prog.bind_eq, code_bind, code_push_off, code_pop_off]
  rfl

theorem code_fetchInt (f : Amo) (a : ℕ) (val : I32) :
    (Sec.fetchInt f a val).code = Atomic.fetchInt f a val := by
  unfold Sec.fetchInt Atomic.fetchInt
  simp only [Prog.bind_eq, code_bind, code_fetch]
  rfl

theorem code_store (sz : Width) (a : ℕ) (val : U64) :
    (Sec.store sz a val).code = Atomic.store sz a val := by
  unfold Sec.store Atomic.store
  simp only [Prog.bind_eq, code_bind, code_push_off, code_pop_off]
  rfl

theorem code_body (c : AtomicCall) : (Sec.body c).code = Atomic.body c := by
  cases c with
  | test_set ty a | fetch_add ty a v | fetch_sub ty a v | fetch_and ty a v | fetch_or ty a v
  | fetch_xor ty a v =>
    cases ty <;> simp only [Sec.body, Sec.fetchOf, Prog.bind_eq, code_bind, code_fetch,
      code_fetchInt] <;> rfl
  | store ty a v =>
    show _ = (do
      pure (ty.toReg (← (Atomic.ATOMIC_STORE ty a v).getD (Atomic.storeCode ty a v))))
    rw [Atomic.store_eq]
    simp only [Sec.body, Prog.bind_eq, code_bind, code_store]
    exact (Prog.bind_assoc (Atomic.store ty.width a (ty.toReg v)) (fun _ => .pure v)
      fun x => .pure (ty.toReg x)).symm
  | cmp_xchg ty a e d | load ty a => exact code_plain _

theorem code_atomic (c : AtomicCall) : (Sec.atomic c).code = Atomic.call c := by
  unfold Sec.atomic Atomic.call
  simp only [Prog.bind_eq, code_bind, code_body]
  rfl

theorem code_call (c : SecCall) : c.prog.code = c.run := by
  cases c with
  | push_off => exact code_push_off
  | pop_off => exact code_pop_off
  | acquire lk => exact code_call_acquire lk
  | release lk => exact code_call_release lk
  | is_holding lk =>
    simp only [SecCall.prog, SecCall.run, Prog.bind_eq, code_bind, code_plain]
    rfl
  | atomic c => exact code_atomic c

theorem code_each (cs : List SecCall) :
    SecProg.code (Prog.each SecCall.prog cs) = Prog.each SecCall.run cs := by
  induction cs with
  | nil => rfl
  | cons c cs ih =>
    simp only [Prog.each]
    rw [code_bind, code_call, ih]

theorem code_sections (l : Loop) : l.sections.code = l.round := by
  cases l with
  | test_set lk => exact code_test_set_round lk
  | _ => exact code_plain _

/-! ## Sequences of calls are balanced -/

section
variable {d : ℕ} {α : Type}

section
variable {Q : α → ℕ → Prop}

theorem wp_secop {o : Op} {f : o.Ret → SecProg α} (ho : o.Neutral d)
    (h : ∀ r, wp depthRules (f r) Q d) : wp depthRules (Sec.op o >>= f) Q d := ⟨ho, fun _ => h⟩

theorem wp_stops {o : Op} {f : o.Ret → SecProg α} (ho : o.Neutral d) (hs : o.stops = true) :
    wp depthRules (Sec.op o >>= f) Q d := ⟨ho, fun hn => by rw [hs] at hn; cases hn⟩

theorem wp_push_off {f : Unit → SecProg α} (hd : d + 1 < 2 ^ 31)
    (h : wp depthRules (f ()) Q (d + 1)) : wp depthRules (Sec.push_off >>= f) Q d := ⟨hd, h⟩

theorem wp_pop_off {f : Unit → SecProg α} (hd : 0 < d)
    (h : wp depthRules (f ()) Q (d - 1)) : wp depthRules (Sec.pop_off >>= f) Q d := ⟨hd, h⟩

theorem wp_plain {c : KProg α} (hc : c.Forall fun o _ => o.Neutral d) (hQ : ∀ a, Q a d) :
    wp depthRules (Sec.plain c) Q d := by
  induction c with
  | pure a => exact hQ a
  | op o k ih => exact ⟨hc.1, fun _ r => ih r (hc.2 r)⟩

end

theorem neutral_is_holding (lk : TaskPtr) :
    (call_is_holding lk).Forall fun o _ => o.Neutral d := by
  refine ⟨rfl, fun r => ?_⟩
  cases r with
  | is_holding_lk =>
    refine ⟨rfl, fun _ => ⟨rfl, fun v => ?_⟩⟩
    change Prog.Forall _ (if v ≠ 0 then _ else _)
    split
    · exact ⟨rfl, fun _ => ⟨rfl, fun _ => ⟨rfl, fun _ => trivial⟩⟩⟩
    · exact ⟨rfl, fun _ => trivial⟩
  | _ => exact ⟨rfl, fun _ => trivial⟩

theorem wp_is_holding {lk : TaskPtr} {Q : I32 → ℕ → Prop} (hQ : ∀ r, Q r d) :
    wp depthRules (Sec.plain (call_is_holding lk)) Q d := wp_plain (neutral_is_holding lk) hQ

theorem wp_test_set_i32 {c : Cell} {Q : I32 → ℕ → Prop} (hd : d + 1 < 2 ^ 31)
    (hQ : ∀ r, Q r d) : wp depthRules (Sec.test_set_i32 c) Q d := by
  refine wp_secop rfl fun _ => wp_push_off hd ?_
  refine wp_secop rfl fun r => wp_pop_off (Nat.succ_pos d) ?_
  exact wp_secop rfl fun _ => hQ r

theorem wp_atomic_store_i32 {c : Cell} {v : I32} {Q : I32 → ℕ → Prop} (hd : d + 1 < 2 ^ 31)
    (hQ : Q v d) : wp depthRules (Sec.atomic_store_i32 c v) Q d := by
  refine wp_secop rfl fun _ => wp_push_off hd ?_
  refine wp_secop trivial fun _ => wp_pop_off (Nat.succ_pos d) ?_
  exact wp_secop rfl fun _ => hQ

theorem wp_test_set_round {lk : TaskPtr} {Q : Unit → ℕ → Prop} (hd : d + 1 < 2 ^ 31)
    (hQ : Q () d) : wp depthRules (Sec.test_set_round lk) Q d := by
  refine wp_seq (wp_test_set_i32 hd fun r => ?_)
  split
  · exact ⟨hd, fun _ _ => hQ⟩
  · exact hQ

theorem wp_acquire_lk {lk : TaskPtr} {Q : Unit → ℕ → Prop} (hd : d + 2 < 2 ^ 31)
    (hQ : Q () (d + 1)) : wp depthRules (Sec.acquire_lk lk) Q d := by
  refine wp_secop rfl fun _ => wp_push_off (by omega) ?_
  refine wp_seq (wp_is_holding fun r => ?_)
  dsimp only
  split
  · exact wp_stops rfl rfl
  · refine wp_secop hd fun _ => wp_secop rfl fun _ => ?_
    refine wp_seq (wp_plain ⟨rfl, fun _ => trivial⟩ fun c => ?_)
    exact wp_secop rfl fun _ => ⟨rfl, fun _ _ => hQ⟩

theorem wp_release_lk {lk : TaskPtr} {Q : Unit → ℕ → Prop} (h0 : 0 < d) (hd : d + 1 < 2 ^ 31)
    (hQ : Q () (d - 1)) : wp depthRules (Sec.release_lk lk) Q d := by
  refine wp_secop rfl fun _ => wp_seq (wp_is_holding fun r => ?_)
  dsimp only
  split
  · exact wp_stops rfl rfl
  · refine wp_secop rfl fun _ => wp_secop rfl fun _ => ?_
    refine wp_seq (wp_atomic_store_i32 hd ?_)
    exact wp_pop_off h0 ⟨rfl, fun _ _ => hQ⟩

theorem wp_fetchOf {f : Amo} {ty : AtomicTy} {a : ℕ} {v : ty.Val} {Q : ty.Val → ℕ → Prop}
    (hd : d + 1 < 2 ^ 31) (hQ : ∀ r, Q r d) : wp depthRules (Sec.fetchOf f ty a v) Q d := by
  have hfetch : ∀ {sz : Width} {x : U64} {Q : U64 → ℕ → Prop}, (∀ r, Q r d) →
      wp depthRules (Sec.fetch f sz a x) Q d := fun hQ =>
    wp_push_off hd (wp_secop rfl fun r => wp_pop_off (Nat.succ_pos d) (hQ r))
  cases ty with
  | atomic_int_t => exact wp_seq (hfetch fun r => hQ _)
  | atomic_long_t | atomic_ulong_t => exact hfetch hQ

theorem neutral_cmp_xchg (ty : AtomicTy) (a : ℕ) (e v : ty.Val) :
    (Atomic.body (.cmp_xchg ty a e v)).Forall fun o _ => o.Neutral d := by
  cases ty <;> exact ⟨trivial, fun _ => trivial⟩

theorem neutral_load (ty : AtomicTy) (a : ℕ) :
    (Atomic.body (.load ty a)).Forall fun o _ => o.Neutral d := by
  cases ty <;> exact ⟨rfl, fun _ => trivial⟩

theorem wp_body {c : AtomicCall} {Q : U64 → ℕ → Prop} (hd : d + 1 < 2 ^ 31)
    (hQ : ∀ r, Q r d) : wp depthRules (Sec.body c) Q d := by
  cases c with
  | test_set ty a | fetch_add ty a v | fetch_sub ty a v | fetch_and ty a v | fetch_or ty a v
  | fetch_xor ty a v => exact wp_seq (wp_fetchOf hd fun r => hQ _)
  | store ty a v =>
    refine wp_seq (wp_push_off hd ?_)
    exact wp_secop trivial fun _ => ⟨Nat.succ_pos d, hQ _⟩
  | cmp_xchg ty a e v => exact wp_plain (neutral_cmp_xchg ty a e v) hQ
  | load ty a => exact wp_plain (neutral_load ty a) hQ

theorem wp_call {c : SecCall} {Q : Unit → ℕ → Prop} (hd : d + c.levels < 2 ^ 31)
    (hc : c.closes = true → 0 < d) (hQ : Q () (c.after d)) : wp depthRules c.prog Q d := by
  cases c with
  | push_off => exact ⟨hd, hQ⟩
  | pop_off => exact ⟨hc rfl, hQ⟩
  | acquire lk =>
    refine wp_secop rfl fun r => ?_
    cases r with
    | acquire_lk => exact wp_acquire_lk hd hQ
    | _ => exact ⟨rfl, fun hn => by cases hn⟩
  | release lk =>
    refine wp_secop rfl fun r => ?_
    cases r with
    | release_lk => exact wp_release_lk (hc rfl) hd hQ
    | _ => exact ⟨rfl, fun hn => by cases hn⟩
  | is_holding lk => exact wp_seq (wp_is_holding fun _ => hQ)
  | atomic c =>
    refine wp_secop rfl fun _ => wp_seq (wp_body hd fun _ => ?_)
    exact wp_secop rfl fun _ => ⟨rfl, fun _ _ => hQ⟩

theorem wp_calls {cs : List SecCall} (h : nestedFrom d cs) :
    wp depthRules (Prog.each SecCall.prog cs) (fun _ d => d = 0) d := by
  induction cs generalizing d with
  | nil => exact h
  | cons c cs ih => exact wp_seq (wp_call h.1 h.2.1 (ih h.2.2))

/-- A nested sequence of calls is balanced. -/
theorem balanced_calls {cs : List SecCall} (h : nestedFrom 0 cs) :
    SecProg.Balanced (Prog.each SecCall.prog cs) := wp_calls h

/-- A round of a loop leaves the depth as it is. -/
theorem wp_sections {l : Loop} {Q : l.Ret → ℕ → Prop} (hl : l.Neutral d) (hQ : ∀ r, Q r d) :
    wp depthRules l.sections Q d := by
  cases l with
  | test_set lk => exact wp_test_set_round hl (hQ ())
  | store c v =>
    refine wp_plain ⟨rfl, fun _ => ⟨rfl, fun r => ?_⟩⟩ hQ
    change Prog.Forall _ (if r ≠ 0 then _ else _)
    split
    · exact ⟨trivial, fun _ => trivial⟩
    · trivial
  | barrier =>
    refine wp_plain ⟨rfl, fun _ => ⟨rfl, fun r => ⟨rfl, fun _ => ?_⟩⟩⟩ hQ
    change Prog.Forall _ (if r = 0 then _ else _)
    split
    · exact ⟨trivial, fun _ => trivial⟩
    · trivial
  | atomic_store sz a v =>
    refine wp_plain ⟨rfl, fun _ => ⟨rfl, fun r => ?_⟩⟩ hQ
    change Prog.Forall _ (if r ≠ 0 then _ else _)
    split
    · exact ⟨trivial, fun _ => trivial⟩
    · trivial
  | cmp_xchg sz a e v =>
    refine wp_plain ⟨rfl, fun old => ?_⟩ hQ
    change Prog.Forall _ (if old ≠ e then _ else _)
    split
    · trivial
    · refine ⟨rfl, fun r => ?_⟩
      change Prog.Forall _ (if r ≠ 0 then _ else _)
      split
      · exact ⟨trivial, fun _ => trivial⟩
      · trivial
  | scheduler c | scan c t | dummy_task => exact hl.elim

end

/-! ## What push_off and pop_off do -/

/-- The operations of `push_off` and `pop_off` on hart `h`, where `G` holds before each; one that
is neither leaves the view as it is. -/
def cpuRules (h : ℕ) (G : CpuView → Prop) : Rules Op Op.Ret CpuView
  | .r_tp, Q, v => G v ∧ Q (BitVec.ofNat 64 h) v
  | .r_sstatus, Q, v => G v ∧ Q v.sstatus v
  | .w_sstatus x, Q, v => G v ∧ Q () { v with sstatus := x }
  | .load (.off_nrs c), Q, v => G v ∧ ∀ r, (c = h → r = v.off_nrs) → Q r v
  | .load (.intr_ena_before c), Q, v => G v ∧ ∀ r, (c = h → r = v.intr_ena_before) → Q r v
  | .store (.off_nrs c) x, Q, v => G v ∧ c = h ∧ Q () { v with off_nrs := x }
  | .store (.intr_ena_before c) x, Q, v => G v ∧ c = h ∧ Q () { v with intr_ena_before := x }
  | .loop _, _, _ => False
  | o, Q, v => G v ∧ (∃ d, o.Neutral d) ∧ (o.stops = false → ∀ r, Q r v)

/-- At depth `d`, outside `push_off` and `pop_off`; `x` is what was in `sstatus` at depth 0. -/
structure AtDepth (x : U64) (d : ℕ) (v : CpuView) : Prop where
  sstatus : v.sstatus = if d = 0 then x else x &&& ~~~SSTATUS_SIE
  off_nrs : v.off_nrs = BitVec.ofNat 32 d
  intr_ena_before : d ≠ 0 → v.intr_ena_before = if sie x = true then 1 else 0

theorem and_not_SIE_idem (x : U64) :
    x &&& ~~~SSTATUS_SIE &&& ~~~SSTATUS_SIE = x &&& ~~~SSTATUS_SIE := by
  rw [BitVec.and_assoc, BitVec.and_self]

section
variable {h : ℕ} {G : CpuView → Prop} {α : Type} {Q : α → CpuView → Prop} {v : CpuView}

theorem wp_get_cur_cpu {f : ℕ → KProg α} (hh : h < 2 ^ 31) (hG : G v)
    (hf : wp (cpuRules h G) (f h) Q v) : wp (cpuRules h G) (get_cur_cpu >>= f) Q v := by
  refine ⟨hG, ?_⟩
  change wp _ (f ((BitVec.ofNat 64 h).setWidth 32).toInt.toNat) Q v
  rw [cpuid_of_lt hh]
  exact hf

theorem wp_intr_get {f : I32 → KProg α} (hG : G v)
    (hf : wp (cpuRules h G) (f (if sie v.sstatus = true then 1 else 0)) Q v) :
    wp (cpuRules h G) (intr_get >>= f) Q v := by
  refine ⟨hG, ?_⟩
  change wp _ (f (if v.sstatus &&& SSTATUS_SIE ≠ 0 then 1 else 0)) Q v
  simp only [and_SIE_ne_zero]
  exact hf

theorem wp_intr_off {f : Unit → KProg α} (hG : G v)
    (hf : wp (cpuRules h G) (f ()) Q { v with sstatus := v.sstatus &&& ~~~SSTATUS_SIE }) :
    wp (cpuRules h G) (intr_off >>= f) Q v := ⟨hG, hG, hf⟩

theorem wp_load_off_nrs {f : I32 → KProg α} (hG : G v)
    (hf : wp (cpuRules h G) (f v.off_nrs) Q v) :
    wp (cpuRules h G) (load (.off_nrs h) >>= f) Q v := by
  refine ⟨hG, fun r hr => ?_⟩
  rw [hr rfl]
  exact hf

theorem wp_load_intr_ena_before {f : I32 → KProg α} (hG : G v)
    (hf : wp (cpuRules h G) (f v.intr_ena_before) Q v) :
    wp (cpuRules h G) (load (.intr_ena_before h) >>= f) Q v := by
  refine ⟨hG, fun r hr => ?_⟩
  rw [hr rfl]
  exact hf

theorem wp_store_off_nrs {f : Unit → KProg α} {y : I32} (hG : G v)
    (hf : wp (cpuRules h G) (f ()) Q { v with off_nrs := y }) :
    wp (cpuRules h G) (Kernel.store (.off_nrs h) y >>= f) Q v := ⟨hG, rfl, hf⟩

theorem wp_store_intr_ena_before {f : Unit → KProg α} {y : I32} (hG : G v)
    (hf : wp (cpuRules h G) (f ()) Q { v with intr_ena_before := y }) :
    wp (cpuRules h G) (Kernel.store (.intr_ena_before h) y >>= f) Q v := ⟨hG, rfl, hf⟩

end

/-- An operation that may stand between `push_off` and `pop_off` leaves the view as it is. -/
theorem cpuRules_neutral {h d : ℕ} {G : CpuView → Prop} {o : Op} {Q : o.Ret → CpuView → Prop}
    {v : CpuView} (ho : o.Neutral d) (hl : ∀ l, o ≠ .loop l) (hG : G v) (hQ : ∀ r, Q r v) :
    cpuRules h G o Q v := by
  cases o with
  | load l =>
    cases l with
    | off_nrs c | intr_ena_before c => exact ⟨hG, fun r _ => hQ r⟩
    | _ => exact ⟨hG, ⟨d, ho⟩, fun _ => hQ⟩
  | store l y =>
    cases l with
    | off_nrs c | intr_ena_before c => exact ho.elim
    | _ => exact ⟨hG, ⟨d, ho⟩, fun _ => hQ⟩
  | r_tp | r_sstatus => exact ⟨hG, hQ _⟩
  | w_sstatus y => exact ho.elim
  | loop l => exact absurd rfl (hl l)
  | _ => exact ⟨hG, ⟨d, ho⟩, fun _ => hQ⟩

/-- The hart is in a `push_off` from depth `d`. -/
structure Pushing (x : U64) (d : ℕ) (v : CpuView) : Prop where
  off_nrs : v.off_nrs = BitVec.ofNat 32 d
  sstatus : v.sstatus = (if d = 0 then x else x &&& ~~~SSTATUS_SIE) ∨
    v.sstatus = x &&& ~~~SSTATUS_SIE

theorem ofNat_eq_zero_iff {d : ℕ} (hd : d < 2 ^ 32) : BitVec.ofNat 32 d = 0 ↔ d = 0 := by
  rw [← BitVec.toNat_inj, BitVec.toNat_ofNat, Nat.mod_eq_of_lt hd]
  rfl

theorem wp_cpu_push_off {h d : ℕ} {x : U64} {G : CpuView → Prop} {v : CpuView} (hh : h < 2 ^ 31)
    (hd : d + 1 < 2 ^ 31) (hPG : ∀ v, Pushing x d v → G v) (hv : AtDepth x d v) :
    wp (cpuRules h G) push_off (fun _ v => AtDepth x (d + 1) v) v := by
  have hoff : v.sstatus &&& ~~~SSTATUS_SIE = x &&& ~~~SSTATUS_SIE := by
    rw [hv.sstatus]
    split
    · rfl
    · exact and_not_SIE_idem x
  have hG : G v := hPG _ ⟨hv.off_nrs, Or.inl hv.sstatus⟩
  have hsum : v.off_nrs + 1 = BitVec.ofNat 32 (d + 1) := by
    rw [hv.off_nrs]
    exact (BitVec.ofNat_add d 1).symm
  refine wp_intr_get hG (wp_intr_off hG ?_)
  have hG' : G { v with sstatus := v.sstatus &&& ~~~SSTATUS_SIE } :=
    hPG _ ⟨hv.off_nrs, Or.inr hoff⟩
  refine wp_get_cur_cpu hh hG' (wp_load_off_nrs hG' ?_)
  dsimp only
  split
  · next h0 =>
    rw [hv.off_nrs, ofNat_eq_zero_iff (by omega)] at h0
    subst h0
    refine wp_get_cur_cpu hh hG' (wp_store_intr_ena_before hG' ?_)
    have hG'' : G ⟨v.sstatus &&& ~~~SSTATUS_SIE, v.off_nrs,
      if sie v.sstatus = true then 1 else 0⟩ := hPG _ ⟨hv.off_nrs, Or.inr hoff⟩
    refine wp_get_cur_cpu hh hG'' (wp_load_off_nrs hG'' ⟨hG'', rfl, hoff, hsum, fun _ => ?_⟩)
    rw [hv.sstatus]
    rfl
  · next h0 =>
    rw [hv.off_nrs, ofNat_eq_zero_iff (by omega)] at h0
    refine wp_get_cur_cpu hh hG' (wp_load_off_nrs hG' ⟨hG', rfl, hoff, hsum, fun _ => ?_⟩)
    exact hv.intr_ena_before h0

/-- The hart is in a `pop_off` from depth `d`. -/
structure Popping (x : U64) (d : ℕ) (v : CpuView) : Prop where
  off_nrs : v.off_nrs = BitVec.ofNat 32 d ∨ v.off_nrs = BitVec.ofNat 32 (d - 1)
  sstatus : v.sstatus = x &&& ~~~SSTATUS_SIE

theorem and_not_SIE_or {x : U64} (hx : sie x = true) :
    x &&& ~~~SSTATUS_SIE ||| SSTATUS_SIE = x := by
  refine BitVec.eq_of_getLsbD_eq fun i hi => ?_
  rw [SSTATUS_SIE_eq, BitVec.getLsbD_or, BitVec.getLsbD_and, BitVec.getLsbD_not,
    BitVec.getLsbD_twoPow]
  by_cases h1 : i = 1
  · subst h1
    rw [show x.getLsbD 1 = true from hx]
    rfl
  · simp [hi, Ne.symm h1]

theorem and_not_SIE_of_not {x : U64} (hx : sie x = false) : x &&& ~~~SSTATUS_SIE = x := by
  refine BitVec.eq_of_getLsbD_eq fun i hi => ?_
  rw [SSTATUS_SIE_eq, BitVec.getLsbD_and, BitVec.getLsbD_not, BitVec.getLsbD_twoPow]
  by_cases h1 : i = 1
  · subst h1
    rw [show x.getLsbD 1 = false from hx]
    rfl
  · simp [hi, Ne.symm h1]

theorem wp_cpu_pop_off {h d : ℕ} {x : U64} {G : CpuView → Prop} {v : CpuView} (hh : h < 2 ^ 31)
    (h0 : 0 < d) (hd : d < 2 ^ 31) (hPG : ∀ v, Popping x d v → G v) (hv : AtDepth x d v) :
    wp (cpuRules h G) pop_off (fun _ v => AtDepth x (d - 1) v) v := by
  have hs : v.sstatus = x &&& ~~~SSTATUS_SIE := by
    rw [hv.sstatus, if_neg (by omega)]
  have hG : G v := hPG _ ⟨Or.inl hv.off_nrs, hs⟩
  have hsub : v.off_nrs - 1 = BitVec.ofNat 32 (d - 1) := by
    rw [hv.off_nrs]
    bv_omega
  have hslt : v.off_nrs.slt 1 = false := by
    have hnat : v.off_nrs.toNat = d := by
      rw [hv.off_nrs, BitVec.toNat_ofNat, Nat.mod_eq_of_lt (by omega)]
    have hint : v.off_nrs.toInt = d := by
      rw [BitVec.toInt_eq_toNat_of_lt (by omega), hnat]
    rw [BitVec.slt_eq_decide, decide_eq_false_iff_not, hint]
    show ¬ (d : ℤ) < 1
    omega
  refine wp_get_cur_cpu hh hG (wp_intr_get hG ?_)
  rw [hs, sie_and_not_SIE]
  refine wp_load_off_nrs hG ?_
  dsimp only
  rw [hslt]
  refine wp_load_off_nrs hG (wp_store_off_nrs hG ?_)
  rw [hsub]
  have hG' : G { v with off_nrs := BitVec.ofNat 32 (d - 1) } := hPG _ ⟨Or.inr rfl, hs⟩
  refine wp_load_off_nrs hG' ?_
  dsimp only
  split
  · next hz =>
    rw [ofNat_eq_zero_iff (by omega)] at hz
    refine wp_load_intr_ena_before hG' ?_
    dsimp only
    have hena := hv.intr_ena_before (by omega)
    split
    · next hne =>
      have hx : sie x = true := by
        by_contra hx
        exact hne (hena.trans (if_neg hx))
      refine ⟨hG', hG', ?_, rfl, fun hn => absurd hz hn⟩
      rw [if_pos hz]
      show v.sstatus ||| SSTATUS_SIE = x
      rw [hs, and_not_SIE_or hx]
    · next heq =>
      have hx : sie x = false := by
        by_contra hx
        rw [if_pos (by simpa using hx)] at hena
        exact heq (ne_of_eq_of_ne hena (show (1 : I32) ≠ 0 by decide))
      refine ⟨?_, rfl, fun hn => absurd hz hn⟩
      rw [if_pos hz]
      exact hs.trans (and_not_SIE_of_not hx)
  · next hz =>
    rw [ofNat_eq_zero_iff (by omega)] at hz
    refine ⟨?_, rfl, fun _ => hv.intr_ena_before (by omega)⟩
    rw [if_neg hz]
    exact hs

/-! ## A step of the machine -/

section
variable {L : Layout} {σ σ' : State} {h : ℕ} {fail : Bool} {o : Op}

/-- Only two operations change `sstatus`. -/
theorem exec_sstatus {k : o.Ret → Code} (hw : ∀ y, o ≠ .w_sstatus y) (hsret : ∀ s, o ≠ .sret s)
    (hs : σ.exec L h fail o k = some σ') :
    (σ'.harts h).sstatus = (σ.harts h).sstatus := by
  by_cases hsimple : Op.simple o = true
  · obtain ⟨r, hp⟩ := exec_simple hsimple (fun s hn => absurd hn (hsret s)) hs
    rw [hp.harts, Function.update_self]
    cases o with
    | w_sstatus y => exact absurd rfl (hw y)
    | sret s => exact absurd rfl (hsret s)
    | _ => rfl
  · cases o with
    | loop l | call_switch_to s old new =>
      cases hs
      change (Function.update σ.harts h _ h).sstatus = _
      rw [Function.update_self]
    | ret old new =>
      cases hs
      change (Function.update σ.harts h _ h).sstatus = _
      rw [Function.update_self]
      unfold Hart.afterRet
      repeat' split
      all_goals rfl
    | panic s | crash => cases hs
    | _ => exact absurd rfl hsimple

/-- The view after an operation that is answered, and the answers it may have. -/
theorem cpu_answered {k : o.Ret → Code} {R : o.Ret → CpuView → Prop}
    (hsimple : Op.simple o = true) (hsret : ∀ s, o ≠ .sret s)
    (htp : (Hart.perform σ.mem (σ.harts h) o).regs .tp = BitVec.ofNat 64 h)
    (hR : ∀ r, Answer σ h fail o r → R r ⟨(Hart.perform σ.mem (σ.harts h) o).sstatus,
      written σ.mem (Op.writes (σ.harts h).regs o r) (.off_nrs h),
      written σ.mem (Op.writes (σ.harts h).regs o r) (.intr_ena_before h)⟩)
    (hs : σ.exec L h fail o k = some σ') :
    ∃ r, (σ'.harts h).code = k r ∧ (σ'.harts h).regs .tp = BitVec.ofNat 64 h ∧
      R r (σ'.cpu h) := by
  obtain ⟨r, hp⟩ := exec_simple hsimple (fun s hn => absurd hn (hsret s)) hs
  have hx : σ'.harts h = { Hart.perform σ.mem (σ.harts h) o with code := k r } := by
    rw [hp.harts, Function.update_self]
  refine ⟨r, by rw [hx], by rw [hx]; exact htp, ?_⟩
  unfold State.cpu
  rw [hx, hp.mem]
  exact hR r hp.answer

/-- An operation goes on with an answer, and does to the view what the rules say. -/
theorem exec_cpu {G : CpuView → Prop} {k : o.Ret → Code} {R : o.Ret → CpuView → Prop}
    (htp : (σ.harts h).regs .tp = BitVec.ofNat 64 h) (hR : cpuRules h G o R (σ.cpu h))
    (hs : σ.exec L h fail o k = some σ') :
    ∃ r, (σ'.harts h).code = k r ∧ (σ'.harts h).regs .tp = BitVec.ofNat 64 h ∧
      R r (σ'.cpu h) := by
  cases o with
  | r_tp =>
    refine cpu_answered rfl (by simp) htp (fun r ha => ?_) hs
    rw [show r = _ from ha, htp]
    exact hR.2
  | r_sstatus =>
    refine cpu_answered rfl (by simp) htp (fun r ha => ?_) hs
    rw [show r = _ from ha]
    exact hR.2
  | w_sstatus x => exact cpu_answered rfl (by simp) htp (fun _ _ => hR.2) hs
  | load l =>
    refine cpu_answered rfl (by simp) htp (fun r ha => ?_) hs
    rw [show r = _ from ha]
    cases l with
    | off_nrs c => exact hR.2 _ fun hc => by rw [hc]; rfl
    | intr_ena_before c => exact hR.2 _ fun hc => by rw [hc]; rfl
    | _ => exact hR.2.2 rfl _
  | store l y =>
    refine cpu_answered rfl (by simp) htp (fun r _ => ?_) hs
    cases l with
    | off_nrs c =>
      obtain ⟨-, rfl, hq⟩ := hR
      change R r ⟨_, σ.mem.set (.off_nrs c) y (.off_nrs c),
        σ.mem.set (.off_nrs c) y (.intr_ena_before c)⟩
      rw [Mem.set_self, Mem.set_ne _ _ (by simp)]
      exact hq
    | intr_ena_before c =>
      obtain ⟨-, rfl, hq⟩ := hR
      change R r ⟨_, σ.mem.set (.intr_ena_before c) y (.off_nrs c),
        σ.mem.set (.intr_ena_before c) y (.intr_ena_before c)⟩
      rw [Mem.set_self, Mem.set_ne _ _ (by simp)]
      exact hq
    | _ => exact hR.2.2 rfl _
  | sc c y =>
    refine cpu_answered rfl (by simp) htp (fun r _ => ?_) hs
    simp only [Op.writes]
    split <;> exact hR.2.2 rfl _
  | loop l => exact hR.elim
  | panic p => cases hs
  | crash => cases hs
  | call_switch_to s old new | ret_c saved => exact hR.2.1.elim fun _ hn => hn.elim
  | addi_sp i | sd r off | ld r off | call_c | sret s | sd_ctx p r i | ld_ctx p r i
  | ret old new => exact hR.2.1.elim fun _ hn => by cases hn
  | _ => exact cpu_answered rfl (by simp) htp (fun _ _ => hR.2.2 rfl _) hs

end

end GQuuuuuunix.Proof
