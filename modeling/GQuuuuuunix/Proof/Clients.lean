import GQuuuuuunix.Kernel.Clients
import GQuuuuuunix.Proof.Adequacy
import GQuuuuuunix.Proof.AtomicCalls

/-! # The calls that tasks make

A task that makes a call on an atomic object comes back to the top of its loop with nothing more in
hand than it had, so the invariant of the machine holds with such tasks as well. -/

namespace GQuuuuuunix.Proof
open Lib Kernel
set_option autoImplicit false

variable {cfg : Config} {α : Type} {k : Ghost} {m : Own}

/-! ## Calls of a task with nothing in hand -/

/-- The hart is in task `t`, inside `fs`; `b` is whether interrupts are on. -/
def InTask (t : Slot) (fs : List Fn) (b : Bool) (k : Ghost) : Prop :=
  ∃ h e, k = .running h b e t fs

section
variable {t : Slot} {fs : List Fn} {b : Bool}

theorem InTask.moved (hk : InTask t fs b k) {k' : Ghost} {m' : Own} (hm : Moved k m k' m') :
    InTask t fs b k' := by
  obtain ⟨h, e, rfl⟩ := hk
  obtain ⟨c, e', rfl, -⟩ := hm.cases
  exact ⟨c, e', rfl⟩

theorem does_push_off_task {Q : Unit → Ghost → Own → Prop} (hk : InTask t fs b k)
    (hin : inside fs = true)
    (h : ∀ c m', Q () ((Ghost.running c false (if b = true then 1 else 0) t fs).setOff 1) m') :
    Does cfg push_off k m Q := by
  obtain ⟨c, e, rfl⟩ := hk
  refine does_push_off_first hin rfl fun k' m' hm => ?_
  obtain ⟨c', e', rfl, -⟩ := hm.cases
  exact h c' m'

theorem does_pop_off_task {c : ℕ} {Q : Unit → Ghost → Own → Prop} (hin : inside fs = true)
    (h : ∀ k' m', InTask t fs b k' → Q () k' m') :
    Does cfg pop_off ((Ghost.running c false (if b = true then 1 else 0) t fs).setOff 1) m Q := by
  cases b with
  | false => exact does_pop_off_last rfl hin rfl rfl (h _ _ ⟨c, 0, rfl⟩)
  | true =>
    refine does_pop_off_on rfl hin rfl (by simp [Ghost.setOff, Ghost.running]) ?_ fun m' => ?_
    · exact ⟨rfl, rfl, rfl, rfl, rfl, rfl, Or.inr ⟨t, rfl, rfl⟩⟩
    · exact h _ _ ⟨c, 1, rfl⟩

variable (hin : inside fs = true)
include hin

theorem does_fetch {f : Amo} {sz : Width} {a : ℕ} {x : U64} {Q : U64 → Ghost → Own → Prop}
    (hk : InTask t fs b k) (h : ∀ r k' m', InTask t fs b k' → Q r k' m') :
    Does cfg (Atomic.fetch f sz a x) k m Q := by
  refine Does.bind (does_push_off_task hk hin fun c m1 => ?_)
  refine Does.bind (does_atomic fun r k2 m2 hm => ?_)
  obtain ⟨rfl, rfl⟩ := hm.of_sie rfl
  exact Does.bind (does_pop_off_task hin fun k3 m3 h3 => Does.pure (h r k3 m3 h3))

theorem does_fetchVal {f : Amo} {ty : AtomicTy} {a : ℕ} {v : ty.Val} {p : KProg ty.Val}
    (hp : p = fetchVal f ty a v) {Q : U64 → Ghost → Own → Prop} (hk : InTask t fs b k)
    (h : ∀ r k' m', InTask t fs b k' → Q r k' m') :
    Does cfg (do pure (ty.toReg (← p))) k m Q := by
  subst hp
  refine Does.bind (Does.bind (does_fetch hin hk fun r k' m' hk' => Does.pure (Does.pure ?_)))
  exact h _ k' m' hk'

theorem does_body (c : AtomicCall) {Q : U64 → Ghost → Own → Prop} (hk : InTask t fs b k)
    (h : ∀ r k' m', InTask t fs b k' → Q r k' m') : Does cfg (Atomic.body c) k m Q := by
  cases c with
  | test_set ty a => exact does_fetchVal hin (test_set_eq ty a) hk h
  | cmp_xchg ty a e d =>
    show Does cfg (do pure (ty.toReg (← Atomic.CMP_XCHG ty a e d))) k m Q
    rw [cmp_xchg_eq]
    refine Does.bind (Does.bind (does_loop_any (fun _ _ _ => trivial) ?_))
    intro r k1 m1 k2 m2 h1 h2
    exact Does.pure (Does.pure (h _ _ _ (hk.moved (h1.trans h2))))
  | load ty a =>
    cases ty with
    | atomic_long_t =>
      exact Does.bind (does_atomic fun r k1 m1 h1 => Does.pure (h _ _ _ (hk.moved h1)))
    | _ =>
      refine Does.bind (Does.bind (does_atomic fun r k1 m1 h1 => Does.pure (Does.pure ?_)))
      exact h _ _ _ (hk.moved h1)
  | store ty a v =>
    show Does cfg (do
      pure (ty.toReg (← (Atomic.ATOMIC_STORE ty a v).getD (Atomic.storeCode ty a v)))) k m Q
    rw [Atomic.store_eq]
    refine Does.bind (Does.bind (Does.bind (does_push_off_task hk hin fun c m1 => ?_)))
    refine Does.bind (does_loop_any (fun _ _ _ => trivial) ?_)
    intro r k1 m1 k2 m2 h1 h2
    obtain ⟨rfl, rfl⟩ := (h1.trans h2).of_sie rfl
    exact does_pop_off_task hin fun k3 m3 h3 => Does.pure (Does.pure (h _ _ _ h3))
  | fetch_add ty a v =>
    exact does_fetchVal hin (fetchVal_eq (M := fun ty => Atomic.ATOMIC_FETCH_ADD ty a)
      rfl rfl rfl ty v) hk h
  | fetch_sub ty a v =>
    exact does_fetchVal hin (fetchVal_eq (M := fun ty => Atomic.ATOMIC_FETCH_SUB ty a)
      rfl rfl rfl ty v) hk h
  | fetch_and ty a v =>
    exact does_fetchVal hin (fetchVal_eq (M := fun ty => Atomic.ATOMIC_FETCH_AND ty a)
      rfl rfl rfl ty v) hk h
  | fetch_or ty a v =>
    exact does_fetchVal hin (fetchVal_eq (M := fun ty => Atomic.ATOMIC_FETCH_OR ty a)
      rfl rfl rfl ty v) hk h
  | fetch_xor ty a v =>
    exact does_fetchVal hin (fetchVal_eq (M := fun ty => Atomic.ATOMIC_FETCH_XOR ty a)
      rfl rfl rfl ty v) hk h

end

/-- A call on an atomic object, from the top of the loop of a task. -/
theorem does_call (c : AtomicCall) {t : Slot} {b : Bool} {Q : Unit → Ghost → Own → Prop}
    (hk : InTask t [] b k) (h : ∀ k' m', InTask t [] b k' → Q () k' m') :
    Does cfg (Atomic.call c) k m Q := by
  refine Does.bind (does_enter_any (by simp) (by simp) (by simp) fun k1 m1 h1 => ?_)
  have hk1 : InTask t [.atomic c] b (k1.setCalls (.atomic c :: k1.calls)) := by
    obtain ⟨h, e, rfl⟩ := hk.moved h1
    exact ⟨h, e, rfl⟩
  refine Does.bind (does_body rfl c hk1 fun a0 k2 m2 h2 => ?_)
  refine Does.bind (Does.plain_any rfl rfl fun v hv _ => ⟨trivial, fun _ _ => ?_⟩)
  refine Does.plain_any rfl rfl fun w hw _ => ?_
  obtain ⟨c', e', hk'⟩ := (h2.moved hv).moved hw
  rw [hk']
  refine ⟨⟨?_, fun _ => ?_⟩, fun _ _ => h _ _ ⟨c', e', rfl⟩⟩ <;> rw [hk']
  · exact ⟨rfl, by simp⟩
  · exact ⟨rfl, fun hn => by cases hn⟩

/-! ## The invariant -/

variable {σ σ' : State} {vs : ℕ → View} {κ : Type} {prog : κ → KProg Unit}

/-- A task makes a call. -/
theorem Inv.before_step {h : ℕ} {p : KProg Unit} (hI : Inv cfg σ vs) (hh : h < cfg.harts)
    (hp : ∀ {k m t b}, InTask t [] b k → Does cfg p k m fun _ k' _ => ∃ b', InTask t [] b' k')
    (hs : σ.before h p = some σ') : Inv cfg σ' vs ∧ ∃ f,
      (σ.harts h).code = .op (.loop .dummy_task) f ∧
      σ' = σ.goto h (p.bind fun _ => .op (.loop .dummy_task) f) := by
  unfold State.before at hs
  split at hs
  swap
  · cases hs
  next f hcode =>
  cases hs
  refine ⟨hI.goto_step hh ?_, f, hcode, rfl⟩
  have hsafe := hI.safe h hh
  rw [hcode] at hsafe
  obtain ⟨⟨c, b, e, t, hk⟩, -⟩ := safe_pre hsafe (hI.ok h hh)
  unfold Safe
  rw [wp_bind]
  refine wp_mono (rules_mono cfg) (fun _ w hw v' hi hok => ?_) (hp (b := b) ⟨c, e, hk⟩ _ rfl rfl)
  obtain ⟨b', c', e', hw⟩ := hw
  obtain ⟨c'', e'', hv', -⟩ := Moved.cases (show Moved w.k w.m v'.k v'.m from hi)
  exact ⟨⟨c'', b', e'', t, by rw [hv', hw]; rfl⟩, fun _ _ hpost => hpost.elim⟩

end GQuuuuuunix.Proof
