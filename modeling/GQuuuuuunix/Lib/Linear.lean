import Mathlib.Algebra.BigOperators.Group.Finset.Piecewise
import Mathlib.Data.Fintype.Basic
import GQuuuuuunix.Lib.Run

/-! # Objects whose calls take effect at one instant

Threads call the operations of a shared object. A call acts on the object once, at some instant
between its beginning and its return, and returns what it found then; nothing else is possible.
What other parts of the system do to the object, they do from outside, each time at once. -/

namespace GQuuuuuunix.Lib
set_option autoImplicit false

variable {T C A X W : Type}

structure Shared (T C A W : Type) where
  world : W
  /-- The call each thread is in, with its answer once the call has acted. -/
  pending : T → Option (C × Option A)

inductive SharedEvent (T C A X : Type) where
  | begins (t : T) (c : C)
  | acts (t : T)
  | returns (t : T) (a : A)
  | outside (x : X)
  deriving DecidableEq

/-- What a user of the object sees of an event: everything but the instants at which calls act. -/
def SharedEvent.shown : SharedEvent T C A X → Option (SharedEvent T C A X)
  | .acts _ => none
  | e => some e

section
variable [DecidableEq T] [DecidableEq A]

def Shared.step (apply : C → W → A × W) (write : X → W → W) (s : Shared T C A W) :
    SharedEvent T C A X → Option (Shared T C A W)
  | .begins t c =>
    match s.pending t with
    | none => some { s with pending := Function.update s.pending t (some (c, none)) }
    | some _ => none
  | .acts t =>
    match s.pending t with
    | some (c, none) =>
      some { world := (apply c s.world).2
             pending := Function.update s.pending t (some (c, some (apply c s.world).1)) }
    | _ => none
  | .returns t a =>
    match s.pending t with
    | some (_, some a') =>
      if a = a' then some { s with pending := Function.update s.pending t none } else none
    | _ => none
  | .outside x => some { s with world := write x s.world }

/-- The object that is `w` when no thread has called it yet. -/
def sharedObject (apply : C → W → A × W) (write : X → W → W) (w : W) :
    System (Shared T C A W) (SharedEvent T C A X) where
  init s := s = ⟨w, fun _ => none⟩
  step := Shared.step apply write

variable {apply : C → W → A × W} {write : X → W → W} {w : W} {s : Shared T C A W} {t : T} {c : C}
  {a : A}

theorem sharedObject_begins (hp : s.pending t = none) :
    (sharedObject apply write w).step s (.begins t c) =
      some { s with pending := Function.update s.pending t (some (c, none)) } := by
  simp only [sharedObject, Shared.step, hp]

theorem sharedObject_acts (hp : s.pending t = some (c, none)) :
    (sharedObject apply write w).step s (.acts t) =
      some { world := (apply c s.world).2
             pending := Function.update s.pending t (some (c, some (apply c s.world).1)) } := by
  simp only [sharedObject, Shared.step, hp]

theorem sharedObject_returns (hp : s.pending t = some (c, some a)) :
    (sharedObject apply write w).step s (.returns t a) =
      some { s with pending := Function.update s.pending t none } := by
  simp only [sharedObject, Shared.step, hp, if_true]

end

/-! ## Threads in a call -/

section
variable [DecidableEq T]

/-- Thread `t` begins a call, or returns from one. -/
def SharedEvent.turn (t : T) : SharedEvent T C A X → Option Bool
  | .begins t' _ => if t' = t then some true else none
  | .returns t' _ => if t' = t then some false else none
  | _ => none

/-- Thread `t` has begun a call and has not returned, by what was seen, the newest first. -/
def inCall (t : T) (l : List (SharedEvent T C A X)) : Bool :=
  (l.findSome? (SharedEvent.turn t)).getD false

theorem inCall_shown (t : T) {S : Type} (s : S) (e : SharedEvent T C A X)
    (tr : History S (SharedEvent T C A X)) :
    inCall t (((s, e) :: tr).filterMap fun x => x.2.shown) =
      (e.turn t).getD (inCall t (tr.filterMap fun x => x.2.shown)) := by
  unfold inCall
  rw [List.filterMap_cons]
  cases e with
  | acts t' => rfl
  | outside x => rfl
  | begins t' c =>
    show (List.findSome? _ (SharedEvent.begins t' c :: _)).getD false = _
    rw [List.findSome?_cons]
    cases (SharedEvent.begins t' c : SharedEvent T C A X).turn t <;> rfl
  | returns t' a =>
    show (List.findSome? _ (SharedEvent.returns t' a :: _)).getD false = _
    rw [List.findSome?_cons]
    cases (SharedEvent.returns t' a : SharedEvent T C A X).turn t <;> rfl

variable [DecidableEq A] {apply : C → W → A × W} {write : X → W → W} {w : W}

theorem Run.inCall {tr : History (Shared T C A W) (SharedEvent T C A X)} {s : Shared T C A W}
    (hr : Run (sharedObject apply write w) tr s) (t : T) :
    (s.pending t).isSome = inCall t (tr.filterMap fun x => x.2.shown) := by
  induction hr with
  | init hs =>
    cases hs
    rfl
  | @step tr s s' e hr hs ih =>
    have hput : ∀ {v t'}, (Function.update s.pending t' v t).isSome =
        if t' = t then v.isSome else Lib.inCall t (tr.filterMap fun x => x.2.shown) := by
      intro v t'
      by_cases ht : t' = t
      · rw [ht, Function.update_self, if_pos rfl]
      · rw [Function.update_of_ne (Ne.symm ht), if_neg ht, ih]
    cases e with
    | begins t' c =>
      simp only [sharedObject, Shared.step] at hs
      split at hs <;> cases hs
      rw [inCall_shown]
      refine hput.trans ?_
      show _ = (if t' = t then some true else none).getD _
      split <;> rfl
    | acts t' =>
      simp only [sharedObject, Shared.step] at hs
      split at hs <;> cases hs
      next c ht =>
      rw [inCall_shown]
      refine hput.trans ?_
      split
      · next heq =>
        show true = Lib.inCall t _
        rw [← ih, ← heq, ht]
        rfl
      · rfl
    | returns t' a =>
      simp only [sharedObject, Shared.step] at hs
      split at hs
      swap
      · cases hs
      split at hs <;> cases hs
      rw [inCall_shown]
      refine hput.trans ?_
      show _ = (if t' = t then some false else none).getD _
      split <;> rfl
    | outside x =>
      cases hs
      rw [inCall_shown]
      exact ih

end

/-! ## Calls that add to a measure -/

def SharedEvent.call : SharedEvent T C A X → Option C
  | .begins _ c => some c
  | _ => none

theorem SharedEvent.shown_call (e : SharedEvent T C A X) :
    e.shown.bind SharedEvent.call = e.call := by
  cases e <;> rfl

section
variable {G : Type} [AddCommGroup G] {φ : W → G} {δ : C → G}

/-- What a call in progress has yet to add. -/
def toAdd (δ : C → G) : Option (C × Option A) → G
  | some (c, none) => δ c
  | _ => 0

theorem toAdd_update [Fintype T] [DecidableEq T] (δ : C → G) (p : T → Option (C × Option A)) (t : T)
    (v : Option (C × Option A)) : ∑ i, toAdd δ (Function.update p t v i) =
      ∑ i, toAdd δ (p i) - toAdd δ (p t) + toAdd δ v := by
  have hf : (fun i => toAdd δ (Function.update p t v i)) =
      Function.update (fun i => toAdd δ (p i)) t (toAdd δ v) :=
    funext fun i => Function.apply_update (fun _ => toAdd δ) p t v i
  rw [hf, Finset.sum_update_of_mem (Finset.mem_univ t),
    Finset.sum_sdiff_eq_sub (Finset.subset_univ _), Finset.sum_singleton, add_comm]

variable {apply : C → W → A × W} {write : X → W → W} {w : W}

/-- The call `c` adds `δ c` to the measure, whenever it acts. -/
def Adds (apply : C → W → A × W) (φ : W → G) (δ : C → G) (c : C) : Prop :=
  ∀ w, φ (apply c w).2 = φ w + δ c

/-- The calls and the stores of a history do to the measure what `δ` says. -/
structure Counts (apply : C → W → A × W) (write : X → W → W) (φ : W → G) (δ : C → G)
    (e : SharedEvent T C A X) : Prop where
  call : ∀ c, e.call = some c → Adds apply φ δ c
  outside : ∀ x, e = .outside x → ∀ w, φ (write x w) = φ w

/-- The measure, with what the calls in progress have yet to add. -/
structure Counted [Fintype T] (apply : C → W → A × W) (φ : W → G) (δ : C → G) (g : G)
    (s : Shared T C A W) : Prop where
  pending : ∀ t c d, s.pending t = some (c, d) → Adds apply φ δ c
  sum : φ s.world + ∑ t, toAdd δ (s.pending t) = g

theorem pending_update [DecidableEq T] {P : C → Prop} {p : T → Option (C × Option A)} {t : T}
    {v : Option (C × Option A)} (hp : ∀ t c d, p t = some (c, d) → P c)
    (hv : ∀ c d, v = some (c, d) → P c) (t' : T) (c : C) (d : Option A)
    (h : Function.update p t v t' = some (c, d)) : P c := by
  by_cases ht : t' = t
  · subst ht
    rw [Function.update_self] at h
    exact hv c d h
  · rw [Function.update_of_ne ht] at h
    exact hp t' c d h

variable [DecidableEq T] [DecidableEq A]

theorem Counted.step [Fintype T] {g : G} {s s' : Shared T C A W} {e : SharedEvent T C A X}
    (hc : Counted apply φ δ g s) (he : Counts apply write φ δ e)
    (hs : s.step apply write e = some s') :
    Counted apply φ δ (g + (e.call.map δ).getD 0) s' := by
  obtain ⟨hp, hsum⟩ := hc
  cases e with
  | begins t c =>
    simp only [Shared.step] at hs
    split at hs
    swap
    · cases hs
    next ht =>
    cases hs
    refine ⟨pending_update hp (fun _ _ h => by cases h; exact he.call _ rfl), ?_⟩
    show φ s.world + ∑ i, toAdd δ (Function.update s.pending t _ i) = g + δ c
    rw [toAdd_update, ht, ← hsum]
    show _ + (_ - 0 + δ c) = _
    rw [sub_zero, add_assoc]
  | acts t =>
    simp only [Shared.step] at hs
    split at hs
    swap
    · cases hs
    next c ht =>
    cases hs
    have hadd := hp t c none ht
    refine ⟨pending_update hp (fun _ _ h => by cases h; exact hadd), ?_⟩
    show φ (apply c s.world).2 + ∑ i, toAdd δ (Function.update s.pending t _ i) = g + 0
    rw [toAdd_update, ht, hadd, ← hsum]
    show φ s.world + δ c + (_ - δ c + 0) = _
    rw [add_zero, add_zero, add_assoc, add_sub_cancel]
  | returns t a =>
    simp only [Shared.step] at hs
    split at hs
    swap
    · cases hs
    next c a' ht =>
    split at hs <;> cases hs
    refine ⟨pending_update hp (fun _ _ h => by cases h), ?_⟩
    show φ s.world + ∑ i, toAdd δ (Function.update s.pending t none i) = g + 0
    rw [toAdd_update, ht, ← hsum]
    show _ + (_ - 0 + 0) = _
    rw [sub_zero, add_zero, add_zero]
  | outside x =>
    cases hs
    refine ⟨hp, ?_⟩
    show φ (write x s.world) + _ = g + 0
    rw [he.outside x rfl, hsum, add_zero]

/-- What the calls of a run have added, and have yet to add, is what they add. -/
theorem Run.counted [Fintype T] {tr : History (Shared T C A W) (SharedEvent T C A X)}
    {s : Shared T C A W} (hr : Run (sharedObject apply write w) tr s)
    (hC : ∀ x ∈ tr, Counts apply write φ δ x.2) :
    Counted apply φ δ (φ w + ((tr.filterMap fun x => x.2.call).map δ).sum) s := by
  induction hr with
  | init hs =>
    cases hs
    refine ⟨fun _ _ _ h => (by cases h), ?_⟩
    show φ w + ∑ _ : T, (0 : G) = φ w + 0
    rw [Finset.sum_const_zero]
  | @step tr s s' e hr hs ih =>
    have hc := (ih fun x hx => hC x (List.mem_cons_of_mem _ hx)).step
      (hC _ List.mem_cons_self) hs
    rw [List.filterMap_cons]
    cases he : e.call with
    | none =>
      rw [he] at hc
      exact add_zero (φ w + _) ▸ hc
    | some c =>
      rw [he, add_assoc, add_comm _ ((Option.map δ (some c)).getD 0)] at hc
      exact hc

end

end GQuuuuuunix.Lib
