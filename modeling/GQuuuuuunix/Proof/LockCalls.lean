import GQuuuuuunix.Kernel.LockCalls
import GQuuuuuunix.Proof.History

/-! # The rules of the spin locks, for harts under no discipline

What a hart has of each lock is all that the rules speak of; the rest of its memory is its own
affair, and a `PANIC` is allowed. -/

namespace GQuuuuuunix.Proof
open Lib Kernel
set_option autoImplicit false

/-! ## The rules -/

/-- What a hart has of the locks: those it has taken, and those that bear its name. -/
structure LockView where
  held : TaskPtr → Bool
  own : TaskPtr → Bool

namespace LockView

def take (v : LockView) (p : TaskPtr) : LockView := { v with held := Function.update v.held p true }

def drop (v : LockView) (p : TaskPtr) : LockView :=
  { v with held := Function.update v.held p false }

def setOwn (v : LockView) (p : TaskPtr) (b : Bool) : LockView :=
  { v with own := Function.update v.own p b }

/-- Only a lock that was taken bears the name of the hart. -/
def Ok (v : LockView) : Prop := ∀ p, v.own p = true → v.held p = true

end LockView

/-- What hart `h` knows of a word it loads. -/
def LockKnown (h : ℕ) (v : LockView) : (l : Loc) → l.Ty → Prop
  | .cell (.isLocked p), r => v.held p = true → r = (1 : I32)
  | .lk_cpu p, r => r = some h ↔ v.own p = true
  | .lk_acquire _, r => r = LockFn.acquire_lk
  | .lk_release _, r => r = LockFn.release_lk
  | .lk_is_holding _, r => r = LockFn.is_holding_lk
  | _, _ => True

/-- The lock `p` may be cleared. -/
def LockView.Clear (v : LockView) (c : Cell) (x : I32) (p : TaskPtr) : Prop :=
  c = .isLocked p ∧ x = 0 ∧ v.held p = true ∧ v.own p = false

def LockPre (h : ℕ) (v : LockView) : Op → Prop
  | .store (.lk_cpu p) x => v.held p = true ∧ (x = some h ∨ x = none)
  | .store (.off_nrs _) _ | .store (.intr_ena_before _) _ => True
  | .store _ _ => False
  | .amoswap c x => x = 1 ∧ ∃ p, c = .isLocked p
  | .sc c x | .loop (.store c x) => ∃ p, v.Clear c x p
  | .leave (.is_holding p) r => r ≠ 0 ↔ v.own p = true
  | .load _ | .lr _ | .fence | .r_tp | .r_sstatus | .w_sstatus _ | .loop (.test_set _) | .enter _
  | .leave _ _ => True
  | _ => False

def LockAns (h : ℕ) (v : LockView) : (o : Op) → o.Ret → Prop
  | .load l, r => LockKnown h v l r
  | .r_tp, r => r = BitVec.ofNat 64 h
  | _, _ => True

/-- What an operation makes of the view of its hart. -/
def LockView.after (v : LockView) : (o : Op) → o.Ret → LockView
  | .store (.lk_cpu p) x, _ => v.setOwn p x.isSome
  | .amoswap (.isLocked p) _, r => if r = (0 : I32) then v.take p else v
  | .sc (.isLocked p) _, r => if r = (0 : I32) then v.drop p else v
  | .loop (.test_set p), _ => v.take p
  | .loop (.store (.isLocked p) _), _ => v.drop p
  | _, _ => v

def Op.isPanic : Op → Bool
  | .panic _ => true
  | _ => false

def lockRules (h : ℕ) : Rules Op Op.Ret LockView := fun o Q v =>
  Op.isPanic o = true ∨ (v.Ok → LockPre h v o ∧ ∀ r, LockAns h v o r → Q r (v.after o r))

theorem lockRules_mono (h : ℕ) : (lockRules h).Mono := by
  intro o Q Q' v hQ hv
  rcases hv with hp | hv
  · exact Or.inl hp
  · refine Or.inr fun hok => ⟨(hv hok).1, fun r hr => hQ r _ ((hv hok).2 r hr)⟩

/-- The calls of a hart are safe from the view `v` on. -/
abbrev Calls (h : ℕ) {α : Type} (p : KProg α) (v : LockView) (Q : α → LockView → Prop) : Prop :=
  wp (lockRules h) p Q v

section
variable {h : ℕ} {v : LockView} {α β : Type}

theorem Calls.bind {p : KProg α} {f : α → KProg β} {Q : β → LockView → Prop}
    (hp : Calls h p v fun a w => Calls h (f a) w Q) : Calls h (p >>= f) v Q := wp_seq hp

theorem Calls.pure {a : α} {Q : α → LockView → Prop} (hq : Q a v) :
    Calls h (Pure.pure a : KProg α) v Q := hq

theorem calls_one {o : Op} {Q : o.Ret → LockView → Prop} (hp : LockPre h v o)
    (hq : ∀ r, LockAns h v o r → Q r (v.after o r)) : Calls h (one o) v Q :=
  Or.inr fun _ => ⟨hp, hq⟩

/-! ## task.c -/

theorem calls_panic_if {c : Prop} [Decidable c] {s : PanicSite} {p : KProg α}
    {Q : α → LockView → Prop} (hq : ¬ c → Calls h p v Q) :
    Calls h (do
      if c then
        PANIC s
      p) v Q := by
  split
  · exact Or.inl rfl
  · next hc => exact hq hc

variable (hh : h < 2 ^ 31)
include hh

theorem calls_get_cur_cpu {Q : ℕ → LockView → Prop} (hq : Q h v) : Calls h get_cur_cpu v Q := by
  refine Calls.bind (Calls.bind (calls_one trivial fun r hr => Calls.pure (Calls.pure ?_)))
  cases hr
  rw [cpuid_of_lt hh]
  exact hq

theorem calls_push_off {Q : Unit → LockView → Prop} (hq : Q () v) : Calls h push_off v Q := by
  have hlast : Calls h (do
      let c ← get_cur_cpu
      let nrs ← load (.off_nrs c)
      store (.off_nrs c) (nrs + 1)) v Q :=
    Calls.bind (calls_get_cur_cpu hh (Calls.bind (calls_one trivial fun _ _ =>
      calls_one trivial fun _ _ => hq)))
  unfold push_off intr_get intr_off
  refine Calls.bind (Calls.bind (calls_one trivial fun old _ => Calls.pure ?_))
  refine Calls.bind (Calls.bind (calls_one trivial fun x _ => calls_one trivial fun _ _ => ?_))
  refine Calls.bind (calls_get_cur_cpu hh (Calls.bind (calls_one trivial fun nrs _ => ?_)))
  split
  · exact Calls.bind (calls_get_cur_cpu hh (Calls.bind (calls_one trivial fun _ _ => hlast)))
  · exact hlast

theorem calls_pop_off {Q : Unit → LockView → Prop} (hq : Q () v) : Calls h pop_off v Q := by
  unfold pop_off intr_get intr_on
  refine Calls.bind (calls_get_cur_cpu hh ?_)
  refine Calls.bind (Calls.bind (calls_one trivial fun x _ => Calls.pure ?_))
  refine calls_panic_if fun _ => Calls.bind (calls_one trivial fun nrs _ => ?_)
  refine calls_panic_if fun _ => Calls.bind (calls_one trivial fun nrs _ => ?_)
  refine Calls.bind (calls_one trivial fun _ _ => Calls.bind (calls_one trivial fun nrs _ => ?_))
  split
  · refine Calls.bind (calls_one trivial fun e _ => ?_)
    split
    · exact Calls.bind (calls_one trivial fun x _ => calls_one trivial fun _ _ => hq)
    · exact Calls.pure hq
  · exact Calls.pure hq

/-! ## atomic.h -/

theorem calls_test_set_i32 {p : TaskPtr} {Q : I32 → LockView → Prop} (h0 : Q 0 (v.take p))
    (h1 : ∀ r, r ≠ 0 → Q r v) : Calls h (test_set_i32 (.isLocked p)) v Q := by
  unfold test_set_i32
  refine Calls.bind (calls_one trivial fun _ _ => Calls.bind (calls_push_off hh ?_))
  refine Calls.bind (calls_one ⟨rfl, p, rfl⟩ fun r _ => Calls.bind (calls_pop_off hh ?_))
  refine Calls.bind (calls_one trivial fun _ _ => Calls.pure ?_)
  by_cases hr : r = (0 : I32)
  · subst hr
    exact h0
  · show Q r (if r = (0 : I32) then v.take p else v)
    rw [if_neg hr]
    exact h1 r hr

theorem calls_test_set_round {p : TaskPtr} {Q : Unit → LockView → Prop} (hq : Q () (v.take p)) :
    Calls h (test_set_round p) v Q := by
  unfold test_set_round
  refine Calls.bind (calls_test_set_i32 hh ?_ fun r hr => ?_)
  · rw [if_neg (by simp)]
    exact Calls.pure hq
  · rw [if_pos hr]
    exact calls_one trivial fun _ _ => hq

omit hh in
theorem calls_store_round {c : Cell} {x : I32} {p : TaskPtr} {Q : Unit → LockView → Prop}
    (hc : v.Clear c x p) (hq : Q () (v.drop p)) : Calls h (store_round c x) v Q := by
  unfold store_round
  refine Calls.bind (calls_one trivial fun y _ => Calls.bind (calls_one ⟨p, hc⟩ fun r _ => ?_))
  obtain ⟨rfl, rfl, hheld⟩ := hc
  by_cases hr : r = (0 : I32)
  · subst hr
    rw [if_neg (by simp)]
    exact Calls.pure hq
  · rw [if_pos hr]
    have hv : (v.after (.lr (.isLocked p)) y).after (.sc (.isLocked p) 0) r = v := if_neg hr
    rw [hv]
    exact calls_one ⟨p, rfl, rfl, hheld⟩ fun _ _ => hq

theorem calls_clear {p : TaskPtr} {Q : I32 → LockView → Prop} (hc : v.Clear (.isLocked p) 0 p)
    (hq : ∀ r, Q r (v.drop p)) : Calls h (atomic_store_i32 (.isLocked p) 0) v Q := by
  unfold atomic_store_i32
  refine Calls.bind (calls_one trivial fun _ _ => Calls.bind (calls_push_off hh ?_))
  refine Calls.bind (calls_one ⟨p, hc⟩ fun _ _ => Calls.bind (calls_pop_off hh ?_))
  exact Calls.bind (calls_one trivial fun _ _ => Calls.pure (hq 0))

/-! ## spin_lock.c -/

theorem calls_is_holding {p : TaskPtr} {Q : I32 → LockView → Prop}
    (hq : ∀ r, (r ≠ 0 ↔ v.own p = true) → Q r v) : Calls h (call_is_holding p) v Q := by
  have hleave : ∀ r : I32, (v.Ok → (r ≠ 0 ↔ v.own p = true)) → Calls h (do
      leave (.is_holding p) r
      pure r) v Q := by
    intro r hr
    refine Calls.bind (Or.inr fun hok => ⟨hr hok, fun _ _ => Calls.pure (hq r (hr hok))⟩)
  unfold call_is_holding
  refine Calls.bind (calls_one trivial fun f hf => ?_)
  cases hf
  show Calls h (is_holding_lk p) v Q
  unfold is_holding_lk
  refine Calls.bind (calls_one trivial fun _ _ => Calls.bind (calls_one trivial fun x hx => ?_))
  by_cases h0 : x = 0
  · rw [if_neg (by simpa using h0)]
    refine hleave 0 fun hok => ⟨fun hn => absurd rfl hn, fun hown => ?_⟩
    have h1 : x = (1 : I32) := hx (hok p hown)
    rw [h0] at h1
    cases h1
  · rw [if_pos h0]
    refine Calls.bind (calls_get_cur_cpu hh (Calls.bind (calls_one trivial fun c hc => ?_)))
    refine hleave _ fun _ => ?_
    rw [← show c = some h ↔ v.own p = true from hc]
    split
    · next hch => exact ⟨fun _ => hch, fun _ => by decide⟩
    · next hch => exact ⟨fun hn => absurd rfl hn, fun h => absurd h hch⟩

theorem calls_acquire {p : TaskPtr} {Q : Unit → LockView → Prop}
    (hq : Q () ((v.take p).setOwn p true)) : Calls h (call_acquire p) v Q := by
  unfold call_acquire
  refine Calls.bind (calls_one trivial fun f hf => ?_)
  cases hf
  show Calls h (acquire_lk p) v Q
  unfold acquire_lk
  refine Calls.bind (calls_one trivial fun _ _ => Calls.bind (calls_push_off hh ?_))
  refine Calls.bind (calls_is_holding hh fun r hr => calls_panic_if fun _ => ?_)
  refine Calls.bind (calls_one trivial fun _ _ => Calls.bind (calls_one trivial fun _ _ => ?_))
  refine Calls.bind (calls_get_cur_cpu hh (Calls.bind (calls_one ⟨?_, Or.inl rfl⟩ fun _ _ => ?_)))
  · exact Function.update_self p true v.held
  · exact calls_one trivial fun _ _ => hq

theorem calls_release {p : TaskPtr} {Q : Unit → LockView → Prop}
    (hq : Q () ((v.setOwn p false).drop p)) : Calls h (call_release p) v Q := by
  unfold call_release
  refine Calls.bind (calls_one trivial fun f hf => ?_)
  cases hf
  show Calls h (release_lk p) v Q
  unfold release_lk
  refine Calls.bind (calls_one trivial fun _ _ => ?_)
  refine Calls.bind (calls_is_holding hh fun r hr => calls_panic_if fun h0 => ?_)
  have hown := hr.1 h0
  refine Calls.bind (Or.inr fun hok => ⟨⟨hok p hown, Or.inr rfl⟩, fun _ _ => ?_⟩)
  refine Calls.bind (calls_one trivial fun _ _ => Calls.bind (calls_clear hh ?_ fun _ => ?_))
  · refine ⟨rfl, rfl, hok p hown, ?_⟩
    show Function.update v.own p false p = false
    exact Function.update_self p false v.own
  · exact Calls.bind (calls_pop_off hh (calls_one trivial fun _ _ => hq))

theorem calls_run (c : LockCall) : Calls h c.run v fun _ _ => True := by
  cases c with
  | acquire p => exact calls_acquire hh trivial
  | release p => exact calls_release hh trivial
  | is_holding p => exact Calls.bind (calls_is_holding hh fun _ _ => Calls.pure trivial)

theorem calls_each (cs : List LockCall) :
    Calls h (Prog.each LockCall.run cs) v fun _ _ => True :=
  wp_each (lockRules_mono h) (fun _ _ => True) (fun c _ _ _ => calls_run hh c) (fun _ _ => trivial)
    cs v trivial

end

end GQuuuuuunix.Proof
