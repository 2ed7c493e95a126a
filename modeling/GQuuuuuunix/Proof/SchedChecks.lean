import GQuuuuuunix.Kernel.SchedChecks
import GQuuuuuunix.Proof.LockCalls
import GQuuuuuunix.Proof.Assembly

/-! # sched and the scheduler, from any state

What one hart knows of its `struct cpu` and of the locks while it runs `sched`, `switch_to` and a
round of `scheduler`; and that no step of the others takes it away. -/

namespace GQuuuuuunix.Proof
open Lib Kernel
set_option autoImplicit false

/-! ## The rules -/

/-- What a hart knows: that its interrupts are masked, if they are; the state of the tasks whose
lock it has taken; that its stack is apart from the one its scheduler waits on, with the frame
`frame`; the registers that `switch_to` has loaded. -/
structure Nest where
  off : I32
  masked : Bool
  task : Option TaskPtr
  locks : LockView
  st : TaskPtr → Option TaskState
  apart : Bool
  frame : Option Parked
  regs : Reg → Option U64

namespace Nest

/-- Nothing is known of the registers. -/
def Blank (v : Nest) : Prop := ∀ r, v.regs r = none

/-- What hart `h` knows of a word it loads. -/
def Known (h : ℕ) (v : Nest) : (l : Loc) → l.Ty → Prop
  | .off_nrs c, r => c = h → r = v.off
  | .cpu_task c, r => c = h → r = v.task
  | .state p, r => v.locks.held p = true → ∀ s, v.st p = some s → r = s
  | .cell (.isLocked p), r => v.locks.held p = true → r ≠ (0 : I32)
  | .lk_cpu p, r => r = some h ↔ v.locks.own p = true
  | .lk_acquire _, r => r = LockFn.acquire_lk
  | .lk_release _, r => r = LockFn.release_lk
  | .lk_is_holding _, r => r = LockFn.is_holding_lk
  | _, _ => True

def Ans (h : ℕ) (v : Nest) : (o : Op) → o.Ret → Prop
  | .load l, r => v.Known h l r
  | .r_tp, r => r = BitVec.ofNat 64 h
  | .r_sstatus, r => v.masked = true → sie r = false
  | .panic _, _ => False
  | _, _ => True

/-- With `pan`, a `PANIC` and a spin on a lock are allowed. -/
def Pre (h : ℕ) (pan : Bool) (v : Nest) : Op → Prop
  | .store (.off_nrs c) _ | .store (.intr_ena_before c) _ | .store (.cpu_task c) _ => c = h
  | .store (.state p) _ => v.locks.held p = true
  | .store (.lk_cpu p) x => v.locks.held p = true ∧ (x = some h ∨ x = none)
  | .amoswap c x => x = 1 ∧ ∃ p, c = .isLocked p
  | .sc c x | .loop (.store c x) => ∃ p, v.locks.Clear c x p
  | .load _ | .lr _ | .fence | .r_tp | .r_sstatus | .w_sstatus _ | .printf _ | .enter _ | .leave _ _
  | .point _ => True
  | .ld_ctx _ r _ => r ≠ .tp
  | .sd_ctx q _ _ => q = .cpu h → v.frame = none
  | .loop (.test_set _) | .panic _ => pan = true
  | _ => False

/-- With the lock `p`; what is under it was for others to write. -/
def take (v : Nest) (p : TaskPtr) : Nest :=
  { v with locks := v.locks.take p, st := Function.update v.st p none }

def after (h : ℕ) (v : Nest) : (o : Op) → o.Ret → Nest
  | .store (.off_nrs _) x, _ => { v with off := x }
  | .store (.cpu_task _) x, _ => { v with task := x }
  | .store (.state p) x, _ => { v with st := Function.update v.st p (some x) }
  | .w_sstatus x, _ => { v with masked := !sie x }
  | .leave (.test_set _) _, _ => { v with masked := false }
  | .loop (.test_set p), _ => { v.take p with masked := false }
  | .amoswap (.isLocked p) _, r => if r = (0 : I32) then v.take p else v
  | .ld_ctx q r i, _ =>
    { v with
      apart := false
      regs := Function.update v.regs r
        (if q = .cpu h then v.frame.map fun p => p.regs i else none) }
  | o, r => { v with locks := v.locks.after o r }

end Nest

/-- Where a leg of the run ends: at a call of `switch_to`, at its `ret`, at the end of a release. -/
def Op.ends : Op → Bool
  | .call_switch_to _ _ _ | .ret _ _ | .leave (.release _) _ => true
  | _ => false

/-- The rules of a leg that is to end in `A`. -/
def nestRules (h : ℕ) (pan : Bool) (A : Op → Nest → Prop) : Rules Op Op.Ret Nest := fun o Q v =>
  v.locks.Ok → (o.isAsm = false → v.Blank) ∧
    if Op.ends o = true then A o v
    else (pan = true ∨ v.masked = true) ∧ v.Pre h pan o ∧ ∀ r, v.Ans h o r → Q r (v.after h o r)

abbrev Nests (h : ℕ) (pan : Bool) (A : Op → Nest → Prop) {α : Type} (p : KProg α) (v : Nest)
    (Q : α → Nest → Prop) : Prop :=
  wp (nestRules h pan A) p Q v

theorem nestRules_mono (h : ℕ) (pan : Bool) (A : Op → Nest → Prop) :
    (nestRules h pan A).Mono := by
  intro o Q Q' v hQ hv hok
  obtain ⟨hb, hv⟩ := hv hok
  refine ⟨hb, ?_⟩
  split
  · next he => rwa [if_pos he] at hv
  · next he =>
    rw [if_neg he] at hv
    obtain ⟨hm, hp, hr⟩ := hv
    exact ⟨hm, hp, fun r ha => hQ r _ (hr r ha)⟩

section
variable {h : ℕ} {pan : Bool} {A : Op → Nest → Prop} {v : Nest} {α β : Type}

theorem Nests.bind {p : KProg α} {f : α → KProg β} {Q : β → Nest → Prop}
    (hp : Nests h pan A p v fun a w => Nests h pan A (f a) w Q) : Nests h pan A (p >>= f) v Q :=
  wp_seq hp

theorem Nests.pure {a : α} {Q : α → Nest → Prop} (hq : Q a v) :
    Nests h pan A (Pure.pure a : KProg α) v Q := hq

/-- What compiled C needs at each operation: no trap can come, and it knows no register. -/
structure Nest.Ready (pan : Bool) (v : Nest) : Prop where
  masked : pan = true ∨ v.masked = true
  blank : v.Blank

theorem nests_one {o : Op} {Q : o.Ret → Nest → Prop} (hv : v.Ready pan)
    (hp : v.locks.Ok → v.Pre h pan o) (he : Op.ends o = false)
    (hq : ∀ r, v.locks.Ok → v.Ans h o r → Q r (v.after h o r)) : Nests h pan A (one o) v Q := by
  intro hok
  refine ⟨fun _ => hv.blank, ?_⟩
  rw [if_neg (by simp [he])]
  exact ⟨hv.masked, hp hok, fun r ha => hq r hok ha⟩

theorem nests_free {o : Op} {Q : o.Ret → Nest → Prop} (hv : v.Ready pan)
    (hp : v.Pre h pan o) (he : Op.ends o = false)
    (hq : ∀ r, v.Ans h o r → Q r (v.after h o r)) : Nests h pan A (one o) v Q :=
  nests_one hv (fun _ => hp) he fun r _ => hq r

theorem nests_end {o : Op} {Q : o.Ret → Nest → Prop} (he : Op.ends o = true)
    (hb : o.isAsm = false → v.Blank) (ha : A o v) : Nests h pan A (one o) v Q := by
  intro _
  refine ⟨hb, ?_⟩
  rw [if_pos he]
  exact ha

/-! ## task.c -/

theorem nests_panic_if {c : Prop} [Decidable c] {s : PanicSite} {p : KProg α}
    {Q : α → Nest → Prop} (hv : v.Ready pan) (hpan : c → pan = true)
    (hq : ¬ c → Nests h pan A p v Q) :
    Nests h pan A (do
      if c then
        PANIC s
      p) v Q := by
  split
  · next hc => exact Nests.bind (nests_free hv (hpan hc) rfl fun _ hf => hf.elim)
  · next hc => exact hq hc

theorem nests_intr_get {Q : I32 → Nest → Prop} (hv : v.Ready pan)
    (hq : ∀ r : I32, (v.masked = true → r = 0) → Q r v) : Nests h pan A intr_get v Q := by
  refine Nests.bind (nests_free hv trivial rfl fun x hx => Nests.pure (hq _ fun hm => ?_))
  refine if_neg fun hne => ?_
  rw [and_SIE_ne_zero, hx hm] at hne
  cases hne

variable (hh : h < 2 ^ 31)
include hh

theorem nests_get_cur_cpu {Q : ℕ → Nest → Prop} (hv : v.Ready pan) (hq : Q h v) :
    Nests h pan A get_cur_cpu v Q := by
  refine Nests.bind (Nests.bind (nests_free hv trivial rfl fun r hr => Nests.pure (Nests.pure ?_)))
  cases hr
  rw [cpuid_of_lt hh]
  exact hq

theorem nests_push_off {Q : Unit → Nest → Prop} (hv : v.Ready pan)
    (hq : Q () { v with masked := true, off := v.off + 1 }) : Nests h pan A push_off v Q := by
  have hv' : ({ v with masked := true } : Nest).Ready pan := ⟨Or.inr rfl, hv.blank⟩
  have hlast : Nests h pan A (do
      let c ← get_cur_cpu
      let nrs ← load (.off_nrs c)
      store (.off_nrs c) (nrs + 1)) { v with masked := true } Q := by
    refine Nests.bind (nests_get_cur_cpu hh hv' (Nests.bind ?_))
    refine nests_free hv' trivial rfl fun nrs hn => nests_free hv' rfl rfl fun _ _ => ?_
    rw [show nrs = v.off from hn rfl]
    exact hq
  unfold push_off intr_off
  refine Nests.bind (nests_intr_get hv fun old _ => ?_)
  refine Nests.bind (Nests.bind (nests_free hv trivial rfl fun x _ => ?_))
  refine nests_free hv trivial rfl fun _ _ => ?_
  have hoff : (v.after h (.w_sstatus (x &&& ~~~SSTATUS_SIE)) ()) = { v with masked := true } := by
    show ({ v with masked := !sie (x &&& ~~~SSTATUS_SIE) } : Nest) = _
    rw [sie_and_not_SIE]
    rfl
  show Nests h pan A _ (v.after h (.w_sstatus (x &&& ~~~SSTATUS_SIE)) ()) _
  rw [hoff]
  refine Nests.bind (nests_get_cur_cpu hh hv' (Nests.bind ?_))
  refine nests_free hv' trivial rfl fun nrs _ => ?_
  split
  · refine Nests.bind (nests_get_cur_cpu hh hv' (Nests.bind ?_))
    exact nests_free hv' rfl rfl fun _ _ => hlast
  · exact hlast

/-- Interrupts may come on again only at depth 0. -/
theorem nests_pop_off {Q : Unit → Nest → Prop} (hv : v.Ready pan)
    (hp : pan = true ∨ v.off.slt 1 = false)
    (hq : ∀ b, (v.masked = true → v.off - 1 ≠ 0 → b = true) →
      Q () { v with masked := b, off := v.off - 1 }) : Nests h pan A pop_off v Q := by
  have hv' : ({ v with off := v.off - 1 } : Nest).Ready pan := ⟨hv.masked, hv.blank⟩
  unfold pop_off intr_on
  refine Nests.bind (nests_get_cur_cpu hh hv (Nests.bind ?_))
  refine nests_intr_get hv fun old hold => nests_panic_if hv (fun hne => ?_) fun _ => ?_
  · exact hv.masked.resolve_right fun hm => hne (hold hm)
  refine Nests.bind (nests_free hv trivial rfl fun nrs hn => ?_)
  obtain rfl : nrs = v.off := hn rfl
  refine nests_panic_if hv (fun hlt => hp.resolve_right (by rw [hlt]; decide)) fun _ => ?_
  refine Nests.bind (nests_free hv trivial rfl fun nrs hn => ?_)
  obtain rfl : nrs = v.off := hn rfl
  refine Nests.bind (nests_free hv rfl rfl fun _ _ => Nests.bind ?_)
  refine nests_free hv' trivial rfl fun nrs hn => ?_
  obtain rfl : nrs = v.off - 1 := hn rfl
  split
  · next hz =>
    refine Nests.bind (nests_free hv' trivial rfl fun e _ => ?_)
    split
    · refine Nests.bind (nests_free hv' trivial rfl fun x _ => ?_)
      exact nests_free hv' trivial rfl fun _ _ => hq _ fun _ hne => absurd hz hne
    · exact Nests.pure (hq v.masked fun hm _ => hm)
  · exact Nests.pure (hq v.masked fun hm _ => hm)

/-! ## atomic.h -/

theorem nests_test_set_i32 {p : TaskPtr} {Q : I32 → Nest → Prop} (hv : v.Ready true)
    (h0 : Q 0 { v.take p with masked := false })
    (h1 : ∀ r, r ≠ 0 → Q r { v with masked := false }) :
    Nests h true A (test_set_i32 (.isLocked p)) v Q := by
  have hoff : v.off + 1 - 1 = v.off := add_sub_cancel_right v.off 1
  have hrest : ∀ (r : I32) (w : Nest), w.Blank → Q r { w with masked := false, off := w.off - 1 } →
      Nests h true A (do
        pop_off
        leave (.test_set (.isLocked p)) r
        pure r) w Q := by
    intro r w hw hq
    refine Nests.bind (nests_pop_off hh ⟨Or.inl rfl, hw⟩ (Or.inl rfl) fun b _ => Nests.bind ?_)
    exact nests_free ⟨Or.inl rfl, hw⟩ trivial rfl fun _ _ => Nests.pure hq
  unfold test_set_i32
  refine Nests.bind (nests_free hv trivial rfl fun _ _ => Nests.bind (nests_push_off hh hv ?_))
  have hv' : ({ v with masked := true, off := v.off + 1 } : Nest).Ready true :=
    ⟨Or.inl rfl, hv.blank⟩
  refine Nests.bind (nests_free hv' ⟨rfl, p, rfl⟩ rfl fun r _ => ?_)
  by_cases hr : r = (0 : I32)
  · subst hr
    refine hrest 0 _ hv.blank ?_
    show Q 0 { v.take p with masked := false, off := v.off + 1 - 1 }
    rw [hoff]
    exact h0
  · have hw : ({ v with masked := true, off := v.off + 1 } : Nest).after h
        (.amoswap (.isLocked p) 1) r = { v with masked := true, off := v.off + 1 } := if_neg hr
    show Nests h true A _ (({ v with masked := true, off := v.off + 1 } : Nest).after h
      (.amoswap (.isLocked p) 1) r) Q
    rw [hw]
    refine hrest r _ hv.blank ?_
    show Q r { v with masked := false, off := v.off + 1 - 1 }
    rw [hoff]
    exact h1 r hr

omit hh in
theorem nests_store_round {c : Cell} {x : I32} {p : TaskPtr} {Q : Unit → Nest → Prop}
    (hv : v.Ready pan) (hc : v.locks.Clear c x p)
    (hq : Q () { v with locks := v.locks.drop p }) : Nests h pan A (store_round c x) v Q := by
  unfold store_round
  refine Nests.bind (nests_free hv trivial rfl fun y _ => Nests.bind ?_)
  refine nests_free hv ⟨p, hc⟩ rfl fun r _ => ?_
  obtain ⟨rfl, rfl, hheld⟩ := hc
  by_cases hr : r = (0 : I32)
  · subst hr
    rw [if_neg (by simp)]
    exact Nests.pure hq
  · rw [if_pos hr]
    have hw : (v.after h (.lr (.isLocked p)) y).after h (.sc (.isLocked p) 0) r = v := by
      show ({ v with locks := if r = (0 : I32) then v.locks.drop p else v.locks } : Nest) = v
      rw [if_neg hr]
    rw [hw]
    exact nests_free hv ⟨p, rfl, rfl, hheld⟩ rfl fun _ _ => hq

theorem nests_clear {p : TaskPtr} {Q : I32 → Nest → Prop} (hv : v.Ready pan)
    (hp : pan = true ∨ v.off = 1) (hc : v.locks.Clear (.isLocked p) 0 p)
    (hq : ∀ r b, (pan = true ∨ b = true) →
      Q r { v with masked := b, locks := v.locks.drop p }) :
    Nests h pan A (atomic_store_i32 (.isLocked p) 0) v Q := by
  unfold atomic_store_i32
  refine Nests.bind (nests_free hv trivial rfl fun _ _ => Nests.bind (nests_push_off hh hv ?_))
  have hv' : ({ v with masked := true, off := v.off + 1 } : Nest).Ready pan :=
    ⟨Or.inr rfl, hv.blank⟩
  refine Nests.bind (nests_free hv' ⟨p, hc⟩ rfl fun _ _ => Nests.bind ?_)
  refine nests_pop_off hh ⟨Or.inr rfl, hv.blank⟩ (hp.imp_right fun h1 => ?_) fun b hb => ?_
  · show (v.off + 1).slt 1 = false
    rw [h1]
    rfl
  have hoff : v.off + 1 - 1 = v.off := add_sub_cancel_right v.off 1
  have hb' : pan = true ∨ b = true := by
    refine hp.imp_right fun h1 => hb rfl ?_
    show v.off + 1 - 1 ≠ 0
    rw [hoff, h1]
    decide
  refine Nests.bind (nests_free ⟨hb', hv.blank⟩ trivial rfl fun _ _ => Nests.pure ?_)
  show Q 0 { v with masked := b, off := v.off + 1 - 1, locks := v.locks.drop p }
  rw [hoff]
  exact hq 0 b hb'

/-! ## spin_lock.c -/

theorem nests_is_holding {p : TaskPtr} {Q : I32 → Nest → Prop} (hv : v.Ready pan)
    (hq : ∀ r, (r ≠ 0 ↔ v.locks.own p = true) → Q r v) :
    Nests h pan A (call_is_holding p) v Q := by
  have hleave : ∀ r : I32, (r ≠ 0 ↔ v.locks.own p = true) → Nests h pan A (do
      leave (.is_holding p) r
      pure r) v Q := fun r hr =>
    Nests.bind (nests_free hv trivial rfl fun _ _ => Nests.pure (hq r hr))
  unfold call_is_holding
  refine Nests.bind (nests_free hv trivial rfl fun f hf => ?_)
  cases hf
  show Nests h pan A (is_holding_lk p) v Q
  unfold is_holding_lk
  refine Nests.bind (nests_free hv trivial rfl fun _ _ => Nests.bind ?_)
  refine nests_one hv (fun _ => trivial) rfl fun x hok hx => ?_
  by_cases h0 : x = 0
  · rw [if_neg (by simpa using h0)]
    exact hleave 0 ⟨fun hn => absurd rfl hn, fun hown => absurd h0 (hx (hok p hown))⟩
  · rw [if_pos h0]
    refine Nests.bind (nests_get_cur_cpu hh hv (Nests.bind ?_))
    refine nests_free hv trivial rfl fun c hc => hleave _ ?_
    rw [← show c = some h ↔ v.locks.own p = true from hc]
    split
    · next hch => exact ⟨fun _ => hch, fun _ => by decide⟩
    · next hch => exact ⟨fun hn => absurd rfl hn, fun h => absurd h hch⟩

theorem nests_test_set_round {p : TaskPtr} {Q : Unit → Nest → Prop} (hv : v.Ready true)
    (hq : Q () { v.take p with masked := false }) :
    Nests h true A (test_set_round p) v Q := by
  unfold test_set_round
  refine Nests.bind (nests_test_set_i32 hh hv ?_ fun r hr => ?_)
  · rw [if_neg (by simp)]
    exact Nests.pure hq
  · rw [if_pos hr]
    exact nests_free ⟨Or.inl rfl, hv.blank⟩ rfl rfl fun _ _ => hq

theorem nests_acquire {p : TaskPtr} {Q : Unit → Nest → Prop} (hv : v.Ready true)
    (hq : Q () { v.take p with
      masked := false
      off := v.off + 1
      locks := (v.locks.take p).setOwn p true }) : Nests h true A (call_acquire p) v Q := by
  unfold call_acquire
  refine Nests.bind (nests_free hv trivial rfl fun f hf => ?_)
  cases hf
  show Nests h true A (acquire_lk p) v Q
  unfold acquire_lk
  refine Nests.bind (nests_free hv trivial rfl fun _ _ => Nests.bind (nests_push_off hh hv ?_))
  have hv' : ({ v with masked := true, off := v.off + 1 } : Nest).Ready true :=
    ⟨Or.inl rfl, hv.blank⟩
  refine Nests.bind (nests_is_holding hh hv' fun r _ =>
    nests_panic_if hv' (fun _ => rfl) fun _ => ?_)
  refine Nests.bind (nests_free hv' rfl rfl fun _ _ => Nests.bind ?_)
  have hw : ({ v.take p with masked := false, off := v.off + 1 } : Nest).Ready true :=
    ⟨Or.inl rfl, hv.blank⟩
  refine nests_free hw trivial rfl fun _ _ => Nests.bind (nests_get_cur_cpu hh hw (Nests.bind ?_))
  refine nests_free hw ⟨?_, Or.inl rfl⟩ rfl fun _ _ => ?_
  · exact Function.update_self p true v.locks.held
  exact nests_free ⟨Or.inl rfl, hv.blank⟩ trivial rfl fun _ _ => hq

theorem nests_release {p : TaskPtr} {Q : Unit → Nest → Prop} (hv : v.Ready pan)
    (hown : pan = true ∨ v.locks.own p = true) (hp : pan = true ∨ v.off = 1)
    (ha : ∀ b, A (.leave (.release p) 0)
      { v with masked := b, off := v.off - 1, locks := (v.locks.setOwn p false).drop p }) :
    Nests h pan A (call_release p) v Q := by
  unfold call_release
  refine Nests.bind (nests_free hv trivial rfl fun f hf => ?_)
  cases hf
  show Nests h pan A (release_lk p) v Q
  unfold release_lk
  refine Nests.bind (nests_free hv trivial rfl fun _ _ => Nests.bind ?_)
  refine nests_is_holding hh hv fun r hr => ?_
  refine nests_panic_if hv (fun h0 => hown.resolve_right fun ho => hr.2 ho h0) fun h0 => ?_
  have hmine := hr.1 h0
  refine Nests.bind (nests_one hv (fun hok => ⟨hok p hmine, Or.inr rfl⟩) rfl fun _ hok _ => ?_)
  have hv' : ({ v with locks := v.locks.setOwn p false } : Nest).Ready pan := ⟨hv.masked, hv.blank⟩
  refine Nests.bind (nests_free hv' trivial rfl fun _ _ => Nests.bind ?_)
  refine nests_clear hh hv' hp ⟨rfl, rfl, hok p hmine, ?_⟩ fun _ b hb => Nests.bind ?_
  · exact Function.update_self p false v.locks.own
  refine nests_pop_off hh ⟨hb, hv.blank⟩ (hp.imp_right fun h1 => ?_) fun b' _ => ?_
  · show v.off.slt 1 = false
    rw [h1]
    rfl
  · exact nests_end rfl (fun _ => hv.blank) (ha b')

/-! ## sched.c -/

theorem nests_get_cur_task {Q : Option TaskPtr → Nest → Prop} (hv : v.Ready pan)
    (hq : Q v.task v) : Nests h pan A get_cur_task v Q := by
  refine Nests.bind (nests_get_cur_cpu hh hv (nests_free hv trivial rfl fun r hr => ?_))
  obtain rfl : r = v.task := hr rfl
  exact hq

/-- `sched` comes to its call of `switch_to` when its checks pass. -/
theorem nests_sched {t : TaskPtr} {Q : Unit → Nest → Prop} (hv : v.Ready pan)
    (ht : v.task = some t) (hown : v.locks.own t = true) {s : TaskState}
    (hst : v.st t = some s) (hs : s ≠ .RUNNING)
    (hm : v.masked = true) (ha : A (.call_switch_to .sched (.task t) (.cpu h)) v) :
    Nests h pan A sched v Q := by
  unfold sched
  refine Nests.bind (nests_get_cur_task hh hv ?_)
  rw [ht]
  refine Nests.bind (nests_is_holding hh hv fun r hr => ?_)
  refine nests_panic_if hv (fun h0 => absurd h0 (hr.2 hown)) fun _ => Nests.bind ?_
  refine nests_one hv (fun _ => trivial) rfl fun s' hok hs' => ?_
  obtain rfl : s' = s := hs' (hok t hown) s hst
  refine nests_panic_if hv (fun hr => absurd hr hs) fun _ => Nests.bind ?_
  refine nests_intr_get hv fun r hr => nests_panic_if hv (fun hne => absurd (hr hm) hne) fun _ => ?_
  refine Nests.bind (nests_get_cur_cpu hh hv (Nests.bind ?_))
  refine nests_free hv trivial rfl fun e _ => Nests.bind (nests_get_cur_cpu hh hv (Nests.bind ?_))
  exact nests_end rfl (fun _ => hv.blank) ha

/-- What `scheduler` does when the task has switched back to it. -/
theorem nests_after_switch {i : Fin TASK_MAX_NRS} {Q : Unit → Nest → Prop} (hv : v.Ready pan)
    (hown : pan = true ∨ v.locks.own (.gTasks i) = true) (hp : pan = true ∨ v.off = 1)
    (ha : ∀ b, A (.leave (.release (.gTasks i)) 0)
      { v with
        masked := b
        off := v.off - 1
        task := none
        locks := (v.locks.setOwn (.gTasks i) false).drop (.gTasks i) }) :
    Nests h pan A (afterSwitch h i) v Q := by
  unfold afterSwitch
  refine Nests.bind (nests_free hv trivial rfl fun _ _ => Nests.bind ?_)
  refine nests_free hv rfl rfl fun _ _ => ?_
  exact nests_release hh ⟨hv.masked, hv.blank⟩ hown hp ha

/-- The scan comes to `switch_to` with the lock of the task, or passes the task over. -/
theorem nests_scan_body {i : Fin TASK_MAX_NRS} {Q : Unit → Nest → Prop} (hv : v.Ready true)
    (hs : ∀ w, w.Ready true → w.locks.own (.gTasks i) = true → w.frame = v.frame →
      A (.call_switch_to .scheduler (.cpu h) (.task (.gTasks i))) w)
    (hr : ∀ w, A (.leave (.release (.gTasks i)) 0) w) : Nests h true A (scan_body h i) v Q := by
  unfold scan_body
  refine Nests.bind (nests_acquire hh hv ?_)
  generalize hw' : ({ v.take (.gTasks i) with
    masked := false
    off := v.off + 1
    locks := (v.locks.take (.gTasks i)).setOwn (.gTasks i) true } : Nest) = w
  have hw : w.Ready true := by
    rw [← hw']
    exact ⟨Or.inl rfl, hv.blank⟩
  have hf : w.frame = v.frame := by
    rw [← hw']
    rfl
  have hown : w.locks.own (.gTasks i) = true := by
    rw [← hw']
    exact Function.update_self (.gTasks i : TaskPtr) true v.locks.own
  refine Nests.bind (nests_one hw (fun _ => trivial) rfl fun s hok _ => ?_)
  have hheld : w.locks.held (.gTasks i) = true := hok _ hown
  have hrel : ∀ w', w'.Ready true → Nests h true A (call_release (.gTasks i)) w' Q :=
    fun w' hw' => nests_release hh hw' (Or.inl rfl) (Or.inl rfl) fun _ => hr _
  split
  · refine Nests.bind (nests_free hw hheld rfl fun _ _ => Nests.bind ?_)
    refine nests_free ⟨hw.masked, hw.blank⟩ trivial rfl fun pid _ => Nests.bind ?_
    refine nests_free ⟨hw.masked, hw.blank⟩ trivial rfl fun _ _ => Nests.bind ?_
    refine nests_free ⟨hw.masked, hw.blank⟩ rfl rfl fun _ _ => Nests.bind ?_
    exact nests_end rfl (fun _ => hw.blank) (hs _ ⟨hw.masked, hw.blank⟩ hown hf)
  · exact hrel w hw

end

/-! ## switch.s -/

/-- `switch_to` takes a hart that cannot be trapped to its `ret`, with the registers of the context
of the hart loaded if it is that context. -/
theorem nests_switch_to {h : ℕ} {pan : Bool} {A : Op → Nest → Prop} {v : Nest} {old new : CtxPtr}
    {Q : Unit → Nest → Prop} (hm : pan = true ∨ v.masked = true)
    (hold : old = .cpu h → v.frame = none)
    (ha : ∀ a ρ, (new = .cpu h → ∀ p, v.frame = some p →
        ∀ s ∈ switch_to_slots, ρ s.1 = some (p.regs s.2)) →
      A (.ret old new) { v with apart := a, regs := ρ }) :
    Nests h pan A (switch_to old new) v Q := by
  have hasm : ∀ {o : Op} {w : Nest} {R : o.Ret → Nest → Prop}, o.isAsm = true →
      Op.ends o = false → (pan = true ∨ w.masked = true) → w.Pre h pan o →
      (∀ r, w.Ans h o r → R r (w.after h o r)) → Nests h pan A (one o) w R := by
    intro o w R hasm he hm hp hr _
    refine ⟨fun hn => (by rw [hasm] at hn; cases hn), ?_⟩
    rw [if_neg (by simp [he])]
    exact ⟨hm, hp, hr⟩
  unfold switch_to
  refine Nests.bind (wp_each (nestRules_mono h pan A) (fun _ w => w = v) (fun s xs w hw => ?_)
    (fun w hw => ?_) _ v rfl)
  · subst hw
    exact hasm rfl rfl hm hold fun _ _ => rfl
  subst hw
  refine Nests.bind (wp_each (nestRules_mono h pan A) (fun xs u => ∃ done a ρ,
    done ++ xs = switch_to_slots ∧ u = { w with apart := a, regs := ρ } ∧
    (new = .cpu h → ∀ p, w.frame = some p → ∀ s ∈ done, ρ s.1 = some (p.regs s.2)))
    (fun s xs u hu => ?_) (fun u hu => ?_) _ w ⟨[], w.apart, w.regs, rfl, rfl, by simp⟩)
  · obtain ⟨done, a, ρ, hxs, rfl, hρ⟩ := hu
    have htp : s.1 ≠ .tp := by
      have hmem : s ∈ switch_to_slots := by
        rw [← hxs]
        exact List.mem_append_right done List.mem_cons_self
      exact (show ∀ s ∈ switch_to_slots, s.1 ≠ .tp by decide) s hmem
    refine hasm rfl rfl hm htp fun _ _ => ?_
    refine ⟨done ++ [s], false, _, by rw [List.append_assoc]; exact hxs, rfl, ?_⟩
    intro hnew p hp x hx
    have hnd := slots_regs_nodup
    rw [← hxs, List.map_append, List.map_cons] at hnd
    rcases List.mem_append.1 hx with hx | hx
    · rw [Function.update_of_ne]
      · exact hρ hnew p hp x hx
      · intro he
        refine (List.nodup_append.1 hnd).2.2 x.1 (List.mem_map_of_mem hx) s.1 ?_ he
        exact List.mem_cons_self
    · obtain rfl := List.mem_singleton.1 hx
      rw [Function.update_self, if_pos hnew]
      show w.frame.map _ = _
      rw [hp]
      rfl
  · obtain ⟨done, a, ρ, hxs, rfl, hρ⟩ := hu
    rw [List.append_nil] at hxs
    subst hxs
    exact nests_end rfl (fun hn => (by cases hn)) (ha a ρ hρ)

end GQuuuuuunix.Proof
