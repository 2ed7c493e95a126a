import Mathlib.Tactic.IntervalCases
import GQuuuuuunix.Proof.Compiled

/-! # The locks and the interrupt nesting, as the scheduler uses them -/

namespace GQuuuuuunix.Proof
open Lib Kernel
set_option autoImplicit false

variable {cfg : Config} {α β : Type} {k : Ghost} {m : Own}

/-! ## task.c -/

theorem cpuid_of_hart {h : ℕ} (hh : h < MAX_CPU_NUMS) :
    ((BitVec.ofNat 64 h).setWidth 32).toInt.toNat = h :=
  cpuid_of_lt (Nat.lt_of_lt_of_le hh (by decide))

theorem does_get_cur_cpu {Q : ℕ → Ghost → Own → Prop} (hs : k.sie = false)
    (h : Q k.hart k m) : Does cfg get_cur_cpu k m Q := by
  refine Does.of_ok rfl hs fun hok => ?_
  refine Does.bind (does_r_tp hs (Does.pure ?_))
  have hc : k.hart < MAX_CPU_NUMS := lt_of_lt_of_le hok.hart_lt cfg.harts_le
  rw [cpuid_of_hart hc]
  exact h

theorem does_get_cur_task {Q : Option TaskPtr → Ghost → Own → Prop} (hs : k.sie = false)
    (h : Q (k.task.map .gTasks) k m) : Does cfg get_cur_task k m Q := by
  unfold get_cur_task
  refine Does.bind (does_get_cur_cpu hs ?_)
  exact does_load_cpu_task hs h

theorem does_intr_get {Q : I32 → Ghost → Own → Prop} (hs : k.sie = false) (h : Q 0 k m) :
    Does cfg intr_get k m Q := by
  refine Does.bind (does_r_sstatus hs fun hm => Does.pure ?_)
  rw [if_neg (by rw [and_SIE_ne_zero, hm]; decide)]
  exact h

theorem and_not_SIE_of_sie {x : U64} (h : sie x = false) : x &&& ~~~SSTATUS_SIE = x := by
  apply BitVec.eq_of_getLsbD_eq
  intro i hi
  rw [BitVec.getLsbD_and, BitVec.getLsbD_not, SSTATUS_SIE_eq, BitVec.getLsbD_twoPow]
  by_cases h1 : 1 = i
  · subst h1
    rw [show x.getLsbD 1 = false from h]
    rfl
  · simp [hi, h1]

theorem does_intr_off {Q : Unit → Ghost → Own → Prop} (hs : k.sie = false) (h : Q () k m) :
    Does cfg intr_off k m Q := by
  refine Does.bind (does_r_sstatus hs fun hm => ?_)
  show Does cfg (w_sstatus (m.sstatus &&& ~~~SSTATUS_SIE)) k m Q
  rw [and_not_SIE_of_sie hm]
  refine Does.plain rfl rfl hs fun v hk _ _ => ⟨fun hx => ?_, fun r _ => ?_⟩
  · rw [hm] at hx
    cases hx
  · have hk' : k.after (.w_sstatus m.sstatus) r = k := by
      show { k with sie := sie m.sstatus } = k
      rw [hm, ← hs]
    rw [hk']
    exact h

/-- `push_off` after `old = intr_get(); intr_off();`. -/
def push_off_rest (old : I32) : KProg Unit := do
  let c ← get_cur_cpu
  let nrs ← load (.off_nrs c)
  if nrs = 0 then
    let c ← get_cur_cpu
    store (.intr_ena_before c) old
  let c ← get_cur_cpu
  let nrs ← load (.off_nrs c)
  store (.off_nrs c) (nrs + 1)

theorem push_off_eq :
    push_off = intr_get.bind fun old => intr_off.bind fun _ => push_off_rest old := rfl

theorem does_push_off_rest {Q : Unit → Ghost → Own → Prop} {old : I32} (hs : k.sie = false)
    (hin : inside k.calls = true)
    (h : Q () ((k.setOff (k.off + 1)).setEna (if k.off = 0 then old else k.ena)) m) :
    Does cfg (push_off_rest old) k m Q := by
  unfold push_off_rest
  refine Does.bind (does_get_cur_cpu hs ?_)
  refine Does.bind (does_load_off hs ?_)
  by_cases h0 : k.off = 0
  · rw [if_pos h0] at h
    refine does_if_pos h0 ?_
    refine Does.bind (does_get_cur_cpu hs ?_)
    refine Does.bind (does_store_ena hs ?_)
    refine Does.bind (does_get_cur_cpu (k := k.setEna old) hs ?_)
    refine Does.bind (does_load_off (k := k.setEna old) hs ?_)
    exact does_store_off (k := k.setEna old) hs hin h
  · rw [if_neg h0] at h
    refine does_if_neg h0 ?_
    refine Does.bind (does_get_cur_cpu hs ?_)
    refine Does.bind (does_load_off hs ?_)
    exact does_store_off hs hin h

theorem does_push_off {Q : Unit → Ghost → Own → Prop} (hs : k.sie = false)
    (hin : inside k.calls = true)
    (h : Q () ((k.setOff (k.off + 1)).setEna (if k.off = 0 then 0 else k.ena)) m) :
    Does cfg push_off k m Q := by
  rw [push_off_eq]
  refine Does.bind (does_intr_get hs ?_)
  refine Does.bind (does_intr_off hs ?_)
  exact does_push_off_rest hs hin h

theorem does_push_off_nested {Q : Unit → Ghost → Own → Prop} (hs : k.sie = false)
    (hin : inside k.calls = true) (hoff : k.off ≠ 0) (h : Q () (k.setOff (k.off + 1)) m) :
    Does cfg push_off k m Q := by
  refine does_push_off hs hin ?_
  rw [if_neg hoff]
  exact h

theorem does_intr_on {Q : Unit → Ghost → Own → Prop} (hs : k.sie = false)
    (hi : k.Interruptible) (h : ∀ m', Q () (k.setSie true) m') :
    Does cfg intr_on k m Q := by
  refine Does.bind (does_r_sstatus hs fun _ => ?_)
  refine Does.plain rfl rfl hs fun v hk _ _ => ⟨fun _ => hk ▸ hi, fun r _ => ?_⟩
  have hk' : k.after (.w_sstatus (m.sstatus ||| SSTATUS_SIE)) r = k.setSie true := by
    show k.setSie (sie (m.sstatus ||| SSTATUS_SIE)) = _
    rw [sie_or_SIE]
  rw [hk']
  exact h _

/-- `pop_off` inside another critical section, or after one that interrupts were off before. -/
theorem does_pop_off {Q : Unit → Ghost → Own → Prop} (hs : k.sie = false)
    (hin : inside k.calls = true) (hoff : k.off.slt 1 = false)
    (hena : k.off - 1 = 0 → k.ena = 0) (h : Q () (k.setOff (k.off - 1)) m) :
    Does cfg pop_off k m Q := by
  unfold pop_off
  refine Does.bind (does_get_cur_cpu hs ?_)
  refine Does.bind (does_intr_get hs ?_)
  refine does_if_neg (by decide) ?_
  refine Does.bind (does_load_off hs ?_)
  refine does_if_neg (by rw [hoff]; decide) ?_
  refine Does.bind (does_load_off hs ?_)
  refine Does.bind (does_store_off hs hin ?_)
  refine Does.bind (does_load_off (k := k.setOff (k.off - 1)) hs ?_)
  by_cases h0 : k.off - 1 = 0
  · refine does_if_pos h0 ?_
    refine Does.bind (does_load_ena (k := k.setOff (k.off - 1)) hs ?_)
    refine does_if_neg (fun hn => hn (hena h0)) ?_
    exact Does.pure h
  · exact does_if_neg h0 (Does.pure h)

/-- The last `pop_off`, where interrupts were off before the first `push_off`. -/
theorem does_pop_off_last {Q : Unit → Ghost → Own → Prop} (hs : k.sie = false)
    (hin : inside k.calls = true) (hoff : k.off = 1) (hena : k.ena = 0)
    (h : Q () (k.setOff 0) m) : Does cfg pop_off k m Q := by
  have h0 : k.off - 1 = 0 := by rw [hoff]; rfl
  refine does_pop_off hs hin (by rw [hoff]; decide) (fun _ => hena) ?_
  rw [h0]
  exact h

/-- The last `pop_off`, where interrupts were on before the first `push_off`. -/
theorem does_pop_off_on {Q : Unit → Ghost → Own → Prop} (hs : k.sie = false)
    (hin : inside k.calls = true) (hoff : k.off = 1) (hena : k.ena ≠ 0)
    (hi : (k.setOff 0).Interruptible) (h : ∀ m', Q () ((k.setOff 0).setSie true) m') :
    Does cfg pop_off k m Q := by
  have h0 : k.off - 1 = 0 := by rw [hoff]; rfl
  rw [← h0] at hi h
  unfold pop_off
  refine Does.bind (does_get_cur_cpu hs ?_)
  refine Does.bind (does_intr_get hs ?_)
  refine does_if_neg (by decide) ?_
  refine Does.bind (does_load_off hs ?_)
  refine does_if_neg (by rw [hoff]; decide) ?_
  refine Does.bind (does_load_off hs ?_)
  refine Does.bind (does_store_off hs hin ?_)
  refine Does.bind (does_load_off (k := k.setOff (k.off - 1)) hs ?_)
  refine does_if_pos h0 ?_
  refine Does.bind (does_load_ena (k := k.setOff (k.off - 1)) hs ?_)
  refine does_if_pos hena ?_
  exact does_intr_on hs hi h

/-! ## atomic.h -/

theorem does_amoswap {t : Slot} {Q : I32 → Ghost → Own → Prop} (hp : TestSetPre t k)
    (h0 : Q 0 (k.take t) m) (h1 : ∀ r, r ≠ 0 → Q r k m) :
    Does cfg (amoswap (.isLocked (.gTasks t)) 1) k m Q := by
  refine Does.plain rfl rfl hp.sie fun v hk _ _ => ⟨⟨_, rfl, rfl, hk ▸ hp⟩, fun r _ => ?_⟩
  by_cases hr : r = (0 : I32)
  · subst hr
    exact h0
  · rw [show k.after (.amoswap (.isLocked (.gTasks t)) 1) r = k from if_neg hr]
    exact h1 r hr

/-- `pop_off` and the return of an atomic operation, inside a critical section. -/
theorem does_leave_atomic {f : Fn} {x : I32} {Q : I32 → Ghost → Own → Prop} (hs : k.sie = false)
    (hf : Fn.lockBody f = true) (hin : inside k.calls = true) (hoff : k.off = 1)
    (h : Q x k m) :
    Does cfg (do pop_off; leave f x; pure x) ((k.setCalls (f :: k.calls)).setOff (k.off + 1)) m
      Q := by
  have hslt : (k.off + 1).slt 1 = false := by rw [hoff]; decide
  have hone : k.off + 1 - 1 = k.off := by rw [hoff]; decide
  have hne : ¬ k.off = 0 := by rw [hoff]; decide
  refine Does.bind (does_pop_off (by exact hs) (inside_cons_body _ hf) (by exact hslt) ?_ ?_)
  · intro h0
    exact absurd (hone.symm.trans h0) hne
  refine Does.bind (does_leave_inside (by exact hs)
    ⟨rfl, fun c hc => by subst hc; cases hf⟩ hin (Does.pure ?_))
  show Q x (((k.setCalls (f :: k.calls)).setOff (k.off + 1 - 1)).setCalls k.calls) m
  rw [hone]
  exact h

/-- `TEST_SET` after a `push_off`. -/
theorem does_test_set_i32 {t : Slot} {Q : I32 → Ghost → Own → Prop} (hp : TestSetPre t k)
    (hoff : k.off = 1) (h0 : Q 0 (k.take t) m) (h1 : ∀ r, r ≠ 0 → Q r k m) :
    Does cfg (test_set_i32 (.isLocked (.gTasks t))) k m Q := by
  have hs := hp.sie
  have hin : inside (.test_set (.isLocked (.gTasks t)) :: k.calls) = true :=
    inside_cons_body _ rfl
  have hne : k.off ≠ 0 := by rw [hoff]; decide
  unfold test_set_i32
  refine Does.bind (does_enter hs (by simp) (by simp) (by simp) ?_)
  refine Does.bind (does_push_off_nested (by exact hs) hin (by exact hne) ?_)
  refine Does.bind (does_amoswap ⟨hs, hp.stage, hp.held, hin, hp.run⟩ ?_ fun r hr => ?_)
  · exact does_leave_atomic (k := k.take t) hs rfl hp.inside hoff h0
  · exact does_leave_atomic (k := k) hs rfl hp.inside hoff (h1 r hr)

theorem does_test_set_round {lk : TaskPtr} (hp : LoopPre cfg (.test_set lk) k m) :
    Does cfg (test_set_round lk) k m fun _ k' m' => LoopPost (.test_set lk) k m k' m' := by
  obtain ⟨t, rfl, ht, hoff⟩ := hp
  unfold test_set_round
  refine Does.bind (does_test_set_i32 ht hoff ?_ fun r hr => ?_)
  · exact does_if_neg (by decide) (Does.pure ⟨t, rfl, rfl, rfl⟩)
  · refine does_if_pos hr ?_
    exact does_loop ht.sie ⟨t, rfl, ht, hoff⟩ fun _ k' m' h => h

theorem does_store_round {c : Cell} {x : I32} (hs : k.sie = false) (hw : k.stage ≠ .wait)
    (hp : LoopPre cfg (.store c x) k m) :
    Does cfg (store_round c x) k m fun _ k' m' => LoopPost (.store c x) k m k' m' := by
  unfold store_round
  refine Does.bind (does_silent rfl rfl hs (fun _ _ => trivial) ?_ (fun _ => rfl) fun _ => ?_)
  · intro r
    cases c with
    | isLocked lk => rfl
    | start => exact if_neg fun h => hw h.1
  refine Does.bind (Does.plain rfl rfl hs fun v hk hm _ => ⟨?_, fun r _ => ?_⟩)
  · show ScPre cfg c x v.k v.m
    rw [hk, hm]
    exact hp
  by_cases hr : r = (0 : I32)
  · subst hr
    exact does_if_neg (by simp) (Does.pure ⟨rfl, rfl⟩)
  · have hk' : k.after (.sc c x) r = k := by
      cases c <;> exact if_neg hr
    rw [hk']
    refine does_if_pos hr ?_
    exact does_loop hs hp fun _ k' m' h => h

/-- `ATOMIC_STORE(&lk->isLocked, 0)` after `lk->cpu` is cleared. -/
theorem does_clear_isLocked {t : Slot} {Q : I32 → Ghost → Own → Prop} (hp : ClearPre t k)
    (hoff : k.off = 1) (h : Q 0 k.drop m) :
    Does cfg (atomic_store_i32 (.isLocked (.gTasks t)) 0) k m Q := by
  have hs := hp.sie
  have hin : inside (.atomic_store (.isLocked (.gTasks t)) :: k.calls) = true :=
    inside_cons_body _ rfl
  have hne : k.off ≠ 0 := by rw [hoff]; decide
  unfold atomic_store_i32
  refine Does.bind (does_enter hs (by simp) (by simp) (by simp) ?_)
  refine Does.bind (does_push_off_nested (by exact hs) hin (by exact hne) ?_)
  refine Does.bind (does_loop (by exact hs) (Or.inl ⟨t, rfl, rfl, ?_⟩) fun _ k' m' hpost => ?_)
  · exact ⟨hs, hp.held, hp.own, hin, hp.back, hp.sw, hp.place⟩
  · obtain ⟨rfl, rfl⟩ := hpost
    exact does_leave_atomic (k := k.drop) hs rfl hp.inside hoff h

/-! ## spin_lock.c -/

theorem does_load_is_holding {t : Slot} {Q : LockFn → Ghost → Own → Prop} (hs : k.sie = false)
    (hst : k.stage = .opened) (h : Q .is_holding_lk k m) :
    Does cfg (load (.lk_is_holding (.gTasks t))) k m Q := by
  refine Does.plain rfl rfl hs fun v hk _ _ => ⟨trivial, fun r ha => ?_⟩
  rw [show r = LockFn.is_holding_lk from ha.1 (by rw [hk, hst])]
  exact h

theorem does_load_isLocked {t : Slot} {Q : I32 → Ghost → Own → Prop} (hs : k.sie = false)
    (h : ∀ r, (k.held = some t → r = 1) → Q r k m) :
    Does cfg (load (.cell (.isLocked (.gTasks t)))) k m Q := by
  refine Does.plain rfl rfl hs fun v hk _ _ => ⟨trivial, fun r ha => ?_⟩
  exact h r fun hh => ha.1 (by rw [hk, hh])

theorem does_load_lk_cpu {t : Slot} {Q : Option ℕ → Ghost → Own → Prop} (hs : k.sie = false)
    (hst : k.stage = .opened)
    (h : ∀ r, (r = some k.hart ↔ k.held = some t ∧ k.own = true) → Q r k m) :
    Does cfg (load (.lk_cpu (.gTasks t))) k m Q := by
  refine Does.plain rfl rfl hs fun v hk _ _ => ⟨trivial, fun r ha => ?_⟩
  have hr := ha.1 (by rw [hk, hst])
  rw [hk] at hr
  exact h r hr

/-- `is_holding` answers whether this hart is past the write of `lk->cpu`. -/
theorem does_call_is_holding {t : Slot} {Q : I32 → Ghost → Own → Prop} (hs : k.sie = false)
    (hst : k.stage = .opened)
    (h : Q (if k.held = some t ∧ k.own = true then 1 else 0) k m) :
    Does cfg (call_is_holding (.gTasks t)) k m Q := by
  unfold call_is_holding
  refine Does.of_ok rfl hs fun hok => ?_
  have hleave : ∀ r, Q r k m →
      Does cfg (do leave (.is_holding (.gTasks t)) r; pure r)
        (k.setCalls (.is_holding (.gTasks t) :: k.calls)) m Q := by
    intro r hr
    exact Does.bind (does_leave (by exact hs) ⟨rfl, by simp⟩ hok.balanced (Does.pure hr))
  refine Does.bind (does_load_is_holding hs hst ?_)
  show Does cfg (is_holding_lk (.gTasks t)) k m Q
  unfold is_holding_lk
  refine Does.bind (does_enter hs (by simp) (by simp) (by simp) ?_)
  refine Does.bind (does_load_isLocked (by exact hs) fun r hr => ?_)
  by_cases h0 : r = 0
  · have hn : ¬ (k.held = some t ∧ k.own = true) := by
      rintro ⟨hh, _⟩
      have h1 := hr hh
      rw [h0] at h1
      exact absurd h1 (by decide)
    rw [if_neg hn] at h
    refine does_if_neg (fun hn => hn h0) ?_
    exact hleave 0 h
  · refine does_if_pos h0 ?_
    refine Does.bind (does_get_cur_cpu (by exact hs) ?_)
    refine Does.bind (does_load_lk_cpu (by exact hs) hst fun c hc => ?_)
    replace hc : c = some k.hart ↔ k.held = some t ∧ k.own = true := hc
    have hr1 : (if c = some k.hart then (1 : I32) else 0) =
        if k.held = some t ∧ k.own = true then 1 else 0 := by
      by_cases hc' : c = some k.hart
      · rw [if_pos hc', if_pos (hc.1 hc')]
      · rw [if_neg hc', if_neg fun hn => hc' (hc.2 hn)]
    rw [← hr1] at h
    exact hleave _ h

theorem does_is_holding_own {t : Slot} {Q : I32 → Ghost → Own → Prop} (hs : k.sie = false)
    (hst : k.stage = .opened) (hheld : k.held = some t) (hown : k.own = true) (h : Q 1 k m) :
    Does cfg (call_is_holding (.gTasks t)) k m Q := by
  refine does_call_is_holding hs hst ?_
  rw [if_pos ⟨hheld, hown⟩]
  exact h

theorem does_is_holding_free {t : Slot} {Q : I32 → Ghost → Own → Prop} (hs : k.sie = false)
    (hst : k.stage = .opened) (hheld : k.held = none) (h : Q 0 k m) :
    Does cfg (call_is_holding (.gTasks t)) k m Q := by
  refine does_call_is_holding hs hst ?_
  rw [if_neg (by simp [hheld])]
  exact h

theorem does_store_lk_cpu {t : Slot} {x : Option ℕ} {Q : Unit → Ghost → Own → Prop}
    (hs : k.sie = false) (hst : k.stage = .opened) (hheld : k.held = some t)
    (hin : inside k.calls = true) (hx : x = some k.hart ∨ x = none)
    (h : Q () (k.setOwn x.isSome) m) : Does cfg (store (.lk_cpu (.gTasks t)) x) k m Q := by
  have hb : ¬ k.stage = .boot := by rw [hst]; decide
  refine Does.plain rfl rfl hs fun v hk _ _ => ⟨?_, fun r _ => ?_⟩
  · refine Or.inr ⟨t, rfl, ?_⟩
    rw [hk]
    exact ⟨hheld, hin, hx⟩
  · have hk' : k.after (.store (.lk_cpu (.gTasks t)) x) r = k.setOwn x.isSome := if_neg hb
    have hm : m.after k v.regs (.store (.lk_cpu (.gTasks t)) x) = m := by
      simp [Own.after, Ghost.keeps, hb]
    rw [hk', hm]
    exact h

/-! ### acquire -/

theorem does_intr_get_any {Q : I32 → Ghost → Own → Prop}
    (h : ∀ k' m', Moved k m k' m' → Q (if k.sie = true then 1 else 0) k' m') :
    Does cfg intr_get k m Q := by
  refine Does.bind (Does.plain_any rfl rfl fun v hv hok => ⟨trivial, fun r ha => Does.pure ?_⟩)
  have hsie : sie r = k.sie := by
    obtain ⟨c, e, hk, _⟩ := hv.cases
    rw [show r = v.m.sstatus from ha, hok.sie_eq, hk]
    rfl
  have hr : (if r &&& SSTATUS_SIE ≠ 0 then (1 : I32) else 0) =
      if k.sie = true then 1 else 0 := by
    simp only [and_SIE_ne_zero, hsie]
  rw [hr]
  exact h v.k v.m hv

theorem does_intr_off_any {Q : Unit → Ghost → Own → Prop}
    (h : ∀ k' m', Moved k m k' m' → Q () (k'.setSie false) m') : Does cfg intr_off k m Q := by
  by_cases hs : k.sie = true
  · refine Does.bind (Does.plain_any rfl rfl fun v hv hok => ⟨trivial, fun r ha => ?_⟩)
    refine Does.plain_any rfl rfl fun w hw _ => ⟨fun hx => ?_, fun _ _ => ?_⟩
    · rw [sie_and_not_SIE] at hx
      cases hx
    · have hk' : w.k.after (.w_sstatus (r &&& ~~~SSTATUS_SIE)) () = w.k.setSie false := by
        show w.k.setSie (sie (r &&& ~~~SSTATUS_SIE)) = _
        rw [sie_and_not_SIE]
      rw [hk']
      refine h w.k _ ?_
      obtain ⟨c, e, hk, hc⟩ := (hv.trans hw).cases
      unfold Moved
      rw [if_pos hs]
      exact ⟨c, e, hk, hc⟩
  · have hs' : k.sie = false := by simpa using hs
    refine does_intr_off hs' ?_
    have hk' : k.setSie false = k := by rw [← hs']; rfl
    rw [← hk']
    exact h k m (Moved.refl k m)

/-- The first `push_off`. -/
theorem does_push_off_first {Q : Unit → Ghost → Own → Prop} (hin : inside k.calls = true)
    (hoff : k.off = 0)
    (h : ∀ k' m', Moved k m k' m' → Q ()
      (((k'.setSie false).setOff 1).setEna (if k.sie = true then 1 else 0)) m') :
    Does cfg push_off k m Q := by
  rw [push_off_eq]
  refine Does.bind (does_intr_get_any fun k1 m1 h1 => ?_)
  refine Does.bind (does_intr_off_any fun k2 m2 h2 => ?_)
  obtain ⟨c, e, hk, _⟩ := (h1.trans h2).cases
  have hoff2 : k2.off = 0 := by rw [hk]; exact hoff
  have hin2 : inside k2.calls = true := by rw [hk]; exact hin
  refine does_push_off_rest rfl hin2 ?_
  rw [if_pos (show (k2.setSie false).off = 0 from hoff2)]
  rw [show (k2.setSie false).off + 1 = 1 by rw [show (k2.setSie false).off = 0 from hoff2]; rfl]
  exact h k2 m2 (h1.trans h2)

/-- `acquire` after its `push_off`. -/
def acquire_rest (lk : TaskPtr) : KProg Unit := do
  if (← call_is_holding lk) ≠ 0 then
    PANIC .acquire_is_holding
  loop (.test_set lk)
  smp_mb
  let c ← get_cur_cpu
  store (.lk_cpu lk) (some c)
  leave (.acquire lk) 0

theorem acquire_lk_eq (lk : TaskPtr) :
    acquire_lk lk = (do enter (.acquire lk); push_off; acquire_rest lk) := rfl

theorem does_acquire_rest {t : Slot} {fs : List Fn} {Q : Unit → Ghost → Own → Prop}
    (hs : k.sie = false) (hst : k.stage = .opened) (hoff : k.off = 1) (hheld : k.held = none)
    (hrun : ∀ t', k.run = some t' → t' = t) (hfs : k.calls = .acquire (.gTasks t) :: fs)
    (h : Q () (((k.take t).setOwn true).setCalls fs) m) :
    Does cfg (acquire_rest (.gTasks t)) k m Q := by
  have hin : inside k.calls = true := by rw [hfs]; exact inside_cons_body _ rfl
  unfold acquire_rest
  refine Does.bind (does_is_holding_free hs hst hheld ?_)
  refine does_if_neg (by decide) ?_
  refine Does.bind (does_loop hs ⟨t, rfl, ⟨hs, hst, hheld, hin, hrun⟩, hoff⟩ fun _ k' m' hp => ?_)
  obtain ⟨t', ht, rfl, rfl⟩ := hp
  cases ht
  refine Does.bind (does_silent rfl rfl (by exact hs) (fun _ _ => trivial) (fun _ => rfl)
    (fun _ => rfl) fun _ => ?_)
  refine Does.bind (does_get_cur_cpu (by exact hs) ?_)
  refine Does.bind (does_store_lk_cpu (by exact hs) hst rfl hin (Or.inl rfl) ?_)
  have hhead : k.calls.head? = some (.acquire (.gTasks t)) := by rw [hfs]; rfl
  refine does_leave (by exact hs) ⟨by exact hhead, by simp⟩
    (fun _ => ⟨by exact hoff, fun _ => rfl⟩) ?_
  change Q () (((k.take t).setOwn true).setCalls k.calls.tail) m'
  rw [hfs]
  exact h

theorem does_load_acquire_any {t : Slot} {Q : LockFn → Ghost → Own → Prop}
    (hst : k.stage = .opened) (h : ∀ k' m', Moved k m k' m' → Q .acquire_lk k' m') :
    Does cfg (load (.lk_acquire (.gTasks t))) k m Q := by
  refine Does.plain_any rfl rfl fun v hv _ => ⟨trivial, fun r ha => ?_⟩
  have hst' : v.k.stage = .opened := by
    obtain ⟨c, e, hk, _⟩ := hv.cases
    rw [hk]
    exact hst
  rw [show r = LockFn.acquire_lk from ha.1 hst']
  exact h v.k v.m hv

theorem does_enter_any {f : Fn} {Q : Unit → Ghost → Own → Prop} (hn : ∀ h, f ≠ .kernelvec h)
    (hr : ∀ lk, f ≠ .release lk) (hsc : f ≠ .scheduler)
    (h : ∀ k' m', Moved k m k' m' → Q () (k'.setCalls (f :: k'.calls)) m') :
    Does cfg (enter f) k m Q := by
  refine Does.plain_any rfl rfl fun v hv _ =>
    ⟨⟨hn, fun lk hlk => (hr lk hlk).elim, fun hf => (hsc hf).elim⟩, fun r _ => ?_⟩
  have hk : v.k.after (.enter f) r = v.k.setCalls (f :: v.k.calls) := by
    cases f with
    | release lk => exact (hr lk rfl).elim
    | _ => rfl
  rw [hk]
  exact h v.k v.m hv

theorem does_call_acquire {t : Slot} {Q : Unit → Ghost → Own → Prop} (hst : k.stage = .opened)
    (hoff : k.off = 0) (hheld : k.held = none) (hrun : ∀ t', k.run = some t' → t' = t)
    (h : ∀ k' m', Moved k m k' m' → Q () (k'.locked t (if k.sie = true then 1 else 0)) m') :
    Does cfg (call_acquire (.gTasks t)) k m Q := by
  unfold call_acquire
  refine Does.bind (does_load_acquire_any hst fun k1 m1 h1 => ?_)
  show Does cfg (acquire_lk (.gTasks t)) k1 m1 Q
  rw [acquire_lk_eq]
  refine Does.bind (does_enter_any (by simp) (by simp) (by simp) fun k2 m2 h2 => ?_)
  have h12 := h1.trans h2
  obtain ⟨c, e, rfl, _⟩ := h12.cases
  refine Does.bind (does_push_off_first (inside_cons_body _ rfl) hoff fun k3 m3 h3 => ?_)
  have h13 := h12.trans h3.of_setCalls
  obtain ⟨c3, e3, rfl, _⟩ := h3.cases
  exact does_acquire_rest rfl hst rfl hheld hrun rfl (h _ _ h13)

/-! ### release -/

theorem does_enter_release {t : Slot} {Q : Unit → Ghost → Own → Prop} (hs : k.sie = false)
    (hheld : k.held = some t) (hown : k.own = true)
    (h : Q () { k with calls := .release (.gTasks t) :: k.calls, back := none } m) :
    Does cfg (enter (.release (.gTasks t))) k m Q := by
  refine Does.plain rfl rfl hs fun v hk _ _ => ⟨⟨by simp, fun lk hlk => ?_, by simp⟩, fun _ _ => h⟩
  cases hlk
  rw [hk]
  exact ⟨t, rfl, hheld, hown⟩

theorem does_load_release {t : Slot} {Q : LockFn → Ghost → Own → Prop} (hs : k.sie = false)
    (hst : k.stage = .opened) (h : Q .release_lk k m) :
    Does cfg (load (.lk_release (.gTasks t))) k m Q := by
  refine Does.plain rfl rfl hs fun v hk _ _ => ⟨trivial, fun r ha => ?_⟩
  rw [show r = LockFn.release_lk from ha.1 (by rw [hk, hst])]
  exact h

/-- What a hart must have to release the lock of `t`. -/
structure ReleasePre (t : Slot) (k : Ghost) : Prop where
  sie : k.sie = false
  stage : k.stage = .opened
  off : k.off = 1
  held : k.held = some t
  own : k.own = true
  sw : k.sw = none
  place : (k.st = .RUNNABLE ∧ k.task = none) ∨ k.run = none ∨ (k.st = .RUNNING ∧ k.stk = .task t)

/-- `release`, up to its last `pop_off`. -/
theorem does_release_lk {t : Slot} {Q : Unit → Ghost → Own → Prop} (hp : ReleasePre t k)
    (h : Does cfg (do pop_off; leave (.release (.gTasks t)) 0)
      ((k.unlocked.setOff 1).setCalls (.release (.gTasks t) :: k.calls)) m Q) :
    Does cfg (release_lk (.gTasks t)) k m Q := by
  have hs := hp.sie
  have hin : inside (.release (.gTasks t) :: k.calls) = true := inside_cons_body _ rfl
  unfold release_lk
  refine Does.bind (does_enter_release hs hp.held hp.own ?_)
  refine Does.bind (does_is_holding_own (by exact hs) hp.stage hp.held hp.own ?_)
  refine does_if_neg (by decide) ?_
  refine Does.bind (does_store_lk_cpu (by exact hs) hp.stage hp.held hin (Or.inr rfl) ?_)
  refine Does.bind (does_silent rfl rfl (by exact hs) (fun _ _ => trivial) (fun _ => rfl)
    (fun _ => rfl) fun _ => ?_)
  refine Does.bind (does_clear_isLocked ⟨hs, hp.held, rfl, hin, rfl, hp.sw, hp.place⟩ hp.off ?_)
  have hk : (k.unlocked.setOff 1).setCalls (.release (.gTasks t) :: k.calls) =
      Ghost.drop (Ghost.setOwn { k with calls := .release (.gTasks t) :: k.calls, back := none }
        false) := by
    rw [← hp.off]
    rfl
  rw [hk] at h
  exact h

/-- `release` where interrupts were off before `acquire`. -/
theorem does_call_release {t : Slot} {Q : Unit → Ghost → Own → Prop} (hp : ReleasePre t k)
    (hena : k.ena = 0) (h : Q () k.unlocked m) : Does cfg (call_release (.gTasks t)) k m Q := by
  have hs := hp.sie
  unfold call_release
  refine Does.bind (does_load_release hs hp.stage ?_)
  show Does cfg (release_lk (.gTasks t)) k m Q
  refine does_release_lk hp ?_
  refine Does.bind (does_pop_off_last (by exact hs) (inside_cons_body _ rfl) rfl hena ?_)
  exact does_leave (by exact hs) ⟨rfl, by simp⟩ (fun _ => ⟨rfl, fun hn => by cases hn⟩) h

/-- `release` where interrupts come on again. -/
theorem does_call_release_on {t : Slot} {Q : Unit → Ghost → Own → Prop} (hp : ReleasePre t k)
    (hena : k.ena ≠ 0) (hi : k.unlocked.Interruptible)
    (h : ∀ k' m' m'', Moved (k.unlocked.setSie true) m' k' m'' → Q () k' m'') :
    Does cfg (call_release (.gTasks t)) k m Q := by
  have hs := hp.sie
  unfold call_release
  refine Does.bind (does_load_release hs hp.stage ?_)
  show Does cfg (release_lk (.gTasks t)) k m Q
  refine does_release_lk hp ?_
  refine Does.bind (does_pop_off_on (by exact hs) (inside_cons_body _ rfl) rfl hena ?_ fun m' => ?_)
  · exact ⟨rfl, rfl, hi.stage, hi.stvec, hi.sw, hi.trap, hi.place⟩
  · refine Does.plain_any rfl rfl fun v hv _ => ?_
    have hv' : Moved ((k.unlocked.setSie true).setCalls (.release (.gTasks t) :: k.calls)) m'
      v.k v.m := hv
    obtain ⟨c, e, hk, _⟩ := hv'.cases
    have hm := hv'.of_setCalls
    rw [hk] at hm
    refine ⟨⟨⟨by rw [hk]; rfl, by simp⟩, fun _ => ?_⟩, fun _ _ => ?_⟩
    · rw [hk]
      exact ⟨rfl, fun hn => by cases hn⟩
    · rw [hk]
      exact h _ _ _ hm

end GQuuuuuunix.Proof
