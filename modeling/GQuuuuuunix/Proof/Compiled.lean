import GQuuuuuunix.Proof.Logic

/-! # Reasoning about compiled C

Compiled C moves the registers between any two operations, so a specification of a C function is
about the record of its hart and its own memory only: `Does cfg p k m Q`. -/

namespace GQuuuuuunix.Proof
open Lib Kernel
set_option autoImplicit false

/-- From the record `k` and the memory `m`, whatever the registers, `p` is safe and ends in
`Q`. -/
def Does (cfg : Config) {α : Type} (p : KProg α) (k : Ghost) (m : Own)
    (Q : α → Ghost → Own → Prop) : Prop :=
  ∀ v : View, v.k = k → v.m = m → wp (rules cfg) p (fun a w => Q a w.k w.m) v

variable {cfg : Config} {α β : Type} {k : Ghost} {m : Own} {Q : α → Ghost → Own → Prop}

theorem Does.safe {c : Code} {v : View} (h : Does cfg c v.k v.m fun _ _ _ => False) :
    Safe cfg c v := h v rfl rfl

theorem Does.pure {a : α} (h : Q a k m) : Does cfg (Pure.pure a) k m Q := by
  intro v hk hm
  show Q a v.k v.m
  rw [hk, hm]
  exact h

theorem Does.bind {p : KProg β} {f : β → KProg α}
    (h : Does cfg p k m fun b k' m' => Does cfg (f b) k' m' Q) : Does cfg (p >>= f) k m Q := by
  intro v hk hm
  rw [Prog.bind_eq, wp_bind]
  exact wp_mono (rules_mono cfg) (fun b w hw => hw w rfl rfl) (h v hk hm)

theorem Does.mono {p : KProg α} {Q' : α → Ghost → Own → Prop} (hp : Does cfg p k m Q')
    (h : ∀ a k' m', Q' a k' m' → Q a k' m') : Does cfg p k m Q := by
  intro v hk hm
  exact wp_mono (rules_mono cfg) (fun a w hw => h a w.k w.m hw) (hp v hk hm)

theorem does_if_pos {c : Prop} [Decidable c] {p q : KProg α} (hc : c) (h : Does cfg p k m Q) :
    Does cfg (if c then p else q) k m Q := by
  rw [if_pos hc]
  exact h

theorem does_if_neg {c : Prop} [Decidable c] {p q : KProg α} (hc : ¬ c) (h : Does cfg q k m Q) :
    Does cfg (if c then p else q) k m Q := by
  rw [if_neg hc]
  exact h

/-! ## One operation -/

section
variable {o : Op} {Q : o.Ret → Ghost → Own → Prop}

/-- The rule when nothing is known of the interrupts. -/
theorem Does.op_any (ho : o.isAsm = false)
    (h : ∀ v : View, Moved k m v.k v.m → v.Ok cfg →
      Pre cfg o v ∧ ∀ r w, Post cfg o v r w → w.Ok cfg → Q r w.k w.m) :
    Does cfg (one o) k m Q := by
  intro v hk hm v' hi hok
  rw [ho, if_neg (by decide), Interf, hk, hm] at hi
  exact h v' hi hok

theorem Does.op (ho : o.isAsm = false) (hs : k.sie = false)
    (h : ∀ v : View, v.k = k → v.m = m → v.Ok cfg →
      Pre cfg o v ∧ ∀ r w, Post cfg o v r w → w.Ok cfg → Q r w.k w.m) :
    Does cfg (one o) k m Q :=
  Does.op_any ho fun v hv => h v (hv.of_sie hs).1 (hv.of_sie hs).2

end

/-- The record is consistent whenever an operation is due. -/
theorem Does.of_ok {o : Op} {f : o.Ret → KProg α} (ho : o.isAsm = false) (hs : k.sie = false)
    (h : k.Ok cfg.harts → Does cfg (one o >>= f) k m Q) : Does cfg (one o >>= f) k m Q := by
  intro v hk hm v' hi hok
  have hv := hi
  rw [ho, if_neg (by decide)] at hv
  have hk' : v'.k = k := by rw [(hv.of_sie (by rw [hk, hs])).1, hk]
  exact h (hk' ▸ hok.toOk) v hk hm v' hi hok

/-- The operations that take one step and whose answer the hart's own state bounds. -/
def Op.plain : Op → Bool
  | .loop _ | .call_switch_to _ _ _ | .ret _ _ | .load (.state _) => false
  | _ => true

theorem post_plain {o : Op} (hp : Op.plain o = true) {v w : View} {r : o.Ret} :
    Post cfg o v r w ↔ Ans cfg.layout o v r ∧ w = v.after o r := by
  unfold Post
  split
  · cases hp
  · cases hp
  · cases hp
  · cases hp
  · rfl

section
variable {o : Op} {Q : o.Ret → Ghost → Own → Prop}

theorem Does.plain (ho : o.isAsm = false) (hpl : Op.plain o = true) (hs : k.sie = false)
    (h : ∀ v : View, v.k = k → v.m = m → v.Ok cfg → Pre cfg o v ∧
      ∀ r, Ans cfg.layout o v r → Q r (k.after o r) (m.after k v.regs o)) :
    Does cfg (one o) k m Q := by
  refine Does.op ho hs fun v hk hm hok => ⟨(h v hk hm hok).1, fun r w hw _ => ?_⟩
  obtain ⟨ha, rfl⟩ := (post_plain hpl).1 hw
  have hd := (h v hk hm hok).2 r ha
  rw [← hk, ← hm] at hd
  exact hd

theorem Does.plain_any (ho : o.isAsm = false) (hpl : Op.plain o = true)
    (h : ∀ v : View, Moved k m v.k v.m → v.Ok cfg → Pre cfg o v ∧
      ∀ r, Ans cfg.layout o v r → Q r (v.k.after o r) (v.m.after v.k v.regs o)) :
    Does cfg (one o) k m Q := by
  refine Does.op_any ho fun v hv hok => ⟨(h v hv hok).1, fun r w hw _ => ?_⟩
  obtain ⟨ha, rfl⟩ := (post_plain hpl).1 hw
  exact (h v hv hok).2 r ha

end

/-! ## Loops -/

theorem does_loop {l : Loop} {Q : l.Ret → Ghost → Own → Prop} (hs : k.sie = false)
    (hp : LoopPre cfg l k m) (h : ∀ r k' m', LoopPost l k m k' m' → Q r k' m') :
    Does cfg (loop l) k m Q := by
  refine Does.op rfl hs fun v hk hm _ => ?_
  subst hk hm
  exact ⟨hp, fun r w hw _ => h r w.k w.m hw⟩

theorem does_loop_any {l : Loop} {Q : l.Ret → Ghost → Own → Prop}
    (hp : ∀ k' m', Moved k m k' m' → LoopPre cfg l k' m')
    (h : ∀ r k' m' k'' m'', Moved k m k' m' → LoopPost l k' m' k'' m'' → Q r k'' m'') :
    Does cfg (loop l) k m Q :=
  Does.op_any rfl fun v hv _ => ⟨hp v.k v.m hv, fun r w hw _ => h r v.k v.m w.k w.m hv hw⟩

/-! ## The operations of the C functions, with interrupts off -/

theorem does_r_tp {Q : U64 → Ghost → Own → Prop} (hs : k.sie = false)
    (h : Q (BitVec.ofNat 64 k.hart) k m) : Does cfg r_tp k m Q := by
  refine Does.plain rfl rfl hs fun v hk _ _ => ⟨trivial, fun r ha => ?_⟩
  rw [show r = BitVec.ofNat 64 v.k.hart from ha, hk]
  exact h

theorem does_r_sstatus {Q : U64 → Ghost → Own → Prop} (hs : k.sie = false)
    (h : sie m.sstatus = false → Q m.sstatus k m) : Does cfg r_sstatus k m Q := by
  refine Does.plain rfl rfl hs fun v hk hm hok => ⟨trivial, fun r ha => ?_⟩
  have hsie := hok.sie_eq
  rw [hk, hm, hs] at hsie
  rw [show r = v.m.sstatus from ha, hm]
  exact h hsie

theorem does_r_sepc {Q : U64 → Ghost → Own → Prop} (hs : k.sie = false)
    (h : Q m.sepc k m) : Does cfg r_sepc k m Q := by
  refine Does.plain rfl rfl hs fun v hk hm _ => ⟨trivial, fun r ha => ?_⟩
  rw [show r = v.m.sepc from ha, hm]
  exact h

theorem does_r_scause {Q : U64 → Ghost → Own → Prop} (hs : k.sie = false)
    (h : Q m.scause k m) : Does cfg r_scause k m Q := by
  refine Does.plain rfl rfl hs fun v hk hm _ => ⟨trivial, fun r ha => ?_⟩
  rw [show r = v.m.scause from ha, hm]
  exact h

theorem does_load_off {Q : I32 → Ghost → Own → Prop} (hs : k.sie = false) (h : Q k.off k m) :
    Does cfg (load (.off_nrs k.hart)) k m Q := by
  refine Does.plain rfl rfl hs fun v hk _ _ => ⟨trivial, fun r ha => ?_⟩
  rw [show r = v.k.off from ha.1 (by rw [hk]), hk]
  exact h

theorem does_load_ena {Q : I32 → Ghost → Own → Prop} (hs : k.sie = false) (h : Q k.ena k m) :
    Does cfg (load (.intr_ena_before k.hart)) k m Q := by
  refine Does.plain rfl rfl hs fun v hk _ _ => ⟨trivial, fun r ha => ?_⟩
  rw [show r = v.k.ena from ha.1 (by rw [hk]), hk]
  exact h

theorem does_load_cpu_task {Q : Option TaskPtr → Ghost → Own → Prop} (hs : k.sie = false)
    (h : Q (k.task.map .gTasks) k m) : Does cfg (load (.cpu_task k.hart)) k m Q := by
  refine Does.plain rfl rfl hs fun v hk _ _ => ⟨trivial, fun r ha => ?_⟩
  rw [show r = v.k.task.map .gTasks from ha.1 (by rw [hk]), hk]
  exact h

theorem does_store_off {x : I32} {Q : Unit → Ghost → Own → Prop} (hs : k.sie = false)
    (hin : inside k.calls = true) (h : Q () (k.setOff x) m) :
    Does cfg (store (.off_nrs k.hart) x) k m Q := by
  refine Does.plain rfl rfl hs fun v hk _ _ => ⟨?_, fun r _ => ?_⟩
  · exact ⟨by rw [hk], by rw [hk, hs], by rw [hk, hin]⟩
  · have hm : m.after k v.regs (.store (.off_nrs k.hart) x) = m := by
      simp [Own.after, Ghost.keeps, Loc.boot]
    rw [hm]
    exact h

theorem does_store_ena {x : I32} {Q : Unit → Ghost → Own → Prop} (hs : k.sie = false)
    (h : Q () (k.setEna x) m) : Does cfg (store (.intr_ena_before k.hart) x) k m Q := by
  refine Does.plain rfl rfl hs fun v hk _ _ => ⟨?_, fun r _ => ?_⟩
  · show k.hart = v.k.hart
    rw [hk]
  · have hm : m.after k v.regs (.store (.intr_ena_before k.hart) x) = m := by
      simp [Own.after, Ghost.keeps, Loc.boot]
    rw [hm]
    exact h

/-- Any operation that asks nothing of the record and leaves it as it is. -/
theorem does_silent {o : Op} {Q : o.Ret → Ghost → Own → Prop} (ho : o.isAsm = false)
    (hpl : Op.plain o = true) (hs : k.sie = false) (hp : ∀ v : View, v.k = k → Pre cfg o v)
    (hk : ∀ r, k.after o r = k) (hm : ∀ r, m.after k r o = m) (h : ∀ r, Q r k m) :
    Does cfg (one o) k m Q := by
  refine Does.plain ho hpl hs fun v hv _ _ => ⟨hp v hv, fun r _ => ?_⟩
  rw [hk, hm]
  exact h r

theorem does_enter {f : Fn} {Q : Unit → Ghost → Own → Prop} (hs : k.sie = false)
    (hn : ∀ h, f ≠ .kernelvec h) (hr : ∀ lk, f ≠ .release lk)
    (hsc : f = .scheduler → k.stage = .opened)
    (h : Q () (k.setCalls (f :: k.calls)) m) : Does cfg (enter f) k m Q := by
  refine Does.plain rfl rfl hs fun v hv _ _ =>
    ⟨⟨hn, fun lk hlk => (hr lk hlk).elim, fun hf => ?_⟩, fun r _ => ?_⟩
  · rw [hv]
    exact hsc hf
  have hk : k.after (.enter f) r = k.setCalls (f :: k.calls) := by
    cases f with
    | release lk => exact (hr lk rfl).elim
    | _ => rfl
  rw [hk]
  exact h

theorem does_leave {f : Fn} {x : I32} {Q : Unit → Ghost → Own → Prop} (hs : k.sie = false)
    (hf : k.calls.head? = some f ∧ ∀ c, f ≠ .kernelvec c)
    (hb : inside k.calls.tail = false →
      k.off = (if k.held.isSome then 1 else 0) ∧ (k.held.isSome → k.own = true))
    (h : Q () (k.setCalls k.calls.tail) m) : Does cfg (leave f x) k m Q := by
  refine Does.plain rfl rfl hs fun v hk _ _ => ⟨?_, fun r _ => h⟩
  subst hk
  exact ⟨hf, hb⟩

/-- Leaving a function called inside `acquire`, `release` or an atomic operation. -/
theorem does_leave_inside {f : Fn} {x : I32} {Q : Unit → Ghost → Own → Prop}
    (hs : k.sie = false) (hf : k.calls.head? = some f ∧ ∀ c, f ≠ .kernelvec c)
    (hin : inside k.calls.tail = true)
    (h : Q () (k.setCalls k.calls.tail) m) : Does cfg (leave f x) k m Q :=
  does_leave hs hf (fun hb => by rw [hin] at hb; cases hb) h

end GQuuuuuunix.Proof
