import GQuuuuuunix.Proof.SchedChecks
import GQuuuuuunix.Proof.History

/-! # The steps of a hart among others

What a hart knows stays so, by its own steps and by those of the others. -/

namespace GQuuuuuunix.Proof
open Lib Kernel
set_option autoImplicit false

variable {cfg : Config} {L : Layout} {h : ℕ} {pan : Bool} {A : Op → Nest → Prop} {v : Nest}
  {x y : TakenState} {σ' : State}

/-! ## What is known of the machine -/

/-- What hart `h` knows of memory is so. -/
structure MemKnows (h : ℕ) (v : Nest) (m : Mem) : Prop where
  off : m (.off_nrs h) = v.off
  task : m (.cpu_task h) = v.task
  locked : ∀ p, v.locks.held p = true → m (.cell (.isLocked p)) ≠ (0 : I32)
  own : ∀ p, m (.lk_cpu p) = some h ↔ v.locks.own p = true
  ok : v.locks.Ok
  acquire : ∀ p, m (.lk_acquire p) = LockFn.acquire_lk
  release : ∀ p, m (.lk_release p) = LockFn.release_lk
  is_holding : ∀ p, m (.lk_is_holding p) = LockFn.is_holding_lk
  st : ∀ p, v.locks.held p = true → ∀ s, v.st p = some s → m (.state p) = s
  context : ∀ p, v.frame = some p → ∀ j, m (.cpu_context h j) = p.regs j

structure Knows (L : Layout) (h : ℕ) (v : Nest) (x : TakenState) : Prop where
  mem : MemKnows h v x.σ.mem
  taken : x.taken = v.locks.held
  tp : (x.σ.harts h).regs .tp = BitVec.ofNat 64 h
  masked : v.masked = true → sie (x.σ.harts h).sstatus = false
  parked : ∀ p, v.frame = some p → x.σ.parked (p.regs 1) = some p
  apart : v.apart = true → ∀ p, v.frame = some p →
    L.stackOf ((x.σ.harts h).regs .sp) ≠ L.stackOf (p.regs 1)
  regs : ∀ r y, v.regs r = some y → (x.σ.harts h).regs r = y

theorem MemKnows.known (hm : MemKnows h v x.σ.mem) (l : Loc) : v.Known h l (x.σ.mem l) := by
  cases l with
  | off_nrs c =>
    rintro rfl
    exact hm.off
  | cpu_task c =>
    rintro rfl
    exact hm.task
  | state p => exact hm.st p
  | cell c =>
    cases c with
    | isLocked p => exact hm.locked p
    | start => trivial
  | lk_cpu p => exact hm.own p
  | lk_acquire p => exact hm.acquire p
  | lk_release p => exact hm.release p
  | lk_is_holding p => exact hm.is_holding p
  | _ => trivial

theorem Knows.answers (hf : Knows L h v x) {fail : Bool} {o : Op} {r : o.Ret}
    (hs : Op.simple o = true) (ha : Answer x.σ h fail o r) : v.Ans h o r := by
  cases o with
  | load l =>
    obtain rfl : r = x.σ.mem l := ha
    exact hf.mem.known l
  | r_tp => exact Eq.trans ha hf.tp
  | r_sstatus =>
    obtain rfl : r = (x.σ.harts h).sstatus := ha
    exact hf.masked
  | panic p => cases hs
  | _ => trivial

/-! ## The steps of the others -/

theorem Knows.others (hf : Knows L h v x) (hb : Code.isC (x.σ.harts h).code = true → v.Blank)
    (hm : Meanwhile L h x.taken x.σ σ') : Knows L h v ⟨σ', x.taken⟩ := by
  have hmem := hf.mem
  have htaken : ∀ p, v.locks.held p = true → x.taken p = true := fun p hp => by rwa [hf.taken]
  refine ⟨⟨?_, ?_, fun p hp => ?_, fun p => ?_, hmem.ok, fun p => ?_, fun p => ?_, fun p => ?_,
    fun p hp s hs => ?_, fun p hp j => ?_⟩, hf.taken, ?_, fun hv => ?_, fun p hp => ?_,
    fun ha p hp => ?_, fun r y hr => ?_⟩
  · exact hm.off_nrs.trans hmem.off
  · exact hm.cpu_task.trans hmem.task
  · rw [hm.isLocked p (htaken p hp)]
    exact hmem.locked p hp
  · exact (hm.lk_cpu p).trans (hmem.own p)
  · exact (hm.acquire p).trans (hmem.acquire p)
  · exact (hm.release p).trans (hmem.release p)
  · exact (hm.is_holding p).trans (hmem.is_holding p)
  · exact (hm.state p (htaken p hp)).trans (hmem.st p hp s hs)
  · exact (hm.cpu_context j).trans (hmem.context p hp j)
  · exact hm.tp.trans hf.tp
  · rw [hm.sstatus]
    exact hf.masked hv
  · have hpark := hm.parked
    rw [hmem.context p hp 1] at hpark
    exact hpark.trans (hf.parked p hp)
  · rw [hm.sp]
    exact hf.apart ha p hp
  · cases hc : Code.isC (x.σ.harts h).code with
    | true =>
      rw [hb hc r] at hr
      cases hr
    | false =>
      rw [hm.regs hc]
      exact hf.regs r y hr

/-! ## The steps of the hart -/

theorem MemKnows.store {m : Mem} (hm : MemKnows h v m) {l : Loc} {y : l.Ty}
    (hp : v.Pre h pan (.store l y)) :
    MemKnows h (v.after h (.store l y) ()) (m.set l y) := by
  cases l with
  | off_nrs c =>
    obtain rfl : c = h := hp
    exact { hm with off := Mem.set_self m (.off_nrs c) y }
  | intr_ena_before c => exact { hm with }
  | cpu_task c =>
    obtain rfl : c = h := hp
    exact { hm with task := Mem.set_self m (.cpu_task c) y }
  | state p =>
    refine { hm with st := fun q hq s hs => ?_ }
    change Function.update v.st p (some y) q = some s at hs
    by_cases hqp : q = p
    · subst hqp
      rw [Function.update_self] at hs
      exact (Mem.set_self m (.state q) y).trans (Option.some.inj hs)
    · rw [Function.update_of_ne hqp] at hs
      exact (Mem.set_ne m y (by simpa using hqp)).trans (hm.st q hq s hs)
  | lk_cpu p =>
    obtain ⟨hheld, hy⟩ := hp
    refine { hm with own := fun q => ?_, ok := fun q hq => ?_ }
    · by_cases hqp : q = p
      · subst hqp
        show m.set (.lk_cpu q) y (.lk_cpu q) = some h ↔
          Function.update v.locks.own q (Option.isSome y) q = true
        rw [Mem.set_self, Function.update_self]
        rcases hy with rfl | rfl <;> simp
      · show m.set (.lk_cpu p) y (.lk_cpu q) = some h ↔
          Function.update v.locks.own p (Option.isSome y) q = true
        rw [Mem.set_ne m y (by simpa using hqp), Function.update_of_ne hqp]
        exact hm.own q
    · by_cases hqp : q = p
      · rw [hqp]
        exact hheld
      · refine hm.ok q ?_
        have hq' : Function.update v.locks.own p (Option.isSome y) q = true := hq
        rwa [Function.update_of_ne hqp] at hq'
  | _ => exact hp.elim

theorem take_held {p q : TaskPtr} (hq : (v.take p).locks.held q = true) :
    q = p ∨ v.locks.held q = true := by
  by_cases hqp : q = p
  · exact Or.inl hqp
  · right
    have hq' : Function.update v.locks.held p true q = true := hq
    rwa [Function.update_of_ne hqp] at hq'

theorem MemKnows.locked_swap {m : Mem} (hm : MemKnows h v m) {p q : TaskPtr}
    (hq : q = p ∨ v.locks.held q = true) :
    m.set (.cell (.isLocked p)) (1 : I32) (.cell (.isLocked q)) ≠ (0 : I32) := by
  by_cases hqp : q = p
  · rw [hqp, Mem.set_self]
    exact (show (1 : I32) ≠ 0 by decide)
  · rw [Mem.set_ne m _ (by simpa using hqp)]
    exact hm.locked q (hq.resolve_left hqp)

/-- A `TEST_SET` of a lock that is not free. -/
theorem MemKnows.spin {m : Mem} (hm : MemKnows h v m) {p : TaskPtr} :
    MemKnows h v (m.set (.cell (.isLocked p)) (1 : I32)) :=
  { hm with locked := fun _ hq => hm.locked_swap (Or.inr hq) }

/-- A `TEST_SET` that takes a lock. -/
theorem MemKnows.take {m : Mem} (hm : MemKnows h v m) {p : TaskPtr} :
    MemKnows h (v.take p) (m.set (.cell (.isLocked p)) (1 : I32)) := by
  refine { hm with
    locked := fun q hq => hm.locked_swap (take_held hq)
    ok := fun q hq => ?_
    st := fun q hq s hs => ?_ }
  · show Function.update v.locks.held p true q = true
    by_cases hqp : q = p
    · rw [hqp, Function.update_self]
    · rw [Function.update_of_ne hqp]
      exact hm.ok q hq
  · change Function.update v.st p none q = some s at hs
    by_cases hqp : q = p
    · rw [hqp, Function.update_self] at hs
      cases hs
    · rw [Function.update_of_ne hqp] at hs
      exact hm.st q ((take_held hq).resolve_left hqp) s hs

theorem drop_held {p q : TaskPtr} (hq : (v.locks.drop p).held q = true) :
    q ≠ p ∧ v.locks.held q = true := by
  have hq' : Function.update v.locks.held p false q = true := hq
  by_cases hqp : q = p
  · rw [hqp, Function.update_self] at hq'
    cases hq'
  · rw [Function.update_of_ne hqp] at hq'
    exact ⟨hqp, hq'⟩

/-- The store that clears a lock. -/
theorem MemKnows.clear {m : Mem} (hm : MemKnows h v m) {p : TaskPtr}
    (hown : v.locks.own p = false) :
    MemKnows h { v with locks := v.locks.drop p } (m.set (.cell (.isLocked p)) (0 : I32)) := by
  refine { hm with
    locked := fun q hq => ?_
    ok := fun q hq => ?_
    st := fun q hq => hm.st q (drop_held hq).2 }
  · obtain ⟨hqp, hq'⟩ := drop_held hq
    show m.set (.cell (.isLocked p)) (0 : I32) (.cell (.isLocked q)) ≠ (0 : I32)
    rw [Mem.set_ne m _ (by simpa using hqp)]
    exact hm.locked q hq'
  · show Function.update v.locks.held p false q = true
    have hqp : q ≠ p := by
      rintro rfl
      rw [show v.locks.own q = true from hq] at hown
      cases hown
    rw [Function.update_of_ne hqp]
    exact hm.ok q hq

theorem step_taken {fail : Bool} {o : Op} (hn : x.σ.next h = some o)
    (ha : ∀ c y, o ≠ .amoswap c y) (hs : ∀ c y, o ≠ .sc c y) :
    (x.step h fail σ').taken = x.taken := by
  funext p
  have hp : performed (x.σ, .hart h fail) = some (h, o) := by
    show (x.σ.next h).map _ = _
    rw [hn]
    rfl
  have ht : lockTurn h p (x.σ, .hart h fail) = none := by
    refine lockTurn_eq_none (fun c y hc => ?_) fun c y hc => ?_
    · rw [hp] at hc
      exact ha c y (Prod.mk.inj (Option.some.inj hc)).2
    · rw [hp] at hc
      exact hs c y (Prod.mk.inj (Option.some.inj hc)).2
  show (lockTurn h p (x.σ, .hart h fail)).getD (x.taken p) = x.taken p
  rw [ht]
  rfl

theorem step_taken_amoswap (fail : Bool) (σ' : State) {p : TaskPtr}
    (hn : x.σ.next h = some (.amoswap (.isLocked p) 1)) :
    (x.step h fail σ').taken =
      if x.σ.mem (.cell (.isLocked p)) = (0 : I32) then Function.update x.taken p true
      else x.taken := by
  funext q
  show (lockTurn h q (x.σ, .hart h fail)).getD (x.taken q) = _
  rw [lockTurn_amoswap fail hn]
  by_cases h0 : x.σ.mem (.cell (.isLocked p)) = (0 : I32)
  · rw [if_pos h0]
    by_cases hq : q = p
    · rw [hq, if_pos ⟨rfl, h0⟩, Function.update_self]
      rfl
    · rw [if_neg fun hc => hq (Cell.isLocked.inj hc.1).symm, Function.update_of_ne hq]
      rfl
  · rw [if_neg h0, if_neg fun hc => h0 hc.2]
    rfl

theorem step_taken_sc (σ' : State) {fail : Bool} {p : TaskPtr} {r : I32}
    (hn : x.σ.next h = some (.sc (.isLocked p) 0))
    (hr : r = 0 ↔ x.σ.sc_succeeds h fail (.isLocked p) = true) :
    (x.step h fail σ').taken = if r = 0 then Function.update x.taken p false else x.taken := by
  funext q
  show (lockTurn h q (x.σ, .hart h fail)).getD (x.taken q) = _
  rw [lockTurn_sc fail hn]
  by_cases h0 : r = 0
  · rw [if_pos h0]
    by_cases hq : q = p
    · rw [hq, if_pos ⟨rfl, hr.1 h0⟩, Function.update_self]
      rfl
    · rw [if_neg fun hc => hq (Cell.isLocked.inj hc.1).symm, Function.update_of_ne hq]
      rfl
  · rw [if_neg h0, if_neg fun hc => h0 (hr.2 hc.2)]
    rfl

/-- The part of `Knows` that is not about memory. -/
theorem Knows.of_mem (hf : Knows L h v x) {w : Nest} (hm : MemKnows h w y.σ.mem)
    (htaken : y.taken = w.locks.held) (hparked : y.σ.parked = x.σ.parked)
    (hregs : (y.σ.harts h).regs = (x.σ.harts h).regs)
    (hmasked : w.masked = true → sie (y.σ.harts h).sstatus = false)
    (hw : w.apart = v.apart ∧ w.frame = v.frame ∧ w.regs = v.regs) : Knows L h w y := by
  obtain ⟨ha, hfr, hr⟩ := hw
  refine ⟨hm, htaken, by rw [hregs]; exact hf.tp, hmasked, ?_, ?_, ?_⟩
  · rw [hfr, hparked]
    exact hf.parked
  · rw [ha, hfr, hregs]
    exact hf.apart
  · rw [hr, hregs]
    exact hf.regs

section
variable {fail : Bool} {c : Code}

/-- A `TEST_SET` takes the lock if it is free, and changes nothing that is known if not. -/
theorem Knows.amoswap (hf : Knows L h v x) {p : TaskPtr} {r : I32}
    (hn : x.σ.next h = some (.amoswap (.isLocked p) 1))
    (hx : Performed x.σ h fail (.amoswap (.isLocked p) 1) r c σ') :
    Knows L h (v.after h (.amoswap (.isLocked p) 1) r) (x.step h fail σ') := by
  obtain rfl : r = x.σ.mem (.cell (.isLocked p)) := hx.answer
  have hhart := hx.hart_eq
  have hmem : σ'.mem = x.σ.mem.set (.cell (.isLocked p)) (1 : I32) := hx.mem
  have hregs : (σ'.harts h).regs = (x.σ.harts h).regs := by rw [hhart]; rfl
  have hmasked : v.masked = true → sie (σ'.harts h).sstatus = false := by
    rw [hhart]
    exact hf.masked
  have htaken := step_taken_amoswap (x := x) fail σ' hn
  by_cases h0 : x.σ.mem (.cell (.isLocked p)) = (0 : I32)
  · have hm : MemKnows h (v.take p) σ'.mem := by
      rw [hmem]
      exact hf.mem.take
    rw [if_pos h0, hf.taken] at htaken
    rw [show v.after h (.amoswap (.isLocked p) 1) _ = v.take p from if_pos h0]
    exact hf.of_mem hm htaken hx.parked hregs hmasked ⟨rfl, rfl, rfl⟩
  · have hm : MemKnows h v σ'.mem := by
      rw [hmem]
      exact hf.mem.spin
    rw [if_neg h0, hf.taken] at htaken
    rw [show v.after h (.amoswap (.isLocked p) 1) _ = v from if_neg h0]
    exact hf.of_mem hm htaken hx.parked hregs hmasked ⟨rfl, rfl, rfl⟩

/-- An `sc` that succeeds gives the lock up. -/
theorem Knows.sc (hf : Knows L h v x) {p : TaskPtr} {r : I32} (hown : v.locks.own p = false)
    (hn : x.σ.next h = some (.sc (.isLocked p) 0))
    (hx : Performed x.σ h fail (.sc (.isLocked p) 0) r c σ') :
    Knows L h (v.after h (.sc (.isLocked p) 0) r) (x.step h fail σ') := by
  have hhart := hx.hart_eq
  have hmem : σ'.mem = written x.σ.mem (Op.writes (x.σ.harts h).regs (.sc (.isLocked p) 0) r) :=
    hx.mem
  have hregs : (σ'.harts h).regs = (x.σ.harts h).regs := by rw [hhart]; rfl
  have hmasked : v.masked = true → sie (σ'.harts h).sstatus = false := by
    rw [hhart]
    exact hf.masked
  have htaken := step_taken_sc σ' hn (sc_answer hx.answer)
  have hv : v.after h (.sc (.isLocked p) 0) r =
    { v with locks := if r = (0 : I32) then v.locks.drop p else v.locks } := rfl
  by_cases h0 : r = (0 : I32)
  · have hm : MemKnows h { v with locks := v.locks.drop p } σ'.mem := by
      rw [hmem, show Op.writes _ (.sc (.isLocked p) 0) r = _ from if_pos h0]
      exact hf.mem.clear hown
    rw [if_pos h0, hf.taken] at htaken
    rw [hv, if_pos h0]
    exact hf.of_mem hm htaken hx.parked hregs hmasked ⟨rfl, rfl, rfl⟩
  · have hm : MemKnows h v σ'.mem := by
      rw [hmem, show Op.writes _ (.sc (.isLocked p) 0) r = _ from if_neg h0]
      exact hf.mem
    rw [if_neg h0, hf.taken] at htaken
    rw [hv, if_neg h0]
    exact hf.of_mem hm htaken hx.parked hregs hmasked ⟨rfl, rfl, rfl⟩

/-- A register is saved in a context that the frame does not stand in. -/
theorem Knows.sd_ctx (hf : Knows L h v x) {q : CtxPtr} {z : Reg} {i : CtxWord} {r : Unit}
    (hp : q = .cpu h → v.frame = none) (hn : x.σ.next h = some (.sd_ctx q z i))
    (hx : Performed x.σ h fail (.sd_ctx q z i) r c σ') :
    Knows L h v (x.step h fail σ') := by
  have hhart := hx.hart_eq
  have hm : MemKnows h v σ'.mem := by
    rw [hx.mem]
    cases q with
    | task t => exact { hf.mem with }
    | cpu c =>
      refine { hf.mem with context := fun p hfr j => ?_ }
      have hc : c ≠ h := by
        rintro rfl
        rw [hp rfl] at hfr
        cases hfr
      exact (Mem.set_ne _ _ fun he => hc (Loc.cpu_context.inj he).1.symm).trans
        (hf.mem.context p hfr j)
  have htaken := (step_taken hn (by simp) (by simp) : (x.step h fail σ').taken = _).trans hf.taken
  refine hf.of_mem hm htaken hx.parked ?_ (fun hv => ?_) ⟨rfl, rfl, rfl⟩
  · show (σ'.harts h).regs = (x.σ.harts h).regs
    rw [hhart]
    rfl
  · show sie (σ'.harts h).sstatus = false
    rw [hhart]
    exact hf.masked hv

/-- A register is loaded from a context: from the hart's own, it is what the frame has there. -/
theorem Knows.ld_ctx (hf : Knows L h v x) {q : CtxPtr} {z : Reg} {i : CtxWord} {r : Unit}
    (hp : z ≠ .tp) (hn : x.σ.next h = some (.ld_ctx q z i))
    (hx : Performed x.σ h fail (.ld_ctx q z i) r c σ') :
    Knows L h (v.after h (.ld_ctx q z i) r) (x.step h fail σ') := by
  have hhart := hx.hart_eq
  have hm : MemKnows h v σ'.mem := by
    rw [hx.mem]
    exact hf.mem
  have hregs : (σ'.harts h).regs = Function.update (x.σ.harts h).regs z (x.σ.mem.ctx q i) := by
    rw [hhart]
    rfl
  have htaken := (step_taken hn (by simp) (by simp) : (x.step h fail σ').taken = _).trans hf.taken
  refine ⟨{ hm with }, htaken, ?_, ?_, ?_, fun hn => (by cases hn), ?_⟩
  · show (σ'.harts h).regs .tp = _
    rw [hregs, Function.update_of_ne (Ne.symm hp)]
    exact hf.tp
  · show v.masked = true → sie (σ'.harts h).sstatus = false
    rw [hhart]
    exact hf.masked
  · show ∀ p, v.frame = some p → σ'.parked (p.regs 1) = some p
    rw [hx.parked]
    exact hf.parked
  · intro r' y hr'
    change Function.update v.regs z
      (if q = .cpu h then v.frame.map fun p => p.regs i else none) r' = some y at hr'
    show (σ'.harts h).regs r' = y
    rw [hregs]
    by_cases hz : r' = z
    · rw [hz, Function.update_self] at hr'
      rw [hz, Function.update_self]
      split at hr'
      · next hq =>
        obtain ⟨p, hfr, rfl⟩ := Option.map_eq_some_iff.1 hr'
        rw [hq]
        exact hf.mem.context p hfr i
      · cases hr'
    · rw [Function.update_of_ne hz] at hr'
      rw [Function.update_of_ne hz]
      exact hf.regs r' y hr'

/-- Hart `h` performs an operation that its leg of the run does not end at. -/
theorem Knows.perform (hf : Knows L h v x) {o : Op} {r : o.Ret}
    (hs : Op.simple o = true) (hp : v.Pre h pan o) (hn : x.σ.next h = some o)
    (hx : Performed x.σ h fail o r c σ') : Knows L h (v.after h o r) (x.step h fail σ') := by
  have hhart := hx.hart_eq
  have hquiet : (∀ c y, o ≠ .amoswap c y) → (∀ c y, o ≠ .sc c y) →
      (x.step h fail σ').taken = v.locks.held := fun ha hs => (step_taken hn ha hs).trans hf.taken
  have hmem : σ'.mem = written x.σ.mem (Op.writes (x.σ.harts h).regs o r) := hx.mem
  have hstill : (σ'.harts h).regs = (x.σ.harts h).regs →
      (σ'.harts h).sstatus = (x.σ.harts h).sstatus →
      (∀ c y, o ≠ .amoswap c y) → (∀ c y, o ≠ .sc c y) → σ'.mem = x.σ.mem →
      Knows L h v (x.step h fail σ') := by
    intro hregs hsst ha hs hm
    refine hf.of_mem ?_ (hquiet ha hs) hx.parked hregs (fun hv => ?_) ⟨rfl, rfl, rfl⟩
    · show MemKnows h v σ'.mem
      rw [hm]
      exact hf.mem
    · show sie (σ'.harts h).sstatus = false
      rw [hsst]
      exact hf.masked hv
  cases o with
  | load l | lr c | fence | r_tp | r_sstatus | printf m | enter f | point p =>
    refine hstill ?_ ?_ (by simp) (by simp) hmem <;> rw [hhart] <;> rfl
  | leave f z =>
    have hv : Knows L h v (x.step h fail σ') := by
      refine hstill ?_ ?_ (by simp) (by simp) hmem <;> rw [hhart] <;> rfl
    cases f with
    | test_set c =>
      exact hv.of_mem { hv.mem with } hv.taken rfl rfl (fun hn => (by cases hn)) ⟨rfl, rfl, rfl⟩
    | _ => exact hv
  | store l y =>
    have hm := hf.mem.store hp
    rw [show x.σ.mem.set l y = σ'.mem from hmem.symm] at hm
    have hlocks : (v.after h (.store l y) r).locks.held = v.locks.held := by
      cases l <;> rfl
    have hkeep : (v.after h (.store l y) r).masked = v.masked := by
      cases l <;> rfl
    refine hf.of_mem hm ?_ hx.parked ?_ (fun hv => ?_) ?_
    · rw [hquiet (by simp) (by simp), hlocks]
    · show (σ'.harts h).regs = (x.σ.harts h).regs
      rw [hhart]
      rfl
    · show sie (σ'.harts h).sstatus = false
      rw [hhart]
      exact hf.masked (hkeep ▸ hv)
    · cases l <;> exact ⟨rfl, rfl, rfl⟩
  | w_sstatus z =>
    have hm : MemKnows h v σ'.mem := by
      rw [hmem]
      exact hf.mem
    refine hf.of_mem { hm with } (hquiet (by simp) (by simp)) hx.parked ?_ (fun hv => ?_)
      ⟨rfl, rfl, rfl⟩
    · show (σ'.harts h).regs = (x.σ.harts h).regs
      rw [hhart]
      rfl
    · show sie (σ'.harts h).sstatus = false
      rw [hhart]
      exact Bool.not_eq_true' _ ▸ hv
  | amoswap c z =>
    obtain ⟨rfl, p, rfl⟩ := hp
    exact hf.amoswap hn hx
  | sc c z =>
    obtain ⟨p, rfl, rfl, -, hown⟩ := hp
    exact hf.sc hown hn hx
  | sd_ctx q z i => exact hf.sd_ctx hp hn hx
  | ld_ctx q z i => exact hf.ld_ctx hp hn hx
  | _ => first | exact hp.elim | cases hs

end

/-! ## A leg of the run -/

/-- Hart `h` is on a leg of its run that is to end in `A`. -/
def Going (L : Layout) (h : ℕ) (pan : Bool) (A : Op → Nest → Prop) (x : TakenState) : Prop :=
  ∃ v, Knows L h v x ∧ Nests h pan A (x.σ.harts h).code v fun _ _ => False

theorem Going.others (hg : Going L h pan A x) (hm : Meanwhile L h x.taken x.σ σ') :
    Going L h pan A ⟨σ', x.taken⟩ := by
  obtain ⟨v, hf, hw⟩ := hg
  refine ⟨v, hf.others (fun hc => ?_) hm, ?_⟩
  · generalize (x.σ.harts h).code = c at hc hw
    cases c with
    | pure a => cases hc
    | op o k => exact (hw hf.mem.ok).1 (Bool.not_eq_true' _ ▸ hc)
  · show Nests h pan A (σ'.harts h).code v _
    rw [hm.code]
    exact hw

/-- What holds where the leg ends. -/
theorem Going.at_end (hg : Going L h pan A x) {o : Op} {k : o.Ret → Code}
    (hcode : (x.σ.harts h).code = .op o k) (he : Op.ends o = true) :
    ∃ v, Knows L h v x ∧ A o v ∧ (o.isAsm = false → v.Blank) := by
  obtain ⟨v, hf, hw⟩ := hg
  rw [hcode] at hw
  obtain ⟨hb, ha⟩ := hw hf.mem.ok
  rw [if_pos he] at ha
  exact ⟨v, hf, ha, hb⟩

/-- Unrolling a loop. -/
theorem Knows.goto (hf : Knows L h v x) {b : Bool} {l : Loop} (c : Code)
    (hn : x.σ.next h = some (.loop l)) : Knows L h v (x.step h b (x.σ.goto h c)) := by
  have hhart : (x.σ.goto h c).harts h = { x.σ.harts h with code := c } :=
    Function.update_self h _ x.σ.harts
  refine hf.of_mem hf.mem ((step_taken hn (by simp) (by simp)).trans hf.taken) rfl ?_ (fun hv => ?_)
    ⟨rfl, rfl, rfl⟩
  · show ((x.σ.goto h c).harts h).regs = _
    rw [hhart]
  · show sie ((x.σ.goto h c).harts h).sstatus = false
    rw [hhart]
    exact hf.masked hv

/-- A round of a loop makes of the view what the rule of the loop says. -/
theorem nests_round (hh : h < 2 ^ 31) {l : Loop} {Q : l.Ret → Nest → Prop} (hv : v.Ready pan)
    (hp : v.Pre h pan (.loop l)) (hq : ∀ r, Q r (v.after h (.loop l) r)) :
    Nests h pan A l.round v Q := by
  cases l with
  | store c z =>
    obtain ⟨p, hc⟩ := hp
    obtain rfl : c = .isLocked p := hc.1
    exact nests_store_round hv hc (hq ())
  | test_set p =>
    obtain rfl : pan = true := hp
    exact nests_test_set_round hh hv (hq ())
  | _ => exact hp.elim

theorem Going.own (hh : h < 2 ^ 31) (hg : Going L h pan A x) {fail : Bool} {o : Op}
    {k : o.Ret → Code} (hi : (x.σ.harts h).interrupted = false)
    (hcode : (x.σ.harts h).code = .op o k) (he : Op.ends o = false)
    (hx : x.σ.exec L h fail o k = some σ') : Going L h pan A (x.step h fail σ') := by
  obtain ⟨v, hf, hw⟩ := hg
  rw [hcode] at hw
  obtain ⟨hb, hw⟩ := hw hf.mem.ok
  rw [if_neg (by simp [he])] at hw
  obtain ⟨hm, hp, hr⟩ := hw
  have hn := next_eq hi hcode
  by_cases hs : Op.simple o = true
  · obtain ⟨r, hx⟩ := exec_simple hs (fun s hs => by subst hs; exact hp.elim) hx
    refine ⟨_, hf.perform hs hp hn hx, ?_⟩
    show Nests h pan A (σ'.harts h).code _ _
    rw [hx.harts, Function.update_self]
    exact hr r (hf.answers hs hx.answer)
  · cases o with
    | loop l =>
      cases hx
      refine ⟨v, hf.goto _ hn, ?_⟩
      show Nests h pan A ((x.σ.goto h _).harts h).code v _
      rw [show ((x.σ.goto h _).harts h) = _ from Function.update_self h _ x.σ.harts]
      show wp _ (l.round.bind k) _ v
      rw [wp_bind]
      exact nests_round hh ⟨hm, hb rfl⟩ hp fun r => hr r trivial
    | panic p | crash => cases hx
    | call_switch_to s old new | ret old new => cases he
    | _ => exact absurd rfl hs

/-! ## The two ends of switch_to -/

/-- Calling `switch_to` leaves the frame of the scheduler where it is. -/
theorem Knows.call_switch_to (hf : Knows L h v x) (hb : v.Blank)
    (ha : v.apart = true ∨ v.frame = none) {fail : Bool} {s : SwitchSite} {old new : CtxPtr}
    {k : Unit → Code} (hn : x.σ.next h = some (.call_switch_to s old new))
    (hx : x.σ.exec L h fail (.call_switch_to s old new) k = some σ') :
    Knows L h v (x.step h fail σ') ∧ (σ'.harts h).code = switch_to old new := by
  cases hx
  have hhart : (x.σ.callSwitch L h s old new (k ())).harts h = { x.σ.harts h with
      regs := Function.update (x.σ.harts h).regs .ra (L.switch_ret s)
      code := Kernel.switch_to old new } := Function.update_self h _ x.σ.harts
  refine ⟨⟨hf.mem, (step_taken hn (by simp) (by simp)).trans hf.taken, ?_, fun hv => ?_,
    fun p hp => ?_, fun hv p hp => ?_, fun r y hr => ?_⟩, by rw [hhart]⟩
  · show ((x.σ.callSwitch L h s old new (k ())).harts h).regs .tp = _
    rw [hhart]
    show Function.update (x.σ.harts h).regs .ra (L.switch_ret s) .tp = _
    rw [Function.update_of_ne (by decide)]
    exact hf.tp
  · show sie ((x.σ.callSwitch L h s old new (k ())).harts h).sstatus = false
    rw [hhart]
    exact hf.masked hv
  · have hne : p.regs 1 ≠ (x.σ.harts h).regs .sp := by
      intro he
      have hv := ha.resolve_right (by rw [hp]; simp)
      exact hf.apart hv p hp (by rw [he])
    show (if p.regs 1 = Function.update (x.σ.harts h).regs .ra (L.switch_ret s) .sp then _
      else _) = _
    rw [Function.update_of_ne (by decide), if_neg hne]
    exact hf.parked p hp
  · show L.stackOf (((x.σ.callSwitch L h s old new (k ())).harts h).regs .sp) ≠ _
    rw [hhart]
    show L.stackOf (Function.update (x.σ.harts h).regs .ra (L.switch_ret s) .sp) ≠ _
    rw [Function.update_of_ne (by decide)]
    exact hf.apart hv p hp
  · rw [hb r] at hr
    cases hr

/-- Nothing is known of the registers of compiled C. -/
def Nest.blank (v : Nest) : Nest := { v with apart := false, regs := fun _ => none }

/-- The `ret` of `switch_to` leads to the frame whose registers it has loaded. -/
theorem Knows.ret (hf : Knows L h v x) {p : Parked} (hp : v.frame = some p)
    (hregs : ∀ s ∈ switch_to_slots, v.regs s.1 = some (p.regs s.2)) (hra : p.regs 0 ≠ L.dummy_task)
    {fail : Bool} {old new : CtxPtr} {k : Unit → Code} (hn : x.σ.next h = some (.ret old new))
    (hx : x.σ.exec L h fail (.ret old new) k = some σ') :
    Knows L h v.blank (x.step h fail σ') ∧ (σ'.harts h).code = p.code := by
  cases hx
  have hload : ∀ s ∈ switch_to_slots, (x.σ.harts h).regs s.1 = p.regs s.2 :=
    fun s hs => hf.regs s.1 _ (hregs s hs)
  have hctx : ∀ i, ctxOf (x.σ.harts h).regs i = p.regs i := by
    intro i
    obtain ⟨r, hr⟩ := slots_words i
    exact (ctxOf_slot _ hr).trans (hload _ hr)
  have hret : (x.σ.harts h).afterRet L x.σ.parked =
      { x.σ.harts h with calls := p.calls, code := p.code } := by
    have hra' : (x.σ.harts h).regs .ra ≠ L.dummy_task := by
      rw [hload (.ra, 0) (by decide)]
      exact hra
    unfold Hart.afterRet
    rw [if_neg hra', hload (.sp, 1) (by decide), hf.parked p hp]
    exact if_pos hctx
  have hhart : (x.σ.setHart h ((x.σ.harts h).afterRet L x.σ.parked)).harts h =
      { x.σ.harts h with calls := p.calls, code := p.code } := by
    rw [← hret]
    exact Function.update_self h _ x.σ.harts
  refine ⟨⟨{ hf.mem with }, (step_taken hn (by simp) (by simp)).trans hf.taken, ?_, fun hv => ?_,
    hf.parked, fun hv => (by cases hv), fun r y hr => (by cases hr)⟩, by rw [hhart]⟩
  · show ((x.σ.setHart h ((x.σ.harts h).afterRet L x.σ.parked)).harts h).regs .tp = _
    rw [hhart]
    exact hf.tp
  · show sie ((x.σ.setHart h ((x.σ.harts h).afterRet L x.σ.parked)).harts h).sstatus = false
    rw [hhart]
    exact hf.masked hv

/-! ## A leg comes to its end -/

/-- A run stops nowhere but where a leg may end. -/
def StopsAtEnds (h : ℕ) (stop : State → Prop) : Prop :=
  ∀ (σ : State) (o : Op) (k : o.Ret → Code), (σ.harts h).code = .op o k → Op.ends o = false →
    ¬ stop σ

section
variable {stop : State → Prop} {o : Op} {k : o.Ret → Code} (hh : h < cfg.harts)
include hh

/-- A hart whose interrupts are masked performs its next operation. -/
theorem Knows.masked_step (hf : Knows cfg.layout h v x) (hm : v.masked = true) {b : Bool}
    (hs : ¬ stop x.σ) (hcode : (x.σ.harts h).code = .op o k)
    (hx : x.σ.exec cfg.layout h b o k = some σ') :
    x.σ.next h = some o ∧ SchedStep cfg h stop x (x.step h b σ') := by
  have hi : (x.σ.harts h).interrupted = false := by
    unfold Hart.interrupted
    rw [hf.masked hm]
    rfl
  exact ⟨next_eq hi hcode, .own b hs hi ((step_op hh hi hcode).trans hx)⟩

variable (hstop : StopsAtEnds h stop)
include hstop

theorem Knows.own_step (hf : Knows cfg.layout h v x) (hm : v.masked = true) {b : Bool}
    (he : Op.ends o = false) (hcode : (x.σ.harts h).code = .op o k)
    (hx : x.σ.exec cfg.layout h b o k = some σ') :
    x.σ.next h = some o ∧ SchedStep cfg h stop x (x.step h b σ') :=
  hf.masked_step hh hm (hstop _ o k hcode he) hcode hx

theorem Knows.own_simple (hf : Knows cfg.layout h v x) (hm : v.masked = true) {b : Bool}
    (he : Op.ends o = false) (hs : Op.simple o = true) (hp : v.Pre h pan o)
    (hcode : (x.σ.harts h).code = .op o k)
    (hx : x.σ.exec cfg.layout h b o k = some σ') :
    ∃ r, Answer x.σ h b o r ∧ SchedStep cfg h stop x (x.step h b σ') ∧
      Knows cfg.layout h (v.after h o r) (x.step h b σ') ∧ (σ'.harts h).code = k r := by
  obtain ⟨hn, hstep⟩ := hf.own_step hh hstop hm he hcode hx
  obtain ⟨r, hx⟩ := exec_simple hs (fun s hs => by subst hs; exact hp.elim) hx
  refine ⟨r, hx.answer, hstep, hf.perform hs hp hn hx, ?_⟩
  rw [hx.harts, Function.update_self]

/-- Without a spurious failure, the loop that clears a lock is done in one round. -/
theorem Knows.store_loop (hf : Knows cfg.layout h v x) (hm : v.masked = true) {c : Cell} {z : I32}
    {p : TaskPtr} {k : Unit → Code} (hc : v.locks.Clear c z p)
    (hcode : (x.σ.harts h).code = .op (.loop (.store c z)) k) :
    ∃ y, SchedRun cfg h stop x y ∧ Knows cfg.layout h { v with locks := v.locks.drop p } y ∧
      (y.σ.harts h).code = k () := by
  -- the loop is unrolled
  obtain ⟨hn1, hs1⟩ := hf.own_step hh hstop hm (b := false) rfl hcode rfl
  have hf1 := hf.goto (b := false) ((Loop.store c z).round.bind k) hn1
  let f (r : I32) : Code := (if r ≠ 0 then loop (.store c z) else pure ()).bind k
  have hcode1 : ((x.step h false (x.σ.goto h ((Loop.store c z).round.bind k))).σ.harts h).code =
      .op (.lr c) fun _ => .op (.sc c z) f :=
    congrArg Hart.code (Function.update_self h _ x.σ.harts)
  generalize x.step h false (x.σ.goto h ((Loop.store c z).round.bind k)) = y1 at hs1 hf1 hcode1
  -- `lr` takes the reservation
  obtain ⟨σ2, hx2, hresv⟩ : ∃ σ2, y1.σ.exec cfg.layout h false (.lr c)
      (fun _ => .op (.sc c z) f) = some σ2 ∧ σ2.resv h = some c := by
    refine ⟨_, rfl, ?_⟩
    exact Function.update_self h (some c) y1.σ.resv
  obtain ⟨r2, -, hs2, hf2, hcode2⟩ := hf1.own_simple hh hstop hm rfl rfl
    (show v.Pre h true (.lr c) from trivial) hcode1 hx2
  -- `sc` finds it
  obtain ⟨σ3, hx3⟩ := exec_total (σ := σ2) (h := h) cfg.layout false (o := .sc c z) rfl f
  obtain ⟨r3, ha, hs3, hf3, hcode3⟩ := hf2.own_simple (x := y1.step h false σ2) hh
    hstop hm rfl rfl (show v.Pre h true (.sc c z) from ⟨p, hc⟩) hcode2 hx3
  obtain rfl : r3 = (0 : I32) := ha.trans (if_pos ⟨hresv, rfl⟩)
  obtain rfl : c = .isLocked p := hc.1
  exact ⟨_, ((Relation.ReflTransGen.single hs1).tail hs2).tail hs3, hf3, hcode3⟩

/-- A leg on which no `PANIC` is allowed comes to its end. -/
theorem comes_to_end (c : Code) : ∀ {v : Nest} {x : TakenState}, Knows cfg.layout h v x →
    (x.σ.harts h).code = c → Nests h false A c v (fun _ _ => False) →
    ∃ (y : TakenState) (o : Op) (k : o.Ret → Code), SchedRun cfg h stop x y ∧
      Going cfg.layout h false A y ∧ (y.σ.harts h).code = .op o k ∧ Op.ends o = true := by
  induction c with
  | pure a => exact fun _ _ hw => hw.elim
  | op o k ih =>
    intro v x hf hcode hw
    have hg : Going cfg.layout h false A x := ⟨v, hf, by rw [hcode]; exact hw⟩
    obtain ⟨hb, hw⟩ := hw hf.mem.ok
    by_cases he : Op.ends o = true
    · exact ⟨x, o, k, .refl, hg, hcode, he⟩
    rw [if_neg he] at hw
    obtain ⟨hm, hp, hr⟩ := hw
    have hm := hm.resolve_left (by decide)
    have he : Op.ends o = false := by simpa using he
    by_cases hs : Op.simple o = true
    · obtain ⟨σ', hx⟩ := exec_total (σ := x.σ) (h := h) cfg.layout false hs k
      obtain ⟨r, ha, hstep, hf', hcode'⟩ := hf.own_simple hh hstop hm he hs hp hcode hx
      obtain ⟨y, o', k', hy, hrest⟩ := ih r hf' hcode' (hr r (hf.answers hs ha))
      exact ⟨y, o', k', .head hstep hy, hrest⟩
    · cases o with
      | loop l =>
        cases l with
        | store c z =>
          obtain ⟨p, hc⟩ := hp
          obtain rfl : c = .isLocked p := hc.1
          obtain ⟨y, hy, hf', hcode'⟩ := hf.store_loop hh hstop hm hc hcode
          obtain ⟨y', o', k', hy', hrest⟩ := ih () hf' hcode' (hr () trivial)
          exact ⟨y', o', k', hy.trans hy', hrest⟩
        | test_set p => cases hp
        | _ => exact hp.elim
      | panic p => cases hp
      | crash => exact hp.elim
      | call_switch_to s old new | ret old new => cases he
      | _ => exact absurd rfl hs

end

end GQuuuuuunix.Proof
