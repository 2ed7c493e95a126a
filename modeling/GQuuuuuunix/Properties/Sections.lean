import GQuuuuuunix.Kernel.Start
import GQuuuuuunix.Proof.History
import GQuuuuuunix.Proof.Sections

/-! # Interrupt-disable sections nest

A hart that runs a balanced program, in which other harts and the timer interfere as they may: the
words of its `struct cpu` and the interrupt enable bit follow the depth of the program. -/

namespace GQuuuuuunix.Properties
open Lib Kernel Proof
set_option autoImplicit false

/-- The code is what is left of the program, of its first call as much as is not done. -/
def Within (c : Code) : SecProg Unit → Prop
  | .pure a => c = .pure a
  | .op s k => ∃ b, Prog.Rest s.code b ∧ c = b.bind fun r => SecProg.code (k r)

/-- The view of a hart with `q` left to run at depth `d`. A `push_off` from depth 0 disables
interrupts before it counts, and a `pop_off` counts before it is done. -/
structure Nested (x : U64) (q : SecProg Unit) (d : ℕ) (v : CpuView) : Prop where
  off_nrs : v.off_nrs = BitVec.ofNat 32 d ∨
    (∃ k, q = .op .pop_off k) ∧ v.off_nrs = BitVec.ofNat 32 (d - 1)
  sstatus : v.sstatus = (if d = 0 then x else x &&& ~~~SSTATUS_SIE) ∨
    (d = 0 ∧ ∃ k, q = .op .push_off k) ∧ v.sstatus = x &&& ~~~SSTATUS_SIE

/-- The depth after a call or an operation from depth `d`. -/
def SecOp.after (d : ℕ) : SecOp → ℕ
  | .push_off => d + 1
  | .pop_off => d - 1
  | .op _ => d

def SecOp.isLoop : SecOp → Bool
  | .op (.loop _) => true
  | _ => false

variable {L : Layout} {h d : ℕ} {x : U64} {p q : SecProg Unit} {σ σ' : State}
  {tr : History State SecEvent}

/-- The hart has `q` left to run at depth `d`; what is left of its first call leads to the depth
after it. -/
inductive Place (h : ℕ) (x : U64) (d : ℕ) (σ : State) : SecProg Unit → Prop where
  | done {a : Unit} : (σ.harts h).code = .pure a → AtDepth x d (σ.cpu h) → Place h x d σ (.pure a)
  | loop {l : Loop} {k : l.Ret → SecProg Unit} :
      (σ.harts h).code = .op (.loop l) (fun r => SecProg.code (k r)) → AtDepth x d (σ.cpu h) →
      Place h x d σ (.op (.op (.loop l)) k)
  | call {s : SecOp} {k : s.Ret → SecProg Unit} {o : Op} {f : o.Ret → KProg s.Ret} :
      SecOp.isLoop s = false → Prog.Rest s.code (.op o f) →
      (σ.harts h).code = .op o (fun r => (f r).bind fun r => SecProg.code (k r)) →
      wp (cpuRules h (Nested x (.op s k) d)) (.op o f)
        (fun _ v => AtDepth x (SecOp.after d s) v) (σ.cpu h) →
      Place h x d σ (.op s k)

theorem nested_of_atDepth {v : CpuView} (hv : AtDepth x d v) : Nested x q d v :=
  ⟨Or.inl hv.off_nrs, Or.inl hv.sstatus⟩

/-- Before the first call of what is left. -/
theorem place_of_atDepth (hh : h < 2 ^ 31) (hd : d < 2 ^ 31)
    (hq : wp depthRules q (fun _ d => d = 0) d) (hc : (σ.harts h).code = q.code)
    (hv : AtDepth x d (σ.cpu h)) : Place h x d σ q := by
  cases q with
  | pure a => exact .done hc hv
  | op s k =>
    cases s with
    | push_off =>
      refine .call rfl .all hc (wp_cpu_push_off hh hq.1 (fun v hv => ⟨Or.inl hv.off_nrs, ?_⟩) hv)
      rcases hv.sstatus with hs | hs
      · exact Or.inl hs
      · by_cases h0 : d = 0
        · exact Or.inr ⟨⟨h0, k, rfl⟩, hs⟩
        · exact Or.inl (by rw [if_neg h0, hs])
    | pop_off =>
      refine .call rfl .all hc (wp_cpu_pop_off hh hq.1 hd (fun v hv => ⟨?_, Or.inl ?_⟩) hv)
      · exact hv.off_nrs.imp_right fun ho => ⟨⟨k, rfl⟩, ho⟩
      · rw [if_neg (Nat.pos_iff_ne_zero.1 hq.1)]
        exact hv.sstatus
    | op o =>
      by_cases hl : ∃ l, o = .loop l
      · obtain ⟨l, rfl⟩ := hl
        exact .loop hc hv
      · have hl' : ∀ l, o ≠ .loop l := fun l hn => hl ⟨l, hn⟩
        have hn : SecOp.isLoop (.op o) = false := by
          cases o with
          | loop l => exact absurd rfl (hl' l)
          | _ => rfl
        exact .call hn .all hc (cpuRules_neutral hq.1 hl' (nested_of_atDepth hv) fun _ => hv)

theorem exec_stops {fail : Bool} {o : Op} {k : o.Ret → Code} (ho : o.stops = true) :
    σ.exec L h fail o k = none := by
  cases o with
  | panic s | crash => rfl
  | _ => cases ho

/-- The program after its first call or operation. -/
theorem reaches_after {s : SecOp} {k : s.Ret → SecProg Unit} (hl : SecOp.isLoop s = false)
    (hd : d < 2 ^ 31) (hr : p.Reaches (.op s k) d)
    (hq : wp depthRules (.op s k) (fun _ d => d = 0) d)
    (hstop : ∀ o, s = .op o → o.stops = false) (a : s.Ret) :
    SecOp.after d s < 2 ^ 31 ∧ p.Reaches (k a) (SecOp.after d s) ∧
      wp depthRules (k a) (fun _ d => d = 0) (SecOp.after d s) := by
  cases s with
  | push_off => exact ⟨hq.1, hr.push_off, hq.2⟩
  | pop_off =>
    obtain ⟨e, rfl⟩ : ∃ e, d = e + 1 := ⟨d - 1, by have := hq.1; omega⟩
    exact ⟨Nat.lt_of_succ_lt hd, hr.pop_off, hq.2⟩
  | op o =>
    refine ⟨hd, hr.op a fun l hn => ?_, hq.2 (hstop o rfl) a⟩
    rw [hn] at hl
    cases hl

/-- One step of the hart. -/
theorem place_step {fail : Bool} (hh : h < 2 ^ 31) (hd : d < 2 ^ 31) (hr : p.Reaches q d)
    (hq : wp depthRules q (fun _ d => d = 0) d) (hP : Place h x d σ q)
    (htp : (σ.harts h).regs .tp = BitVec.ofNat 64 h) (hint : (σ.harts h).interrupted = false)
    (hs : State.step L (h + 1) σ (.hart h fail) = some σ') :
    (∃ q d, d < 2 ^ 31 ∧ p.Reaches q d ∧ wp depthRules q (fun _ d => d = 0) d ∧
      Place h x d σ' q) ∧ (σ'.harts h).regs .tp = BitVec.ofNat 64 h := by
  simp only [State.step, if_pos (Nat.lt_succ_self h), hint, Bool.false_eq_true, if_false] at hs
  cases hP with
  | done hc hv =>
    rw [hc] at hs
    cases hs
  | @loop l k hc hv =>
    rw [hc] at hs
    cases hs
    have hx : ∀ c, (σ.goto h c).harts h = { σ.harts h with code := c } := fun c =>
      Function.update_self ..
    have hq' : wp depthRules (l.sections.bind k) (fun _ d => d = 0) d := by
      rw [wp_bind]
      exact wp_sections hq.1 (hq.2 rfl)
    refine ⟨⟨l.sections.bind k, d, hd, hr.loop, hq', place_of_atDepth hh hd hq' ?_ ?_⟩, ?_⟩
    · rw [hx, code_bind, code_sections]
    · unfold State.cpu
      rw [hx]
      exact hv
    · rw [hx]
      exact htp
  | @call s k o f hl hrest hc hwp =>
    rw [hc] at hs
    obtain ⟨r, hc', htp', hwp'⟩ := exec_cpu htp hwp hs
    refine ⟨?_, htp'⟩
    cases hf : f r with
    | pure a =>
      rw [hf] at hc' hwp'
      have hstop : ∀ o', s = .op o' → o'.stops = false := by
        rintro o' rfl
        rcases hrest.of_lift with ho | ⟨_, ho⟩
        · cases ho
          by_contra hn
          change σ.exec L h fail _ _ = some σ' at hs
          rw [exec_stops (by simpa using hn)] at hs
          cases hs
        · cases ho
      obtain ⟨hd', hr', hq'⟩ := reaches_after hl hd hr hq hstop a
      exact ⟨_, _, hd', hr', hq', place_of_atDepth hh hd' hq' hc' hwp'⟩
    | op o' f' =>
      have hrest' := hrest.step r
      rw [hf] at hc' hwp' hrest'
      exact ⟨_, _, hd, hr, hq, .call hl hrest' hc' hwp'⟩

/-! ## Every run -/

/-- What the run keeps. -/
structure Sections (h : ℕ) (p : SecProg Unit) (x : U64) (tr : History State SecEvent)
    (σ : State) : Prop where
  tp : (σ.harts h).regs .tp = BitVec.ofNat 64 h
  disabled : disabled h tr = true → sie (σ.harts h).sstatus = false
  place : ∃ q d, d < 2 ^ 31 ∧ p.Reaches q d ∧ wp depthRules q (fun _ d => d = 0) d ∧
    Place h x d σ q

theorem disabled_none {e : SecEvent} (he : sstatusTurn h (σ, e) = none) :
    disabled h ((σ, e) :: tr) = disabled h tr := by
  simp only [disabled, List.findSome?_cons, he]

theorem Place.congr {τ : State} (hc : (τ.harts h).code = (σ.harts h).code)
    (hv : τ.cpu h = σ.cpu h) (hP : Place h x d σ q) : Place h x d τ q := by
  cases hP with
  | done hcode hd => exact .done (hc.trans hcode) (hv ▸ hd)
  | loop hcode hd => exact .loop (hc.trans hcode) (hv ▸ hd)
  | call hl hrest hcode hwp => exact .call hl hrest (hc.trans hcode) (hv ▸ hwp)

/-- An event that leaves the code, `tp` and the view of the hart alone. -/
theorem Sections.frame {e : SecEvent} {τ : State} (hI : Sections h p x tr σ)
    (he : sstatusTurn h (σ, e) = none) (hc : (τ.harts h).code = (σ.harts h).code)
    (htp : (τ.harts h).regs .tp = (σ.harts h).regs .tp) (hv : τ.cpu h = σ.cpu h) :
    Sections h p x ((σ, e) :: tr) τ := by
  refine ⟨htp.trans hI.tp, fun hd => ?_, ?_⟩
  · rw [disabled_none he] at hd
    rw [show (τ.harts h).sstatus = (σ.harts h).sstatus from congrArg CpuView.sstatus hv]
    exact hI.disabled hd
  · obtain ⟨q, d, hd, hr, hq, hP⟩ := hI.place
    exact ⟨q, d, hd, hr, hq, hP.congr hc hv⟩

theorem sections_init (hh : h < 2 ^ 31) (hp : p.Balanced) (hi : σ.Sections h p x) :
    Sections h p x [] σ := by
  have hv : AtDepth x 0 (σ.cpu h) := ⟨hi.sstatus, hi.off_nrs, fun hn => absurd rfl hn⟩
  refine ⟨hi.tp, fun hd => ?_, p, 0, by decide, SecProg.Reaches.start, hp, ?_⟩
  · cases hd
  · exact place_of_atDepth hh (by decide) hp hi.code hv

/-- The next operation of the hart is not an `sret`. -/
theorem Place.not_sret (hP : Place h x d σ q) (s : Snapshot) : σ.next h ≠ some (.sret s) := by
  intro hn
  unfold State.next at hn
  split at hn
  · cases hn
  · cases hP with
    | done hc _ =>
      rw [hc] at hn
      cases hn
    | loop hc _ =>
      rw [hc] at hn
      cases hn
    | call _ _ hc hwp =>
      rw [hc] at hn
      cases hn
      obtain ⟨_, ⟨_, hno⟩, _⟩ := hwp
      cases hno

theorem sections_step {fail : Bool} (hh : h < 2 ^ 31) (hI : Sections h p x tr σ)
    (ht : (σ.harts h).interrupted = true → disabled h tr = true)
    (hs : State.step L (h + 1) σ (.hart h fail) = some σ') :
    Sections h p x ((σ, .step fail) :: tr) σ' := by
  have hint : (σ.harts h).interrupted = false := by
    by_contra hn
    have hon : (σ.harts h).interrupted = true := by simpa using hn
    have hoff := hI.disabled (ht hon)
    unfold Hart.interrupted at hon
    rw [hoff] at hon
    cases hon
  obtain ⟨q, d, hd, hr, hq, hP⟩ := hI.place
  obtain ⟨hplace, htp⟩ := place_step hh hd hr hq hP hI.tp hint hs
  refine ⟨htp, fun hdis => ?_, hplace⟩
  simp only [State.step, if_pos (Nat.lt_succ_self h), hint, Bool.false_eq_true, if_false] at hs
  by_cases hw : ∃ y, σ.next h = some (.w_sstatus y)
  · obtain ⟨y, hw⟩ := hw
    have hturn : sstatusTurn h (σ, .step fail) = some (!sie y) := by
      simp only [sstatusTurn, hw]
    simp only [disabled, List.findSome?_cons, hturn, Option.getD_some] at hdis
    obtain ⟨-, f, hc⟩ := next_some hw
    rw [hc] at hs
    cases hs
    change sie (Function.update σ.harts h _ h).sstatus = false
    rw [Function.update_self]
    simpa using hdis
  · have hturn : sstatusTurn h (σ, .step fail) = none := by
      simp only [sstatusTurn]
      split
      · next y hy => exact absurd ⟨y, hy⟩ hw
      · rfl
    rw [disabled_none hturn] at hdis
    cases hc : (σ.harts h).code with
    | pure a =>
      rw [hc] at hs
      cases hs
    | op o f =>
      rw [hc] at hs
      have hn := next_eq hint hc
      rw [exec_sstatus (fun y ho => hw ⟨y, ho ▸ hn⟩) (fun s ho => hP.not_sret s (ho ▸ hn)) hs]
      exact hI.disabled hdis

theorem sections_run (hh : h < 2 ^ 31) (hp : p.Balanced) (hr : Run (sections L h p x) tr σ)
    (ht : Along (TrapInside h) tr) : Sections h p x tr σ := by
  refine Run.invariant_along (TrapInside h) (Sections h p x) (fun σ hi => sections_init hh hp hi)
    (fun tr σ e σ' _ hI hC hs => ?_) hr ht
  cases e with
  | step fail => exact sections_step hh hI hC hs
  | compute r pc =>
    simp only [sections, State.step] at hs
    split at hs
    · next hok =>
      cases hs
      have hx : (σ.setHart h { σ.harts h with regs := r, pc := pc }).harts h =
          { σ.harts h with regs := r, pc := pc } := Function.update_self ..
      refine hI.frame rfl (by rw [hx]) (by rw [hx]; exact hok.2.2.1) ?_
      unfold State.cpu
      rw [hx]
      rfl
    · cases hs
  | timer =>
    simp only [sections, State.step, if_pos (Nat.lt_succ_self h)] at hs
    cases hs
    have hx : (σ.setHart h (σ.harts h).timerTrap).harts h = (σ.harts h).timerTrap :=
      Function.update_self ..
    refine hI.frame rfl (by rw [hx]; rfl) ?_ ?_
    · rw [hx]
      exact congrFun (timer_vec_regs ..) .tp
    · unfold State.cpu
      rw [hx]
      rfl
  | others τ =>
    cases hs
    have hx : (σ.others h τ).harts h = σ.harts h := Function.update_self ..
    refine hI.frame rfl (by rw [hx]) (by rw [hx]) ?_
    unfold State.cpu
    rw [hx]
    have hoff : (σ.others h τ).mem (.off_nrs h) = σ.mem (.off_nrs h) := by
      change ((τ.mem.set (.off_nrs h) (σ.mem (.off_nrs h))).set (.intr_ena_before h)
        (σ.mem (.intr_ena_before h))) (.off_nrs h) = _
      rw [Mem.set_ne _ _ (by simp), Mem.set_self]
    have hena : (σ.others h τ).mem (.intr_ena_before h) = σ.mem (.intr_ena_before h) :=
      Mem.set_self _ (.intr_ena_before h) _
    rw [hoff, hena]

/-! ## What the view says at a place -/

theorem Place.within (hP : Place h x d σ q) : Within (σ.harts h).code q := by
  cases hP with
  | done hc _ => exact hc
  | loop hc _ => exact ⟨_, .all, hc⟩
  | call _ hrest hc _ => exact ⟨_, hrest, hc⟩

/-- What must hold before an operation holds there. -/
theorem cpuRules_guard {G : CpuView → Prop} {o : Op} {R : o.Ret → CpuView → Prop} {v : CpuView}
    (hR : cpuRules h G o R v) : G v := by
  cases o with
  | load l => cases l <;> exact hR.1
  | store l y => cases l <;> exact hR.1
  | loop l => exact hR.elim
  | _ => exact hR.1

theorem Place.nested (hP : Place h x d σ q) : Nested x q d (σ.cpu h) := by
  cases hP with
  | done _ hv => exact nested_of_atDepth hv
  | loop _ hv => exact nested_of_atDepth hv
  | call _ _ _ hwp => exact cpuRules_guard hwp

theorem Place.panic_free (hP : Place h x d σ q) {s : PanicSite}
    (hno : ∀ d, ¬ (Op.panic s).Neutral d) : σ.next h ≠ some (.panic s) := by
  intro hn
  obtain ⟨-, f, hcode⟩ := next_some hn
  cases hP with
  | done hc _ =>
    rw [hcode] at hc
    cases hc
  | loop hc _ =>
    rw [hcode] at hc
    cases hc
  | call _ _ hc hwp =>
    rw [hcode] at hc
    cases hc
    obtain ⟨_, ⟨d, hd⟩, _⟩ := hwp
    exact hno d hd

theorem Nested.bits {v : CpuView} (hv : Nested x q d v) {i : ℕ} (hi : i ≠ 1) :
    v.sstatus.getLsbD i = x.getLsbD i := by
  have hbit : (x &&& ~~~SSTATUS_SIE).getLsbD i = x.getLsbD i := by
    by_cases h64 : i < 64
    · rw [SSTATUS_SIE_eq, BitVec.getLsbD_and, BitVec.getLsbD_not, BitVec.getLsbD_twoPow]
      simp [h64, Ne.symm hi]
    · rw [BitVec.getLsbD_of_ge _ _ (by omega), BitVec.getLsbD_of_ge _ _ (by omega)]
  rcases hv.sstatus with hs | ⟨_, hs⟩ <;> rw [hs]
  · split
    · rfl
    · exact hbit
  · exact hbit

theorem Nested.disabled {v : CpuView} (hv : Nested x q d v) (hd : 0 < d) :
    sie v.sstatus = false := by
  rcases hv.sstatus with hs | ⟨_, hs⟩ <;> rw [hs]
  · rw [if_neg (by omega)]
    exact sie_and_not_SIE x
  · exact sie_and_not_SIE x

theorem Place.finished (hP : Place h x d σ q) (hq : wp depthRules q (fun _ d => d = 0) d)
    (hc : (σ.harts h).code = .pure ()) : AtDepth x 0 (σ.cpu h) := by
  cases hP with
  | done _ hv =>
    have h0 : d = 0 := hq
    exact h0 ▸ hv
  | loop hcode _ =>
    rw [hc] at hcode
    cases hcode
  | call _ _ hcode _ =>
    rw [hc] at hcode
    cases hcode

theorem sections_nest (hh : h < MAX_CPU_NUMS) (hp : p.Balanced)
    (hr : Run (sections L h p x) tr σ) (ht : Along (TrapInside h) tr) :
    (∃ q d, p.Reaches q d ∧ Within (σ.harts h).code q ∧ Nested x q d (σ.cpu h) ∧
      (0 < d → sie (σ.harts h).sstatus = false)) ∧
    (∀ i, i ≠ 1 → (σ.harts h).sstatus.getLsbD i = x.getLsbD i) ∧
    σ.next h ≠ some (.panic .pop_off_interruptible) ∧ σ.next h ≠ some (.panic .pop_off_nrs) ∧
    ((σ.harts h).code = .pure () → σ.mem (.off_nrs h) = (0 : I32) ∧ (σ.harts h).sstatus = x) := by
  have hlt : h < 2 ^ 31 := Nat.lt_trans hh (by decide)
  obtain ⟨q, d, hd, hreach, hq, hP⟩ := (sections_run hlt hp hr ht).place
  have hv := hP.nested
  refine ⟨⟨q, d, hreach, hP.within, hv, fun h0 => hv.disabled h0⟩, fun i hi => hv.bits hi,
    hP.panic_free fun _ hn => hn, hP.panic_free fun _ hn => hn, fun hc => ?_⟩
  have hend := hP.finished hq hc
  exact ⟨hend.off_nrs, hend.sstatus⟩

/-- A lock taken and given back inside a section, and an atomic operation under it. -/
def lockedUpdate : List SecCall :=
  [.push_off, .acquire (.gTasks 0), .atomic (.fetch_add .atomic_int_t 0 1), .release (.gTasks 0),
    .pop_off]

/-- Hart 0 in front of `lockedUpdate`, with interrupts enabled and the lock ready. -/
def State.lockedUpdate : State :=
  { State.start (.sample 1 Nat.one_pos one_le_max) with
    harts := fun h => { Hart.start (.sample 1 Nat.one_pos one_le_max) h with
      code := SecProg.code (Prog.each SecCall.prog Properties.lockedUpdate)
      sstatus := SSTATUS_SIE }
    mem := fun
      | .lk_acquire _ => .acquire_lk
      | .lk_release _ => .release_lk
      | .lk_is_holding _ => .is_holding_lk
      | l => Mem.zero l }

theorem along_of_quiet {tr : History State SecEvent}
    (hall : tr.all (fun y => !(y.1.harts 0).interrupted) = true) : Along (TrapInside 0) tr := by
  induction tr with
  | nil => trivial
  | cons y tr ih =>
    rw [List.all_cons, Bool.and_eq_true] at hall
    refine ⟨?_, ih hall.2⟩
    cases hy : y.2 with
    | step fail =>
      intro hon
      rw [hon] at hall
      cases hall.1
    | _ => trivial

/-- The hart has come to the end of its program, and took no interrupt on the way. -/
def doneQuietly (y : History State SecEvent × State) : Bool :=
  (match (y.2.harts 0).code with
    | .pure _ => true
    | _ => false) && y.1.all fun z => !(z.1.harts 0).interrupted

theorem sections_nest_locked : ∃ tr σ,
    Run (sections .sample 0 (Prog.each SecCall.prog lockedUpdate) SSTATUS_SIE) tr σ ∧
      σ.mem (.off_nrs 0) = (0 : I32) ∧ (σ.harts 0).sstatus = SSTATUS_SIE := by
  obtain ⟨tr, σ, hr, hdone⟩ := Run.of_perform
    (M := sections .sample 0 (Prog.each SecCall.prog lockedUpdate) SSTATUS_SIE)
    (s := State.lockedUpdate) ⟨rfl, rfl, rfl, rfl⟩ (List.replicate 109 (.step false))
    (P := doneQuietly) (by decide +kernel)
  unfold doneQuietly at hdone
  rw [Bool.and_eq_true] at hdone
  have hnested : nestedFrom 0 lockedUpdate := by
    simp [nestedFrom, lockedUpdate, SecCall.levels, SecCall.closes, SecCall.after]
  have hrun := sections_nest (by decide) (balanced_calls hnested) hr (along_of_quiet hdone.2)
  refine ⟨tr, σ, hr, hrun.2.2.2.2 ?_⟩
  have hcode := hdone.1
  split at hcode
  · next hpure => exact hpure
  · cases hcode

end GQuuuuuunix.Properties
