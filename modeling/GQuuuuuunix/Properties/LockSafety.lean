import GQuuuuuunix.Kernel.Start
import GQuuuuuunix.Proof.LockTable

/-! # The spin locks are safe under no discipline -/

namespace GQuuuuuunix.Properties
open Lib Kernel Proof
set_option autoImplicit false

variable {L : Layout} {n : ℕ} {cs : ℕ → List LockCall} {σ σ' : State} {tr pre post : Trace} {h : ℕ}
  {p : TaskPtr}

/-! ## Calls that are bound to panic -/

/-- What hart `h` can be answered while `b` says whether `lk->cpu` of `p` is its own. -/
def MisuseAns (h : ℕ) (p : TaskPtr) (b : Bool) : (o : Op) → o.Ret → Prop
  | .load (.cell (.isLocked q)), r => q = p → b = true → r = (1 : I32)
  | .load (.lk_cpu q), r => q = p → (r = some h ↔ b = true)
  | .load (.lk_acquire _), r => r = LockFn.acquire_lk
  | .load (.lk_release _), r => r = LockFn.release_lk
  | .load (.lk_is_holding _), r => r = LockFn.is_holding_lk
  | .r_tp, r => r = BitVec.ofNat 64 h
  | _, _ => True

/-- Operations that write no word of a lock. -/
def Op.harmless : Op → Bool
  | .load _ | .store (.off_nrs _) _ | .store (.intr_ena_before _) _ | .r_tp | .r_sstatus
  | .w_sstatus _ | .enter _ | .leave (.is_holding _) _ => true
  | _ => false

/-- The program panics at `s` before it has made `m` operations, or ends in `Q`. -/
abbrev Panics (h : ℕ) (p : TaskPtr) (b : Bool) (s : PanicSite) {α : Type} (c : KProg α)
    (Q : α → ℕ → Prop) (m : ℕ) : Prop :=
  wp (.within (MisuseAns h p b) (fun o => Op.harmless o = true) fun o => o = .panic s) c Q m

section
variable {b : Bool} {s : PanicSite} {m : ℕ} {α : Type}

theorem panics_one {o : Op} {Q : o.Ret → ℕ → Prop} (ho : Op.harmless o = true)
    (hq : ∀ r, MisuseAns h p b o r → Q r m) : Panics h p b s (one o) Q (m + 1) :=
  wp_within_step ho hq

variable (hh : h < 2 ^ 31)
include hh

theorem panics_get_cur_cpu {Q : ℕ → ℕ → Prop} (hq : Q h m) :
    Panics h p b s get_cur_cpu Q (m + 1) := by
  refine wp_seq (wp_seq (panics_one rfl fun r hr => ?_))
  cases hr
  show Q _ m
  rw [cpuid_of_lt hh]
  exact hq

theorem panics_push_off {Q : Unit → ℕ → Prop} (hq : ∀ k, Q () (m + k)) :
    Panics h p b s push_off Q (m + 10) := by
  have hlast : ∀ k, Panics h p b s (do
      let c ← get_cur_cpu
      let nrs ← load (.off_nrs c)
      store (.off_nrs c) (nrs + 1)) Q (m + k + 3) := fun k =>
    wp_seq (panics_get_cur_cpu hh (wp_seq (panics_one rfl fun nrs _ =>
      panics_one rfl fun _ _ => hq k)))
  unfold push_off intr_get intr_off
  refine wp_seq (wp_seq (panics_one rfl fun x _ => ?_))
  refine wp_seq (wp_seq (panics_one rfl fun y _ => panics_one rfl fun _ _ => ?_))
  refine wp_seq (panics_get_cur_cpu hh (wp_seq (panics_one rfl fun nrs _ => ?_)))
  split
  · exact wp_seq (panics_get_cur_cpu hh (wp_seq (panics_one rfl fun _ _ => hlast 0)))
  · exact hlast 2

/-- `is_holding` answers as `b` says. -/
theorem panics_is_holding {Q : I32 → ℕ → Prop} (hq : ∀ r k, (r ≠ 0 ↔ b = true) → Q r (m + k)) :
    Panics h p b s (call_is_holding p) Q (m + 6) := by
  have hleave : ∀ (r : I32) k, (r ≠ 0 ↔ b = true) → Panics h p b s (do
      leave (.is_holding p) r
      pure r) Q (m + k + 1) := fun r k hr => wp_seq (panics_one rfl fun _ _ => hq r k hr)
  unfold call_is_holding
  refine wp_seq (panics_one rfl fun g hg => ?_)
  cases hg
  show Panics h p b s (is_holding_lk p) Q (m + 5)
  unfold is_holding_lk
  refine wp_seq (panics_one rfl fun _ _ => wp_seq (panics_one rfl fun x hx => ?_))
  by_cases h0 : x = (0 : I32)
  · rw [if_neg (by simpa using h0)]
    refine hleave 0 2 ⟨fun hn => absurd rfl hn, fun hb => ?_⟩
    have h1 : x = (1 : I32) := hx rfl hb
    rw [h0] at h1
    cases h1
  · rw [if_pos h0]
    refine wp_seq (panics_get_cur_cpu hh (wp_seq (panics_one rfl fun c hc => ?_)))
    refine hleave _ 0 ?_
    rw [← hc rfl]
    split
    · next hch => exact ⟨fun _ => hch, fun _ => by decide⟩
    · next hch => exact ⟨fun hn => absurd rfl hn, fun h => absurd h hch⟩

/-- A misused call panics before its 19th operation. -/
theorem panics_run {c : LockCall} {own : TaskPtr → Bool} (hc : c.Misused own) :
    Panics h c.lk (own c.lk) c.panic c.run (fun _ _ => False) 18 := by
  cases c with
  | acquire p =>
    show Panics h p (own p) .acquire_is_holding (call_acquire p) _ 18
    unfold call_acquire
    refine wp_seq (panics_one rfl fun g hg => ?_)
    cases hg
    show Panics h p (own p) .acquire_is_holding (acquire_lk p) _ 17
    unfold acquire_lk
    refine wp_seq (panics_one rfl fun _ _ => wp_seq (panics_push_off hh fun i => ?_))
    show Panics h p (own p) _ _ _ (6 + i)
    rw [Nat.add_comm]
    refine wp_seq (panics_is_holding hh fun r k hr => ?_)
    rw [if_pos (hr.2 hc)]
    exact Or.inl rfl
  | release p =>
    show Panics h p (own p) .release_not_holding (call_release p) _ 18
    unfold call_release
    refine wp_seq (panics_one rfl fun g hg => ?_)
    cases hg
    show Panics h p (own p) .release_not_holding (release_lk p) _ 17
    unfold release_lk
    refine wp_seq (panics_one rfl fun _ _ => wp_seq (panics_is_holding hh fun r k hr => ?_))
    have h0 : r = 0 := by
      by_contra hn
      exact absurd (hr.1 hn) (by rw [hc]; simp)
    rw [if_pos h0]
    exact Or.inl rfl
  | is_holding p => exact hc.elim

end

/-! ## The run of a misused call -/

theorem Op.harmless_simple {o : Op} (ho : Op.harmless o = true) : Op.simple o = true := by
  cases o <;> first | rfl | cases ho

theorem Op.harmless_exec {o : Op} (ho : Op.harmless o = true) (fail : Bool) (f : o.Ret → Code) :
    ∃ σ', σ.exec L h fail o f = some σ' := by
  cases o <;> first | exact ⟨_, rfl⟩ | cases ho

/-- The answers of the machine are those that the call is bound to panic on. -/
theorem misuseAns_of_table (hT : LockTable tr σ.mem) {x : Hart} (hx : σ.harts h = x)
    (htp : x.regs .tp = BitVec.ofNat 64 h) {fail : Bool} {o : Op} {r : o.Ret}
    (ho : Op.harmless o = true) (ha : Answer σ h fail o r) :
    MisuseAns h p (pastCpu h p tr) o r := by
  cases o with
  | load l =>
    rw [show r = σ.mem l from ha]
    cases l with
    | cell c =>
      cases c with
      | isLocked q => exact fun hq hb => hT.held h q (hT.ok h q (hq ▸ hb))
      | start => trivial
    | lk_cpu q => exact fun hq => hq ▸ hT.cpu h q
    | lk_acquire q => exact hT.acquire q
    | lk_release q => exact hT.release q
    | lk_is_holding q => exact hT.is_holding q
    | _ => trivial
  | r_tp =>
    subst hx
    exact (show r = _ from ha).trans htp
  | _ => trivial

theorem pastCpu_of_quiet {x : State × Event} (hx : ¬ writesLock h p x) :
    pastCpu h p (x :: tr) = pastCpu h p tr := by
  unfold pastCpu
  rw [List.findSome?_cons]
  have hn : cpuTurn h p x = none := by
    unfold cpuTurn
    split
    · next h' q c hp =>
      refine if_neg fun hc => hx (Or.inr (Or.inr (Or.inr ⟨c, ?_⟩)))
      rw [hp, hc.1, hc.2]
    · rfl
  rw [hn]

theorem not_writesLock {x : State × Event} {g : ℕ} {o : Op} (hx : performed x = some (g, o))
    (ho : g = h → Op.harmless o = true ∨ ∃ l, o = .loop l) : ¬ writesLock h p x := by
  rintro (⟨v, hp⟩ | ⟨v, hp⟩ | ⟨v, hp⟩ | ⟨v, hp⟩)
  all_goals
    rw [hx] at hp
    cases hp
    rcases ho rfl with ho | ⟨l, ho⟩ <;> cases ho

/-- Hart `h` is in its misused call `c`, which it began after the history `pre`. -/
structure Doomed (pre : Trace) (h : ℕ) (c : LockCall) (post : Trace) (σ : State) : Prop where
  quiet : ∀ x ∈ post, ¬ writesLock h c.lk x
  own : pastCpu h c.lk (post ++ pre) = pastCpu h c.lk pre
  bound : ∃ m, m + post.countP (stepped h) = 18 ∧
    Panics h c.lk (pastCpu h c.lk pre) c.panic (σ.harts h).code (fun _ _ => False) m

theorem Doomed.frame {c : LockCall} {x : State × Event} (hD : Doomed pre h c post σ)
    (hx : ¬ writesLock h c.lk x) {m : ℕ} (hm : m + (x :: post).countP (stepped h) = 18)
    (hp : Panics h c.lk (pastCpu h c.lk pre) c.panic (σ'.harts h).code (fun _ _ => False) m) :
    Doomed pre h c (x :: post) σ' := by
  refine ⟨fun y hy => ?_, ?_, m, hm, hp⟩
  · rcases List.mem_cons.1 hy with rfl | hy
    · exact hx
    · exact hD.quiet y hy
  · rw [List.cons_append, pastCpu_of_quiet hx]
    exact hD.own

theorem Doomed.step {c : LockCall} (hD : Doomed pre h c post σ) (hI : LockInv n (post ++ pre) σ)
    (hh : h < n) {e : Event} (hs : (lockCalls L n cs).step σ e = some σ') :
    Doomed pre h c ((σ, e) :: post) σ' := by
  obtain ⟨m, hm, hp⟩ := hD.bound
  cases e with
  | timer g => cases hs
  | compute g r pc =>
    simp only [lockCalls, State.step] at hs
    split at hs
    swap
    · cases hs
    cases hs
    refine hD.frame (m := m) ?_ ?_ ?_
    · rintro (⟨_, hx⟩ | ⟨_, hx⟩ | ⟨_, hx⟩ | ⟨_, hx⟩) <;> cases hx
    · exact hm
    · have hcode : ((σ.setHart g { σ.harts g with regs := r, pc := pc }).harts h).code =
          (σ.harts h).code := by
        show (Function.update σ.harts g _ h).code = _
        rw [Function.update_apply]
        split
        · next hg => rw [hg]
        · rfl
      rwa [hcode]
  | hart g fail =>
    simp only [lockCalls, State.step] at hs
    split at hs
    swap
    · cases hs
    next hg =>
    have hi := (hI.hart g hg).interrupted
    rw [if_neg (by simp [hi])] at hs
    split at hs
    swap
    · cases hs
    next o f hcode =>
    by_cases hgh : g = h
    · subst hgh
      rw [hcode] at hp
      rcases hp with rfl | ⟨m, rfl, ho, hrest⟩
      · cases hs
      obtain ⟨r, hx⟩ := exec_simple (Op.harmless_simple ho)
        (fun s he => by subst he; cases ho) hs
      refine hD.frame (m := m) (not_writesLock (performed_eq hi hcode) fun _ => Or.inl ho) ?_ ?_
      · have hstep : stepped g (σ, .hart g fail) = true := beq_self_eq_true g
        rw [List.countP_cons, if_pos hstep]
        omega
      · rw [hx.harts, Function.update_self]
        refine hrest r ?_
        rw [← hD.own]
        exact misuseAns_of_table hI.table rfl (hI.hart g hg).tp ho hx.answer
    · refine hD.frame (m := m) (not_writesLock (performed_eq hi hcode) fun hx => absurd hx hgh)
        ?_ ?_
      · rw [List.countP_cons, if_neg (by simpa [stepped] using hgh)]
        exact hm
      · have hother : (σ'.harts h).code = (σ.harts h).code := by
          rw [exec_other (Ne.symm hgh) hs]
        rwa [hother]

theorem misused_call (hn : n ≤ 2 ^ 31) (hr : Run (lockCalls L n cs) pre σ) (hh : h < n)
    {c : LockCall} {f : Unit → Code} (hcode : (σ.harts h).code = c.run.bind f)
    (hc : c.Misused (pastCpu h · pre)) (hr' : Run ((lockCalls L n cs).from σ) post σ') :
    Doomed pre h c post σ' := by
  refine Run.invariant (M := (lockCalls L n cs).from σ) (fun post σ' => Doomed pre h c post σ')
    (fun s hs => ?_) (fun post s e s' hr' hD hs => ?_) hr'
  · subst hs
    refine ⟨fun x hx => (by cases hx), rfl, 18, rfl, ?_⟩
    rw [hcode]
    show wp _ _ _ _
    rw [wp_bind]
    exact wp_mono Rules.within_mono (fun _ _ (hf : False) => hf.elim)
      (panics_run (Nat.lt_of_lt_of_le hh hn) hc)
  · exact hD.step (lockInv hn (hr.append hr')) hh
      (show (lockCalls L n cs).step s e = some s' from hs)

/-- A hart in a misused call is at the panic, or can go on. -/
theorem Doomed.moves {c : LockCall} (hD : Doomed pre h c post σ) (hI : LockInv n (post ++ pre) σ)
    (hh : h < n) : σ.next h = some (.panic c.panic) ∨
      ∃ σ', (lockCalls L n cs).step σ (.hart h false) = some σ' := by
  obtain ⟨m, _, hp⟩ := hD.bound
  have hi := (hI.hart h hh).interrupted
  cases hcode : (σ.harts h).code with
  | pure a =>
    rw [hcode] at hp
    exact hp.elim
  | op o f =>
    rw [hcode] at hp
    rcases hp with rfl | ⟨m, rfl, ho, -⟩
    · exact Or.inl (next_eq hi hcode)
    · obtain ⟨σ', hs⟩ := Op.harmless_exec (L := L) (σ := σ) (h := h) ho false f
      refine Or.inr ⟨σ', ?_⟩
      simp only [lockCalls, State.step]
      rw [if_pos hh, if_neg (by simp [hi]), hcode]
      exact hs

/-! ## Safety -/

/-- At most one hart is between taking a lock and clearing it; `is_holding` answers a hart whether
`lk->cpu` was written by its `acquire` and not yet cleared by its `release`; and a call that takes
a lock again, or releases one the hart does not hold, leaves the lock alone and panics: within 18
operations it is at the panic, and until then it can go on. -/
theorem spin_lock_safety (hn : n ≤ 2 ^ 31) (hr : Run (lockCalls L n cs) tr σ) :
    (∀ h h' p, hasTaken h p tr = true → hasTaken h' p tr = true → h = h') ∧
    (∀ h < n, ∀ p r, σ.next h = some (.leave (.is_holding p) r) →
      (r ≠ 0 ↔ pastCpu h p tr = true)) ∧
    ∀ h < n, ∀ (c : LockCall) (f : Unit → Code), (σ.harts h).code = c.run.bind f →
      c.Misused (pastCpu h · tr) → ∀ post σ', Run ((lockCalls L n cs).from σ) post σ' →
        (∀ x ∈ post, ¬ writesLock h c.lk x) ∧ post.countP (stepped h) ≤ 18 ∧
        (σ'.next h = some (.panic c.panic) ∨
          ∃ σ'', (lockCalls L n cs).step σ' (.hart h false) = some σ'') := by
  have hI := lockInv hn hr
  refine ⟨hI.table.uniq, fun h hh p r hnext => ?_, fun h hh c f hcode hc post σ' hr' => ?_⟩
  · have hcalls := (hI.hart h hh).calls
    obtain ⟨hi, k, hcode⟩ := next_some hnext
    rw [hcode] at hcalls
    rcases hcalls with hcalls | hcalls
    · cases hcalls
    · exact (hcalls (hI.table.ok h)).1
  · have hD := misused_call hn hr hh hcode hc hr'
    refine ⟨hD.quiet, ?_, hD.moves (lockInv hn (hr.append hr')) hh⟩
    obtain ⟨m, hm, _⟩ := hD.bound
    omega

/-- Every lock is free. -/
def readyMem : Mem
  | .lk_acquire _ => LockFn.acquire_lk
  | .lk_release _ => LockFn.release_lk
  | .lk_is_holding _ => LockFn.is_holding_lk
  | l => Mem.zero l

def callers (cs : ℕ → List LockCall) : State :=
  { State.start (.sample 1 Nat.one_pos one_le_max) with
    harts := fun h => { Hart.start (.sample 1 Nat.one_pos one_le_max) h with
      code := Prog.each LockCall.run (cs h) }
    mem := readyMem }

theorem callers_calling (n : ℕ) (cs : ℕ → List LockCall) : (callers cs).Calling n cs :=
  ⟨fun _ _ => ⟨rfl, rfl, rfl⟩, fun _ => ⟨rfl, rfl, rfl, rfl, rfl⟩⟩

/-- Hart 0 takes a lock that hart 1 releases. -/
def wrongRelease : ℕ → List LockCall
  | 0 => [.acquire (.gTasks 0)]
  | _ => [.release (.gTasks 0)]

theorem spin_lock_safety_two_harts : ∃ (post : Trace) (σ' : State),
    Run ((lockCalls .sample 2 wrongRelease).from (callers wrongRelease)) post σ' ∧
      post.countP (stepped 1) = 5 ∧ (∀ x ∈ post, ¬ writesLock 1 (.gTasks 0) x) ∧
      (σ'.next 1 = some (.panic .release_not_holding) ∨
        ∃ σ'', (lockCalls .sample 2 wrongRelease).step σ' (.hart 1 false) = some σ'') := by
  obtain ⟨post, σ', hr, hp⟩ :=
    Run.of_perform (M := (lockCalls .sample 2 wrongRelease).from (callers wrongRelease)) rfl
      (List.replicate 5 (.hart 1 false)) (P := fun x => x.1.countP (stepped 1) == 5)
      (by decide +kernel)
  have h := (spin_lock_safety (by decide) (.init (callers_calling 2 wrongRelease))).2.2 1
    (by decide) (.release (.gTasks 0)) _ rfl rfl post σ' hr
  exact ⟨post, σ', hr, by simpa using hp, h.1, h.2.2⟩

end GQuuuuuunix.Properties
