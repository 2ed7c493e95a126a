import GQuuuuuunix.Proof.Adequacy
import GQuuuuuunix.Proof.LongRuns
import GQuuuuuunix.Lib.RoundRobin

/-! # A pass of the scheduler passes nobody by -/

namespace GQuuuuuunix.Properties
open Lib Kernel Proof
set_option autoImplicit false

variable {cfg : Config} {σ σ' : State} {vs vs' : ℕ → View} {tr : Trace} {e : Event} {h : ℕ}
  {t : Slot}

/-! ## What a step makes of the pass and of the task in hand -/

/-- The pass is where it was, and no task was taken in hand. -/
structure Ghost.Steady (k k' : Ghost) : Prop where
  scan : k'.scan = k.scan
  run : ∀ t, k'.run = some t → k.run = some t
  st : k'.st = k.st

theorem Ghost.steady_after {k : Ghost} {o : Op} (hl : ∀ p, o ≠ .load (.state p))
    (hs : ∀ p x, o ≠ .store (.state p) x) (hb : o ≠ .point .pass_begin) (r : o.Ret) :
    Steady k (k.after o r) := by
  have hrefl : Steady k k := ⟨rfl, fun _ h => h, rfl⟩
  unfold Ghost.after
  split <;> try exact ⟨rfl, fun _ h => h, rfl⟩
  · exact absurd rfl (hl _)
  · exact absurd rfl (hs _ _)
  · split <;> exact ⟨rfl, fun _ h => h, rfl⟩
  · split <;> exact ⟨rfl, fun _ h => h, rfl⟩
  · split <;> exact ⟨rfl, fun _ h => h, rfl⟩
  · split <;> exact ⟨rfl, fun _ h => h, rfl⟩
  · split
    · refine ⟨rfl, fun t ht => ?_, rfl⟩
      have ht' : (if k.st = .RUNNABLE then none else k.run) = some t := ht
      split at ht'
      · cases ht'
      · exact ht'
    · exact hrefl
  · split <;> exact ⟨rfl, fun _ h => h, rfl⟩
  · exact absurd rfl hb

/-! ## A task that waits to be dispatched -/

/-- Hart `g` does not keep task `t` from being dispatched: it gives the task up, or is about to
dispatch it. -/
def Ghost.Yields (k : Ghost) (t : Slot) : Prop :=
  k.run = some t → k.st = .RUNNABLE ∨ (k.st = .RUNNING ∧ k.scan = t)

/-- The pass of hart `h` has not come by task `t`, which nobody is running. -/
structure Waiting (cfg : Config) (vs : ℕ → View) (h : ℕ) (t : Slot) : Prop where
  opened : (vs 0).k.stage = .opened
  hart : h < cfg.harts
  added : (t : ℕ) < cfg.pids.length
  scan : (vs h).k.scan ≤ t
  yields : ∀ g < cfg.harts, Ghost.Yields (vs g).k t

/-- A pass of hart `h` found task `t` RUNNABLE at its beginning, and `t` has not been dispatched
since. -/
def Pending (h : ℕ) (t : Slot) : Trace → Prop
  | [] => False
  | x :: tr => dispatch x ≠ some t ∧
    ((performed x = some (h, .point .pass_begin) ∧
      x.1.mem (.state (.gTasks t)) = TaskState.RUNNABLE) ∨ Pending h t tr)

theorem Waiting.update (hw : Waiting cfg vs h t) {g : ℕ} {w : View}
    (hop : (Function.update vs g w 0).k.stage = .opened) (hscan : g = h → w.k.scan ≤ t)
    (hy : Ghost.Yields w.k t) : Waiting cfg (Function.update vs g w) h t := by
  refine ⟨hop, hw.hart, hw.added, ?_, fun g' hg' => ?_⟩
  · by_cases hne : h = g
    · rw [hne, Function.update_self]
      exact hscan hne.symm
    · rw [Function.update_of_ne hne]
      exact hw.scan
  · by_cases hne : g' = g
    · rw [hne, Function.update_self]
      exact hy
    · rw [Function.update_of_ne hne]
      exact hw.yields g' hg'

theorem Ghost.Steady.yields {k k' : Ghost} (hs : Steady k k') (hy : Ghost.Yields k t) :
    Ghost.Yields k' t := by
  intro hrun
  rw [hs.st, hs.scan]
  exact hy (hs.run t hrun)

theorem Waiting.still (hw : Waiting cfg vs h t) (hs : Still σ vs σ' vs') :
    Waiting cfg vs' h t := by
  refine ⟨?_, hw.hart, hw.added, ?_, fun g hg => ?_⟩
  · rw [(hs.same 0).stage]
    exact hw.opened
  · rw [(hs.same h).scan]
    exact hw.scan
  · intro hrun
    rw [(hs.same g).st, (hs.same g).scan]
    exact hw.yields g hg ((hs.same g).run ▸ hrun)

/-- A hart that has the lock of a waiting task, and no task in hand, finds it RUNNABLE. -/
theorem Waiting.runnable (hI : Inv cfg σ vs) (hw : Waiting cfg vs h t) {g : ℕ}
    (hg : g < cfg.harts) (hheld : (vs g).k.held = some t) (hrun : (vs g).k.run = none) :
    σ.mem (.state (.gTasks t)) = TaskState.RUNNABLE := by
  have hs := (hI.table hw.opened).state t
  by_cases hr : ∃ g' < cfg.harts, (vs g').k.run = some t
  · obtain ⟨g', hg', hr⟩ := hr
    have hok := hI.ok g' hg'
    rw [(hs.running g' hg' hr).1]
    rcases hw.yields g' hg' hr with hst | ⟨_, hscan⟩
    · exact hst
    -- it is about to dispatch the task, and so has the lock
    · exfalso
      cases hstk : (vs g').k.stk with
      | hart c =>
        obtain rfl := hI.held_inj g hg g' hg' t hheld (hok.run_held t c hr hstk)
        rw [hrun] at hr
        cases hr
      | task t' =>
        obtain ⟨hr', _, hscan'⟩ := hok.stk_task t' hstk
        rw [hr] at hr'
        cases hr'
        omega
  · rw [hs.idle fun g' hg' hr' => hr ⟨g', hg', hr'⟩]
    exact if_pos hw.added

section
variable {o : Op} {r : o.Ret} {fail : Bool} {c : Code} {w : View} {g : ℕ}

theorem Waiting.op (hI : Inv cfg σ vs) (hw : Waiting cfg vs h t) (hg : g < cfg.harts)
    (hp : Pre cfg o (vs g)) (hx : Performed σ g fail o r c σ')
    (hgo : Goes cfg σ' o r (vs g) w) : Waiting cfg (Function.update vs g w) h t := by
  have hop := Inv.opened_step hgo hw.opened
  have hy := hw.yields g hg
  have hscan : g = h → (vs g).k.scan ≤ t := fun he => he ▸ hw.scan
  by_cases hl : ∃ p, o = .load (.state p)
  · obtain ⟨p, rfl⟩ := hl
    cases p with
    | static j =>
      refine hw.update hop ?_ ?_ <;> rw [hgo.k]
      · exact hscan
      · exact hy
    | gTasks t' =>
      have hk : w.k = if (vs g).k.held = some t' ∧ (vs g).k.run = none then
          if r = TaskState.RUNNABLE then (vs g).k.claim t' else (vs g).k.setScan (t' + 1)
        else (vs g).k := hgo.k
      split at hk
      · next hfree =>
        split at hk
        · refine hw.update hop ?_ ?_ <;> rw [hk]
          · exact hscan
          · exact fun _ => Or.inl rfl
        · next hr =>
          have hat : (vs g).k.scan = t' := hp hfree.1 hfree.2
          have hne : t' ≠ t := by
            rintro rfl
            exact hr (hx.answer.trans (Waiting.runnable hI hw hg hfree.1 hfree.2))
          refine hw.update hop (fun he => ?_) (fun hrun => ?_) <;> rw [hk] at *
          · have hle := hscan he
            have hne' : (t' : ℕ) ≠ t := fun h => hne (Fin.ext h)
            show (t' : ℕ) + 1 ≤ t
            omega
          · rw [show (vs g).k.run = some t from hrun] at hfree
            cases hfree.2
      · refine hw.update hop ?_ ?_ <;> rw [hk]
        · exact hscan
        · exact hy
  by_cases hs : ∃ p x, o = .store (.state p) x
  · obtain ⟨p, x, rfl⟩ := hs
    have hk : w.k = if (vs g).k.stage = .boot then (vs g).k else (vs g).k.setSt x := hgo.k
    split at hk
    · refine hw.update hop ?_ ?_ <;> rw [hk]
      · exact hscan
      · exact hy
    · next hst =>
      obtain hb | ⟨t', _, _, hrun, hx⟩ := hp
      · exact absurd hb hst
      refine hw.update hop ?_ ?_ <;> rw [hk]
      · exact hscan
      · intro hrun'
        rw [show (vs g).k.run = some t from hrun'] at hrun
        cases hrun
        exact hx
  by_cases hb : o = .point .pass_begin
  · subst hb
    have hnone : (vs g).k.run = none := hp.2.1
    refine hw.update hop (fun _ => ?_) (fun hrun => ?_) <;> rw [hgo.k] at *
    · exact Nat.zero_le _
    · rw [show (vs g).k.run = some t from hrun] at hnone
      cases hnone
  · have hsteady := Ghost.steady_after (k := (vs g).k) (fun p he => hl ⟨p, he⟩)
      (fun p x he => hs ⟨p, x, he⟩) hb r
    rw [← hgo.k] at hsteady
    refine hw.update hop (fun he => ?_) (hsteady.yields hy)
    rw [hsteady.scan]
    exact hscan he

/-- At the beginning of a pass a RUNNABLE task waits. -/
theorem Waiting.begin (hI : Inv cfg σ vs) (hg : g < cfg.harts)
    (hp : Pre cfg (.point .pass_begin) (vs g)) {r : Unit}
    (hgo : Goes cfg σ' (.point .pass_begin) r (vs g) w)
    (hst : σ.mem (.state (.gTasks t)) = TaskState.RUNNABLE) :
    Waiting cfg (Function.update vs g w) g t := by
  obtain ⟨_, hnone, _, hstage⟩ := hp
  have hop := hI.opened g hg hstage
  have hs := (hI.table hop).state t
  have hadded : (t : ℕ) < cfg.pids.length := by
    by_cases hr : ∃ g' < cfg.harts, (vs g').k.run = some t
    · obtain ⟨g', hg', hr⟩ := hr
      exact (hs.running g' hg' hr).2
    · rw [hs.idle fun g' hg' hr' => hr ⟨g', hg', hr'⟩] at hst
      by_contra hlt
      rw [if_neg hlt] at hst
      cases hst
  refine ⟨Inv.opened_step hgo hop, hg, hadded, ?_, fun g' hg' hrun => ?_⟩
  · rw [Function.update_self, hgo.k]
    exact Nat.zero_le _
  · by_cases hne : g' = g
    · rw [hne, Function.update_self, hgo.k] at hrun
      rw [show (vs g).k.run = some t from hrun] at hnone
      cases hnone
    · rw [Function.update_of_ne hne] at hrun ⊢
      exact Or.inl ((hs.running g' hg' hrun).1 ▸ hst)

end

section
variable {g : ℕ} {s : SwitchSite} {en : I32} {t' : Slot} {fs : List Fn}

theorem Waiting.call (hw : Waiting cfg vs h t) (hk : (vs g).k = .atSwitch s g en t' fs)
    (hne : s = .scheduler → t' ≠ t) :
    Waiting cfg (Function.update vs g ((vs g).called cfg.layout s t')) h t := by
  have hcalled : ((vs g).called cfg.layout s t').k.scan = t' + 1 ∧
      ((vs g).called cfg.layout s t').k.run = some t' ∧
      ((vs g).called cfg.layout s t').k.st = (vs g).k.st ∧
      ((vs g).called cfg.layout s t').k.stage = .opened := by
    rw [hk]
    exact ⟨rfl, rfl, rfl, rfl⟩
  obtain ⟨hscan', hrun', hst', hstage'⟩ := hcalled
  refine hw.update ?_ (fun he => ?_) (fun hrun => ?_)
  · rw [update_k]
    split
    · exact hstage'
    · exact hw.opened
  · rw [hscan']
    have hle := hw.scan
    rw [← he, hk] at hle
    cases s with
    | sched => exact hle
    | scheduler =>
      have hle' : (t' : ℕ) ≤ t := hle
      have hne' : (t' : ℕ) ≠ t := fun h => hne rfl (Fin.ext h)
      omega
  · rw [hrun'] at hrun
    cases hrun
    rw [hst', hk]
    cases s with
    | sched => exact Or.inl rfl
    | scheduler => exact absurd rfl (hne rfl)

theorem Returns.pass {k : Ghost} (hr : Returns cfg s g en t' k) :
    k.scan = t' + 1 ∧ k.run = some t' ∧ (s = .sched → k.st = .RUNNABLE) := by
  cases hr with
  | scheduler _ _ => exact ⟨rfl, rfl, fun _ => rfl⟩
  | sched _ hs => exact ⟨rfl, rfl, fun h => by rw [hs] at h; cases h⟩
  | first hs => exact ⟨rfl, rfl, fun h => by rw [hs] at h; cases h⟩

theorem Waiting.ret (hw : Waiting cfg vs h t) (hg : g < cfg.harts) {ρ : CtxWord → U64} {w : View}
    (hk : (vs g).k = .switching s g en t' fs ρ) (hr : Returns cfg s g en t' w.k) :
    Waiting cfg (Function.update vs g w) h t := by
  obtain ⟨hscan', hrun', hst'⟩ := Returns.pass hr
  refine hw.update ?_ (fun he => ?_) (fun hrun => ?_)
  · rw [update_k]
    split
    · exact hr.stage
    · exact hw.opened
  · rw [hscan']
    have hle := hw.scan
    rw [← he, hk] at hle
    exact hle
  · rw [hrun'] at hrun
    cases hrun
    cases s with
    | sched => exact Or.inl (hst' rfl)
    -- the task was dispatched, and so was not waiting
    | scheduler =>
      have hy := hw.yields g hg (by rw [hk]; rfl)
      rw [hk] at hy
      rcases hy with hy | ⟨_, hy⟩
      · cases hy
      · have hy' : (t : ℕ) + 1 = t := hy
        omega

end

theorem dispatch_call {x : State × Event} {s : SwitchSite} {t' : Slot}
    (hp : performed x = some (h, .call_switch_to s (oldCtx s h t') (newCtx s h t'))) :
    dispatch x = if s = .scheduler then some t' else none := by
  unfold dispatch
  rw [hp]
  cases s <;> rfl

theorem dispatch_eq_none {x : State × Event}
    (hx : ∀ h s old new, performed x ≠ some (h, .call_switch_to s old new)) :
    dispatch x = none := by
  unfold dispatch
  split
  · next h c t hp => exact absurd hp (hx _ _ _ _)
  · rfl

theorem dispatch_noSwitch {x : State × Event} (hx : noSwitch x) : dispatch x = none :=
  dispatch_eq_none hx.1

theorem waiting (hg : GRun cfg tr σ vs) : ∀ h t, Pending h t tr → Waiting cfg vs h t := by
  induction hg with
  | boot hb => exact fun h t hp => hp.elim
  | @step tr σ σ' vs vs' e hg hI hm hI' ih =>
    rintro h t ⟨hno, hp⟩
    have hstill : quiet (σ, e) → Waiting cfg vs' h t := by
      intro hq
      refine (ih h t (hp.resolve_left fun hx => ?_)).still (hm.still hq)
      rcases hq with hq | ⟨_, _, hq⟩ <;> rw [hx.1] at hq <;> cases hq
    cases hm with
    | op hh hi hcode hs hpre hx hgo =>
      rcases hp with ⟨hb, hst⟩ | hp
      · rw [performed_eq hi hcode] at hb
        cases hb
        exact Waiting.begin hI hh hpre hgo hst
      · exact Waiting.op hI (ih h t hp) hh hpre hx hgo
    | @call g fail _ _ _ _ _ hh hi hcode hk =>
      have hpf : performed (σ, .hart g fail) = _ := performed_eq hi hcode
      rw [dispatch_call hpf] at hno
      refine (ih h t (hp.resolve_left fun hx => ?_)).call hk fun hs ht => ?_
      · rw [hpf] at hx
        cases hx.1
      · rw [if_pos hs, ht] at hno
        exact hno rfl
    | ret hh hi hcode hk hsaved hw =>
      refine (ih h t (hp.resolve_left fun hx => ?_)).ret hh hk hw
      rw [performed_eq hi hcode] at hx
      cases hx.1
    | loop hh hi hcode => exact hstill (quiet_loop hi hcode)
    | trap hh hi hsie => exact hstill (quiet_trap hi)
    | compute hh => exact hstill (Or.inl rfl)
    | timer hh => exact hstill (Or.inl rfl)

/-! ## One hart: the order of the dispatches -/

/-- The slot that a pass over `m` added tasks dispatches next. -/
def nextSlot (m scan : ℕ) : ℕ := if scan < m then scan else 0

/-- With one hart the dispatches go round, and the pass says where they are. -/
structure GoesRound (cfg : Config) (tr : Trace) (vs : ℕ → View) : Prop where
  rounds : Rounds cfg.pids.length ((dispatches tr).map Fin.val)
  next : (dispatches tr).length % cfg.pids.length = nextSlot cfg.pids.length (vs 0).k.scan

theorem dispatches_none {x : State × Event} (hx : dispatch x = none) :
    dispatches (x :: tr) = dispatches tr := by
  unfold dispatches
  rw [List.filterMap_cons_none hx]

theorem dispatches_some {x : State × Event} (hx : dispatch x = some t) :
    dispatches (x :: tr) = dispatches tr ++ [t] := by
  unfold dispatches
  rw [List.filterMap_cons_some hx, List.reverse_cons]

theorem nextSlot_step {m s : ℕ} (hs : m ≤ s) : nextSlot m (s + 1) = nextSlot m s := by
  unfold nextSlot
  rw [if_neg (by omega), if_neg (by omega)]

theorem GoesRound.frame (hJ : GoesRound cfg tr vs) {x : State × Event} (hx : dispatch x = none)
    (hs : nextSlot cfg.pids.length (vs' 0).k.scan = nextSlot cfg.pids.length (vs 0).k.scan) :
    GoesRound cfg (x :: tr) vs' := by
  refine ⟨?_, ?_⟩
  · rw [dispatches_none hx]
    exact hJ.rounds
  · rw [dispatches_none hx, hs]
    exact hJ.next

section
variable {o : Op} {r : o.Ret} {fail : Bool} {c : Code} {w : View}

theorem GoesRound.op (h1 : cfg.harts = 1) (hI : Inv cfg σ vs) (hJ : GoesRound cfg tr vs)
    (hs : Op.simple o = true) (hpf : performed (σ, e) = some (0, o)) (hp : Pre cfg o (vs 0))
    (hx : Performed σ 0 fail o r c σ') (hgo : Goes cfg σ' o r (vs 0) w) :
    GoesRound cfg ((σ, e) :: tr) (Function.update vs 0 w) := by
  have h0 : 0 < cfg.harts := cfg.harts_pos
  refine hJ.frame (dispatch_noSwitch (noSwitch_simple hpf hs)) ?_
  rw [Function.update_self, hgo.k]
  by_cases hl : ∃ p, o = .load (.state p)
  · obtain ⟨p, rfl⟩ := hl
    cases p with
    | static j => rfl
    | gTasks t' =>
      show nextSlot _ (if (vs 0).k.held = some t' ∧ (vs 0).k.run = none then
          if r = TaskState.RUNNABLE then (vs 0).k.claim t' else (vs 0).k.setScan (t' + 1)
        else (vs 0).k).scan = _
      split
      · next hfree =>
        split
        · rfl
        -- the only hart has no task in hand, so every added task is RUNNABLE
        · next hr =>
          have hat : (vs 0).k.scan = t' := hp hfree.1 hfree.2
          have hop := hI.opened 0 h0 ((hI.ok 0 h0).held_opened t' hfree.1)
          have hst := ((hI.table hop).state t').idle fun g hg hrun => by
            obtain rfl : g = 0 := by omega
            rw [hfree.2] at hrun
            cases hrun
          have hle : cfg.pids.length ≤ t' := by
            by_contra hlt
            rw [if_pos (Nat.not_le.1 hlt)] at hst
            exact hr (hx.answer.trans hst)
          rw [hat]
          exact nextSlot_step hle
      · rfl
  by_cases hst : ∃ p x, o = .store (.state p) x
  · obtain ⟨p, x, rfl⟩ := hst
    show nextSlot _ (if (vs 0).k.stage = .boot then (vs 0).k else (vs 0).k.setSt x).scan = _
    split <;> rfl
  by_cases hb : o = .point .pass_begin
  · subst hb
    have hend : (vs 0).k.scan = TASK_MAX_NRS := hp.1
    have hle := cfg.pids_le
    rw [hend]
    show nextSlot _ 0 = _
    unfold nextSlot
    rw [if_neg (Nat.not_lt.2 hle)]
    split <;> rfl
  · have hsteady := Ghost.steady_after (k := (vs 0).k) (fun p he => hl ⟨p, he⟩)
      (fun p x he => hst ⟨p, x, he⟩) hb r
    rw [hsteady.scan]

theorem GoesRound.call (hI : Inv cfg σ vs) (hJ : GoesRound cfg tr vs) {s : SwitchSite} {en : I32}
    {fs : List Fn} (hk : (vs 0).k = .atSwitch s 0 en t fs)
    (hpf : performed (σ, e) = some (0, .call_switch_to s (oldCtx s 0 t) (newCtx s 0 t))) :
    GoesRound cfg ((σ, e) :: tr) (Function.update vs 0 ((vs 0).called cfg.layout s t)) := by
  have h0 : 0 < cfg.harts := cfg.harts_pos
  have hdisp := dispatch_call hpf
  have hscan : ((vs 0).called cfg.layout s t).k.scan = t + 1 := by
    rw [View.called, hk]
    rfl
  cases s with
  | sched =>
    refine hJ.frame hdisp ?_
    rw [Function.update_self, hscan, hk]
    rfl
  | scheduler =>
    have hrun : (vs 0).k.run = some t := by rw [hk]; rfl
    have hop := hI.opened 0 h0 (by rw [hk]; rfl)
    have hlt := (((hI.table hop).state t).running 0 h0 hrun).2
    have hnext : (dispatches tr).length % cfg.pids.length = t := by
      rw [hJ.next, hk]
      exact if_pos hlt
    have hlen : ((dispatches tr).map Fin.val).length = (dispatches tr).length := List.length_map ..
    refine ⟨?_, ?_⟩
    · rw [dispatches_some hdisp, List.map_append, List.map_singleton, ← hnext, ← hlen]
      exact hJ.rounds.snoc
    · rw [dispatches_some hdisp, List.length_append, List.length_singleton, Function.update_self,
        hscan, Nat.add_mod, hnext]
      unfold nextSlot
      split
      · next hlt' =>
        rw [Nat.mod_eq_of_lt (show 1 < cfg.pids.length by omega), Nat.mod_eq_of_lt hlt']
      · next hge =>
        have hlast : (t : ℕ) + 1 = cfg.pids.length := by omega
        rcases Nat.lt_or_ge 1 cfg.pids.length with h1 | h1
        · rw [Nat.mod_eq_of_lt h1, hlast, Nat.mod_self]
        · rw [show cfg.pids.length = 1 by omega, Nat.mod_one]

end

theorem goesRound (h1 : cfg.harts = 1) (hg : GRun cfg tr σ vs) : GoesRound cfg tr vs := by
  induction hg with
  | boot hb =>
    refine ⟨Rounds.nil, ?_⟩
    show 0 % _ = nextSlot _ TASK_MAX_NRS
    unfold nextSlot
    rw [if_neg (Nat.not_lt.2 cfg.pids_le), Nat.zero_mod]
  | @step tr σ σ' vs vs' e hg hI hm hI' ih =>
    have hstill : quiet (σ, e) → GoesRound cfg ((σ, e) :: tr) vs' := by
      intro hq
      refine ih.frame (dispatch_noSwitch (noSwitch_quiet hq)) ?_
      rw [((hm.still hq).same 0).scan]
    cases hm with
    | @op h fail o f r w σ' hh hi hcode hs hpre hx hgo =>
      obtain rfl : h = 0 := by omega
      exact ih.op h1 hI hs (performed_eq hi hcode) hpre hx hgo
    | @call h fail s en t fs f hh hi hcode hk =>
      obtain rfl : h = 0 := by omega
      exact ih.call hI hk (performed_eq hi hcode)
    | @ret h fail s en t fs ρ f w hh hi hcode hk hsaved hw =>
      obtain rfl : h = 0 := by omega
      refine ih.frame (dispatch_eq_none fun _ _ _ _ hp => ?_) ?_
      · rw [performed_eq hi hcode] at hp
        cases hp
      · rw [Function.update_self, (Returns.pass hw).1, hk]
        rfl
    | loop hh hi hcode => exact hstill (quiet_loop hi hcode)
    | trap hh hi hsie => exact hstill (quiet_trap hi)
    | compute hh => exact hstill (Or.inl rfl)
    | timer hh => exact hstill (Or.inl rfl)

/-! ## Bounded bypass -/

theorem pending_of_begin {x : State × Event}
    (hx : performed x = some (h, .point .pass_begin))
    (hst : x.1.mem (.state (.gTasks t)) = TaskState.RUNNABLE) :
    ∀ {mid : Trace}, (∀ y ∈ mid, dispatch y ≠ some t) → Pending h t (mid ++ x :: tr)
  | [], _ => by
    refine ⟨?_, Or.inl ⟨hx, hst⟩⟩
    rw [dispatch_noSwitch (noSwitch_simple hx rfl)]
    exact fun hn => by cases hn
  | y :: mid, hno => ⟨hno y List.mem_cons_self,
      Or.inr (pending_of_begin hx hst fun z hz => hno z (List.mem_cons_of_mem _ hz))⟩

theorem of_beginsPass {x : State × Event} (hb : beginsPass h x = true) :
    performed x = some (h, .point .pass_begin) ∧
      x.1.mem (.state (.gTasks 0)) = TaskState.RUNNABLE ∧
      x.1.mem (.state (.gTasks 1)) = TaskState.RUNNABLE := by
  unfold beginsPass at hb
  split at hb
  · next h' hp =>
    simp only [Bool.and_eq_true, beq_iff_eq, decide_eq_true_eq] at hb
    obtain ⟨⟨rfl, h0⟩, h1⟩ := hb
    exact ⟨hp, h0, h1⟩
  · cases hb

theorem of_endsPass {x : State × Event} (hb : endsPass h x = true) :
    performed x = some (h, .point .pass_end) := by
  unfold endsPass at hb
  split at hb
  · next h' hp =>
    obtain rfl := eq_of_beq hb
    exact hp
  · cases hb

theorem of_passed (hb : passed h tr = true) : ∃ post last mid first past,
    tr = post ++ last :: (mid ++ first :: past) ∧ endsPass h last = true ∧
      beginsPass h first = true := by
  induction tr with
  | nil => cases hb
  | cons x tr ih =>
    rcases (Bool.or_eq_true _ _).mp hb with hx | hrest
    · obtain ⟨hend, hany⟩ := (Bool.and_eq_true _ _).mp hx
      obtain ⟨first, hmem, hfirst⟩ := List.any_eq_true.1 hany
      obtain ⟨mid, past, rfl⟩ := List.append_of_mem hmem
      exact ⟨[], x, mid, first, past, rfl, hend, hfirst⟩
    · obtain ⟨post, last, mid, first, past, rfl, hp⟩ := ih hrest
      exact ⟨x :: post, last, mid, first, past, rfl, hp⟩

/-- A task that is RUNNABLE when the scheduler of a hart begins a pass over the table is dispatched
by some hart before that pass ends. With one hart the dispatches go round the slots: every other
added task is dispatched exactly once between two consecutive dispatches of a task. -/
theorem bounded_bypass (hr : Run (kernel cfg) tr σ) :
    (∀ h (t : Slot) first last mid past post, tr = post ++ last :: (mid ++ first :: past) →
      performed first = some (h, .point .pass_begin) →
      performed last = some (h, .point .pass_end) →
      first.1.mem (.state (.gTasks t)) = TaskState.RUNNABLE →
      ∃ x ∈ mid, dispatch x = some t) ∧
    (cfg.harts = 1 → Rounds cfg.pids.length ((dispatches tr).map Fin.val) ∧
      ∀ (i j : ℕ) (t u : Slot), i < j → (dispatches tr)[i]? = some t →
        (dispatches tr)[j]? = some t → (∀ k, i < k → k < j → (dispatches tr)[k]? ≠ some t) →
        (u : ℕ) < cfg.pids.length → u ≠ t →
        ∃! k, i < k ∧ k < j ∧ (dispatches tr)[k]? = some u) := by
  refine ⟨fun h t first last mid past post htr hfirst hlast hst => ?_, fun h1 => ?_⟩
  · by_contra hno
    subst htr
    obtain ⟨vs, hg⟩ := grun_of_run hr.past
    obtain ⟨σ', hs⟩ := hr.moved
    obtain ⟨vs', hm, _⟩ := hg.inv.step hs
    have hh : h < cfg.harts := performed_lt hm hlast
    have hend : (vs h).k.scan = TASK_MAX_NRS := hg.inv.pre_next hh (performed_next hlast)
    have hw := waiting hg h t (pending_of_begin hfirst hst fun y hy hd => hno ⟨y, hy, hd⟩)
    have hle := hw.scan
    have hlt := t.isLt
    omega
  · obtain ⟨vs, hg⟩ := grun_of_run hr
    have hJ := goesRound h1 hg
    refine ⟨hJ.rounds, fun i j t u hij hi hj hno hu hne => ?_⟩
    have hget : ∀ (k : ℕ) (x : Slot), (dispatches tr)[k]? = some x ↔
        ((dispatches tr).map Fin.val)[k]? = some (x : ℕ) := by
      intro k x
      rw [List.getElem?_map]
      cases (dispatches tr)[k]? with
      | none => simp
      | some y => simp [Fin.ext_iff]
    simp only [ne_eq, hget] at hi hj hno ⊢
    exact hJ.rounds.between hij hi hj hno hu fun h => hne (Fin.ext h)

/-- The only hart goes round its two tasks twice, over the end of a pass that began with both
RUNNABLE. -/
theorem bounded_bypass_two_rounds : ∃ (tr : Trace) (σ : State) (post mid past : Trace)
    (last first : State × Event), Run (kernel oneHart) tr σ ∧
      tr = post ++ last :: (mid ++ first :: past) ∧
      performed first = some (0, .point .pass_begin) ∧
      performed last = some (0, .point .pass_end) ∧
      (∃ x ∈ mid, dispatch x = some 0) ∧ (∃ x ∈ mid, dispatch x = some 1) ∧
      dispatches tr = [0, 1, 0, 1] ∧ Rounds 2 ((dispatches tr).map Fin.val) ∧
      ∃! k, 0 < k ∧ k < 2 ∧ (dispatches tr)[k]? = some 1 := by
  obtain ⟨tr, σ, hr, hd, hpass, _⟩ := twoRounds_run
  obtain ⟨post, last, mid, first, past, htr, hend, hbegin⟩ := of_passed hpass
  have hlast := of_endsPass hend
  obtain ⟨hfirst, h0, h1⟩ := of_beginsPass hbegin
  obtain ⟨hall, hone⟩ := bounded_bypass hr
  obtain ⟨hround, hbetween⟩ := hone rfl
  refine ⟨tr, σ, post, mid, past, last, first, hr, htr, hfirst, hlast,
    hall 0 0 first last mid past post htr hfirst hlast h0,
    hall 0 1 first last mid past post htr hfirst hlast h1, hd, hround, ?_⟩
  refine hbetween 0 2 0 1 (by decide) (by rw [hd]; rfl) (by rw [hd]; rfl) (fun k hk hk' => ?_)
    (by decide) (by decide)
  obtain rfl : k = 1 := by omega
  rw [hd]
  decide

end GQuuuuuunix.Properties
