import GQuuuuuunix.Proof.Preserve

/-! # The table after an operation -/

namespace GQuuuuuunix.Proof
open Lib Kernel
set_option autoImplicit false

variable {cfg : Config} {mem mem' : Mem} {K K' : ℕ → Ghost} {h : ℕ} {t : Slot}

/-! ## Frames -/

/-- Only the record of hart `h` changes. -/
def Only (h : ℕ) (K K' : ℕ → Ghost) : Prop := ∀ h', h' ≠ h → K' h' = K h'

/-- The lock that a field belongs to. -/
def Loc.lockOf : Loc → Option TaskPtr
  | .cell (.isLocked p) | .lk_cpu p | .lk_acquire p | .lk_release p | .lk_is_holding p => some p
  | _ => none

theorem LockIs.frame (hl : LockIs cfg mem K t) (hK : Only h K K')
    (hheld : (K' h).held = some t ↔ (K h).held = some t)
    (hown : (K h).held = some t → (K' h).own = (K h).own)
    (hm : ∀ l, Loc.lockOf l = some (.gTasks t) → mem' l = mem l) : LockIs cfg mem' K' t := by
  have hheld' : ∀ h', (K' h').held = some t ↔ (K h').held = some t := by
    intro h'
    by_cases hx : h' = h
    · rw [hx, hheld]
    · rw [hK h' hx]
  have hown' : ∀ h', (K h').held = some t → (K' h').own = (K h').own := by
    intro h'
    by_cases hx : h' = h
    · rw [hx]
      exact hown
    · rw [hK h' hx]
      exact fun _ => rfl
  refine ⟨fun h' hh' hx => ?_, fun hfree => ?_, fun h' => ?_, ?_, ?_, ?_⟩
  · rw [hm _ rfl]
    exact hl.held h' hh' ((hheld' h').1 hx)
  · rw [hm _ rfl]
    exact hl.free fun h' hh' hx => hfree h' hh' ((hheld' h').2 hx)
  · rw [hm _ rfl, hl.lk_cpu h', hheld' h']
    refine and_congr_right fun _ => and_congr_right fun hx => ?_
    rw [hown' h' hx]
  · exact (hm _ rfl).trans hl.acquire
  · exact (hm _ rfl).trans hl.release
  · exact (hm _ rfl).trans hl.is_holding

theorem StateIs.frame (hs : StateIs cfg mem K t) (hK : Only h K K')
    (hrun : (K' h).run = some t ↔ (K h).run = some t)
    (hst : (K h).run = some t → (K' h).st = (K h).st)
    (hm : mem' (.state (.gTasks t)) = mem (.state (.gTasks t))) : StateIs cfg mem' K' t := by
  have hrun' : ∀ h', (K' h').run = some t ↔ (K h').run = some t := by
    intro h'
    by_cases hx : h' = h
    · rw [hx, hrun]
    · rw [hK h' hx]
  refine ⟨fun h' hh' hr => ?_, fun hidle => ?_⟩
  · have hr' := (hrun' h').1 hr
    have hst' : (K' h').st = (K h').st := by
      by_cases hx : h' = h
      · subst hx
        exact hst hr'
      · rw [hK h' hx]
    rw [hm, hst']
    exact hs.running h' hh' hr'
  · rw [hm]
    exact hs.idle fun h' hh' hr => hidle h' hh' ((hrun' h').2 hr)

/-! ## The lock that is touched -/

section
variable (hh : h < cfg.harts) (hl : LockIs cfg mem K t) (hK : Only h K K')
include hh hl hK

/-- `lk->cpu` is set to this hart or cleared. -/
theorem LockIs.store_lk_cpu {x : Option ℕ} (hheld : (K h).held = some t)
    (hheld' : (K' h).held = some t) (hown : (K' h).own = x.isSome)
    (hinj : ∀ h' < cfg.harts, (K h').held = some t → h' = h) (hx : x = some h ∨ x = none) :
    LockIs cfg (mem.set (.lk_cpu (.gTasks t)) x) K' t := by
  have hm : ∀ l, l ≠ .lk_cpu (.gTasks t) → mem.set (.lk_cpu (.gTasks t)) x l = mem l :=
    fun l hl => Mem.set_ne _ _ hl
  refine ⟨fun _ _ _ => ?_, fun hfree => absurd hheld' (hfree h hh), fun h' => ?_, ?_, ?_, ?_⟩
  · rw [hm _ (by simp)]
    exact hl.held h hh hheld
  · rw [show mem.set (.lk_cpu (.gTasks t)) x (.lk_cpu (.gTasks t)) = x from
      Mem.set_self mem (.lk_cpu (.gTasks t)) x]
    constructor
    · intro hx'
      rcases hx with rfl | rfl
      · cases hx'
        exact ⟨hh, hheld', hown⟩
      · cases hx'
    · rintro ⟨hh', hh2, ho⟩
      have heq : h' = h := by
        by_contra hne
        rw [hK h' hne] at hh2
        exact hne (hinj h' hh' hh2)
      rw [heq, hown] at ho
      rw [heq]
      rcases hx with rfl | rfl
      · rfl
      · cases ho
  · exact (hm _ (by simp)).trans hl.acquire
  · exact (hm _ (by simp)).trans hl.release
  · exact (hm _ (by simp)).trans hl.is_holding

/-- `isLocked` was 0 and is swapped for 1. -/
theorem LockIs.take (hfree : ∀ h' < cfg.harts, (K h').held ≠ some t)
    (hheld : (K' h).held = some t) (hown : (K' h).own = false) :
    LockIs cfg (mem.set (.cell (.isLocked (.gTasks t))) (1 : I32)) K' t := by
  have hm : ∀ l, l ≠ .cell (.isLocked (.gTasks t)) →
      mem.set (.cell (.isLocked (.gTasks t))) (1 : I32) l = mem l := fun l hl => Mem.set_ne _ _ hl
  refine ⟨fun _ _ _ => Mem.set_self mem (.cell (.isLocked (.gTasks t))) _,
    fun hf => absurd hheld (hf h hh), fun h' => ?_, ?_, ?_, ?_⟩
  · rw [hm _ (by simp), hl.lk_cpu h']
    constructor
    · rintro ⟨hh', hx, _⟩
      exact absurd hx (hfree h' hh')
    · rintro ⟨hh', hx, ho⟩
      by_cases hne : h' = h
      · rw [hne, hown] at ho
        cases ho
      · rw [hK h' hne] at hx
        exact absurd hx (hfree h' hh')
  · exact (hm _ (by simp)).trans hl.acquire
  · exact (hm _ (by simp)).trans hl.release
  · exact (hm _ (by simp)).trans hl.is_holding

omit hh in
/-- `isLocked` is cleared, `lk->cpu` being clear. -/
theorem LockIs.drop (hown : (K h).own = false)
    (hinj : ∀ h' < cfg.harts, (K h').held = some t → h' = h) (hheld' : (K' h).held = none) :
    LockIs cfg (mem.set (.cell (.isLocked (.gTasks t))) (0 : I32)) K' t := by
  have hm : ∀ l, l ≠ .cell (.isLocked (.gTasks t)) →
      mem.set (.cell (.isLocked (.gTasks t))) (0 : I32) l = mem l := fun l hl => Mem.set_ne _ _ hl
  have hnone : ∀ h' < cfg.harts, (K' h').held ≠ some t := by
    intro h' hh' hx
    by_cases hne : h' = h
    · rw [hne, hheld'] at hx
      cases hx
    · rw [hK h' hne] at hx
      exact hne (hinj h' hh' hx)
  refine ⟨fun h' hh' hx => absurd hx (hnone h' hh'),
    fun _ => Mem.set_self mem (.cell (.isLocked (.gTasks t))) _, fun h' => ?_, ?_, ?_, ?_⟩
  · rw [hm _ (by simp), hl.lk_cpu h']
    constructor
    · rintro ⟨hh', hx, ho⟩
      rw [hinj h' hh' hx, hown] at ho
      cases ho
    · rintro ⟨hh', hx, _⟩
      exact absurd hx (hnone h' hh')
  · exact (hm _ (by simp)).trans hl.acquire
  · exact (hm _ (by simp)).trans hl.release
  · exact (hm _ (by simp)).trans hl.is_holding

end

/-! ## The state that is touched -/

section
variable (hh : h < cfg.harts) (hs : StateIs cfg mem K t) (hK : Only h K K')
include hh hs hK

theorem StateIs.store_state {x : TaskState} (hrun : (K h).run = some t)
    (hrun' : (K' h).run = some t) (hst : (K' h).st = x)
    (hinj : ∀ h' < cfg.harts, (K h').run = some t → h' = h) :
    StateIs cfg (mem.set (.state (.gTasks t)) x) K' t := by
  refine ⟨fun h' hh' hr => ?_, fun hidle => absurd hrun' (hidle h hh)⟩
  have heq : h' = h := by
    by_contra hne
    rw [hK h' hne] at hr
    exact hne (hinj h' hh' hr)
  rw [heq, hst]
  exact ⟨Mem.set_self mem (.state (.gTasks t)) x, (hs.running h hh hrun).2⟩

/-- The task is found RUNNABLE in nobody's hands. -/
theorem StateIs.claim (hfree : ∀ h' < cfg.harts, (K h').run ≠ some t)
    (hrun' : (K' h).run = some t) (hst : (K' h).st = .RUNNABLE)
    (hmem : mem (.state (.gTasks t)) = TaskState.RUNNABLE) : StateIs cfg mem K' t := by
  have hidle := hs.idle hfree
  refine ⟨fun h' hh' hr => ?_, fun hidle => absurd hrun' (hidle h hh)⟩
  have heq : h' = h := by
    by_contra hne
    rw [hK h' hne] at hr
    exact absurd hr (hfree h' hh')
  rw [heq, hst]
  refine ⟨hmem, ?_⟩
  by_contra hge
  rw [hmem, if_neg hge] at hidle
  cases hidle

/-- The task is given up RUNNABLE. -/
theorem StateIs.give_up (hrun : (K h).run = some t) (hst : (K h).st = .RUNNABLE)
    (hinj : ∀ h' < cfg.harts, (K h').run = some t → h' = h) (hrun' : (K' h).run = none) :
    StateIs cfg mem K' t := by
  obtain ⟨hmem, hlt⟩ := hs.running h hh hrun
  refine ⟨fun h' hh' hr => ?_, fun _ => ?_⟩
  · by_cases hne : h' = h
    · rw [hne, hrun'] at hr
      cases hr
    · rw [hK h' hne] at hr
      exact absurd (hinj h' hh' hr) hne
  · rw [hmem, hst, if_pos hlt]

end

/-! ## Any operation -/

section
variable {σ σ' : State} {vs : ℕ → View} {o : Op} {r : o.Ret} {fail : Bool} {c : Code}

theorem Table.frame (ht : Table cfg mem K) (hK : Only h K K')
    (hk : (K' h).held = (K h).held ∧ (K' h).own = (K h).own ∧ (K' h).run = (K h).run ∧
      (K' h).st = (K h).st)
    (hlock : ∀ l t, Loc.lockOf l = some (.gTasks t) → mem' l = mem l)
    (hstate : ∀ t : Slot, mem' (.state (.gTasks t)) = mem (.state (.gTasks t))) :
    Table cfg mem' K' :=
  ⟨fun t => (ht.lock t).frame hK (by rw [hk.1]) (fun _ => hk.2.1) fun l hl => hlock l t hl,
    fun t => (ht.state t).frame hK (by rw [hk.2.2.1]) (fun _ => hk.2.2.2) (hstate t)⟩

theorem Inv.held_uniq (hI : Inv cfg σ vs) (hh : h < cfg.harts) (hheld : (vs h).k.held = some t) :
    ∀ h' < cfg.harts, (vs h').k.held = some t → h' = h :=
  fun h' hh' hx => hI.held_inj h' hh' h hh t hx hheld

theorem Inv.run_uniq (hI : Inv cfg σ vs) (hh : h < cfg.harts) (hrun : (vs h).k.run = some t) :
    ∀ h' < cfg.harts, (vs h').k.run = some t → h' = h :=
  fun h' hh' hx => hI.run_inj h' hh' h hh t hx hrun

theorem Inv.table_load_state (hI : Inv cfg σ vs) (hh : h < cfg.harts)
    (hop : (vs 0).k.stage = .opened) {p : TaskPtr} {r : TaskState} (hr : r = σ.mem (.state p))
    (hK : Only h (fun h => (vs h).k) K') (hk : K' h = (vs h).k.after (.load (.state p)) r) :
    Table cfg σ.mem K' := by
  have ht := hI.table hop
  have hsame : ∀ i, K' h = (vs h).k.setScan i ∨ K' h = (vs h).k → Table cfg σ.mem K' := by
    rintro i (hk' | hk')
    · exact ht.frame hK (by rw [hk']; exact ⟨rfl, rfl, rfl, rfl⟩) (fun _ _ _ => rfl) fun _ => rfl
    · exact ht.frame hK (by rw [hk']; exact ⟨rfl, rfl, rfl, rfl⟩) (fun _ _ _ => rfl) fun _ => rfl
  cases p with
  | static j => exact hsame 0 (Or.inr hk)
  | gTasks t =>
    have hk' : K' h = if (vs h).k.held = some t ∧ (vs h).k.run = none then
      if r = TaskState.RUNNABLE then (vs h).k.claim t else (vs h).k.setScan (t + 1)
      else (vs h).k := hk
    split at hk'
    · next hc =>
      split at hk'
      · next hrun =>
        rw [hr] at hrun
        have hfree := hI.nobody_runs hh hc.1 hc.2 hrun
        refine ⟨fun t' => (ht.lock t').frame hK (by rw [hk']; rfl) (fun _ => by rw [hk']; rfl)
          fun _ _ => rfl, fun t' => ?_⟩
        by_cases htt : t' = t
        · rw [htt]
          exact (ht.state t).claim hh hK hfree (by rw [hk']; rfl) (by rw [hk']; rfl) hrun
        · refine (ht.state t').frame hK ?_ (fun hx => ?_) rfl
          · rw [hk', show (vs h).k.run = none from hc.2]
            constructor
            · intro hx
              cases hx
              exact absurd rfl htt
            · intro hx
              cases hx
          · rw [show (vs h).k.run = none from hc.2] at hx
            cases hx
      · exact hsame _ (Or.inl hk')
    · exact hsame 0 (Or.inr hk')

/-- A word that no lock and no `state` of the table is kept in. -/
def Loc.aside (l : Loc) : Prop :=
  (∀ t, Loc.lockOf l ≠ some (.gTasks t)) ∧ ∀ t : Slot, l ≠ .state (.gTasks t)

theorem Table.aside (ht : Table cfg mem K) (hK : Only h K K')
    (hk : (K' h).held = (K h).held ∧ (K' h).own = (K h).own ∧ (K' h).run = (K h).run ∧
      (K' h).st = (K h).st) {l : Loc} {x : l.Ty} (hl : Loc.aside l) :
    Table cfg (mem.set l x) K' := by
  refine ht.frame hK hk (fun l' t hl' => Mem.set_ne _ _ ?_) fun t => Mem.set_ne _ _ (hl.2 t).symm
  rintro rfl
  exact hl.1 t hl'

theorem Inv.table_store (hI : Inv cfg σ vs) (hh : h < cfg.harts)
    (hop : (vs 0).k.stage = .opened) {l : Loc} {x : l.Ty} (hp : StorePre l x (vs h))
    (hK : Only h (fun h => (vs h).k) K') (hk : K' h = (vs h).k.after (.store l x) ()) :
    Table cfg (σ.mem.set l x) K' := by
  have ht := hI.table hop
  have hnb : (vs h).k.stage ≠ .boot := hI.not_boot cfg.harts_pos hh hop
  cases l with
  | state p =>
    obtain hb | ⟨t, rfl, hheld, hrun, hx⟩ := hp
    · exact absurd hb hnb
    have hk' : K' h = (vs h).k.setSt x := hk.trans (if_neg hnb)
    refine ⟨fun t' => (ht.lock t').frame hK (by rw [hk']; rfl) (fun _ => by rw [hk']; rfl)
      fun l hl => Mem.set_ne _ _ (by rintro rfl; cases hl), fun t' => ?_⟩
    by_cases htt : t' = t
    · rw [htt]
      exact (ht.state t).store_state hh hK hrun (by rw [hk']; exact hrun) (by rw [hk']; rfl)
        (hI.run_uniq hh hrun)
    · refine (ht.state t').frame hK (by rw [hk']; rfl) (fun hr => ?_)
        (Mem.set_ne _ _ (by simp [htt]))
      exact absurd (Option.some.inj (hr.symm.trans hrun)) htt
  | lk_cpu p =>
    obtain ⟨hb, _⟩ | ⟨t, rfl, hheld, hin, hx⟩ := hp
    · exact absurd hb hnb
    have hk' : K' h = (vs h).k.setOwn (Option.isSome x) := hk.trans (if_neg hnb)
    refine ⟨fun t' => ?_, fun t' => (ht.state t').frame hK (by rw [hk']; rfl)
      (fun _ => by rw [hk']; rfl) (Mem.set_ne _ _ (by simp))⟩
    by_cases htt : t' = t
    · rw [htt]
      refine (ht.lock t).store_lk_cpu hh hK hheld (by rw [hk']; exact hheld) (by rw [hk']; rfl)
        (hI.held_uniq hh hheld) ?_
      rwa [(hI.hart h hh).hart] at hx
    · refine (ht.lock t').frame hK (by rw [hk']; rfl) (fun hr => ?_) fun l hl => ?_
      · exact absurd (Option.some.inj (hr.symm.trans hheld)) htt
      · refine Mem.set_ne _ _ ?_
        rintro rfl
        cases hl
        exact htt rfl
  | cell c =>
    cases c with
    | start =>
      exact ht.aside hK (by rw [hk]; exact ⟨rfl, rfl, rfl, rfl⟩) ⟨by simp [Loc.lockOf], by simp⟩
    | isLocked p => exact absurd hp hnb
  | gticks =>
    exact ht.aside hK (by rw [hk]; exact ⟨rfl, rfl, rfl, rfl⟩) ⟨by simp [Loc.lockOf], by simp⟩
  | time_data =>
    have hk' : K' h = (vs h).k.setTrap .counted := hk.trans (if_neg hnb)
    exact ht.aside hK (by rw [hk']; exact ⟨rfl, rfl, rfl, rfl⟩) ⟨by simp [Loc.lockOf], by simp⟩
  | off_nrs c' =>
    exact ht.aside hK (by rw [hk]; exact ⟨rfl, rfl, rfl, rfl⟩) ⟨by simp [Loc.lockOf], by simp⟩
  | intr_ena_before c' =>
    exact ht.aside hK (by rw [hk]; exact ⟨rfl, rfl, rfl, rfl⟩) ⟨by simp [Loc.lockOf], by simp⟩
  | cpu_task c' =>
    exact ht.aside hK (by rw [hk]; exact ⟨rfl, rfl, rfl, rfl⟩) ⟨by simp [Loc.lockOf], by simp⟩
  | cpu_context c' i => exact hp.elim
  | stack a => exact hp.elim
  | _ => exact absurd hp hnb

theorem Inv.table_amoswap (hI : Inv cfg σ vs) (hh : h < cfg.harts)
    (hop : (vs 0).k.stage = .opened) {cl : Cell} {x r : I32} (hp : Pre cfg (.amoswap cl x) (vs h))
    (hr : r = σ.mem (.cell cl)) (hK : Only h (fun h => (vs h).k) K')
    (hk : K' h = (vs h).k.after (.amoswap cl x) r) : Table cfg (σ.mem.set (.cell cl) x) K' := by
  have ht := hI.table hop
  obtain ⟨t, rfl, rfl, hts⟩ := hp
  have hk' : K' h = if r = (0 : I32) then (vs h).k.take t else (vs h).k := hk
  have hstate : ∀ t', (K' h).run = (vs h).k.run ∧ (K' h).st = (vs h).k.st →
      StateIs cfg (σ.mem.set (.cell (.isLocked (.gTasks t))) (1 : I32)) K' t' := fun t' hx =>
    (ht.state t').frame hK (by rw [hx.1]) (fun _ => hx.2) (Mem.set_ne _ _ (by simp))
  split at hk'
  · next h0 =>
    have hfree : ∀ h' < cfg.harts, (vs h').k.held ≠ some t := by
      intro h' hh' hx
      have h1 := (ht.lock t).held h' hh' hx
      rw [← hr, h0] at h1
      exact absurd (show (0 : I32) = 1 from h1) (by decide)
    refine ⟨fun t' => ?_, fun t' => hstate t' (by rw [hk']; exact ⟨rfl, rfl⟩)⟩
    by_cases htt : t' = t
    · rw [htt]
      exact (ht.lock t).take hh hK hfree (by rw [hk']; rfl) (by rw [hk']; rfl)
    · refine (ht.lock t').frame hK ?_ (fun hx => ?_) fun l hl => ?_
      · rw [hk', hts.held]
        constructor
        · intro hx
          cases hx
          exact absurd rfl htt
        · intro hx
          cases hx
      · rw [hts.held] at hx
        cases hx
      · refine Mem.set_ne _ _ ?_
        rintro rfl
        cases hl
        exact htt rfl
  · next h0 =>
    have h1 : σ.mem (.cell (.isLocked (.gTasks t))) = (1 : I32) := by
      by_contra hne
      refine h0 ?_
      rw [hr]
      exact (ht.lock t).free fun h' hh' hx => hne ((ht.lock t).held h' hh' hx)
    have hsame : ∀ l, σ.mem.set (.cell (.isLocked (.gTasks t))) (1 : I32) l = σ.mem l := by
      intro l
      by_cases hl : l = .cell (.isLocked (.gTasks t))
      · rw [hl, h1]
        exact Mem.set_self _ (.cell _) _
      · exact Mem.set_ne _ _ hl
    exact ht.frame hK (by rw [hk']; exact ⟨rfl, rfl, rfl, rfl⟩) (fun l _ _ => hsame l)
      fun _ => hsame _

theorem Inv.table_sc (hI : Inv cfg σ vs) (hh : h < cfg.harts)
    (hop : (vs 0).k.stage = .opened) {cl : Cell} {x r : I32} (hp : Pre cfg (.sc cl x) (vs h))
    (hK : Only h (fun h => (vs h).k) K') (hk : K' h = (vs h).k.after (.sc cl x) r) :
    Table cfg (if r = (0 : I32) then σ.mem.set (.cell cl) x else σ.mem) K' := by
  have ht := hI.table hop
  have hnb : (vs h).k.stage ≠ .boot := hI.not_boot cfg.harts_pos hh hop
  obtain ⟨t, rfl, rfl, hc⟩ | ⟨_, _, _, hb, _⟩ := hp
  swap
  · exact absurd hb hnb
  have hk' : K' h = if r = (0 : I32) then (vs h).k.drop else (vs h).k := hk
  split
  · next h0 =>
    rw [if_pos h0] at hk'
    have hheld : (K' h).held = none := by rw [hk']; rfl
    have hrun : (K' h).run = if (vs h).k.st = .RUNNABLE then none else (vs h).k.run := by
      rw [hk']
      rfl
    refine ⟨fun t' => ?_, fun t' => ?_⟩
    · by_cases htt : t' = t
      · rw [htt]
        exact (ht.lock t).drop hK hc.own (hI.held_uniq hh hc.held) hheld
      · have hne : (vs h).k.held ≠ some t' := by
          rw [hc.held]
          exact fun hx => htt (Option.some.inj hx).symm
        refine (ht.lock t').frame hK ?_ (fun hx => absurd hx hne) fun l hl => ?_
        · rw [hheld]
          exact ⟨fun hx => (by cases hx), fun hx => absurd hx hne⟩
        · refine Mem.set_ne _ _ ?_
          rintro rfl
          cases hl
          exact htt rfl
    · have hst : (K' h).st = (vs h).k.st := by rw [hk']; rfl
      have hm : σ.mem.set (.cell (.isLocked (.gTasks t))) (0 : I32) (.state (.gTasks t')) =
        σ.mem (.state (.gTasks t')) := Mem.set_ne _ _ (by simp)
      by_cases hgive : (vs h).k.st = .RUNNABLE ∧ (vs h).k.run = some t'
      · have hs := (ht.state t').give_up hh hK hgive.2 hgive.1 (hI.run_uniq hh hgive.2)
          (by rw [hrun, if_pos hgive.1])
        exact hs.frame (h := h) (fun _ _ => rfl) Iff.rfl (fun _ => rfl) hm
      · refine (ht.state t').frame hK ?_ (fun _ => hst) hm
        rw [hrun]
        split
        · next hr =>
          exact ⟨fun hx => (by cases hx), fun hx => absurd ⟨hr, hx⟩ hgive⟩
        · rfl
  · next h0 =>
    rw [if_neg h0] at hk'
    exact ht.frame hK (by rw [hk']; exact ⟨rfl, rfl, rfl, rfl⟩) (fun _ _ _ => rfl) fun _ => rfl

theorem Inv.table_simple (hI : Inv cfg σ vs) (hh : h < cfg.harts)
    (hop : (vs 0).k.stage = .opened) (hp : Pre cfg o (vs h)) (hx : Performed σ h fail o r c σ')
    (hK : Only h (fun h => (vs h).k) K') (hk : K' h = (vs h).k.after o r) :
    Table cfg σ'.mem K' := by
  have ht := hI.table hop
  rw [hx.mem]
  have hsame : (K' h).held = (vs h).k.held ∧ (K' h).own = (vs h).k.own ∧
      (K' h).run = (vs h).k.run ∧ (K' h).st = (vs h).k.st → Table cfg σ.mem K' := fun hk =>
    ht.frame hK hk (fun _ _ _ => rfl) fun _ => rfl
  cases o with
  | load l =>
    cases l with
    | state p => exact hI.table_load_state hh hop hx.answer hK hk
    | _ => exact hsame (by rw [hk]; exact ⟨rfl, rfl, rfl, rfl⟩)
  | store l x => exact hI.table_store hh hop hp hK hk
  | amoswap cl x => exact hI.table_amoswap hh hop hp hx.answer hK hk
  | sc cl x =>
    have htab := hI.table_sc hh hop hp hK hk
    have hw : written σ.mem (Op.writes (σ.harts h).regs (.sc cl x) r) =
        if r = (0 : I32) then σ.mem.set (.cell cl) x else σ.mem := by
      show written σ.mem (if r = (0 : I32) then _ else _) = _
      split <;> rfl
    rw [hw]
    exact htab
  | lr cl =>
    refine hsame ?_
    cases cl with
    | isLocked p => rw [hk]; exact ⟨rfl, rfl, rfl, rfl⟩
    | start =>
      have hk' : K' h = if (vs h).k.stage = .wait ∧ r ≠ (0 : I32) then (vs h).k.pass
        else (vs h).k := hk
      rw [hk']
      split <;> exact ⟨rfl, rfl, rfl, rfl⟩
  | enter f =>
    refine hsame ?_
    rw [hk]
    cases f <;> exact ⟨rfl, rfl, rfl, rfl⟩
  | point p =>
    refine hsame ?_
    rw [hk]
    cases p <;> exact ⟨rfl, rfl, rfl, rfl⟩
  | sd y off =>
    exact ht.aside (l := .stack _) hK (by rw [hk]; exact ⟨rfl, rfl, rfl, rfl⟩)
      ⟨by simp [Loc.lockOf], by simp⟩
  | sd_ctx p y i =>
    have hk' : K' h = (vs h).k := hk
    cases p with
    | task q =>
      exact ht.aside (l := .context q i) hK (by rw [hk']; exact ⟨rfl, rfl, rfl, rfl⟩)
        ⟨by simp [Loc.lockOf], by simp⟩
    | cpu q =>
      exact ht.aside (l := .cpu_context q i) hK (by rw [hk']; exact ⟨rfl, rfl, rfl, rfl⟩)
        ⟨by simp [Loc.lockOf], by simp⟩
  | _ => exact hsame (by rw [hk]; exact ⟨rfl, rfl, rfl, rfl⟩)

end

end GQuuuuuunix.Proof
