import GQuuuuuunix.Proof.LockCalls

/-! # The spin locks of harts under no discipline

The words of every lock are a function of the history: of who has taken it, and whose name it
bears. Every step of every hart keeps that, and keeps the calls of the hart safe. -/

namespace GQuuuuuunix.Proof
open Lib Kernel
set_option autoImplicit false

variable {L : Layout} {n : ℕ} {cs : ℕ → List LockCall} {σ σ' : State} {tr : Trace} {h : ℕ}
  {p : TaskPtr}

/-! ## The history of `lk->cpu` -/

theorem pastCpu_none {x : State × Event} (hx : cpuTurn h p x = none) :
    pastCpu h p (x :: tr) = pastCpu h p tr := by
  unfold pastCpu
  rw [List.findSome?_cons, hx]

theorem pastCpu_some {x : State × Event} {b : Bool} (hx : cpuTurn h p x = some b) :
    pastCpu h p (x :: tr) = b := by
  unfold pastCpu
  rw [List.findSome?_cons, hx]
  rfl

theorem cpuTurn_store {x : State × Event} {q : TaskPtr} {c : Option ℕ}
    (hx : performed x = some (h, .store (.lk_cpu q) c)) :
    cpuTurn h p x = if q = p then some c.isSome else none := by
  unfold cpuTurn
  rw [hx]
  simp

theorem cpuTurn_eq_none {x : State × Event}
    (hx : ∀ q c, performed x ≠ some (h, .store (.lk_cpu q) c)) : cpuTurn h p x = none := by
  unfold cpuTurn
  split
  · next h' q c hp =>
    exact if_neg fun hc => hx q c (by rw [hp, hc.1])
  · rfl

/-- What the history says a hart has of the locks. -/
def viewOf (tr : Trace) (h : ℕ) : LockView :=
  { held := fun p => hasTaken h p tr, own := fun p => pastCpu h p tr }

theorem viewOf_eq {x : State × Event} (hl : ∀ p, lockTurn h p x = none)
    (hc : ∀ p, cpuTurn h p x = none) : viewOf (x :: tr) h = viewOf tr h := by
  unfold viewOf
  congr 1 <;> funext p
  · exact hasTaken_none (hl p)
  · exact pastCpu_none (hc p)

/-! ## The words of the locks -/

structure LockTable (tr : Trace) (mem : Mem) : Prop where
  held : ∀ h p, hasTaken h p tr = true → mem (.cell (.isLocked p)) = (1 : I32)
  free : ∀ p, (∀ h, hasTaken h p tr = false) → mem (.cell (.isLocked p)) = (0 : I32)
  uniq : ∀ h h' p, hasTaken h p tr = true → hasTaken h' p tr = true → h = h'
  cpu : ∀ h p, mem (.lk_cpu p) = some h ↔ pastCpu h p tr = true
  ok : ∀ h, (viewOf tr h).Ok
  acquire : ∀ p, mem (.lk_acquire p) = LockFn.acquire_lk
  release : ∀ p, mem (.lk_release p) = LockFn.release_lk
  is_holding : ∀ p, mem (.lk_is_holding p) = LockFn.is_holding_lk

theorem LockTable.known (hT : LockTable tr σ.mem) (l : Loc) :
    LockKnown h (viewOf tr h) l (σ.mem l) := by
  cases l with
  | cell c =>
    cases c with
    | isLocked p => exact hT.held h p
    | start => trivial
  | lk_cpu p => exact hT.cpu h p
  | lk_acquire p => exact hT.acquire p
  | lk_release p => exact hT.release p
  | lk_is_holding p => exact hT.is_holding p
  | _ => trivial

/-- The words of a lock that its functions read. -/
def Loc.lockWord : Loc → Bool
  | .cell (.isLocked _) | .lk_cpu _ | .lk_acquire _ | .lk_release _ | .lk_is_holding _ => true
  | _ => false

/-- Nothing happens to the locks. -/
theorem LockTable.frame (hT : LockTable tr σ.mem) {x : State × Event}
    (hl : ∀ h p, lockTurn h p x = none) (hc : ∀ h p, cpuTurn h p x = none)
    (hm : ∀ l, Loc.lockWord l = true → σ'.mem l = σ.mem l) : LockTable (x :: tr) σ'.mem := by
  have hl' : ∀ h p, hasTaken h p (x :: tr) = hasTaken h p tr := fun h p => hasTaken_none (hl h p)
  have hc' : ∀ h p, pastCpu h p (x :: tr) = pastCpu h p tr := fun h p => pastCpu_none (hc h p)
  refine ⟨fun h p ht => ?_, fun p hf => ?_, fun h h' p ht ht' => ?_, fun h p => ?_, fun h => ?_,
    fun p => ?_, fun p => ?_, fun p => ?_⟩
  · rw [hm _ rfl]
    exact hT.held h p (hl' h p ▸ ht)
  · rw [hm _ rfl]
    exact hT.free p fun h => hl' h p ▸ hf h
  · exact hT.uniq h h' p (hl' h p ▸ ht) (hl' h' p ▸ ht')
  · rw [hm _ rfl, hc']
    exact hT.cpu h p
  · rw [viewOf_eq (hl h) (hc h)]
    exact hT.ok h
  · rw [hm _ rfl]
    exact hT.acquire p
  · rw [hm _ rfl]
    exact hT.release p
  · rw [hm _ rfl]
    exact hT.is_holding p

/-! ## The three operations on a lock -/

theorem hasTaken_of_turn {x : State × Event} {b : Bool}
    (hx : ∀ h' q, lockTurn h' q x = if h' = h ∧ q = p then some b else none) (h' : ℕ)
    (q : TaskPtr) :
    hasTaken h' q (x :: tr) = if h' = h ∧ q = p then b else hasTaken h' q tr := by
  have hq := hx h' q
  split at hq
  · next hc => rw [hasTaken_some hq, if_pos hc]
  · next hc => rw [hasTaken_none hq, if_neg hc]

theorem pastCpu_of_turn {x : State × Event} {b : Bool}
    (hx : ∀ h' q, cpuTurn h' q x = if h' = h ∧ q = p then some b else none) (h' : ℕ)
    (q : TaskPtr) :
    pastCpu h' q (x :: tr) = if h' = h ∧ q = p then b else pastCpu h' q tr := by
  have hq := hx h' q
  split at hq
  · next hc => rw [pastCpu_some hq, if_pos hc]
  · next hc => rw [pastCpu_none hq, if_neg hc]

/-- A `TEST_SET` that finds the lock free. -/
theorem LockTable.take (hT : LockTable tr σ.mem) {x : State × Event}
    (hx : ∀ h' q, lockTurn h' q x = if h' = h ∧ q = p then some true else none)
    (hc : ∀ h' q, cpuTurn h' q x = none) (h0 : σ.mem (.cell (.isLocked p)) = (0 : I32)) :
    LockTable (x :: tr) (σ.mem.set (.cell (.isLocked p)) (1 : I32)) := by
  have ht : ∀ h' q, hasTaken h' q (x :: tr) = if h' = h ∧ q = p then _ else hasTaken h' q tr :=
    hasTaken_of_turn hx
  have hp : ∀ h' q, pastCpu h' q (x :: tr) = pastCpu h' q tr := fun h' q => pastCpu_none (hc h' q)
  have hfree : ∀ h', hasTaken h' p tr = false := by
    intro h'
    refine Bool.eq_false_iff.2 fun hn => ?_
    rw [hT.held h' p hn] at h0
    cases h0
  have hne : ∀ {q : TaskPtr}, q ≠ p → Loc.cell (.isLocked q) ≠ .cell (.isLocked p) :=
    fun hq he => hq (Cell.isLocked.inj (Loc.cell.inj he))
  refine ⟨fun h' q hq => ?_, fun q hq => ?_, fun h' h'' q hq hq' => ?_, fun h' q => ?_,
    fun h' q hq => ?_, hT.acquire, hT.release, hT.is_holding⟩
  · by_cases hqp : q = p
    · rw [hqp]
      exact Mem.set_self σ.mem (.cell (.isLocked p)) (1 : I32)
    · rw [Mem.set_ne _ _ (hne hqp)]
      rw [ht, if_neg fun hn => hqp hn.2] at hq
      exact hT.held h' q hq
  · by_cases hqp : q = p
    · have hq' := hq h
      rw [ht, if_pos ⟨rfl, hqp⟩] at hq'
      cases hq'
    · rw [Mem.set_ne _ _ (hne hqp)]
      refine hT.free q fun h' => ?_
      have hq' := hq h'
      rwa [ht, if_neg fun hn => hqp hn.2] at hq'
  · rw [ht] at hq hq'
    by_cases hqp : q = p
    · subst hqp
      have h1 : ∀ {g}, (if g = h ∧ q = q then true else hasTaken g q tr) = true → g = h := by
        intro g hg
        split at hg
        · next hgh => exact hgh.1
        · rw [hfree g] at hg
          cases hg
      rw [h1 hq, h1 hq']
    · rw [if_neg fun hn => hqp hn.2] at hq hq'
      exact hT.uniq h' h'' q hq hq'
  · rw [hp, Mem.set_ne _ _ (by simp)]
    exact hT.cpu h' q
  · have hown : pastCpu h' q tr = true := hp h' q ▸ hq
    show hasTaken h' q (x :: tr) = true
    rw [ht]
    split
    · rfl
    · exact hT.ok h' q hown

/-- The conditional store that clears the lock. -/
theorem LockTable.drop (hT : LockTable tr σ.mem) {x : State × Event}
    (hx : ∀ h' q, lockTurn h' q x = if h' = h ∧ q = p then some false else none)
    (hc : ∀ h' q, cpuTurn h' q x = none) (hheld : hasTaken h p tr = true)
    (hown : pastCpu h p tr = false) :
    LockTable (x :: tr) (σ.mem.set (.cell (.isLocked p)) (0 : I32)) := by
  have ht : ∀ h' q, hasTaken h' q (x :: tr) = if h' = h ∧ q = p then _ else hasTaken h' q tr :=
    hasTaken_of_turn hx
  have hp : ∀ h' q, pastCpu h' q (x :: tr) = pastCpu h' q tr := fun h' q => pastCpu_none (hc h' q)
  have hne : ∀ {q : TaskPtr}, q ≠ p → Loc.cell (.isLocked q) ≠ .cell (.isLocked p) :=
    fun hq he => hq (Cell.isLocked.inj (Loc.cell.inj he))
  have hkeep : ∀ {g q}, hasTaken g q (x :: tr) = true → q ≠ p ∧ hasTaken g q tr = true := by
    intro g q hg
    rw [ht] at hg
    split at hg
    · cases hg
    · next hn =>
      refine ⟨fun hqp => hn ⟨?_, hqp⟩, hg⟩
      exact hT.uniq g h p (hqp ▸ hg) hheld
  refine ⟨fun h' q hq => ?_, fun q hq => ?_, fun h' h'' q hq hq' => ?_, fun h' q => ?_,
    fun h' q hq => ?_, hT.acquire, hT.release, hT.is_holding⟩
  · rw [Mem.set_ne _ _ (hne (hkeep hq).1)]
    exact hT.held h' q (hkeep hq).2
  · by_cases hqp : q = p
    · rw [hqp]
      exact Mem.set_self σ.mem (.cell (.isLocked p)) (0 : I32)
    · rw [Mem.set_ne _ _ (hne hqp)]
      refine hT.free q fun h' => ?_
      have hq' := hq h'
      rwa [ht, if_neg fun hn => hqp hn.2] at hq'
  · exact hT.uniq h' h'' q (hkeep hq).2 (hkeep hq').2
  · rw [hp, Mem.set_ne _ _ (by simp)]
    exact hT.cpu h' q
  · have hq' : pastCpu h' q tr = true := hp h' q ▸ hq
    show hasTaken h' q (x :: tr) = true
    rw [ht, if_neg]
    · exact hT.ok h' q hq'
    · rintro ⟨rfl, rfl⟩
      rw [hown] at hq'
      cases hq'

/-- A hart that has taken the lock writes or clears `lk->cpu`. -/
theorem LockTable.setCpu (hT : LockTable tr σ.mem) {x : State × Event} {c : Option ℕ}
    (hx : ∀ h' q, cpuTurn h' q x = if h' = h ∧ q = p then some c.isSome else none)
    (hl : ∀ h' q, lockTurn h' q x = none) (hheld : hasTaken h p tr = true)
    (hc : c = some h ∨ c = none) : LockTable (x :: tr) (σ.mem.set (.lk_cpu p) c) := by
  have hp : ∀ h' q, pastCpu h' q (x :: tr) = if h' = h ∧ q = p then _ else pastCpu h' q tr :=
    pastCpu_of_turn hx
  have ht : ∀ h' q, hasTaken h' q (x :: tr) = hasTaken h' q tr :=
    fun h' q => hasTaken_none (hl h' q)
  refine ⟨fun h' q hq => ?_, fun q hq => ?_, fun h' h'' q hq hq' => ?_, fun h' q => ?_,
    fun h' q hq => ?_, hT.acquire, hT.release, hT.is_holding⟩
  · rw [Mem.set_ne _ _ (by simp)]
    exact hT.held h' q (ht h' q ▸ hq)
  · rw [Mem.set_ne _ _ (by simp)]
    exact hT.free q fun h' => ht h' q ▸ hq h'
  · exact hT.uniq h' h'' q (ht h' q ▸ hq) (ht h'' q ▸ hq')
  · rw [hp]
    by_cases hqp : q = p
    · subst hqp
      rw [show (σ.mem.set (.lk_cpu q) c) (.lk_cpu q) = c from Mem.set_self σ.mem (.lk_cpu q) c]
      by_cases hgh : h' = h
      · rw [if_pos ⟨hgh, rfl⟩, hgh]
        rcases hc with rfl | rfl <;> simp
      · rw [if_neg fun hn => hgh hn.1]
        refine ⟨fun hn => ?_, fun hn => ?_⟩
        · rcases hc with rfl | rfl
          · exact absurd (Option.some.inj hn).symm hgh
          · cases hn
        · exact absurd (hT.uniq h' h q (hT.ok h' q hn) hheld) hgh
    · rw [if_neg fun hn => hqp hn.2, Mem.set_ne _ _ fun he => hqp (Loc.lk_cpu.inj he)]
      exact hT.cpu h' q
  · have hq' : pastCpu h' q (x :: tr) = true := hq
    show hasTaken h' q (x :: tr) = true
    rw [ht]
    rw [hp] at hq'
    split at hq'
    · next hn =>
      rw [hn.1, hn.2]
      exact hheld
    · exact hT.ok h' q hq'

/-! ## One operation -/

theorem lockTurn_other {fail : Bool} {h' : ℕ} (hne : h' ≠ h) :
    lockTurn h' p (σ, .hart h fail) = none := if_neg (Ne.symm hne)

section
variable {o : Op} {r : o.Ret} {fail : Bool} {c : Code}

/-- What the step of hart `h` makes of the locks, and of its view. -/
structure LockStep (tr : Trace) (σ : State) (h : ℕ) (fail : Bool) (o : Op) (r : o.Ret)
    (σ' : State) : Prop where
  table : LockTable ((σ, .hart h fail) :: tr) σ'.mem
  view : viewOf ((σ, .hart h fail) :: tr) h = (viewOf tr h).after o r

theorem LockView.after_eq {v : LockView} (ha : ∀ c x, o ≠ .amoswap c x) (hs : ∀ c x, o ≠ .sc c x)
    (hc : ∀ q x, o ≠ .store (.lk_cpu q) x) (hl : ∀ l, o ≠ .loop l) : v.after o r = v := by
  unfold LockView.after
  split
  · exact absurd rfl (hc _ _)
  · exact absurd rfl (ha _ _)
  · exact absurd rfl (hs _ _)
  · exact absurd rfl (hl _)
  · exact absurd rfl (hl _)
  · rfl

theorem LockTable.amoswap (hT : LockTable tr σ.mem) {x : I32} {r : I32}
    (hn : σ.next h = some (.amoswap (.isLocked p) x)) (hpre : x = 1)
    (hx : Performed σ h fail (.amoswap (.isLocked p) x) r c σ') :
    LockStep tr σ h fail (.amoswap (.isLocked p) x) r σ' := by
  subst hpre
  have hr : r = σ.mem (.cell (.isLocked p)) := hx.answer
  have hmem : σ'.mem = σ.mem.set (.cell (.isLocked p)) (1 : I32) := hx.mem
  have hc : ∀ h' q, cpuTurn h' q (σ, .hart h fail) = none := fun h' q =>
    cpuTurn_eq_none fun q' c' hp => by
      rw [show performed (σ, .hart h fail) = (σ.next h).map fun o => (h, o) from rfl, hn] at hp
      cases hp
  by_cases h0 : σ.mem (.cell (.isLocked p)) = (0 : I32)
  · have hl : ∀ h' q, lockTurn h' q (σ, .hart h fail) =
        if h' = h ∧ q = p then some true else none := by
      intro h' q
      by_cases hh : h' = h
      · subst hh
        rw [lockTurn_amoswap fail hn]
        by_cases hq : q = p
        · rw [if_pos ⟨by rw [hq], h0⟩, if_pos ⟨rfl, hq⟩]
        · rw [if_neg fun hx => hq (Cell.isLocked.inj hx.1).symm, if_neg fun hx => hq hx.2]
      · rw [lockTurn_other hh, if_neg fun hx => hh hx.1]
    refine ⟨hmem ▸ hT.take hl hc h0, ?_⟩
    show _ = if r = (0 : I32) then (viewOf tr h).take p else viewOf tr h
    rw [if_pos (hr.trans h0)]
    unfold viewOf LockView.take
    congr 1 <;> funext q
    · rw [hasTaken_of_turn hl, Function.update_apply]
      simp
    · exact pastCpu_none (hc h q)
  · have hl : ∀ h' q, lockTurn h' q (σ, .hart h fail) = none := by
      intro h' q
      by_cases hh : h' = h
      · subst hh
        rw [lockTurn_amoswap fail hn, if_neg fun hx => h0 hx.2]
      · exact lockTurn_other hh
    refine ⟨hT.frame hl hc fun l _ => ?_, ?_⟩
    · -- the word was 1 before
      rw [hmem]
      by_cases hlp : l = .cell (.isLocked p)
      · subst hlp
        have hheld : ∃ g, hasTaken g p tr = true := by
          by_contra hno
          exact h0 (hT.free p fun g => Bool.eq_false_iff.2 fun hg => hno ⟨g, hg⟩)
        obtain ⟨g, hg⟩ := hheld
        rw [hT.held g p hg]
        exact Mem.set_self σ.mem (.cell (.isLocked p)) (1 : I32)
      · exact Mem.set_ne _ _ hlp
    · show _ = if r = (0 : I32) then (viewOf tr h).take p else viewOf tr h
      rw [if_neg fun hn => h0 (hr.symm.trans hn)]
      exact viewOf_eq (hl h) (hc h)

theorem LockTable.sc (hT : LockTable tr σ.mem) {x : I32} {r : I32}
    (hn : σ.next h = some (.sc (.isLocked p) x)) (hpre : (viewOf tr h).Clear (.isLocked p) x p)
    (hx : Performed σ h fail (.sc (.isLocked p) x) r c σ') :
    LockStep tr σ h fail (.sc (.isLocked p) x) r σ' := by
  obtain ⟨-, rfl, hheld, hown⟩ := hpre
  have hr := sc_answer hx.answer
  have hmem : σ'.mem = written σ.mem
    (if r = (0 : I32) then some ⟨.cell (.isLocked p), (0 : I32)⟩ else none) := hx.mem
  have hc : ∀ h' q, cpuTurn h' q (σ, .hart h fail) = none := fun h' q =>
    cpuTurn_eq_none fun q' c' hp => by
      rw [show performed (σ, .hart h fail) = (σ.next h).map fun o => (h, o) from rfl, hn] at hp
      cases hp
  by_cases h0 : r = (0 : I32)
  · have hl : ∀ h' q, lockTurn h' q (σ, .hart h fail) =
        if h' = h ∧ q = p then some false else none := by
      intro h' q
      by_cases hh : h' = h
      · subst hh
        rw [lockTurn_sc fail hn]
        by_cases hq : q = p
        · rw [if_pos ⟨by rw [hq], hr.1 h0⟩, if_pos ⟨rfl, hq⟩]
        · rw [if_neg fun hx => hq (Cell.isLocked.inj hx.1).symm, if_neg fun hx => hq hx.2]
      · rw [lockTurn_other hh, if_neg fun hx => hh hx.1]
    rw [if_pos h0] at hmem
    refine ⟨?_, ?_⟩
    · rw [hmem]
      exact hT.drop hl hc hheld hown
    · show _ = if r = (0 : I32) then (viewOf tr h).drop p else viewOf tr h
      rw [if_pos h0]
      unfold viewOf LockView.drop
      congr 1 <;> funext q
      · rw [hasTaken_of_turn hl, Function.update_apply]
        simp
      · exact pastCpu_none (hc h q)
  · have hl : ∀ h' q, lockTurn h' q (σ, .hart h fail) = none := by
      intro h' q
      by_cases hh : h' = h
      · subst hh
        rw [lockTurn_sc fail hn, if_neg fun hx => h0 (hr.2 hx.2)]
      · exact lockTurn_other hh
    rw [if_neg h0] at hmem
    refine ⟨hT.frame hl hc fun l _ => by rw [hmem]; rfl, ?_⟩
    show _ = if r = (0 : I32) then (viewOf tr h).drop p else viewOf tr h
    rw [if_neg h0]
    exact viewOf_eq (hl h) (hc h)

theorem LockTable.store (hT : LockTable tr σ.mem) {x : Option ℕ}
    (hn : σ.next h = some (.store (.lk_cpu p) x))
    (hpre : (viewOf tr h).held p = true ∧ (x = some h ∨ x = none)) {r : Unit}
    (hx : Performed σ h fail (.store (.lk_cpu p) x) r c σ') :
    LockStep tr σ h fail (.store (.lk_cpu p) x) r σ' := by
  have hpf : performed (σ, .hart h fail) = some (h, .store (.lk_cpu p) x) := by
    show (σ.next h).map _ = _
    rw [hn]
    rfl
  have hl : ∀ h' q, lockTurn h' q (σ, .hart h fail) = none := fun h' q =>
    lockTurn_eq_none (fun c v hp => by rw [hpf] at hp; cases hp)
      fun c v hp => by rw [hpf] at hp; cases hp
  have hc : ∀ h' q, cpuTurn h' q (σ, .hart h fail) =
      if h' = h ∧ q = p then some x.isSome else none := by
    intro h' q
    by_cases hh : h' = h
    · subst hh
      rw [cpuTurn_store hpf]
      by_cases hq : q = p
      · rw [if_pos hq.symm, if_pos ⟨rfl, hq⟩]
      · rw [if_neg (Ne.symm hq), if_neg fun hx => hq hx.2]
    · rw [if_neg fun hx => hh hx.1]
      refine cpuTurn_eq_none fun q' c' hp => ?_
      rw [hpf] at hp
      cases hp
      exact hh rfl
  have hmem : σ'.mem = σ.mem.set (.lk_cpu p) x := hx.mem
  refine ⟨?_, ?_⟩
  · rw [hmem]
    exact hT.setCpu hc hl hpre.1 hpre.2
  · show _ = (viewOf tr h).setOwn p x.isSome
    unfold viewOf LockView.setOwn
    congr 1 <;> funext q
    · exact hasTaken_none (hl h q)
    · rw [pastCpu_of_turn hc, Function.update_apply]
      simp

theorem LockTable.op (hT : LockTable tr σ.mem) (hn : σ.next h = some o)
    (hs : Op.simple o = true) (hpre : LockPre h (viewOf tr h) o)
    (hx : Performed σ h fail o r c σ') : LockStep tr σ h fail o r σ' := by
  by_cases ha : ∃ c x, o = .amoswap c x
  · obtain ⟨cl, x, rfl⟩ := ha
    obtain ⟨h1, p, rfl⟩ := hpre
    exact hT.amoswap hn h1 hx
  by_cases hsc : ∃ c x, o = .sc c x
  · obtain ⟨cl, x, rfl⟩ := hsc
    obtain ⟨p, hcl, hclear⟩ := hpre
    subst hcl
    exact hT.sc hn ⟨rfl, hclear⟩ hx
  by_cases hst : ∃ p x, o = .store (.lk_cpu p) x
  · obtain ⟨p, x, rfl⟩ := hst
    exact hT.store hn hpre hx
  have hpf : performed (σ, .hart h fail) = some (h, o) := by
    show (σ.next h).map _ = _
    rw [hn]
    rfl
  have hl : ∀ h' q, lockTurn h' q (σ, .hart h fail) = none := fun h' q =>
    lockTurn_eq_none (fun c v hp => ha ⟨c, v, by rw [hpf] at hp; cases hp; rfl⟩)
      fun c v hp => hsc ⟨c, v, by rw [hpf] at hp; cases hp; rfl⟩
  have hc : ∀ h' q, cpuTurn h' q (σ, .hart h fail) = none := fun h' q =>
    cpuTurn_eq_none fun q' c' hp => hst ⟨q', c', by rw [hpf] at hp; cases hp; rfl⟩
  refine ⟨hT.frame hl hc fun l hw => ?_, ?_⟩
  · rw [hx.mem]
    cases o with
    | store l' y =>
      have hne : l ≠ l' := by
        rintro rfl
        cases l with
        | lk_cpu p => exact hst ⟨p, y, rfl⟩
        | off_nrs c => cases hw
        | intr_ena_before c => cases hw
        | _ => exact hpre.elim
      exact Mem.set_ne _ _ hne
    | amoswap c y => exact absurd ⟨c, y, rfl⟩ ha
    | sc c y => exact absurd ⟨c, y, rfl⟩ hsc
    | sd y off => exact hpre.elim
    | sd_ctx p y i => exact hpre.elim
    | _ => rfl
  · rw [LockView.after_eq (fun c x he => ha ⟨c, x, he⟩) (fun c x he => hsc ⟨c, x, he⟩)
      (fun q x he => hst ⟨q, x, he⟩) fun l he => by subst he; cases hs]
    exact viewOf_eq (hl h) (hc h)

end

/-! ## Every run -/

/-- Hart `h` makes its calls from the view that the history gives it. -/
structure Caller (tr : Trace) (h : ℕ) (x : Hart) : Prop where
  calls : Calls h x.code (viewOf tr h) fun _ _ => True
  tp : x.regs .tp = BitVec.ofNat 64 h
  ssip : x.ssip = false

theorem Caller.interrupted {x : Hart} (hc : Caller tr h x) : x.interrupted = false := by
  unfold Hart.interrupted
  rw [hc.ssip, Bool.and_false]

structure LockInv (n : ℕ) (tr : Trace) (σ : State) : Prop where
  table : LockTable tr σ.mem
  hart : ∀ h < n, Caller tr h (σ.harts h)

theorem lockInv_init (hn : n ≤ 2 ^ 31) (hi : State.Calling n cs σ) : LockInv n [] σ := by
  refine ⟨⟨fun h p ht => (by cases ht), fun p _ => (hi.mem p).isLocked,
    fun h h' p ht => (by cases ht), fun h p => ?_, fun h p ht => (by cases ht),
    fun p => (hi.mem p).acquire, fun p => (hi.mem p).release, fun p => (hi.mem p).is_holding⟩,
    fun h hh => ?_⟩
  · rw [(hi.mem p).lk_cpu]
    exact ⟨fun hn => (by cases hn), fun hn => (by cases hn)⟩
  · have hx := hi.harts h hh
    refine ⟨?_, hx.tp, hx.ssip⟩
    rw [hx.code]
    exact calls_each (Nat.lt_of_lt_of_le hh hn) (cs h)

/-- The other harts see nothing of a step but the locks. -/
theorem viewOf_other {fail : Bool} {h' : ℕ} (hne : h' ≠ h) :
    viewOf ((σ, .hart h fail) :: tr) h' = viewOf tr h' := by
  refine viewOf_eq (fun p => lockTurn_other hne) fun p => cpuTurn_eq_none fun q c hp => ?_
  obtain ⟨o, _, ho⟩ := Option.map_eq_some_iff.1
    (show (σ.next h).map (fun o => (h, o)) = some (h', _) from hp)
  cases ho
  exact hne rfl

theorem LockInv.hart_step (hI : LockInv n tr σ) {fail : Bool} {x : Hart}
    (hx : σ'.harts = Function.update σ.harts h x) (hc : Caller ((σ, .hart h fail) :: tr) h x)
    (hT : LockTable ((σ, .hart h fail) :: tr) σ'.mem) :
    LockInv n ((σ, .hart h fail) :: tr) σ' := by
  refine ⟨hT, fun h' hh' => ?_⟩
  rw [hx]
  by_cases hne : h' = h
  · subst hne
    rwa [Function.update_self]
  · rw [Function.update_of_ne hne]
    have hold := hI.hart h' hh'
    refine ⟨?_, hold.tp, hold.ssip⟩
    rw [viewOf_other hne]
    exact hold.calls

/-- A hart unfolds a loop. -/
theorem calls_loop {l : Loop} {f : l.Ret → Code} {v : LockView} (hh : h < 2 ^ 31)
    (hpre : LockPre h v (.loop l))
    (hq : ∀ r, Calls h (f r) (v.after (.loop l) r) fun _ _ => True) :
    Calls h (l.round.bind f) v fun _ _ => True := by
  refine Calls.bind ?_
  cases l with
  | test_set p => exact calls_test_set_round hh (hq ())
  | store c x =>
    obtain ⟨p, hcl, hc⟩ := hpre
    subst hcl
    exact calls_store_round ⟨rfl, hc⟩ (hq ())
  | _ => exact hpre.elim

theorem lockInv_step (hn : n ≤ 2 ^ 31) (hI : LockInv n tr σ) {e : Event}
    (hs : (lockCalls L n cs).step σ e = some σ') : LockInv n ((σ, e) :: tr) σ' := by
  cases e with
  | timer h => cases hs
  | compute h r pc =>
    simp only [lockCalls, State.step] at hs
    split at hs
    swap
    · cases hs
    next hc =>
    cases hs
    have hv : ∀ h', viewOf ((σ, .compute h r pc) :: tr) h' = viewOf tr h' := fun h' =>
      viewOf_eq (fun p => rfl) fun p => rfl
    refine ⟨hI.table.frame (fun h' p => rfl) (fun h' p => rfl) fun l _ => rfl, fun h' hh' => ?_⟩
    have hold := hI.hart h' hh'
    show Caller _ h' (Function.update σ.harts h _ h')
    by_cases hne : h' = h
    · subst hne
      rw [Function.update_self]
      refine ⟨?_, ?_, hold.ssip⟩
      · rw [hv]
        exact hold.calls
      · show r .tp = _
        rw [hc.2.2.1]
        exact hold.tp
    · rw [Function.update_of_ne hne]
      refine ⟨?_, hold.tp, hold.ssip⟩
      rw [hv]
      exact hold.calls
  | hart h fail =>
    simp only [lockCalls, State.step] at hs
    split at hs
    swap
    · cases hs
    next hh =>
    have hold := hI.hart h hh
    have hi := hold.interrupted
    rw [if_neg (by simp [hi])] at hs
    split at hs
    swap
    · cases hs
    next o f hcode =>
    have hcalls := hold.calls
    rw [hcode] at hcalls
    rcases hcalls with hpanic | hcalls
    · cases o with
      | panic s => cases hs
      | _ => cases hpanic
    obtain ⟨hpre, hpost⟩ := hcalls (hI.table.ok h)
    by_cases hsimple : Op.simple o = true
    · obtain ⟨r, hx⟩ := exec_simple hsimple (fun s he => by subst he; exact hpre.elim) hs
      have hstep := hI.table.op (next_eq hi hcode) hsimple hpre hx
      refine hI.hart_step hx.harts ⟨?_, ?_, ?_⟩ hstep.table
      · rw [hstep.view]
        refine hpost r ?_
        cases o with
        | load l =>
          rw [show r = σ.mem l from hx.answer]
          exact hI.table.known l
        | r_tp => exact (show r = _ from hx.answer).trans hold.tp
        | _ => trivial
      · cases o <;> first | exact hold.tp | exact hpre.elim
      · cases o <;> first | exact hold.ssip | exact hpre.elim
    · cases o with
      | loop l =>
        cases hs
        have hv : viewOf ((σ, .hart h fail) :: tr) h = viewOf tr h := by
          refine viewOf_eq (fun p => lockTurn_eq_none (fun c v hp => ?_) fun c v hp => ?_)
            fun p => cpuTurn_eq_none fun q c hp => ?_
          all_goals
            rw [performed_eq hi hcode] at hp
            cases hp
        refine hI.hart_step rfl ⟨?_, hold.tp, hold.ssip⟩ (hI.table.frame ?_ ?_ fun _ _ => rfl)
        · rw [hv]
          exact calls_loop (Nat.lt_of_lt_of_le hh hn) hpre fun r => hpost r trivial
        · exact fun h' p => lockTurn_eq_none
            (fun c v hp => by rw [performed_eq hi hcode] at hp; cases hp)
            fun c v hp => by rw [performed_eq hi hcode] at hp; cases hp
        · exact fun h' p => cpuTurn_eq_none
            fun q c hp => by rw [performed_eq hi hcode] at hp; cases hp
      | call_switch_to s old new => exact hpre.elim
      | ret old new => exact hpre.elim
      | panic s => cases hs
      | crash => cases hs
      | _ => exact absurd rfl hsimple

theorem lockInv (hn : n ≤ 2 ^ 31) (hr : Run (lockCalls L n cs) tr σ) : LockInv n tr σ :=
  Run.invariant (LockInv n) (fun _ hi => lockInv_init hn hi)
    (fun _ _ _ _ _ hI hs => lockInv_step hn hI hs) hr

end GQuuuuuunix.Proof
