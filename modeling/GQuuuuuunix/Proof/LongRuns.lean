import GQuuuuuunix.Kernel.History
import GQuuuuuunix.Kernel.Start
import GQuuuuuunix.Proof.Execution

/-! # Long runs

The memory of a state is a chain of the writes made so far, and a read searches it from the last.
`simulate` performs a list of events on a state whose memory keeps the words of each kind apart,
and comes to the same. -/

namespace GQuuuuuunix.Proof
open Lib Kernel
set_option autoImplicit false

variable {cfg : Config} {σ σ' : State} {L : Layout} {h : ℕ} {l : Loc}

/-! ## The words of each kind apart -/

/-- A memory for each kind of location, of which only the words of that kind count. -/
structure ByKind where
  kinds : List Mem
  length_eq : kinds.length = 17

theorem Loc.ctorIdx_lt (l : Loc) : l.ctorIdx < 17 := by
  cases l <;> exact Nat.le_of_ble_eq_true rfl

def TaskPtr.place : TaskPtr → ℕ
  | .gTasks i => i.val
  | .static k => TASK_MAX_NRS + k

/-- Locations of one kind that differ here are different. -/
def Loc.place : Loc → ℕ
  | .off_nrs c | .intr_ena_before c | .cpu_task c => c
  | .cpu_context c i => 14 * c + i.val
  | .context t i => 14 * TaskPtr.place t + i.val
  | .pid t | .state t | .cell (.isLocked t) | .lk_cpu t | .lk_acquire t | .lk_release t
  | .lk_is_holding t => TaskPtr.place t
  | .stack a => a.toNat
  | .cell .start | .taskNrs | .gticks | .time_data | .time_mantissa_bit => 0

/-- As `Mem.set`, with a look at the places first. -/
def Mem.put (m : Mem) (l : Loc) (x : l.Ty) : Mem := fun l' =>
  bif Nat.beq (Loc.place l') (Loc.place l) then m.set l x l' else m l'

theorem Mem.put_eq (m : Mem) (l : Loc) (x : l.Ty) : Mem.put m l x = m.set l x := by
  funext l'
  unfold Mem.put
  cases hb : Nat.beq (Loc.place l') (Loc.place l) with
  | true => rfl
  | false =>
    refine (Mem.set_ne m x ?_).symm
    rintro rfl
    exact Nat.ne_of_beq_eq_false hb rfl

def ByKind.zero : ByKind := ⟨List.replicate 17 Mem.zero, rfl⟩

def ByKind.mem (T : ByKind) : Mem := fun l => T.kinds.getD l.ctorIdx Mem.zero l

def ByKind.set (T : ByKind) (l : Loc) (x : l.Ty) : ByKind :=
  ⟨T.kinds.modify l.ctorIdx (Mem.put · l x), (List.length_modify ..).trans T.length_eq⟩

theorem ByKind.zero_mem : ByKind.zero.mem = Mem.zero := by
  funext l
  cases l <;> rfl

theorem ByKind.mem_kind (T : ByKind) {m : Mem} (hm : T.kinds[l.ctorIdx]? = some m) :
    T.mem l = m l := by
  unfold ByKind.mem
  rw [List.getD_eq_getElem?_getD, hm]
  rfl

theorem ByKind.set_mem (T : ByKind) (l : Loc) (x : l.Ty) : (T.set l x).mem = T.mem.set l x := by
  funext l'
  obtain ⟨m, hm⟩ : ∃ m, T.kinds[l'.ctorIdx]? = some m :=
    ⟨_, List.getElem?_eq_getElem (T.length_eq ▸ Loc.ctorIdx_lt l')⟩
  have hset : (T.set l x).kinds[l'.ctorIdx]? =
      some (if l.ctorIdx = l'.ctorIdx then Mem.put m l x else m) := by
    refine (List.getElem?_modify ..).trans ?_
    rw [hm]
    rfl
  rw [ByKind.mem_kind _ hset]
  by_cases hl : l' = l
  · subst hl
    rw [if_pos rfl, Mem.put_eq, Mem.set_self, Mem.set_self]
  · rw [Mem.set_ne _ x hl, ByKind.mem_kind T hm]
    split
    · rw [Mem.put_eq, Mem.set_ne m x hl]
    · rfl

/-! ## What one step writes -/

/-- The word that an operation may write. -/
def Op.target (regs : Regs) : Op → Option Loc
  | .store l _ => some l
  | .amoswap c _ | .sc c _ => some (.cell c)
  | .sd _ off => some (.stack (regs .sp + BitVec.ofNat 64 off))
  | .sd_ctx (.task t) _ i => some (.context t i)
  | .sd_ctx (.cpu c) _ i => some (.cpu_context c i)
  | _ => none

/-- The word that a step may write. -/
def target (σ : State) : Event → Option Loc
  | .hart h _ => (σ.next h).bind (Op.target (σ.harts h).regs)
  | _ => none

/-- The memory `m` with this word as `m'` has it. -/
def touched (m m' : Mem) : Option Loc → Mem
  | some l => m.set l (m' l)
  | none => m

theorem touched_set {m m' : Mem} {x : l.Ty} (hm : m' = m.set l x) :
    m' = touched m m' (some l) := by
  subst hm
  exact congrArg (m.set l) (Mem.set_self m l x).symm

theorem touched_self (m : Mem) (l : Loc) : m = touched m m (some l) := by
  funext l'
  show m l' = m.set l (m l) l'
  by_cases hl : l' = l
  · subst hl
    rw [Mem.set_self]
  · rw [Mem.set_ne m _ hl]

theorem exec_mem {fail : Bool} {o : Op} {k : o.Ret → Code} (hx : σ.exec L h fail o k = some σ') :
    σ'.mem = touched σ.mem σ'.mem (Op.target (σ.harts h).regs o) := by
  cases o with
  | store l x =>
    cases hx
    exact touched_set (write_mem ..)
  | amoswap c x =>
    cases hx
    exact touched_set (write_mem ..)
  | sc c x =>
    simp only [State.exec] at hx
    split at hx
    · cases hx
      exact touched_set (write_mem ..)
    · cases hx
      exact touched_self σ.mem (.cell c)
  | sd x off =>
    cases hx
    exact touched_set (write_mem ..)
  | sd_ctx p x i =>
    cases hx
    cases p with
    | task t => exact touched_set rfl
    | cpu c => exact touched_set rfl
  | atomic i =>
    cases hx
    exact (atomic_frame σ h fail i).2.1
  | panic p => cases hx
  | crash => cases hx
  | _ =>
    cases hx
    rfl

theorem step_mem {n : ℕ} {e : Event} (hs : σ.step L n e = some σ') :
    σ'.mem = touched σ.mem σ'.mem (target σ e) := by
  cases e with
  | hart h fail =>
    simp only [State.step] at hs
    show σ'.mem = touched σ.mem σ'.mem ((σ.next h).bind (Op.target (σ.harts h).regs))
    split at hs
    · split at hs
      · next hi =>
        rw [show σ.next h = none from if_pos hi]
        cases hs
        rfl
      · next hi =>
        split at hs
        · next o k hc =>
          rw [show σ.next h = some o by rw [State.next, if_neg hi, hc]]
          exact exec_mem hs
        · cases hs
    · cases hs
  | compute h r pc =>
    simp only [State.step] at hs
    split at hs
    · cases hs
      rfl
    · cases hs
  | timer h =>
    simp only [State.step] at hs
    split at hs
    · cases hs
      rfl
    · cases hs

/-! ## Many steps -/

/-- The memories after a step that leaves the memory `m'`. -/
def ByKind.follow (T : ByKind) (m' : Mem) : Option Loc → ByKind
  | some l => T.set l (m' l)
  | none => T

theorem ByKind.follow_mem (T : ByKind) (m' : Mem) (x : Option Loc) :
    (T.follow m' x).mem = touched T.mem m' x := by
  cases x with
  | none => rfl
  | some l => exact T.set_mem l (m' l)

/-- As `perform`, with the words of each kind apart. -/
def simulate (cfg : Config) : List Event → Trace → State → ByKind → Option (Trace × State)
  | [], tr, σ, _ => some (tr, σ)
  | e :: es, tr, σ, T =>
    match σ.step cfg.layout cfg.harts e with
    | some σ' =>
      let T' := T.follow σ'.mem (target σ e)
      simulate cfg es ((σ, e) :: tr) { σ' with mem := T'.mem } T'
    | none => none

theorem simulate_eq {es : List Event} : ∀ {tr : Trace} {σ : State} {T : ByKind}, T.mem = σ.mem →
    simulate cfg es tr σ T = perform (kernel cfg) es (tr, σ) := by
  induction es with
  | nil => exact fun _ => rfl
  | cons e es ih =>
    intro tr σ T hT
    unfold simulate perform
    rw [show (kernel cfg).step σ e = σ.step cfg.layout cfg.harts e from rfl]
    cases hs : σ.step cfg.layout cfg.harts e with
    | none => rfl
    | some σ' =>
      have hm : (T.follow σ'.mem (target σ e)).mem = σ'.mem := by
        rw [ByKind.follow_mem, hT]
        exact (step_mem hs).symm
      dsimp only
      rw [hm]
      exact ih hm

/-- What a list of events makes of a machine that boots, by simulation, is reached by a run. -/
theorem Run.of_simulate (cfg : Config) (hL : cfg.layout.Apart) (es : List Event)
    (P : Trace × State → Bool)
    (h : (simulate cfg es [] (State.start cfg) ByKind.zero).any P = true) :
    ∃ tr σ, Run (kernel cfg) tr σ ∧ P (tr, σ) = true := by
  rw [simulate_eq (T := ByKind.zero) ByKind.zero_mem] at h
  exact Run.of_start cfg hL es P h

/-! ## Two tasks that take turns on one hart -/

/-- Whether the hart, while it goes on with a preempted handler in the steps `xs` after `past`, has
taken each tick that is pending or posted. -/
def ticksTaken (L : Layout) (h : ℕ) : Trace → Bool → List (State × Event) → Bool
  | _, _, [] => true
  | past, goes, x :: xs =>
    match (resumeTurn L h x).getD goes with
    | true => (!((x.1.harts h).ssip || fired h x) || unacked h past) &&
        ticksTaken L h (x :: past) true xs
    | false => ticksTaken L h (x :: past) false xs

/-- Whether hart `h` is about to acknowledge its interrupt. -/
def acknowledging (σ : State) (h : ℕ) : Bool :=
  match σ.next h with
  | some (.w_sip _) => true
  | _ => false

/-- Hart `h` begins a pass of its scheduler with the first two tasks RUNNABLE. -/
def beginsPass (h : ℕ) (x : State × Event) : Bool :=
  match performed x with
  | some (h', .point .pass_begin) =>
    h' == h && decide (x.1.mem (.state (.gTasks 0)) = TaskState.RUNNABLE) &&
      decide (x.1.mem (.state (.gTasks 1)) = TaskState.RUNNABLE)
  | _ => false

def endsPass (h : ℕ) (x : State × Event) : Bool :=
  match performed x with
  | some (h', .point .pass_end) => h' == h
  | _ => false

/-- Hart `h` has ended a pass of its scheduler since it began one with the first two tasks
RUNNABLE. -/
def passed (h : ℕ) : Trace → Bool
  | [] => false
  | x :: tr => (endsPass h x && tr.any (beginsPass h)) || passed h tr

/-- One hart and two tasks. -/
abbrev oneHart : Config := .sample 1 Nat.one_pos one_le_max

/-- The first task is preempted, then the second, by the tick that is still pending; the scheduler
comes to the end of its pass and takes the tick; the first task goes on and is preempted by the
next tick, and the second goes on in the handler. -/
def twoRounds : List Event :=
  List.replicate 585 (.hart 0 false) ++ .timer 0 :: List.replicate 5487 (.hart 0 false) ++
    .timer 0 :: List.replicate 293 (.hart 0 false)

/-- What the two rounds come to. -/
def afterTwoRounds (x : Trace × State) : Bool :=
  dispatches x.1 == [0, 1, 0, 1] && passed 0 x.1 &&
    ticksTaken .sample 0 [] false x.1.reverse && goesOn .sample 0 x.1 &&
    acknowledging x.2 0 && (x.2.harts 0).ssip

theorem twoRounds_check :
    (simulate oneHart twoRounds [] (State.start oneHart) .zero).any afterTwoRounds = true := by
  decide +kernel

theorem twoRounds_run : ∃ tr σ, Run (kernel oneHart) tr σ ∧ dispatches tr = [0, 1, 0, 1] ∧
    passed 0 tr = true ∧ ticksTaken .sample 0 [] false tr.reverse = true ∧
    goesOn .sample 0 tr = true ∧ acknowledging σ 0 = true ∧ (σ.harts 0).ssip = true := by
  obtain ⟨tr, σ, hr, hp⟩ :=
    Run.of_simulate oneHart Layout.sample_apart twoRounds afterTwoRounds twoRounds_check
  simp only [afterTwoRounds, Bool.and_eq_true, beq_iff_eq] at hp
  obtain ⟨⟨⟨⟨⟨hd, hpass⟩, ht⟩, hgo⟩, hack⟩, hs⟩ := hp
  exact ⟨tr, σ, hr, hd, hpass, ht, hgo, hack, hs⟩

end GQuuuuuunix.Proof
