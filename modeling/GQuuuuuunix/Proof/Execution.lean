import GQuuuuuunix.Proof.Steps

/-! # What one operation does to the machine

For every operation but a loop and the two ends of `switch_to`: the hart that performs it, the one
word of memory it may write, and what it is answered. -/

namespace GQuuuuuunix.Proof
open Lib Kernel
set_option autoImplicit false

/-! ## The parts of a step -/

/-- The operations that change neither the code of the hart nor what is parked. -/
def Op.simple : Op → Bool
  | .loop _ | .call_switch_to _ _ _ | .ret _ _ | .panic _ | .crash => false
  | _ => true

/-- The hart after an operation. -/
def Hart.perform (mem : Mem) (x : Hart) : Op → Hart
  | .w_sstatus s => { x with sstatus := s }
  | .w_sepc s => { x with sepc := s }
  | .w_sip s => { x with ssip := s.getLsbD 1 }
  | .w_stvec => { x with stvec := true }
  | .enter f => { x with calls := f :: x.calls }
  | .leave _ _ => { x with calls := x.calls.tail }
  | .sret _ => x.afterSret
  | o => { x with regs := regsAfter mem x.regs o }

/-- The word that an operation answered by `r` writes. -/
def Op.writes (regs : Regs) : (o : Op) → o.Ret → Option (Σ l : Loc, l.Ty)
  | .store l x, _ => some ⟨l, x⟩
  | .amoswap c x, _ => some ⟨.cell c, x⟩
  | .sc c x, r => if r = (0 : I32) then some ⟨.cell c, x⟩ else none
  | .sd x off, _ => some ⟨.stack (regs .sp + BitVec.ofNat 64 off), regs x⟩
  | .sd_ctx (.task t) x i, _ => some ⟨.context t i, regs x⟩
  | .sd_ctx (.cpu c) x i, _ => some ⟨.cpu_context c i, regs x⟩
  | _, _ => none

def written (m : Mem) : Option (Σ l : Loc, l.Ty) → Mem
  | some ⟨l, x⟩ => m.set l x
  | none => m

theorem writes_sc {cl : Cell} {x : I32} {ρ : Regs} {l : Loc} {y : l.Ty} {r : I32}
    (hw : Op.writes ρ (.sc cl x) r = some ⟨l, y⟩) :
    r = 0 ∧ (⟨.cell cl, x⟩ : Σ l : Loc, l.Ty) = ⟨l, y⟩ := by
  have hw' : (if r = (0 : I32) then some (⟨.cell cl, x⟩ : Σ l : Loc, l.Ty) else none) =
    some ⟨l, y⟩ := hw
  split at hw'
  · next h0 => exact ⟨h0, Option.some.inj hw'⟩
  · cases hw'

/-- The rest of memory is written by C. -/
theorem writes_c {o : Op} {ρ : Regs} {r : o.Ret} {l : Loc} {x : l.Ty}
    (hw : Op.writes ρ o r = some ⟨l, x⟩)
    (hc : ∀ cl, l ≠ .cell cl) (hs : ∀ a, l ≠ .stack a) (ht : ∀ p i, l ≠ .context p i)
    (hcpu : ∀ c i, l ≠ .cpu_context c i) : o = .store l x := by
  cases o with
  | store l' y =>
    cases hw
    rfl
  | amoswap cl y =>
    cases hw
    exact absurd rfl (hc cl)
  | sc cl y =>
    cases (writes_sc hw).2
    exact absurd rfl (hc cl)
  | sd y off =>
    cases hw
    exact absurd rfl (hs _)
  | sd_ctx p y j =>
    cases p with
    | task t =>
      cases hw
      exact absurd rfl (ht t j)
    | cpu c =>
      cases hw
      exact absurd rfl (hcpu c j)
  | _ => cases hw

theorem written_of_ne {m : Mem} {l : Loc} {x : Option (Σ l : Loc, l.Ty)}
    (h : ∀ y, x ≠ some ⟨l, y⟩) : written m x l = m l := by
  cases x with
  | none => rfl
  | some z =>
    obtain ⟨l', y⟩ := z
    refine Mem.set_ne m y ?_
    rintro rfl
    exact h y rfl

/-- What the machine answers to hart `h`. -/
def Answer (σ : State) (h : ℕ) (fail : Bool) : (o : Op) → o.Ret → Prop
  | .load l, r => r = σ.mem l
  | .amoswap c _, r => r = σ.mem (.cell c)
  | .lr c, r => r = σ.mem (.cell c)
  | .sc c _, r => r = if σ.resv h = some c ∧ fail = false then (0 : I32) else 1
  | .atomic i, r => r = (σ.atomic h fail i).1
  | .r_tp, r => r = (σ.harts h).regs .tp
  | .r_sstatus, r => r = (σ.harts h).sstatus
  | .r_sepc, r => r = (σ.harts h).sepc
  | .r_scause, r => r = (σ.harts h).scause
  | .r_sip, r => r = if (σ.harts h).ssip then 2 else 0
  | .call_c, r => r = (σ.harts h).regs
  | _, _ => True

theorem write_harts (σ : State) (h : ℕ) (l : Loc) (x : l.Ty) :
    (σ.write h l x).harts = σ.harts := by
  cases l <;> rfl

theorem write_mem (σ : State) (h : ℕ) (l : Loc) (x : l.Ty) :
    (σ.write h l x).mem = σ.mem.set l x := by
  cases l <;> rfl

theorem write_parked (σ : State) (h : ℕ) (l : Loc) (x : l.Ty) :
    (σ.write h l x).parked = σ.parked := by
  cases l <;> rfl

/-- An instruction on an atomic object touches the objects and the reservations only. -/
theorem atomic_frame (σ : State) (h : ℕ) (fail : Bool) (i : AtomicInsn) :
    (σ.atomic h fail i).2.harts = σ.harts ∧ (σ.atomic h fail i).2.mem = σ.mem ∧
      (σ.atomic h fail i).2.parked = σ.parked := by
  cases i with
  | lr sz a => exact ⟨rfl, rfl, rfl⟩
  | sc sz a x =>
    unfold State.atomic
    dsimp only
    split <;> exact ⟨rfl, rfl, rfl⟩
  | amo f sz a x => exact ⟨rfl, rfl, rfl⟩

/-- Hart `h` performed a simple operation answered by `r` and goes on with `c`. -/
structure Performed (σ : State) (h : ℕ) (fail : Bool) (o : Op) (r : o.Ret) (c : Code)
    (σ' : State) : Prop where
  answer : Answer σ h fail o r
  harts : σ'.harts =
    Function.update σ.harts h { Hart.perform σ.mem (σ.harts h) o with code := c }
  mem : σ'.mem = written σ.mem (Op.writes (σ.harts h).regs o r)
  parked : σ'.parked = σ.parked

theorem Performed.hart_eq {σ σ' : State} {h : ℕ} {fail : Bool} {o : Op} {r : o.Ret} {c : Code}
    (hx : Performed σ h fail o r c σ') :
    σ'.harts h = { Hart.perform σ.mem (σ.harts h) o with code := c } := by
  rw [hx.harts, Function.update_self]

theorem performed_goto {σ σ1 : State} {h : ℕ} {fail : Bool} {o : Op} {r : o.Ret} {c : Code}
    (ha : Answer σ h fail o r) (hh : σ1.harts = σ.harts)
    (hx : Hart.perform σ.mem (σ.harts h) o = σ.harts h)
    (hm : σ1.mem = written σ.mem (Op.writes (σ.harts h).regs o r))
    (hp : σ1.parked = σ.parked) : Performed σ h fail o r c (σ1.goto h c) :=
  ⟨ha, by rw [hx, ← hh]; rfl, hm, hp⟩

theorem performed_setHart {σ : State} {h : ℕ} {fail : Bool} {o : Op} {r : o.Ret} {c : Code}
    (ha : Answer σ h fail o r) (hw : Op.writes (σ.harts h).regs o r = none) :
    Performed σ h fail o r c
      (σ.setHart h { Hart.perform σ.mem (σ.harts h) o with code := c }) :=
  ⟨ha, rfl, by rw [hw]; rfl, rfl⟩

theorem exec_simple {L : Layout} {σ σ' : State} {h : ℕ} {fail : Bool} {o : Op}
    {k : o.Ret → Code} (hs : Op.simple o = true)
    (hsret : ∀ s, o = .sret s → s.intact (σ.harts h).afterSret)
    (hx : σ.exec L h fail o k = some σ') : ∃ r, Performed σ h fail o r (k r) σ' := by
  cases o with
  | load l =>
    cases hx
    exact ⟨σ.mem l, performed_goto rfl rfl rfl rfl rfl⟩
  | store l x =>
    cases hx
    exact ⟨(), performed_goto trivial (write_harts ..) rfl (write_mem ..) (write_parked ..)⟩
  | amoswap c x =>
    cases hx
    exact ⟨σ.mem (.cell c), performed_goto rfl (write_harts ..) rfl (write_mem ..)
      (write_parked ..)⟩
  | lr c =>
    cases hx
    exact ⟨σ.mem (.cell c), performed_goto rfl rfl rfl rfl rfl⟩
  | sc c x =>
    by_cases hc : σ.resv h = some c ∧ fail = false
    · simp only [State.exec, if_pos hc] at hx
      cases hx
      exact ⟨(0 : I32), performed_goto (if_pos hc).symm (write_harts ..) rfl (write_mem ..)
        (write_parked ..)⟩
    · simp only [State.exec, if_neg hc] at hx
      cases hx
      exact ⟨(1 : I32), performed_goto (if_neg hc).symm rfl rfl rfl rfl⟩
  | atomic i =>
    cases hx
    obtain ⟨hh, hm, hp⟩ := atomic_frame σ h fail i
    exact ⟨_, performed_goto rfl hh rfl hm hp⟩
  | r_tp => cases hx; exact ⟨_, performed_goto rfl rfl rfl rfl rfl⟩
  | r_sstatus => cases hx; exact ⟨_, performed_goto rfl rfl rfl rfl rfl⟩
  | r_sepc => cases hx; exact ⟨_, performed_goto rfl rfl rfl rfl rfl⟩
  | r_scause => cases hx; exact ⟨_, performed_goto rfl rfl rfl rfl rfl⟩
  | r_sip => cases hx; exact ⟨_, performed_goto rfl rfl rfl rfl rfl⟩
  | call_c => cases hx; exact ⟨_, performed_goto rfl rfl rfl rfl rfl⟩
  | fence => cases hx; exact ⟨_, performed_goto trivial rfl rfl rfl rfl⟩
  | printf m => cases hx; exact ⟨_, performed_goto trivial rfl rfl rfl rfl⟩
  | point p => cases hx; exact ⟨_, performed_goto trivial rfl rfl rfl rfl⟩
  | sd x off =>
    cases hx
    exact ⟨(), performed_goto trivial (write_harts ..) rfl (write_mem ..) (write_parked ..)⟩
  | sd_ctx p x i =>
    cases hx
    refine ⟨(), performed_goto trivial rfl rfl ?_ rfl⟩
    cases p <;> rfl
  | sret s =>
    simp only [State.exec, if_pos (hsret s rfl)] at hx
    cases hx
    exact ⟨(), performed_setHart trivial rfl⟩
  | loop l => cases hs
  | call_switch_to s old new => cases hs
  | ret old new => cases hs
  | panic p => cases hs
  | crash => cases hs
  | _ => cases hx; exact ⟨(), performed_setHart trivial rfl⟩

/-- Every operation but a panic and a crash can be performed. -/
theorem exec_total {σ : State} {h : ℕ} (L : Layout) (fail : Bool) {o : Op}
    (hs : Op.simple o = true) (k : o.Ret → Code) : ∃ σ', σ.exec L h fail o k = some σ' := by
  cases o with
  | sc c x =>
    simp only [State.exec]
    split <;> exact ⟨_, rfl⟩
  | panic p => cases hs
  | crash => cases hs
  | _ => exact ⟨_, rfl⟩

/-- An operation leaves the other harts as they are. -/
theorem exec_harts {L : Layout} {σ σ' : State} {h : ℕ} {fail : Bool} {o : Op} {k : o.Ret → Code}
    (hx : σ.exec L h fail o k = some σ') : ∃ x, σ'.harts = Function.update σ.harts h x := by
  have hgoto : ∀ (τ : State) c, τ.harts = σ.harts →
      (τ.goto h c).harts = Function.update σ.harts h { σ.harts h with code := c } := by
    intro τ c hτ
    rw [← hτ]
    rfl
  cases o with
  | store l x =>
    cases hx
    exact ⟨_, hgoto _ _ (write_harts ..)⟩
  | amoswap c x =>
    cases hx
    exact ⟨_, hgoto _ _ (write_harts ..)⟩
  | sd r off =>
    cases hx
    exact ⟨_, hgoto _ _ (write_harts ..)⟩
  | atomic i =>
    cases hx
    exact ⟨_, hgoto _ _ (atomic_frame σ h fail i).1⟩
  | sc c x =>
    simp only [State.exec] at hx
    split at hx
    · cases hx
      exact ⟨_, hgoto _ _ (write_harts ..)⟩
    · cases hx
      exact ⟨_, hgoto _ _ rfl⟩
  | panic p => cases hx
  | crash => cases hx
  | _ =>
    cases hx
    exact ⟨_, rfl⟩

theorem exec_other {L : Layout} {σ σ' : State} {g h : ℕ} {fail : Bool} {o : Op} {k : o.Ret → Code}
    (hgh : h ≠ g) (hx : σ.exec L g fail o k = some σ') : σ'.harts h = σ.harts h := by
  obtain ⟨x, hx⟩ := exec_harts hx
  rw [hx, Function.update_of_ne hgh]

end GQuuuuuunix.Proof
