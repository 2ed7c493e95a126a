import GQuuuuuunix.Proof.Codes
import GQuuuuuunix.Kernel.Start

/-! # A trap is transparent to the program it interrupts -/

namespace GQuuuuuunix.Properties
open Lib Kernel Proof
set_option autoImplicit false

variable {cfg : Config} {σ σ' : State} {vs vs' : ℕ → View} {tr : Trace} {h : ℕ}

/-- What `sret` makes of the machine state that the interrupted program can see. -/
theorem Inv.after_sret (hI : Inv cfg σ vs) (hh : h < cfg.harts) {s : Snapshot} {fail : Bool}
    {c : Code} (hp : Pre cfg (.sret s) (vs h)) {r : Unit}
    (hx : Performed σ h fail (.sret s) r c σ') :
    (σ'.harts h).code = c ∧ (σ'.harts h).pc = s.pc ∧ (σ'.harts h).mode = s.mode ∧
      sie (σ'.harts h).sstatus = s.sie ∧
      (∀ r, r ≠ .tp → (σ'.harts h).regs r = s.regs r) ∧
      (σ'.harts h).regs .tp = BitVec.ofNat 64 h := by
  have hx' : σ'.harts h = { (σ.harts h).afterSret with code := c } := by
    rw [hx.harts, Function.update_self]
    rfl
  obtain ⟨hpc, hmode, hregs⟩ := hI.intact hh hp
  obtain ⟨_, _, _, _, _, hsie, _, hspie, _, _⟩ := hp
  rw [hx']
  refine ⟨rfl, hpc, hmode, ?_, fun r hr => hregs r (Reg.mem_all r) hr, ?_⟩
  · rw [hsie]
    refine sie_sret_sstatus ?_
    rw [(hI.hart h hh).sstatus]
    exact hspie
  · show (σ.harts h).regs .tp = _
    rw [(hI.hart h hh).regs, (hI.ok h hh).tp, (hI.hart h hh).hart]

/-- When `kernelvec` executes `sret`, on whichever hart, the program goes on that was interrupted
when the trap was taken, with the `pc`, the registers but `tp`, the mode and the interrupt enable
bit it had then, and with the id of the hart it is now on in `tp`. -/
theorem preemption_transparent {fail : Bool} {s : Snapshot}
    (hr : Run (kernel cfg) ((σ, .hart h fail) :: tr) σ') (hn : σ.next h = some (.sret s)) :
    (∃ x ∈ tr, Interrupted s (σ'.harts h).code x) ∧ (σ'.harts h).pc = s.pc ∧
      (σ'.harts h).mode = s.mode ∧ sie (σ'.harts h).sstatus = s.sie ∧
      (∀ r, r ≠ .tp → (σ'.harts h).regs r = s.regs r) ∧
      (σ'.harts h).regs .tp = BitVec.ofNat 64 h := by
  obtain ⟨vs', hg⟩ := grun_of_run hr
  cases hg with
  | step hg hI hm hI' =>
    cases hm with
    | trap hh hi _ =>
      rw [State.next, if_pos hi] at hn
      cases hn
    | op hh hi hcode hs hp hx _ =>
      rw [next_eq hi hcode] at hn
      cases hn
      obtain ⟨hc, hstate⟩ := Inv.after_sret hI hh hp hx
      rw [hc]
      exact ⟨((codes hg).rest hh hcode).1, hstate⟩
    | loop hh hi hcode =>
      rw [next_eq hi hcode] at hn
      cases hn
    | call hh hi hcode _ =>
      rw [next_eq hi hcode] at hn
      cases hn
    | ret hh hi hcode _ _ _ =>
      rw [next_eq hi hcode] at hn
      cases hn

/-- The last operation was an `sret` of hart 1. -/
def endsInSret : Trace → Bool
  | (σ, .hart 1 _) :: _ => match σ.next 1 with | some (.sret _) => true | _ => false
  | _ => false

/-- Hart 1 has taken no interrupt, and goes on with the program that hart 0 was running. -/
theorem preemption_transparent_moved : ∃ (tr : Trace) (σ σ' : State) (s : Snapshot) (fail : Bool),
    Run (kernel (.sample 2 (by decide) (by decide))) ((σ, .hart 1 fail) :: tr) σ' ∧
      σ.next 1 = some (.sret s) ∧ tr.countP (trapped 1) = 0 ∧ switchedOutOn 0 tr = some 0 ∧
      (∃ x ∈ tr, Interrupted s (σ'.harts 1).code x) ∧ (σ'.harts 1).pc = s.pc ∧
      (∀ r, r ≠ .tp → (σ'.harts 1).regs r = s.regs r) ∧ (σ'.harts 1).regs .tp = 1 := by
  obtain ⟨tr, σ', hr, hp⟩ := Run.of_start (.sample 2 (by decide) (by decide))
    Layout.sample_apart (firstPreempted ++ List.replicate 160 (.hart 1 false))
    (fun x => endsInSret x.1 && x.1.tail.countP (trapped 1) == 0 &&
      switchedOutOn 0 x.1.tail == some 0) (by decide +kernel)
  simp only [Bool.and_eq_true, beq_iff_eq] at hp
  obtain ⟨⟨hend, htrap⟩, hon⟩ := hp
  dsimp only [endsInSret] at hend
  split at hend
  · next σ fail tr =>
    split at hend
    · next s hn =>
      obtain ⟨hint, hpc, _, _, hregs, htp⟩ := preemption_transparent hr hn
      exact ⟨tr, σ, σ', s, fail, hr, hn, htrap, hon, hint, hpc, hregs, htp⟩
    · cases hend
  · cases hend

end GQuuuuuunix.Properties
