import GQuuuuuunix.Proof.Clients
import GQuuuuuunix.Proof.Coroutines

/-! # Programs are undisturbed

Traps interrupt a program between any two operations, handlers switch to other tasks, tasks go on on
other harts. Of all this a program sees nothing but what shared memory answers. -/

namespace GQuuuuuunix.Properties
open Lib Kernel Proof
set_option autoImplicit false

variable {cfg : Config} {σ : State} {tr : History State (ClientEvent AtomicCall)} {s : StackId}

/-- What the boot program of a hart, or a task, did outside trap handlers, on whichever harts, it may
do by itself: each operation is the next of its program after the answers so far, with none left
out, repeated or out of order. Wherever the program runs outside handlers, the next operation of the
hart is the next of the program. -/
theorem undisturbed (hr : Run (clients cfg Atomic.call) tr σ) (hs : s.Live cfg) :
    ∃ c, Coroutine Atomic.call (s.program cfg) (ownActions cfg.layout s (kernelTrace tr)) c ∧
      ∀ h < cfg.harts, cfg.layout.stackOf ((σ.harts h).regs .sp) = some s →
        trapDepth cfg.layout s (kernelTrace tr) = 0 → ∀ o, σ.next h = some o →
        o.ofSwitch = false → ∃ f, c = .op o f := by
  obtain ⟨vs, hI, hA, hJ⟩ := coRest_follows.run (fun k _ _ _ _ hk => does_call k hk fun _ _ hk' =>
    ⟨_, hk'⟩) hr
  have hon : ∀ h < cfg.harts, cfg.layout.stackOf ((σ.harts h).regs .sp) = some s →
      ∀ o, σ.next h = some o → o.ofSwitch = false → On vs h s := by
    intro h hh hsp o hn ho
    obtain ⟨-, f, hcode⟩ := next_some hn
    have hsw := hA.sw_none hh hcode ho
    rw [(hI.hart h hh).regs, (hI.ok h hh).sp hsw] at hsp
    exact ⟨Option.some.inj hsp, hsw⟩
  by_cases hruns : ∃ h < cfg.harts, On vs h s
  · obtain ⟨h, hh, rfl, hsw⟩ := hruns
    obtain ⟨c₀, hc, hu⟩ := hJ _ _ (.runs hh hsw)
    refine ⟨c₀, hc, fun h' hh' hsp hd o hn ho => ?_⟩
    obtain rfl : h' = h := hI.stk_inj hh' hh (hon h' hh' hsp o hn ho).1
    obtain ⟨-, f, hcode⟩ := next_some hn
    rw [hd, hcode] at hu
    exact ⟨f, hu.symm⟩
  · obtain ⟨c, hp⟩ := hI.program hs
    obtain ⟨c₀, hc, -⟩ := hJ s c hp
    exact ⟨c₀, hc, fun h hh hsp _ o hn ho => absurd ⟨h, hh, hon h hh hsp o hn ho⟩ hruns⟩

/-- The first task calls on hart 0, is preempted there, and goes on on hart 1. -/
theorem undisturbed_moved : ∃ (tr : History State (ClientEvent AtomicCall)) (c : Code),
    (kernelTrace tr).any (fun x => stepped 0 x && onStack .sample (.task 0) x) = true ∧
      (kernelTrace tr).any (fun x => stepped 1 x && onStack .sample (.task 0) x) = true ∧
      trapDepth .sample (.task 0) (kernelTrace tr) = 0 ∧
      Coroutine Atomic.call dummy_task (ownActions .sample (.task 0) (kernelTrace tr)) c := by
  obtain ⟨tr, σ, hr, hp⟩ := Run.of_perform
    (M := clients (.sample 2 (by decide) (by decide)) Atomic.call)
    (State.start_booting (.sample 2 (by decide) (by decide)) Layout.sample_apart)
    (List.replicate 3 (.kernel (.hart 1 false)) ++ (List.replicate 580 (.kernel (.hart 0 false)) ++
      .call 0 (.fetch_add .atomic_int_t 7 2) :: (List.replicate 8 (.kernel (.hart 0 false)) ++
        .kernel (.timer 0) :: (List.replicate 200 (.kernel (.hart 0 false)) ++
          List.replicate 200 (.kernel (.hart 1 false))))))
    (P := fun x => (kernelTrace x.1).any (fun x => stepped 0 x && onStack .sample (.task 0) x) &&
      (kernelTrace x.1).any (fun x => stepped 1 x && onStack .sample (.task 0) x) &&
      trapDepth .sample (.task 0) (kernelTrace x.1) == 0)
    (by decide +kernel)
  obtain ⟨c, hc, -⟩ := undisturbed (s := .task 0) hr Nat.two_pos
  simp only [Bool.and_eq_true, beq_iff_eq] at hp
  exact ⟨tr, c, hp.1.1, hp.1.2, hp.2, hc⟩

end GQuuuuuunix.Properties
