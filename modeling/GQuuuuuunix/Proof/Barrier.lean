import GQuuuuuunix.Proof.Adequacy

/-! # The boot barrier in the history of a run -/

namespace GQuuuuuunix.Proof
open Lib Kernel
set_option autoImplicit false

variable {cfg : Config} {σ σ' : State} {vs vs' : ℕ → View} {tr : Trace} {e : Event} {h : ℕ}

theorem opensBarrier_eq {x : State × Event} (hx : opensBarrier x = true) :
    ∃ σ fail v, x = (σ, .hart 0 fail) ∧ σ.next 0 = some (.sc .start v) ∧
      σ.sc_succeeds 0 fail .start = true := by
  unfold opensBarrier at hx
  split at hx
  · next σ fail =>
    split at hx
    · next v hn => exact ⟨σ, fail, v, rfl, hn, hx⟩
    · cases hx
  · cases hx

theorem opensBarrier_performed {x : State × Event} (hx : opensBarrier x = true) :
    ∃ v, performed x = some (0, .sc .start v) := by
  obtain ⟨σ, fail, v, rfl, hn, _⟩ := opensBarrier_eq hx
  refine ⟨v, ?_⟩
  show (σ.next 0).map _ = _
  rw [hn]
  rfl

/-- The barrier is passed when hart 0 has opened it, and then the table was ready. -/
structure Opened (cfg : Config) (tr : Trace) (vs : ℕ → View) : Prop where
  stage : (∃ x ∈ tr, opensBarrier x = true) ↔ (vs 0).k.stage = .opened
  ready : ∀ x ∈ tr, opensBarrier x = true → TableReady cfg x.1.mem

theorem Opened.frame (hJ : Opened cfg tr vs) {x : State × Event} (hx : opensBarrier x = false)
    (hs : (vs' 0).k.stage = .opened ↔ (vs 0).k.stage = .opened) : Opened cfg (x :: tr) vs' := by
  refine ⟨?_, fun y hy hopen => ?_⟩
  · rw [hs, ← hJ.stage]
    refine ⟨fun ⟨y, hy, hopen⟩ => ?_, fun ⟨y, hy, hopen⟩ => ⟨y, List.mem_cons_of_mem _ hy, hopen⟩⟩
    rcases List.mem_cons.1 hy with rfl | hy
    · rw [hx] at hopen
      cases hopen
    · exact ⟨y, hy, hopen⟩
  · rcases List.mem_cons.1 hy with rfl | hy
    · rw [hx] at hopen
      cases hopen
    · exact hJ.ready y hy hopen

theorem Opened.still (hJ : Opened cfg tr vs) (hq : quiet (σ, e)) (hm : Move cfg σ vs e σ' vs') :
    Opened cfg ((σ, e) :: tr) vs' := by
  refine hJ.frame (Bool.eq_false_iff.2 fun hopen => ?_) ?_
  · obtain ⟨v, hp⟩ := opensBarrier_performed hopen
    rcases hq with hq | ⟨_, _, hq⟩ <;> rw [hp] at hq <;> cases hq
  · rw [((hm.still hq).same 0).stage]

theorem opensBarrier_sc {fail : Bool} {v : I32} (hn : σ.next 0 = some (.sc .start v)) :
    opensBarrier (σ, .hart 0 fail) = σ.sc_succeeds 0 fail .start := by
  simp only [opensBarrier, hn]

theorem Opened.op (hI : Inv cfg σ vs) (hJ : Opened cfg tr vs) (hh : h < cfg.harts) {o : Op}
    {r : o.Ret} {fail : Bool} {c : Code} {w : View} (hn : σ.next h = some o)
    (hp : Pre cfg o (vs h)) (hx : Performed σ h fail o r c σ') (hg : Goes cfg σ' o r (vs h) w) :
    Opened cfg ((σ, .hart h fail) :: tr) (Function.update vs h w) := by
  by_cases hopen : opensBarrier (σ, .hart h fail) = true
  · obtain ⟨σ0, fail0, v, heq, hn0, hsc⟩ := opensBarrier_eq hopen
    cases heq
    rw [hn] at hn0
    cases hn0
    obtain ⟨t, hcl, _⟩ | ⟨_, _, _, hb, hready⟩ := hp
    · cases hcl
    refine ⟨⟨fun _ => ?_, fun _ => ⟨_, List.mem_cons_self, hopen⟩⟩, fun y hy hy' => ?_⟩
    · rw [Function.update_self, hg.k]
      show (if r = (0 : I32) then (vs 0).k.pass else (vs 0).k).stage = .opened
      rw [if_pos ((sc_answer hx.answer).2 hsc)]
      rfl
    · rcases List.mem_cons.1 hy with rfl | hy
      · exact hI.table_ready hh hb hready.toTableReady
      · exact hJ.ready y hy hy'
  · refine hJ.frame (by simpa using hopen) ⟨fun ho => ?_, fun ho => Inv.opened_step hg ho⟩
    by_contra hop
    obtain ⟨rfl, hb, _, v, rfl⟩ := hI.opening hh hp hx hg hop ho
    rw [Function.update_self, hg.k] at ho
    refine hopen ?_
    refine (opensBarrier_sc hn).trans ((sc_answer hx.answer).1 ?_)
    by_contra h0
    have ho' : (if r = (0 : I32) then (vs 0).k.pass else (vs 0).k).stage = .opened := ho
    rw [if_neg h0, hb] at ho'
    cases ho'

theorem opened (hg : GRun cfg tr σ vs) : Opened cfg tr vs := by
  induction hg with
  | boot hb =>
    exact ⟨⟨fun ⟨_, hx, _⟩ => (by cases hx), fun ho => (by cases ho)⟩, fun _ hx => (by cases hx)⟩
  | @step tr σ σ' vs vs' e hg hI hm hI' ih =>
    have hm' := hm
    cases hm with
    | op hh hi hcode hs hp hx hgo => exact ih.op hI hh (next_eq hi hcode) hp hx hgo
    | call hh hi hcode hk =>
      refine ih.frame (Bool.eq_false_iff.2 fun hopen => ?_) ?_
      · obtain ⟨v, hp⟩ := opensBarrier_performed hopen
        rw [performed_eq hi hcode] at hp
        cases hp
      · rw [update_field Ghost.stage]
        rw [View.called, hk]
        rfl
    | ret hh hi hcode hk hsaved hw =>
      refine ih.frame (Bool.eq_false_iff.2 fun hopen => ?_) ?_
      · obtain ⟨v, hp⟩ := opensBarrier_performed hopen
        rw [performed_eq hi hcode] at hp
        cases hp
      · rw [update_field Ghost.stage]
        rw [hw.stage, hk]
        rfl
    | loop hh hi hcode => exact ih.still (quiet_loop hi hcode) hm'
    | trap hh hi hsie => exact ih.still (quiet_trap hi) hm'
    | compute hh => exact ih.still (Or.inl rfl) hm'
    | timer hh => exact ih.still (Or.inl rfl) hm'

end GQuuuuuunix.Proof
