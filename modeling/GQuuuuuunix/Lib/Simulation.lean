import GQuuuuuunix.Lib.Run

/-! # Forward simulation

A run of one system shows what a run of another shows when every step of the first is answered by
one step of the other, or by none. -/

namespace GQuuuuuunix.Lib
set_option autoImplicit false

variable {S S' E E' O : Type}

/-- The system `N` in the state `s'` shows `o` in at most one step, and is then in `R`. -/
inductive Shows (N : System S' E') (obs : S' × E' → Option O) (R : S' → Prop) (s' : S') :
    Option O → Prop where
  | still : R s' → Shows N obs R s' none
  | step {e : E'} {s₁ : S'} {o : Option O} : N.step s' e = some s₁ → R s₁ → obs (s', e) = o →
      Shows N obs R s' o

theorem Shows.mono {N : System S' E'} {obs : S' × E' → Option O} {R R' : S' → Prop} {s' : S'}
    {o : Option O} (h : Shows N obs R s' o) (hR : ∀ s, R s → R' s) : Shows N obs R' s' o := by
  cases h with
  | still hs => exact .still (hR _ hs)
  | step hs hs' ho => exact .step hs (hR _ hs') ho

theorem Run.simulate {M : System S E} {N : System S' E'} {obs : S × E → Option O}
    {obs' : S' × E' → Option O} (R : History S E → S → S' → Prop)
    (h0 : ∀ s, M.init s → ∃ s', N.init s' ∧ R [] s s')
    (hstep : ∀ tr s e s₁ s', Run M tr s → R tr s s' → M.step s e = some s₁ →
      Shows N obs' (R ((s, e) :: tr) s₁) s' (obs (s, e)))
    {tr : History S E} {s : S} (hr : Run M tr s) :
    ∃ tr' s', Run N tr' s' ∧ R tr s s' ∧ tr'.filterMap obs' = tr.filterMap obs := by
  induction hr with
  | init hs =>
    obtain ⟨s', hs', hR⟩ := h0 _ hs
    exact ⟨[], s', .init hs', hR, rfl⟩
  | @step tr s s₁ e hr hs ih =>
    obtain ⟨tr', s', hr', hR, hobs⟩ := ih
    have hshow := hstep tr s e s₁ s' hr hR hs
    generalize ho : obs (s, e) = o at hshow
    rw [List.filterMap_cons, ho, ← hobs]
    cases hshow with
    | still hR' => exact ⟨tr', s', hr', hR', rfl⟩
    | step hs' hR' ho' =>
      refine ⟨_, _, hr'.step hs', hR', ?_⟩
      rw [List.filterMap_cons, ho']

end GQuuuuuunix.Lib
