import GQuuuuuunix.Proof.LongRuns
import GQuuuuuunix.Properties.SingleRunner
import GQuuuuuunix.Properties.Ticks

/-! # A tick is acknowledged by the hart that handles it

A task that is preempted in the handler goes on in the middle of it, perhaps on another hart, and
then executes the `w_sip` of that hart, whatever is pending there. -/

namespace GQuuuuuunix.Properties
open Lib Kernel Proof
set_option autoImplicit false

variable {cfg : Config} {σ σ' : State} {vs vs' : ℕ → View} {tr : Trace} {e : Event} {h : ℕ}
  {L : Layout} {t : Slot}

/-- A task that goes on in the middle of the handler does so on the hart that switched it out. -/
def HandlerAtHome (L : Layout) (tr : Trace) (σ : State) (e : Event) : Prop :=
  ∀ h old t, performed (σ, e) = some (h, .ret old (.task (.gTasks t))) →
    (σ.harts h).regs .ra ≠ L.dummy_task → switchedOutOn t tr = some h

/-- When hart `h` goes on with a preempted handler, and from there to its `w_sip`, a tick that is
pending on the hart, or is posted there, is one for which the hart has taken its interrupt. -/
def TickTaken (L : Layout) (h : ℕ) (tr : Trace) (σ : State) (e : Event) : Prop :=
  goesOn L h ((σ, e) :: tr) = true → (σ.harts h).ssip = true ∨ fired h (σ, e) = true →
    unacked h tr = true

def isEntry (h : ℕ) (x : State × Event) : Prop := entered h x = true

def isGticks (x : State × Event) : Prop := ∃ g, performed x = some (0, .store .gticks g)

/-! ## The calls in progress -/

theorem entryHart_cons {f : Fn} (hf : ∀ c, f ≠ .kernelvec c) (fs : List Fn) :
    entryHart (f :: fs) = entryHart fs := by
  cases f with
  | kernelvec c => exact absurd rfl (hf c)
  | _ => rfl

/-- Only a trap and an `sret` change the handler invocation that a hart is in. -/
theorem entryHart_after {o : Op} {r : o.Ret} {v : View} (hp : Pre cfg o v)
    (hs : ∀ s, o ≠ .sret s) : entryHart (v.k.after o r).calls = entryHart v.k.calls := by
  rw [Ghost.after_calls]
  cases o with
  | enter f => exact entryHart_cons hp.1 _
  | leave f x =>
    obtain ⟨⟨hhead, hf⟩, _⟩ := hp
    obtain ⟨fs, hfs⟩ := List.head?_eq_some_iff.1 hhead
    show entryHart v.k.calls.tail = _
    rw [hfs, entryHart_cons hf]
    rfl
  | sret s => exact absurd rfl (hs s)
  | _ => rfl

theorem whilePending_cons {P : State × Event → Prop} {x : State × Event}
    (hs : (x.1.harts h).ssip = true) (hp : whilePending h P tr) : whilePending h P (x :: tr) :=
  ⟨hs, Or.inr hp⟩

/-! ## Where a preempted handler invocation was entered -/

theorem switchOut_hart {x : State × Event} :
    (switchOut L t x = none ↔ switchOutHart t x = none) ∧
      ∀ h, switchOutHart t x = some h →
        ∃ old, performed x = some (h, .call_switch_to .sched (.task (.gTasks t)) old) := by
  unfold switchOut switchOutHart
  split
  · next h t' c hp =>
    by_cases ht : t' = t
    · subst ht
      rw [if_pos rfl, if_pos rfl]
      refine ⟨iff_of_false (by simp) (by simp), fun g hg => ?_⟩
      cases hg
      exact ⟨c, hp⟩
    · rw [if_neg ht, if_neg ht]
      exact ⟨iff_of_true rfl rfl, fun g hg => by cases hg⟩
  · exact ⟨iff_of_true rfl rfl, fun g hg => by cases hg⟩

theorem switchedOutOn_none {x : State × Event} (hx : switchOutHart t x = none) :
    switchedOutOn t (x :: tr) = switchedOutOn t tr := by
  unfold switchedOutOn
  rw [List.findSome?_cons, hx]

theorem switchedOutOn_some {x : State × Event} (hx : switchOutHart t x = some h) :
    switchedOutOn t (x :: tr) = some h := by
  unfold switchedOutOn
  rw [List.findSome?_cons, hx]

theorem switchedOutOn_one (h1 : cfg.harts = 1) (hg : GRun cfg tr σ vs)
    (hs : switchedOut L t tr ≠ none) : switchedOutOn t tr = some 0 := by
  induction hg with
  | boot hb => exact absurd rfl hs
  | @step tr σ σ' vs vs' e hg hI hm hI' ih =>
    cases hx : switchOutHart t (σ, e) with
    | none =>
      rw [switchedOutOn_none hx]
      refine ih ?_
      rwa [switchedOut_none (switchOut_hart.1.2 hx)] at hs
    | some g =>
      obtain ⟨old, hp⟩ := (switchOut_hart (L := cfg.layout)).2 g hx
      have hlt := performed_lt hm hp
      rw [switchedOutOn_some hx]
      exact congrArg some (by omega)

/-- What the history says of the handler invocations that are running and that are parked. -/
structure Home (cfg : Config) (tr : Trace) (σ : State) (vs : ℕ → View) : Prop where
  entry : ∀ h < cfg.harts, (vs h).k.trap ≠ .idle → entryHart (vs h).k.calls = some h
  left : ∀ t g, switchedOutOn t tr = some g → ∃ p, switchedOut cfg.layout t tr = some p.regs ∧
    cfg.layout.stackOf (p.regs 1) = some (.task t) ∧ σ.parked (p.regs 1) = some p ∧
    entryHart p.calls = some g

/-- The invocation with which a hart goes on was entered where it was switched out. -/
theorem Home.resumed (hJ : Home cfg tr σ vs) (hg : GRun cfg tr σ vs) (hh : h < cfg.harts)
    {old : CtxPtr} (hn : σ.next h = some (.ret old (.task (.gTasks t))))
    (hra : (σ.harts h).regs .ra ≠ cfg.layout.dummy_task) {g : ℕ}
    (ho : switchedOutOn t tr = some g) :
    entryHart ((σ.harts h).afterRet cfg.layout σ.parked).calls = some g := by
  obtain ⟨p, hs, _, hp, hc⟩ := hJ.left t g ho
  have hregs : ∀ i, ctxOf (σ.harts h).regs i = p.regs i := by
    intro i
    rw [ret_context hg hh hn i, hs]
    rfl
  have hsp : (σ.harts h).regs .sp = p.regs 1 := hregs 1
  rw [afterRet_parked _ hra (by rw [hsp]; exact hp) hregs]
  exact hc

theorem Home.left_frame (hJ : Home cfg tr σ vs) (hout : ∀ t, switchOut cfg.layout t (σ, e) = none)
    (hpark : σ'.parked = σ.parked) (t : Slot) (g : ℕ)
    (ho : switchedOutOn t ((σ, e) :: tr) = some g) :
    ∃ p, switchedOut cfg.layout t ((σ, e) :: tr) = some p.regs ∧
      cfg.layout.stackOf (p.regs 1) = some (.task t) ∧ σ'.parked (p.regs 1) = some p ∧
      entryHart p.calls = some g := by
  rw [switchedOutOn_none (switchOut_hart.1.1 (hout t))] at ho
  rw [switchedOut_none (hout t), hpark]
  exact hJ.left t g ho

/-- A switch-out leaves a frame of its own, and the frames on the other stacks stay. -/
theorem Home.left_call (hJ : Home cfg tr σ vs) (hI : Inv cfg σ vs) (hh : h < cfg.harts)
    {s : SwitchSite} {en : I32} {t' : Slot} {fs : List Fn} {c : Code}
    (hk : (vs h).k = .atSwitch s h en t' fs)
    (hp : performed (σ, e) = some (h, .call_switch_to s (oldCtx s h t') (newCtx s h t')))
    (t : Slot) (g : ℕ) (ho : switchedOutOn t ((σ, e) :: tr) = some g) :
    ∃ p, switchedOut cfg.layout t ((σ, e) :: tr) = some p.regs ∧
      cfg.layout.stackOf (p.regs 1) = some (.task t) ∧
      (σ.callSwitch cfg.layout h s (oldCtx s h t') (newCtx s h t') c).parked (p.regs 1) = some p ∧
      entryHart p.calls = some g := by
  have hstk : (vs h).k.stk = switchStack s h t' := by
    rw [hk]
    cases s <;> rfl
  have hsp : cfg.layout.stackOf ((σ.harts h).regs .sp) = some (switchStack s h t') := by
    rw [(hI.hart h hh).regs, ← hstk]
    exact (hI.ok h hh).sp (by rw [hk]; rfl)
  have hsp1 : ctxOf (Function.update (σ.harts h).regs .ra (cfg.layout.switch_ret s)) 1 =
      (σ.harts h).regs .sp := Function.update_of_ne (by decide) _ _
  by_cases hout : s = .sched ∧ t' = t
  · obtain ⟨rfl, rfl⟩ := hout
    have hx : switchOutHart t' (σ, e) = some h := by
      unfold switchOutHart
      rw [hp]
      exact if_pos rfl
    rw [switchedOutOn_some hx] at ho
    cases ho
    obtain ⟨ρ, hρ⟩ : ∃ ρ, ρ =
        ctxOf (Function.update (σ.harts h).regs .ra (cfg.layout.switch_ret .sched)) := ⟨_, rfl⟩
    rw [← hρ] at hsp1
    have hsaved : switchOut cfg.layout t' (σ, e) = some ρ := by
      rw [switchOut_call hp, if_pos ⟨rfl, rfl⟩, hρ]
    refine ⟨⟨ρ, (σ.harts h).calls, c⟩, switchedOut_some hsaved, ?_, ?_, ?_⟩
    · show cfg.layout.stackOf (ρ 1) = _
      rw [hsp1]
      exact hsp
    · refine (if_pos (hsp1.trans ?_)).trans (by rw [hρ])
      exact (Function.update_of_ne (by decide) _ _).symm
    · show entryHart (σ.harts h).calls = some h
      rw [(hI.hart h hh).calls]
      exact hJ.entry h hh (by rw [hk]; simp [Ghost.atSwitch])
  · have hnone : switchOut cfg.layout t (σ, e) = none := (switchOut_call hp).trans (if_neg hout)
    rw [switchedOutOn_none (switchOut_hart.1.1 hnone)] at ho
    rw [switchedOut_none hnone]
    obtain ⟨p, hs, hst, hpk, hc⟩ := hJ.left t g ho
    refine ⟨p, hs, hst, ?_, hc⟩
    refine (if_neg fun heq => ?_).trans hpk
    rw [heq, Function.update_of_ne (by decide), hsp] at hst
    cases s with
    | sched =>
      cases hst
      exact hout ⟨rfl, rfl⟩
    | scheduler => cases hst

theorem home (hg : GRun cfg tr σ vs) (hC : Along (HandlerAtHome cfg.layout) tr) :
    Home cfg tr σ vs := by
  induction hg with
  | boot hb => exact ⟨fun h _ hn => absurd rfl hn, fun t g ho => by cases ho⟩
  | @step tr σ σ' vs vs' e hg hI hm hI' ih =>
    have hJ := ih hC.2
    refine ⟨fun h hh => ?_, ?_⟩
    · cases hm.phase hI h with
      | trap _ _ _ hk' =>
        rw [hk']
        exact fun _ => congrArg some (hI.hart h hh).hart
      | @op o r _ _ hpre hk' =>
        rw [hk', Ghost.after_trap]
        intro hn
        have hbusy : (vs h).k.trap ≠ .idle := fun hi => hn (Op.trap_idle hpre hi)
        rw [entryHart_after hpre fun s hs => hn (by rw [hs]; rfl)]
        exact hJ.entry h hh hbusy
      | still _ hk' hc _ =>
        rw [hk', hc]
        exact hJ.entry h hh
      | switched _ _ hp hr hra =>
        intro hn
        obtain rfl := hr.site hn
        rw [← (hI'.hart h hh).calls, hm.afterRet hp]
        exact hJ.resumed hg hh (performed_next hp) (hra hn) (hC.1 h _ _ hp (hra hn))
    · have hm' := hm
      cases hm with
      | op hh hi hcode hs hp hx hgo =>
        exact hJ.left_frame (switchOut_noSwitch (noSwitch_simple (performed_eq hi hcode) hs) _)
          hx.parked
      | call hh hi hcode hk => exact hJ.left_call hI hh hk (performed_eq hi hcode)
      | ret hh hi hcode hk hsaved hw =>
        refine hJ.left_frame (fun t => switchOut_eq_none fun h' c hp => ?_) rfl
        rw [performed_eq hi hcode] at hp
        cases hp
      | loop hh hi hcode =>
        exact hJ.left_frame (switchOut_noSwitch (noSwitch_quiet (quiet_loop hi hcode)) _) rfl
      | trap hh hi hsie =>
        exact hJ.left_frame (switchOut_noSwitch (noSwitch_quiet (quiet_trap hi)) _) rfl
      | compute hh => exact hJ.left_frame (switchOut_noSwitch (noSwitch_quiet (Or.inl rfl)) _) rfl
      | timer hh => exact hJ.left_frame (switchOut_noSwitch (noSwitch_quiet (Or.inl rfl)) _) rfl

/-- On one hart every task goes on where it was switched out. -/
theorem handlerAtHome_one (h1 : cfg.harts = 1) (hg : GRun cfg tr σ vs) :
    Along (HandlerAtHome cfg.layout) tr := by
  induction hg with
  | boot hb => trivial
  | @step tr σ σ' vs vs' e hg hI hm hI' ih =>
    refine ⟨fun h old t hp hra => ?_, ih⟩
    have hn := performed_next hp
    have hlt : h < cfg.harts := performed_lt hm hp
    obtain rfl : h = 0 := by omega
    have hout : switchedOut cfg.layout t tr ≠ none := by
      intro hnone
      refine hra ?_
      have hctx := ret_context hg cfg.harts_pos hn 0
      rw [hnone] at hctx
      exact hctx
    exact switchedOutOn_one h1 hg hout

/-! ## What a hart that handles an interrupt knows of it -/

theorem goesOn_keep {x : State × Event} (hw : ∀ y, performed x ≠ some (h, .w_sip y))
    (hg : goesOn L h tr = true) : goesOn L h (x :: tr) = true := by
  unfold goesOn
  rw [List.findSome?_cons]
  cases hx : resumeTurn L h x with
  | none => exact hg
  | some b =>
    unfold resumeTurn at hx
    split at hx
    · split at hx
      · cases hx
        rfl
      · cases hx
    · next h' y hp =>
      split at hx
      · next heq =>
        subst heq
        exact absurd hp (hw y)
      · cases hx
    · cases hx

theorem goesOn_resumed {x : State × Event} {old : CtxPtr} {p : TaskPtr}
    (hp : performed x = some (h, .ret old (.task p)))
    (hra : (x.1.harts h).regs .ra ≠ L.dummy_task) : goesOn L h (x :: tr) = true := by
  have hx : resumeTurn L h x = some true := by
    unfold resumeTurn
    rw [hp]
    exact if_pos ⟨rfl, hra⟩
  unfold goesOn
  rw [List.findSome?_cons, hx]
  rfl

/-- The interrupt that a hart is handling is pending until its `w_sip`, and its tick is counted. -/
structure Handles (L : Layout) (tr : Trace) (σ : State) (h : ℕ) (p : TrapPhase) : Prop where
  pending : unacked h tr = true → (σ.harts h).ssip = true
  taken : p ≠ .idle → p ≠ .acked →
    unacked h tr = true ∨ (p = .counted ∧ goesOn L h tr = true)
  answered : p ≠ .idle → p ≠ .acked → (σ.harts h).ssip = true → unacked h tr = true
  entered : unacked h tr = true → p ≠ .entered → whilePending h (isEntry h) tr
  gticks : h = 0 → unacked h tr = true → p ≠ .entered → p ≠ .gticks_due →
    whilePending 0 isGticks tr

section
variable {p p' : TrapPhase} {x : State × Event}

/-- A step that neither takes nor acknowledges the interrupt of the hart, nor counts it. -/
theorem Handles.frame (hJ : Handles L tr x.1 h p) (hT : TickTaken L h tr x.1 x.2)
    (hx : trapped h x = false) (hw : ∀ y, performed x ≠ some (h, .w_sip y))
    (hs : (σ'.harts h).ssip = ((x.1.harts h).ssip || fired h x))
    (hp : p' = p ∨ (p = .time_due ∧ p' = .counted) ∨ (p = .acked ∧ p' = .idle)) :
    Handles L (x :: tr) σ' h p' := by
  have hu : unacked h (x :: tr) = unacked h tr := unacked_other hx hw
  have hbusy : p' ≠ .idle → p' ≠ .acked → p ≠ .idle ∧ p ≠ .acked ∧ (p = .counted → p' = p) := by
    rcases hp with rfl | ⟨rfl, rfl⟩ | ⟨rfl, rfl⟩
    · exact fun h1 h2 => ⟨h1, h2, fun _ => rfl⟩
    · simp
    · exact fun h1 => absurd rfl h1
  have htaken : p' ≠ .idle → p' ≠ .acked →
      unacked h tr = true ∨ (p' = .counted ∧ goesOn L h (x :: tr) = true) := by
    intro h1 h2
    obtain ⟨hb1, hb2, hc⟩ := hbusy h1 h2
    rcases hJ.taken hb1 hb2 with hk | ⟨hk, hgo⟩
    · exact Or.inl hk
    · exact Or.inr ⟨(hc hk).trans hk, goesOn_keep hw hgo⟩
  have hearly : (p' ≠ .entered → p ≠ .entered) ∧ (p' ≠ .gticks_due → p ≠ .gticks_due) := by
    rcases hp with rfl | ⟨rfl, rfl⟩ | ⟨rfl, rfl⟩ <;> simp
  refine ⟨fun hn => ?_, fun h1 h2 => ?_, fun h1 h2 hs' => ?_, fun hn h1 => ?_,
    fun h0 hn h1 h2 => ?_⟩
  · rw [hs, hJ.pending (hu ▸ hn), Bool.true_or]
  · rw [hu]
    exact htaken h1 h2
  · rw [hu]
    rcases htaken h1 h2 with hk | ⟨_, hgo⟩
    · exact hk
    · rw [hs, Bool.or_eq_true] at hs'
      exact hT hgo hs'
  · rw [hu] at hn
    exact whilePending_cons (hJ.pending hn) (hJ.entered hn (hearly.1 h1))
  · rw [hu] at hn
    subst h0
    exact whilePending_cons (hJ.pending hn) (hJ.gticks rfl hn (hearly.1 h1) (hearly.2 h2))

theorem Handles.of_trap (hx : trapped h x = true) (hs : (σ'.harts h).ssip = true) :
    Handles L (x :: tr) σ' h .entered :=
  ⟨fun _ => hs, fun _ _ => Or.inl (unacked_trapped hx), fun _ _ _ => unacked_trapped hx,
    fun _ hn => absurd rfl hn, fun _ _ hn => absurd rfl hn⟩

theorem Handles.of_w_sip {y : U64} (hx : trapped h x = false)
    (hp : performed x = some (h, .w_sip y)) : Handles L (x :: tr) σ' h .acked := by
  have hu : unacked h (x :: tr) = false := unacked_w_sip hx hp
  refine ⟨fun hn => ?_, fun _ hn => absurd rfl hn, fun _ hn => absurd rfl hn, fun hn => ?_,
    fun _ hn => ?_⟩ <;> rw [hu] at hn <;> cases hn

/-- The entry into the software-interrupt case, and the count of the tick on hart 0. -/
theorem Handles.of_count {o : Op} (hJ : Handles L tr x.1 h p) (hx : trapped h x = false)
    (hp : performed x = some (h, o))
    (ho : (o = .point .software_interrupt ∧ p = .entered ∧ (h = 0 → p' = .gticks_due)) ∨
      ((∃ y, o = .store .gticks y) ∧ p = .gticks_due))
    (hs : (σ'.harts h).ssip = (x.1.harts h).ssip) : Handles L (x :: tr) σ' h p' := by
  have hold : unacked h tr = true := by
    have hphase : p = .entered ∨ p = .gticks_due := by
      rcases ho with ⟨_, hk, _⟩ | ⟨_, hk⟩
      · exact Or.inl hk
      · exact Or.inr hk
    have hnot : p ≠ .idle ∧ p ≠ .acked ∧ p ≠ .counted := by
      rcases hphase with hk | hk <;> rw [hk] <;> simp
    exact (hJ.taken hnot.1 hnot.2.1).resolve_right fun hk => hnot.2.2 hk.1
  have hu : unacked h (x :: tr) = true := by
    rw [unacked_other hx, hold]
    rcases ho with ⟨rfl, _⟩ | ⟨⟨y, rfl⟩, _⟩ <;> rw [hp] <;> simp
  have hpend := hJ.pending hold
  refine ⟨fun _ => hs.trans hpend, fun _ _ => Or.inl hu, fun _ _ _ => hu, fun _ _ => ?_,
    fun h0 _ _ hn => ?_⟩
  · rcases ho with ⟨rfl, _⟩ | ⟨_, hk⟩
    · exact ⟨hpend, Or.inl (entered_iff.2 hp)⟩
    · exact whilePending_cons hpend (hJ.entered hold (by rw [hk]; simp))
  · subst h0
    rcases ho with ⟨_, _, hz⟩ | ⟨⟨y, rfl⟩, _⟩
    · exact absurd (hz rfl) hn
    · exact ⟨hpend, Or.inl ⟨y, hp⟩⟩

/-- The hart goes on with a task. -/
theorem Handles.switched (hJ : Handles L tr x.1 h p) (hT : TickTaken L h tr x.1 x.2)
    (hp : p = .idle ∨ p = .counted) (hx : trapped h x = false)
    (hw : ∀ y, performed x ≠ some (h, .w_sip y)) (hs : (σ'.harts h).ssip = (x.1.harts h).ssip)
    (hp' : p' = .idle ∨ (p' = .counted ∧ goesOn L h (x :: tr) = true)) :
    Handles L (x :: tr) σ' h p' := by
  have hu : unacked h (x :: tr) = unacked h tr := unacked_other hx hw
  have hne : p ≠ .entered ∧ p ≠ .gticks_due := by
    rcases hp with rfl | rfl <;> simp
  refine ⟨fun hn => ?_, fun h1 _ => Or.inr (hp'.resolve_left h1), fun h1 _ hs' => ?_,
    fun hn _ => ?_, fun h0 hn _ _ => ?_⟩
  · rw [hs]
    exact hJ.pending (hu ▸ hn)
  · rw [hu]
    exact hT (hp'.resolve_left h1).2 (Or.inl (hs ▸ hs'))
  · rw [hu] at hn
    exact whilePending_cons (hJ.pending hn) (hJ.entered hn hne.1)
  · rw [hu] at hn
    subst h0
    exact whilePending_cons (hJ.pending hn) (hJ.gticks rfl hn hne.1 hne.2)

end

/-- What an operation other than those that count and acknowledge makes of the phase. -/
theorem Op.trap_other {v : View} {o : Op} (hpre : Pre cfg o v) (hg : ∀ y, o ≠ .store .gticks y)
    (hw : ∀ y, o ≠ .w_sip y) (hent : o ≠ .point .software_interrupt) :
    Op.trap v.k o = v.k.trap ∨ (v.k.trap = .time_due ∧ Op.trap v.k o = .counted) ∨
      (v.k.trap = .acked ∧ Op.trap v.k o = .idle) := by
  unfold Op.trap
  split
  · exact absurd rfl (hg _)
  · split
    · exact Or.inl rfl
    · next hb =>
      rcases hpre with ⟨hb', _⟩ | ⟨_, _, hk, _⟩
      · exact absurd hb' hb
      · exact Or.inr (Or.inl ⟨hk, rfl⟩)
  · exact absurd rfl (hw _)
  · exact absurd rfl hent
  · exact Or.inr (Or.inr ⟨hpre.2.1, rfl⟩)
  · exact Or.inl rfl

theorem handles (hg : GRun cfg tr σ vs) (hC : Along (TickTaken cfg.layout h) tr)
    (hh : h < cfg.harts) : Handles cfg.layout tr σ h (vs h).k.trap := by
  induction hg with
  | boot hb =>
    exact ⟨fun hn => (by cases hn), fun hn => absurd rfl hn, fun hn => absurd rfl hn,
      fun hn => (by cases hn), fun _ hn => (by cases hn)⟩
  | @step tr σ σ' vs vs' e hg hI hm hI' ih =>
    have hJ := ih hC.2
    have hssip : (∀ y, performed (σ, e) ≠ some (h, .w_sip y)) →
        (σ'.harts h).ssip = ((σ.harts h).ssip || fired h (σ, e)) := by
      intro hno
      obtain ⟨hf, hs⟩ | ⟨y, hp, _⟩ | ⟨hf, _, hs⟩ := hm.ssip h
      · rw [hf, hs, Bool.or_true]
      · exact absurd hp (hno y)
      · rw [hf, hs, Bool.or_false]
    cases hm.phase hI h with
    | trap hx hs hk hk' =>
      have hnone := trapped_performed hx
      rw [hk']
      refine Handles.of_trap hx ?_
      rw [hssip (by rw [hnone]; simp), hs, Bool.true_or]
    | @op o r hx hp hpre hk' =>
      have hquiet : fired h (σ, e) = false := by
        refine Bool.eq_false_iff.2 fun hf => ?_
        rw [fired_performed hf] at hp
        cases hp
      rw [hk', Ghost.after_trap]
      by_cases hw : ∃ y, o = .w_sip y
      · obtain ⟨y, rfl⟩ := hw
        exact Handles.of_w_sip hx hp
      have hno : ∀ y, performed (σ, e) ≠ some (h, .w_sip y) := by
        intro y hy
        rw [hp] at hy
        cases hy
        exact hw ⟨y, rfl⟩
      have hs := hssip hno
      by_cases hent : o = .point .software_interrupt
      · subst hent
        rw [hquiet, Bool.or_false] at hs
        refine hJ.of_count hx hp (Or.inl ⟨rfl, hpre, fun h0 => ?_⟩) hs
        exact if_pos ((hI.hart h hh).hart.trans h0)
      by_cases hgt : ∃ y, o = .store .gticks y
      · obtain ⟨y, rfl⟩ := hgt
        rw [hquiet, Bool.or_false] at hs
        exact hJ.of_count hx hp (Or.inr ⟨⟨y, rfl⟩, hpre.2.1⟩) hs
      exact hJ.frame hC.1 hx hno hs (Op.trap_other hpre (fun y hy => hgt ⟨y, hy⟩)
        (fun y hy => hw ⟨y, hy⟩) hent)
    | still hx hk' hc hp =>
      have hno : ∀ y, performed (σ, e) ≠ some (h, .w_sip y) := by
        intro y hy
        rcases hp with hp | ⟨g, o, hp, hs⟩ <;> rw [hp] at hy <;> cases hy
        cases hs rfl
      exact hJ.frame hC.1 hx hno (hssip hno) (Or.inl hk')
    | @switched s en t hx hk hp hr hra =>
      have hno : ∀ y, performed (σ, e) ≠ some (h, .w_sip y) := by rw [hp]; simp
      have hquiet : fired h (σ, e) = false := by
        refine Bool.eq_false_iff.2 fun hf => ?_
        rw [fired_performed hf] at hp
        cases hp
      refine hJ.switched hC.1 hk hx hno ?_ (hr.trap.imp_right fun hc => ⟨hc, ?_⟩)
      · rw [hssip hno, hquiet, Bool.or_false]
      · have hne : (vs' h).k.trap ≠ .idle := by rw [hc]; simp
        obtain rfl := hr.site hne
        exact goesOn_resumed hp (hra hne)

/-! ## The steps of a run, checked in order -/

theorem goesOn_cons {x : State × Event} :
    goesOn L h (x :: tr) = (resumeTurn L h x).getD (goesOn L h tr) := by
  unfold goesOn
  rw [List.findSome?_cons]
  cases resumeTurn L h x <;> rfl

theorem along_ticksTaken {xs : List (State × Event)} :
    ∀ {past : Trace}, Along (TickTaken L h) past → ticksTaken L h past (goesOn L h past) xs = true →
      Along (TickTaken L h) (xs.reverse ++ past) := by
  induction xs with
  | nil => exact fun hp _ => hp
  | cons x xs ih =>
    intro past hp hb
    rw [List.reverse_cons, List.append_assoc]
    unfold ticksTaken at hb
    rw [← goesOn_cons] at hb
    show Along (TickTaken L h) (xs.reverse ++ x :: past)
    cases hgo : goesOn L h (x :: past) with
    | true =>
      rw [hgo] at hb
      obtain ⟨hx, hrest⟩ := (Bool.and_eq_true _ _).mp hb
      refine ih ⟨fun _ hs => ?_, hp⟩ (by rw [hgo]; exact hrest)
      rw [(Bool.or_eq_true _ _).mpr hs] at hx
      exact hx
    | false =>
      rw [hgo] at hb
      refine ih ⟨fun hgo' => ?_, hp⟩ (by rw [hgo]; exact hb)
      exact absurd (hgo.symm.trans hgo') Bool.false_ne_true

theorem next_of_acknowledging (hb : acknowledging σ h = true) :
    ∃ x, σ.next h = some (.w_sip x) := by
  unfold acknowledging at hb
  split at hb
  · next x hn => exact ⟨x, hn⟩
  · cases hb

/-! ## Acknowledgements -/

/-- While preempted handlers go on where they were switched out, a `w_sip` is executed by the hart
that entered the handler; and while a hart that goes on with one has no tick but one it has taken,
a tick that its `w_sip` clears was pending at an entry on that hart, and on hart 0 was counted. -/
theorem acknowledged_at_home (hr : Run (kernel cfg) tr σ) (hh : h < cfg.harts) {x : U64}
    (hn : σ.next h = some (.w_sip x)) :
    (Along (HandlerAtHome cfg.layout) tr → entryHart (σ.harts h).calls = some h) ∧
    (Along (TickTaken cfg.layout h) tr → (σ.harts h).ssip = true →
      whilePending h (isEntry h) tr ∧ (h = 0 → whilePending 0 isGticks tr)) := by
  obtain ⟨vs, hg⟩ := grun_of_run hr
  have hI := hg.inv
  have hk : (vs h).k.trap = .counted := (hI.pre_next hh hn).2
  refine ⟨fun hC => ?_, fun hC hs => ?_⟩
  · rw [(hI.hart h hh).calls]
    exact (home hg hC).entry h hh (by rw [hk]; simp)
  · have hJ := handles hg hC hh
    have hu := hJ.answered (by rw [hk]; simp) (by rw [hk]; simp) hs
    exact ⟨hJ.entered hu (by rw [hk]; simp),
      fun h0 => hJ.gticks h0 hu (by rw [hk]; simp) (by rw [hk]; simp)⟩

/-- The second task has gone on in the middle of the handler, and acknowledges the tick that the
first was preempted by. -/
theorem acknowledged_at_home_later : ∃ (tr : Trace) (σ : State) (x : U64),
    Run (kernel oneHart) tr σ ∧ goesOn .sample 0 tr = true ∧ σ.next 0 = some (.w_sip x) ∧
      (σ.harts 0).ssip = true ∧ entryHart (σ.harts 0).calls = some 0 ∧
      whilePending 0 isGticks tr := by
  obtain ⟨tr, σ, hr, _, _, ht, hgo, hack, hs⟩ := twoRounds_run
  obtain ⟨x, hn⟩ := next_of_acknowledging hack
  obtain ⟨vs, hg⟩ := grun_of_run hr
  have hC : Along (TickTaken .sample 0) (tr.reverse.reverse ++ []) := along_ticksTaken trivial ht
  rw [List.reverse_reverse, List.append_nil] at hC
  obtain ⟨hentry, htick⟩ := acknowledged_at_home hr (by decide) hn
  exact ⟨tr, σ, x, hr, hgo, hn, hs, hentry (handlerAtHome_one rfl hg), (htick hC hs).2 rfl⟩

/-- The first task is preempted on hart 0 and goes on in the handler on hart 1, where it clears a
tick that hart 1 has not taken. -/
theorem acknowledged_elsewhere : ∃ (tr : Trace) (σ : State) (x : U64),
    Run (kernel (.sample 2 (by decide) (by decide))) tr σ ∧ σ.next 1 = some (.w_sip x) ∧
      entryHart (σ.harts 1).calls = some 0 ∧ (σ.harts 1).ssip = true ∧
      tr.countP (fired 1) = 1 ∧ tr.countP (entered 1) = 0 := by
  obtain ⟨tr, σ, hr, hp⟩ := Run.of_start (.sample 2 (by decide) (by decide)) Layout.sample_apart
    (firstPreempted ++ List.replicate 60 (.hart 1 false) ++
      .timer 1 :: List.replicate 64 (.hart 1 false))
    (fun x => acknowledging x.2 1 && decide (entryHart (x.2.harts 1).calls = some 0) &&
      (x.2.harts 1).ssip && x.1.countP (fired 1) == 1 && x.1.countP (entered 1) == 0)
    (by decide +kernel)
  simp only [Bool.and_eq_true, beq_iff_eq, decide_eq_true_eq] at hp
  obtain ⟨⟨⟨⟨hack, hc⟩, hs⟩, hf⟩, he⟩ := hp
  obtain ⟨x, hn⟩ := next_of_acknowledging hack
  exact ⟨tr, σ, x, hr, hn, hc, hs, hf, he⟩

end GQuuuuuunix.Properties
