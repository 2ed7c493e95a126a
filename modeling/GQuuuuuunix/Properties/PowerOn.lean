import GQuuuuuunix.Lib.Reach
import GQuuuuuunix.Proof.Overlay
import GQuuuuuunix.Properties.Arrival

/-! # From reset

What the harts that are up do is a run of the kernel, whatever becomes of the others. -/


namespace GQuuuuuunix.PowerOn
open Lib Kernel
set_option autoImplicit false

variable {cfg : Config} {timer_scratch t : U64} {h : ℕ} {x x₀ : MachineMode.Hart}
  {tr : History Board Event} {b b' : Board}

/-! ## The hand-over -/

theorem entry_sp (L : Layout) (hh : h < MAX_CPU_NUMS) (ra : U64) (r : Regs) :
    _entry L.kstack (BitVec.ofNat 64 h) ra r .sp = L.startSp h := by
  have hval : (1024 * 4 : U64) * (BitVec.ofNat 64 h + 1) =
      BitVec.ofNat 64 (STACK_SIZE * (h + 1)) := by
    rcases MachineMode.hart_cases hh with rfl | rfl | rfl | rfl <;> rfl
  exact congrArg (L.kstack + ·) hval

theorem sie_bits (y : U64) : Kernel.sie (y &&& SSTATUS_BITS) = Kernel.sie y := by
  simp [Kernel.sie, SSTATUS_BITS]

theorem stackOf_entry {L : Layout} (hL : L.Apart) (hh : h < MAX_CPU_NUMS) :
    L.stackOf (L.startSp h) = some (.hart h) := by
  have hj := stackOf_startSp hL hh (Nat.zero_le 256)
  rwa [show BitVec.ofNat 64 0 = 0#64 from rfl, BitVec.sub_zero] at hj

/-- The hart still has the stack pointer that `_entry` gave it. -/
theorem arrived_sp {L : Layout} (hh : h < MAX_CPU_NUMS) (h0 : Reset L timer_scratch h x₀)
    (ha : MachineMode.Arrived timer_scratch h x₀ t x) : x.regs .sp = L.startSp h := by
  obtain ⟨ra, r₀, h0r⟩ := h0.regs
  rw [ha.regs, Function.update_of_ne (by simp), h0r, h0.mhartid]
  exact entry_sp L hh ra r₀

/-- The kernel finds the hart as it boots. -/
theorem handOver_booting (hL : cfg.layout.Apart) (hh : h < cfg.harts)
    (h0 : Reset cfg.layout timer_scratch h x₀) (ha : MachineMode.Arrived timer_scratch h x₀ t x)
    {r : Regs} (hr : cfg.layout.ComputeOk x.regs r) (pc : U64) {y : Kernel.Hart}
    (hy : y.stvec = false) : (handOver cfg x .supervisor r pc y).Booting cfg h := by
  have hmax : h < MAX_CPU_NUMS := Nat.lt_of_lt_of_le hh cfg.harts_le
  refine ⟨rfl, ?_, ?_, hr.2.2, rfl, ?_, ?_, hy, rfl⟩
  · refine hr.1.trans ?_
    rw [ha.regs, Function.update_self]
  · refine hr.2.1.trans ?_
    rw [arrived_sp hmax h0 ha]
    exact stackOf_entry hL hmax
  · exact (sie_bits _).trans (ha.words.sie.trans h0.sie)
  · exact ha.ssip.trans h0.ssip


/-! ## One hart of a board -/

/-- What hart `h` did in machine mode is a run of it by itself, which ends when it comes to
`kernel_main`. -/
structure Alone (cfg : Config) (timer_scratch : U64) (h : ℕ) (tr : History Board Event)
    (b : Board) : Prop where
  run : Run (hart cfg.layout timer_scratch h) (tr.filterMap (machineTurn h)) (b.machine h)
  before : ∀ y ∈ tr.filterMap (machineTurn h), atKernel y.1 = false
  up : b.up h = atKernel (b.machine h)

/-- The three kinds of steps. -/
inductive Board.Step (cfg : Config) (b : Board) : Event → Board → Prop where
  | machine {h : ℕ} {e : MachineMode.Event} {x : MachineMode.Hart} : h < cfg.harts →
      b.up h = false → MachineMode.step (b.machine h) e = some x → atKernel x = false →
      Step cfg b (.machine h e) { b with machine := Function.update b.machine h x }
  | arrive {h : ℕ} {r : Regs} {pc : U64} {x : MachineMode.Hart} {m : Mode} : h < cfg.harts →
      b.up h = false → MachineMode.step (b.machine h) .instr = some x → mode x.mode = some m →
      atKernel x = true → cfg.layout.ComputeOk x.regs r → Step cfg b (.arrive h r pc)
        { machine := Function.update b.machine h x, up := Function.update b.up h true,
          kernel := b.kernel.setHart h (handOver cfg x m r pc (b.kernel.harts h)) }
  | kernel {e : Kernel.Event} {σ : State} : b.up (hartOf e) = true →
      b.kernel.step cfg.layout cfg.harts e = some σ →
      Step cfg b (.kernel e) { b with kernel := σ }

theorem Board.step_cases {e : Event} (hs : b.step cfg e = some b') : b.Step cfg e b' := by
  cases e with
  | machine h e =>
    simp only [Board.step] at hs
    split at hs
    · next hh =>
      split at hs
      · next x hx =>
        split at hs
        · cases hs
        · next hk =>
          cases hs
          exact .machine hh.1 hh.2 hx (Bool.eq_false_iff.2 hk)
      · cases hs
    · cases hs
  | arrive h r pc =>
    simp only [Board.step] at hs
    split at hs
    · next hh =>
      split at hs
      · next x hx =>
        split at hs
        · next m hm =>
          split at hs
          · next hk =>
            cases hs
            exact .arrive hh.1 hh.2 hx hm hk.1 hk.2
          · cases hs
        · cases hs
      · cases hs
    · cases hs
  | kernel e =>
    simp only [Board.step] at hs
    split at hs
    · next hu =>
      obtain ⟨σ, hσ, rfl⟩ := Option.map_eq_some_iff.1 hs
      exact .kernel hu hσ
    · cases hs

/-- Hart `h` takes a step by itself. -/
theorem Alone.turn {e : Event} {e' : MachineMode.Event} (hJ : Alone cfg timer_scratch h tr b)
    (ht : machineTurn h (b, e) = some (b.machine h, e')) (hu : b.up h = false)
    (hx : MachineMode.step (b.machine h) e' = some x) (hm : b'.machine h = x)
    (hk : b'.up h = atKernel x) : Alone cfg timer_scratch h ((b, e) :: tr) b' := by
  refine ⟨?_, ?_, ?_⟩
  · rw [List.filterMap_cons, ht, hm]
    exact hJ.run.step hx
  · rw [List.filterMap_cons, ht]
    exact List.forall_mem_cons.2 ⟨hJ.up.symm.trans hu, hJ.before⟩
  · rw [hm]
    exact hk

theorem Alone.other {e : Event} (hJ : Alone cfg timer_scratch h tr b)
    (ht : machineTurn h (b, e) = none) (hm : b'.machine h = b.machine h) (hu : b'.up h = b.up h) :
    Alone cfg timer_scratch h ((b, e) :: tr) b' := by
  refine ⟨?_, ?_, ?_⟩
  · rw [List.filterMap_cons, ht, hm]
    exact hJ.run
  · rw [List.filterMap_cons, ht]
    exact hJ.before
  · rw [hu, hm]
    exact hJ.up

theorem Alone.step {e : Event} (hJ : Alone cfg timer_scratch h tr b) (hs : b.Step cfg e b') :
    Alone cfg timer_scratch h ((b, e) :: tr) b' := by
  cases hs with
  | @machine g e x hg hu hx hk =>
    by_cases hgh : g = h
    · subst hgh
      exact hJ.turn (if_pos rfl) hu hx (Function.update_self ..) (hu.trans hk.symm)
    · exact hJ.other (if_neg hgh) (Function.update_of_ne (Ne.symm hgh) ..) rfl
  | @arrive g r pc x m hg hu hx hm hk hc =>
    by_cases hgh : g = h
    · subst hgh
      exact hJ.turn (if_pos rfl) hu hx (Function.update_self ..)
        ((Function.update_self ..).trans hk.symm)
    · exact hJ.other (if_neg hgh) (Function.update_of_ne (Ne.symm hgh) ..)
        (Function.update_of_ne (Ne.symm hgh) ..)
  | kernel => exact hJ.other rfl rfl rfl

theorem alone (hr : Run (board cfg timer_scratch) tr b) (hh : h < cfg.harts) :
    Alone cfg timer_scratch h tr b := by
  induction hr with
  | @init b hb =>
    refine ⟨.init (hb.harts h hh), fun y hy => (by cases hy), ?_⟩
    rw [hb.up h]
    unfold atKernel
    rw [(hb.harts h hh).pc]
  | step _ hs ih => exact ih.step (Board.step_cases hs)

/-- A hart that comes up is as `start` hands it over. -/
theorem Alone.arrived (hh : h < MAX_CPU_NUMS) (hJ : Alone cfg timer_scratch h tr b)
    (hx : b.machine h = x) (hk : atKernel x = true) :
    ∃ x₀ t, Reset cfg.layout timer_scratch h x₀ ∧
      ¬ MachineMode.Interrupted (tr.filterMap (machineTurn h)) ∧
      MachineMode.readClock (tr.filterMap (machineTurn h)) = some t ∧
      MachineMode.Arrived timer_scratch h x₀ t x := by
  subst hx
  obtain ⟨x₀, h0, hR⟩ := MachineMode.rising hh hJ.run hJ.before
  cases hR with
  | leads _ _ hpc =>
    unfold atKernel at hk
    rw [hpc] at hk
    cases hk
  | arrived hn _ ht ha => exact ⟨x₀, _, h0, hn, ht, ha⟩
  | lost _ hx =>
    rw [hx.not_kernel] at hk
    cases hk

/-! ## The kernel's run -/

theorem step_other {L : Layout} {n : ℕ} {σ σ' : State} {e : Kernel.Event}
    (hs : σ.step L n e = some σ') (hne : h ≠ hartOf e) : σ'.harts h = σ.harts h := by
  cases e with
  | hart g fail =>
    simp only [State.step] at hs
    split_ifs at hs
    · cases hs
      exact Function.update_of_ne hne ..
    · split at hs
      · exact Proof.exec_other hne hs
      · cases hs
  | compute g r pc =>
    simp only [State.step] at hs
    split_ifs at hs
    cases hs
    exact Function.update_of_ne hne ..
  | timer g =>
    simp only [State.step] at hs
    split_ifs at hs
    cases hs
    exact Function.update_of_ne hne ..

/-- The kernel's run: the harts that are not up yet are those of `f`, which boot. -/
structure InKernel (cfg : Config) (tr : History Board Event) (b : Board)
    (ktr : History State Kernel.Event) (f : ℕ → Kernel.Hart) : Prop where
  run : Run (kernel cfg) ktr (b.kernel.overlay b.up f)
  booting : ∀ h < cfg.harts, b.up h = false → (f h).Booting cfg h
  stvec : ∀ h < cfg.harts, b.up h = false → (b.kernel.harts h).stvec = false
  up : ∀ y ∈ ktr, b.up (hartOf y.2) = true
  events : ktr.map Prod.snd = tr.filterMap kernelEvent

theorem InKernel.init (hL : cfg.layout.Apart) (hb : b.Reset cfg timer_scratch) :
    InKernel cfg [] b [] (Hart.start cfg) := by
  have hstart : (State.start cfg).Booting cfg := State.start_booting cfg hL
  have hover : b.kernel.overlay b.up (Hart.start cfg) =
      { b.kernel with harts := Hart.start cfg } := by
    unfold State.overlay
    congr 1
    funext h
    rw [hb.up h]
    rfl
  refine ⟨.init ?_, fun h hh _ => hstart.harts h hh, fun h hh _ => hb.stvec h hh,
    fun y hy => (by cases hy), rfl⟩
  rw [hover]
  exact ⟨hstart.harts, hb.mem, hb.resv, hb.objResv, hb.parked⟩

/-- A hart that is not up may be any that boots. -/
theorem InKernel.expect {ktr : History State Kernel.Event} {f : ℕ → Kernel.Hart} {y : Kernel.Hart}
    (hJ : InKernel cfg tr b ktr f) (hy : y.Booting cfg h) :
    ∃ ktr', InKernel cfg tr b ktr' (Function.update f h y) := by
  have hboot : ∀ g < cfg.harts, b.up g = false → (Function.update f h y g).Booting cfg g := by
    intro g hg hu
    by_cases hgh : g = h
    · subst hgh
      rwa [Function.update_self]
    · rw [Function.update_of_ne hgh]
      exact hJ.booting g hg hu
  have hrun := hJ.run.put (kernel_ignores cfg b.up (Function.update f h y))
    (fun _ => overlay_booting hboot) hJ.up
  rw [overlay_overlay] at hrun
  refine ⟨_, hrun, hboot, hJ.stvec, fun z hz => ?_, ?_⟩
  · obtain ⟨w, hw, rfl⟩ := List.mem_map.1 hz
    exact hJ.up w hw
  · rw [List.map_map]
    exact hJ.events

theorem InKernel.step {e : Event} {ktr : History State Kernel.Event} {f : ℕ → Kernel.Hart}
    (hL : cfg.layout.Apart) (hr : Run (board cfg timer_scratch) tr b) (hJ : InKernel cfg tr b ktr f)
    (hs : b.Step cfg e b') : ∃ ktr' f', InKernel cfg ((b, e) :: tr) b' ktr' f' := by
  have hs' := hs
  cases hs with
  | machine => exact ⟨ktr, f, hJ.run, hJ.booting, hJ.stvec, hJ.up, hJ.events⟩
  | @kernel e σ hu hσ =>
    refine ⟨(b.kernel.overlay b.up f, e) :: ktr, f, hJ.run.step ?_, hJ.booting, fun h hh hd => ?_,
      List.forall_mem_cons.2 ⟨hu, hJ.up⟩, ?_⟩
    · exact (kernel_ignores cfg b.up f).step hu hσ
    · have hne : h ≠ hartOf e := by
        rintro rfl
        rw [hu] at hd
        cases hd
      show (σ.harts h).stvec = false
      rw [step_other hσ hne]
      exact hJ.stvec h hh hd
    · show e :: ktr.map Prod.snd = _
      rw [hJ.events]
      rfl
  | @arrive h r pc x m hh hd hx hm hk hc =>
    have hy : (handOver cfg x m r pc (b.kernel.harts h)).Booting cfg h := by
      obtain ⟨x₀, t, h0, _, _, ha⟩ := ((alone hr hh).step hs').arrived
        (Nat.lt_of_lt_of_le hh cfg.harts_le) (Function.update_self ..) hk
      obtain rfl : m = .supervisor := by
        rw [ha.mode] at hm
        exact (Option.some.inj hm).symm
      exact handOver_booting hL hh h0 ha hc pc (hJ.stvec h hh hd)
    obtain ⟨ktr', hJ'⟩ := hJ.expect hy
    have hother : ∀ {g}, Function.update b.up h true g = false → g ≠ h ∧ b.up g = false := by
      intro g hu
      have hgh : g ≠ h := by
        rintro rfl
        rw [Function.update_self] at hu
        cases hu
      rw [Function.update_of_ne hgh] at hu
      exact ⟨hgh, hu⟩
    refine ⟨ktr', _, ?_, fun g hg hu => hJ'.booting g hg (hother hu).2, fun g hg hu => ?_,
      fun z hz => ?_, hJ'.events⟩
    · rw [overlay_up hd (Function.update_self ..)]
      exact hJ'.run
    · show (Function.update b.kernel.harts h _ g).stvec = false
      rw [Function.update_of_ne (hother hu).1]
      exact hJ'.stvec g hg (hother hu).2
    · by_contra hu
      have hz' := (hother (Bool.eq_false_iff.2 hu)).2
      rw [hJ'.up z hz] at hz'
      cases hz'

theorem inKernel (hL : cfg.layout.Apart) (hr : Run (board cfg timer_scratch) tr b) :
    ∃ ktr f, InKernel cfg tr b ktr f := by
  induction hr with
  | init hb => exact ⟨_, _, InKernel.init hL hb⟩
  | step hr hs ih =>
    obtain ⟨ktr, f, hJ⟩ := ih
    exact hJ.step hL hr (Board.step_cases hs)

/-! ## The timers -/

/-- The timer of hart `h`, set at `t`, has fired `n` times. -/
structure Armed (timer_scratch : U64) (h : ℕ) (t : U64) (n : ℕ) (T : Timer) : Prop where
  mscratch : T.mscratch = timer_scratch + 40 * BitVec.ofNat 64 h
  mtimecmp_addr : T.scratch 3 = MachineMode.CLINT_MTIMECMP (BitVec.ofNat 64 h)
  interval : T.scratch 4 = 10000
  mtimecmp : T.mtimecmp = t + 10000 * BitVec.ofNat 64 (n + 1)

/-- `timer_vec` puts the next interrupt one interval later. -/
theorem Armed.timer_vec {n : ℕ} {T : Timer} (hT : Armed timer_scratch h t n T) (r : Regs) :
    Armed timer_scratch h t (n + 1) (Kernel.timer_vec T r).1 := by
  refine ⟨hT.mscratch, hT.mtimecmp_addr, hT.interval, ?_⟩
  have hnext : (Kernel.timer_vec T r).1.mtimecmp = T.mtimecmp + T.scratch 4 := rfl
  have hn : BitVec.ofNat 64 (n + 1 + 1) = BitVec.ofNat 64 (n + 1) + 1#64 := BitVec.ofNat_add ..
  rw [hnext, hT.mtimecmp, hT.interval, hn, BitVec.mul_add, BitVec.mul_one, BitVec.add_assoc]

theorem timer_setHart (σ : State) (h : ℕ) (y : Kernel.Hart) :
    ((σ.setHart h y).harts h).timer = y.timer :=
  congrArg Hart.timer (Function.update_self (f := σ.harts) ..)

theorem timer_ret (L : Layout) (parked : U64 → Option Parked) (y : Kernel.Hart) :
    (y.afterRet L parked).timer = y.timer := by
  unfold Hart.afterRet
  split
  · rfl
  · split
    · split <;> rfl
    · rfl

/-- The kernel does not touch the machine timer. -/
theorem exec_timer {L : Layout} {σ σ' : State} {fail : Bool} {o : Op} {k : o.Ret → Code}
    (hx : σ.exec L h fail o k = some σ') : (σ'.harts h).timer = (σ.harts h).timer := by
  have hgoto : ∀ (τ : State) c, τ.harts = σ.harts →
      ((τ.goto h c).harts h).timer = (σ.harts h).timer := by
    intro τ c hτ
    rw [← hτ]
    exact timer_setHart ..
  have hset : ∀ y : Hart, y.timer = (σ.harts h).timer →
      ((σ.setHart h y).harts h).timer = (σ.harts h).timer := by
    intro y hy
    exact (timer_setHart ..).trans hy
  cases o with
  | store l x =>
    cases hx
    exact hgoto _ _ (Proof.write_harts ..)
  | amoswap c x =>
    cases hx
    exact hgoto _ _ (Proof.write_harts ..)
  | sd r off =>
    cases hx
    exact hgoto _ _ (Proof.write_harts ..)
  | atomic i =>
    cases hx
    exact hgoto _ _ (Proof.atomic_frame σ h fail i).1
  | sc c x =>
    simp only [State.exec] at hx
    split at hx
    · cases hx
      exact hgoto _ _ (Proof.write_harts ..)
    · cases hx
      exact hgoto _ _ rfl
  | ret old new =>
    cases hx
    exact hset _ (timer_ret ..)
  | panic p => cases hx
  | crash => cases hx
  | _ =>
    cases hx
    exact hset _ rfl

theorem step_timer {L : Layout} {n : ℕ} {σ σ' : State} {e : Kernel.Event}
    (hs : σ.step L n e = some σ') (he : ∀ g, e = .timer g → g ≠ h) :
    (σ'.harts h).timer = (σ.harts h).timer := by
  by_cases hne : h = hartOf e
  · cases e with
    | timer g => exact absurd hne.symm (he g rfl)
    | compute g r pc =>
      subst hne
      simp only [State.step] at hs
      split_ifs at hs
      cases hs
      exact timer_setHart ..
    | hart g fail =>
      subst hne
      simp only [State.step] at hs
      split_ifs at hs
      · cases hs
        exact timer_setHart ..
      · split at hs
        · exact exec_timer hs
        · cases hs
  · rw [step_other hs hne]

theorem countP_other {e : Event} (he : timerFired h (b, e) = false) :
    ((b, e) :: tr).countP (timerFired h) = tr.countP (timerFired h) :=
  List.countP_cons_of_neg (by simp [he])

/-- The machine timer of hart `h` since reset. -/
structure Timed (timer_scratch : U64) (h : ℕ) (tr : History Board Event) (b : Board) : Prop where
  down : b.up h = false → tr.countP (timerFired h) = 0
  up : b.up h = true → ∃ t, MachineMode.readClock (tr.filterMap (machineTurn h)) = some t ∧
    Armed timer_scratch h t (tr.countP (timerFired h)) (b.kernel.harts h).timer

/-- The event is about another hart. -/
theorem Timed.other {e : Event} (hJ : Timed timer_scratch h tr b)
    (ht : machineTurn h (b, e) = none) (hf : timerFired h (b, e) = false) (hu : b'.up h = b.up h)
    (hT : (b'.kernel.harts h).timer = (b.kernel.harts h).timer) :
    Timed timer_scratch h ((b, e) :: tr) b' := by
  refine ⟨fun hd => ?_, fun hup => ?_⟩
  · rw [countP_other hf]
    exact hJ.down (hu.symm.trans hd)
  · rw [countP_other hf, List.filterMap_cons, ht, hT]
    exact hJ.up (hu.symm.trans hup)

/-- The timer of the hart as `start` sets it. -/
theorem armed_start (ha : MachineMode.Arrived timer_scratch h x₀ t x) :
    Armed timer_scratch h t 0 x.timer := by
  refine ⟨ha.words.mscratch, ha.words.mtimecmp_addr, ha.words.interval, ?_⟩
  exact ha.words.mtimecmp

theorem Timed.step {e : Event} (hr : Run (board cfg timer_scratch) tr b) (hh : h < cfg.harts)
    (hJ : Timed timer_scratch h tr b) (hs : b.Step cfg e b') :
    Timed timer_scratch h ((b, e) :: tr) b' := by
  have hs' := hs
  cases hs with
  | @machine g e x hg hd hx hk =>
    by_cases hgh : g = h
    · subst hgh
      refine ⟨fun _ => hJ.down hd, fun hu => ?_⟩
      rw [show b.up g = true from hu] at hd
      cases hd
    · exact hJ.other (if_neg hgh) rfl rfl rfl
  | @arrive g r pc x m hg hd hx hm hk hc =>
    by_cases hgh : g = h
    · subst hgh
      refine ⟨fun hd' => ?_, fun _ => ?_⟩
      · have hup : Function.update b.up g true g = true := Function.update_self ..
        cases hup.symm.trans hd'
      · obtain ⟨x₀, t, _, _, ht, ha⟩ := ((alone hr hg).step hs').arrived
          (Nat.lt_of_lt_of_le hg cfg.harts_le) (Function.update_self ..) hk
        refine ⟨t, ht, ?_⟩
        rw [countP_other rfl, hJ.down hd]
        exact (timer_setHart b.kernel g _).symm ▸ armed_start ha
    · have hne : h ≠ g := Ne.symm hgh
      exact hJ.other (if_neg hgh) rfl (Function.update_of_ne hne ..)
        (congrArg Hart.timer (Function.update_of_ne (f := b.kernel.harts) hne ..))
  | @kernel e σ hu hσ =>
    by_cases he : e = .timer h
    · subst he
      have hcount : ((b, Event.kernel (.timer h)) :: tr).countP (timerFired h) =
          tr.countP (timerFired h) + 1 := List.countP_cons_of_pos (by simp [timerFired])
      refine ⟨fun hd => (by cases hu.symm.trans hd), fun _ => ?_⟩
      obtain ⟨t, ht, hA⟩ := hJ.up hu
      refine ⟨t, ht, ?_⟩
      rw [hcount]
      simp only [State.step, if_pos hh] at hσ
      cases hσ
      exact (timer_setHart b.kernel h _).symm ▸ hA.timer_vec _
    · have hne : ∀ g, e = .timer g → g ≠ h := by
        rintro g rfl rfl
        exact he rfl
      refine hJ.other rfl ?_ rfl (step_timer hσ hne)
      cases e with
      | timer g => exact beq_false_of_ne (hne g rfl)
      | _ => rfl

theorem timed (hr : Run (board cfg timer_scratch) tr b) (hh : h < cfg.harts) :
    Timed timer_scratch h tr b := by
  induction hr with
  | @init b hb =>
    refine ⟨fun _ => rfl, fun hu => ?_⟩
    rw [hb.up h] at hu
    cases hu
  | step hr hs ih => exact ih.step hr hh (Board.step_cases hs)

/-! ## Coming up -/

/-- Hart `h` goes on by itself. -/
def OnlyMachine (h : ℕ) : Event → Prop
  | .machine g e => g = h ∧ e = .instr
  | .arrive g _ _ => g = h
  | .kernel _ => False

theorem step_machine {o : MachineMode.Op} {k : o.Ret → MachineMode.Code} (hm : x.mode = .machine)
    (hpc : x.pc = .code (.op o k)) : MachineMode.step x .instr = some (x.exec o k) := by
  unfold MachineMode.step
  rw [hpc]
  exact if_neg (by simp [hm])

/-- The registers may stay as they are. -/
theorem computeOk_arrived {L : Layout} (hL : L.Apart) (hh : h < MAX_CPU_NUMS)
    (h0 : Reset L timer_scratch h x₀) (ha : MachineMode.Arrived timer_scratch h x₀ t x) :
    L.ComputeOk x.regs x.regs := by
  refine ⟨rfl, rfl, ?_⟩
  rw [arrived_sp hh h0 ha]
  intro j hj
  refine (stackOf_startSp hL hh ?_).trans (stackOf_entry hL hh).symm
  have := List.mem_range.1 hj
  omega

theorem exec_goes {o : MachineMode.Op} (k : o.Ret → MachineMode.Code) (ho : ∀ s, o ≠ .mret s) :
    ∃ r, (x.exec o k).pc = .code (k r) := by
  cases o with
  | mret s => exact absurd rfl (ho s)
  | _ => exact ⟨_, rfl⟩

theorem board_machine (hh : h < cfg.harts) (hd : b.up h = false) {e : MachineMode.Event}
    (hx : MachineMode.step (b.machine h) e = some x) (hk : atKernel x = false) :
    (board cfg timer_scratch).step b (.machine h e) =
      some { b with machine := Function.update b.machine h x } := by
  show Board.step cfg b (.machine h e) = _
  simp only [Board.step, hx, hk, if_pos (And.intro hh hd)]
  rfl

theorem board_arrive (hh : h < cfg.harts) (hd : b.up h = false) {m : Mode} {r : Regs} (pc : U64)
    (hx : MachineMode.step (b.machine h) .instr = some x) (hm : mode x.mode = some m)
    (hk : atKernel x = true) (hc : cfg.layout.ComputeOk x.regs r) :
    ∃ b', (board cfg timer_scratch).step b (.arrive h r pc) = some b' ∧ b'.up h = true := by
  show ∃ b', Board.step cfg b (.arrive h r pc) = some b' ∧ _
  simp only [Board.step, hx, hm, if_pos (And.intro hh hd), if_pos (And.intro hk hc)]
  exact ⟨_, rfl, Function.update_self ..⟩

/-- A hart in `start`, not interrupted so far. -/
theorem alone_leads {c : MachineMode.Code} (hh : h < MAX_CPU_NUMS)
    (hA : Alone cfg timer_scratch h tr b)
    (hn : ¬ MachineMode.Interrupted (tr.filterMap (machineTurn h)))
    (hpc : (b.machine h).pc = .code c) : ∃ x₀, Reset cfg.layout timer_scratch h x₀ ∧
      MachineMode.Rising timer_scratch h x₀ (tr.filterMap (machineTurn h)) (b.machine h) ∧
      (b.machine h).mode = .machine ∧ MachineMode.Leads timer_scratch h x₀.word c
        (b.machine h).word (MachineMode.readClock (tr.filterMap (machineTurn h))) := by
  obtain ⟨x₀, h0, hR⟩ := MachineMode.rising hh hA.run hA.before
  refine ⟨x₀, h0, hR, ?_⟩
  cases hR with
  | leads _ hm hpc' _ _ hl =>
    cases hpc.symm.trans hpc'
    exact ⟨hm, hl⟩
  | arrived _ hpc' => cases hpc.symm.trans hpc'
  | lost hi => exact absurd hi hn

/-- A hart that was not interrupted can come up by itself. -/
theorem can_come_up (hL : cfg.layout.Apart) (hh : h < cfg.harts) : ∀ {c : MachineMode.Code}
    {tr : History Board Event} {b : Board}, Run (board cfg timer_scratch) tr b → b.up h = false →
    ¬ MachineMode.Interrupted (tr.filterMap (machineTurn h)) → (b.machine h).pc = .code c →
    ∃ b', Relation.ReflTransGen ((board cfg timer_scratch).Moves (OnlyMachine h)) b b' ∧
      b'.up h = true := by
  have hmax : h < MAX_CPU_NUMS := Nat.lt_of_lt_of_le hh cfg.harts_le
  intro c
  induction c with
  | pure a =>
    intro tr b hr hd hn hpc
    obtain ⟨_, _, _, _, hl⟩ := alone_leads hmax (alone hr hh) hn hpc
    exact hl.elim
  | op o k ih =>
    intro tr b hr hd hn hpc
    have hA := alone hr hh
    obtain ⟨x₀, h0, hR, hm, hl⟩ := alone_leads hmax hA hn hpc
    have hx := step_machine hm hpc
    have hreached := MachineMode.reached (MachineMode.machine_run hA.run)
    have hn' : ¬ MachineMode.Interrupted
        ((b.machine h, .instr) :: tr.filterMap (machineTurn h)) :=
      mt (MachineMode.interrupted_cons (by simp)).1 hn
    by_cases ho : ∃ s, o = .mret s
    · obtain ⟨s, rfl⟩ := ho
      obtain rfl := hl.1
      have hpc' : (b.machine h).mret.pc = .kernel_main := (hreached.hand_over hn hm hpc).2
      have ha := hR.step hreached (hA.up.symm.trans hd) hx
      cases ha with
      | leads _ _ hpc'' => cases hpc'.symm.trans hpc''
      | lost hi => exact absurd hi hn'
      | arrived _ _ _ ha =>
        have hmode : mode (b.machine h).mret.mode = some .supervisor := congrArg mode ha.mode
        obtain ⟨b', hs, hu⟩ : ∃ b', (board cfg timer_scratch).step b
            (.arrive h (b.machine h).mret.regs 0) = some b' ∧ b'.up h = true :=
          board_arrive hh hd 0 hx hmode (MachineMode.atKernel_eq hpc')
            (computeOk_arrived hL hmax h0 ha)
        have hme : OnlyMachine h (.arrive h (b.machine h).mret.regs 0) := rfl
        exact ⟨b', .single ⟨_, hme, hs⟩, hu⟩
    · obtain ⟨r, hpc'⟩ := exec_goes (x := b.machine h) k fun s hs => ho ⟨s, hs⟩
      have hk : atKernel ((b.machine h).exec o k) = false := by
        unfold atKernel
        rw [hpc']
      have hs : (board cfg timer_scratch).step b (.machine h .instr) = some { b with
          machine := Function.update b.machine h ((b.machine h).exec o k) } :=
        board_machine hh hd hx hk
      have hme : OnlyMachine h (.machine h .instr) := ⟨rfl, rfl⟩
      have hturn : machineTurn h (b, .machine h .instr) = some (b.machine h, .instr) := if_pos rfl
      obtain ⟨b', hb, hu⟩ := ih r (hr.step hs) hd
        (by rw [List.filterMap_cons, hturn]; exact hn')
        ((congrArg MachineMode.Hart.pc (Function.update_self ..)).trans hpc')
      exact ⟨b', .head ⟨_, hme, hs⟩ hb, hu⟩

end GQuuuuuunix.PowerOn

namespace GQuuuuuunix.Properties
open Lib Kernel PowerOn
set_option autoImplicit false

variable {cfg : Config} {timer_scratch : U64} {h : ℕ} {tr : History Board PowerOn.Event} {b : Board}

/-- From reset, whatever the timers do, the harts that have come up are in a run of the kernel. -/
theorem power_on (hL : cfg.layout.Apart) (hr : Run (board cfg timer_scratch) tr b) :
    ∃ ktr σ, Run (kernel cfg) ktr σ ∧ b.Agrees cfg σ ∧
      ktr.map Prod.snd = tr.filterMap kernelEvent := by
  obtain ⟨ktr, f, hJ⟩ := inKernel hL hr
  refine ⟨ktr, _, hJ.run, ⟨fun h hu => overlay_hart hu, fun h hh hd => ?_, rfl, rfl, rfl, rfl, rfl⟩,
    hJ.events⟩
  rw [show (b.kernel.overlay b.up f).harts h = f h from if_neg (by simp [hd])]
  exact hJ.booting h hh hd

theorem not_interrupted {tr : History MachineMode.Hart MachineMode.Event} :
    ¬ MachineMode.Interrupted tr ↔ ∀ y ∈ tr, y.2 ≠ .interrupt :=
  ⟨fun h y hy he => h ⟨y, hy, he⟩, fun h ⟨y, hy, he⟩ => h y hy he⟩

/-- A hart that is up was not interrupted before. The software interrupt is the supervisor's, and
the machine timer is on, at the clock that `init_timer` read and one interval, and one interval more
for each time it fired. -/
theorem comes_up (hr : Run (board cfg timer_scratch) tr b) (hh : h < cfg.harts)
    (hu : b.up h = true) :
    (∀ y ∈ tr.filterMap (machineTurn h), y.2 ≠ .interrupt) ∧
      ((b.machine h).csr .mideleg).getLsbD 1 = true ∧ ((b.machine h).csr .sie).getLsbD 1 = true ∧
      ((b.machine h).csr .mie).getLsbD 7 = true ∧
      ∃ t, MachineMode.readClock (tr.filterMap (machineTurn h)) = some t ∧
        Armed timer_scratch h t (tr.countP (timerFired h)) (b.kernel.harts h).timer := by
  obtain ⟨x₀, t, _, hn, _, ha⟩ := (alone hr hh).arrived (Nat.lt_of_lt_of_le hh cfg.harts_le) rfl
    ((alone hr hh).up.symm.trans hu)
  have hdeleg : (b.machine h).csr .mideleg = 0xffff := ha.words.mideleg
  have hsie : (b.machine h).csr .sie = _ := ha.words.csr_sie
  have hmie : (b.machine h).csr .mie = _ := ha.words.csr_mie
  refine ⟨not_interrupted.1 hn, ?_, ?_, ?_, (timed hr hh).up hu⟩
  · rw [hdeleg]
    decide
  · rw [hsie]
    simp [MachineMode.SIE_SSIE]
  · rw [hmie]
    simp [MachineMode.MIE_MTIE]

/-- A hart can come up if and only if the machine timer has not interrupted it in machine mode; and
then it can by its own instructions alone. -/
theorem can_come_up_iff (hL : cfg.layout.Apart) (hr : Run (board cfg timer_scratch) tr b)
    (hh : h < cfg.harts) :
    ((∃ post b', Run (board cfg timer_scratch) (post ++ tr) b' ∧ b'.up h = true) ↔
      ∀ y ∈ tr.filterMap (machineTurn h), y.2 ≠ .interrupt) ∧
    ((∀ y ∈ tr.filterMap (machineTurn h), y.2 ≠ .interrupt) →
      ∃ post b', Run (board cfg timer_scratch) (post ++ tr) b' ∧
        (∀ y ∈ post, OnlyMachine h y.2) ∧ b'.up h = true) := by
  have halone : (∀ y ∈ tr.filterMap (machineTurn h), y.2 ≠ .interrupt) →
      ∃ post b', Run (board cfg timer_scratch) (post ++ tr) b' ∧
        (∀ y ∈ post, OnlyMachine h y.2) ∧ b'.up h = true := by
    intro hn
    by_cases hu : b.up h = true
    · exact ⟨[], b, hr, fun y hy => (by cases hy), hu⟩
    have hA := alone hr hh
    obtain ⟨x₀, h0, hR⟩ := MachineMode.rising (Nat.lt_of_lt_of_le hh cfg.harts_le) hA.run hA.before
    have hd : b.up h = false := Bool.eq_false_iff.2 hu
    cases hR with
    | leads hn' _ hpc =>
      obtain ⟨b', hb, hu'⟩ := can_come_up hL hh hr hd hn' hpc
      obtain ⟨post, hr', hpost⟩ := hr.extend hb
      exact ⟨post, b', hr', hpost, hu'⟩
    | arrived _ hpc => exact absurd (hA.up.trans (MachineMode.atKernel_eq hpc)) hu
    | lost hi => exact absurd hi (not_interrupted.2 hn)
  refine ⟨⟨?_, fun hn => ?_⟩, halone⟩
  · rintro ⟨post, b', hr', hu⟩ y hy
    refine (comes_up hr' hh hu).1 y ?_
    rw [List.filterMap_append]
    exact List.mem_append_right _ hy
  · obtain ⟨post, b', hr', _, hu⟩ := halone hn
    exact ⟨post, b', hr', hu⟩

/-! ## A hart that comes up and a hart that is lost -/

/-- Hart 0 comes up and its timer fires once; the timer of hart 1 fires inside `start`. -/
def oneLost : List PowerOn.Event :=
  List.replicate 23 (.machine 0 .instr) ++
    [.arrive 0 (_entry Layout.sample.kstack 0 0 fun _ => 0) 0, .kernel (.timer 0),
      .kernel (.hart 0 false), .kernel (.hart 0 false)] ++
    List.replicate 21 (.machine 1 .instr) ++ [.machine 1 (.time 10000), .machine 1 .interrupt]

theorem one_lost : ∃ tr b, Run (board (.sample 2 (by decide) (by decide)) 0) tr b ∧
    b.up 0 = true ∧ tr.countP (timerFired 0) = 1 ∧
      ∃ y ∈ tr.filterMap (machineTurn 1), y.2 = .interrupt := by
  obtain ⟨tr, b, hr, hp⟩ := Run.of_perform (M := board (.sample 2 (by decide) (by decide)) 0)
    (Board.atReset_reset _ _) oneLost (P := fun y => y.2.up 0 && (y.1.countP (timerFired 0) == 1 &&
      (y.1.filterMap (machineTurn 1)).any fun y => decide (y.2 = .interrupt))) (by decide +kernel)
  obtain ⟨hu, hp⟩ := (Bool.and_eq_true _ _).mp hp
  obtain ⟨hn, hp⟩ := (Bool.and_eq_true _ _).mp hp
  obtain ⟨y, hy, he⟩ := List.any_eq_true.1 hp
  exact ⟨tr, b, hr, hu, beq_iff_eq.1 hn, y, hy, of_decide_eq_true he⟩

theorem power_on_one : ∃ (tr : History Board PowerOn.Event) (b : Board),
    Run (board (.sample 2 (by decide) (by decide)) 0) tr b ∧ b.up 0 = true ∧
    ∃ ktr σ, Run (kernel (.sample 2 (by decide) (by decide))) ktr σ ∧
      b.Agrees (.sample 2 (by decide) (by decide)) σ ∧
      ktr.map Prod.snd = tr.filterMap kernelEvent := by
  obtain ⟨tr, b, hr, hu, _⟩ := one_lost
  exact ⟨tr, b, hr, hu, power_on Layout.sample_apart hr⟩

theorem comes_up_fired : ∃ (tr : History Board PowerOn.Event) (b : Board) (t : U64),
    Run (board (.sample 2 (by decide) (by decide)) 0) tr b ∧ b.up 0 = true ∧
      MachineMode.readClock (tr.filterMap (machineTurn 0)) = some t ∧
      (b.kernel.harts 0).timer.mtimecmp = t + 20000 := by
  obtain ⟨tr, b, hr, hu, hn, _⟩ := one_lost
  obtain ⟨_, _, _, _, t, ht, hA⟩ := comes_up hr (show 0 < 2 by decide) hu
  refine ⟨tr, b, t, hr, hu, ht, ?_⟩
  rw [hA.mtimecmp, hn]
  rfl

/-- Hart 1 can come up by itself from reset, and can no more when it was interrupted. -/
theorem can_come_up_lost : ∃ (post tr : History Board PowerOn.Event) (b b' : Board),
    Run (board (.sample 2 (by decide) (by decide)) 0) post b' ∧
      (∀ y ∈ post, OnlyMachine 1 y.2) ∧ b'.up 1 = true ∧
    Run (board (.sample 2 (by decide) (by decide)) 0) tr b ∧
      ¬ ∃ post b', Run (board (.sample 2 (by decide) (by decide)) 0) (post ++ tr) b' ∧
        b'.up 1 = true := by
  obtain ⟨tr, b, hr, _, _, y, hy, he⟩ := one_lost
  have hL : (Config.sample 2 (by decide) (by decide)).layout.Apart := Layout.sample_apart
  have hr₀ : Run (board (.sample 2 (by decide) (by decide)) 0) [] _ :=
    .init (Board.atReset_reset _ _)
  obtain ⟨post, b', hr', hpost, hu⟩ :=
    (can_come_up_iff hL hr₀ (show 1 < 2 by decide)).2 fun y hy => (by cases hy)
  rw [List.append_nil] at hr'
  obtain ⟨hiff, _⟩ := can_come_up_iff hL hr (show 1 < 2 by decide)
  exact ⟨post, tr, b, b', hr', hpost, hu, hr, fun hup => hiff.1 hup y hy he⟩

end GQuuuuuunix.Properties
