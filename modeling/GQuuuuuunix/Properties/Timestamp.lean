import GQuuuuuunix.Proof.Alone
import GQuuuuuunix.Proof.Clock
import GQuuuuuunix.Kernel.Start

/-! # A printed timestamp is one instant

The seconds and the fraction of a line come from two reads of the clock. A line is torn when an
update that carries into the seconds falls between them. -/

namespace GQuuuuuunix.Properties
open Lib Kernel Proof
set_option autoImplicit false

variable {cfg : Config} {σ σ' : State} {vs vs' : ℕ → View} {tr : Trace} {e : Event} {h : ℕ}
  {x : State × Event} {q : Reading} {d : U64}

/-! ## The history since the entry -/

theorem sinceEntry_entered (hx : entered h x = true) : sinceEntry h (x :: tr) = [] := by
  simp [sinceEntry, hx]

theorem sinceEntry_other (hx : entered h x = false) :
    sinceEntry h (x :: tr) = x :: sinceEntry h tr := by
  simp [sinceEntry, hx]

theorem readsTime_iff : readsTime h x = true ↔ performed x = some (h, .load .time_data) := by
  unfold readsTime
  split
  · next h' hp =>
    rw [hp]
    simp
  · next hne =>
    exact ⟨fun hf => (by cases hf), fun hp => absurd hp (hne h)⟩

theorem readsSince_other (hx : entered h x = false) (hr : readsTime h x = false) :
    readsSince h (x :: tr) = readsSince h tr := by
  rw [readsSince, sinceEntry_other hx, List.countP_cons, hr]
  rfl

/-- Hart `h` has read `d` since its entry. -/
def ReadSince (h : ℕ) (d : U64) (tr : Trace) : Prop :=
  ∃ x ∈ sinceEntry h tr, readsTime h x = true ∧ x.1.mem .time_data = d

theorem ReadSince.other (hd : ReadSince h d tr) (hx : entered h x = false) :
    ReadSince h d (x :: tr) := by
  obtain ⟨y, hy, hr, hm⟩ := hd
  refine ⟨y, ?_, hr, hm⟩
  rw [sinceEntry_other hx]
  exact List.mem_cons_of_mem x hy

theorem ReadSince.held (hd : ReadSince h d tr) : HeldWhileRead h d tr := by
  obtain ⟨x, hx, hr, hm⟩ := hd
  obtain ⟨post, pre, hs⟩ := List.append_of_mem hx
  exact ⟨post, x, pre, hs, hm, ⟨x, List.mem_cons_self, hr⟩, x, List.mem_cons_self, hr⟩

/-! ## The reads in a run -/

/-- What the history says of a hart that is at `q`. -/
def Seen (h : ℕ) (tr : Trace) (σ : State) : Reading → Prop
  | .out => True
  | .ready => h ≠ 0 → readsSince h tr = 0
  | .first d => (h ≠ 0 → readsSince h tr = 1) ∧ ReadSince h d tr ∧
    (σ.mem .time_data : U64) >>> 32 = d >>> 32
  | .second d d' => ReadSince h d tr ∧ d' >>> 32 = d >>> 32

structure HartReads (h : ℕ) (tr : Trace) (σ : State) (k : Ghost) (q : Reading) : Prop where
  code : ReadsFrom (σ.harts h).code q
  trap : q ≠ .out → k.trap ≠ .idle
  seen : Seen h tr σ q

/-- Outside the case nothing is known of the reads. -/
theorem HartReads.of_out {k : Ghost} (hc : ReadsFrom (σ.harts h).code .out) :
    HartReads h tr σ k .out := ⟨hc, fun hq => absurd rfl hq, trivial⟩

/-- An event that is no read and no entry of the hart; the clock may be updated. -/
theorem Seen.quiet (hq : Seen h tr σ q) (hx : entered h x = false) (hr : readsTime h x = false)
    (hsec : h = 0 ∨ readsSince h tr = 1 →
      (σ'.mem .time_data : U64) >>> 32 = (σ.mem .time_data : U64) >>> 32) :
    Seen h (x :: tr) σ' q := by
  have hcount : readsSince h (x :: tr) = readsSince h tr := readsSince_other hx hr
  cases q with
  | out => trivial
  | ready => exact fun h0 => hcount.trans (hq h0)
  | first d =>
    refine ⟨fun h0 => hcount.trans (hq.1 h0), hq.2.1.other hx, (hsec ?_).trans hq.2.2⟩
    by_cases h0 : h = 0
    · exact Or.inl h0
    · exact Or.inr (hq.1 h0)
  | second d d' => exact ⟨hq.1.other hx, hq.2⟩

theorem not_readsTime (hx : performed x ≠ some (h, .load .time_data)) : readsTime h x = false :=
  Bool.eq_false_iff.2 (mt readsTime_iff.1 hx)

/-- An operation of the hart itself. -/
theorem Seen.op {fail : Bool} {o : Op} {r : o.Ret} (hq : Seen h tr σ q) (hpre : q.Pre o)
    (hn : performed (σ, e) = some (h, o)) (ha : Answer σ h fail o r)
    (hmem : (∀ y, o ≠ .store .time_data y) → σ'.mem .time_data = σ.mem .time_data)
    (h0 : ∀ y, o = .store .time_data y → h = 0) : Seen h ((σ, e) :: tr) σ' (q.after o r) := by
  by_cases hp : o = .point .software_interrupt
  · subst hp
    intro _
    rw [readsSince, sinceEntry_entered (entered_iff.2 hn)]
    rfl
  have hx : entered h (σ, e) = false := not_entered (by rw [hn]; simpa using hp)
  by_cases hl : o = .load .time_data
  · subst hl
    have hr : r = σ.mem .time_data := ha
    have hmem := hmem (by simp)
    have hread : readsTime h (σ, e) = true := readsTime_iff.2 hn
    obtain rfl | ⟨d, rfl⟩ := hpre
    · refine ⟨fun hne => ?_, ⟨(σ, e), ?_, hread, hr.symm⟩, ?_⟩
      · rw [readsSince, sinceEntry_other hx, List.countP_cons, if_pos hread]
        exact congrArg (· + 1) (hq hne)
      · rw [sinceEntry_other hx]
        exact List.mem_cons_self
      · rw [hmem, hr]
    · refine ⟨hq.2.1.other hx, ?_⟩
      show r >>> 32 = d >>> 32
      rw [hr]
      exact hq.2.2
  have hr : readsTime h (σ, e) = false := not_readsTime (by rw [hn]; simpa using hl)
  by_cases ht : ∃ y, o = .store .time_data y
  · obtain ⟨y, rfl⟩ := ht
    have hzero := h0 y rfl
    cases q with
    | out => trivial
    | ready => exact fun hne => absurd hzero hne
    | first d => exact fun hne => absurd hzero hne
    | second d d' => obtain hi | ⟨_, hi⟩ := hpre <;> cases hi
  have ht' : ∀ y, o ≠ .store .time_data y := fun y hy => ht ⟨y, hy⟩
  rcases after_cases hp hl ht' r (q := q) with hk | hk <;> rw [hk]
  · exact hq.quiet hx hr fun _ => by rw [hmem ht']
  · trivial

/-! ## The condition -/

/-- While another hart has read the clock once since it entered the case, the clock is not brought
to another second. -/
def SecondsKept (tr : Trace) (σ : State) (e : Event) : Prop :=
  ∀ h, h ≠ 0 → readsSince h tr = 1 → ∀ g (d : U64),
    performed (σ, e) = some (g, .store .time_data d) → d >>> 32 = (σ.mem .time_data : U64) >>> 32

theorem Move.seconds_kept (hI : Inv cfg σ vs) (hm : Move cfg σ vs e σ' vs')
    (hC : SecondsKept tr σ e) (hno : ∀ o, performed (σ, e) ≠ some (h, o))
    (hcase : h = 0 ∨ readsSince h tr = 1) :
    (σ'.mem .time_data : U64) >>> 32 = (σ.mem .time_data : U64) >>> 32 := by
  obtain ⟨hmem, _⟩ | ⟨g, d, hh, hp, hpre, hmem⟩ := hm.stored (l := .time_data) rfl hI
  · rw [hmem]
  · have hg : g = 0 := by
      obtain ⟨hb, _⟩ | ⟨h0, _⟩ := hpre
      · exact hI.stage_cases hh hb
      · exact (hI.hart g hh).hart.symm.trans h0
    rw [hmem]
    by_cases h0 : h = 0
    · refine absurd hp ?_
      rw [hg, ← h0]
      exact hno _
    · exact hC h h0 (hcase.resolve_left h0) g d hp

/-! ## Every hart in a run -/

structure ClockReads (cfg : Config) (tr : Trace) (σ : State) (vs : ℕ → View) : Prop where
  hart : ∀ h < cfg.harts, ∃ q, HartReads h tr σ (vs h).k q
  parked : ∀ sp p, σ.parked sp = some p → ReadsFrom p.code .out

/-- One hart goes on, the others see at most the clock updated. -/
theorem ClockReads.goto (hR : ClockReads cfg tr σ vs) (hI : Inv cfg σ vs)
    (hm : Move cfg σ vs e σ' vs') (hC : SecondsKept tr σ e) {g : ℕ} {y : Hart}
    (hh : σ'.harts = Function.update σ.harts g y) (hk : ∀ h, h ≠ g → (vs' h).k.trap = (vs h).k.trap)
    (hno : ∀ h, h ≠ g → ∀ o, performed (σ, e) ≠ some (h, o))
    (hp : ∀ sp p, σ'.parked sp = some p → ReadsFrom p.code .out)
    (hg : g < cfg.harts → ∃ q, HartReads g ((σ, e) :: tr) σ' (vs' g).k q) :
    ClockReads cfg ((σ, e) :: tr) σ' vs' := by
  refine ⟨fun h hlt => ?_, hp⟩
  by_cases hne : h = g
  · subst hne
    exact hg hlt
  · obtain ⟨q, hcode, htrap, hseen⟩ := hR.hart h hlt
    refine ⟨q, ?_, ?_, ?_⟩
    · rw [hh, Function.update_of_ne hne]
      exact hcode
    · rw [hk h hne]
      exact htrap
    · exact hseen.quiet (not_entered (hno h hne _)) (not_readsTime (hno h hne _))
        (Move.seconds_kept hI hm hC (hno h hne))

/-- Where an operation leaves a reading, the trap is still handled. -/
theorem trap_of_reading {k : Ghost} {o : Op} {r : o.Ret} (hpre : q.Pre o)
    (ht : q ≠ .out → k.trap ≠ .idle) (hq : q.after o r ≠ .out) : (k.after o r).trap ≠ .idle := by
  rw [Ghost.after_trap]
  by_cases hp : o = .point .software_interrupt
  · subst hp
    show (if k.hart = 0 then TrapPhase.gticks_due else .counted) ≠ .idle
    split <;> simp
  have hne : q ≠ .out := by
    rintro rfl
    by_cases hl : o = .load .time_data
    · subst hl
      obtain h | ⟨_, h⟩ := hpre <;> cases h
    · by_cases hs : ∃ y, o = .store .time_data y
      · obtain ⟨y, rfl⟩ := hs
        exact hq rfl
      · rcases after_cases hp hl (fun y hy => hs ⟨y, hy⟩) r (q := .out) with h | h <;> exact hq h
  have hk := ht hne
  unfold Op.trap
  split
  · simp
  · split
    · exact hk
    · simp
  · simp
  · exact absurd rfl hp
  · exact absurd rfl hq
  · exact hk

/-- The hart itself performs an operation. -/
theorem HartReads.op {fail : Bool} {o : Op} {r : o.Ret} {f : o.Ret → Code} {w : View}
    (hq : HartReads h tr σ (vs h).k q) (hg : GRun cfg tr σ vs) (hI : Inv cfg σ vs)
    (hh : h < cfg.harts) (hi : (σ.harts h).interrupted = false)
    (hcode : (σ.harts h).code = .op o f) (hp : Pre cfg o (vs h))
    (hx : Performed σ h fail o r (f r) σ') (hk : w.k = (vs h).k.after o r) :
    ∃ q, HartReads h ((σ, .hart h fail) :: tr) σ' w.k q := by
  have hreads := hq.code
  rw [hcode] at hreads
  obtain ⟨hpre, hrest⟩ := hreads
  have hans : q.Ans o r := by
    by_cases hb : o = .load .time_mantissa_bit
    · subst hb
      intro hidle
      have ht := hq.trap (by rintro rfl; cases hidle)
      have hr : r = σ.mem .time_mantissa_bit := hx.answer
      rw [hr]
      exact mantissa_bit hg (hI.opened h hh (handling_opened hg hh ht))
    · cases o with
      | load l => cases l <;> first | exact trivial | exact absurd rfl hb
      | _ => exact trivial
  refine ⟨q.after o r, ?_, ?_, ?_⟩
  · rw [hx.harts, Function.update_self]
    exact hrest r hans
  · rw [hk]
    exact trap_of_reading hpre hq.trap
  · refine hq.seen.op hpre (performed_eq hi hcode) hx.answer (fun hne => ?_) ?_
    · exact hI.mem_of_ne hh hx fun y hy => hne y (writes_plain rfl hy)
    · rintro y rfl
      obtain ⟨hb, _⟩ | ⟨h0, _⟩ := hp
      · exact hI.stage_cases hh hb
      · exact (hI.hart h hh).hart.symm.trans h0

theorem clockReads (hg : GRun cfg tr σ vs) (hC : Along SecondsKept tr) :
    ClockReads cfg tr σ vs := by
  induction hg with
  | boot hb =>
    refine ⟨fun h hh => ⟨.out, .of_out ?_⟩, fun sp p hp => ?_⟩
    · rw [(hb.harts h hh).code]
      exact reads_plain (plain_kernel_main _ _)
    · rw [hb.parked] at hp
      cases hp
  | @step tr σ σ' vs vs' e hg hI hm hI' ih =>
    have hR := ih hC.2
    have hm' := hm
    have hstay : ∀ {g : ℕ} {w : View} (h : ℕ), h ≠ g →
        (Function.update vs g w h).k.trap = (vs h).k.trap := fun h hne => by
      rw [Function.update_of_ne hne]
    cases hm with
    | @trap g fail hh hi hsie =>
      refine hR.goto hI hm' hC.1 rfl hstay (fun h _ o => ?_) hR.parked fun _ => ?_
      · rw [performed_interrupted hi]
        simp
      · -- a hart that takes its interrupt is not handling one
        obtain ⟨q, hq⟩ := hR.hart g hh
        obtain rfl : q = .out :=
          by_contra fun hne => hq.trap hne ((hI.ok g hh).sie_ok hsie).trap
        refine ⟨.out, .of_out ?_⟩
        show ReadsFrom (Function.update σ.harts g _ g).code .out
        rw [Function.update_self]
        show ReadsFrom (if (σ.harts g).stvec then _ else crash) .out
        split
        · refine wp_seq (wp_mono reading_mono (fun _ q' hq' => ?_) (reads_kernelvec _))
          subst hq'
          exact hq.code
        · exact reads_calm_out (calm_one rfl) fun _ => trivial
    | @op g fail o f r w σ' hh hi hcode hs hp hx hgo =>
      refine hR.goto hI hm' hC.1 hx.harts hstay (fun h hne o' => ?_) ?_ fun _ => ?_
      · rw [performed_eq hi hcode]
        rintro ⟨⟩
        exact hne rfl
      · rw [hx.parked]
        exact hR.parked
      · obtain ⟨q, hq⟩ := hR.hart g hh
        rw [Function.update_self]
        exact hq.op hg hI hh hi hcode hp hx hgo.k
    | @loop g fail l f hh hi hcode =>
      refine hR.goto hI hm' hC.1 rfl (fun _ _ => rfl) (fun h hne o' => ?_) hR.parked fun _ => ?_
      · rw [performed_eq hi hcode]
        rintro ⟨⟩
        exact hne rfl
      · obtain ⟨q, hq⟩ := hR.hart g hh
        have hreads := hq.code
        rw [hcode] at hreads
        refine ⟨.out, .of_out ?_⟩
        show ReadsFrom (Function.update σ.harts g _ g).code .out
        rw [Function.update_self]
        exact wp_seq (reads_calm_out (calm_round l) fun r => hreads.2 r trivial)
    | @call g fail s en t fs f hh hi hcode hk =>
      obtain ⟨q, hq⟩ := hR.hart g hh
      have hreads := hq.code
      rw [hcode] at hreads
      refine hR.goto hI hm' hC.1 rfl hstay (fun h hne o' => ?_) (fun sp p hsp => ?_) fun _ => ?_
      · rw [performed_eq hi hcode]
        rintro ⟨⟩
        exact hne rfl
      · dsimp only [State.callSwitch] at hsp
        split at hsp
        · cases hsp
          exact hreads.2 () trivial
        · exact hR.parked sp p hsp
      · refine ⟨.out, .of_out ?_⟩
        show ReadsFrom (Function.update σ.harts g _ g).code .out
        rw [Function.update_self]
        exact reads_switch_to _ _
    | @ret g fail s en t fs ρ f w hh hi hcode hk hsaved hw hra =>
      refine hR.goto hI hm' hC.1 rfl hstay (fun h hne o' => ?_) hR.parked fun _ => ?_
      · rw [performed_eq hi hcode]
        rintro ⟨⟩
        exact hne rfl
      · refine ⟨.out, .of_out ?_⟩
        show ReadsFrom (Function.update σ.harts g _ g).code .out
        rw [Function.update_self]
        unfold Hart.afterRet
        split
        · exact reads_calm_out (text_dummy_task calm_plain rfl) fun _ => trivial
        · split
          · next p hp =>
            split
            · exact hR.parked _ p hp
            · exact reads_calm_out (calm_one rfl) fun _ => trivial
          · exact reads_calm_out (calm_one rfl) fun _ => trivial
    | @compute g r pc hh =>
      refine hR.goto hI hm' hC.1 rfl hstay (fun h _ o' hp => (by cases hp)) hR.parked fun _ => ?_
      obtain ⟨q, hcode, htrap, hseen⟩ := hR.hart g hh
      refine ⟨q, ?_, ?_, ?_⟩
      · show ReadsFrom (Function.update σ.harts g _ g).code q
        rw [Function.update_self]
        exact hcode
      · rw [Function.update_self]
        exact htrap
      · exact hseen.quiet rfl rfl fun _ => rfl
    | @timer g hh =>
      refine hR.goto hI hm' hC.1 rfl (fun _ _ => rfl) (fun h _ o' hp => (by cases hp)) hR.parked
        fun _ => ?_
      obtain ⟨q, hcode, htrap, hseen⟩ := hR.hart g hh
      refine ⟨q, ?_, htrap, ?_⟩
      · show ReadsFrom (Function.update σ.harts g _ g).code q
        rw [Function.update_self]
        exact hcode
      · exact hseen.quiet rfl rfl fun _ => rfl

/-! ## The printed line -/

/-- While no update brings the clock to another second between the two reads of another hart, the
seconds and the fraction of a line are those of one value that the clock held meanwhile. -/
theorem timestamp_one_instant (hr : Run (kernel cfg) tr σ) (hC : Along SecondsKept tr)
    (hh : h < cfg.harts) {s : U64} {f : U32} (hn : σ.next h = some (.printf (.tick s f))) :
    ∃ d : U64, HeldWhileRead h d tr ∧ s = d >>> 32 ∧
      f.toNat = d.toNat % 2 ^ 32 * 100000 / 2 ^ 32 := by
  obtain ⟨vs, hg⟩ := grun_of_run hr
  obtain ⟨q, hcode, _, hseen⟩ := (clockReads hg hC).hart h hh
  obtain ⟨_, k, hk⟩ := next_some hn
  rw [hk] at hcode
  obtain ⟨d, d', rfl, rfl, rfl⟩ := hcode.1
  exact ⟨d, hseen.1.held, hseen.2, toNat_get_time_decimal d (by decide)⟩

/-- Whether no update brings the clock to another second can be computed. -/
def secondsKept : Trace → Bool
  | [] => true
  | x :: tr => (match performed x with
      | some (_, .store .time_data d) => decide (d >>> 32 = (x.1.mem .time_data : U64) >>> 32)
      | _ => true) && secondsKept tr

theorem along_secondsKept : ∀ {tr : Trace}, secondsKept tr = true → Along SecondsKept tr
  | [], _ => trivial
  | (σ, e) :: tr, hb => by
    obtain ⟨hx, htr⟩ := (Bool.and_eq_true _ _).mp hb
    refine ⟨fun h _ _ g d hp => ?_, along_secondsKept htr⟩
    rw [hp] at hx
    exact of_decide_eq_true hx

/-- The line that hart `h` is about to print. -/
def printing (σ : State) (h : ℕ) : Option (U64 × U32) :=
  match σ.next h with
  | some (.printf (.tick s f)) => some (s, f)
  | _ => none

theorem next_of_printing {s : U64} {f : U32} (hb : printing σ h = some (s, f)) :
    σ.next h = some (.printf (.tick s f)) := by
  unfold printing at hb
  split at hb
  · next s' f' hn =>
    cases hb
    exact hn
  · cases hb

/-- Hart 0 counts a tick between the two reads of hart 1. -/
theorem timestamp_one_instant_tick : ∃ (tr : Trace) (σ : State) (d : U64),
    Run (kernel (.sample 2 (by decide) (by decide))) tr σ ∧
      σ.next 1 = some (.printf (.tick 0 0)) ∧ σ.mem .time_data = TICKS ∧
      HeldWhileRead 1 d tr ∧ 0 = d >>> 32 ∧ 0 = d.toNat % 2 ^ 32 * 100000 / 2 ^ 32 := by
  obtain ⟨tr, σ, hr, hp⟩ := Run.of_start (.sample 2 (by decide) (by decide)) Layout.sample_apart
    (List.replicate 5 (.hart 1 false) ++ List.replicate 463 (.hart 0 false) ++
      List.replicate 160 (.hart 1 false) ++ .timer 1 :: List.replicate 46 (.hart 1 false) ++
      .timer 0 :: List.replicate 60 (.hart 0 false) ++ List.replicate 3 (.hart 1 false))
    (fun x => secondsKept x.1 && decide (printing x.2 1 = some (0, 0)) &&
      decide (x.2.mem .time_data = TICKS)) (by decide +kernel)
  simp only [Bool.and_eq_true, decide_eq_true_eq] at hp
  obtain ⟨⟨hC, hl⟩, ht⟩ := hp
  have hn := next_of_printing hl
  obtain ⟨d, hd, hs, hf⟩ := timestamp_one_instant (h := 1) hr (along_secondsKept hC) (by decide) hn
  exact ⟨tr, σ, d, hr, hn, ht, hd, hs, hf⟩

/-! ## A torn line -/

/-- No value of the clock until shortly after one second has five nines for its digits. -/
theorem not_torn {d : U64} (hd : d ≤ 0x100080000) :
    ¬ ((1 : U64) = d >>> 32 ∧ 99999 = d.toNat % 2 ^ 32 * 100000 / 2 ^ 32) := by
  rintro ⟨hs, hf⟩
  have hle : d.toNat ≤ 0x100080000 := hd
  have hsec : 1 = d.toNat / 2 ^ 32 := by
    have hn := congrArg BitVec.toNat hs
    rwa [BitVec.toNat_ushiftRight, Nat.shiftRight_eq_div_pow] at hn
  omega

/-- Hart 1 reads the clock before and after the tick that brings it past one second: it prints
1.99999, which the clock never showed. -/
theorem timestamp_torn : ∃ (tr : Trace) (σ : State),
    Run (kernel (.sample 2 (by decide) (by decide))) tr σ ∧
      σ.next 1 = some (.printf (.tick 1 99999)) ∧
      ∀ d : U64, HeldWhileRead 1 d tr →
        ¬ ((1 : U64) = d >>> 32 ∧ 99999 = d.toNat % 2 ^ 32 * 100000 / 2 ^ 32) := by
  obtain ⟨tr, σ, hr, hp⟩ := Run.of_start (.sample 2 (by decide) (by decide)) Layout.sample_apart
    (List.replicate 5 (.hart 1 false) ++ List.replicate 463 (.hart 0 false) ++
      List.replicate 160 (.hart 1 false))
    (fun x => sie (x.2.harts 0).sstatus && sie (x.2.harts 1).sstatus &&
      decide (x.2.mem (.cpu_task 0) = none) &&
      decide (x.2.mem (.cpu_task 1) = some (.gTasks 0)) &&
      decide ((x.2.mem .time_data : U64) = 0) &&
      x.1.all fun y => decide ((y.1.mem .time_data : U64) = 0)) (by decide +kernel)
  simp only [Bool.and_eq_true, decide_eq_true_eq, List.all_eq_true] at hp
  obtain ⟨⟨⟨⟨⟨hsie0, hsie1⟩, htask0⟩, htask1⟩, hclock⟩, hpast⟩ := hp
  obtain ⟨vs, hg⟩ := grun_of_run hr
  have hI := hg.inv
  have hsie : ∀ h < 2, sie (σ.harts h).sstatus = true → (vs h).k.sie = true := fun h hh hs => by
    rw [← (hI.ok h hh).sie_eq, ← (hI.hart h hh).sstatus]
    exact hs
  have htask : ∀ h < 2, σ.mem (.cpu_task h) = (vs h).k.task.map .gTasks := fun h hh => by
    have hc := (hI.cpu h hh).cpu_task
    rwa [(hI.hart h hh).hart] at hc
  have hw : Idling (.sample 2 (by decide) (by decide)) 0x100080000 0 tr σ vs := by
    refine ⟨hr, hg, hsie 0 (by decide) hsie0, ?_, hclock, fun x hx => ?_⟩
    · exact Option.map_eq_none_iff.1 ((htask 0 (by decide)).symm.trans htask0)
    · rw [hpast x hx]
      decide
  obtain ⟨tr1, σ1, vs1, hw1, ho1⟩ := hw.ticks 16384 (by decide)
  have hview := (ho1 1 (by decide)).2
  have hs1 : (vs1 1).k.sie = true := by
    rw [hview]
    exact hsie 1 (by decide) hsie1
  have ht1 : (vs1 1).k.task = some 0 := by
    rw [hview]
    obtain ⟨t, ht, hslot⟩ := Option.map_eq_some_iff.1 ((htask 1 (by decide)).symm.trans htask1)
    cases hslot
    exact ht
  obtain ⟨tr2, σ2, hr2, hpast2, hn⟩ := hw1.torn (by decide) (by decide) (by decide)
    (by decide) (by decide) hs1 ht1
  refine ⟨tr2, σ2, hr2, hn, fun d hd => not_torn ?_⟩
  obtain ⟨post, x, pre, hsplit, rfl, _⟩ := hd
  have hx : x ∈ sinceEntry 1 tr2 := by
    rw [hsplit]
    exact List.mem_append_right post List.mem_cons_self
  exact hpast2 x ((List.takeWhile_prefix _).subset hx)

end GQuuuuuunix.Properties
