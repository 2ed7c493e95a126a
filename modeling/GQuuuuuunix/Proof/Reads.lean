import GQuuuuuunix.Proof.Codes
import GQuuuuuunix.Proof.Ticks

/-! # The two reads of the clock

How far a hart is with the line it prints in the software-interrupt case, read off the text of the
functions, and what the history says of it. -/

namespace GQuuuuuunix.Proof
open Lib Kernel
set_option autoImplicit false

variable {α : Type}

/-! ## How far a hart is -/

/-- Outside the software-interrupt case, or done with the reads; inside it with nothing read; and
with `time.data` read once and twice. -/
inductive Reading where
  | out | ready
  | first (d : U64)
  | second (d d' : U64)

def Reading.idle : Reading → Bool
  | .out | .ready => true
  | _ => false

/-- What an operation asks. -/
def Reading.Pre (q : Reading) : Op → Prop
  | .load .time_data => q = .ready ∨ ∃ d, q = .first d
  | .store .time_data _ => q.idle = true ∨ ∃ d, q = .first d
  | .load .time_mantissa_bit => True
  | .printf (.tick s f) => ∃ d d', q = .second d d' ∧ s = d' >>> 32 ∧ f = get_time_decimal d 32
  | _ => q.idle = true

/-- What an operation that answers `r` makes of it. -/
def Reading.after (q : Reading) : (o : Op) → o.Ret → Reading
  | .point .software_interrupt, _ => .ready
  | .load .time_data, r =>
    match q with
    | .first d => .second d r
    | _ => .first r
  | .store .time_data _, _ =>
    match q with
    | .first _ => .ready
    | _ => q
  | .printf (.tick _ _), _ | .loop _, _ | .call_switch_to _ _ _, _ | .ret _ _, _
  | .sret _, _ => .out
  | _, _ => q

/-- `time.mantissa_bit` is 32 when it is read for the line. -/
def Reading.Ans (q : Reading) : (o : Op) → o.Ret → Prop
  | .load .time_mantissa_bit, r => q.idle = false → r = (32 : BitVec 8)
  | _, _ => True

def reading : Rules Op Op.Ret Reading :=
  fun o Q q => q.Pre o ∧ ∀ r, q.Ans o r → Q r (q.after o r)

theorem reading_mono : reading.Mono := fun _ _ _ _ h hQ => ⟨hQ.1, fun r ha => h r _ (hQ.2 r ha)⟩

/-- What is left to run, from `q` on. -/
abbrev ReadsFrom (c : Code) (q : Reading) : Prop := wp reading c (fun _ _ => True) q

/-! ## Functions that neither read the clock nor enter the case -/

def Op.calm : Op → Bool
  | .point .software_interrupt | .load .time_data | .printf (.tick _ _) => false
  | _ => true

abbrev Calm (p : KProg α) : Prop := Text (fun o => Op.calm o = true) p

theorem calm_plain (o : Op) (ho : Op.special o = false) : Op.calm o = true := by
  cases o with
  | load l => cases l <;> first | rfl | cases ho
  | printf m => cases m <;> first | rfl | cases ho
  | point p => cases p <;> first | rfl | cases ho
  | _ => rfl

theorem calm_pre {q : Reading} {o : Op} (ho : Op.calm o = true) (hq : q.idle = true) : q.Pre o := by
  cases o with
  | load l => cases l <;> first | exact hq | exact trivial | cases ho
  | store l x => cases l <;> first | exact hq | exact Or.inl hq
  | printf m => cases m <;> first | exact hq | cases ho
  | _ => exact hq

theorem after_cases {q : Reading} {o : Op} (hp : o ≠ .point .software_interrupt)
    (hl : o ≠ .load .time_data) (ht : ∀ x, o ≠ .store .time_data x) (r : o.Ret) :
    q.after o r = q ∨ q.after o r = .out := by
  cases o with
  | load l => cases l <;> first | exact Or.inl rfl | exact absurd rfl hl
  | store l x => cases l <;> first | exact Or.inl rfl | exact absurd rfl (ht x)
  | printf m =>
    cases m with
    | tick s f => exact Or.inr rfl
    | _ => exact Or.inl rfl
  | point p => cases p <;> first | exact Or.inl rfl | exact absurd rfl hp
  | loop l => exact Or.inr rfl
  | call_switch_to s old new => exact Or.inr rfl
  | ret old new => exact Or.inr rfl
  | sret s => exact Or.inr rfl
  | _ => exact Or.inl rfl

theorem calm_after {q : Reading} {o : Op} (ho : Op.calm o = true) (hq : q.idle = true)
    (r : o.Ret) : q.after o r = q ∨ q.after o r = .out := by
  by_cases ht : ∃ x, o = .store .time_data x
  · obtain ⟨x, rfl⟩ := ht
    cases q <;> first | exact Or.inl rfl | cases hq
  · refine after_cases ?_ ?_ (fun x hx => ht ⟨x, hx⟩) r
    · rintro rfl
      cases ho
    · rintro rfl
      cases ho

theorem reads_calm {Q : α → Reading → Prop} : ∀ {p : KProg α} {q : Reading}, Calm p →
    q.idle = true → (∀ a q', q' = q ∨ q' = .out → Q a q') → wp reading p Q q
  | .pure a, q, _, _, hQ => hQ a q (Or.inl rfl)
  | .op o f, q, hp, hq, hQ => by
    refine ⟨calm_pre hp.1 hq, fun r _ => ?_⟩
    have hout : ∀ q', q' = q.after o r ∨ q' = .out → q' = q ∨ q' = .out := by
      rintro q' (rfl | rfl)
      · exact calm_after hp.1 hq r
      · exact Or.inr rfl
    refine reads_calm (hp.2 r) ?_ fun a q' h => hQ a q' (hout q' h)
    rcases calm_after hp.1 hq r with h | h <;> rw [h]
    · exact hq
    · rfl

theorem reads_idle {p : KProg α} {q : Reading} {Q : α → Reading → Prop} (hp : Calm p)
    (hq : q.idle = true) (hQ : ∀ a q', q'.idle = true → Q a q') : wp reading p Q q :=
  reads_calm hp hq fun a q' h => by
    rcases h with rfl | rfl
    · exact hQ a _ hq
    · exact hQ a _ rfl

/-- From outside the case, a calm program stays outside. -/
theorem reads_calm_out {p : KProg α} (hp : Calm p) {Q : α → Reading → Prop} (hQ : ∀ a, Q a .out) :
    wp reading p Q .out :=
  reads_calm hp rfl fun a q' h => by
    rcases h with rfl | rfl <;> exact hQ a

theorem calm_one {o : Op} (ho : Op.calm o = true) : Calm (one o) := text_one ho

theorem calm_yield : Calm yield := text_yield calm_plain (fun _ _ => rfl) rfl fun _ => rfl

theorem calm_scan_body (c : ℕ) (i : Slot) : Calm (scan_body c i) := by
  have hrelease := (plain_call_release (.gTasks i)).text calm_plain
  refine ((plain_call_acquire _).text calm_plain).bind fun _ =>
    (text_op calm_plain rfl).bind fun _ => text_ite ?_ hrelease
  exact (text_op calm_plain rfl).bind fun _ => (text_op calm_plain rfl).bind fun _ =>
    (text_op calm_plain rfl).bind fun _ => (text_op calm_plain rfl).bind fun _ =>
      (calm_one rfl).bind fun _ => (plain_afterSwitch c i).text calm_plain

theorem calm_round (l : Loop) : Calm l.round := by
  cases l with
  | test_set lk => exact (plain_test_set_round lk).text calm_plain
  | store c v => exact (plain_store_round c v).text calm_plain
  | barrier => exact plain_barrier_round.text calm_plain
  | scheduler c => exact (plain_scheduler_round c).text calm_plain
  | scan c t =>
    show Calm (scan_round c t)
    unfold scan_round
    split
    · exact (calm_scan_body c _).bind fun _ => calm_one rfl
    · exact text_pure _
  | dummy_task => exact text_dummy_task_round calm_plain rfl
  | atomic_store sz a x => exact text_obj_store_round sz a x (fun _ => rfl) rfl
  | cmp_xchg sz a e d => exact text_cmp_xchg_round sz a e d (fun _ => rfl) rfl

/-! ## The trap handler -/

theorem reads_cur_task_running {Q : Bool → Reading → Prop} (hQ : ∀ b, Q b .ready) :
    wp reading cur_task_running Q .ready := by
  refine ⟨rfl, fun _ _ => ⟨rfl, fun t _ => ?_⟩⟩
  cases t with
  | none => exact hQ _
  | some p =>
    refine ⟨rfl, fun _ _ => ⟨rfl, fun t _ => ?_⟩⟩
    cases t with
    | none => exact ⟨rfl, fun _ _ => ⟨rfl, fun _ _ => hQ _⟩⟩
    | some p => exact ⟨rfl, fun _ _ => hQ _⟩

theorem reads_software_interrupt_rest {Q : Unit → Reading → Prop}
    (hQ : ∀ q, q.idle = true → Q () q) : wp reading software_interrupt_rest Q .ready := by
  have hack : ∀ q : Reading, q.idle = true → wp reading (do
      let x ← r_sip
      w_sip (x &&& ~~~2)) Q q := fun q hq =>
    reads_idle ((calm_one rfl).bind fun _ => calm_one rfl) hq fun _ => hQ
  unfold software_interrupt_rest
  refine wp_seq (reads_cur_task_running fun b => ?_)
  cases b with
  | false => exact hack _ rfl
  | true =>
    refine ⟨Or.inl rfl, fun d _ => ⟨trivial, fun bit hbit => ?_⟩⟩
    obtain rfl : bit = 32 := hbit rfl
    refine ⟨Or.inr ⟨d, rfl⟩, fun d' _ => ⟨trivial, fun bit hbit => ?_⟩⟩
    obtain rfl : bit = 32 := hbit rfl
    refine ⟨⟨d, d', rfl, rfl, rfl⟩, fun _ _ => ?_⟩
    show wp reading (do
      yield
      let x ← r_sip
      w_sip (x &&& ~~~2)) Q .out
    exact wp_seq (reads_calm_out calm_yield fun _ => hack _ rfl)

theorem reads_software_interrupt {q : Reading} {Q : Unit → Reading → Prop} (hq : q.idle = true)
    (hQ : ∀ q, q.idle = true → Q () q) : wp reading software_interrupt Q q := by
  have hrest := reads_software_interrupt_rest hQ
  rw [software_interrupt_eq]
  refine ⟨hq, fun _ _ => ⟨rfl, fun hartid _ => ?_⟩⟩
  show wp reading (if hartid = 0 then _ else _) Q .ready
  split
  · refine ⟨rfl, fun g _ => ⟨rfl, fun _ _ => ⟨Or.inl rfl, fun d _ => ⟨Or.inr ⟨d, rfl⟩, ?_⟩⟩⟩⟩
    exact fun _ _ => hrest
  · exact hrest

theorem reads_kernel_trap_handler {q : Reading} {Q : Unit → Reading → Prop} (hq : q.idle = true)
    (hQ : ∀ q, q.idle = true → Q () q) : wp reading kernel_trap_handler Q q := by
  have hend : ∀ (q : Reading) sepc sstatus, q.idle = true → wp reading (do
      w_sepc sepc
      w_sstatus sstatus) Q q := fun q _ _ hq =>
    ⟨hq, fun _ _ => ⟨hq, fun _ _ => hQ q hq⟩⟩
  have hcase : ∀ (q : Reading) scause sepc sstatus, q.idle = true → wp reading (do
      if scause = (0x8000000000000001 : U64) then
        software_interrupt
      w_sepc sepc
      w_sstatus sstatus) Q q := by
    intro q scause sepc sstatus hq
    split
    · exact wp_seq (reads_software_interrupt hq fun q' hq' => hend q' _ _ hq')
    · exact hend q _ _ hq
  have hintr : ∀ (q : Reading) scause sepc sstatus, q.idle = true → wp reading (do
      if (← intr_get) ≠ 0 then
        PANIC .trap_intr_on
      if scause = (0x8000000000000001 : U64) then
        software_interrupt
      w_sepc sepc
      w_sstatus sstatus) Q q := by
    intro q scause sepc sstatus hq
    refine ⟨hq, fun x _ => ?_⟩
    show wp reading (if (if x &&& SSTATUS_SIE ≠ 0 then (1 : I32) else 0) ≠ 0 then _ else _) Q q
    split
    · exact ⟨hq, fun _ _ => hcase q _ _ _ hq⟩
    · exact hcase q _ _ _ hq
  unfold kernel_trap_handler
  refine ⟨hq, fun sepc _ => ⟨hq, fun sstatus _ => ⟨hq, fun scause _ => ?_⟩⟩⟩
  show wp reading (if sstatus &&& SSTATUS_SPP = 0 then _ else _) Q q
  split
  · exact ⟨hq, fun _ _ => hintr q _ _ _ hq⟩
  · exact hintr q _ _ _ hq

/-- The handler ends outside the case. -/
theorem reads_kernelvec (s : Snapshot) : wp reading (kernelvec s) (fun _ q => q = .out) .out := by
  have hsave : Calm (Prog.each (fun x => one (.sd x.1 x.2)) kernelvec_saves) :=
    text_each (fun _ => calm_one rfl) _
  have hload : Calm (Prog.each (fun x => one (.ld x.1 x.2)) kernelvec_loads) :=
    text_each (fun _ => calm_one rfl) _
  unfold kernelvec
  refine wp_seq (reads_idle (calm_one rfl) rfl fun _ q hq => ?_)
  refine wp_seq (reads_idle hsave hq fun _ q hq => ?_)
  refine wp_seq (reads_idle (calm_one rfl) hq fun saved q hq => ?_)
  refine wp_seq (reads_kernel_trap_handler hq fun q hq => ?_)
  refine wp_seq (reads_idle (calm_one rfl) hq fun _ q hq => ?_)
  refine wp_seq (reads_idle hload hq fun _ q hq => ?_)
  refine wp_seq (reads_idle (calm_one rfl) hq fun _ q hq => ?_)
  exact ⟨hq, fun _ _ => rfl⟩

/-! ## kernel_main, dummy_task, switch_to -/

theorem reads_plain {c : Code} (hc : Plain c) : ReadsFrom c .out :=
  reads_calm_out (hc.text calm_plain) fun _ => trivial

theorem reads_switch_to (old new : CtxPtr) : ReadsFrom (switch_to old new) .out :=
  reads_calm_out (text_switch_to calm_plain old new rfl) fun _ => trivial

/-! ## The clock in a run -/

variable {cfg : Config} {σ σ' : State} {vs vs' : ℕ → View} {tr : Trace} {e : Event} {h : ℕ}

/-- A trap is handled after the barrier. -/
theorem handling_opened (hg : GRun cfg tr σ vs) (hh : h < cfg.harts) :
    (vs h).k.trap ≠ .idle → (vs h).k.stage = .opened := by
  induction hg with
  | boot hb => exact fun ht => absurd rfl ht
  | @step tr σ σ' vs vs' e hg hI hm hI' ih =>
    have hset : ∀ (g : ℕ) (w : View),
        (g = h → w.k.trap ≠ .idle → w.k.stage = .opened) →
        (Function.update vs g w h).k.trap ≠ .idle →
        (Function.update vs g w h).k.stage = .opened := by
      intro g w hw
      by_cases hgh : h = g
      · subst hgh
        rw [Function.update_self]
        exact hw rfl
      · rw [Function.update_of_ne hgh]
        exact ih
    cases hm with
    | trap hh' hi hsie => exact hset _ _ fun _ _ => ((hI.ok _ hh').sie_ok hsie).stage
    | @op g fail o f r w σ' hh' hi hcode hs hp hx hgo =>
      refine hset g w fun hgh ht => ?_
      subst hgh
      rw [hgo.k, Ghost.after_trap] at ht
      rw [hgo.k]
      have hst : (vs g).k.stage = .opened := ih fun hidle => ht (Op.trap_idle hp hidle)
      rcases (vs g).k.after_stage o r with hk | hk <;> rw [hk]
      exact hst
    | loop hh' hi hcode => exact ih
    | call hh' hi hcode hk =>
      refine hset _ _ fun _ _ => ?_
      rw [View.called, hk]
      rfl
    | ret hh' hi hcode hk hsaved hw hra => exact hset _ _ fun _ _ => hw.stage
    | compute hh' => exact hset _ _ fun hgh => by subst hgh; exact ih
    | timer hh' => exact ih

/-- `time.mantissa_bit` is set before the barrier is opened. -/
theorem mantissa_bit (hg : GRun cfg tr σ vs) :
    (vs 0).k.stage = .opened → σ.mem .time_mantissa_bit = (32 : BitVec 8) := by
  induction hg with
  | boot hb => exact fun ho => (by cases ho)
  | @step tr σ σ' vs vs' e hg hI hm hI' ih =>
    intro ho
    by_cases hop : (vs 0).k.stage = .opened
    · obtain ⟨hmem, _⟩ | ⟨g, x, hh, _, hpre, _⟩ := hm.stored (l := .time_mantissa_bit) rfl hI
      · exact hmem.trans (ih hop)
      · exact absurd hpre (hI.not_boot cfg.harts_pos hh hop)
    · have hkept : (vs' 0).k.stage ≠ (vs 0).k.stage := fun hk => hop (hk ▸ ho)
      cases hm with
      | @op h fail o f r w σ' hh hi hcode hs hp hx hgo =>
        obtain ⟨rfl, hb, hready, x, rfl⟩ := hI.opening hh hp hx hgo hop ho
        have hmem : σ'.mem .time_mantissa_bit = σ.mem .time_mantissa_bit :=
          hI.mem_of_ne hh hx fun y hy => by cases writes_plain rfl hy
        rw [hmem, hI.owned 0 hh .time_mantissa_bit ⟨hb, rfl⟩]
        exact hready.time_mantissa_bit
      | call hh hi hcode hk => exact absurd (hI.opened _ hh (by rw [hk]; rfl)) hop
      | ret hh hi hcode hk hsaved hw => exact absurd (hI.opened _ hh (by rw [hk]; rfl)) hop
      | trap hh hi hsie => exact (hkept (update_field Ghost.stage (by rfl) 0)).elim
      | compute hh => exact (hkept (update_field Ghost.stage (by rfl) 0)).elim
      | loop hh hi hcode => exact absurd rfl hkept
      | timer hh => exact absurd rfl hkept

end GQuuuuuunix.Proof
