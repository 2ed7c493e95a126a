import GQuuuuuunix.Kernel.TimerInterrupt
import GQuuuuuunix.Proof.History

/-! # How far the harts of `02.TimerInterrupt` are

The phase of a hart is where it is between the accesses that matter, with what it has read. Every
program is checked against the phases once; a run of the machine is then a run of phases. -/

namespace GQuuuuuunix.TimerInterrupt
open Lib Kernel Proof
set_option autoImplicit false

/-! ## Phases -/

inductive Phase where
  -- kernel_main, before each of its two stores and before `intr_on()`
  | clock_due | bit_due | intr_due
  | idle
  -- kernel_trap_handler, before the case of the software interrupt and in it
  | trapped | counting
  | gticks_read (g : U64) | time_due | time_read (d : U64)
  | updated
  | frac_data (d : U64) | frac_bit (d : U64) (b : BitVec 8)
  | sec_data (d : U64) (b : BitVec 8) (d' : U64)
  | sec_bit (d : U64) (b : BitVec 8) (d' : U64) (b' : BitVec 8)
  | done
  deriving DecidableEq

variable {cfg : Config} {σ σ' : State} {ps ps' : ℕ → Phase} {tr : Trace} {e : Event} {h : ℕ}

def Phase.handler : Phase → Bool
  | .clock_due | .bit_due | .intr_due | .idle => false
  | _ => true

/-- The case of the software interrupt was left out, or is over. -/
def Phase.leaving : Phase → Bool
  | .trapped | .counting | .done => true
  | _ => false

theorem handler_of_leaving {p : Phase} (hp : p.leaving = true) : p.handler = true := by
  cases p <;> first | rfl | cases hp

/-- What the operation asks of the phase of hart `h`. -/
def Pre (h : ℕ) (p : Phase) : Op → Prop
  | .load .gticks => h = 0 ∧ p = .counting
  | .store .gticks x => h = 0 ∧ ∃ g, p = .gticks_read g ∧ x = g + 1
  | .load .time_data => h = 0 ∧ (p = .time_due ∨ p = .updated ∨ ∃ d b, p = .frac_bit d b)
  | .store .time_data x =>
    (p = .clock_due ∧ x = 0) ∨ (h = 0 ∧ ∃ d, p = .time_read d ∧ x = d + TICKS)
  | .load .time_mantissa_bit =>
    h = 0 ∧ ((∃ d, p = .frac_data d) ∨ ∃ d b d', p = .sec_data d b d')
  | .store .time_mantissa_bit x => p = .bit_due ∧ x = 32
  | .w_sstatus x => p = .intr_due ∨ (p.leaving = true ∧ Kernel.sie x = false)
  | .point .software_interrupt => p = .trapped
  | .printf (.tick s f) => h = 0 ∧ ∃ d b d' b', p = .sec_bit d b d' b' ∧
      s = d' >>> b'.toNat ∧ f = get_time_decimal d b
  | .sret _ => p.leaving = true
  | .ld r _ => r ≠ .tp
  | .printf _ | .r_tp | .r_sstatus | .r_sepc | .r_scause | .w_sepc _ | .w_stvec | .addi_sp _
  | .sd _ _ | .call_c | .ret_c _ | .crash => True
  | _ => False

/-- The phase after an operation. -/
def Phase.after (p : Phase) : (o : Op) → o.Ret → Phase
  | .load .gticks, g => .gticks_read g
  | .store .gticks _, _ => .time_due
  | .load .time_data, d =>
    match p with
    | .time_due => .time_read d
    | .frac_bit e b => .sec_data e b d
    | _ => .frac_data d
  | .store .time_data _, _ => if p = .clock_due then .bit_due else .updated
  | .load .time_mantissa_bit, b =>
    match p with
    | .sec_data d b' d' => .sec_bit d b' d' b
    | .frac_data d => .frac_bit d b
    | p => p
  | .store .time_mantissa_bit _, _ => .intr_due
  | .w_sstatus _, _ => if p = .intr_due then .idle else p
  | .point .software_interrupt, _ => .counting
  | .printf (.tick _ _), _ => .done
  | .sret _, _ => .idle
  | _, _ => p

/-- What hart `h` knows of an answer. -/
def Known (h : ℕ) (p : Phase) : (o : Op) → o.Ret → Prop
  | .r_tp, r => r = BitVec.ofNat 64 h
  | .r_sstatus, r => p ≠ .idle → Kernel.sie r = false
  | _, _ => True

def rules (h : ℕ) : Rules Op Op.Ret Phase := fun o Q p =>
  Pre h p o ∧ (o ≠ .crash → ∀ r, Known h p o r → Q r (p.after o r))

theorem rules_mono (h : ℕ) : (rules h).Mono := by
  intro o Q Q' p hQ hp
  exact ⟨hp.1, fun hs r hr => hQ _ _ (hp.2 hs r hr)⟩

section
variable {α β : Type} {p : Phase}

/-- One operation, and the rest. -/
theorem wp_one {o : Op} {f : o.Ret → KProg β} {Q : β → Phase → Prop} (hp : Pre h p o)
    (hf : ∀ r, Known h p o r → wp (rules h) (f r) Q (p.after o r)) :
    wp (rules h) (one o >>= f) Q p := ⟨hp, fun _ => hf⟩

/-- Operations that leave the phase as it is. -/
theorem wp_each_one {xs : List (Reg × ℕ)} {u : (x : Reg × ℕ) → KProg Unit}
    {Q : Unit → Phase → Prop}
    (hu : ∀ x ∈ xs, ∀ Q' : Unit → Phase → Prop, Q' () p → wp (rules h) (u x) Q' p) (hQ : Q () p) :
    wp (rules h) (Prog.each u xs) Q p := by
  induction xs with
  | nil => exact hQ
  | cons x xs ih =>
    rw [Prog.each, wp_bind]
    exact hu x (List.mem_cons_self ..) _ (ih fun y hy => hu y (List.mem_cons_of_mem _ hy))

/-! ## The programs -/

theorem ofNat_eq_zero (hh : h < MAX_CPU_NUMS) (h0 : BitVec.ofNat 64 h = (0 : U64)) : h = 0 := by
  unfold MAX_CPU_NUMS at hh
  have hn := congrArg BitVec.toNat h0
  rw [BitVec.toNat_ofNat] at hn
  have hz : ((0 : U64)).toNat = 0 := rfl
  omega

theorem wp_kernel_main (h : ℕ) :
    wp (rules h) kernel_main (fun _ p => p = .idle) .clock_due := by
  have hrest : wp (rules h) (do store .time_data 0; store .time_mantissa_bit 32; intr_on)
      (fun _ p => p = .idle) .clock_due := by
    refine wp_one (Or.inl ⟨rfl, rfl⟩) fun _ _ => wp_one ⟨rfl, rfl⟩ fun _ _ => ?_
    exact wp_one trivial fun x _ => ⟨Or.inl rfl, fun _ _ _ => rfl⟩
  refine wp_one trivial fun cpu_id _ => wp_one trivial fun _ _ => ?_
  split
  · exact wp_one trivial fun _ _ => hrest
  · exact hrest

theorem wp_software_interrupt (hh : h < MAX_CPU_NUMS) :
    wp (rules h) software_interrupt (fun _ p => p.leaving = true) .trapped := by
  refine wp_one rfl fun _ _ => wp_one trivial fun hartid hid => ?_
  split
  · next h0 =>
    have hz : h = 0 := ofNat_eq_zero hh (hid.symm.trans h0)
    refine wp_one ⟨hz, rfl⟩ fun g _ => wp_one ⟨hz, g, rfl, rfl⟩ fun _ _ => ?_
    refine wp_one ⟨hz, Or.inl rfl⟩ fun d _ => wp_one (Or.inr ⟨hz, d, rfl, rfl⟩) fun _ _ => ?_
    refine wp_one ⟨hz, Or.inr (Or.inl rfl)⟩ fun d _ => wp_one ⟨hz, Or.inl ⟨d, rfl⟩⟩ fun b _ => ?_
    refine wp_one ⟨hz, Or.inr (Or.inr ⟨d, b, rfl⟩)⟩ fun d' _ => ?_
    refine wp_one ⟨hz, Or.inr ⟨d, b, d', rfl⟩⟩ fun b' _ => ?_
    exact ⟨⟨hz, d, b, d', b', rfl, rfl, rfl⟩, fun _ _ _ => rfl⟩
  · exact rfl

/-- The bits that the handler writes back to `sstatus` are those it found there. -/
theorem wp_handler (hh : h < MAX_CPU_NUMS) :
    wp (rules h) kernel_trap_handler (fun _ p => p.leaving = true) .trapped := by
  refine wp_one trivial fun sepc _ => wp_one trivial fun sstatus hs => ?_
  have hsie : Kernel.sie sstatus = false := hs (fun hi => by cases hi)
  have hrest : ∀ p : Phase, p.leaving = true →
      wp (rules h) (do w_sepc sepc; w_sstatus sstatus) (fun _ p => p.leaving = true) p := by
    intro p hp
    refine wp_one trivial fun _ _ => ⟨Or.inr ⟨hp, hsie⟩, fun _ _ _ => ?_⟩
    show (if p = .intr_due then Phase.idle else p).leaving = true
    rw [if_neg (fun hi => by rw [hi] at hp; cases hp)]
    exact hp
  refine wp_one trivial fun scause _ => ?_
  split
  · exact wp_seq (wp_mono (rules_mono h) (fun _ p hp => hrest p hp) (wp_software_interrupt hh))
  · exact hrest .trapped rfl

theorem wp_kernelvec (hh : h < MAX_CPU_NUMS) (s : Snapshot) {c : Code} {Q : Unit → Phase → Prop}
    (hc : wp (rules h) c Q .idle) :
    wp (rules h) ((kernelvec s).bind fun _ => c) Q .trapped := by
  rw [wp_bind]
  refine wp_one trivial fun _ _ =>
    wp_seq (wp_each_one (fun x _ Q' hQ => ⟨trivial, fun _ _ _ => hQ⟩) ?_)
  refine wp_one trivial fun saved _ => wp_seq ?_
  refine wp_mono (rules_mono h) (fun _ p hp => ?_) (wp_handler hh)
  refine wp_one trivial fun _ _ => wp_seq (wp_each_one (fun x hx Q' hQ => ⟨?_, fun _ _ _ => hQ⟩) ?_)
  · have htp : ∀ x ∈ kernelvec_loads, x.1 ≠ .tp := by decide
    exact htp x hx
  · exact wp_one trivial fun _ _ => ⟨hp, fun _ _ _ => hc⟩

end

/-! ## The harts -/

structure HartOk (h : ℕ) (x : Hart) (p : Phase) : Prop where
  code : wp (rules h) x.code (fun _ p => p = .idle) p
  tp : x.regs .tp = BitVec.ofNat 64 h
  sie : p ≠ .idle → Kernel.sie x.sstatus = false

/-- Outside the handler only the two stores and `intr_on()` change the phase. -/
theorem after_main {p : Phase} {o : Op} (hp : Pre h p o) (hm : p.handler = false) (r : o.Ret) :
    p.after o r = p ∨ (p = .clock_due ∧ o = .store .time_data (0 : U64)) ∨
      (p = .bit_due ∧ o = .store .time_mantissa_bit (32 : BitVec 8)) ∨
      (p = .intr_due ∧ ∃ x, o = .w_sstatus x) := by
  have hno : ∀ q : Phase, q.handler = true → p ≠ q := by
    rintro q hq rfl
    rw [hm] at hq
    cases hq
  cases o with
  | load l =>
    cases l with
    | gticks => exact absurd hp.2 (hno _ rfl)
    | time_data =>
      obtain ⟨_, hp | hp | ⟨_, _, hp⟩⟩ := hp
      · exact absurd hp (hno _ rfl)
      · exact absurd hp (hno _ rfl)
      · exact absurd hp (hno _ rfl)
    | time_mantissa_bit =>
      obtain ⟨_, ⟨_, hp⟩ | ⟨_, _, _, hp⟩⟩ := hp
      · exact absurd hp (hno _ rfl)
      · exact absurd hp (hno _ rfl)
    | _ => exact hp.elim
  | store l x =>
    cases l with
    | gticks =>
      obtain ⟨_, _, hp, _⟩ := hp
      exact absurd hp (hno _ rfl)
    | time_data =>
      obtain ⟨hp, rfl⟩ | ⟨_, _, hp, _⟩ := hp
      · exact Or.inr (Or.inl ⟨hp, rfl⟩)
      · exact absurd hp (hno _ rfl)
    | time_mantissa_bit =>
      obtain ⟨hp, rfl⟩ := hp
      exact Or.inr (Or.inr (Or.inl ⟨hp, rfl⟩))
    | _ => exact hp.elim
  | w_sstatus x =>
    obtain hp | ⟨hp, _⟩ := hp
    · exact Or.inr (Or.inr (Or.inr ⟨hp, x, rfl⟩))
    · exact absurd rfl (hno _ (handler_of_leaving hp))
  | printf m =>
    cases m with
    | tick s f =>
      obtain ⟨_, _, _, _, _, hp, _⟩ := hp
      exact absurd hp (hno _ rfl)
    | _ => exact Or.inl rfl
  | point q =>
    cases q with
    | software_interrupt => exact absurd hp (hno _ rfl)
    | _ => exact hp.elim
  | sret s => exact absurd rfl (hno _ (handler_of_leaving hp))
  | _ => exact Or.inl rfl

theorem after_idle {o : Op} (hp : Pre h .idle o) (r : o.Ret) : Phase.idle.after o r = .idle := by
  obtain hk | ⟨hk, _⟩ | ⟨hk, _⟩ | ⟨hk, _⟩ := after_main hp rfl r
  · exact hk
  all_goals cases hk

theorem after_boot {p : Phase} {o : Op} {r : o.Ret} (hpre : Pre h p o)
    (hp : p = .clock_due ∨ p = .bit_due) :
    (p.after o r = .clock_due ∨ p.after o r = .bit_due) ∨ o = .store .time_mantissa_bit 32 := by
  have hm : p.handler = false := by rcases hp with rfl | rfl <;> rfl
  obtain hk | ⟨_, rfl⟩ | ⟨_, rfl⟩ | ⟨rfl, _⟩ := after_main hpre hm r
  · rw [hk]
    exact Or.inl hp
  · refine Or.inl (Or.inr ?_)
    rcases hp with rfl | rfl
    · rfl
    · rcases hpre with ⟨hp, _⟩ | ⟨_, _, hp, _⟩ <;> cases hp
  · exact Or.inr rfl
  · rcases hp with hp | hp <;> cases hp

theorem perform_tp {p : Phase} {o : Op} (hp : Pre h p o) (m : Mem) (x : Hart) :
    (Hart.perform m x o).regs .tp = x.regs .tp := by
  cases o with
  | addi_sp i =>
    show Function.update x.regs .sp (x.regs .sp + BitVec.ofInt 64 i) .tp = _
    rw [Function.update_of_ne (by decide)]
  | ld r off => exact Function.update_of_ne (Ne.symm hp) _ _
  | ret_c saved => rfl
  | ld_ctx q r i => exact hp.elim
  | _ => rfl

/-- Nothing writes `sip` but `timer_vec`. -/
theorem perform_ssip {p : Phase} {o : Op} (hp : Pre h p o) (m : Mem) (x : Hart) :
    (Hart.perform m x o).ssip = x.ssip := by
  cases o with
  | w_sip y => exact hp.elim
  | _ => rfl

theorem perform_sie {p : Phase} {o : Op} (hp : Pre h p o) (m : Mem) {x : Hart} {r : o.Ret}
    (hs : p ≠ .idle → Kernel.sie x.sstatus = false) (hn : p.after o r ≠ .idle) :
    Kernel.sie (Hart.perform m x o).sstatus = false := by
  have hne : p ≠ .idle := by
    rintro rfl
    exact hn (after_idle hp r)
  cases o with
  | w_sstatus y =>
    rcases hp with rfl | ⟨_, hy⟩
    · exact absurd rfl hn
    · exact hy
  | sret s => exact absurd rfl hn
  | _ => exact hs hne

theorem known_of_answer {p : Phase} {fail : Bool} {o : Op} {r : o.Ret}
    (hx : HartOk h (σ.harts h) p) (ha : Answer σ h fail o r) : Known h p o r := by
  cases o with
  | r_tp =>
    rw [show r = (σ.harts h).regs .tp from ha]
    exact hx.tp
  | r_sstatus =>
    rw [show r = (σ.harts h).sstatus from ha]
    exact hx.sie
  | _ => trivial

theorem HartOk.exec {L : Layout} {fail : Bool} {p : Phase} {o : Op} {k : o.Ret → Code}
    (hx : HartOk h (σ.harts h) p) (hc : (σ.harts h).code = .op o k)
    (he : σ.exec L h fail o k = some σ') :
    Pre h p o ∧ ∃ r, Answer σ h fail o r ∧ HartOk h (σ'.harts h) (p.after o r) ∧
      σ'.mem = written σ.mem (Op.writes (σ.harts h).regs o r) ∧
      (σ'.harts h).ssip = (σ.harts h).ssip := by
  have hcode := hx.code
  rw [hc] at hcode
  obtain ⟨hp, hrest⟩ := hcode
  refine ⟨hp, ?_⟩
  by_cases hs : ∃ s, o = .sret s ∧ ¬ s.intact (σ.harts h).afterSret
  · -- compiled code cannot go on with other registers than it left
    obtain ⟨s, rfl, hi⟩ := hs
    simp only [State.exec, if_neg hi] at he
    cases he
    have hself : ∀ y, (σ.setHart h y).harts h = y := fun y => Function.update_self ..
    refine ⟨(), trivial, ?_, rfl, ?_⟩ <;> rw [hself]
    · exact ⟨⟨trivial, fun hn => absurd rfl hn⟩, hx.tp, fun hn => absurd rfl hn⟩
    · rfl
  have hsimple : Op.simple o = true := by
    cases o with
    | loop l => exact hp.elim
    | call_switch_to s old new => exact hp.elim
    | ret old new => exact hp.elim
    | panic q => exact hp.elim
    | crash => cases he
    | _ => rfl
  obtain ⟨r, ha, hharts, hmem, _⟩ := exec_simple hsimple
    (fun s ho => by_contra fun hi => hs ⟨s, ho, hi⟩) he
  refine ⟨r, ha, ?_, hmem, by rw [hharts, Function.update_self]; exact perform_ssip hp _ _⟩
  have hcrash : o ≠ .crash := by
    rintro rfl
    cases he
  rw [hharts, Function.update_self]
  exact ⟨hrest hcrash r (known_of_answer hx ha), (perform_tp hp _ _).trans hx.tp,
    fun hn => perform_sie hp _ hx.sie hn⟩

/-! ## One step -/

/-- What a step does to the phases of the harts and to the memory. -/
inductive Moved (n : ℕ) (x : State × Event) (σ' : State) (ps ps' : ℕ → Phase) : Prop where
  | trap {h : ℕ} : h < n → trapped h x = true → (∀ g, trapped g x = true → g = h) →
      performed x = none → ps h = .idle → ps' = Function.update ps h .trapped →
      σ'.mem = x.1.mem → Moved n x σ' ps ps'
  | op {h : ℕ} {fail : Bool} {o : Op} {r : o.Ret} : h < n → (∀ g, trapped g x = false) →
      performed x = some (h, o) → Pre h (ps h) o → Answer x.1 h fail o r →
      ps' = Function.update ps h ((ps h).after o r) →
      σ'.mem = written x.1.mem (Op.writes (x.1.harts h).regs o r) → Moved n x σ' ps ps'
  | still : (∀ g, trapped g x = false) → performed x = none → ps' = ps → σ'.mem = x.1.mem →
      Moved n x σ' ps ps'

theorem trapped_hart {fail : Bool} {g : ℕ} :
    trapped g (σ, .hart h fail) = true ↔ g = h ∧ (σ.harts h).interrupted = true := by
  show (h == g && (σ.harts h).interrupted) = true ↔ _
  rw [Bool.and_eq_true, beq_iff_eq]
  exact ⟨fun ⟨a, b⟩ => ⟨a.symm, b⟩, fun ⟨a, b⟩ => ⟨a.symm, b⟩⟩

theorem moved (hn : cfg.harts ≤ MAX_CPU_NUMS)
    (hok : ∀ h < cfg.harts, HartOk h (σ.harts h) (ps h))
    (hs : (machine cfg).step σ e = some σ') :
    ∃ ps', Moved cfg.harts (σ, e) σ' ps ps' ∧
      (∀ h < cfg.harts, HartOk h (σ'.harts h) (ps' h)) ∧
      ∀ h, (σ'.harts h).ssip = ((σ.harts h).ssip || fired h (σ, e)) := by
  have hupdate : ∀ {h : ℕ} {x : Hart} {p : Phase}, HartOk h x p →
      (∀ g, g ≠ h → σ'.harts g = σ.harts g) → σ'.harts h = x →
      ∀ g < cfg.harts, HartOk g (σ'.harts g) (Function.update ps h p g) := by
    intro h x p hx hother hself g hg
    by_cases hgh : g = h
    · subst hgh
      rw [Function.update_self, hself]
      exact hx
    · rw [Function.update_of_ne hgh, hother g hgh]
      exact hok g hg
  have hkeep : ∀ {h : ℕ}, (∀ g, g ≠ h → σ'.harts g = σ.harts g) →
      (σ'.harts h).ssip = (σ.harts h).ssip → (∀ g, fired g (σ, e) = false) →
      ∀ g, (σ'.harts g).ssip = ((σ.harts g).ssip || fired g (σ, e)) := by
    intro h hother hself hno g
    rw [hno g, Bool.or_false]
    by_cases hgh : g = h
    · rw [hgh, hself]
    · rw [hother g hgh]
  cases e with
  | hart h fail =>
    dsimp only [machine, step] at hs
    split at hs
    · next hh =>
      have hx := hok h hh
      split at hs
      · next hi =>
        cases hs
        obtain ⟨hsie, _⟩ := (Bool.and_eq_true _ _).mp hi
        have hidle : ps h = .idle := by
          by_contra hne
          rw [hx.sie hne] at hsie
          cases hsie
        have hcode := hx.code
        rw [hidle] at hcode
        refine ⟨_, .trap hh (trapped_hart.2 ⟨rfl, hi⟩) (fun g hg => (trapped_hart.1 hg).1)
          (performed_interrupted hi) hidle rfl rfl, ?_, ?_⟩
        swap
        · refine hkeep (h := h) (fun g hg => Function.update_of_ne hg _ _) ?_ fun _ => rfl
          show (Function.update σ.harts h _ h).ssip = _
          rw [Function.update_self]
          rfl
        refine hupdate (x := trap (σ.harts h) h) ⟨?_, hx.tp, fun _ => ?_⟩
          (fun g hg => Function.update_of_ne hg _ _) (Function.update_self ..)
        · show wp _ (if (σ.harts h).stvec then _ else _) _ _
          split
          · exact wp_kernelvec (Nat.lt_of_lt_of_le hh hn) _ hcode
          · exact ⟨trivial, fun hn => absurd rfl hn⟩
        · exact sie_and_not_SIE _
      · next hi =>
        have hi' : (σ.harts h).interrupted = false := Bool.eq_false_iff.2 hi
        have hno : ∀ g, trapped g (σ, .hart h fail) = false := fun g =>
          Bool.eq_false_iff.2 fun hg => hi (trapped_hart.1 hg).2
        split at hs
        · next o k hc =>
          obtain ⟨hp, r, ha, hx', hm, hb⟩ := hx.exec hc hs
          exact ⟨_, .op hh hno (performed_eq hi' hc) hp ha rfl hm,
            hupdate hx' (fun g hg => exec_other hg hs) rfl,
            hkeep (fun g hg => exec_other hg hs) hb fun _ => rfl⟩
        · next hc =>
          cases hs
          refine ⟨ps, .still hno ?_ rfl rfl, hok, fun g => (Bool.or_false _).symm⟩
          show (State.next _ _).map _ = none
          unfold State.next
          rw [if_neg hi, hc]
          rfl
    · cases hs
  | compute h r pc =>
    dsimp only [machine, step] at hs
    split at hs
    · next hc =>
      cases hs
      refine ⟨ps, .still (fun _ => rfl) rfl rfl rfl, ?_, ?_⟩
      swap
      · refine hkeep (h := h) (fun g hg => Function.update_of_ne hg _ _) ?_ fun _ => rfl
        show (Function.update σ.harts h _ h).ssip = _
        rw [Function.update_self]
      have hx := hok h hc.1
      have := hupdate (x := { σ.harts h with regs := r, pc := pc })
        ⟨hx.code, hc.2.2.1.trans hx.tp, hx.sie⟩ (fun g hg => Function.update_of_ne hg _ _)
        (Function.update_self ..)
      rwa [Function.update_eq_self] at this
    · cases hs
  | timer h =>
    dsimp only [machine, step] at hs
    split at hs
    · next hh =>
      cases hs
      refine ⟨ps, .still (fun _ => rfl) rfl rfl rfl, ?_, fun g => ?_⟩
      swap
      · show (Function.update σ.harts h _ g).ssip = ((σ.harts g).ssip || (h == g))
        by_cases hgh : g = h
        · subst hgh
          rw [Function.update_self, beq_self_eq_true, Bool.or_true]
          simp [Hart.timerTrap]
        · rw [Function.update_of_ne hgh, beq_false_of_ne (Ne.symm hgh), Bool.or_false]
      have hx := hok h hh
      have := hupdate (x := (σ.harts h).timerTrap) ⟨hx.code, ?_, hx.sie⟩
        (fun g hg => Function.update_of_ne hg _ _) (Function.update_self ..)
      · rwa [Function.update_eq_self] at this
      · show (timer_vec _ _).2.1 .tp = _
        rw [timer_vec_regs]
        exact hx.tp
    · cases hs

/-! ## What a step does to one hart, and to one word -/

/-- What a step does to the phase of hart `h`. -/
inductive Turn (h : ℕ) (x : State × Event) (p p' : Phase) : Prop where
  | trap : trapped h x = true → performed x = none → p = .idle → p' = .trapped → Turn h x p p'
  | op {fail : Bool} {o : Op} {r : o.Ret} : trapped h x = false → performed x = some (h, o) →
      Pre h p o → Answer x.1 h fail o r → p' = p.after o r → Turn h x p p'
  | still : trapped h x = false → (∀ o, performed x ≠ some (h, o)) → p' = p → Turn h x p p'

section
variable {n : ℕ} {x : State × Event}

theorem Moved.turn (hm : Moved n x σ' ps ps') (h : ℕ) : Turn h x (ps h) (ps' h) := by
  cases hm with
  | @trap g _ ht hg hp hi hps _ =>
    rw [hps]
    by_cases hgh : h = g
    · subst hgh
      rw [Function.update_self]
      exact .trap ht hp hi rfl
    · rw [Function.update_of_ne hgh]
      exact .still (Bool.eq_false_iff.2 fun h' => hgh (hg h h')) (by rw [hp]; simp) rfl
  | @op g fail o r _ ht hp hpre ha hps _ =>
    rw [hps]
    by_cases hgh : h = g
    · subst hgh
      rw [Function.update_self]
      exact .op (ht h) hp hpre ha rfl
    · rw [Function.update_of_ne hgh]
      refine .still (ht h) (fun o' ho => ?_) rfl
      rw [hp] at ho
      cases ho
      exact hgh rfl
  | still ht hp hps _ =>
    rw [hps]
    exact .still (ht h) (by rw [hp]; simp) rfl

/-- The three globals. -/
def Global (l : Loc) : Prop := l = .gticks ∨ l = .time_data ∨ l = .time_mantissa_bit

theorem Global.writes {l : Loc} (hl : Global l) {ρ : Regs} {o : Op} {r : o.Ret} {y : l.Ty}
    (hw : Op.writes ρ o r = some ⟨l, y⟩) : o = .store l y := by
  refine writes_c hw ?_ ?_ ?_ ?_ <;> rcases hl with rfl | rfl | rfl <;> simp

/-- A global changes only in a store to it. -/
theorem Moved.global (hm : Moved n x σ' ps ps') {l : Loc} (hl : Global l) :
    (∃ g y, performed x = some (g, .store l y) ∧ Pre g (ps g) (.store l y) ∧ σ'.mem l = y) ∨
      ((∀ g y, performed x ≠ some (g, .store l y)) ∧ σ'.mem l = x.1.mem l) := by
  cases hm with
  | trap _ _ _ hp _ _ hm => exact Or.inr ⟨by rw [hp]; simp, by rw [hm]⟩
  | still _ hp _ hm => exact Or.inr ⟨by rw [hp]; simp, by rw [hm]⟩
  | @op g fail o r _ _ hp hpre _ _ hm =>
    by_cases ho : ∃ y, o = .store l y
    · obtain ⟨y, rfl⟩ := ho
      refine Or.inl ⟨g, y, hp, hpre, ?_⟩
      rw [hm]
      exact Mem.set_self _ _ _
    · refine Or.inr ⟨fun g' y hs => ?_, ?_⟩
      · rw [hp] at hs
        cases hs
        exact ho ⟨y, rfl⟩
      · rw [hm]
        exact written_of_ne fun y hw => ho ⟨y, hl.writes hw⟩

end

/-! ## Runs -/

/-- A run with the phases of its harts. -/
inductive PRun (cfg : Config) : Trace → State → (ℕ → Phase) → Prop where
  | start {σ : State} : Start cfg σ → PRun cfg [] σ fun _ => .clock_due
  | step {tr : Trace} {σ σ' : State} {ps ps' : ℕ → Phase} {e : Event} :
      PRun cfg tr σ ps → (∀ h < cfg.harts, HartOk h (σ.harts h) (ps h)) →
      Moved cfg.harts (σ, e) σ' ps ps' →
      (∀ h, (σ'.harts h).ssip = ((σ.harts h).ssip || fired h (σ, e))) →
      PRun cfg ((σ, e) :: tr) σ' ps'

theorem prun_of_run (hr : Run (machine cfg) tr σ) : ∃ ps, PRun cfg tr σ ps := by
  have h : ∃ ps, PRun cfg tr σ ps ∧ ∀ h < cfg.harts, HartOk h (σ.harts h) (ps h) := by
    induction hr with
    | @init σ hi =>
      refine ⟨_, .start hi, fun h hh => ?_⟩
      have hb := hi.harts h hh
      refine ⟨?_, hb.tp, fun _ => hb.sie⟩
      rw [hb.code]
      exact wp_kernel_main h
    | step _ hs ih =>
      obtain ⟨ps, hp, hok⟩ := ih
      obtain ⟨ps', hm, hok', hb⟩ := moved cfg.harts_le hok hs
      exact ⟨ps', hp.step hok hm hb, hok'⟩
  obtain ⟨ps, hp, _⟩ := h
  exact ⟨ps, hp⟩

theorem HartOk.pre_next {p : Phase} {o : Op} (hx : HartOk h (σ.harts h) p)
    (hn : σ.next h = some o) : Pre h p o := by
  obtain ⟨_, k, hc⟩ := next_some hn
  have hcode := hx.code
  rw [hc] at hcode
  exact hcode.1

/-! ## What hart 0 has read, and what it has done -/

theorem after_gticks_read {p : Phase} {o : Op} {r : o.Ret} {g : U64}
    (hg : p.after o r = .gticks_read g) (hl : o ≠ .load .gticks) : p = .gticks_read g := by
  unfold Phase.after at hg
  split at hg
  · exact absurd rfl hl
  · cases hg
  · split at hg <;> cases hg
  · split at hg <;> cases hg
  · split at hg
    · cases hg
    · cases hg
    · exact hg
  · cases hg
  · split at hg
    · cases hg
    · exact hg
  · cases hg
  · cases hg
  · cases hg
  · exact hg

/-- Nobody else counts ticks. -/
theorem PRun.gticks_read (hg : PRun cfg tr σ ps) {g : U64} (hp : ps 0 = .gticks_read g) :
    σ.mem .gticks = g := by
  induction hg with
  | start hi => cases hp
  | @step tr σ σ' ps ps' e hg _ hm _ ih =>
    obtain ⟨c, y, hs, ⟨hc, _⟩, _⟩ | ⟨hno, hmem⟩ := hm.global (Or.inl rfl)
    · subst hc
      cases hm.turn 0 with
      | trap _ hn _ _ =>
        rw [hn] at hs
        cases hs
      | op _ ho _ _ hp' =>
        rw [ho] at hs
        cases hs
        rw [hp'] at hp
        cases hp
      | still _ hn _ => exact absurd hs (hn _)
    · rw [hmem]
      cases hm.turn 0 with
      | trap _ _ _ hp' =>
        rw [hp'] at hp
        cases hp
      | @op fail o r _ _ _ ha hp' =>
        rw [hp'] at hp
        by_cases ho : o = .load .gticks
        · subst ho
          obtain rfl : r = g := by
            cases hp
            rfl
          exact ha.symm
        · exact ih (after_gticks_read hp ho)
      | still _ _ hp' => exact ih (hp'.symm.trans hp)

/-- Hart 0 finds the number of bits set from its own store on. -/
theorem PRun.mantissa_bit (hg : PRun cfg tr σ ps) (hb : ¬ (ps 0 = .clock_due ∨ ps 0 = .bit_due)) :
    (σ.mem .time_mantissa_bit : BitVec 8) = 32 := by
  induction hg with
  | start hi => exact absurd (Or.inl rfl) hb
  | @step tr σ σ' ps ps' e hg _ hm _ ih =>
    obtain ⟨c, y, _, ⟨_, hy⟩, hmem⟩ | ⟨hno, hmem⟩ := hm.global (Or.inr (Or.inr rfl))
    · rw [hmem]
      exact hy
    · rw [hmem]
      refine ih fun hboot => hb ?_
      cases hm.turn 0 with
      | trap _ _ hi _ =>
        rw [hi] at hboot
        rcases hboot with h | h <;> cases h
      | op _ ho hpre _ hp' =>
        rw [hp']
        rcases after_boot hpre hboot with h | h
        · exact h
        · rw [h] at ho
          exact absurd ho (hno _ _)
      | still _ _ hp' =>
        rw [hp']
        exact hboot

end GQuuuuuunix.TimerInterrupt
