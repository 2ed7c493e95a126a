import GQuuuuuunix.Proof.Invariant

/-! # Simple operations keep the invariant -/

namespace GQuuuuuunix.Proof
open Lib Kernel
set_option autoImplicit false

variable {cfg : Config} {σ σ' : State} {vs : ℕ → View} {v : View}

/-! ## The word an operation writes -/

theorem keeps_of_owns {l : Loc} {x : l.Ty} (hp : StorePre l x v)
    (ho : v.k.Owns cfg.layout l) : v.k.keeps l = true := by
  cases l with
  | cpu_context c i => exact hp.elim
  | stack a => exact hp.elim
  | gticks => rfl
  | time_data => rfl
  | context p i =>
    have hb : v.k.stage = .boot := hp
    simp [Ghost.keeps, hb, Loc.boot]
  | _ => simp [Ghost.keeps, ho.1, ho.2]

theorem own_store {l : Loc} {x : l.Ty} :
    (v.m.after v.k v.regs (.store l x)).mem =
      if v.k.keeps l then v.m.mem.set l x else v.m.mem := by
  show (if v.k.keeps l then { v.m with mem := v.m.mem.set l x } else v.m).mem = _
  split <;> rfl

theorem not_owned {l : Loc} (hl : Loc.boot l = false) (hc : ∀ c i, l ≠ .cpu_context c i)
    (hst : ∀ a, l ≠ .stack a) (hg : l ≠ .gticks ∧ l ≠ .time_data) (k : Ghost) :
    ¬ k.Owns cfg.layout l := by
  cases l with
  | cpu_context c i => exact absurd rfl (hc c i)
  | stack a => exact absurd rfl (hst a)
  | gticks => exact absurd rfl hg.1
  | time_data => exact absurd rfl hg.2
  | context p i => cases hl
  | _ => exact fun ho => Bool.noConfusion (ho.2.symm.trans hl)

theorem boot_of_owns {l : Loc} (hl : Loc.boot l = true) (hc : ∀ p i, l ≠ .context p i)
    {k : Ghost} (ho : k.Owns cfg.layout l) : k.stage = .boot := by
  cases l with
  | cpu_context c i => cases hl
  | stack a => cases hl
  | gticks => cases hl
  | time_data => cases hl
  | context p i => exact absurd rfl (hc p i)
  | _ => exact ho.1

theorem store_foreign (hok : v.Ok cfg) {l : Loc} {x : l.Ty} (hp : StorePre l x v)
    (ho : ¬ v.k.Owns cfg.layout l) :
    v.k.keeps l = false ∧
      ∀ k' : Ghost, k'.Owns cfg.layout l → k'.stage = .boot ∧ v.k.stage = .opened := by
  have hnot : Loc.boot l = false → (∀ c i, l ≠ .cpu_context c i) → (∀ a, l ≠ .stack a) →
      l ≠ .gticks ∧ l ≠ .time_data → v.k.keeps l = false ∧
      ∀ k' : Ghost, k'.Owns cfg.layout l → k'.stage = .boot ∧ v.k.stage = .opened := by
    intro hl h1 h2 h3
    refine ⟨?_, fun k' hk' => absurd hk' (not_owned hl h1 h2 h3 k')⟩
    cases l <;> simp_all [Ghost.keeps, Loc.boot]
  have hheld : ∀ t, v.k.held = some t → Loc.boot l = true → (∀ p i, l ≠ .context p i) →
      l ≠ .gticks ∧ l ≠ .time_data → v.k.keeps l = false ∧
      ∀ k' : Ghost, k'.Owns cfg.layout l → k'.stage = .boot ∧ v.k.stage = .opened := by
    intro t ht hl hc hg
    have hst := hok.held_opened t ht
    refine ⟨?_, fun k' hk' => ⟨boot_of_owns hl hc hk', hst⟩⟩
    cases l <;> simp_all [Ghost.keeps, Loc.boot]
  cases l with
  | off_nrs c => exact hnot rfl (by simp) (by simp) (by simp)
  | intr_ena_before c => exact hnot rfl (by simp) (by simp) (by simp)
  | cpu_task c => exact hnot rfl (by simp) (by simp) (by simp)
  | cell c =>
    cases c with
    | start => exact hnot rfl (by simp) (by simp) (by simp)
    | isLocked p => exact absurd ⟨hp, rfl⟩ ho
  | lk_cpu p =>
    obtain ⟨hb, _⟩ | ⟨t, _, hh, _⟩ := hp
    · exact absurd ⟨hb, rfl⟩ ho
    · exact hheld t hh rfl (by simp) (by simp)
  | state p =>
    obtain hb | ⟨t, _, hh, _⟩ := hp
    · exact absurd ⟨hb, rfl⟩ ho
    · exact hheld t hh rfl (by simp) (by simp)
  | cpu_context c i => exact hp.elim
  | stack a => exact hp.elim
  | context p i =>
    cases p with
    | static j => exact absurd ⟨hp, rfl⟩ ho
    | gTasks t => exact absurd (Or.inr hp) ho
  | gticks => exact absurd hp.1 ho
  | time_data =>
    obtain ⟨hb, _⟩ | ⟨h0, _⟩ := hp
    · exact absurd (hok.boot_hart hb) ho
    · exact absurd h0 ho
  | _ => exact absurd ⟨hp, rfl⟩ ho

/-- A word is written in the hart's own memory, or nobody but hart 0 ever owned it, and the barrier
is open. -/
theorem writes_cases (hok : v.Ok cfg) {o : Op} (hp : Pre cfg o v) {r : o.Ret} {l : Loc} {x : l.Ty}
    (hw : Op.writes v.regs o r = some ⟨l, x⟩) :
    (v.k.Owns cfg.layout l ∧ (v.m.after v.k v.regs o).mem = v.m.mem.set l x) ∨
    ((v.m.after v.k v.regs o).mem = v.m.mem ∧
      ∀ k' : Ghost, k'.Owns cfg.layout l → k'.stage = .boot ∧ v.k.stage = .opened) := by
  have hcell : ∀ c : Cell, (v.k.stage = .opened ∨ c = .start) → ∀ k' : Ghost,
      k'.Owns cfg.layout (.cell c) → k'.stage = .boot ∧ v.k.stage = .opened := by
    rintro c (hc | rfl) k' hk'
    · exact ⟨hk'.1, hc⟩
    · cases hk'.2
  cases o with
  | store l' x' =>
    cases hw
    rw [own_store]
    by_cases ho : v.k.Owns cfg.layout l
    · rw [if_pos (keeps_of_owns hp ho)]
      exact Or.inl ⟨ho, rfl⟩
    · obtain ⟨hk, hf⟩ := store_foreign hok hp ho
      rw [if_neg (by simp [hk])]
      exact Or.inr ⟨rfl, hf⟩
  | amoswap c y =>
    cases hw
    obtain ⟨t, rfl, _, ht⟩ := hp
    exact Or.inr ⟨rfl, hcell _ (Or.inl ht.stage)⟩
  | sc c y =>
    have hw' : (if r = (0 : I32) then some (⟨.cell c, y⟩ : Σ l : Loc, l.Ty) else none) =
      some ⟨l, x⟩ := hw
    split at hw'
    · cases hw'
      refine Or.inr ⟨rfl, hcell _ ?_⟩
      obtain ⟨t, _, _, hc⟩ | ⟨rfl, _⟩ := hp
      · exact Or.inl (hok.held_opened t hc.held)
      · exact Or.inr rfl
    · cases hw'
  | sd y off =>
    cases hw
    exact Or.inl ⟨hp.2.2, rfl⟩
  | sd_ctx p y i =>
    obtain ⟨s, e, t, ρ, hk, rfl⟩ := hp
    cases s with
    | sched =>
      cases hw
      have hrun : v.k.run = some t := by rw [hk]; rfl
      exact Or.inl ⟨Or.inl hrun, rfl⟩
    | scheduler =>
      cases hw
      exact Or.inl ⟨rfl, rfl⟩
  | _ => cases hw

/-- An operation that writes nothing leaves the hart's own memory as it is. -/
theorem own_mem_of_none {o : Op} {r : o.Ret} (hw : Op.writes v.regs o r = none) :
    (v.m.after v.k v.regs o).mem = v.m.mem := by
  cases o with
  | store l x => cases hw
  | sd y off => cases hw
  | sd_ctx p y i => cases p <;> cases hw
  | _ => rfl

/-! ## The answer -/

section
variable {h : ℕ}

theorem Inv.load_known (hI : Inv cfg σ vs) (hh : h < cfg.harts) (l : Loc) :
    LoadKnown l (vs h).k (σ.mem l) := by
  have hx := (hI.hart h hh).hart
  have hcpu := hI.cpu h hh
  have htab : (vs h).k.stage = .opened → Table cfg σ.mem fun h => (vs h).k := fun ho =>
    hI.table (hI.opened h hh ho)
  cases l with
  | off_nrs c =>
    rintro rfl
    exact hcpu.off_nrs
  | intr_ena_before c =>
    rintro rfl
    exact hcpu.intr_ena_before
  | cpu_task c =>
    rintro rfl
    exact hcpu.cpu_task
  | state p =>
    cases p with
    | static j => trivial
    | gTasks t =>
      exact fun hrun => (((htab ((hI.ok h hh).run_opened t hrun)).state t).running h hh hrun).1
  | cell c =>
    cases c with
    | start => trivial
    | isLocked p =>
      cases p with
      | static j => trivial
      | gTasks t =>
        exact fun hheld => ((htab ((hI.ok h hh).held_opened t hheld)).lock t).held h hh hheld
  | lk_cpu p =>
    cases p with
    | static j => trivial
    | gTasks t =>
      intro ho
      rw [hx, ((htab ho).lock t).lk_cpu h]
      exact and_iff_right hh
  | lk_acquire p => cases p with
    | static j => trivial
    | gTasks t => exact fun ho => ((htab ho).lock t).acquire
  | lk_release p => cases p with
    | static j => trivial
    | gTasks t => exact fun ho => ((htab ho).lock t).release
  | lk_is_holding p => cases p with
    | static j => trivial
    | gTasks t => exact fun ho => ((htab ho).lock t).is_holding
  | _ => trivial

theorem Inv.load_ans (hI : Inv cfg σ vs) (hh : h < cfg.harts) (l : Loc) :
    LoadAns cfg.layout l (vs h) (σ.mem l) :=
  ⟨hI.load_known hh l, hI.owned h hh l⟩

theorem Inv.ans (hI : Inv cfg σ vs) (hh : h < cfg.harts) {o : Op} {r : o.Ret} {fail : Bool}
    (ha : Answer σ h fail o r) : Ans cfg.layout o (vs h) r := by
  have hx := hI.hart h hh
  cases o with
  | load l =>
    rw [show r = σ.mem l from ha]
    exact hI.load_ans hh l
  | r_tp => exact (show r = _ from ha).trans (by rw [hx.regs]; exact (hI.ok h hh).tp)
  | r_sstatus => exact (show r = _ from ha).trans hx.sstatus
  | r_sepc => exact (show r = _ from ha).trans hx.sepc
  | r_scause => exact (show r = _ from ha).trans hx.scause
  | call_c => exact (show r = _ from ha).trans hx.regs
  | _ => trivial

end

/-! ## The view after it -/

theorem Ghost.Owns.mono {L : Layout} {k k' : Ghost} (hh : k'.hart = k.hart) (hs : k'.stk = k.stk)
    (hr : ∀ t, k'.run = some t → k.run = some t) (hb : k'.stage = .boot → k.stage = .boot)
    {l : Loc} (ho : k'.Owns L l) : k.Owns L l := by
  cases l with
  | cpu_context c i => exact (show c = k'.hart from ho).trans hh
  | stack a => exact (show L.stackOf a = some k'.stk from ho).trans (by rw [hs])
  | gticks => exact hh.symm.trans ho
  | time_data => exact hh.symm.trans ho
  | context p i =>
    cases p with
    | static j => exact ⟨hb ho.1, ho.2⟩
    | gTasks t => exact ho.imp (hr t) hb
  | _ => exact ⟨hb ho.1, ho.2⟩

theorem Ghost.after_boot {k : Ghost} {o : Op} {r : o.Ret} (hb : (k.after o r).stage = .boot) :
    k.stage = .boot := by
  rcases k.after_stage o r with h | h
  · rwa [← h]
  · rw [hb] at h
    cases h

/-- The view `w` that hart `h` goes on with after it performed `o`. -/
structure Goes (cfg : Config) (σ' : State) (o : Op) (r : o.Ret) (v w : View) : Prop where
  post : Post cfg o v r w
  ok : w.Ok cfg
  k : w.k = v.k.after o r
  regs : w.regs = (v.after o r).regs
  pc : w.pc = (v.after o r).pc
  sstatus : w.m.sstatus = (v.after o r).m.sstatus
  sepc : w.m.sepc = (v.after o r).m.sepc
  scause : w.m.scause = (v.after o r).m.scause
  owned : ∀ l, w.k.Owns cfg.layout l → σ'.mem l = w.m.mem l

section
variable {h : ℕ} {o : Op} {r : o.Ret} {fail : Bool} {c : Code}

/-- Memory after an operation, where it is still the hart's own. -/
theorem owned_after (hok : v.Ok cfg) (hown : ∀ l, v.k.Owns cfg.layout l → σ.mem l = v.m.mem l)
    (hp : Pre cfg o v) {l : Loc} (ho : v.k.Owns cfg.layout l) :
    written σ.mem (Op.writes v.regs o r) l = (v.m.after v.k v.regs o).mem l := by
  cases hw : Op.writes v.regs o r with
  | none =>
    rw [own_mem_of_none hw]
    exact hown l ho
  | some w =>
    obtain ⟨l', x⟩ := w
    show σ.mem.set l' x l = _
    rcases writes_cases hok hp hw with ⟨_, hm⟩ | ⟨hm, hf⟩
    · rw [hm]
      by_cases hl : l = l'
      · subst hl
        rw [Mem.set_self, Mem.set_self]
      · rw [Mem.set_ne _ _ hl, Mem.set_ne _ _ hl]
        exact hown l ho
    · have hl : l ≠ l' := by
        rintro rfl
        obtain ⟨hb, hop⟩ := hf v.k ho
        rw [hb] at hop
        cases hop
      rw [hm, Mem.set_ne _ _ hl]
      exact hown l ho

theorem Inv.goes_plain (hI : Inv cfg σ vs) (hh : h < cfg.harts) (hpl : Op.plain o = true)
    (hsret : ∀ s, o ≠ .sret s) (hp : Pre cfg o (vs h)) (hx : Performed σ h fail o r c σ') :
    Goes cfg σ' o r (vs h) ((vs h).after o r) := by
  have hok := hI.ok h hh
  refine ⟨(post_plain hpl).2 ⟨hI.ans hh hx.answer, rfl⟩, hok.after hp hpl r, rfl, rfl, rfl, rfl,
    rfl, rfl, fun l ho => ?_⟩
  have hl : ∀ p, o ≠ .load (.state p) := by
    rintro p rfl
    cases hpl
  have hn := Ghost.near_after hp hl hsret r
  rw [hx.mem, (hI.hart h hh).regs]
  exact owned_after hok (hI.owned h hh) hp
    (ho.mono hn.hart hn.stk hn.run Ghost.after_boot)

theorem Inv.goes_sret (hI : Inv cfg σ vs) (hh : h < cfg.harts) {s : Snapshot}
    (hp : Pre cfg (.sret s) (vs h)) (hx : Performed σ h fail (.sret s) () c σ') :
    Goes cfg σ' (.sret s) () (vs h) ((vs h).after (.sret s) ()) := by
  refine ⟨(post_plain rfl).2 ⟨trivial, rfl⟩, (hI.ok h hh).sret hp, rfl, rfl, rfl, rfl, rfl, rfl,
    fun l ho => ?_⟩
  rw [hx.mem]
  exact hI.owned h hh l (ho.mono rfl rfl (fun _ ht => ht) fun hb => hb)

end

/-! ## Finding a task to run -/

theorem stackTop_row (L : Layout) (t : Slot) {j : ℕ} (hj : j ≤ 256) :
    (L.stackTop t - BitVec.ofNat 64 j - 1 - L.task_stack).toNat / STACK_SIZE = t := by
  have ht : (t : ℕ) < 64 := t.isLt
  have h : (L.stackTop t - BitVec.ofNat 64 j - 1 - L.task_stack).toNat =
      4096 * t + (4095 - j) := by
    unfold Layout.stackTop STACK_SIZE
    bv_omega
  rw [h, STACK_SIZE]
  omega

theorem stackOf_stackTop (L : Layout) (t : Slot) {j : ℕ} (hj : j ≤ 256) :
    L.stackOf (L.stackTop t - BitVec.ofNat 64 j) = some (.task t) := by
  unfold Layout.stackOf rowOf
  simp only [stackTop_row L t hj, if_pos t.isLt, Fin.ofNat_eq_cast, Fin.cast_val_eq_self]

theorem roomy_stackTop (L : Layout) (t : Slot) : L.Roomy (L.stackTop t) := by
  intro j hj
  have h0 := stackOf_stackTop L t (Nat.zero_le 256)
  rw [show BitVec.ofNat 64 0 = 0#64 from rfl, BitVec.sub_zero] at h0
  rw [h0]
  exact stackOf_stackTop L t (by simp at hj; omega)

section
variable {h : ℕ} {t : Slot}

theorem Inv.stk_run (hI : Inv cfg σ vs) (hh : h < cfg.harts) (hs : (vs h).k.stk = .task t) :
    (vs h).k.run = some t :=
  ((hI.ok h hh).stk_task t hs).1

/-- A task that a hart has locked and finds RUNNABLE is in nobody's hands. -/
theorem Inv.nobody_runs (hI : Inv cfg σ vs) (hh : h < cfg.harts) (hheld : (vs h).k.held = some t)
    (hrun : (vs h).k.run = none) (hst : σ.mem (.state (.gTasks t)) = TaskState.RUNNABLE) :
    ∀ h' < cfg.harts, (vs h').k.run ≠ some t := by
  intro h' hh' hr
  have hop := hI.opened h hh ((hI.ok h hh).held_opened t hheld)
  have hstate := (((hI.table hop).state t).running h' hh' hr).1
  rcases (hI.ok h' hh').run_st t hr with ⟨_, hheld'⟩ | hrunning
  · obtain rfl := hI.held_inj h hh h' hh' t hheld hheld'
    rw [hrun] at hr
    cases hr
  · rw [hst] at hstate
    rw [← show TaskState.RUNNABLE = (vs h').k.st from hstate] at hrunning
    cases hrunning

theorem Inv.idle_context (hI : Inv cfg σ vs) (hop : (vs 0).k.stage = .opened)
    (hn : ∀ h' < cfg.harts, (vs h').k.run ≠ some t)
    (hst : σ.mem (.state (.gTasks t)) = TaskState.RUNNABLE) :
    cfg.layout.stackOf (σ.mem (.context (.gTasks t) 1)) = some (.task t) := by
  have hlt : (t : ℕ) < cfg.pids.length := by
    by_contra hge
    have hidle := ((hI.table hop).state t).idle hn
    rw [hst, if_neg hge] at hidle
    cases hidle
  rcases (hI.contexts hop).task t hlt fun h' hh' hs => hn h' hh' (hI.stk_run hh' hs) with
    hinit | ⟨h', v, c, hc, hrun, hstk, _⟩
  · rw [hinit 1]
    have h0 := stackOf_stackTop cfg.layout t (Nat.zero_le 256)
    rwa [show BitVec.ofNat 64 0 = 0#64 from rfl, BitVec.sub_zero] at h0
  · rw [hc.stack, hstk]
    rfl

theorem run_of_load {k : Ghost} {p : TaskPtr} {r : TaskState} (hrun : k.run = none)
    (ht : (k.after (.load (.state p)) r).run = some t) :
    p = .gTasks t ∧ k.held = some t ∧ r = .RUNNABLE := by
  cases p with
  | static j => exact absurd (show k.run = some t from ht) (by simp [hrun])
  | gTasks t' =>
    have ht' : (if k.held = some t' ∧ k.run = none then
      if r = TaskState.RUNNABLE then k.claim t' else k.setScan (t' + 1) else k).run = some t := ht
    split at ht'
    · next hheld =>
      split at ht'
      · next hr =>
        cases ht'
        exact ⟨rfl, hheld.1, hr⟩
      · exact absurd (show k.run = some t from ht') (by simp [hrun])
    · exact absurd ht' (by simp [hrun])

theorem trap_of_load (k : Ghost) (p : TaskPtr) (r : TaskState) :
    (k.after (.load (.state p)) r).trap = k.trap := by
  cases p with
  | static j => rfl
  | gTasks t' =>
    show (if k.held = some t' ∧ k.run = none then
      if r = TaskState.RUNNABLE then k.claim t' else k.setScan (t' + 1) else k).trap = k.trap
    split
    · split <;> rfl
    · rfl

/-- A hart without a task learns the memory of the one it finds. -/
theorem View.Ok.learn (hok : v.Ok cfg) {p : TaskPtr} {r : TaskState} {μ : Mem}
    (hk : (v.k.after (.load (.state p)) r).Ok cfg.harts) (hrun : v.k.run = none)
    (hsp : ∀ t, (v.k.after (.load (.state p)) r).run = some t →
      cfg.layout.stackOf (μ (.context (.gTasks t) 1)) = some (.task t)) :
    ({ v with k := v.k.after (.load (.state p)) r, m := { v.m with mem := μ } } : View).Ok cfg := by
  have hhart := v.k.after_hart (.load (.state p)) r
  have hstk := v.k.after_stk (.load (.state p)) r
  have hsw := v.k.after_sw (.load (.state p)) r
  have hsie : (v.k.after (.load (.state p)) r).sie = v.k.sie :=
    Ghost.after_sie (o := .load (.state p)) (by simp) (by simp) r
  refine { hk with tp := ?_, sie_eq := hok.sie_eq.trans hsie.symm, sp := ?_, sp_run := ?_,
                   roomy := ?_, sched_sp := ?_, task_sp := fun t _ ht _ => hsp t ht }
  · rw [hhart]
    exact hok.tp
  · rw [hsw, hstk]
    exact hok.sp
  · intro t ht
    have hr := hok.sp_run t ht
    rw [hrun] at hr
    cases hr
  · rw [hsw, trap_of_load]
    exact hok.roomy
  · rw [hstk, hok.stk_hart_of_run hrun]
    exact fun t ht => (by cases ht)

theorem Inv.goes_load_state (hI : Inv cfg σ vs) (hh : h < cfg.harts) {p : TaskPtr}
    {r : TaskState} {fail : Bool} {c : Code}
    (hx : Performed σ h fail (.load (.state p)) r c σ') :
    ∃ w, Goes cfg σ' (.load (.state p)) r (vs h) w := by
  have hok := hI.ok h hh
  have hr : r = σ.mem (.state p) := hx.answer
  have hmem : σ'.mem = σ.mem := hx.mem
  have hans : LoadAns cfg.layout (.state p) (vs h) r := by
    rw [hr]
    exact hI.load_ans hh (.state p)
  have hk := hok.toOk.load (.state p) r
  by_cases hnew : (vs h).k.held = none ∨ (vs h).k.run ≠ none
  · have hsame : (vs h).k.after (.load (.state p)) r = (vs h).k := by
      cases p with
      | static j => rfl
      | gTasks t =>
        refine if_neg fun hc => ?_
        rcases hnew with hnew | hnew
        · rw [hc.1] at hnew
          cases hnew
        · exact hnew hc.2
    refine ⟨vs h, ⟨⟨hans, (vs h).m.mem, fun _ => rfl, ?_⟩, hok, hsame.symm, rfl, rfl, rfl, rfl,
      rfl, fun l ho => ?_⟩⟩
    · rw [hsame]
    · rw [hmem]
      exact hI.owned h hh l ho
  · rw [not_or, not_not] at hnew
    obtain ⟨hheld, hrun⟩ := hnew
    have hstk := hok.stk_hart_of_run hrun
    refine ⟨{ vs h with k := (vs h).k.after (.load (.state p)) r,
                        m := { (vs h).m with mem := σ.mem } },
      ⟨⟨hans, σ.mem, fun hn => ?_, rfl⟩, ?_, rfl, rfl, rfl, rfl, rfl, rfl, fun l _ => ?_⟩⟩
    · rcases hn with hn | hn
      · exact absurd hn hheld
      · exact absurd hrun hn
    · refine hok.learn hk hrun (fun t ht => ?_)
      obtain ⟨rfl, hheld', hr'⟩ := run_of_load hrun ht
      rw [hr] at hr'
      exact hI.idle_context (hI.opened h hh (hok.held_opened t hheld'))
        (hI.nobody_runs hh hheld' hrun hr') hr'
    · rw [hmem]

end

end GQuuuuuunix.Proof
