import GQuuuuuunix.Proof.Trap

/-! # kernelvec and switch_to, instruction by instruction -/

namespace GQuuuuuunix.Proof
open Lib Kernel
set_option autoImplicit false

variable {cfg : Config} {v : View}

theorem wp_asm {o : Op} {Q : o.Ret → View → Prop} (ho : o.isAsm = true)
    (hpl : Op.plain o = true) (hp : v.Ok cfg → Pre cfg o v)
    (h : ∀ r, Ans cfg.layout o v r → (v.after o r).Ok cfg → Q r (v.after o r)) :
    wp (rules cfg) (one o) Q v := by
  intro v' hi hok
  rw [ho, if_pos rfl] at hi
  subst hi
  refine ⟨hp hok, fun r w hw hwok => ?_⟩
  obtain ⟨ha, rfl⟩ := (post_plain hpl).1 hw
  exact h r ha hwok

/-! ## The frame of kernelvec -/

theorem frame_addr (sp : U64) {off : ℕ} (h : off ≤ 256) :
    sp + BitVec.ofInt 64 (-256) + BitVec.ofNat 64 off = sp - BitVec.ofNat 64 (256 - off) := by
  have h256 : BitVec.ofInt 64 (-256) = 0#64 - 256#64 := by decide
  rw [h256]
  bv_omega

theorem frame_stack {L : Layout} {sp : U64} {stk : StackId} (hr : L.Roomy sp)
    (hsp : L.stackOf sp = some stk) {off : ℕ} (h : off ≤ 256) :
    L.stackOf (sp + BitVec.ofInt 64 (-256) + BitVec.ofNat 64 off) = some stk := by
  rw [frame_addr sp h, hr (256 - off) (by simp; omega), hsp]

theorem offset_inj {sp : U64} {a b : ℕ} (ha : a ≤ 256) (hb : b ≤ 256)
    (h : sp + BitVec.ofNat 64 a = sp + BitVec.ofNat 64 b) : a = b := by
  bv_omega

theorem saves_off : ∀ x ∈ kernelvec_saves, x.2 ≤ 256 := by decide

theorem saves_nodup : (kernelvec_saves.map Prod.snd).Nodup := by decide

theorem loads_saved : ∀ x ∈ kernelvec_loads, x ∈ kernelvec_saves := by decide

theorem loads_tp : ∀ x ∈ kernelvec_loads, x.1 ≠ .tp := by decide

theorem loads_all : ∀ r, r ≠ .tp → ∃ off, (r, off) ∈ kernelvec_loads := by
  intro r hr
  have h : ∀ r ∈ Reg.all, r ≠ .tp → r ∈ kernelvec_loads.map Prod.fst := by decide
  obtain ⟨⟨r', off⟩, hx, rfl⟩ := List.mem_map.1 (h r r.mem_all hr)
  exact ⟨off, hx⟩

/-- The frame at `sp` holds the registers `ρ`. -/
def Frame (mem : Mem) (sp : U64) (ρ : Regs) (xs : List (Reg × ℕ)) : Prop :=
  ∀ x ∈ xs, mem (.stack (sp + BitVec.ofNat 64 x.2)) = ρ x.1

theorem Frame.sd {mem : Mem} {sp : U64} {ρ : Regs} {done rest : List (Reg × ℕ)} {x : Reg × ℕ}
    (hf : Frame mem sp ρ done) (hx : done ++ x :: rest = kernelvec_saves) :
    Frame (mem.set (.stack (sp + BitVec.ofNat 64 x.2)) (ρ x.1)) sp ρ (done ++ [x]) := by
  intro y hy
  rcases List.mem_append.1 hy with hy | hy
  · have hne : Loc.stack (sp + BitVec.ofNat 64 y.2) ≠ .stack (sp + BitVec.ofNat 64 x.2) := by
      intro h
      have hyx : y.2 = x.2 := offset_inj (saves_off y (by rw [← hx]; simp [hy]))
        (saves_off x (by rw [← hx]; simp)) (Loc.stack.inj h)
      have hnd := saves_nodup
      rw [← hx, List.map_append, List.map_cons, List.nodup_append] at hnd
      exact hnd.2.2 y.2 (List.mem_map_of_mem hy) x.2 (by simp) hyx
    rw [Mem.set_ne _ _ hne]
    exact hf y hy
  · rw [List.mem_singleton.1 hy]
    exact Mem.set_self _ (.stack _) _

theorem wp_saves {ρ : Regs} (hs : v.k.sie = false) (hsw : v.k.sw = none) (hρ : v.regs = ρ)
    (hstk : ∀ x ∈ kernelvec_saves,
      cfg.layout.stackOf (ρ .sp + BitVec.ofNat 64 x.2) = some v.k.stk)
    {Q : Unit → View → Prop}
    (hQ : ∀ μ, Frame μ (ρ .sp) ρ kernelvec_saves → Q () { v with m := { v.m with mem := μ } }) :
    wp (rules cfg) (Prog.each (fun x => one (.sd x.1 x.2)) kernelvec_saves) Q v := by
  refine wp_each (rules_mono cfg) (fun xs w => ∃ done μ, done ++ xs = kernelvec_saves ∧
    Frame μ (ρ .sp) ρ done ∧ w = { v with m := { v.m with mem := μ } }) ?_ ?_ _ _
    ⟨[], v.m.mem, rfl, fun _ h => (by cases h), rfl⟩
  · rintro x xs w ⟨done, μ, hx, hf, rfl⟩
    have hmem : x ∈ kernelvec_saves := by rw [← hx]; simp
    refine wp_asm rfl rfl (fun _ => ⟨hs, hsw, ?_⟩) fun r _ _ => ?_
    · show cfg.layout.stackOf (v.regs .sp + BitVec.ofNat 64 x.2) = some v.k.stk
      rw [hρ]
      exact hstk x hmem
    · refine ⟨done ++ [x], _, by simp [← hx], hf.sd hx, ?_⟩
      rw [← hρ]
      rfl
  · rintro w ⟨done, μ, hx, hf, rfl⟩
    rw [List.append_nil] at hx
    rw [hx] at hf
    exact hQ μ hf

theorem wp_loads {ρ : Regs} {sp : U64} (hs : v.k.sie = false) (hsw : v.k.sw = none)
    (ht : v.k.trap ≠ .idle) (hsp : v.regs .sp = sp) (hρ : ρ .sp = sp)
    (hstk : cfg.layout.stackOf sp = some v.k.stk)
    (haddr : ∀ x ∈ kernelvec_saves, cfg.layout.stackOf (sp + BitVec.ofNat 64 x.2) = some v.k.stk)
    (hf : Frame v.m.mem sp ρ kernelvec_saves) {Q : Unit → View → Prop}
    (hQ : ∀ r : Regs, (∀ x, x ≠ .tp → r x = ρ x) → Q () { v with regs := r }) :
    wp (rules cfg) (Prog.each (fun x => one (.ld x.1 x.2)) kernelvec_loads) Q v := by
  refine wp_each (rules_mono cfg) (fun xs w => ∃ done r, done ++ xs = kernelvec_loads ∧
    (∀ x ∈ done, r x.1 = ρ x.1) ∧ r .sp = sp ∧ w = { v with regs := r }) ?_ ?_ _ _
    ⟨[], v.regs, rfl, fun _ h => (by cases h), hsp, rfl⟩
  · rintro x xs w ⟨done, r, hx, hr, hrsp, rfl⟩
    have hmem : x ∈ kernelvec_loads := by rw [← hx]; simp
    have hval : v.m.mem (.stack (r .sp + BitVec.ofNat 64 x.2)) = ρ x.1 := by
      rw [hrsp]
      exact hf x (loads_saved x hmem)
    refine wp_asm rfl rfl (fun _ => ⟨hs, hsw, ht, loads_tp x hmem, ?_, fun h => ?_⟩) fun u _ _ => ?_
    · show cfg.layout.stackOf (r .sp + BitVec.ofNat 64 x.2) = some v.k.stk
      rw [hrsp]
      exact haddr x (loads_saved x hmem)
    · show cfg.layout.stackOf (v.m.mem (.stack (r .sp + BitVec.ofNat 64 x.2))) = some v.k.stk
      rw [hval, h, hρ]
      exact hstk
    · refine ⟨done ++ [x], Function.update r x.1 (ρ x.1), by simp [← hx], ?_, ?_, ?_⟩
      · intro y hy
        by_cases hyx : y.1 = x.1
        · rw [hyx, Function.update_self]
        · rw [Function.update_of_ne hyx]
          rcases List.mem_append.1 hy with hy | hy
          · exact hr y hy
          · exact absurd (by rw [List.mem_singleton.1 hy]) hyx
      · by_cases hsx : Reg.sp = x.1
        · rw [← hsx, Function.update_self, hρ]
        · rw [Function.update_of_ne hsx, hrsp]
      · show View.after _ _ _ = _
        rw [← hval]
        rfl
  · rintro w ⟨done, r, hx, hr, _, rfl⟩
    rw [List.append_nil] at hx
    refine hQ r fun x hxtp => ?_
    obtain ⟨off, ho⟩ := loads_all x hxtp
    exact hr (x, off) (by rw [hx]; exact ho)

/-! ## kernelvec -/

/-- A compiled function, run with the view `v`. -/
theorem wp_does {α : Type} {p : KProg α} {P : α → Ghost → Own → Prop} {Q : α → View → Prop}
    (hp : Does cfg p v.k v.m P) (h : ∀ a w, P a w.k w.m → Q a w) : wp (rules cfg) p Q v :=
  wp_mono (rules_mono cfg) h (hp v rfl rfl)

theorem wp_ret_c {saved : Regs} {Q : Unit → View → Prop} (hs : v.k.sie = false)
    (hsw : v.k.sw = none) (ht : v.k.trap ≠ .idle)
    (hsp : cfg.layout.stackOf (saved .sp) = some v.k.stk)
    (hQ : ∀ w : View, w.k = v.k → w.m = v.m → w.regs .sp = saved .sp → Q () w) :
    wp (rules cfg) (one (.ret_c saved)) Q v := by
  intro v' hi hok
  rw [show (Op.ret_c saved).isAsm = false from rfl, if_neg (by decide)] at hi
  obtain ⟨hk, hm⟩ := hi.of_sie hs
  refine ⟨?_, fun r w hw _ => ?_⟩
  · show v'.k.sie = false ∧ v'.k.sw = none ∧ v'.k.trap ≠ .idle ∧ _ = some v'.k.stk
    rw [hk]
    exact ⟨hs, hsw, ht, hsp⟩
  · obtain ⟨_, rfl⟩ := (post_plain rfl).1 hw
    exact hQ _ hk hm rfl

/-- The state the trap left: the handler's record, and the trap registers as the hardware set
them. -/
structure AtTrap (v0 : View) (s : Snapshot) (v : View) : Prop where
  k : v.k = v0.k.trapAt
  regs : v.regs = v0.regs
  sregs : s.regs = v0.regs
  spc : s.pc = v.m.sepc
  smode : s.mode = .supervisor
  ssie : s.sie = true
  spp : spp v.m.sstatus = true
  spie : spie v.m.sstatus = true
  scause : v.m.scause = SOFTWARE_INTERRUPT

/-- `kernelvec` from the return of the handler. -/
def kernelvec_return (s : Snapshot) (saved : Regs) : KProg Unit := do
  one (.ret_c saved)
  Prog.each (fun x => one (.ld x.1 x.2)) kernelvec_loads
  one (.addi_sp 256)
  one (.sret s)

theorem kernelvec_eq (s : Snapshot) : kernelvec s = (do
    one (.addi_sp (-256))
    Prog.each (fun x => one (.sd x.1 x.2)) kernelvec_saves
    let saved ← one .call_c
    kernel_trap_handler
    kernelvec_return s saved) := rfl

/-- Where the frame of `kernelvec` lies, and what it holds. -/
structure Framed (L : Layout) (v0 : View) (ρ : Regs) (mem : Mem) : Prop where
  sp : ρ .sp = v0.regs .sp + BitVec.ofInt 64 (-256)
  rest : ∀ x, x ≠ .sp → ρ x = v0.regs x
  stack : ∀ off ≤ 256, L.stackOf (ρ .sp + BitVec.ofNat 64 off) = some v0.k.stk
  frame : Frame mem (ρ .sp) ρ kernelvec_saves

theorem Framed.stack_sp {L : Layout} {v0 : View} {ρ : Regs} {mem : Mem}
    (h : Framed L v0 ρ mem) : L.stackOf (ρ .sp) = some v0.k.stk := by
  have h0 := h.stack 0 (by omega)
  rwa [show BitVec.ofNat 64 0 = 0#64 from rfl, BitVec.add_zero] at h0

theorem Framed.mono {L : Layout} {v0 : View} {ρ : Regs} {m m' : Own}
    (h : Framed L v0 ρ m.mem) (hm : SameStack L v0.k.stk m m') : Framed L v0 ρ m'.mem := by
  refine ⟨h.sp, h.rest, h.stack, fun x hx => ?_⟩
  rw [hm _ (h.stack x.2 (saves_off x hx))]
  exact h.frame x hx

theorem wp_kernelvec_return {v0 : View} {s : Snapshot} {ρ : Regs} {c : ℕ} {e : I32}
    (hok : v0.Ok cfg) (hsie : v0.k.sie = true) (hc : v0.k.run = none → c = v0.k.hart)
    (hk : v.k = (v0.k.trapAt.on c e).setTrap .acked) (hf : Framed cfg.layout v0 ρ v.m.mem)
    (hregs : s.regs = v0.regs) (hpc : v.m.sepc = s.pc) (hmode : s.mode = .supervisor)
    (hssie : s.sie = true) (hspp : spp v.m.sstatus = true) (hspie : spie v.m.sstatus = true) :
    wp (rules cfg) (kernelvec_return s ρ) (fun _ w => Interf v0 w) v := by
  have hint := hok.sie_ok hsie
  have hs : v.k.sie = false := by rw [hk]; rfl
  have hsw : v.k.sw = none := by rw [hk]; exact hint.sw
  have ht : v.k.trap ≠ .idle := by rw [hk]; exact fun h => by cases h
  have hstk : v.k.stk = v0.k.stk := by rw [hk]; rfl
  unfold kernelvec_return
  refine wp_seq (wp_ret_c hs hsw ht ?_ fun v1 hk1 hm1 hsp1 => ?_)
  · rw [hstk]
    exact hf.stack_sp
  rw [← hk1] at hs hsw ht hstk
  rw [← hm1] at hf hpc hspp hspie
  refine wp_seq (wp_loads hs hsw ht hsp1 rfl ?_ ?_ hf.frame fun r hr => ?_)
  · rw [hstk]
    exact hf.stack_sp
  · intro x hx
    rw [hstk]
    exact hf.stack x.2 (saves_off x hx)
  have hspr : r .sp + BitVec.ofInt 64 256 = v0.regs .sp := by
    rw [hr .sp (by decide), hf.sp]
    have h256 : BitVec.ofInt 64 (-256) = 0#64 - 256#64 := by decide
    have h256' : BitVec.ofInt 64 256 = 256#64 := by decide
    rw [h256, h256']
    bv_omega
  refine wp_seq (wp_asm rfl rfl (fun _ => ⟨hs, hsw, ht, ?_⟩) fun _ _ _ => ?_)
  · show cfg.layout.stackOf (r .sp + BitVec.ofInt 64 256) = some v1.k.stk
    rw [hspr, hstk]
    exact hok.sp hint.sw
  have hk3 : v1.k.after (.sret s) () = v0.k.on c e := by
    rw [hk1, hk]
    have htrap := hint.trap
    cases hv0 : v0.k
    simp_all [Ghost.after, Ghost.trapAt, Ghost.setTrap, Ghost.on]
  have hacked : v1.k.trap = .acked := by rw [hk1, hk]; rfl
  refine wp_asm rfl rfl (fun _ => ⟨hs, hacked, ?_, hpc, hmode, hssie, hspp, hspie, ?_, ?_⟩)
    fun _ _ _ => ?_
  · show (v1.k.after (.sret s) ()).Interruptible
    rw [hk3]
    exact hint.on e hc
  · show cfg.layout.Roomy (Function.update r .sp (r .sp + BitVec.ofInt 64 256) .sp)
    rw [Function.update_self, hspr]
    exact hok.roomy hint.sw hint.trap
  · intro x hx
    show Function.update r .sp (r .sp + BitVec.ofInt 64 256) x = s.regs x
    rw [hregs]
    by_cases hxsp : x = .sp
    · rw [hxsp, Function.update_self, hspr]
    · rw [Function.update_of_ne hxsp, hr x hx, hf.rest x hxsp]
  · show Moved v0.k v0.m (v1.k.after (.sret s) ()) _
    rw [hk3]
    unfold Moved
    rw [if_pos hsie]
    exact ⟨c, e, rfl, hc⟩

/-- After `kernelvec` the interrupted program goes on as it was, on some hart. -/
theorem wp_kernelvec {v0 : View} {s : Snapshot} (hok : v0.Ok cfg) (hsie : v0.k.sie = true)
    (hv : AtTrap v0 s v) :
    wp (rules cfg) (kernelvec s) (fun _ w => Interf v0 w) v := by
  have hint := hok.sie_ok hsie
  have hstk : cfg.layout.stackOf (v0.regs .sp) = some v0.k.stk := hok.sp hint.sw
  have hroomy := hok.roomy hint.sw hint.trap
  have hk := hv.k
  have hstack : ∀ off ≤ 256, cfg.layout.stackOf
      (v0.regs .sp + BitVec.ofInt 64 (-256) + BitVec.ofNat 64 off) = some v0.k.stk :=
    fun off ho => frame_stack hroomy hstk ho
  rw [kernelvec_eq]
  refine wp_seq (wp_asm rfl rfl (fun _ => ⟨?_, ?_, ?_, ?_⟩) fun _ _ _ => ?_)
  · rw [hk]; rfl
  · rw [hk]; exact hint.sw
  · rw [hk]; exact fun h => by cases h
  · have h0 := hstack 0 (by omega)
    rw [show BitVec.ofNat 64 0 = 0#64 from rfl, BitVec.add_zero] at h0
    rw [hv.regs, hk]
    exact h0
  obtain ⟨v1, hv1⟩ : ∃ v1, v1 = v.after (.addi_sp (-256)) () := ⟨_, rfl⟩
  have hk1 : v1.k = v0.k.trapAt := by rw [hv1, ← hk]; rfl
  have hm1 : v1.m = v.m := by rw [hv1]; rfl
  have hregs1 : v1.regs = Function.update v0.regs .sp (v0.regs .sp + BitVec.ofInt 64 (-256)) := by
    rw [hv1, ← hv.regs]
    rfl
  have hsp1 : v1.regs .sp = v0.regs .sp + BitVec.ofInt 64 (-256) := by
    rw [hregs1, Function.update_self]
  show wp (rules cfg) _ _ (v.after (.addi_sp (-256)) ())
  rw [← hv1]
  refine wp_seq (wp_saves (ρ := v1.regs) (by rw [hk1]; rfl) (by rw [hk1]; exact hint.sw) rfl ?_
    fun μ hμ => ?_)
  · intro x hx
    rw [hsp1, hk1]
    exact hstack x.2 (saves_off x hx)
  refine wp_seq (wp_asm rfl rfl (fun _ => by rw [hk1]; rfl) fun saved hsaved _ => ?_)
  obtain rfl : saved = v1.regs := hsaved
  have hf : Framed cfg.layout v0 v1.regs μ := by
    refine ⟨hsp1, fun x hx => ?_, fun off ho => ?_, hμ⟩
    · rw [hregs1, Function.update_of_ne hx]
    · rw [hsp1]
      exact hstack off ho
  obtain ⟨m2, hm2⟩ : ∃ m2, m2 = { v1.m with mem := μ } := ⟨_, rfl⟩
  have hd : Does cfg kernel_trap_handler v0.k.trapAt m2 fun _ k' m' => ∃ c e,
      (v0.k.run = none → c = v0.k.hart) ∧ m'.sepc = m2.sepc ∧ m'.sstatus = m2.sstatus ∧
      SameStack cfg.layout v0.k.stk m2 m' ∧ k' = (v0.k.trapAt.on c e).setTrap .acked := by
    refine does_kernel_trap_handler hok.toOk hsie ?_ ?_ fun c e m' h1 h2 h3 h4 =>
      ⟨c, e, h1, h2, h3, h4, rfl⟩
    · rw [hm2, hm1]
      exact hv.spp
    · rw [hm2, hm1]
      exact hv.scause
  rw [← hk1, hm2] at hd
  refine wp_seq (wp_does hd ?_)
  rintro _ w ⟨c, e, hc, hsepc, hsst, hst, hkw⟩
  rw [hk1] at hkw
  rw [hm1] at hsepc hsst
  refine wp_kernelvec_return hok hsie hc hkw (hf.mono hst) hv.sregs ?_ hv.smode hv.ssie ?_ ?_
  · rw [hsepc, hv.spc]
  · rw [hsst]
    exact hv.spp
  · rw [hsst]
    exact hv.spie

/-! ## switch_to -/

/-- Every register is saved in the word of `struct context` that is its own. -/
theorem slots_reg : ∀ x ∈ switch_to_slots, contextRegs.get x.2 = x.1 := by decide

theorem slots_regs_nodup : (switch_to_slots.map Prod.fst).Nodup := by decide

theorem slots_words_nodup : (switch_to_slots.map Prod.snd).Nodup := by decide

theorem slots_words : ∀ i : CtxWord, ∃ r, (r, i) ∈ switch_to_slots := by
  intro i
  have h : ∀ i : CtxWord, i ∈ switch_to_slots.map Prod.snd := by decide
  obtain ⟨⟨r, i'⟩, hx, rfl⟩ := List.mem_map.1 (h i)
  exact ⟨r, hx⟩

theorem ctxOf_slot (r : Regs) {x : Reg × CtxWord} (hx : x ∈ switch_to_slots) :
    ctxOf r x.2 = r x.1 := by
  unfold ctxOf
  rw [slots_reg x hx]

section
variable {s : SwitchSite} {h : ℕ} {e : I32} {t : Slot} {f : List Fn} {ρ : CtxWord → U64}

theorem wp_save_context (hk : v.k = .switching s h e t f ρ) {Q : Unit → View → Prop}
    (hQ : ∀ μ : Mem, (∀ i, μ.ctx (oldCtx s h t) i = ctxOf v.regs i) →
      Q () { v with m := { v.m with mem := μ } }) :
    wp (rules cfg) (Prog.each (fun x => one (.sd_ctx (oldCtx s h t) x.1 x.2)) switch_to_slots)
      Q v := by
  refine wp_each (rules_mono cfg) (fun xs w => ∃ done μ, done ++ xs = switch_to_slots ∧
    (∀ x ∈ done, μ.ctx (oldCtx s h t) x.2 = v.regs x.1) ∧
    w = { v with m := { v.m with mem := μ } }) ?_ ?_ _ _
    ⟨[], v.m.mem, rfl, fun _ h => (by cases h), rfl⟩
  · rintro x xs w ⟨done, μ, hx, hμ, rfl⟩
    refine wp_asm rfl rfl (fun _ => ⟨s, e, t, ρ, ?_⟩) fun r _ _ => ?_
    · rw [show View.k _ = v.k from rfl, hk]
      exact ⟨rfl, rfl⟩
    · refine ⟨done ++ [x], _, by simp [← hx], fun y hy => ?_, rfl⟩
      rcases List.mem_append.1 hy with hy | hy
      · rw [Mem.ctx_setCtx_ne]
        · exact hμ y hy
        · rintro ⟨_, hyx⟩
          have hnd := slots_words_nodup
          rw [← hx, List.map_append, List.map_cons, List.nodup_append] at hnd
          exact hnd.2.2 y.2 (List.mem_map_of_mem hy) x.2 (by simp) hyx
      · rw [List.mem_singleton.1 hy]
        exact Mem.ctx_setCtx_self _ _ _ _
  · rintro w ⟨done, μ, hx, hμ, rfl⟩
    rw [List.append_nil] at hx
    subst hx
    refine hQ μ fun i => ?_
    obtain ⟨r, hr⟩ := slots_words i
    rw [hμ _ hr, ctxOf_slot v.regs hr]

theorem wp_load_context (hk : v.k = .switching s h e t f ρ) {Q : Unit → View → Prop}
    (hQ : ∀ r : Regs, (∀ i, ctxOf r i = v.m.mem.ctx (newCtx s h t) i) →
      Q () { v with regs := r }) :
    wp (rules cfg) (Prog.each (fun x => one (.ld_ctx (newCtx s h t) x.1 x.2)) switch_to_slots)
      Q v := by
  refine wp_each (rules_mono cfg) (fun xs w => ∃ done r, done ++ xs = switch_to_slots ∧
    (∀ x ∈ done, r x.1 = v.m.mem.ctx (newCtx s h t) x.2) ∧ w = { v with regs := r }) ?_ ?_ _ _
    ⟨[], v.regs, rfl, fun _ h => (by cases h), rfl⟩
  · rintro x xs w ⟨done, r, hx, hr, rfl⟩
    have hmem : x ∈ switch_to_slots := by rw [← hx]; simp
    refine wp_asm rfl rfl (fun _ => ⟨hmem, s, e, t, ρ, ?_⟩) fun _ _ _ => ?_
    · rw [show View.k _ = v.k from rfl, hk]
      exact ⟨rfl, rfl⟩
    · refine ⟨done ++ [x], _, by simp [← hx], fun y hy => ?_, rfl⟩
      rcases List.mem_append.1 hy with hy | hy
      · have hne : y.1 ≠ x.1 := by
          intro hyx
          have hnd := slots_regs_nodup
          rw [← hx, List.map_append, List.map_cons, List.nodup_append] at hnd
          exact hnd.2.2 y.1 (List.mem_map_of_mem hy) x.1 (by simp) hyx
        show Function.update r x.1 _ y.1 = _
        rw [Function.update_of_ne hne]
        exact hr y hy
      · rw [List.mem_singleton.1 hy]
        exact Function.update_self _ _ _
  · rintro w ⟨done, r, hx, hr, rfl⟩
    rw [List.append_nil] at hx
    subst hx
    refine hQ r fun i => ?_
    obtain ⟨x, hxi⟩ := slots_words i
    rw [← hr _ hxi, ctxOf_slot r hxi]

/-- `switch_to` saves all of the old context and loads all of the new one. -/
theorem safe_switch_to (hk : v.k = .switching s h e t f ρ) (hρ : ∀ i, ctxOf v.regs i = ρ i) :
    Safe cfg (switch_to (oldCtx s h t) (newCtx s h t)) v := by
  refine wp_seq (wp_save_context hk fun μ hμ => ?_)
  refine wp_seq (wp_load_context (by exact hk) fun r hr => ?_)
  intro v' hv' _
  obtain rfl : v' = _ := hv'
  refine ⟨⟨s, e, t, ρ, ?_⟩, fun _ _ hp _ => hp⟩
  rw [show View.k _ = v.k from rfl, hk]
  exact ⟨rfl, rfl, rfl, fun i => (hμ i).trans (hρ i), hr⟩

end

end GQuuuuuunix.Proof
