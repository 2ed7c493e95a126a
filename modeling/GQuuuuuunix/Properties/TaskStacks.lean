import GQuuuuuunix.Kernel.Start
import GQuuuuuunix.Proof.TaskCalls
import Mathlib.Data.List.Chain

/-! # When the stacks of the tasks are private

`init_task` takes the row of `task_stack` for the number of tasks added so far, and only `addTask`
adds one: two structs initialised with no `addTask` between them share a row. -/

namespace GQuuuuuunix.Properties
open Lib Kernel Proof
set_option autoImplicit false

variable {L : Layout} {cs pre post : List TaskCall} {c : TaskCall} {k : ℕ} {m m' : Mem}

/-! ## The row of a struct -/

/-- How many tasks were added before the struct was initialised. -/
def row (cs : List TaskCall) (k : ℕ) : ℕ :=
  (adds (cs.takeWhile fun c => c.inited ≠ some k)).length

theorem inits_append : inits (cs ++ [c]) = inits cs ++ c.inited.toList := by
  unfold inits
  rw [List.filterMap_append]
  cases h : c.inited <;> simp [h]

theorem adds_append : adds (cs ++ [c]) = adds cs ++ c.added.toList := by
  unfold adds
  rw [List.filterMap_append]
  cases h : c.added <;> simp [h]

theorem row_append_init {pid : I32} (hk : k ∉ inits pre) :
    row (pre ++ .init_task k pid :: post) k = (adds pre).length := by
  have hall : ∀ c ∈ pre, decide (c.inited ≠ some k) = true := by
    intro c hc
    exact decide_eq_true fun he => hk (List.mem_filterMap.2 ⟨c, hc, he⟩)
  unfold row
  rw [List.takeWhile_append_of_pos hall, List.takeWhile_cons_of_neg, List.append_nil]
  simp [TaskCall.inited]

theorem first_init (hk : k ∈ inits cs) :
    ∃ pre pid post, cs = pre ++ .init_task k pid :: post ∧ k ∉ inits pre := by
  induction cs with
  | nil => cases hk
  | cons c cs ih =>
    by_cases hc : c.inited = some k
    · cases c with
      | init_task j pid =>
        cases hc
        exact ⟨[], pid, cs, rfl, fun h => by cases h⟩
      | addTask j => cases hc
    · have hk' : k ∈ inits cs := by
        obtain ⟨d, hd, hdk⟩ := List.mem_filterMap.1 hk
        rcases List.mem_cons.1 hd with rfl | hd
        · exact absurd hdk hc
        · exact List.mem_filterMap.2 ⟨d, hd, hdk⟩
      obtain ⟨pre, pid, post, rfl, hpre⟩ := ih hk'
      refine ⟨c :: pre, pid, post, rfl, fun h => ?_⟩
      obtain ⟨d, hd, hdk⟩ := List.mem_filterMap.1 h
      rcases List.mem_cons.1 hd with rfl | hd
      · exact hc hdk
      · exact hpre (List.mem_filterMap.2 ⟨d, hd, hdk⟩)

theorem row_append (hk : k ∈ inits cs) : row (cs ++ post) k = row cs k := by
  obtain ⟨pre, pid, post', rfl, hpre⟩ := first_init hk
  rw [List.append_assoc, List.cons_append, row_append_init hpre, row_append_init hpre]

/-! ## The memory after the calls -/

/-- The conditions on a list of calls that its beginnings share. -/
structure Calls (cs : List TaskCall) : Prop where
  inits_nodup : (inits cs).Nodup
  adds_nodup : (adds cs).Nodup
  init_first : ∀ pre k post, cs = pre ++ .addTask k :: post → k ∈ inits pre
  adds_le : (adds cs).length ≤ TASK_MAX_NRS

theorem Calls.beginning (h : Calls (cs ++ [c])) : Calls cs := by
  obtain ⟨h1, h2, h3, h4⟩ := h
  rw [inits_append] at h1
  rw [adds_append] at h2 h4
  rw [List.length_append] at h4
  refine ⟨h1.of_append_left, h2.of_append_left, fun pre k post he => ?_, by omega⟩
  exact h3 pre k (post ++ [c]) (by rw [he, List.append_assoc]; rfl)

/-- Slot `i` holds the `i`-th struct added, with the stack pointer it was initialised with. -/
structure Table (L : Layout) (cs : List TaskCall) (m : Mem) : Prop where
  added : ∀ k ∈ adds cs, k ∈ inits cs
  taskNrs : m .taskNrs = BitVec.ofNat 64 (adds cs).length
  static_sp : ∀ k ∈ inits cs, m (.context (.static k) 1) = L.stackTop (Fin.ofNat _ (row cs k))
  static_state : ∀ k ∈ inits cs, m (.state (.static k)) = TaskState.RUNNABLE
  slot_sp : ∀ (t : Fin TASK_MAX_NRS) k, (adds cs)[(t : ℕ)]? = some k →
    m (.context (.gTasks t) 1) = L.stackTop (Fin.ofNat _ (row cs k))
  slot_state : ∀ t : Fin TASK_MAX_NRS, m (.state (.gTasks t)) =
    if (t : ℕ) < (adds cs).length then TaskState.RUNNABLE else TaskState.UNUSED

theorem Table.init_task (hT : Table L cs m) {pid : I32} (hk : k ∉ inits cs)
    (hle : (adds cs).length ≤ TASK_MAX_NRS)
    (hi : Proof.Initialised L (.static k) pid m m') : Table L (cs ++ [.init_task k pid]) m' := by
  have hadds : adds (cs ++ [.init_task k pid]) = adds cs := by
    rw [adds_append]
    exact List.append_nil _
  have hinits : ∀ j ∈ inits (cs ++ [.init_task k pid]), j ∈ inits cs ∨ j = k := by
    intro j hj
    rw [inits_append] at hj
    simpa [TaskCall.inited] using hj
  have hne : ∀ {j}, j ∈ inits cs → decide (TaskPtr.static j = .static k) = false := by
    intro j hj
    refine decide_eq_false fun he => hk ?_
    cases he
    exact hj
  refine ⟨fun j hj => ?_, ?_, fun j hj => ?_, fun j hj => ?_, fun t j hj => ?_, fun t => ?_⟩
  · rw [hadds] at hj
    rw [inits_append]
    exact List.mem_append_left _ (hT.added j hj)
  · rw [hadds, hi.frame _ rfl]
    exact hT.taskNrs
  · rcases hinits j hj with hj | rfl
    · rw [hi.frame (.context (.static j) 1) (hne hj), row_append hj]
      exact hT.static_sp j hj
    · rw [hi.sp, hT.taskNrs, taskSlot_of_lt (Nat.lt_of_le_of_lt hle (by decide)),
        row_append_init hk]
  · rcases hinits j hj with hj | rfl
    · rw [hi.frame (.state (.static j)) (hne hj)]
      exact hT.static_state j hj
    · exact hi.state
  · rw [hadds] at hj
    rw [hi.frame _ rfl, row_append]
    · exact hT.slot_sp t j hj
    · exact hT.added j (List.mem_of_getElem? hj)
  · rw [hadds, hi.frame _ rfl]
    exact hT.slot_state t

theorem Table.addTask (hT : Table L cs m) (hk : k ∈ inits cs)
    (hle : (adds cs).length < TASK_MAX_NRS)
    (hc : TaskCopied (.gTasks (taskSlot (m .taskNrs))) (.static k)
      (m.set .taskNrs (m .taskNrs + 1)) m') : Table L (cs ++ [.addTask k]) m' := by
  have hadds : adds (cs ++ [.addTask k]) = adds cs ++ [k] := adds_append
  have hinits : inits (cs ++ [.addTask k]) = inits cs := by
    rw [inits_append]
    exact List.append_nil _
  have hslot : taskSlot (m .taskNrs) = ⟨(adds cs).length, hle⟩ := by
    rw [hT.taskNrs, taskSlot_of_lt (Nat.lt_trans hle (by decide))]
    exact Fin.ext (Nat.mod_eq_of_lt hle)
  rw [hslot] at hc
  have hne : ∀ {t : Fin TASK_MAX_NRS}, (t : ℕ) ≠ (adds cs).length →
      decide (TaskPtr.gTasks t = .gTasks ⟨(adds cs).length, hle⟩) = false := by
    intro t ht
    refine decide_eq_false fun he => ht ?_
    cases he
    rfl
  refine ⟨fun j hj => ?_, ?_, fun j hj => ?_, fun j hj => ?_, fun t j hj => ?_, fun t => ?_⟩
  · rw [hadds, List.mem_append] at hj
    rw [hinits]
    rcases hj with hj | hj
    · exact hT.added j hj
    · rw [List.mem_singleton.1 hj]
      exact hk
  · rw [hc.frame _ rfl, Mem.set_self, hT.taskNrs, hadds, List.length_append, BitVec.ofNat_add]
    rfl
  · rw [hinits] at hj
    rw [hc.frame (.context (.static j) 1) rfl, row_append hj]
    exact hT.static_sp j hj
  · rw [hinits] at hj
    rw [hc.frame (.state (.static j)) rfl]
    exact hT.static_state j hj
  · rw [hadds] at hj
    by_cases ht : (t : ℕ) = (adds cs).length
    · have hslot' : t = ⟨(adds cs).length, hle⟩ := Fin.ext ht
      rw [ht, List.getElem?_concat_length] at hj
      cases hj
      rw [hslot', hc.context, row_append hk]
      exact hT.static_sp k hk
    · have hlt : (t : ℕ) < (adds cs).length := by
        have hlt := (List.getElem?_eq_some_iff.1 hj).1
        rw [List.length_append, List.length_singleton] at hlt
        omega
      rw [List.getElem?_append_left hlt] at hj
      rw [hc.frame (.context (.gTasks t) 1) (hne ht),
        row_append (hT.added j (List.mem_of_getElem? hj))]
      exact hT.slot_sp t j hj
  · rw [hadds, List.length_append, List.length_singleton]
    by_cases ht : (t : ℕ) = (adds cs).length
    · have hslot' : t = ⟨(adds cs).length, hle⟩ := Fin.ext ht
      rw [if_pos (by omega), hslot', hc.state]
      exact hT.static_state k hk
    · rw [hc.frame (.state (.gTasks t)) (hne ht)]
      have heq : ((t : ℕ) < (adds cs).length + 1) = ((t : ℕ) < (adds cs).length) := by
        apply propext
        omega
      simp only [heq]
      exact hT.slot_state t

/-- The calls leave the table that their order says. -/
theorem table_of_calls (hm : m.TableEmpty) (hc : Calls cs) :
    ∃ m', afterCalls L cs m = .ok ((), m') ∧ Table L cs m' := by
  induction cs using List.reverseRecOn with
  | nil =>
    refine ⟨m, rfl, fun k hk => (by cases hk), hm.taskNrs, fun k hk => (by cases hk),
      fun k hk => (by cases hk), fun t k hk => (by cases hk), fun t => ?_⟩
    exact (hm.unused t).trans (if_neg (Nat.not_lt_zero _)).symm
  | append_singleton cs c ih =>
    obtain ⟨m1, hrun, hT⟩ := ih hc.beginning
    unfold afterCalls at hrun ⊢
    rw [Prog.each_append, Prog.each_singleton, Prog.run_bind, hrun]
    cases c with
    | init_task k pid =>
      have hk : k ∉ inits cs := by
        have hnd := hc.inits_nodup
        rw [inits_append] at hnd
        exact fun hk => (List.disjoint_of_nodup_append hnd) hk (List.mem_singleton.2 rfl)
      exact ⟨_, run_init_task, hT.init_task hk hc.beginning.adds_le initialised⟩
    | addTask k =>
      have hk : k ∈ inits cs := hc.init_first cs k [] rfl
      have hle : (adds cs).length < TASK_MAX_NRS := by
        have hle := hc.adds_le
        rw [adds_append, List.length_append] at hle
        exact hle
      exact ⟨_, run_addTask, hT.addTask hk hle (taskCopied (by simp))⟩

/-! ## Rows and the order of the calls -/

theorem stackTop_inj {s t : Fin TASK_MAX_NRS} (h : L.stackTop s = L.stackTop t) : s = t := by
  unfold Layout.stackTop at h
  have hs := s.isLt
  have ht := t.isLt
  unfold STACK_SIZE TASK_MAX_NRS at *
  apply Fin.ext
  bv_omega

theorem adds_append' (pre post : List TaskCall) : adds (pre ++ post) = adds pre ++ adds post :=
  List.filterMap_append ..

theorem mem_inits {pid : I32} (h : .init_task k pid ∈ cs) : k ∈ inits cs :=
  List.mem_filterMap.2 ⟨_, h, rfl⟩

/-- A struct is added after it is initialised. -/
theorem Calls.not_added (hc : Calls cs) {pid : I32} (he : cs = pre ++ .init_task k pid :: post)
    (hk : k ∉ inits pre) : k ∉ adds pre := by
  intro hadd
  obtain ⟨c, hmem, hck⟩ := List.mem_filterMap.1 hadd
  obtain ⟨pre1, pre2, hpre⟩ := List.append_of_mem hmem
  cases c with
  | init_task j pid => cases hck
  | addTask j =>
    cases hck
    have hin := hc.init_first pre1 k (pre2 ++ .init_task k pid :: post) (by simp [he, hpre])
    refine hk ?_
    rw [hpre]
    unfold inits at hin ⊢
    rw [List.filterMap_append]
    exact List.mem_append_left _ hin

theorem Calls.row_lt (hc : Calls cs) (hk : k ∈ inits cs) (hadd : k ∈ adds cs) :
    row cs k < (adds cs).length := by
  obtain ⟨pre, pid, post, he, hpre⟩ := first_init hk
  have hnot := hc.not_added he hpre
  rw [he, adds_append'] at hadd
  rw [he, row_append_init hpre, adds_append', List.length_append]
  have hmem := (List.mem_append.1 hadd).resolve_left hnot
  have := List.length_pos_of_mem hmem
  omega

/-- In the table the stacks are private exactly when the structs added have different rows. -/
theorem Table.private_iff (hT : Table L cs m) (hc : Calls cs) :
    StacksPrivate m ↔ ∀ k ∈ adds cs, ∀ j ∈ adds cs, row cs k = row cs j → k = j := by
  have hocc : ∀ t : Fin TASK_MAX_NRS, m (.state (.gTasks t)) ≠ TaskState.UNUSED →
      ∃ k, (adds cs)[(t : ℕ)]? = some k := by
    intro t ht
    rw [hT.slot_state t] at ht
    split at ht
    · next hlt => exact ⟨_, List.getElem?_eq_getElem hlt⟩
    · exact absurd rfl ht
  constructor
  · intro hp k hk j hj hrow
    obtain ⟨s, hs, hsk⟩ := List.getElem_of_mem hk
    obtain ⟨t, ht, htj⟩ := List.getElem_of_mem hj
    have hslot : ∀ i, i < (adds cs).length → ∀ hi : i < TASK_MAX_NRS,
        m (.state (.gTasks ⟨i, hi⟩)) ≠ TaskState.UNUSED := by
      intro i hlt hi
      rw [hT.slot_state, if_pos hlt]
      exact fun h => by cases h
    have hs64 := Nat.lt_of_lt_of_le hs hc.adds_le
    have ht64 := Nat.lt_of_lt_of_le ht hc.adds_le
    have hst := hp ⟨s, hs64⟩ ⟨t, ht64⟩ (hslot s hs hs64) (hslot t ht ht64) (by
      rw [hT.slot_sp ⟨s, hs64⟩ k (by rw [← hsk]; exact List.getElem?_eq_getElem hs),
        hT.slot_sp ⟨t, ht64⟩ j (by rw [← htj]; exact List.getElem?_eq_getElem ht), hrow])
    cases hst
    rw [← hsk, ← htj]
  · intro hinj s t hs ht hsp
    obtain ⟨k, hk⟩ := hocc s hs
    obtain ⟨j, hj⟩ := hocc t ht
    rw [hT.slot_sp s k hk, hT.slot_sp t j hj] at hsp
    have hkm := List.mem_of_getElem? hk
    have hjm := List.mem_of_getElem? hj
    have hrow := congrArg Fin.val (stackTop_inj hsp)
    have hlt : ∀ i ∈ adds cs, row cs i < TASK_MAX_NRS := fun i hi =>
      Nat.lt_of_lt_of_le (hc.row_lt (hT.added i hi) hi) hc.adds_le
    change row cs k % TASK_MAX_NRS = row cs j % TASK_MAX_NRS at hrow
    rw [Nat.mod_eq_of_lt (hlt k hkm), Nat.mod_eq_of_lt (hlt j hjm)] at hrow
    have hkj := hinj k hkm j hjm hrow
    rw [← hkj] at hj
    obtain ⟨hs', hsk⟩ := List.getElem?_eq_some_iff.1 hk
    obtain ⟨ht', htk⟩ := List.getElem?_eq_some_iff.1 hj
    exact Fin.ext ((List.Nodup.getElem_inj_iff hc.adds_nodup).1 (hsk.trans htk.symm))

/-- Structs initialised one after the other, with no two of them in a row, have different rows. -/
theorem row_lt_of_separated (hsep : Separated cs) {j : ℕ} {pid : I32}
    (he : cs = pre ++ .init_task k pid :: post) (hk : k ∉ inits pre) (hj : j ∈ inits post)
    (hjk : j ∉ inits pre) (hne : j ≠ k) : row cs k < row cs j := by
  obtain ⟨mid, pid', post', hpost, hmid⟩ := first_init hj
  have hcs : cs = (pre ++ .init_task k pid :: mid) ++ .init_task j pid' :: post' := by
    rw [he, hpost, List.append_assoc]
    rfl
  have hj' : j ∉ inits (pre ++ .init_task k pid :: mid) := by
    unfold inits at hjk hmid ⊢
    rw [List.filterMap_append, List.mem_append, List.filterMap_cons]
    rintro (h | h)
    · exact hjk h
    · rcases List.mem_cons.1 h with h | h
      · exact hne h
      · exact hmid h
  rw [hcs, row_append_init hj', ← hcs, he, row_append_init hk, adds_append', List.length_append]
  have hrel : ∀ a b l1 l2, cs = l1 ++ a :: b :: l2 → a.inited = none ∨ b.inited = none :=
    fun a b l1 l2 h => List.isChain_iff_forall_rel_of_append_cons_cons.1 hsep h
  have hpos : 0 < (adds (.init_task k pid :: mid)).length := by
    cases mid with
    | nil =>
      have := hrel (.init_task k pid) (.init_task j pid') pre post' (by rw [he, hpost]; rfl)
      rcases this with h | h <;> cases h
    | cons c mid =>
      cases c with
      | addTask i => exact Nat.succ_pos _
      | init_task i pid'' =>
        have := hrel (.init_task k pid) (.init_task i pid'') pre (mid ++ .init_task j pid' :: post')
          (by rw [he, hpost]; rfl)
        rcases this with h | h <;> cases h
  omega

theorem mem_inits_append : k ∈ inits (pre ++ post) ↔ k ∈ inits pre ∨ k ∈ inits post := by
  unfold inits
  rw [List.filterMap_append, List.mem_append]

/-- Of two structs, one is initialised first. -/
theorem first_of_two {j : ℕ} (hk : k ∈ inits cs) (hj : j ∈ inits cs) (hne : j ≠ k) :
    (∃ pre pid post, cs = pre ++ .init_task k pid :: post ∧ k ∉ inits pre ∧ j ∉ inits pre ∧
      j ∈ inits post) ∨
    ∃ pre pid post, cs = pre ++ .init_task j pid :: post ∧ j ∉ inits pre ∧ k ∉ inits pre ∧
      k ∈ inits post := by
  obtain ⟨pre, pid, post, he, hpre⟩ := first_init hk
  by_cases hjp : j ∈ inits pre
  · obtain ⟨pre', pid', post', rfl, hpre'⟩ := first_init hjp
    refine Or.inr ⟨pre', pid', post' ++ .init_task k pid :: post, ?_, hpre', fun h => ?_, ?_⟩
    · rw [he, List.append_assoc]
      rfl
    · exact hpre (mem_inits_append.2 (Or.inl h))
    · exact mem_inits_append.2 (Or.inr (mem_inits (List.mem_cons_self ..)))
  · refine Or.inl ⟨pre, pid, post, he, hpre, hjp, ?_⟩
    rw [he, mem_inits_append] at hj
    rcases List.mem_cons.1 (hj.resolve_left hjp) with h | h
    · exact absurd h hne
    · exact h

theorem rows_inj_iff (hc : Calls cs) (hadd : ∀ k ∈ inits cs, k ∈ adds cs)
    (hinit : ∀ k ∈ adds cs, k ∈ inits cs) :
    (∀ k ∈ adds cs, ∀ j ∈ adds cs, row cs k = row cs j → k = j) ↔ Separated cs := by
  constructor
  · intro hinj
    refine List.isChain_iff_forall_rel_of_append_cons_cons.2 fun a b pre post he => ?_
    cases a with
    | addTask i => exact Or.inl rfl
    | init_task k pid =>
      cases b with
      | addTask i => exact Or.inr rfl
      | init_task j pid' =>
        have hnd := hc.inits_nodup
        have he' : cs = (pre ++ [.init_task k pid]) ++ .init_task j pid' :: post := by
          rw [he, List.append_assoc]
          rfl
        rw [he', inits, List.filterMap_append, List.filterMap_cons] at hnd
        have hj : j ∉ inits (pre ++ [.init_task k pid]) := fun h =>
          List.disjoint_of_nodup_append hnd h (List.mem_cons_self ..)
        have hk : k ∉ inits pre := by
          have hnd' := hnd.of_append_left
          rw [List.filterMap_append] at hnd'
          exact fun h => List.disjoint_of_nodup_append hnd' h (List.mem_cons_self ..)
        have hrow : row cs k = row cs j := by
          have h1 : row cs k = (adds pre).length := by rw [he, row_append_init hk]
          have h2 : row cs j = (adds (pre ++ [.init_task k pid])).length := by
            rw [he', row_append_init hj]
          rw [h1, h2, adds_append']
          exact (congrArg List.length (List.append_nil (adds pre))).symm
        have hkm : k ∈ inits cs := mem_inits (show .init_task k pid ∈ cs by simp [he])
        have hjm : j ∈ inits cs := mem_inits (show .init_task j pid' ∈ cs by simp [he])
        have hkj := hinj k (hadd k hkm) j (hadd j hjm) hrow
        exact absurd (mem_inits_append.2 (Or.inr (by rw [hkj]; exact List.mem_cons_self ..))) hj
  · intro hsep k hk j hj hrow
    by_contra hne
    rcases first_of_two (hinit k hk) (hinit j hj) (Ne.symm hne) with h | h
    · obtain ⟨pre, pid, post, he, hkp, hjp, hjq⟩ := h
      have := row_lt_of_separated hsep he hkp hjq hjp (Ne.symm hne)
      omega
    · obtain ⟨pre, pid, post, he, hjp, hkp, hkq⟩ := h
      have := row_lt_of_separated hsep he hjp hkq hkp hne
      omega

/-! ## The stacks -/

theorem calls_of_lifecycle (hl : Lifecycle cs) (hle : (adds cs).length ≤ TASK_MAX_NRS) : Calls cs :=
  ⟨hl.inits_nodup, hl.adds_nodup, hl.init_first, hle⟩

/-- When every struct is initialised once and added once, and at most 64 are added, the stacks in
the table are private if and only if no `init_task` comes right after another. -/
theorem stacks_private_iff (hm : m.TableEmpty) (hl : Lifecycle cs)
    (hle : (adds cs).length ≤ TASK_MAX_NRS) :
    ∃ m', afterCalls L cs m = .ok ((), m') ∧ (StacksPrivate m' ↔ Separated cs) := by
  have hc := calls_of_lifecycle hl hle
  obtain ⟨m', hrun, hT⟩ := table_of_calls hm hc
  exact ⟨m', hrun, (hT.private_iff hc).trans (rows_inj_iff hc hl.add_later hT.added)⟩

/-- Two tasks are initialised before the first is added. -/
def twoInits : List TaskCall := [.init_task 0 0, .init_task 1 1, .addTask 0, .addTask 1]

theorem twoInits_lifecycle : Lifecycle twoInits := by
  refine ⟨by decide, by decide, fun pre k post h => ?_, by decide⟩
  rcases pre with _ | ⟨a, _ | ⟨b, _ | ⟨c, _ | ⟨d, pre⟩⟩⟩⟩ <;> simp [twoInits] at h
  · obtain ⟨rfl, rfl, rfl, _⟩ := h
    decide
  · obtain ⟨rfl, rfl, rfl, rfl, _⟩ := h
    decide

theorem zero_tableEmpty : Mem.zero.TableEmpty := ⟨rfl, fun _ => rfl⟩

theorem stacks_private_not : ¬ ∀ (L : Layout) (cs : List TaskCall) (m : Mem), m.TableEmpty →
    Lifecycle cs → (adds cs).length ≤ TASK_MAX_NRS →
    ∃ m', afterCalls L cs m = .ok ((), m') ∧ StacksPrivate m' := by
  intro hall
  obtain ⟨m', hrun, hp⟩ := hall .sample twoInits Mem.zero zero_tableEmpty twoInits_lifecycle
    (by decide)
  obtain ⟨m1, hrun1, hT⟩ := table_of_calls (L := .sample) zero_tableEmpty
    (calls_of_lifecycle twoInits_lifecycle (by decide))
  rw [hrun] at hrun1
  cases hrun1
  have hocc : ∀ t : Fin TASK_MAX_NRS, (t : ℕ) < 2 → m' (.state (.gTasks t)) ≠ TaskState.UNUSED := by
    intro t ht
    rw [hT.slot_state t, if_pos (show (t : ℕ) < (adds twoInits).length from ht)]
    exact fun h => by cases h
  have hsp : m' (.context (.gTasks 0) 1) = m' (.context (.gTasks 1) 1) := by
    rw [hT.slot_sp 0 0 rfl, hT.slot_sp 1 1 rfl]
    rfl
  exact absurd (hp 0 1 (hocc 0 (by decide)) (hocc 1 (by decide)) hsp) (by decide)

/-- Two tasks, each added before the next is initialised. -/
def inTurn : List TaskCall := [.init_task 0 0, .addTask 0, .init_task 1 1, .addTask 1]

theorem inTurn_lifecycle : Lifecycle inTurn := by
  refine ⟨by decide, by decide, fun pre k post h => ?_, by decide⟩
  rcases pre with _ | ⟨a, _ | ⟨b, _ | ⟨c, _ | ⟨d, pre⟩⟩⟩⟩ <;> simp [inTurn] at h
  · obtain ⟨rfl, rfl, _⟩ := h
    decide
  · obtain ⟨rfl, rfl, rfl, rfl, _⟩ := h
    decide

theorem stacks_private_inTurn :
    ∃ m', afterCalls .sample inTurn Mem.zero = .ok ((), m') ∧ StacksPrivate m' := by
  obtain ⟨m', hrun, hiff⟩ := stacks_private_iff (L := .sample) zero_tableEmpty inTurn_lifecycle
    (by decide)
  exact ⟨m', hrun, hiff.2 (by decide)⟩

end GQuuuuuunix.Properties
