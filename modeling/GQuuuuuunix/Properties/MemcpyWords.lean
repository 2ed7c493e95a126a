import GQuuuuuunix.Proof.Memcpy

/-! # The words of `memcpy`: their alignment, and that they copy as bytes would

Between equally misaligned pointers the head loop of `memcpy` copies as many bytes as the pointers
are misaligned by, where it would take the rest of a word to reach alignment: the word loops then
start at twice the misalignment. `memcpy_n` itself tiles its blocks, and when the pointers agree
modulo eight no word is read after a part of it was written, so that the blocks may overlap. -/

namespace GQuuuuuunix.Properties
open Lib Kernel Proof
set_option autoImplicit false

variable {dst src : U64} {n : I64} {m : ByteMem 64}

/-! ## Alignment -/

/-- Every access of `memcpy` is at a multiple of its size. -/
def MemcpyAligned (dst src : U64) (n : I64) : Prop :=
  ∀ m : ByteMem 64, ∀ o ∈ (memcpy dst src n).accesses m, o.Aligned

theorem aligned_pure {α : Type} (x : α) :
    ∀ o ∈ (pure x : MemProg 64 α).accesses m, o.Aligned := fun _ ho => by cases ho

/-- A loop is aligned if its pointers are; what comes after it goes on where it left them. -/
theorem aligned_loop {w k : ℕ} {α : Type} {f : U64 × U64 → MemProg 64 α} {Q : Prop}
    (hw : w ∣ 2 ^ 64) (hf : ∀ m', (∀ o ∈ (f (dst + BitVec.ofNat 64 (k * w),
      src + BitVec.ofNat 64 (k * w))).accesses m', o.Aligned) ↔ Q) :
    (∀ o ∈ (copyWords w k dst src >>= f).accesses m, o.Aligned) ↔
      (k ≠ 0 → w ∣ src.toNat ∧ w ∣ dst.toNat) ∧ Q := by
  obtain ⟨m', hrun⟩ := run_copyWords_ends w k dst src m
  rw [MemProg.accesses_bind hrun, List.forall_mem_append, aligned_copyWords hw, hf]

theorem aligned_memcpy_n (hn : n.toNat < 2 ^ 63) (m : ByteMem 64) :
    (∀ o ∈ (memcpy_n dst src n).accesses m, o.Aligned) ↔
      (n.toNat / 8 ≠ 0 → 8 ∣ src.toNat ∧ 8 ∣ dst.toNat) ∧
      (n.toNat % 8 / 4 ≠ 0 → 4 ∣ src.toNat ∧ 4 ∣ dst.toNat) ∧
      (n.toNat % 4 / 2 ≠ 0 → 2 ∣ src.toNat ∧ 2 ∣ dst.toNat) := by
  rw [memcpy_n_eq hn]
  rw [aligned_loop (by decide) fun _ => aligned_loop (by decide) fun _ =>
    aligned_loop (by decide) fun _ => aligned_loop (by decide) fun _ =>
    iff_of_true (aligned_pure ()) trivial]
  simp only [ByteMem.add_ofNat_add, dvd_add_ofNat (show 4 ∣ 2 ^ 64 by decide),
    dvd_add_ofNat (show 2 ∣ 2 ^ 64 by decide), Nat.one_dvd, and_self, implies_true, and_true]
  omega

theorem aligned_bind_pure {α : Type} {c : MemProg 64 α} {x : U64} {y : α × ByteMem 64}
    (hrun : c.run m = .ok y) :
    (∀ o ∈ (c >>= fun _ => pure x).accesses m, o.Aligned) ↔ ∀ o ∈ c.accesses m, o.Aligned := by
  rw [MemProg.accesses_bind hrun, List.forall_mem_append]
  exact and_iff_left (aligned_pure x)

theorem run_loop_ends {w k : ℕ} {α : Type} {f : U64 × U64 → MemProg 64 α} {z : α}
    (hf : ∀ x m', ∃ m'', (f x).run m' = .ok (z, m'')) (dst src : U64) (m : ByteMem 64) :
    ∃ m', (copyWords w k dst src >>= f).run m = .ok (z, m') := by
  obtain ⟨m', hrun⟩ := run_copyWords_ends w k dst src m
  rw [MemProg.run_bind, hrun]
  exact hf _ m'

theorem run_memcpy_n_ends (hn : n.toNat < 2 ^ 63) (dst src : U64) (m : ByteMem 64) :
    ∃ m', (memcpy_n dst src n).run m = .ok ((), m') := by
  rw [memcpy_n_eq hn]
  refine run_loop_ends (fun x => run_loop_ends (fun y => run_loop_ends (fun z =>
    run_loop_ends (fun _ m' => ⟨m', rfl⟩) _ _) _ _) _ _) _ _ m

theorem aligned_memcpy (hn : 8 ≤ n.toNat) (hlt : n.toNat < 2 ^ 63) (m : ByteMem 64) :
    (∀ o ∈ (memcpy dst src n).accesses m, o.Aligned) ↔
      dst.toNat % 8 ≠ src.toNat % 8 ∨ dst.toNat % 4 = 0 ∨
        n.toNat < dst.toNat % 8 + 8 ∧ (dst.toNat % 2 = 0 ∨ n.toNat < dst.toNat % 8 + 4) := by
  rw [memcpy_eq]
  split
  · -- both aligned
    obtain ⟨m', hrun⟩ := run_memcpy_n_ends hlt dst src m
    rw [aligned_bind_pure hrun, aligned_memcpy_n hlt]
    omega
  · split
    · -- equally misaligned: the words start at twice the misalignment
      have hrest := sub_align (show src.toNat % 8 ≤ n.toNat by omega)
      have hlt' : (n - BitVec.signExtend 64 ((src % 8).setWidth 32 : I32)).toNat < 2 ^ 63 := by
        omega
      rw [aligned_loop (Nat.one_dvd _) fun m' => by
        obtain ⟨m'', hrun⟩ := run_memcpy_n_ends hlt' (dst + BitVec.ofNat 64 (dst.toNat % 8 * 1))
          (src + BitVec.ofNat 64 (dst.toNat % 8 * 1)) m'
        exact (aligned_bind_pure hrun).trans (aligned_memcpy_n hlt' m')]
      rw [hrest]
      simp only [dvd_add_ofNat (show 8 ∣ 2 ^ 64 by decide), Nat.one_dvd, and_self, implies_true,
        dvd_add_ofNat (show 4 ∣ 2 ^ 64 by decide), dvd_add_ofNat (show 2 ∣ 2 ^ 64 by decide)]
      constructor
      · rintro ⟨-, h8, h4, h2⟩
        omega
      · intro h
        refine ⟨trivial, fun hc => ?_, fun hc => ?_, fun hc => ?_⟩ <;> constructor <;> omega
    · -- differently misaligned: bytes only
      have hbytes : ∀ o ∈ (memcpy_1 dst src n).accesses m, o.Aligned := by
        rw [memcpy_1_eq hlt, aligned_loop (Nat.one_dvd _) fun _ =>
          iff_of_true (aligned_pure ()) trivial]
        exact ⟨fun _ => ⟨Nat.one_dvd _, Nat.one_dvd _⟩, trivial⟩
      obtain ⟨m', hrun⟩ : ∃ m', (memcpy_1 dst src n).run m = .ok ((), m') := by
        rw [memcpy_1_eq hlt]
        exact run_loop_ends (fun _ m' => ⟨m', rfl⟩) dst src m
      rw [aligned_bind_pure hrun]
      exact iff_of_true hbytes (Or.inl (by omega))

/-- The accesses are aligned if and only if the pointers are not equally misaligned, or by four, or
by so much that no word is left that would be misaligned. -/
theorem memcpy_aligned_iff (hn : 8 ≤ n.toInt) : MemcpyAligned dst src n ↔
    dst.toNat % 8 ≠ src.toNat % 8 ∨ dst.toNat % 4 = 0 ∨
      n.toNat < dst.toNat % 8 + 8 ∧ (dst.toNat % 2 = 0 ∨ n.toNat < dst.toNat % 8 + 4) := by
  obtain ⟨hlt, heq⟩ := toNat_of_nonneg (n := n) (by omega)
  have hall : ∀ m, (∀ o ∈ (memcpy dst src n).accesses m, o.Aligned) ↔ _ :=
    aligned_memcpy (by omega) hlt
  exact ⟨fun h => (hall fun _ => 0).1 (h _), fun h m => (hall m).2 h⟩

/-- Sixteen bytes between pointers misaligned by one. -/
theorem memcpy_aligned_not : ¬ ∀ (dst src : U64) (n : I64), 8 ≤ n.toInt →
    dst.toNat + n.toNat ≤ 2 ^ 64 → src.toNat + n.toNat ≤ 2 ^ 64 →
    ByteMem.Apart n.toNat dst src → MemcpyAligned dst src n := by
  intro hall
  have haligned := hall 0x80300001 0x80301001 16 (by decide) (by decide) (by decide) (by decide)
  exact absurd ((memcpy_aligned_iff (by decide)).1 haligned) (by decide)

theorem memcpy_aligned_four : MemcpyAligned 0x80300004 0x80301004 21 :=
  (memcpy_aligned_iff (by decide)).2 (by decide)

/-! ## Words as bytes -/

theorem clear_of_align (heq : dst.toNat % 8 = src.toNat % 8) : Clear 8 dst src := by
  intro j h0 hj he
  have hnat := congrArg BitVec.toNat he
  rw [BitVec.toNat_add, BitVec.toNat_ofNat] at hnat
  omega

/-- A loop on words is one on bytes, which the bytes of what follows go on with. -/
theorem run_loop_bytes {w k j : ℕ} {α : Type} {f g : U64 × U64 → MemProg 64 α} (hw : w ≤ 8)
    (h : Clear 8 dst src) (hf : ∀ d s m', Clear 8 d s →
      (f (d, s)).run m' = (copyWords 1 j d s >>= g).run m') (m : ByteMem 64) :
    (copyWords w k dst src >>= f).run m = (copyWords 1 (k * w + j) dst src >>= g).run m := by
  obtain ⟨m', hrun⟩ := run_copyWords_ends 1 (k * w) dst src m
  have hassoc : (copyWords 1 (k * w + j) dst src >>= g) =
      copyWords 1 (k * w) dst src >>= fun x => copyWords 1 j x.1 x.2 >>= g := by
    rw [copyWords_add]
    exact Prog.bind_assoc _ _ _
  rw [hassoc, MemProg.run_bind, MemProg.run_bind,
    run_copyWords_bytes k m (by omega) (h.of_le hw), hrun]
  exact hf _ _ m' (h.add _)

theorem run_memcpy_n_bytes (hn : n.toNat < 2 ^ 63) (h : Clear 8 dst src) (m : ByteMem 64) :
    (memcpy_n dst src n).run m = (memcpy_1 dst src n).run m := by
  have hsum : n.toNat =
      n.toNat / 8 * 8 + (n.toNat % 8 / 4 * 4 + (n.toNat % 4 / 2 * 2 + n.toNat % 2)) := by omega
  rw [memcpy_n_eq hn, memcpy_1_eq hn]
  conv_rhs => rw [hsum]
  exact run_loop_bytes (by decide) h (fun _ _ m' h' =>
    run_loop_bytes (by decide) h' (fun _ _ m' h' =>
      run_loop_bytes (by decide) h' (fun _ _ _ _ => rfl) m') m') m

/-- The program loads the `n` bytes at `s` and stores the `n` bytes at `d`, each once and in
ascending order. -/
def Tiles (d s : U64) (n : ℕ) {α : Type} (c : MemProg 64 α) : Prop :=
  ∀ m, (c.accesses m).flatMap MemOp.loaded = block n s ∧
    (c.accesses m).flatMap MemOp.stored = block n d

theorem Tiles.loop {w k j : ℕ} {α : Type} {f : U64 × U64 → MemProg 64 α}
    (hf : ∀ d s, Tiles d s j (f (d, s))) (d s : U64) :
    Tiles d s (k * w + j) (copyWords w k d s >>= f) := by
  intro m
  obtain ⟨m', hrun⟩ := run_copyWords_ends w k d s m
  rw [MemProg.accesses_bind hrun, List.flatMap_append, List.flatMap_append, loaded_copyWords,
    stored_copyWords, (hf _ _ m').1, (hf _ _ m').2, block_add, block_add]
  exact ⟨rfl, rfl⟩

theorem tiles_memcpy_n (hn : n.toNat < 2 ^ 63) : Tiles dst src n.toNat (memcpy_n dst src n) := by
  have hsum : n.toNat = n.toNat / 8 * 8 +
      (n.toNat % 8 / 4 * 4 + (n.toNat % 4 / 2 * 2 + (n.toNat % 2 * 1 + 0))) := by omega
  rw [memcpy_n_eq hn]
  conv_lhs => rw [hsum]
  exact Tiles.loop (Tiles.loop (Tiles.loop (Tiles.loop fun _ _ _ => ⟨rfl, rfl⟩))) dst src

/-- The blocks may overlap, and may wrap around. -/
theorem memcpy_n_bytes (hn : 0 ≤ n.toInt) (heq : dst.toNat % 8 = src.toNat % 8)
    (m : ByteMem 64) :
    (∃ m', (memcpy_n dst src n).run m = .ok ((), m') ∧
      (memcpy_1 dst src n).run m = .ok ((), m')) ∧
    ((memcpy_n dst src n).accesses m).flatMap MemOp.loaded = block n.toNat src ∧
    ((memcpy_n dst src n).accesses m).flatMap MemOp.stored = block n.toNat dst ∧
    (block n.toNat src).Nodup ∧ (block n.toNat dst).Nodup := by
  obtain ⟨hlt, -⟩ := toNat_of_nonneg hn
  obtain ⟨m', hrun⟩ := run_memcpy_n_ends hlt dst src m
  have htiles : Tiles dst src n.toNat (memcpy_n dst src n) := tiles_memcpy_n hlt
  obtain ⟨hload, hstore⟩ := htiles m
  refine ⟨⟨m', hrun, ?_⟩, hload, hstore, block_nodup src (by omega), block_nodup dst (by omega)⟩
  rw [← run_memcpy_n_bytes hlt (clear_of_align heq), hrun]

/-- Nineteen bytes moved up by eight. -/
theorem memcpy_n_bytes_overlap : ∃ m',
    (memcpy_n 0x80300008 0x80300000 19).run (fun x => x.setWidth 8) = .ok ((), m') ∧
      (memcpy_1 0x80300008 0x80300000 19).run (fun x => x.setWidth 8) = .ok ((), m') :=
  (memcpy_n_bytes (by decide) (by decide) _).1

end GQuuuuuunix.Properties
