import Mathlib.Data.BitVec
import Mathlib.Data.List.Nodup
import Mathlib.Data.Nat.Notation
import Mathlib.Logic.Function.Basic
import GQuuuuuunix.Lib.Prog

/-! # Byte memory

A memory of bytes with modular addresses, the words read and written in it, and the copy of a
block: what an ascending copy of two blocks that do not meet comes to, word by word, when an
ascending copy of words is one of bytes on blocks that do meet, and which bytes it accesses. -/

namespace GQuuuuuunix.Lib
set_option autoImplicit false

abbrev ByteMem (a : ℕ) : Type := BitVec a → BitVec 8

/-- A word of `w` bytes, the one at the lowest address first. -/
abbrev Word (w : ℕ) : Type := Fin w → BitVec 8

namespace ByteMem

variable {a : ℕ}

def read (m : ByteMem a) (p : BitVec a) (w : ℕ) : Word w := fun i => m (p + BitVec.ofNat a i)

def write (m : ByteMem a) (p : BitVec a) {w : ℕ} (v : Word w) : ByteMem a :=
  fun x => if h : (x - p).toNat < w then v ⟨(x - p).toNat, h⟩ else m x

/-- The `n` bytes at `d` become those that are at `s`. -/
def copy (m : ByteMem a) (n : ℕ) (d s : BitVec a) : ByteMem a :=
  fun x => if (x - d).toNat < n then m (s + (x - d)) else m x

theorem write_read (m : ByteMem a) (d s : BitVec a) (w : ℕ) :
    m.write d (m.read s w) = m.copy w d s := by
  funext x
  unfold write read copy
  split
  · rw [BitVec.ofNat_toNat, BitVec.setWidth_eq]
  · rfl

theorem copy_zero (m : ByteMem a) (d s : BitVec a) : m.copy 0 d s = m := by
  funext x
  exact if_neg (Nat.not_lt_zero _)

/-! ## Blocks -/

theorem add_sub_left (d x : BitVec a) : d + x - d = x := by
  rw [BitVec.add_comm, BitVec.add_sub_cancel]

theorem add_sub_ofNat {n : ℕ} (d : BitVec a) (hn : n < 2 ^ a) :
    (d + BitVec.ofNat a n - d).toNat = n := by
  rw [add_sub_left, BitVec.toNat_ofNat, Nat.mod_eq_of_lt hn]

theorem add_ofNat_toNat (d x : BitVec a) : d + BitVec.ofNat a (x - d).toNat = x := by
  rw [BitVec.ofNat_toNat, BitVec.setWidth_eq, BitVec.add_comm, BitVec.sub_add_cancel]

theorem add_ofNat_add (d : BitVec a) (i j : ℕ) :
    d + BitVec.ofNat a i + BitVec.ofNat a j = d + BitVec.ofNat a (i + j) := by
  rw [BitVec.add_assoc, ← BitVec.ofNat_add]

/-- The block of `n` bytes at `d` and the one at `s` have no byte in common. -/
def Apart (n : ℕ) (d s : BitVec a) : Prop :=
  ∀ i < n, ∀ j < n, d + BitVec.ofNat a i ≠ s + BitVec.ofNat a j

instance (n : ℕ) (d s : BitVec a) : Decidable (Apart n d s) :=
  inferInstanceAs (Decidable (∀ i < n, ∀ j < n, _))

theorem Apart.of_le {n k : ℕ} {d s : BitVec a} (h : Apart n d s) (hk : k ≤ n) : Apart k d s :=
  fun i hi j hj => h i (by omega) j (by omega)

/-- The lower piece of the destination is not where the upper piece of the source is. -/
theorem Apart.pieces {n k : ℕ} {d s : BitVec a} (h : Apart (n + k) d s) :
    ∀ i < n, ∀ j < k, d + BitVec.ofNat a i ≠ s + BitVec.ofNat a (n + j) :=
  fun i hi j hj => h i (by omega) (n + j) (by omega)

theorem Apart.right {n k : ℕ} {d s : BitVec a} (h : Apart (n + k) d s) :
    Apart k (d + BitVec.ofNat a n) (s + BitVec.ofNat a n) := by
  intro i hi j hj
  rw [add_ofNat_add, add_ofNat_add]
  exact h (n + i) (by omega) (n + j) (by omega)

theorem copy_inside (m : ByteMem a) {n i : ℕ} (d s : BitVec a) (hn : n ≤ 2 ^ a) (hi : i < n) :
    m.copy n d s (d + BitVec.ofNat a i) = m (s + BitVec.ofNat a i) := by
  have hlt : (d + BitVec.ofNat a i - d).toNat = i := add_sub_ofNat d (by omega)
  unfold copy
  rw [if_pos (by omega), add_sub_left]

theorem copy_outside (m : ByteMem a) {n : ℕ} {d s x : BitVec a}
    (hx : ∀ i < n, x ≠ d + BitVec.ofNat a i) : m.copy n d s x = m x := by
  refine if_neg fun h => hx _ h ?_
  exact (add_ofNat_toNat d x).symm

/-- A block copied in two pieces, the lower one first, which must not reach the bytes that the other
one is copied from. -/
theorem copy_copy (m : ByteMem a) {n k : ℕ} {d s : BitVec a} (hn : n + k ≤ 2 ^ a)
    (h : ∀ i < n, ∀ j < k, d + BitVec.ofNat a i ≠ s + BitVec.ofNat a (n + j)) :
    (m.copy n d s).copy k (d + BitVec.ofNat a n) (s + BitVec.ofNat a n) = m.copy (n + k) d s := by
  funext x
  obtain ⟨t, ht, hx⟩ : ∃ t, t < 2 ^ a ∧ x = d + BitVec.ofNat a t :=
    ⟨(x - d).toNat, BitVec.isLt _, (add_ofNat_toNat d x).symm⟩
  subst hx
  by_cases hk : n ≤ t ∧ t < n + k
  · -- the byte is in the second piece, and its source was not written by the first
    have hsplit : d + BitVec.ofNat a t = d + BitVec.ofNat a n + BitVec.ofNat a (t - n) := by
      rw [add_ofNat_add]
      congr 2
      omega
    have hsource : s + BitVec.ofNat a t = s + BitVec.ofNat a (n + (t - n)) := by
      congr 2
      omega
    rw [copy_inside m d s hn hk.2, hsource, hsplit, copy_inside _ _ _ (by omega) (by omega),
      add_ofNat_add]
    exact copy_outside m fun i hi he => h i hi (t - n) (by omega) he.symm
  · have hsecond : ∀ j < k, d + BitVec.ofNat a t ≠ d + BitVec.ofNat a n + BitVec.ofNat a j := by
      intro j hj he
      rw [add_ofNat_add] at he
      have := congrArg (fun y => (y - d).toNat) he
      rw [add_sub_ofNat d ht, add_sub_ofNat d (by omega)] at this
      omega
    rw [copy_outside _ hsecond]
    unfold copy
    rw [add_sub_ofNat d ht]
    by_cases hlt : t < n
    · rw [if_pos hlt, if_pos (by omega)]
    · rw [if_neg hlt, if_neg (by omega)]

end ByteMem

/-! ## Programs that read and write memory -/

/-- One access, with its size in bytes and its address; `undefined` is what has no meaning. -/
inductive MemOp (a : ℕ) : Type where
  | load (w : ℕ) (p : BitVec a)
  | store (w : ℕ) (p : BitVec a) (v : Word w)
  | undefined

@[reducible] def MemOp.Ret {a : ℕ} : MemOp a → Type
  | .load w _ => Word w
  | _ => Unit

abbrev MemProg (a : ℕ) : Type → Type := Prog (MemOp a) MemOp.Ret

/-- The program did something that has no meaning. -/
inductive MemFault where
  | undefined

def MemOp.exec {a : ℕ} : (o : MemOp a) → ByteMem a → Except MemFault (o.Ret × ByteMem a)
  | .load w p, m => .ok (m.read p w, m)
  | .store _ p v, m => .ok ((), m.write p v)
  | .undefined, _ => .error .undefined

/-- What the program returns and the memory it leaves. -/
def MemProg.run {a : ℕ} {α : Type} (c : MemProg a α) (m : ByteMem a) :
    Except MemFault (α × ByteMem a) :=
  Prog.run MemOp.exec c m

section
variable {a : ℕ} {α β : Type}

theorem MemProg.run_bind (c : MemProg a α) (f : α → MemProg a β) (m : ByteMem a) :
    MemProg.run (c >>= f) m = (c.run m).bind fun x => (f x.1).run x.2 :=
  Prog.run_bind MemOp.exec c f m

def loadWord (w : ℕ) (p : BitVec a) : MemProg a (Word w) := Prog.lift (MemOp.load w p)

def storeWord {w : ℕ} (p : BitVec a) (v : Word w) : MemProg a Unit :=
  Prog.lift (MemOp.store w p v)

/-- `*d = *s`. -/
def copyWord (w : ℕ) (d s : BitVec a) : MemProg a Unit := do
  let v ← loadWord w s
  storeWord d v

theorem run_copyWord (w : ℕ) (d s : BitVec a) (m : ByteMem a) :
    (copyWord w d s).run m = .ok ((), m.copy w d s) := by
  rw [← ByteMem.write_read]
  rfl

/-- `k` words from `s` to `d`, lowest first; the pointers past them. -/
def copyWords (w : ℕ) : ℕ → BitVec a → BitVec a → MemProg a (BitVec a × BitVec a)
  | 0, d, s => pure (d, s)
  | k + 1, d, s => do
    copyWord w d s
    copyWords w k (d + BitVec.ofNat a w) (s + BitVec.ofNat a w)

theorem run_copyWords (w k : ℕ) (d s : BitVec a) (m : ByteMem a) (hk : k * w ≤ 2 ^ a)
    (h : ByteMem.Apart (k * w) d s) :
    (copyWords w k d s).run m =
      .ok ((d + BitVec.ofNat a (k * w), s + BitVec.ofNat a (k * w)), m.copy (k * w) d s) := by
  induction k generalizing d s m with
  | zero =>
    rw [Nat.zero_mul, ByteMem.copy_zero, BitVec.add_zero, BitVec.add_zero]
    rfl
  | succ k ih =>
    have hsum : (k + 1) * w = w + k * w := by
      rw [Nat.succ_mul, Nat.add_comm]
    rw [hsum] at hk h ⊢
    unfold copyWords
    rw [MemProg.run_bind, run_copyWord]
    show (copyWords w k _ _).run _ = _
    rw [ih _ _ _ (by omega) h.right, ByteMem.copy_copy m hk h.pieces, ByteMem.add_ofNat_add,
      ByteMem.add_ofNat_add]

/-- Blocks that meet are copied too, in some way. -/
theorem run_copyWords_ends (w k : ℕ) (d s : BitVec a) (m : ByteMem a) : ∃ m',
    (copyWords w k d s).run m =
      .ok ((d + BitVec.ofNat a (k * w), s + BitVec.ofNat a (k * w)), m') := by
  induction k generalizing d s m with
  | zero =>
    rw [Nat.zero_mul, BitVec.add_zero, BitVec.add_zero]
    exact ⟨m, rfl⟩
  | succ k ih =>
    obtain ⟨m', hrun⟩ := ih (d + BitVec.ofNat a w) (s + BitVec.ofNat a w) (m.copy w d s)
    have hsum : (k + 1) * w = w + k * w := by
      rw [Nat.succ_mul, Nat.add_comm]
    unfold copyWords
    rw [MemProg.run_bind, run_copyWord, hsum, ← ByteMem.add_ofNat_add, ← ByteMem.add_ofNat_add]
    exact ⟨m', hrun⟩

/-! ## Words as bytes -/

theorem copyWords_succ (w k : ℕ) (d s : BitVec a) : copyWords w (k + 1) d s =
    (copyWord w d s).bind fun _ =>
      copyWords w k (d + BitVec.ofNat a w) (s + BitVec.ofNat a w) := rfl

theorem copyWords_add (w i j : ℕ) (d s : BitVec a) :
    copyWords w (i + j) d s = (do
      let x ← copyWords w i d s
      copyWords w j x.1 x.2) := by
  induction i generalizing d s with
  | zero =>
    rw [Nat.zero_add]
    rfl
  | succ i ih =>
    rw [Nat.succ_add, copyWords_succ, copyWords_succ]
    simp only [Prog.bind_eq, Prog.bind_assoc, ih]

/-- The destination does not begin inside the `w` bytes that begin at the source. -/
def Clear (w : ℕ) (d s : BitVec a) : Prop := ∀ j, 0 < j → j < w → d ≠ s + BitVec.ofNat a j

theorem Clear.add {w : ℕ} {d s : BitVec a} (h : Clear w d s) (x : BitVec a) :
    Clear w (d + x) (s + x) := by
  intro j h0 hj he
  rw [BitVec.add_assoc, BitVec.add_comm x, ← BitVec.add_assoc] at he
  exact h j h0 hj ((BitVec.add_left_inj x).1 he)

theorem Clear.of_le {w w' : ℕ} {d s : BitVec a} (h : Clear w d s) (hle : w' ≤ w) : Clear w' d s :=
  fun j h0 hj => h j h0 (by omega)

/-- A word copied byte by byte: no byte is written before it is read. -/
theorem run_copyWords_one {w : ℕ} {d s : BitVec a} (m : ByteMem a) (hw : w ≤ 2 ^ a)
    (h : Clear w d s) : (copyWords 1 w d s).run m =
      .ok ((d + BitVec.ofNat a w, s + BitVec.ofNat a w), m.copy w d s) := by
  induction w generalizing d s m with
  | zero =>
    rw [ByteMem.copy_zero, BitVec.add_zero, BitVec.add_zero]
    rfl
  | succ w ih =>
    have hpieces : ∀ i < 1, ∀ j < w, d + BitVec.ofNat a i ≠ s + BitVec.ofNat a (1 + j) := by
      intro i hi j hj
      obtain rfl : i = 0 := by omega
      rw [BitVec.add_zero]
      exact h (1 + j) (by omega) (by omega)
    unfold copyWords
    rw [MemProg.run_bind, run_copyWord]
    show (copyWords 1 w _ _).run _ = _
    rw [ih _ (by omega) ((h.add _).of_le (by omega)), ByteMem.copy_copy m (by omega) hpieces,
      ByteMem.add_ofNat_add, ByteMem.add_ofNat_add, Nat.add_comm 1 w]

theorem run_copyWords_bytes {w : ℕ} {d s : BitVec a} (k : ℕ) (m : ByteMem a) (hw : w ≤ 2 ^ a)
    (h : Clear w d s) : (copyWords w k d s).run m = (copyWords 1 (k * w) d s).run m := by
  induction k generalizing d s m with
  | zero =>
    rw [Nat.zero_mul]
    rfl
  | succ k ih =>
    rw [Nat.succ_mul, Nat.add_comm (k * w), copyWords_add 1, MemProg.run_bind,
      run_copyWords_one m hw h, copyWords_succ, ← Prog.bind_eq, MemProg.run_bind, run_copyWord]
    exact ih _ (h.add _)

end

/-! ## What is accessed -/

section
variable {a : ℕ} {α β : Type} {d s : BitVec a} {m : ByteMem a}

/-- The accesses of a program that starts on the memory. -/
def MemProg.accesses (c : MemProg a α) (m : ByteMem a) : List (MemOp a) := c.trace MemOp.exec m

theorem MemProg.accesses_bind {c : MemProg a α} {f : α → MemProg a β} {x : α × ByteMem a}
    (h : c.run m = .ok x) : (c >>= f).accesses m = c.accesses m ++ (f x.1).accesses x.2 :=
  Prog.trace_bind h

theorem accesses_copyWords (w k : ℕ) : (copyWords w (k + 1) d s).accesses m =
    .load w s :: .store w d (m.read s w) ::
      (copyWords w k (d + BitVec.ofNat a w) (s + BitVec.ofNat a w)).accesses (m.copy w d s) := by
  rw [← ByteMem.write_read]
  rfl

/-- The address is a multiple of the size. -/
def MemOp.Aligned : MemOp a → Prop
  | .load w p => w ∣ p.toNat
  | .store w p _ => w ∣ p.toNat
  | .undefined => True

theorem dvd_add_ofNat {w : ℕ} (hw : w ∣ 2 ^ a) (p : BitVec a) (k : ℕ) :
    w ∣ (p + BitVec.ofNat a k).toNat ↔ w ∣ p.toNat + k := by
  rw [BitVec.toNat_add, BitVec.toNat_ofNat, Nat.add_mod_mod, Nat.dvd_mod_iff hw]

/-- The words of a copy are aligned as the first of them is. -/
theorem aligned_copyWords {w : ℕ} (hw : w ∣ 2 ^ a) (k : ℕ) (d s : BitVec a) (m : ByteMem a) :
    (∀ o ∈ (copyWords w k d s).accesses m, o.Aligned) ↔
      (k ≠ 0 → w ∣ s.toNat ∧ w ∣ d.toNat) := by
  induction k generalizing d s m with
  | zero => exact ⟨fun _ h => absurd rfl h, fun _ o ho => by cases ho⟩
  | succ k ih =>
    rw [accesses_copyWords, List.forall_mem_cons, List.forall_mem_cons, ih, dvd_add_ofNat hw,
      dvd_add_ofNat hw, Nat.dvd_add_left (Nat.dvd_refl w), Nat.dvd_add_left (Nat.dvd_refl w)]
    exact ⟨fun h _ => ⟨h.1, h.2.1⟩, fun h => ⟨(h (Nat.succ_ne_zero k)).1,
      (h (Nat.succ_ne_zero k)).2, fun _ => h (Nat.succ_ne_zero k)⟩⟩

/-- The addresses of the `n` bytes at `p`, ascending. -/
def block (n : ℕ) (p : BitVec a) : List (BitVec a) :=
  (List.range n).map fun i => p + BitVec.ofNat a i

theorem block_add (n k : ℕ) (p : BitVec a) :
    block (n + k) p = block n p ++ block k (p + BitVec.ofNat a n) := by
  unfold block
  rw [List.range_add, List.map_append, List.map_map]
  simp only [Function.comp_def, ByteMem.add_ofNat_add]

theorem block_nodup {n : ℕ} (p : BitVec a) (hn : n ≤ 2 ^ a) : (block n p).Nodup := by
  refine List.Nodup.map_on (fun i hi j hj he => ?_) List.nodup_range
  rw [List.mem_range] at hi hj
  have hsub := congrArg (fun y => (y - p).toNat) he
  rwa [ByteMem.add_sub_ofNat p (by omega), ByteMem.add_sub_ofNat p (by omega)] at hsub

def MemOp.loaded : MemOp a → List (BitVec a)
  | .load w p => block w p
  | _ => []

def MemOp.stored : MemOp a → List (BitVec a)
  | .store w p _ => block w p
  | _ => []

theorem loaded_copyWords (w k : ℕ) (d s : BitVec a) (m : ByteMem a) :
    ((copyWords w k d s).accesses m).flatMap MemOp.loaded = block (k * w) s := by
  induction k generalizing d s m with
  | zero =>
    rw [Nat.zero_mul]
    rfl
  | succ k ih =>
    rw [accesses_copyWords, List.flatMap_cons, List.flatMap_cons, ih, Nat.succ_mul, Nat.add_comm,
      block_add]
    rfl

theorem stored_copyWords (w k : ℕ) (d s : BitVec a) (m : ByteMem a) :
    ((copyWords w k d s).accesses m).flatMap MemOp.stored = block (k * w) d := by
  induction k generalizing d s m with
  | zero =>
    rw [Nat.zero_mul]
    rfl
  | succ k ih =>
    rw [accesses_copyWords, List.flatMap_cons, List.flatMap_cons, ih, Nat.succ_mul, Nat.add_comm,
      block_add]
    rfl

end

end GQuuuuuunix.Lib
