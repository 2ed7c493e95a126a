import GQuuuuuunix.Kernel.Interrupts

/-! # atomic.h, on the atomic objects of the tasks

The kernel's own `atomic_int_t` objects, `isLocked` of a lock and `start`, are in `SpinLock`. Here
every function is on an object of any of the three types that tasks may have. An object lives at
the start of an aligned double word; a `.w` instruction acts on its low half.

A register holds a C `int` sign-extended.

The macros are the functions that their `_Generic` selects, on the value of the object. As they are
written, `CMP_XCHG` does not compile, since it gives `__e` and `__d` the type of the struct, and
`ATOMIC_FETCH_ADD` to `ATOMIC_FETCH_XOR` only compile on a pointer that is named `ATOMIC_PTR`, since
their parameter is spelled `ATMOIC_PTR`; the functions can be called by name. -/

namespace GQuuuuuunix.Kernel
open Lib
set_option autoImplicit false

/-! ## The instructions -/

/-- What the double word `x` holds for an instruction of this width; `.w` sign-extends. -/
def Width.read : Width → U64 → U64
  | .w, x => (x.setWidth 32).signExtend 64
  | .d, x => x

/-- The double word `x` after `y` is stored. -/
def Width.write : Width → U64 → U64 → U64
  | .w, x, y => x.extractLsb' 32 32 ++ y.setWidth 32
  | .d, _, y => y

/-- What is stored, of the word that was there and the register. -/
def Amo.apply : Amo → U64 → U64 → U64
  | .swap, _, y => y
  | .add, x, y => x + y
  | .and, x, y => x &&& y
  | .or, x, y => x ||| y
  | .xor, x, y => x ^^^ y

/-! ## The text of the asm statements

The compiler hands the text of a function that is called to the assembler, which takes one
instruction a line. -/

namespace Asm

abbrev Line := List Char

def Line.trim (s : Line) : Line := ((s.dropWhile (· = ' ')).reverse.dropWhile (· = ' ')).reverse

/-- How many operands the instructions of atomic.h take. -/
def operands (mnemonic : List Char) : Option ℕ :=
  let op := mnemonic.takeWhile (· ≠ '.')
  if op ∈ ["lr".toList, "bnez".toList] then some 2
  else if op ∈ ["sc".toList, "bne".toList, "amoswap".toList, "amoadd".toList, "amoand".toList,
    "amoor".toList, "amoxor".toList] then some 3
  else none

/-- Each operand is a word: a register, an address or a label. -/
def insnOk (s : Line) : Bool :=
  let args := ((s.dropWhile (· ≠ ' ')).splitOn ',').map Line.trim
  operands (s.takeWhile (· ≠ ' ')) == some args.length && args.all fun a => a ≠ [] && ' ' ∉ a

/-- A comment, or at most a label and an instruction. -/
def Line.ok (s : Line) : Bool :=
  let s := s.trim
  let s := if ':' ∈ s then Line.trim (s.dropWhile (· ≠ ':')).tail else s
  s = [] || s.head? = some '#' || insnOk s

/-- A string literal of C, in pieces. -/
abbrev Text := List String

def assembles (text : Text) : Bool :=
  ((text.flatMap String.toList).splitOn '\n').all Line.ok

/-! ### The texts -/

def suffix : Width → String
  | .w => ".w"
  | .d => ".d"

def amo (f : Amo) (sz : Width) : Text :=
  [match f with
    | .swap => "amoswap"
    | .add => "amoadd"
    | .and => "amoand"
    | .or => "amoor"
    | .xor => "amoxor", suffix sz, ".aqrl %0, %1, (%2)"]

def cmp_xchg (sz : Width) : Text :=
  ["#cmpxchg\n",
    "1: lr", suffix sz, ".aqrl %[old], (%[ptr])\n",
    "   bne  %[old], %[expected], 2f\n",
    "   sc", suffix sz, ".rl %[result], %[desired], (%[ptr])\n",
    "   bnez %[result], 1b\n",
    "2:\n"]

def atomic_load (sz : Width) : Text :=
  ["#atomic load\n",
    "lr", suffix sz, ".aqrl %[old], (%[ptr])"]

def atomic_store : Width → Text
  | .w =>
    ["#atomic store\n",
      "1: lr.w %[tmp], (%[ptr])\n",
      "   sc.w %[result], %[val], (%[ptr])\n",
      "   bnez %[result], 1b\n"]
  -- no newline after the `sc`
  | .d =>
    ["#atomic store\n",
      "1: lr.d %[tmp], (%[ptr])\n",
      "   sc.d %[result], %[val], (%[ptr])",
      "   bnez %[result], 1b\n"]

theorem assembles_amo (f : Amo) (sz : Width) : assembles (amo f sz) = true := by
  cases f <;> cases sz <;> decide +kernel

theorem assembles_cmp_xchg (sz : Width) : assembles (cmp_xchg sz) = true := by
  cases sz <;> decide +kernel

theorem assembles_load (sz : Width) : assembles (atomic_load sz) = true := by
  cases sz <;> decide +kernel

theorem assembles_store (sz : Width) : assembles (atomic_store sz) = true ↔ sz = .w := by
  cases sz <;> decide +kernel

end Asm

/-! ## Values in registers -/

namespace Atomic

/-- An `int` in a register. -/
abbrev ofInt (x : I32) : U64 := x.signExtend 64

/-- The `int` that the compiler reads in a register. -/
abbrev toInt (x : U64) : I32 := x.setWidth 32

end Atomic

namespace AtomicTy

/-- `.w` for an `atomic_int_t`, `.d` for the others. -/
def width : AtomicTy → Width
  | .atomic_int_t => .w
  | .atomic_long_t | .atomic_ulong_t => .d

def toReg : (ty : AtomicTy) → ty.Val → U64
  | .atomic_int_t, x => Atomic.ofInt x
  | .atomic_long_t, x | .atomic_ulong_t, x => x

def ofReg : (ty : AtomicTy) → U64 → ty.Val
  | .atomic_int_t, x => Atomic.toInt x
  | .atomic_long_t, x | .atomic_ulong_t, x => x

/-- The type of the expression `ATOMIC_LOAD(p)`. -/
@[reducible] def LoadTy : AtomicTy → Type
  | .atomic_int_t | .atomic_ulong_t => I32
  | .atomic_long_t => I64

def loadToReg : (ty : AtomicTy) → ty.LoadTy → U64
  | .atomic_int_t, x | .atomic_ulong_t, x => Atomic.ofInt x
  | .atomic_long_t, x => x

end AtomicTy

/-! ## The functions -/

namespace Atomic

def lr (sz : Width) (a : ℕ) : KProg U64 := atomic (.lr sz a)
def sc (sz : Width) (a : ℕ) (x : U64) : KProg U64 := atomic (.sc sz a x)
def amo (f : Amo) (sz : Width) (a : ℕ) (x : U64) : KProg U64 := atomic (.amo f sz a x)

/-! ### TEST_SET and the ATOMIC_FETCH family -/

/-- `push_off(); amo...; pop_off(); return old;` -/
def fetch (f : Amo) (sz : Width) (a : ℕ) (val : U64) : KProg U64 := do
  push_off
  let old ← amo f sz a val
  pop_off
  pure old

/-- The same with `int` operand and result. -/
def fetchInt (f : Amo) (a : ℕ) (val : I32) : KProg I32 := do
  let old ← fetch f .w a (ofInt val)
  pure (toInt old)

def test_set_i32 (a_int : ℕ) : KProg I32 := fetchInt .swap a_int 1
def test_set_i64 (a_long : ℕ) : KProg I64 := fetch .swap .d a_long 1
def test_set_u64 (a_ulong : ℕ) : KProg U64 := fetch .swap .d a_ulong 1

def TEST_SET : (ty : AtomicTy) → ℕ → KProg ty.Val
  | .atomic_int_t, p => test_set_i32 p
  | .atomic_long_t, p => test_set_i64 p
  | .atomic_ulong_t, p => test_set_u64 p

def atomic_fetch_add_i32 (a_int : ℕ) (val : I32) : KProg I32 := fetchInt .add a_int val
def atomic_fetch_add_i64 (a_long : ℕ) (val : I64) : KProg I64 := fetch .add .d a_long val
def atomic_fetch_add_u64 (a_ulong : ℕ) (val : U64) : KProg U64 := fetch .add .d a_ulong val

def ATOMIC_FETCH_ADD : (ty : AtomicTy) → ℕ → ty.Val → KProg ty.Val
  | .atomic_int_t, p, val => atomic_fetch_add_i32 p val
  | .atomic_long_t, p, val => atomic_fetch_add_i64 p val
  | .atomic_ulong_t, p, val => atomic_fetch_add_u64 p val

-- the instruction of the three is `amoadd`, and `val` goes to it as it is
def atomic_fetch_sub_i32 (a_int : ℕ) (val : I32) : KProg I32 := fetchInt .add a_int val
def atomic_fetch_sub_i64 (a_long : ℕ) (val : I64) : KProg I64 := fetch .add .d a_long val
def atomic_fetch_sub_u64 (a_ulong : ℕ) (val : U64) : KProg U64 := fetch .add .d a_ulong val

def ATOMIC_FETCH_SUB : (ty : AtomicTy) → ℕ → ty.Val → KProg ty.Val
  | .atomic_int_t, p, val => atomic_fetch_sub_i32 p val
  | .atomic_long_t, p, val => atomic_fetch_sub_i64 p val
  | .atomic_ulong_t, p, val => atomic_fetch_sub_u64 p val

def atomic_fetch_and_i32 (a_int : ℕ) (val : I32) : KProg I32 := fetchInt .and a_int val
def atomic_fetch_and_i64 (a_long : ℕ) (val : I64) : KProg I64 := fetch .and .d a_long val
def atomic_fetch_and_u64 (a_ulong : ℕ) (val : U64) : KProg U64 := fetch .and .d a_ulong val

def ATOMIC_FETCH_AND : (ty : AtomicTy) → ℕ → ty.Val → KProg ty.Val
  | .atomic_int_t, p, val => atomic_fetch_and_i32 p val
  | .atomic_long_t, p, val => atomic_fetch_and_i64 p val
  | .atomic_ulong_t, p, val => atomic_fetch_and_u64 p val

def atomic_fetch_or_i32 (a_int : ℕ) (val : I32) : KProg I32 := fetchInt .or a_int val
def atomic_fetch_or_i64 (a_long : ℕ) (val : I64) : KProg I64 := fetch .or .d a_long val
def atomic_fetch_or_u64 (a_ulong : ℕ) (val : U64) : KProg U64 := fetch .or .d a_ulong val

def ATOMIC_FETCH_OR : (ty : AtomicTy) → ℕ → ty.Val → KProg ty.Val
  | .atomic_int_t, p, val => atomic_fetch_or_i32 p val
  | .atomic_long_t, p, val => atomic_fetch_or_i64 p val
  | .atomic_ulong_t, p, val => atomic_fetch_or_u64 p val

def atomic_fetch_xor_i32 (a_int : ℕ) (val : I32) : KProg I32 := fetchInt .xor a_int val
def atomic_fetch_xor_i64 (a_long : ℕ) (val : I64) : KProg I64 := fetch .xor .d a_long val
def atomic_fetch_xor_u64 (a_ulong : ℕ) (val : U64) : KProg U64 := fetch .xor .d a_ulong val

def ATOMIC_FETCH_XOR : (ty : AtomicTy) → ℕ → ty.Val → KProg ty.Val
  | .atomic_int_t, p, val => atomic_fetch_xor_i32 p val
  | .atomic_long_t, p, val => atomic_fetch_xor_i64 p val
  | .atomic_ulong_t, p, val => atomic_fetch_xor_u64 p val

/-! ### CMP_XCHG -/

/-- One round of `1: lr; bne 2f; sc; bnez 1b; 2:`, with what it leaves in `old`. -/
def cmp_xchg_round (sz : Width) (a : ℕ) (expected desired : U64) : KProg U64 := do
  let old ← lr sz a
  if old ≠ expected then
    pure old
  else
    let result ← sc sz a desired
    if result ≠ 0 then
      loop (.cmp_xchg sz a expected desired)
    else
      pure old

def cmp_xchg_i32 (a_int : ℕ) (expected desired : I32) : KProg I32 := do
  let old ← loop (.cmp_xchg .w a_int (ofInt expected) (ofInt desired))
  pure (toInt old)

def cmp_xchg_i64 (a_long : ℕ) (expected desired : I64) : KProg I64 :=
  loop (.cmp_xchg .d a_long expected desired)

def cmp_xchg_u64 (a_ulong : ℕ) (expected desired : U64) : KProg U64 :=
  loop (.cmp_xchg .d a_ulong expected desired)

def CMP_XCHG : (ty : AtomicTy) → ℕ → ty.Val → ty.Val → KProg ty.Val
  | .atomic_int_t, p, e, d => cmp_xchg_i32 p e d
  | .atomic_long_t, p, e, d => cmp_xchg_i64 p e d
  | .atomic_ulong_t, p, e, d => cmp_xchg_u64 p e d

/-! ### ATOMIC_LOAD -/

def atomic_load_i32 (a_int : ℕ) : KProg I32 := do
  let old ← lr .w a_int
  pure (toInt old)

def atomic_load_i64 (a_long : ℕ) : KProg I64 := lr .d a_long

/-- The function is declared `int`. -/
def atomic_load_u64 (a_ulong : ℕ) : KProg I32 := do
  let old ← lr .d a_ulong
  pure (toInt old)

def ATOMIC_LOAD : (ty : AtomicTy) → ℕ → KProg ty.LoadTy
  | .atomic_int_t, p => atomic_load_i32 p
  | .atomic_long_t, p => atomic_load_i64 p
  | .atomic_ulong_t, p => atomic_load_u64 p

/-! ### ATOMIC_STORE -/

/-- One round of `1: lr; sc; bnez 1b`. -/
def store_round (sz : Width) (a : ℕ) (val : U64) : KProg Unit := do
  let _tmp ← lr sz a
  let result ← sc sz a val
  if result ≠ 0 then
    loop (.atomic_store sz a val)

/-- `push_off();` the loop `pop_off();` -/
def store (sz : Width) (a : ℕ) (val : U64) : KProg Unit := do
  push_off
  loop (.atomic_store sz a val)
  pop_off

/-- The code of a function with this asm statement, if there is one. -/
def assembled {α : Type} (text : Asm.Text) (code : KProg α) : Option (KProg α) :=
  if Asm.assembles text then some code else none

def atomic_store_i32 (a_int : ℕ) (val : I32) : Option (KProg I32) :=
  assembled (Asm.atomic_store .w) do
    store .w a_int (ofInt val)
    pure val

def atomic_store_i64 (a_long : ℕ) (val : I64) : Option (KProg I64) :=
  assembled (Asm.atomic_store .d) do
    store .d a_long val
    pure val

def atomic_store_u64 (a_ulong : ℕ) (val : U64) : Option (KProg U64) :=
  assembled (Asm.atomic_store .d) do
    store .d a_ulong val
    pure val

def ATOMIC_STORE : (ty : AtomicTy) → ℕ → ty.Val → Option (KProg ty.Val)
  | .atomic_int_t, p, val => atomic_store_i32 p val
  | .atomic_long_t, p, val => atomic_store_i64 p val
  | .atomic_ulong_t, p, val => atomic_store_u64 p val

/-- The loop of `ATOMIC_STORE` with each of its three instructions on a line of its own. -/
def storeCode (ty : AtomicTy) (p : ℕ) (val : ty.Val) : KProg ty.Val := do
  store ty.width p (ty.toReg val)
  pure val

theorem atomic_store_eq (ty : AtomicTy) (p : ℕ) (val : ty.Val) :
    ATOMIC_STORE ty p val = assembled (Asm.atomic_store ty.width) (storeCode ty p val) := by
  cases ty <;> rfl

theorem store_eq (ty : AtomicTy) (p : ℕ) (val : ty.Val) :
    (ATOMIC_STORE ty p val).getD (storeCode ty p val) = (do
      store ty.width p (ty.toReg val)
      pure val) := by
  rw [atomic_store_eq, assembled]
  split <;> rfl

/-- The macro, to the value it leaves in `a0`. No program has a store that does not assemble; the
calls here may be such stores too, with the code they would have. -/
def body : AtomicCall → KProg U64
  | .test_set ty a => do pure (ty.toReg (← TEST_SET ty a))
  | .cmp_xchg ty a e d => do pure (ty.toReg (← CMP_XCHG ty a e d))
  | .load ty a => do pure (ty.loadToReg (← ATOMIC_LOAD ty a))
  | .store ty a v => do pure (ty.toReg (← (ATOMIC_STORE ty a v).getD (storeCode ty a v)))
  | .fetch_add ty a v => do pure (ty.toReg (← ATOMIC_FETCH_ADD ty a v))
  | .fetch_sub ty a v => do pure (ty.toReg (← ATOMIC_FETCH_SUB ty a v))
  | .fetch_and ty a v => do pure (ty.toReg (← ATOMIC_FETCH_AND ty a v))
  | .fetch_or ty a v => do pure (ty.toReg (← ATOMIC_FETCH_OR ty a v))
  | .fetch_xor ty a v => do pure (ty.toReg (← ATOMIC_FETCH_XOR ty a v))

/-- The text of the function that the macro calls. -/
def text : AtomicCall → Asm.Text
  | .test_set ty _ => Asm.amo .swap ty.width
  | .cmp_xchg ty _ _ _ => Asm.cmp_xchg ty.width
  | .load ty _ => Asm.atomic_load ty.width
  | .store ty _ _ => Asm.atomic_store ty.width
  | .fetch_add ty _ _ | .fetch_sub ty _ _ => Asm.amo .add ty.width
  | .fetch_and ty _ _ => Asm.amo .and ty.width
  | .fetch_or ty _ _ => Asm.amo .or ty.width
  | .fetch_xor ty _ _ => Asm.amo .xor ty.width

/-- Every function but the two 64-bit stores assembles. -/
theorem assembles_text (c : AtomicCall) :
    Asm.assembles (text c) = true ↔ ∀ ty a v, c = .store ty a v → ty = .atomic_int_t := by
  cases c with
  | store ty a v =>
    rw [text, Asm.assembles_store]
    constructor
    · rintro hw _ _ _ ⟨⟩
      cases ty with
      | atomic_int_t => rfl
      | _ => cases hw
    · intro h
      rw [h ty a v rfl]
      rfl
  | cmp_xchg ty a e d =>
    rw [text, Asm.assembles_cmp_xchg]
    exact iff_of_true rfl fun _ _ _ h => by cases h
  | load ty a =>
    rw [text, Asm.assembles_load]
    exact iff_of_true rfl fun _ _ _ h => by cases h
  | _ =>
    rw [text, Asm.assembles_amo]
    exact iff_of_true rfl fun _ _ _ h => by cases h

def call (c : AtomicCall) : KProg Unit := do
  enter (.atomic c)
  let a0 ← body c
  point (.returned a0)
  leave (.atomic c) 0

end Atomic

end GQuuuuuunix.Kernel
