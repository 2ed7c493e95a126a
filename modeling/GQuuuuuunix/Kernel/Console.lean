import GQuuuuuunix.Kernel.Types

/-! # console.c, `printf`

The format is read through a cursor, an offset from the pointer that `printf` is given. What lies
past the terminator is whatever the memory holds there.

Signed arithmetic wraps, as the compiler makes it, and a division by zero gives -1, as the machine
does; where the source would call either undefined, the program performs `overflow` or `div_zero`
to say so. -/

namespace GQuuuuuunix.Console
open Lib Kernel
set_option autoImplicit false

abbrev U8 := BitVec 8

/-- A string, without its terminator. -/
structure CString where
  chars : List U8
  zero_notMem : (0 : U8) ∉ chars

/-- The offset of the terminator. -/
def CString.length (s : CString) : ℕ := s.chars.length

/-- What the memory holds at offset `i` of the string, when `past` lies behind its terminator. -/
def CString.at (s : CString) (past : ℕ → U8) (i : ℕ) : U8 :=
  if i < s.length then s.chars.getD i 0 else if i = s.length then 0 else past i

/-- An argument after the format; `long` and `long long` are one type. -/
inductive Arg where
  | int (v : I32) | long (v : I64) | str (s : CString)

/-! ## Operations -/

inductive PrintOp where
  /-- `*fmt`, with the cursor at `i`. -/
  | inspect (i : ℕ)
  | uart_putchar (c : U8)
  | va_int | va_long | va_str
  | set_tmp (i : I32) (c : U8)
  | get_tmp (i : I32)
  | overflow
  | div_zero
  /-- A loop is not done within its rounds. -/
  | more

@[reducible] def PrintOp.Ret : PrintOp → Type
  | .inspect _ | .get_tmp _ => U8
  | .va_int => I32
  | .va_long => I64
  | .va_str => CString
  | _ => Unit

abbrev PrintProg := Prog PrintOp PrintOp.Ret

def inspect (i : ℕ) : PrintProg U8 := Prog.lift (PrintOp.inspect i)
def uart_putchar (c : U8) : PrintProg Unit := Prog.lift (PrintOp.uart_putchar c)
def va_int : PrintProg I32 := Prog.lift PrintOp.va_int
def va_long : PrintProg I64 := Prog.lift PrintOp.va_long
def va_str : PrintProg CString := Prog.lift PrintOp.va_str
def set_tmp (i : I32) (c : U8) : PrintProg Unit := Prog.lift (PrintOp.set_tmp i c)
def get_tmp (i : I32) : PrintProg U8 := Prog.lift (PrintOp.get_tmp i)
def overflow : PrintProg Unit := Prog.lift PrintOp.overflow
def div_zero : PrintProg Unit := Prog.lift PrintOp.div_zero
def more : PrintProg Unit := Prog.lift PrintOp.more

/-- The character as a `char`. -/
def ch (c : Char) : U8 := BitVec.ofNat 8 c.toNat

/-! ## Arithmetic -/

/-- The value of an operation, which has none in C if `bad`. -/
def checked {w : ℕ} (bad : Bool) (x : BitVec w) : PrintProg (BitVec w) := do
  if bad then
    overflow
  pure x

section
variable {w : ℕ}

def c_add (x y : BitVec w) : PrintProg (BitVec w) :=
  checked (x.saddOverflow y) (x + y)

def c_sub (x y : BitVec w) : PrintProg (BitVec w) :=
  checked (x.ssubOverflow y) (x - y)

def c_mul (x y : BitVec w) : PrintProg (BitVec w) :=
  checked (x.smulOverflow y) (x * y)

def c_neg (x : BitVec w) : PrintProg (BitVec w) := checked x.negOverflow (-x)

def c_div (x y : BitVec w) : PrintProg (BitVec w) :=
  if y = 0 then do
    div_zero
    pure (-1)
  else checked (x.sdivOverflow y) (x.sdiv y)

def c_rem (x y : BitVec w) : PrintProg (BitVec w) :=
  if y = 0 then do
    div_zero
    pure x
  else checked (x.sdivOverflow y) (x.srem y)

/-! ## Conversions

Each loop is given the rounds it may take. -/

/-- `"0123456789abcdef"[nibble]`. -/
def hex_digit (nibble : ℕ) : U8 := ch ("0123456789abcdef".toList.getD nibble '0')

/-- `for (int i = k - 1; i >= 0; i--)` over the nibbles of an `int` or a `long`. -/
def put_hex (value : BitVec w) : ℕ → PrintProg Unit
  | 0 => pure ()
  | i + 1 => do
    uart_putchar (hex_digit (value.sshiftRight (i * 4) &&& 0xf).toNat)
    put_hex value i

/-- `while (value / divisor > 9) divisor *= 10;`, with an `int` for divisor. -/
def find_divisor (value : BitVec w) : ℕ → I32 → PrintProg I32
  | 0, divisor => do
    more
    pure divisor
  | n + 1, divisor => do
    let q ← c_div value (divisor.signExtend w)
    if (9 : BitVec w).slt q then
      let d ← c_mul divisor 10
      find_divisor value n d
    else
      pure divisor

/-- `while (divisor > 0) { ... }`. -/
def put_digits : ℕ → BitVec w → I32 → PrintProg Unit
  | 0, _, _ => more
  | n + 1, value, divisor =>
    if (0 : I32).slt divisor then do
      let q ← c_div value (divisor.signExtend w)
      uart_putchar (ch '0' + q.setWidth 8)
      let value ← c_rem value (divisor.signExtend w)
      let divisor ← c_div divisor 10
      put_digits n value divisor
    else pure ()

/-- `%d` and `%lld` on a value of `w` bits. -/
def put_decimal (fuel : ℕ) (value : BitVec w) : PrintProg Unit := do
  let value ←
    if value.slt 0 then do
      uart_putchar (ch '-')
      c_neg value
    else pure value
  let divisor ← find_divisor value fuel 1
  put_digits fuel value divisor

/-- `while (decimal_value) { decimal_value /= 10; ++number_decimal_digit; }`. -/
def count_digits : ℕ → BitVec w → I32 → PrintProg I32
  | 0, _, number_decimal_digit => do
    more
    pure number_decimal_digit
  | n + 1, decimal_value, number_decimal_digit =>
    if decimal_value = 0 then pure number_decimal_digit
    else do
      let decimal_value ← c_div decimal_value 10
      let number_decimal_digit ← c_add number_decimal_digit 1
      count_digits n decimal_value number_decimal_digit

/-- `for (i = 0; i < zero_padding_cnt - number_decimal_digit; i++) uart_putchar('0');`. -/
def put_zeros (zero_padding_cnt number_decimal_digit : I32) : ℕ → I32 → PrintProg Unit
  | 0, _ => more
  | n + 1, i => do
    let k ← c_sub zero_padding_cnt number_decimal_digit
    if i.slt k then
      uart_putchar (ch '0')
      let i ← c_add i 1
      put_zeros zero_padding_cnt number_decimal_digit n i
    else pure ()

/-- `%0Nd` and `%0Nlld`. -/
def put_padded (fuel : ℕ) (zero_padding_cnt : I32) (value : BitVec w) : PrintProg Unit := do
  let number_decimal_digit ← count_digits fuel value 0
  put_zeros zero_padding_cnt number_decimal_digit fuel 0
  put_decimal fuel value

end

/-! ## The width of %0N -/

/-- `while (*fmt >= '0' && *fmt <= '9') tmp[tmp_idx++] = *fmt++;`. -/
def read_digits : ℕ → ℕ → I32 → PrintProg (ℕ × I32)
  | 0, fmt, tmp_idx => do
    more
    pure (fmt, tmp_idx)
  | n + 1, fmt, tmp_idx => do
    let c ← inspect fmt
    if ch '0' ≤ c ∧ c ≤ ch '9' then
      set_tmp tmp_idx c
      let tmp_idx ← c_add tmp_idx 1
      read_digits n (fmt + 1) tmp_idx
    else pure (fmt, tmp_idx)

/-- `for (i = 0; i < tmp_idx - 1; i++) multiplend *= 10;`. -/
def find_multiplend (tmp_idx : I32) : ℕ → I32 → I32 → PrintProg I32
  | 0, _, multiplend => do
    more
    pure multiplend
  | n + 1, i, multiplend => do
    let k ← c_sub tmp_idx 1
    if i.slt k then
      let multiplend ← c_mul multiplend 10
      let i ← c_add i 1
      find_multiplend tmp_idx n i multiplend
    else pure multiplend

/-- `for (i = 0; i < tmp_idx; i++) { ... }`. -/
def sum_digits (tmp_idx : I32) : ℕ → I32 → I32 → I32 → PrintProg I32
  | 0, _, _, zero_padding_cnt => do
    more
    pure zero_padding_cnt
  | n + 1, i, multiplend, zero_padding_cnt =>
    if i.slt tmp_idx then do
      let c ← get_tmp i
      let d ← c_sub (c.setWidth 32) ((ch '0').setWidth 32)
      let p ← c_mul d multiplend
      let zero_padding_cnt ← c_add zero_padding_cnt p
      let multiplend ← c_div multiplend 10
      let i ← c_add i 1
      sum_digits tmp_idx n i multiplend zero_padding_cnt
    else pure zero_padding_cnt

/-- `%0N` up to `tmp_idx = 0;`, with the cursor at the `0`. -/
def parse_width (fuel fmt : ℕ) (tmp_idx : I32) : PrintProg (ℕ × I32 × I32) := do
  let fmt := fmt + 1
  let (fmt, tmp_idx) ← read_digits fuel fmt tmp_idx
  let multiplend ← find_multiplend tmp_idx fuel 0 1
  let zero_padding_cnt ← sum_digits tmp_idx fuel 0 multiplend 0
  let tmp_idx : I32 := 0
  pure (fmt, zero_padding_cnt, tmp_idx)

/-! ## Directives -/

/-- What follows a directive: the `fmt++` at the end of the loop, the next round at once, or the
end. -/
inductive Next where
  | advance (fmt : ℕ) (tmp_idx : I32)
  | again (fmt : ℕ) (tmp_idx : I32)
  | done

/-- `%lx`, `%llx` and `%lld`, with the cursor at the first `l`. -/
def long_directive (fuel fmt : ℕ) (tmp_idx : I32) : PrintProg Next := do
  let fmt := fmt + 1
  let c ← inspect fmt
  if c = ch 'x' then
    let value ← va_long
    put_hex value 16
    pure (.advance fmt tmp_idx)
  else if c = ch 'l' then
    let fmt := fmt + 1
    let c ← inspect fmt
    if c = ch 'x' then
      let value ← va_long
      put_hex value 16
    else if c = ch 'd' then
      let value ← va_long
      put_decimal fuel value
    pure (.advance fmt tmp_idx)
  else
    uart_putchar (ch 'l')
    pure (.again fmt tmp_idx)

/-- `%0N`, with the cursor at the `0`. -/
def zero_directive (fuel fmt : ℕ) (tmp_idx : I32) : PrintProg Next := do
  let fmt := fmt + 1
  let (fmt, tmp_idx) ← read_digits fuel fmt tmp_idx
  let multiplend ← find_multiplend tmp_idx fuel 0 1
  let zero_padding_cnt ← sum_digits tmp_idx fuel 0 multiplend 0
  let tmp_idx : I32 := 0
  let c ← inspect fmt
  if c = ch 'd' then
    let value ← va_int
    put_padded fuel zero_padding_cnt value
    pure (.advance fmt tmp_idx)
  else if c = ch 'x' then
    let value ← va_int
    put_hex value 8
    pure (.advance fmt tmp_idx)
  else if c = ch 'l' then
    let fmt := fmt + 1
    let c ← inspect fmt
    if c = ch 'x' then
      let value ← va_long
      put_hex value 16
      pure (.advance fmt tmp_idx)
    else if c = ch 'l' then
      let fmt := fmt + 1
      let c ← inspect fmt
      if c = ch 'x' then
        let value ← va_long
        put_hex value 16
      else if c = ch 'd' then
        let value ← va_long
        put_padded fuel zero_padding_cnt value
      pure (.advance fmt tmp_idx)
    else
      pure (.advance fmt tmp_idx)
  else
    uart_putchar c
    pure (.advance fmt tmp_idx)

/-- A directive, with the cursor at its `%`. -/
def directive (fuel fmt : ℕ) (tmp_idx : I32) : PrintProg Next := do
  let fmt := fmt + 1
  let c ← inspect fmt
  if c = 0 then
    uart_putchar (ch '%')
    pure .done
  else if c = ch '%' then
    uart_putchar (ch '%')
    pure (.advance fmt tmp_idx)
  else if c = ch 's' then
    let s ← va_str
    Prog.each uart_putchar s.chars
    pure (.advance fmt tmp_idx)
  else if c = ch 'd' then
    let value ← va_int
    put_decimal fuel value
    pure (.advance fmt tmp_idx)
  else if c = ch 'x' then
    let value ← va_int
    put_hex value 8
    pure (.advance fmt tmp_idx)
  else if c = ch 'l' then
    long_directive fuel fmt tmp_idx
  else if c = ch '0' then
    zero_directive fuel fmt tmp_idx
  else
    uart_putchar c
    pure (.advance fmt tmp_idx)

/-! ## The main loop -/

/-- One directive or one other character `c`. -/
def item (fuel fmt : ℕ) (tmp_idx : I32) (c : U8) : PrintProg Next :=
  if c = ch '%' then
    directive fuel fmt tmp_idx
  else do
    uart_putchar c
    pure (.advance fmt tmp_idx)

def printf_loop (fuel : ℕ) : ℕ → ℕ → I32 → PrintProg Unit
  | 0, _, _ => more
  | n + 1, fmt, tmp_idx => do
    let c ← inspect fmt
    if c = 0 then
      pure ()
    else
      let next ← item fuel fmt tmp_idx c
      match next with
      | .advance fmt tmp_idx => printf_loop fuel n (fmt + 1) tmp_idx
      | .again fmt tmp_idx => printf_loop fuel n fmt tmp_idx
      | .done => pure ()

/-- `printf`, with `fuel` rounds for each of its loops. -/
def printf (fuel : ℕ) : PrintProg Unit := printf_loop fuel fuel 0 0

/-! ## Running it -/

structure State where
  vargs : List Arg
  tmp : ℕ → U8
  /-- What was performed, newest first. -/
  log : List PrintOp

/-- The next argument is missing or of another type; an index lies outside `tmp`; a loop is not
done. -/
inductive Fault where
  | args | tmp | more
  deriving DecidableEq

def exec (f : CString) (past : ℕ → U8) : (o : PrintOp) → State → Except Fault (o.Ret × State)
  | .inspect i, σ => .ok (f.at past i, { σ with log := .inspect i :: σ.log })
  | .uart_putchar c, σ => .ok ((), { σ with log := .uart_putchar c :: σ.log })
  | .va_int, σ =>
    match σ.vargs with
    | .int v :: vargs => .ok (v, { σ with vargs := vargs, log := .va_int :: σ.log })
    | _ => .error .args
  | .va_long, σ =>
    match σ.vargs with
    | .long v :: vargs => .ok (v, { σ with vargs := vargs, log := .va_long :: σ.log })
    | _ => .error .args
  | .va_str, σ =>
    match σ.vargs with
    | .str s :: vargs => .ok (s, { σ with vargs := vargs, log := .va_str :: σ.log })
    | _ => .error .args
  | .set_tmp i c, σ =>
    if i.toNat < 1024 then
      .ok ((), { σ with tmp := Function.update σ.tmp i.toNat c, log := .set_tmp i c :: σ.log })
    else .error .tmp
  | .get_tmp i, σ =>
    if i.toNat < 1024 then .ok (σ.tmp i.toNat, { σ with log := .get_tmp i :: σ.log })
    else .error .tmp
  | .overflow, σ => .ok ((), { σ with log := .overflow :: σ.log })
  | .div_zero, σ => .ok ((), { σ with log := .div_zero :: σ.log })
  | .more, _ => .error .more

/-- The call `printf(f, vargs...)`, when `tmp` is what the stack holds and `past` what lies behind
the format. -/
def call (fuel : ℕ) (f : CString) (past : ℕ → U8) (vargs : List Arg) (tmp : ℕ → U8) :
    Except Fault (Unit × State) :=
  (printf fuel).run (exec f past) { vargs := vargs, tmp := tmp, log := [] }

/-- The offsets at which the format was read. -/
def inspected (log : List PrintOp) : List ℕ :=
  log.filterMap fun
    | .inspect i => some i
    | _ => none

/-- The characters that were printed, the first one first. -/
def output (log : List PrintOp) : List U8 :=
  (log.filterMap fun
    | .uart_putchar c => some c
    | _ => none).reverse

/-- Every operation that was performed has a value in C. -/
def Defined (log : List PrintOp) : Prop := .overflow ∉ log ∧ .div_zero ∉ log

/-- The call, given rounds enough, takes exactly its arguments, prints `out`, and performs nothing
undefined; whatever the stack and the memory behind the format hold. -/
def Prints (f : CString) (vargs : List Arg) (out : List U8) : Prop :=
  ∀ past tmp, ∃ N, ∀ fuel ≥ N, ∃ σ, call fuel f past vargs tmp = .ok ((), σ) ∧
    output σ.log = out ∧ σ.vargs = [] ∧ Defined σ.log

end GQuuuuuunix.Console
