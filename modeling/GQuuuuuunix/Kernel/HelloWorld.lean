import GQuuuuuunix.Kernel.Console

/-! # 01.HelloWorld, console.c, `printf`

The first `printf`: a `switch` without a default, without widths, and for `int` only. -/

namespace GQuuuuuunix.HelloWorld
open Lib Kernel Console
set_option autoImplicit false

/-! ## Conversions -/

/-- `while (value / divisor > 9) divisor *= 10;`. -/
def find_divisor (value : I32) : ℕ → I32 → PrintProg I32
  | 0, divisor => do
    more
    pure divisor
  | n + 1, divisor => do
    let q ← c_div value divisor
    if (9 : I32).slt q then
      let d ← c_mul divisor 10
      find_divisor value n d
    else
      pure divisor

/-- `while (divisor > 0) { ... }`. -/
def put_digits : ℕ → I32 → I32 → PrintProg Unit
  | 0, _, _ => more
  | n + 1, value, divisor =>
    if (0 : I32).slt divisor then do
      let q ← c_div value divisor
      uart_putchar (ch '0' + q.setWidth 8)
      let value ← c_rem value divisor
      let divisor ← c_div divisor 10
      put_digits n value divisor
    else pure ()

/-- `%d`. -/
def put_decimal (fuel : ℕ) (value : I32) : PrintProg Unit := do
  let value ←
    if value.slt 0 then do
      uart_putchar (ch '-')
      c_neg value
    else pure value
  let divisor ← find_divisor value fuel 1
  put_digits fuel value divisor

/-- `%x`: `for (int i = 7; i >= 0; i--) { ... }`, from `i = k - 1` down. -/
def put_hex (value : I32) : ℕ → PrintProg Unit
  | 0 => pure ()
  | i + 1 => do
    let nibble := value.sshiftRight (i * 4) &&& 0xf
    uart_putchar (hex_digit nibble.toNat)
    put_hex value i

/-! ## The loop -/

/-- The `switch`, with the cursor at its `%`; the result is the cursor for the `fmt++` at the end of
the loop, and none after `goto end`. -/
def directive (fuel fmt : ℕ) : PrintProg (Option ℕ) := do
  let fmt := fmt + 1
  let c ← inspect fmt
  if c = 0 then
    uart_putchar (ch '%')
    pure none
  else if c = ch '%' then
    uart_putchar (ch '%')
    pure (some fmt)
  else if c = ch 's' then
    let s ← va_str
    Prog.each uart_putchar s.chars
    pure (some fmt)
  else if c = ch 'd' then
    let value ← va_int
    put_decimal fuel value
    pure (some fmt)
  else if c = ch 'x' then
    -- the last case has no `break`, and nothing to fall into
    let value ← va_int
    put_hex value 8
    pure (some fmt)
  else
    pure (some fmt)

/-- One directive or one other character `c`. -/
def item (fuel fmt : ℕ) (c : U8) : PrintProg (Option ℕ) :=
  if c = ch '%' then
    directive fuel fmt
  else do
    uart_putchar c
    pure (some fmt)

def printf_loop (fuel : ℕ) : ℕ → ℕ → PrintProg Unit
  | 0, _ => more
  | n + 1, fmt => do
    let c ← inspect fmt
    if c = 0 then
      pure ()
    else
      let next ← item fuel fmt c
      match next with
      | some fmt => printf_loop fuel n (fmt + 1)
      | none => pure ()

/-- `printf`, with `fuel` rounds for each of its loops. -/
def printf (fuel : ℕ) : PrintProg Unit := printf_loop fuel fuel 0

/-- The call `printf(f, vargs...)`, run as the later one is; nothing reads or writes `tmp`. -/
def call (fuel : ℕ) (f : CString) (past : ℕ → U8) (vargs : List Arg) (tmp : ℕ → U8) :
    Except Fault (Unit × Console.State) :=
  (printf fuel).run (exec f past) { vargs := vargs, tmp := tmp, log := [] }

end GQuuuuuunix.HelloWorld
