import GQuuuuuunix.Kernel.Types
import GQuuuuuunix.Lib.ByteMem

/-! # string.c, `memcpy` -/

namespace GQuuuuuunix.Kernel
open Lib
set_option autoImplicit false

/-- `while (n--) *dst++ = *src++;` on words of `w` bytes, with the pointers after it. A count below
zero never comes down to zero: `n--` overflows, and what is done up to there has no meaning. -/
def copy_loop (w : ℕ) {v : ℕ} (n : BitVec v) (dst src : U64) : MemProg 64 (U64 × U64) :=
  if n.slt 0 then do
    Prog.lift MemOp.undefined
    pure (dst, src)
  else
    copyWords w n.toNat dst src

def memcpy_1 (dst src : U64) (n : I64) : MemProg 64 Unit := do
  let _ ← copy_loop 1 n dst src

def memcpy_n (dst src : U64) (n : I64) : MemProg 64 Unit := do
  let eight_bytes_cnt := n.sdiv 8
  let remain_four_bytes_cnt := (n - eight_bytes_cnt * 8).sdiv 4
  let remain_two_bytes_cnt := (n - eight_bytes_cnt * 8 - remain_four_bytes_cnt * 4).sdiv 2
  let remain_bytes :=
    n - eight_bytes_cnt * 8 - remain_four_bytes_cnt * 4 - remain_two_bytes_cnt * 2
  let (_dst4, _src4) ← copy_loop 8 eight_bytes_cnt dst src
  let (_dst2, _src2) ← copy_loop 4 remain_four_bytes_cnt _dst4 _src4
  let (_dst, _src) ← copy_loop 2 remain_two_bytes_cnt _dst2 _src2
  let _ ← copy_loop 1 remain_bytes _dst _src

def memcpy (dst src : U64) (n : I64) : MemProg 64 U64 := do
  let dst_align : I32 := (dst % 8).setWidth 32
  let src_align : I32 := (src % 8).setWidth 32
  if dst_align = 0 ∧ src_align = 0 then
    memcpy_n dst src n
  else if (0 : I32).slt dst_align ∧ (0 : I32).slt src_align ∧ dst_align = src_align then
    let (dst_8, src_8) ← copy_loop 1 dst_align dst src
    memcpy_n dst_8 src_8 (n - src_align.signExtend 64)
  else
    memcpy_1 dst src n
  pure dst

end GQuuuuuunix.Kernel
