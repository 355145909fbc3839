import Aesd.Lib.BlockLedger
import Aesd.Lib.CInt

/-!
# The kernel services the driver calls

None of this is in the repository: it is the documented behaviour of the Linux functions that
`aesd-char-driver/main.c` is written against.  What the kernel decides on its own is a parameter
of each function: whether an allocation finds memory, and how many bytes of a user buffer cannot
be copied.

An allocation is never served beyond `KMALLOC_MAX_SIZE`, and the VFS never passes a `count` beyond
`MAX_RW_COUNT` to a driver.  These are the two facts that keep the driver's `size_t` arithmetic
from wrapping.
-/

namespace Aesd

/-- `ERESTARTSYS`. -/
def ERESTARTSYS : ℤ := 512
/-- `EFAULT`. -/
def EFAULT : ℤ := 14
/-- `ENOMEM`. -/
def ENOMEM : ℤ := 12
/-- `EINVAL`. -/
def EINVAL : ℤ := 22
/-- `ENOTTY`. -/
def ENOTTY : ℤ := 25

/-- `'\n'`. -/
def newline : UInt8 := 10

/-- The kernel the module is loaded into: `KMALLOC_MAX_SIZE` depends on its page size. -/
structure Kernel where
  kmallocMaxSize : ℕ
  kmallocMaxSize_lt : kmallocMaxSize < 2 ^ 32

/-- A kernel with pages of 4 KiB, which allocates up to 4 MiB at once. -/
def Kernel.x86 : Kernel := ⟨2 ^ 22, by decide⟩

/-- `MAX_RW_COUNT`, i.e. `INT_MAX & PAGE_MASK`. -/
def maxRwCount : ℕ := 0x7ffff000

/-- The kernel heap. -/
abbrev Heap := BlockLedger UInt8

/-- `kmalloc`; `ok` tells whether memory is found, `none` is the null pointer. -/
def kmalloc (K : Kernel) (ok : Bool) (h : Heap) (size : ℕ) : Option (Heap × ℕ) :=
  if ok ∧ size ≤ K.kmallocMaxSize then some (h.alloc size) else none

/-- `krealloc`; on failure the old block is left alone. -/
def krealloc (K : Kernel) (ok : Bool) (h : Heap) (p size : ℕ) : Option (Heap × ℕ) :=
  if ok ∧ size ≤ K.kmallocMaxSize then some (h.realloc p size) else none

/-- `copy_from_user` of the bytes `buf` to offset `off` of block `p`, where the last `notCopied`
bytes cannot be read: they are replaced by zeros. -/
def copyFromUser (h : Heap) (p off : ℕ) (buf : List UInt8) (notCopied : ℕ) : Heap :=
  h.write p off (buf.take (buf.length - notCopied) ++ List.replicate notCopied 0)

/-- `vfs_setpos`: the return value and the new `f_pos`. -/
def vfsSetpos (fPos offset maxsize : ℤ) : ℤ × ℤ :=
  if offset < 0 then (-EINVAL, fPos)
  else if maxsize < offset then (-EINVAL, fPos)
  else (offset, offset)

/-- `fixed_size_llseek`: the return value and the new `f_pos`.  `whence` is `SEEK_SET` (0),
`SEEK_CUR` (1) or `SEEK_END` (2). -/
def fixedSizeLlseek (fPos offset : ℤ) (whence : ℕ) (size : ℤ) : ℤ × ℤ :=
  match whence with
  | 0 => vfsSetpos fPos offset size
  -- `SEEK_CUR` by zero only reports the position
  | 1 => if offset = 0 then (fPos, fPos) else vfsSetpos fPos (CInt.longAdd fPos offset) size
  | 2 => vfsSetpos fPos (CInt.longAdd offset size) size
  | _ => (-EINVAL, fPos)

end Aesd
