import Aesd.Device

/-!
# Calls on an open file of the device

A `Request` is a call of one of the four operations, with its arguments and with what the kernel
decides while it serves the call.  `Request.serve` is the whole call as the VFS makes it: `read`
and `write` get a copy of `filp->f_pos`, which is stored back unless they fail.
-/

namespace Aesd

/-- The arguments of a call, with what the kernel decides while it serves the call. -/
inductive Request
  | read (count : ℕ) (fault : Bool)
  | write (w : WriteCall)
  | llseek (off : ℤ) (whence : ℕ)
  | ioctl (cmd : UInt32) (arg : Option Seekto)

/-- What a call gives back: the return value, and the bytes copied to the user. -/
structure Ret where
  retval : ℤ
  data : List UInt8

namespace Request

/-- The whole call: the device, `filp->f_pos` and what is returned. -/
def serve (K : Kernel) (d : Dev) (lock : Bool) (fPos : ℤ) : Request → Dev × ℤ × Ret
  | read count fault =>
    let r := aesdRead d lock fPos count fault
    (r.dev, if 0 ≤ r.retval then r.fPos else fPos, ⟨r.retval, r.data⟩)
  | write w =>
    let r := aesdWrite K d lock w
    (r.1, fPos, ⟨r.2, []⟩)
  | llseek off whence =>
    let r := aesdLlseek d lock fPos off whence
    (d, r.2, ⟨r.1, []⟩)
  | ioctl cmd arg =>
    let r := aesdUnlockedIoctl d lock fPos cmd arg
    (d, r.2, ⟨r.1, []⟩)

end Request

end Aesd
