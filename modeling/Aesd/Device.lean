import Aesd.CircularBuffer
import Aesd.Kernel

/-!
# The character device (`aesd-char-driver/main.c`)

The file operations of the driver on the device state: `aesdRead`, `aesdWrite`, `aesdLlseek` and
`aesdUnlockedIoctl`, with `aesdInitModule` and `aesdCleanupModule`.  Each operation that takes the
mutex has a parameter `lock`, which is `true` when `mutex_lock_interruptible` returns zero, and a
body: what it does between the lock and the `exit` label.  The mutex itself is in
`Aesd.Device.Mutex`.

The kernel heap is part of the state, since the entries of the device are pointers into it.
`storedCommands` and `pendingBytes` are what the device holds, read off the heap.
-/

namespace Aesd

open CInt

/-- `struct aesd_dev`, with the heap its pointers point into. -/
structure Dev where
  cachedEntry : BufferEntry ℕ
  circularBuffer : CircularBuffer ℕ
  heap : Heap

/-- `aesd_init_module`, as far as the device is concerned. -/
def aesdInitModule : Dev := ⟨.null, .init, .empty⟩

/-- The arguments of a `write`, and what the kernel decides while serving it: whether memory is
found, and how many trailing bytes of the user buffer cannot be copied. -/
structure WriteCall where
  buf : List UInt8
  allocOk : Bool
  notCopied : ℕ
  count_le : buf.length ≤ maxRwCount
  notCopied_le : notCopied ≤ buf.length

/-- A `write` of `buf` that finds memory and is copied in full; the VFS cuts its count. -/
def WriteCall.served (buf : List UInt8) : WriteCall where
  buf := buf.take maxRwCount
  allocOk := true
  notCopied := 0
  count_le := List.length_take_le _ _
  notCopied_le := Nat.zero_le _

/-- Where a `write` puts the new bytes: the offset inside the buffer, the size asked for, and the
buffer in the heap that has it, if the allocation succeeds. -/
structure TempBuf where
  writeOffset : ℕ
  size : ℕ
  buf : Option (Heap × ℕ)

/-- Lines 131 to 140 of `aesd_write`: the cached buffer is extended, or a new one is started. -/
def aesdWriteAlloc (K : Kernel) (d : Dev) (allocOk : Bool) (count : ℕ) : TempBuf :=
  match d.cachedEntry.buffptr with
  | some p =>
    let writeOffset := d.cachedEntry.size
    let tempBufSize := sizeAdd count writeOffset
    ⟨writeOffset, tempBufSize, krealloc K allocOk d.heap p tempBufSize⟩
  | none => ⟨0, count, kmalloc K allocOk d.heap count⟩

/-- Lines 157 to 173 of `aesd_write`: the buffer is committed if `memchr` finds a newline in it,
and cached otherwise. -/
def aesdWriteStore (d : Dev) (heap : Heap) (tempBuf tempBufSize : ℕ) : Dev :=
  let scan := heap.read tempBuf 0 tempBufSize
  if newline ∈ scan.2 then
    let add := d.circularBuffer.addEntry ⟨some tempBuf, tempBufSize⟩
    let heap := match add.2 with
      | some replaced => scan.1.free replaced
      | none => scan.1
    ⟨.null, add.1, heap⟩
  else ⟨⟨some tempBuf, tempBufSize⟩, d.circularBuffer, scan.1⟩

/-- Lines 126 to 173 of `aesd_write`: the new state and the return value. -/
def aesdWriteBody (K : Kernel) (d : Dev) (w : WriteCall) : Dev × ℤ :=
  let count := w.buf.length
  if count = 0 then (d, 0)
  else
    let temp := aesdWriteAlloc K d w.allocOk count
    match temp.buf with
    | none => (d, -ENOMEM)
    | some (heap, tempBuf) =>
      let heap := copyFromUser heap tempBuf temp.writeOffset w.buf w.notCopied
      -- bytes that could not be copied are left out of the buffer and of the count
      if w.notCopied = 0 then (aesdWriteStore d heap tempBuf temp.size, toLong count)
      else
        (aesdWriteStore d heap tempBuf (sizeSub temp.size w.notCopied),
          toLong (sizeSub count w.notCopied))

/-- `aesd_write`. -/
def aesdWrite (K : Kernel) (d : Dev) (lock : Bool) (w : WriteCall) : Dev × ℤ :=
  if lock then aesdWriteBody K d w else (d, -ERESTARTSYS)

/-- What a `read` leaves behind: the state, the return value, `*f_pos` and the bytes copied to
the user. -/
structure ReadReturn where
  dev : Dev
  retval : ℤ
  fPos : ℤ
  data : List UInt8

/-- Lines 79 to 96 of `aesd_read`; `fault` tells that `copy_to_user` fails. -/
def aesdReadBody (d : Dev) (fPos : ℤ) (count : ℕ) (fault : Bool) : ReadReturn :=
  match d.circularBuffer.findEntryOffsetForFpos (toSize fPos) with
  | none => ⟨d, 0, fPos, []⟩
  | some (i, entryOffset) =>
    let entry := d.circularBuffer.slot i
    let availableBytes := sizeSub entry.size entryOffset
    let bytesToRead := if count > availableBytes then availableBytes else count
    let copy := d.heap.readPtr entry.buffptr entryOffset bytesToRead
    let dev := { d with heap := copy.1 }
    if fault then ⟨dev, -EFAULT, fPos, []⟩
    else ⟨dev, toLong bytesToRead, longAdd fPos bytesToRead, copy.2⟩

/-- `aesd_read`. -/
def aesdRead (d : Dev) (lock : Bool) (fPos : ℤ) (count : ℕ) (fault : Bool) : ReadReturn :=
  if lock then aesdReadBody d fPos count fault else ⟨d, -ERESTARTSYS, fPos, []⟩

/-- `aesd_llseek`: the return value and the new `filp->f_pos`. -/
def aesdLlseek (d : Dev) (lock : Bool) (fPos off : ℤ) (whence : ℕ) : ℤ × ℤ :=
  if lock then fixedSizeLlseek fPos off whence (toLong d.circularBuffer.entriesTotalSize)
  else (-ERESTARTSYS, fPos)

/-- `struct aesd_seekto`. -/
structure Seekto where
  writeCmd : UInt32
  writeCmdOffset : UInt32
  deriving DecidableEq, Repr

/-- Lines 210 to 220 of `aesd_adjust_file_offset`: the return value and the new `filp->f_pos`. -/
def aesdAdjustFileOffsetBody (d : Dev) (fPos : ℤ) (writeCmd writeCmdOffset : UInt32) : ℤ × ℤ :=
  if writeCmd.toNat ≥ maxWriteOperationsSupported ∨
      (d.circularBuffer.slot writeCmd.toNat).size = 0 ∨
      writeCmdOffset.toNat ≥ (d.circularBuffer.slot writeCmd.toNat).size then
    (-EINVAL, fPos)
  else
    -- the sizes of the slots in front, in array order
    let bufferStartOffset :=
      ((List.range writeCmd.toNat).map fun i => (d.circularBuffer.slot i).size).foldl
        (fun (s : ℤ) (n : ℕ) => longAdd s n) 0
    (0, longAdd bufferStartOffset writeCmdOffset.toNat)

/-- `aesd_adjust_file_offset`. -/
def aesdAdjustFileOffset (d : Dev) (lock : Bool) (fPos : ℤ) (writeCmd writeCmdOffset : UInt32) :
    ℤ × ℤ :=
  if lock then aesdAdjustFileOffsetBody d fPos writeCmd writeCmdOffset else (-ERESTARTSYS, fPos)

/-- `AESD_IOC_MAGIC`. -/
def aesdIocMagic : ℕ := 0x16

/-- `AESDCHAR_IOC_MAXNR`. -/
def aesdcharIocMaxnr : ℕ := 1

/-- `_IOC_TYPE`. -/
def iocType (cmd : UInt32) : ℕ := cmd.toNat / 2 ^ 8 % 2 ^ 8

/-- `_IOC_NR`. -/
def iocNr (cmd : UInt32) : ℕ := cmd.toNat % 2 ^ 8

/-- `AESDCHAR_IOCSEEKTO`, i.e. `_IOWR(AESD_IOC_MAGIC, 1, struct aesd_seekto)`: direction
read/write, the size of the structure, the magic number and the command number. -/
def aesdcharIocseekto : UInt32 := .ofNat (3 * 2 ^ 30 + 8 * 2 ^ 16 + aesdIocMagic * 2 ^ 8 + 1)

/-- `aesd_unlocked_ioctl`; `arg` is what `copy_from_user` finds at the argument, `none` if it
faults. -/
def aesdUnlockedIoctl (d : Dev) (lock : Bool) (fPos : ℤ) (cmd : UInt32) (arg : Option Seekto) :
    ℤ × ℤ :=
  if iocType cmd ≠ aesdIocMagic ∨ iocNr cmd > aesdcharIocMaxnr then (-ENOTTY, fPos)
  else if cmd = aesdcharIocseekto then
    match arg with
    | none => (-EFAULT, fPos)
    | some s => aesdAdjustFileOffset d lock fPos s.writeCmd s.writeCmdOffset
  else (-ENOTTY, fPos)

/-- `aesd_cleanup_module`: every slot of the ring is freed, in array order. -/
def aesdCleanupModule (d : Dev) : Dev :=
  (List.range maxWriteOperationsSupported).foldl (fun d index =>
    match (d.circularBuffer.slot index).buffptr with
    | some p =>
      let entry := { d.circularBuffer.slot index with buffptr := none }
      { d with
        heap := d.heap.free p
        circularBuffer :=
          { d.circularBuffer with entry := d.circularBuffer.entry.setIfInBounds index entry } }
    | none => d) d

/-! ### What the device holds -/

namespace Dev

/-- The bytes of an entry. -/
def contents (d : Dev) (e : BufferEntry ℕ) : List UInt8 := (d.heap.readPtr e.buffptr 0 e.size).2

/-- The stored commands, oldest first. -/
def storedCommands (d : Dev) : List (List UInt8) := d.circularBuffer.live.map d.contents

/-- The bytes written since the last commit. -/
def pendingBytes (d : Dev) : List UInt8 := d.contents d.cachedEntry

end Dev

/-- A sequence of calls of `aesd_write` that all get the mutex: the final state and the return
values. -/
def aesdWrites (K : Kernel) (d : Dev) : List WriteCall → Dev × List ℤ
  | [] => (d, [])
  | w :: ws =>
    let r := aesdWrites K (aesdWrite K d true w).1 ws
    (r.1, (aesdWrite K d true w).2 :: r.2)

theorem aesdcharIocseekto_type : iocType aesdcharIocseekto = aesdIocMagic := by decide

theorem aesdcharIocseekto_nr : iocNr aesdcharIocseekto = aesdcharIocMaxnr := by decide

end Aesd
