import Aesd.Device.Request
import Aesd.Server.SeekCommand

/-!
# A connection handler (`handle_connection` in `server/aesdsocket.c`)

`Handler` is the state of one thread that runs `handle_connection`: where it stands, its receive
buffer and `recv_size`.  `Handler.call` is the system call it makes next, `Handler.resume` what it
does with the result, up to its next system call.  `charDevice` is `USE_AESD_CHAR_DEVICE == 1`.

Locking and unlocking `aesddata_file_mutex` around a single `write` is part of that `write`.

A `Driver` is what stands behind the data file: `fileDriver` a regular file opened with
`O_APPEND`, `deviceDriver` the device of `Aesd.Device`.
-/

namespace Aesd

open Scan

/-- `buffer_size`. -/
def bufferSize : ℕ := 1024

/-- The receive buffer. -/
structure Buffer where
  bytes : List UInt8
  length_eq : bytes.length = bufferSize

namespace Buffer

/-- `memset(buffer, 0, ..)`. -/
def zero : Buffer := ⟨List.replicate bufferSize 0, List.length_replicate⟩

/-- `recv` and `read` write over the front of the buffer. -/
def store (b : Buffer) (data : List UInt8) : Buffer where
  bytes := data.take bufferSize ++ b.bytes.drop data.length
  length_eq := by
    rw [List.length_append, List.length_take, List.length_drop, b.length_eq]
    omega

theorem store_bytes (b : Buffer) (data : List UInt8) :
    (b.store data).bytes = data.take bufferSize ++ b.bytes.drop data.length := rfl

theorem store_take (b : Buffer) {data : List UInt8} (h : data.length ≤ bufferSize) :
    (b.store data).bytes.take data.length = data := by
  rw [store_bytes, List.take_of_length_le h, List.take_left]

theorem store_zero {data : List UInt8} (h : data.length ≤ bufferSize) :
    (zero.store data).bytes = data ++ List.replicate (bufferSize - data.length) 0 := by
  rw [store_bytes, List.take_of_length_le h, zero, List.drop_replicate]

/-- In a buffer that was zero, `memchr` finds a newline exactly if one has been received. -/
theorem newline_mem_store_zero {data : List UInt8} (h : data.length ≤ bufferSize) :
    newline ∈ (zero.store data).bytes ↔ newline ∈ data := by
  rw [store_zero h, List.mem_append, List.mem_replicate]
  exact or_iff_left (by simp [newline])

/-- In a buffer that was zero, `strncmp` finds the identifying string exactly if the received bytes
begin with all of it. -/
theorem strncmp_store_zero {data : List UInt8} (h : data.length ≤ bufferSize) :
    strncmp (zero.store data).bytes ioctlIdString ioctlIdString.length = 0 ↔
      ioctlIdString <+: data := by
  rw [strncmp_eq_zero ioctlIdString_ne_zero, store_zero h,
    prefix_append_replicate ioctlIdString_ne_zero]

end Buffer

/-- A system call on the data file. -/
inductive FileCall
  | write (data : List UInt8)
  | ioctl (seekParams : Seekto)
  | lseek
  | read (count : ℕ)

/-- A system call of the handler. -/
inductive SysCall
  | open
  | malloc
  | recv
  | file (c : FileCall)
  | send (data : List UInt8)
  | close
  | closeSock

/-- Where the handler stands: in front of a system call, at the end, or in `cleanup()` or
`exit()`. -/
inductive Pc
  | open
  | malloc
  | recv
  | write
  | ioctl (seekParams : Seekto)
  | lseek
  | read
  | send (bytesRead : ℕ)
  | close
  | closeSock
  | done
  | cleanup
  | exit
  deriving DecidableEq

/-- One thread in `handle_connection`. -/
structure Handler where
  pc : Pc
  buffer : Buffer
  recvSize : ℕ

namespace Handler

/-- The thread when it starts. -/
def start : Handler := ⟨.open, .zero, 0⟩

/-- The next system call. -/
def call (h : Handler) : Option SysCall :=
  match h.pc with
  | .open => some .open
  | .malloc => some .malloc
  | .recv => some .recv
  | .write => some (.file (.write (h.buffer.bytes.take h.recvSize)))
  | .ioctl s => some (.file (.ioctl s))
  | .lseek => some (.file .lseek)
  | .read => some (.file (.read bufferSize))
  | .send n => some (.send (h.buffer.bytes.take n))
  | .close => some .close
  | .closeSock => some .closeSock
  | .done | .cleanup | .exit => none

/-- Line 223, the end of the loop body. -/
def clear (h : Handler) : Handler := { h with pc := .recv, buffer := .zero }

/-- Lines 204 to 209: whether there is a reply. -/
def afterStore (charDevice : Bool) (h : Handler) : Handler :=
  if newline ∈ h.buffer.bytes then { h with pc := if charDevice then .read else .lseek }
  else h.clear

/-- What the handler takes the received bytes for: a request, in the device build. -/
def request (charDevice : Bool) (buffer : Buffer) (beyond : List UInt8) : Option Seekto :=
  if charDevice then seekRequest buffer.bytes beyond else none

/-- Lines 161 to 190: `data` has been received. -/
def received (charDevice : Bool) (h : Handler) (data beyond : List UInt8) : Handler :=
  let buffer := h.buffer.store data
  match request charDevice buffer beyond with
  | some s => ⟨.ioctl s, buffer, data.length⟩
  | none => ⟨.write, buffer, data.length⟩

/-- What the handler does with the result of its system call; `beyond` is the memory behind the
buffer. -/
def resume (charDevice : Bool) (h : Handler) (r : Ret) (beyond : List UInt8) : Handler :=
  match h.pc with
  | .open => { h with pc := if r.retval = -1 then .exit else .malloc }
  | .malloc => if r.retval = 0 then { h with pc := .cleanup } else h.clear
  -- the end of the stream and an error both end the loop
  | .recv => if 0 < r.retval then h.received charDevice r.data beyond else { h with pc := .close }
  | .write => if r.retval = -1 then { h with pc := .cleanup } else h.afterStore charDevice
  | .ioctl _ => if r.retval ≠ 0 then { h with pc := .cleanup } else h.afterStore charDevice
  | .lseek => { h with pc := .read }
  | .read =>
    if r.retval = -1 then { h with pc := .cleanup }
    else if 0 < r.retval then ⟨.send r.retval.toNat, h.buffer.store r.data, h.recvSize⟩
    else h.clear
  | .send _ => { h with pc := .read }
  | .close => { h with pc := .closeSock }
  | .closeSock => { h with pc := .done }
  | .done | .cleanup | .exit => h

end Handler

/-! ### The data file -/

/-- What stands behind the data file: the new state, the new position of the open file, and what
the C library returns. -/
structure Driver (σ : Type*) where
  charDevice : Bool
  serve : σ → ℤ → FileCall → σ × ℤ × Ret

/-- `/var/tmp/aesdsocketdata`, opened with `O_APPEND`. -/
def fileDriver : Driver (List UInt8) where
  charDevice := false
  serve content pos
    | .write data => (content ++ data, (content ++ data).length, ⟨data.length, []⟩)
    | .ioctl _ => (content, pos, ⟨-1, []⟩)
    | .lseek => (content, 0, ⟨0, []⟩)
    | .read count =>
      let data := (content.drop pos.toNat).take count
      (content, pos + data.length, ⟨data.length, data⟩)

/-- The call of the driver that a system call becomes. -/
def FileCall.request : FileCall → Request
  | write data => .write (.served data)
  | ioctl s => .ioctl aesdcharIocseekto (some s)
  | lseek => .llseek 0 0
  | read count => .read count false

/-- The VFS does not cut a `write` from the receive buffer. -/
theorem served_buf {b : List UInt8} (hb : b.length ≤ bufferSize) :
    (WriteCall.served b).buf = b := by
  refine List.take_of_length_le (hb.trans ?_)
  unfold bufferSize maxRwCount
  omega

/-- The C library turns every error into `-1`. -/
def Ret.libc (r : Ret) : Ret := ⟨if r.retval < 0 then -1 else r.retval, r.data⟩

/-- `/dev/aesdchar`, when every lock attempt, allocation and copy succeeds. -/
def deviceDriver (K : Kernel) : Driver Dev where
  charDevice := true
  serve d pos c :=
    let r := c.request.serve K d true pos
    (r.1, r.2.1, r.2.2.libc)

end Aesd
