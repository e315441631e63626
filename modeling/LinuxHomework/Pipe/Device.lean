import LinuxHomework.Lib.CInt

/-! # The pipe device of `7/pipe/scull_pipe.c`

`struct scull_pipe` and what the driver does to it while it holds the semaphore. Pointers are
integers, 0 being the null pointer; `mem` is the kernel's memory, which `kmalloc` fills with
arbitrary bytes. The calls themselves, with their semaphore and wait queue operations, are in
`Pipe/System.lean`. -/

namespace LinuxHomework.Pipe.Device

open LinuxHomework.Lib.CInt

/-- `struct scull_pipe` without its semaphore and wait queues, and the memory. `allocated` and
`freed` are the buffers got from `kmalloc` and given to `kfree` so far. -/
structure ScullPipe where
  buffer : ℤ
  bufEnd : ℤ
  buffersize : ℤ
  rp : ℤ
  wp : ℤ
  nreaders : ℤ
  nwriters : ℤ
  mem : ℤ → UInt8
  allocated : List ℤ
  freed : List ℤ

/-- What the kernel answers to one step: the pointer `kmalloc` returns and the bytes there, and
after how many bytes a user copy faults (`none`: it succeeds). -/
structure Kernel where
  kmalloc : ℤ
  raw : ℕ → UInt8
  fault : Option ℕ

/-- The mode of an open file: `FMODE_READ`, `FMODE_WRITE`, and `O_NONBLOCK` among its flags. -/
structure Mode where
  read : Bool
  write : Bool
  nonblock : Bool
deriving DecidableEq

/-- The device as `scull_p_init` leaves it. -/
def init (mem : ℤ → UInt8) : ScullPipe := ⟨0, 0, 0, 0, 0, 0, 0, mem, [], []⟩

/-- `spacefree`. -/
def spacefree (dev : ScullPipe) : ℤ :=
  if dev.rp = dev.wp then dev.buffersize - 1
  else (dev.rp + dev.buffersize - dev.wp).tmod dev.buffersize - 1

/-- Bytes from `p` on are written. -/
def fill (mem : ℤ → UInt8) (p : ℤ) (n : ℕ) (f : ℕ → UInt8) : ℤ → UInt8 :=
  fun x => if p ≤ x ∧ x < p + n then f (x - p).toNat else mem x

/-- The part of `scull_p_open` that makes the buffer, unless there is one. -/
def allocate (N : ℤ) (k : Kernel) (dev : ScullPipe) : ScullPipe :=
  if dev.buffer = 0 then
    { dev with
      buffer := k.kmalloc
      mem := if k.kmalloc = 0 then dev.mem else fill dev.mem k.kmalloc N.toNat k.raw
      allocated := if k.kmalloc = 0 then dev.allocated else k.kmalloc :: dev.allocated }
  else dev

/-- The rest of `scull_p_open`; `N` is `scull_p_buffer`. -/
def enter (N : ℤ) (f : Mode) (dev : ScullPipe) : ScullPipe :=
  { dev with
    buffersize := N
    bufEnd := dev.buffer + N
    rp := dev.buffer
    wp := dev.buffer
    nreaders := if f.read then dev.nreaders + 1 else dev.nreaders
    nwriters := if f.write then dev.nwriters + 1 else dev.nwriters }

/-- `scull_p_release`: the counters. -/
def leave (f : Mode) (dev : ScullPipe) : ScullPipe :=
  { dev with
    nreaders := if f.read then dev.nreaders - 1 else dev.nreaders
    nwriters := if f.write then dev.nwriters - 1 else dev.nwriters }

/-- `scull_p_release`: the buffer goes with the last reader and writer. -/
def releaseBuffer (dev : ScullPipe) : ScullPipe :=
  if dev.nreaders + dev.nwriters = 0 then
    { dev with buffer := 0, freed := dev.buffer :: dev.freed }
  else dev

/-- The pointer `p` moves on by `n`, and from the end back to the beginning. -/
def advance (dev : ScullPipe) (p : ℤ) (n : ℕ) : ℤ :=
  if p + n = dev.bufEnd then dev.buffer else p + n

/-- The number of bytes `scull_p_read` takes. -/
def readCount (dev : ScullPipe) (count : ℕ) : ℕ :=
  if dev.wp > dev.rp then min count (size32 (dev.wp - dev.rp))
  else min count (size32 (dev.bufEnd - dev.rp))

/-- The bytes that `copy_to_user(buf, dev->rp, n)` copies. -/
def copyOut (dev : ScullPipe) (n : ℕ) : List UInt8 :=
  (List.range n).map fun i : ℕ => dev.mem (dev.rp + i)

/-- `scull_p_read` moves `rp`. -/
def moveRp (dev : ScullPipe) (n : ℕ) : ScullPipe := { dev with rp := advance dev dev.rp n }

/-- The number of bytes `scull_p_write` accepts. -/
def writeCount (dev : ScullPipe) (count : ℕ) : ℕ :=
  let count := min count (size32 (spacefree dev))
  if dev.wp ≥ dev.rp then min count (size32 (dev.bufEnd - dev.wp))
  else min count (size32 (dev.rp - dev.wp - 1))

/-- `copy_from_user(dev->wp, buf, n)`: after a fault the rest of the destination is zeroed. -/
def copyIn (dev : ScullPipe) (k : Kernel) (buf : ℕ → UInt8) (n : ℕ) : ScullPipe :=
  { dev with mem := fill dev.mem dev.wp n fun i => if k.fault.getD n ≤ i then 0 else buf i }

/-- `scull_p_write` moves `wp`. -/
def moveWp (dev : ScullPipe) (n : ℕ) : ScullPipe := { dev with wp := advance dev dev.wp n }

/-- A user copy of `n` bytes faults. -/
def Kernel.faults (k : Kernel) (n : ℕ) : Prop := k.fault.getD n < n

instance (k : Kernel) (n : ℕ) : Decidable (k.faults n) := Nat.decLt _ _

def ERESTARTSYS : ℤ := 512
def EAGAIN : ℤ := 11
def ENOMEM : ℤ := 12
def EFAULT : ℤ := 14

end LinuxHomework.Pipe.Device
