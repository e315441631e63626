import LinuxHomework.Lib.CInt
import LinuxHomework.Lib.Memory
import LinuxHomework.Lib.Runs

/-! # The scull device of `7/main.c`

The driver runs in the flat memory of the i686 build: pointers, `int`, `long` and `size_t` have 32
bits, `loff_t` has 64. A `struct scull_qset` is the two words `data` (at offset 0) and `next` (at
offset 4). An access to an address that is not mapped is an `oops`.

What the kernel answers during a call is the caller's choice (`Kernel`): whether
`down_interruptible` takes the semaphore, what each `kmalloc` returns, and whether the user copy
faults. A `kmalloc` that succeeds returns a `Chunk`, which is at least as large as was asked for,
apart from everything allocated, and holds arbitrary bytes; an answer that is not such a chunk, or
is missing, is not a possible one (`Stop.unanswered`).

* `scullTrim`, `scullOpen`, `scullFollow`, `scullRead`, `scullWrite`, `scullLlseek`: the source.
* `step`: one call on one of any number of open files; the history of the accepted writes and the
  answer to the last read are kept beside the device. -/

namespace LinuxHomework.Scull.Device

open LinuxHomework.Lib.CInt LinuxHomework.Lib.Memory

/-- Why a call does not return. -/
inductive Stop
  | oops
  | hang
  | unanswered
deriving DecidableEq

/-- An allocated range. -/
structure Block where
  addr : Word
  size : ℕ
deriving DecidableEq

/-- What `kmalloc` hands out: a range, and the bytes it holds. -/
structure Chunk extends Block where
  raw : ℕ → Byte

/-- The kernel's answers during one call: `down_interruptible` succeeds or not, the results of the
`kmalloc`s in order (`none`: the null pointer), and the number of bytes after which the user copy
faults (`none`: it succeeds). -/
structure Kernel where
  taken : Bool
  answers : List (Option Chunk)
  fault : Option ℕ

/-- The user copy of `n` bytes faults. -/
def Kernel.faults (k : Kernel) (n : ℕ) : Prop := k.fault.getD n < n

instance (k : Kernel) (n : ℕ) : Decidable (k.faults n) := Nat.decLt _ _

/-- The module parameters. -/
structure Params where
  scullQuantum : ℤ
  scullQset : ℤ

/-- `struct scull_dev`, with the memory around it: the bytes, the ranges allocated by the driver,
the answers still to come and the pointers given to `kfree` so far. -/
structure ScullDev where
  data : Word
  quantum : ℤ
  qset : ℤ
  size : ℕ
  mem : Mem
  live : List Block
  answers : List (Option Chunk)
  freed : List Word

namespace ScullDev

variable (s : ScullDev)

/-- Read the word at an address. -/
def load (a : Word) : Except Stop Word :=
  match word s.mem a with
  | some w => .ok w
  | none => .error .oops

/-- Write a range of mapped bytes. -/
def write (a : Word) (n : ℕ) (f : ℕ → Byte) : Except Stop ScullDev :=
  if Mapped s.mem a n then .ok { s with mem := fill s.mem a n f } else .error .oops

/-- Write the word at an address. -/
def store (a w : Word) : Except Stop ScullDev := s.write a 4 (bytes w)

/-- `memset(p, 0, n)`. -/
def memset (a : Word) (n : ℕ) : Except Stop ScullDev := s.write a n fun _ => 0

/-- The chunk is one that `kmalloc(n)` can return. -/
def Fresh (n : ℕ) (c : Chunk) : Prop :=
  c.addr ≠ 0 ∧ n ≤ c.size ∧ Mapped s.mem c.addr c.size ∧
    ∀ b ∈ s.live, Apart c.addr c.size b.addr b.size

instance (n : ℕ) (c : Chunk) : Decidable (s.Fresh n c) :=
  inferInstanceAs (Decidable (_ ∧ _ ∧ _ ∧ _))

/-- `kmalloc(n, GFP_KERNEL)`. -/
def kmalloc (n : ℕ) : Except Stop (Word × ScullDev) :=
  match s.answers with
  | [] => .error .unanswered
  | none :: rest => .ok (0, { s with answers := rest })
  | some c :: rest =>
    if s.Fresh n c then
      .ok (c.addr, { s with
        mem := fill s.mem c.addr c.size c.raw, live := c.toBlock :: s.live, answers := rest })
    else
      .error .unanswered

/-- `kfree(p)`. -/
def kfree (p : Word) : ScullDev :=
  { s with live := s.live.filter fun b => b.addr ≠ p, freed := s.freed ++ [p] }

end ScullDev

/-! ### Trim and open -/

/-- The quanta of one list item are given back: `for (i = 0; i < qset; i++) kfree(data[i]);`. -/
def freeQuanta (s : ScullDev) (data : Word) (qset : ℤ) : Except Stop ScullDev :=
  (List.range qset.toNat).foldlM (fun s i => do
    let q ← s.load (data + BitVec.ofNat 32 (4 * i))
    return s.kfree q) s

/-- `scull_trim` gives back what hangs from the item `dptr`. -/
def emptyItem (s : ScullDev) (qset : ℤ) (dptr : Word) : Except Stop ScullDev := do
  let data ← s.load dptr
  if data ≠ 0 then
    let s ← freeQuanta s data qset
    (s.kfree data).store dptr 0
  else
    return s

/-- What `scull_trim` does to the item `dptr`; the next item. -/
def trimItem (s : ScullDev) (qset : ℤ) (dptr : Word) : Except Stop (Word × ScullDev) := do
  let s ← emptyItem s qset dptr
  let next ← s.load (dptr + 4)
  return (next, s.kfree dptr)

/-- The loop of `scull_trim`. A walk over more items than there are addresses goes in a circle. -/
def trimLoop (qset : ℤ) : ℕ → Word → ScullDev → Except Stop ScullDev
  | 0, dptr, s => if dptr = 0 then .ok s else .error .hang
  | fuel + 1, dptr, s =>
    if dptr = 0 then .ok s
    else do
      let (next, s) ← trimItem s qset dptr
      trimLoop qset fuel next s

/-- `scull_trim`. -/
def scullTrim (P : Params) (s : ScullDev) : Except Stop ScullDev := do
  let s ← trimLoop s.qset (2 ^ 32) s.data s
  return { s with size := 0, quantum := P.scullQuantum, qset := P.scullQset, data := 0 }

def ERESTARTSYS : ℤ := 512
def ENOMEM : ℤ := 12
def EFAULT : ℤ := 14
def EINVAL : ℤ := 22
def O_ACCMODE : ℕ := 3
def O_WRONLY : ℕ := 1

/-- `scull_open`: the number returned, and the device. -/
def scullOpen (P : Params) (k : Kernel) (s : ScullDev) (fFlags : ℕ) : Except Stop (ℤ × ScullDev) :=
  if fFlags &&& O_ACCMODE = O_WRONLY then
    if k.taken then do
      let s ← scullTrim P s
      return (0, s)
    else
      return (-ERESTARTSYS, s)
  else
    return (0, s)

/-! ### Read, write and seek -/

/-- The first lines of `scull_follow`: the first item, which is made if there is none. -/
def firstItem (s : ScullDev) : Except Stop (Word × ScullDev) :=
  if s.data = 0 then do
    let (qs, s) ← s.kmalloc 8
    let s := { s with data := qs }
    if qs = 0 then
      return (0, s)
    else
      let s ← s.memset qs 8
      return (qs, s)
  else
    return (s.data, s)

/-- The loop of `scull_follow` from the item `qs`. -/
def followLoop : ℕ → Word → ScullDev → Except Stop (Word × ScullDev)
  | 0, qs, s => .ok (qs, s)
  | n + 1, qs, s => do
    let next ← s.load (qs + 4)
    if next = 0 then
      let (p, s) ← s.kmalloc 8
      let s ← s.store (qs + 4) p
      if p = 0 then
        return (0, s)
      else
        let s ← s.memset p 8
        followLoop n p s
    else
      followLoop n next s

/-- `scull_follow`: `while (n--)` goes round `n` times, which for a negative `n` is `n + 2^32`. -/
def scullFollow (s : ScullDev) (n : ℤ) : Except Stop (Word × ScullDev) := do
  let (qs, s) ← firstItem s
  if qs = 0 then
    return (0, s)
  else
    followLoop (size32 n) qs s

/-- The place of a file position: item, quantum, and byte. -/
structure Place where
  item : ℤ
  sPos : ℤ
  qPos : ℤ

/-- The lines of `scull_read` and `scull_write` that compute the place. -/
def place (quantum qset fPos : ℤ) : Except Stop Place :=
  match divMod32 (wrap32 fPos) (wrap32 (quantum * qset)) with
  | none => .error .oops
  | some (item, rest) =>
    match divMod32 rest quantum with
    | none => .error .oops
    | some (sPos, qPos) => .ok ⟨item, sPos, qPos⟩

/-- What is done to `dev->sem`. -/
inductive SemOp
  | down
  | up
deriving DecidableEq

/-- The answer to a read or a write: the number returned, the new position, the bytes that passed,
the range of the kernel's memory that the user copy was called on, and what was done to the
semaphore. -/
structure Reply where
  retval : ℤ
  fPos : ℤ
  bytes : List Byte
  range : Option (Word × ℕ)
  sem : List SemOp

/-- The semaphore on a way that ends with `goto out`: it was taken, and `out: up(&dev->sem)`. -/
def viaOut : List SemOp := [.down, .up]

/-- The address `data + n` in the array of pointers at `data`. -/
def entry (data : Word) (n : ℤ) : Word := data + BitVec.ofInt 32 (4 * n)

/-- The address `dev->data + *f_pos`: the pointer is one to a `struct scull_qset` of eight bytes. -/
def copyAddr (s : ScullDev) (fPos : ℤ) : Word := s.data + BitVec.ofInt 32 (8 * fPos)

/-- `copy_to_user(buf, from, n)`: the bytes that arrive. -/
def copyToUser (s : ScullDev) (k : Kernel) (src : Word) (n : ℕ) : Except Stop (List Byte) :=
  let n := (k.fault.getD n).min n
  if Mapped s.mem src n then
    .ok ((List.range n).map fun i => (s.mem (src + BitVec.ofNat 32 i)).getD 0)
  else
    .error .oops

/-- `copy_from_user(to, buf, n)`: after a fault the rest of the destination is zeroed. -/
def copyFromUser (s : ScullDev) (k : Kernel) (dst : Word) (buf : ℕ → Byte) (n : ℕ) :
    Except Stop ScullDev :=
  s.write dst n fun i => if k.fault.getD n ≤ i then 0 else buf i

/-- `scull_read`. -/
def scullRead (k : Kernel) (s : ScullDev) (count : ℕ) (fPos : ℤ) : Except Stop (Reply × ScullDev) :=
  if ¬ k.taken then return (⟨-ERESTARTSYS, fPos, [], none, []⟩, s)
  else if fPos ≥ s.size then return (⟨0, fPos, [], none, viaOut⟩, s)
  else do
    let count := if wrap64 (fPos + count) > s.size then size32 (s.size - fPos) else count
    let pl ← place s.quantum s.qset fPos
    let (dptr, s) ← scullFollow s pl.item
    if dptr = 0 then return (⟨0, fPos, [], none, viaOut⟩, s)
    let data ← s.load dptr
    if data = 0 then return (⟨0, fPos, [], none, viaOut⟩, s)
    let quantum ← s.load (entry data pl.sPos)
    if quantum = 0 then return (⟨0, fPos, [], none, viaOut⟩, s)
    let count := min count (size32 (s.quantum - pl.qPos))
    let bytes ← copyToUser s k (copyAddr s fPos) count
    if k.faults count then
      return (⟨-EFAULT, fPos, bytes, some (copyAddr s fPos, count), viaOut⟩, s)
    return (⟨wrap32 count, wrap64 (fPos + count), bytes, some (copyAddr s fPos, count), viaOut⟩, s)

/-- The pointer array of the item `dptr`, which is made if there is none. -/
def itemData (s : ScullDev) (dptr : Word) : Except Stop (Word × ScullDev) := do
  let data ← s.load dptr
  if data = 0 then
    let size := size32 (s.qset * 4)
    let (data, s) ← s.kmalloc size
    let s ← s.store dptr data
    if data = 0 then return (0, s)
    let s ← s.memset data size
    return (data, s)
  else
    return (data, s)

/-- The quantum in the entry at `p`, which is made if there is none. -/
def entryQuantum (s : ScullDev) (p : Word) : Except Stop (Word × ScullDev) := do
  let quantum ← s.load p
  if quantum = 0 then
    let (quantum, s) ← s.kmalloc (size32 s.quantum)
    let s ← s.store p quantum
    return (quantum, s)
  else
    return (quantum, s)

def SCULL_DATA_SIZE : ℤ := 16

/-- `scull_write`. -/
def scullWrite (k : Kernel) (s : ScullDev) (buf : ℕ → Byte) (count : ℕ) (fPos : ℤ) :
    Except Stop (Reply × ScullDev) :=
  if ¬ k.taken then return (⟨-ERESTARTSYS, fPos, [], none, []⟩, s)
  else do
    let pl ← place s.quantum s.qset fPos
    let (dptr, s) ← scullFollow s pl.item
    if dptr = 0 then return (⟨-ENOMEM, fPos, [], none, viaOut⟩, s)
    let (data, s) ← itemData s dptr
    if data = 0 then return (⟨-ENOMEM, fPos, [], none, viaOut⟩, s)
    let (quantum, s) ← entryQuantum s (entry data pl.sPos)
    if quantum = 0 then return (⟨-ENOMEM, fPos, [], none, viaOut⟩, s)
    let count := min count (size32 (s.quantum - pl.qPos))
    let count :=
      if wrap64 (fPos + count) > SCULL_DATA_SIZE then size32 (SCULL_DATA_SIZE - fPos) else count
    let s ← copyFromUser s k (copyAddr s fPos) buf count
    if k.faults count then return (⟨-EFAULT, fPos, [], some (copyAddr s fPos, count), viaOut⟩, s)
    let fPos' := wrap64 (fPos + count)
    let s := if (s.size : ℤ) < fPos' then { s with size := size32 fPos' } else s
    return (⟨wrap32 count, fPos', (List.range count).map buf, some (copyAddr s fPos, count), viaOut⟩, s)

/-- `scull_llseek`: the number returned, and the new position. -/
def scullLlseek (s : ScullDev) (fPos off whence : ℤ) : ℤ × ℤ :=
  let newpos? : Option ℤ :=
    if whence = 0 then some off
    else if whence = 1 then some (wrap64 (fPos + off))
    else if whence = 2 then some (wrap64 (s.size + off))
    else none
  match newpos? with
  | none => (-EINVAL, fPos)
  | some newpos => if newpos < 0 then (-EINVAL, fPos) else (newpos, newpos)

/-! ### Calls on the open files -/

/-- An open file of the device. -/
abbrev File := ℕ

/-- A write that was accepted: its position, and the bytes. -/
structure Write where
  start : ℤ
  data : List Byte
deriving DecidableEq

/-- The device and the positions of the open files. `crashed`: a call did not return. `writes`: the
writes accepted since the last trim, the latest first. `got`: the position of the last call, if it
was a read, and the bytes it returned. -/
structure Sys where
  dev : ScullDev
  fPos : File → Option ℤ
  crashed : Bool
  writes : List Write
  got : Option (ℤ × List Byte)

/-- A call. The size of a buffer is a `size_t`, a seek offset a `loff_t`. -/
inductive Act
  | open (f : File) (fFlags : ℕ) (k : Kernel)
  | read (f : File) (count : BitVec 32) (k : Kernel)
  | write (f : File) (buf : ℕ → Byte) (count : BitVec 32) (k : Kernel)
  | llseek (f : File) (off : BitVec 64) (whence : ℤ)

/-- An empty device in some memory, no file being open. -/
def start (P : Params) (mem : Mem) : Sys where
  dev := ⟨0, P.scullQuantum, P.scullQset, 0, mem, [], [], []⟩
  fPos := fun _ => none
  crashed := false
  writes := []
  got := none

/-- The state after a call that has the outcome `r`. -/
def conclude {α : Type} (s : Sys) (r : Except Stop α) (f : α → Sys) : Option Sys :=
  match r with
  | .ok v => some (f v)
  | .error .unanswered => none
  | .error _ => some { s with crashed := true, got := none }

/-- One call; `none` if it cannot be made, or the kernel cannot have answered so. -/
def step (P : Params) (s : Sys) (act : Act) : Option Sys :=
  if s.crashed then none
  else
    match act with
    | .open f fFlags k =>
      if s.fPos f = none then
        conclude s (scullOpen P k { s.dev with answers := k.answers } fFlags) fun r =>
          if r.1 = 0 then
            { s with
              dev := r.2, fPos := Function.update s.fPos f (some 0), got := none
              writes := if fFlags &&& O_ACCMODE = O_WRONLY then [] else s.writes }
          else { s with dev := r.2, got := none }
      else none
    | .read f count k =>
      match s.fPos f with
      | none => none
      | some p =>
        conclude s (scullRead k { s.dev with answers := k.answers } count.toNat p) fun r =>
          { s with
            dev := r.2, fPos := Function.update s.fPos f (some r.1.fPos)
            got := if 0 ≤ r.1.retval then some (p, r.1.bytes) else none }
    | .write f buf count k =>
      match s.fPos f with
      | none => none
      | some p =>
        conclude s (scullWrite k { s.dev with answers := k.answers } buf count.toNat p) fun r =>
          { s with
            dev := r.2, fPos := Function.update s.fPos f (some r.1.fPos), got := none
            writes := if 0 < r.1.retval then ⟨p, r.1.bytes⟩ :: s.writes else s.writes }
    | .llseek f off whence =>
      match s.fPos f with
      | none => none
      | some p =>
        some { s with
          fPos := Function.update s.fPos f (some (scullLlseek s.dev p off.toInt whence).2)
          got := none }

/-! ### What a step can be -/

/-- The device before a call. -/
def before (s : Sys) (k : Kernel) : ScullDev := { s.dev with answers := k.answers }

section Step
variable {P : Params} {s s' : Sys} {f : File} {fFlags : ℕ} {k : Kernel} {count : BitVec 32}
  {buf : ℕ → Byte} {off : BitVec 64} {whence : ℤ}

theorem step_open (h : step P s (.open f fFlags k) = some s') :
    s.crashed = false ∧ s.fPos f = none ∧
      conclude s (scullOpen P k (before s k) fFlags) (fun r =>
        if r.1 = 0 then
          { s with
            dev := r.2, fPos := Function.update s.fPos f (some 0), got := none
            writes := if fFlags &&& O_ACCMODE = O_WRONLY then [] else s.writes }
        else { s with dev := r.2, got := none }) = some s' := by
  unfold step at h
  split_ifs at h with hcrashed
  by_cases hf : s.fPos f = none
  · simp only [hf, if_true] at h
    exact ⟨by simpa using hcrashed, hf, h⟩
  · simp [hf] at h

theorem step_read (h : step P s (.read f count k) = some s') :
    s.crashed = false ∧ ∃ p, s.fPos f = some p ∧
      conclude s (scullRead k (before s k) count.toNat p) (fun r =>
        { s with
          dev := r.2, fPos := Function.update s.fPos f (some r.1.fPos)
          got := if 0 ≤ r.1.retval then some (p, r.1.bytes) else none }) = some s' := by
  unfold step at h
  split_ifs at h with hcrashed
  cases hf : s.fPos f with
  | none => simp [hf] at h
  | some p =>
    simp only [hf] at h
    exact ⟨by simpa using hcrashed, p, rfl, h⟩

theorem step_write (h : step P s (.write f buf count k) = some s') :
    s.crashed = false ∧ ∃ p, s.fPos f = some p ∧
      conclude s (scullWrite k (before s k) buf count.toNat p) (fun r =>
        { s with
          dev := r.2, fPos := Function.update s.fPos f (some r.1.fPos), got := none
          writes := if 0 < r.1.retval then ⟨p, r.1.bytes⟩ :: s.writes else s.writes }) =
        some s' := by
  unfold step at h
  split_ifs at h with hcrashed
  cases hf : s.fPos f with
  | none => simp [hf] at h
  | some p =>
    simp only [hf] at h
    exact ⟨by simpa using hcrashed, p, rfl, h⟩

theorem step_llseek (h : step P s (.llseek f off whence) = some s') :
    s.crashed = false ∧ ∃ p, s.fPos f = some p ∧
      s' = { s with
        fPos := Function.update s.fPos f (some (scullLlseek s.dev p off.toInt whence).2)
        got := none } := by
  unfold step at h
  split_ifs at h with hcrashed
  cases hf : s.fPos f with
  | none => simp [hf] at h
  | some p =>
    simp only [hf] at h
    exact ⟨by simpa using hcrashed, p, rfl, (Option.some.inj h).symm⟩

end Step

end LinuxHomework.Scull.Device
