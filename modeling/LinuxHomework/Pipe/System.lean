import LinuxHomework.Lib.Runs
import LinuxHomework.Pipe.Device
import Mathlib.Data.List.Basic
import Mathlib.Logic.Function.Basic

/-! # The calls of the pipe device, step by step

Any number of tasks are inside `scull_p_open`, `scull_p_release`, `scull_p_read`, `scull_p_write`
and `scull_p_poll` on the files of one device. A step is the code between two operations on the
semaphore, on a wait queue or on the task's state; `Pc` names the places between the steps.

`wait_event_interruptible` is the kernel's loop of `prepare_to_wait`, a second test of its
condition, and `schedule()`. A task that calls `schedule()` in `TASK_INTERRUPTIBLE` sleeps until
`wake_up_interruptible` or a Unix signal sets it running. `wake_up_interruptible` wakes all the
tasks on the queue, which are not exclusive, and takes those it woke off the queue. A file is
released when no call on it is in progress (`users`).

Two histories are kept beside the device: the bytes accepted by writes and those returned by reads,
in the order of the critical sections. -/

namespace LinuxHomework.Pipe.System

open LinuxHomework.Lib.Runs LinuxHomework.Pipe.Device

abbrev Task := ℕ

/-- An open file of the device, or one that could be opened. -/
abbrev Handle := ℕ

/-- Where a task is: before the step named. -/
inductive Pc
  | out
  | openDown
  | openBody
  | openUp
  | openUpFail
  | relDown
  | relBody
  | relUp
  | readDown
  | readBody
  | readUpEmpty
  | readTest
  | readPrepare
  | readRecheck
  | readSleep
  | readFinish
  | readFinishSignal
  | readUpFault
  | readUp
  | readWake
  | writeDown
  | writeBody
  | writeUpFull
  | writePrepare
  | writeRecheck
  | writeSleep
  | writeFinish
  | writeUpFault
  | writeUp
  | writeWake
  | pollDown
  | pollBody
  | pollUp
deriving DecidableEq

/-- A task: its place, the file and the buffer of its call, whether it is in `TASK_INTERRUPTIBLE`,
whether a Unix signal is pending, and the value its call returns. -/
structure TaskState where
  pc : Pc
  h : Handle
  count : ℕ
  buf : ℕ → UInt8
  interruptible : Bool
  signal : Bool
  retval : ℤ

/-- A file on its way from `open` to `release`. -/
inductive Phase
  | closed
  | opening
  | opened
  | closing
deriving DecidableEq

/-- A file: its phase, its mode, and the number of calls in progress on it. -/
structure File where
  phase : Phase
  mode : Mode
  users : ℕ
deriving DecidableEq

/-- The device with its semaphore and queues, the files, the tasks, and the two histories. -/
structure Sys where
  dev : ScullPipe
  sem : ℕ
  inq : List Task
  outq : List Task
  file : Handle → File
  task : Task → TaskState
  accepted : List UInt8
  returned : List UInt8

/-- The beginning of a call, the next step of a task, or a Unix signal. -/
inductive Act
  | callOpen (t : Task) (h : Handle) (mode : Mode)
  | callRelease (t : Task) (h : Handle)
  | callRead (t : Task) (h : Handle) (count : ℕ)
  | callWrite (t : Task) (h : Handle) (buf : ℕ → UInt8) (count : ℕ)
  | callPoll (t : Task) (h : Handle)
  | go (t : Task) (k : Kernel)
  | unixSignal (t : Task)

/-- Nothing is open, and nobody is in a call. -/
def start (mem : ℤ → UInt8) : Sys where
  dev := init mem
  sem := 1
  inq := []
  outq := []
  file := fun _ => ⟨.closed, ⟨false, false, false⟩, 0⟩
  task := fun _ => ⟨.out, 0, 0, fun _ => 0, false, false, 0⟩
  accepted := []
  returned := []

namespace Sys

variable (s : Sys) (t : Task)

/-- The task's new state. -/
def set (k : TaskState) : Sys := { s with task := Function.update s.task t k }

/-- The task goes on to `pc`. -/
def goto (pc : Pc) : Sys := s.set t { s.task t with pc }

/-- The task returns `v`; pending signals are handled. -/
def ret (v : ℤ) : Sys :=
  s.set t { s.task t with pc := .out, interruptible := false, signal := false, retval := v }

/-- The state of the file of the task's call changes. -/
def setFile (f : File) : Sys := { s with file := Function.update s.file (s.task t).h f }

/-- The file of the task's call. -/
def fileOf : File := s.file (s.task t).h

/-- The task returns `v` from a read, a write or a poll. -/
def leave (v : ℤ) : Sys :=
  (s.setFile t { s.fileOf t with users := (s.fileOf t).users - 1 }).ret t v

/-- The task returns `v` from an open that failed. -/
def refuse (v : ℤ) : Sys := (s.setFile t { s.fileOf t with phase := .closed }).ret t v

/-- `down_interruptible`; `fail` is what happens after a signal. -/
def downInterruptible (next : Pc) (fail : Sys) : Option Sys :=
  if 0 < s.sem then some { s.goto t next with sem := s.sem - 1 }
  else if (s.task t).signal then some fail
  else none

/-- `down`. -/
def down (next : Pc) : Option Sys :=
  if 0 < s.sem then some { s.goto t next with sem := s.sem - 1 } else none

/-- `up`. -/
def up : Sys := { s with sem := s.sem + 1 }

/-- The tasks that a wake-up of the queue `q` sets running. -/
def wake (q : List Task) : Task → TaskState := fun u =>
  if u ∈ q ∧ (s.task u).interruptible then { s.task u with interruptible := false } else s.task u

/-- What a wake-up leaves on the queue `q`. -/
def unwoken (q : List Task) : List Task := q.filter fun u => ¬ (s.task u).interruptible

/-- `wake_up_interruptible(&dev->inq)`. -/
def wakeInq : Sys := { s with task := s.wake s.inq, inq := s.unwoken s.inq }

/-- `wake_up_interruptible(&dev->outq)`. -/
def wakeOutq : Sys := { s with task := s.wake s.outq, outq := s.unwoken s.outq }

/-- `prepare_to_wait`: put the task on the queue, unless it is there. -/
def enqueue (q : List Task) : List Task := if t ∈ q then q else q ++ [t]

end Sys

/-- The critical section of `scull_p_open`. -/
def openBody (N : ℤ) (s : Sys) (t : Task) (k : Kernel) : Sys :=
  let dev := allocate N k s.dev
  if dev.buffer = 0 then { s.goto t .openUpFail with dev }
  else
    { (s.setFile t { s.fileOf t with phase := .opened }).goto t .openUp with
      dev := enter N (s.fileOf t).mode dev }

/-- The critical section of `scull_p_release`. -/
def relBody (s : Sys) (t : Task) : Sys :=
  { (s.setFile t { s.fileOf t with phase := .closed }).goto t .relUp with
    dev := releaseBuffer (leave (s.fileOf t).mode s.dev) }

/-- The critical section of `scull_p_read`: the test, and the copy if there is something. -/
def readBody (s : Sys) (t : Task) (k : Kernel) : Sys :=
  if s.dev.rp = s.dev.wp then s.goto t .readUpEmpty
  else
    let n := readCount s.dev (s.task t).count
    if k.faults n then s.goto t .readUpFault
    else
      { s.set t { s.task t with pc := .readUp, retval := n } with
        dev := moveRp s.dev n, returned := s.returned ++ copyOut s.dev n }

/-- The critical section of `scull_p_write`: the test, and the copy if there is space. -/
def writeBody (s : Sys) (t : Task) (k : Kernel) : Sys :=
  if spacefree s.dev = 0 then s.goto t .writeUpFull
  else
    let n := writeCount s.dev (s.task t).count
    let dev := copyIn s.dev k (s.task t).buf n
    if k.faults n then { s.goto t .writeUpFault with dev }
    else
      { s.set t { s.task t with pc := .writeUp, retval := n } with
        dev := moveWp dev n, accepted := s.accepted ++ (List.range n).map (s.task t).buf }

/-- The mask of `scull_p_poll`: `POLLIN | POLLRDNORM` and `POLLOUT | POLLWRNORM`. -/
def pollMask (dev : ScullPipe) : ℤ :=
  (if dev.rp ≠ dev.wp then 0x41 else 0) + if spacefree dev ≠ 0 then 0x104 else 0

/-- The next step of a task that is inside a call. -/
def go (N : ℤ) (s : Sys) (t : Task) (k : Kernel) : Option Sys :=
  let me := s.task t
  match me.pc with
  | .out => none
  | .openDown => s.downInterruptible t .openBody (s.refuse t (-ERESTARTSYS))
  | .openBody => some (openBody N s t k)
  | .openUp => some (s.up.ret t 0)
  | .openUpFail => some (s.up.refuse t (-ENOMEM))
  | .relDown => s.down t .relBody
  | .relBody => some (relBody s t)
  | .relUp => some (s.up.ret t 0)
  | .readDown => s.downInterruptible t .readBody (s.leave t (-ERESTARTSYS))
  | .readBody => some (readBody s t k)
  | .readUpEmpty =>
    some (if (s.fileOf t).mode.nonblock then s.up.leave t (-EAGAIN) else s.up.goto t .readTest)
  | .readTest => some (s.goto t (if s.dev.rp ≠ s.dev.wp then .readDown else .readPrepare))
  | .readPrepare =>
    some { s.set t { me with pc := .readRecheck, interruptible := true } with
      inq := Sys.enqueue t s.inq }
  | .readRecheck =>
    some (s.goto t (if s.dev.rp ≠ s.dev.wp then .readFinish
      else if me.signal then .readFinishSignal else .readSleep))
  | .readSleep => if me.interruptible ∧ ¬ me.signal then none else some (s.goto t .readPrepare)
  | .readFinish =>
    some { s.set t { me with pc := .readDown, interruptible := false } with
      inq := s.inq.erase t }
  | .readFinishSignal => some { s.leave t (-ERESTARTSYS) with inq := s.inq.erase t }
  | .readUpFault => some (s.up.leave t (-EFAULT))
  | .readUp => some (s.up.goto t .readWake)
  | .readWake => some (s.wakeOutq.leave t me.retval)
  | .writeDown => s.downInterruptible t .writeBody (s.leave t (-ERESTARTSYS))
  | .writeBody => some (writeBody s t k)
  | .writeUpFull =>
    some (if (s.fileOf t).mode.nonblock then s.up.leave t (-EAGAIN) else s.up.goto t .writePrepare)
  | .writePrepare =>
    some { s.set t { me with pc := .writeRecheck, interruptible := true } with
      outq := Sys.enqueue t s.outq }
  | .writeRecheck =>
    some (s.goto t (if spacefree s.dev = 0 then .writeSleep else .writeFinish))
  | .writeSleep => if me.interruptible ∧ ¬ me.signal then none else some (s.goto t .writeFinish)
  | .writeFinish =>
    some { (if me.signal then s.leave t (-ERESTARTSYS)
        else s.set t { me with pc := .writeDown, interruptible := false }) with
      outq := s.outq.erase t }
  | .writeUpFault => some (s.up.leave t (-EFAULT))
  | .writeUp => some (s.up.goto t .writeWake)
  | .writeWake => some (s.wakeInq.leave t me.retval)
  | .pollDown => s.down t .pollBody
  | .pollBody => some (s.set t { me with pc := .pollUp, retval := pollMask s.dev })
  | .pollUp => some (s.up.leave t me.retval)

/-- A task begins a call on an open file. -/
def enterCall (s : Sys) (t : Task) (h : Handle) (k : TaskState) : Sys :=
  { s.set t k with
    file := Function.update s.file h { s.file h with users := (s.file h).users + 1 } }

/-- One step; `none` if it cannot be taken. -/
def step (N : ℤ) (s : Sys) : Act → Option Sys
  | .callOpen t h mode =>
    if (s.task t).pc = .out ∧ (s.file h).phase = .closed then
      some { s.set t { s.task t with pc := .openDown, h } with
        file := Function.update s.file h ⟨.opening, mode, 0⟩ }
    else none
  | .callRelease t h =>
    if (s.task t).pc = .out ∧ (s.file h).phase = .opened ∧ (s.file h).users = 0 then
      some { s.set t { s.task t with pc := .relDown, h } with
        file := Function.update s.file h { s.file h with phase := .closing } }
    else none
  | .callRead t h count =>
    if (s.task t).pc = .out ∧ (s.file h).phase = .opened ∧ (s.file h).mode.read then
      some (enterCall s t h { s.task t with pc := .readDown, h, count })
    else none
  | .callWrite t h buf count =>
    if (s.task t).pc = .out ∧ (s.file h).phase = .opened ∧ (s.file h).mode.write then
      some (enterCall s t h { s.task t with pc := .writeDown, h, buf, count })
    else none
  | .callPoll t h =>
    if (s.task t).pc = .out ∧ (s.file h).phase = .opened then
      some (enterCall s t h { s.task t with pc := .pollDown, h })
    else none
  | .go t k => go N s t k
  | .unixSignal t => some (s.set t { s.task t with signal := true, interruptible := false })

end LinuxHomework.Pipe.System
