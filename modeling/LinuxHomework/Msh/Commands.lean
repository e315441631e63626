import LinuxHomework.Lib.Blocks
import LinuxHomework.Lib.Buffer
import LinuxHomework.Lib.Descriptors
import LinuxHomework.Msh.Lexer

/-! # The commands of `2/xyshell-read-only/study/msh/parsecmd.l`

The arguments of a line are strings in the heap, and `argbuf` points to them. `do_list_cmd` and
`do_pipe_cmd` put `NULL` in the place of a separator while they run what stands before it, and put
the pointer back afterwards. Strings are lists of characters without the byte 0 that ends them.

What the system answers is a `Machine`, which each command finds anew (`Host`). Any of `pipe`,
`fork`, `open`, `chdir` and `execv` may fail; the result of `pipe` is not looked at, so that the
arrays for a pipe may hold what they held before, which at first is what `stack` and `postfd` say of
local arrays. An access outside of an array, through a null pointer where a string is expected or to
a block that is not there, and a text that is too long for its array have no meaning in C; the shell
stops there (`Stop`). A child works on a copy of everything; what becomes of it is kept in the log
(`ChildEnd`), which goes on behind each `waitpid` as if it came back. What goes to the standard
error is left out.

* `addSimpleArg`, `resetArgs`, `doExit`, `doCd`, `doExport`, `doEcho`, `fileExist`,
  `predoForRedirect`, `doSimpleCmd`, `doPipeCmd`, `doListCmd`: the source. -/

namespace LinuxHomework.Msh.Commands

open LinuxHomework.Lib.Blocks LinuxHomework.Lib.Buffer LinuxHomework.Lib.Descriptors
open LinuxHomework.Msh.Lexer

/-- The number of entries of `argbuf`, and the size of the buffers of `add_arg`. -/
def ARGSZ : ℕ := 200

/-- The size of the arrays for a working directory and for the path of a program. -/
def PATHSZ : ℕ := 100

/-- Why the shell does not go on: it called `exit`, or what it does has no meaning. -/
inductive Stop
  | exited
  | crash
  | overflow
deriving DecidableEq

inductive Mode
  | r
  | w
deriving DecidableEq

/-- What is open: an end of a pipe, a file opened by its name, or something else. -/
inductive Kind
  | given
  | readEnd (pipe : ℕ)
  | writeEnd (pipe : ℕ)
  | named (name : Text) (mode : Mode)
deriving DecidableEq

/-- A pair of descriptors from `pipe`: the read end and the write end. -/
abbrev Pipefd := ℕ × ℕ

/-- **What the system answers** to one command: the process number, which files can be opened, which
paths exist and can be executed, whether `fork` and `pipe` succeed, where `chdir` leads from a
working directory, what `strerror(errno)` says, and what local arrays hold that nothing was stored
to, those of characters and the one for a pipe. -/
structure Machine where
  pid : ℕ
  opens : Text → Mode → Bool
  found : Text → Bool
  execs : Text → Bool
  forks : Bool
  pipes : Bool
  chdir : Text → Text → Option Text
  error : Text
  stack : ℕ → Option Char
  postfd : Pipefd

/-- **The system in a run**: what command `k` finds, and the shell on its way to that command. -/
abbrev Host := ℕ → Machine

/-- The environment, the working directory, `lastdir`, and the lines of the history. -/
structure World where
  environ : Text → Option Text
  cwd : Text
  lastdir : Text
  history : List Text

/-- A call of `do_simple_cmd`: its arguments, and whether there is a `prefd` and a `postfd`. -/
structure Call where
  cmd : List Text
  pre : Bool
  post : Bool
deriving DecidableEq

/-- **What becomes of a child**: it executes a program, it exits behind a built-in command that has
printed something, it exits because there is nothing to run, it goes on as a second shell because
`execv` came back, or what it does has no meaning. -/
inductive ChildEnd
  | exec (path : Text) (argv : List Text) (files : Table Kind)
  | buildin (out : Text) (files : Table Kind)
  | exits
  | returns (files : Table Kind)
  | fails (why : Stop)

/-- What the shell does. -/
inductive Event
  | call (c : Call)
  | pipe (num : ℕ)
  | fork (pid : ℕ) (child : ChildEnd)
  | waitpid (pid : ℕ)
  | print (text : Text)

/-- The shell without its strings. It has called `do_simple_cmd` for `calls` commands. -/
structure Core where
  world : World
  files : Table Kind
  forked : ℕ
  calls : ℕ
  log : List Event

/-- **The shell.** `none` is `NULL` in `argbuf`. -/
@[ext] structure Shell where
  argbuf : ℕ → Option ℕ
  argcnt : ℕ
  heap : Heap Text
  core : Core

/-- The shell stops: why, and what it has come to. -/
structure Halt where
  why : Stop
  core : Core

/-- What stops the shell, with what it has come to. -/
def halted {α : Type} (c : Core) (r : Except Stop α) : Except Halt α :=
  match r with
  | .ok v => .ok v
  | .error e => .error ⟨e, c⟩

@[simp] theorem halted_ok {α : Type} (c : Core) (v : α) : halted c (.ok v) = .ok v := rfl

def Core.add (c : Core) (e : Event) : Core := { c with log := c.log ++ [e] }

@[simp] theorem Core.world_add (c : Core) (e : Event) : (c.add e).world = c.world := rfl

@[simp] theorem Core.files_add (c : Core) (e : Event) : (c.add e).files = c.files := rfl

@[simp] theorem Core.forked_add (c : Core) (e : Event) : (c.add e).forked = c.forked := rfl

@[simp] theorem Core.log_add (c : Core) (e : Event) : (c.add e).log = c.log ++ [e] := rfl

/-- The next command. -/
def Core.begin (c : Core) (call : Call) : Core := { c.add (.call call) with calls := c.calls + 1 }

variable (m : Machine)

/-! ### The arguments -/

/-- `argbuf[i]`. -/
def Shell.entry (s : Shell) (i : ℕ) : Except Stop (Option ℕ) :=
  if i < ARGSZ then .ok (s.argbuf i) else .error .crash

/-- The string at `p`. -/
def Shell.str (s : Shell) (p : ℕ) : Except Stop Text :=
  match s.heap.block p with
  | some t => .ok t
  | none => .error .crash

/-- The string at `argbuf[i]`, or `NULL`. -/
def Shell.arg (s : Shell) (i : ℕ) : Except Stop (Option Text) := do
  match ← s.entry i with
  | none => return none
  | some p => return some (← s.str p)

/-- `argbuf[i] = p`. -/
def Shell.store (s : Shell) (i : ℕ) (p : Option ℕ) : Shell :=
  { s with argbuf := Function.update s.argbuf i p }

/-- The strings from `argbuf[i]` on up to `NULL`. -/
def Shell.slice (s : Shell) : (n i : ℕ) → List Text
  | 0, _ => []
  | n + 1, i =>
    match (s.argbuf i).bind s.heap.block with
    | none => []
    | some t => t :: s.slice n (i + 1)

/-- **`add_simple_arg`**. -/
def addSimpleArg (arg : Text) (s : Shell) : Except Stop Shell :=
  if s.argcnt + 1 < ARGSZ then
    let (p, heap) := s.heap.malloc arg
    let s := { s with heap := heap }
    .ok { (s.store s.argcnt (some p)).store (s.argcnt + 1) none with argcnt := s.argcnt + 1 }
  else .error .overflow

/-- The loop of `reset_args`, over the `n` entries from `i` on. -/
def resetLoop : (n i : ℕ) → Shell → Except Stop Shell
  | 0, _, s => .ok s
  | n + 1, i, s => do
    match ← s.entry i with
    | none => resetLoop n (i + 1) (s.store i none)
    | some p =>
      match s.heap.free p with
      | none => .error .crash
      | some heap => resetLoop n (i + 1) ({ s with heap := heap }.store i none)

/-- **`reset_args`**; `free(NULL)` does nothing. -/
def resetArgs (s : Shell) : Except Stop Shell := do
  let s ← resetLoop s.argcnt 0 s
  return { s with argcnt := 0 }

/-! ### Built-in commands -/

/-- A built-in command comes back, having printed something, or it exits. -/
inductive Builtin
  | next (w : World) (out : Text)
  | exit

/-- `argc`, the arguments up to `NULL`, and the state that they change. -/
abbrev BuildinCmdHandle := Machine → ℕ → List Text → World → Except Stop Builtin

/-- **`do_exit`**: `atoi` needs a string. -/
def doExit : BuildinCmdHandle := fun _ argc argv _ =>
  if 1 < argc ∧ argv.length < 2 then .error .crash else .ok .exit

def HOME : Text := ['H', 'O', 'M', 'E']

/-- `getcwd(cwd, 99)`, into an array that holds something; it fails if the directory is too long. -/
def getcwd (w : World) : Option Text :=
  if w.cwd.length + 1 < PATHSZ then some w.cwd else cString PATHSZ m.stack

/-- `sprintf` with `%d`. -/
def decimal (n : ℕ) : Text := Nat.toDigits 10 n

/-- A line about something, of the form `what: text`. -/
def lineOn (what text : Text) : Text := what ++ ':' :: ' ' :: text ++ ['\n']

def CD : Text := ['c', 'd']

/-- The end of `do_cd`: `getcwd(cwd, 99); chdir(dir); strcpy(lastdir, cwd)`. -/
def changeDir (dir : Option Text) (w : World) : Except Stop Builtin :=
  match dir.bind (m.chdir w.cwd) with
  | none => .ok (.next w (lineOn CD m.error))
  | some cwd =>
    match getcwd m w with
    | none => .error .overflow
    | some old => .ok (.next { w with cwd := cwd, lastdir := old } [])

def cdUsage : Text := "Usage: cd [dir]\n".toList

/-- **`do_cd`**. -/
def doCd : BuildinCmdHandle := fun m argc argv w =>
  if argc = 1 then changeDir m (w.environ HOME) w
  else if argc = 2 then
    match argv[1]? with
    | none => .error .crash
    | some arg =>
      if arg = ['-'] then changeDir m (some w.lastdir) w
      else if arg = ['~'] then changeDir m (w.environ HOME) w
      else changeDir m (some arg) w
  else .ok (.next w cdUsage)

/-- The characters that `do_export` does not want in a name. -/
def badNameChars : List Char :=
  ['~', '`', '!', '@', '#', '$', '%', '^', '&', '*', '(', ')', '-', '_', '+', '=', '|', '\\', '{',
    '}', '[', ']', ';', ':', '\'', '"', '<', '>', ',', '.', '?', '/']

def EXPORT : Text := ['e', 'x', 'p', 'o', 'r', 't']

def notValid : Text := "not a valid indentifier".toList

/-- One argument of `do_export`: the environment, and what is printed. The `=` is overwritten for
the time of the calls and put back. `setenv(name, value, 1)` wants a name. -/
def exportArg (environ : Text → Option Text) (arg : Text) : (Text → Option Text) × Text :=
  if '=' ∈ arg then
    let name := arg.takeWhile (· ≠ '=')
    if name.any (· ∈ badNameChars) then (environ, lineOn EXPORT (arg ++ ':' :: ' ' :: notValid))
    else if name = [] then (environ, lineOn EXPORT m.error)
    else (Function.update environ name (some (arg.dropWhile (· ≠ '=')).tail), [])
  else (environ, [])

/-- The loop of `do_export`. -/
def exportLoop : (Text → Option Text) → List Text → (Text → Option Text) × Text
  | environ, [] => (environ, [])
  | environ, arg :: args =>
    let (environ, out) := exportArg m environ arg
    let (environ, outs) := exportLoop environ args
    (environ, out ++ outs)

/-- **`do_export`**. -/
def doExport : BuildinCmdHandle := fun m _ argv w =>
  let (environ, out) := exportLoop m w.environ (argv.drop 1)
  .ok (.next { w with environ := environ } out)

/-- The arguments of `do_echo` with a blank between them. -/
def spaced : List Text → Text
  | [] => []
  | [arg] => arg
  | arg :: args => arg ++ ' ' :: spaced args

/-- **`do_echo`**. -/
def doEcho : BuildinCmdHandle := fun _ _ argv w =>
  let option := argv[1]?.getD []
  let argn := option ∈ [['-', 'n'], ['-', 'n', 'e'], ['-', 'e', 'n']]
  let arge := option ∈ [['-', 'e'], ['-', 'n', 'e'], ['-', 'e', 'n']]
  let args := argv.drop (if argn ∨ arge then 2 else 1)
  .ok (.next w (spaced args ++ if argn then [] else ['\n']))

/-- `display_history_list`, from line `i` on. -/
def historyLines : (i : ℕ) → List Text → Text
  | _, [] => []
  | i, line :: lines => lineOn (decimal i) line ++ historyLines (i + 1) lines

/-- **`do_history`**. -/
def doHistory : BuildinCmdHandle := fun _ _ _ w => .ok (.next w (historyLines 0 w.history))

def buildinCmdTable : List (Text × BuildinCmdHandle) :=
  [(['e', 'x', 'i', 't'], doExit), (CD, doCd), (['e', 'c', 'h', 'o'], doEcho), (EXPORT, doExport),
    (['h', 'i', 's', 't', 'o', 'r', 'y'], doHistory)]

/-- `get_cmd_handle`. -/
def getCmdHandle (cmd : Text) : Option BuildinCmdHandle :=
  (buildinCmdTable.find? fun e => e.1 = cmd).map Prod.snd

/-! ### Programs -/

/-- The loop of `file_exist` over the rest of `PATH`; `buffer` holds the directory so far. -/
def fileLoop (file : Text) : Text → Text → Except Stop (Option Text)
  | [], _ => .ok none
  | c :: p, buffer =>
    if c ≠ ':' then
      if buffer.length < PATHSZ then fileLoop file p (buffer ++ [c]) else .error .overflow
    else if buffer.length + 1 + file.length < PATHSZ then
      let path := buffer ++ '/' :: file
      if m.found path then .ok (some path) else fileLoop file p []
    else .error .overflow

def PATH : Text := ['P', 'A', 'T', 'H']

/-- **`file_exist`**: the path that was found. -/
def fileExist (environ : Text → Option Text) (file : Text) : Except Stop (Option Text) :=
  match environ PATH with
  | none => .error .crash
  | some path => fileLoop m file path []

/-! ### Redirection -/

/-- The redirection that an argument asks for. -/
def redirection (t : Text) : Option Mode :=
  if t = ['<'] then some .r else if t = ['>'] then some .w else none

/-- The loop of `predo_for_redirect`, over the `n` arguments from `i` on. -/
def redirectLoop (s : Shell) (b : ℕ) : (n i : ℕ) → Except Stop (Option (ℕ × Mode))
  | 0, _ => .ok none
  | n + 1, i => do
    match ← s.arg (b + i) with
    | none => .error .crash
    | some t =>
      match redirection t with
      | some mode => return some (i, mode)
      | none => redirectLoop s b n (i + 1)

/-- The standard descriptor that is redirected. -/
def Mode.fd : Mode → ℕ
  | .r => 0
  | .w => 1

/-- `open` and `dup2`. The new descriptor is not closed. -/
def openOn (mode : Mode) (name : Text) (T : Table Kind) : Table Kind :=
  (T.create (.named name mode)).dup2 T.free mode.fd

/-- **`predo_for_redirect(argc, argbuf + b, &redirect)`**: whether it is done, and what it found. -/
def predoForRedirect (argc b : ℕ) (s : Shell) : Except Stop (Bool × Option Mode × Shell) := do
  match ← redirectLoop s b (argc - 1) 1 with
  | none => return (true, none, s)
  | some (i, mode) =>
    let s := s.store (b + i) none
    match ← s.arg (b + i + 1) with
    | none => return (false, some mode, s)
    | some name =>
      if m.opens name mode then
        return (true, some mode, { s with core.files := openOn mode name s.core.files })
      else return (false, some mode, s)

/-! ### Simple commands -/

/-- The end of a pipe that a child needs becomes its standard descriptor, the other one is
closed. -/
def join (own other std : ℕ) (T : Table Kind) : Table Kind :=
  let T := T.close other
  if own ≠ std then (T.dup2 own std).close own else T

/-- `prefd` in a child, if its input is not redirected. -/
def joinPre (redirect : Option Mode) (prefd : Option Pipefd) (T : Table Kind) : Table Kind :=
  match prefd with
  | some fd => if redirect ≠ some .r then join fd.1 fd.2 0 T else T
  | none => T

/-- `postfd` in a child, if its output is not redirected. -/
def joinPost (redirect : Option Mode) (postfd : Option Pipefd) (T : Table Kind) : Table Kind :=
  match postfd with
  | some fd => if redirect ≠ some .w then join fd.2 fd.1 1 T else T
  | none => T

/-- What becomes of a child that runs so. -/
def ended : Except Stop ChildEnd → ChildEnd
  | .ok r => r
  | .error e => .fails e

/-- The child behind its redirection and its pipes. -/
def childRun (argc b : ℕ) (T : Table Kind) (s : Shell) : Except Stop ChildEnd := do
  match ← s.arg b with
  | none => .error .crash
  | some cmd =>
    match getCmdHandle cmd with
    | some hd =>
      match ← hd m argc (s.slice ARGSZ b) s.core.world with
      | .next _ out => return .buildin out T
      | .exit =>
        let _ ← resetArgs s
        return .buildin [] T
    | none =>
      match ← fileExist m s.core.world.environ cmd with
      | none => return .exits
      | some path => return if m.execs path then .exec path (s.slice ARGSZ b) T else .returns T

/-- The child of `do_simple_cmd`. -/
def child (argc b : ℕ) (prefd postfd : Option Pipefd) (s : Shell) : ChildEnd :=
  ended do
    let (done, redirect, s) ← predoForRedirect m argc b s
    if done then
      childRun m argc b (joinPost redirect postfd (joinPre redirect prefd s.core.files)) s
    else return .exits

/-- `close(postfd[1])` in the parent. -/
def closePost (postfd : Option Pipefd) (T : Table Kind) : Table Kind :=
  match postfd with
  | some fd => T.close fd.2
  | none => T

/-- A built-in command in the shell itself. -/
def runBuildin (hd : BuildinCmdHandle) (argc b : ℕ) (s : Shell) : Except Halt Shell := do
  let (done, _, s) ← halted s.core (predoForRedirect m argc b s)
  if done then
    match ← halted s.core (hd m argc (s.slice ARGSZ b) s.core.world) with
    | .next w out => return { s with core := { s.core.add (.print out) with world := w } }
    | .exit =>
      let s ← halted s.core (resetArgs s)
      .error ⟨.exited, s.core⟩
  else return s

/-- `fork`, and what the parent does. -/
def runChild (argc b : ℕ) (prefd postfd : Option Pipefd) (s : Shell) : Core :=
  let c := s.core
  let c := if m.forks then
      { (c.add (.fork c.forked (child m argc b prefd postfd s))).add (.waitpid c.forked) with
        forked := c.forked + 1 }
    else c
  { c with files := closePost postfd c.files }

/-- **`do_simple_cmd(argc, argbuf + b, prefd, postfd)`**. -/
def doSimpleCmd (argc b : ℕ) (prefd postfd : Option Pipefd) (s : Shell) : Except Halt Shell := do
  let s := { s with core := s.core.begin ⟨s.slice ARGSZ b, prefd.isSome, postfd.isSome⟩ }
  if argc = 0 then return s
  match ← halted s.core (s.arg b) with
  | none => .error ⟨.crash, s.core⟩
  | some cmd =>
    match if prefd = none ∧ postfd = none then getCmdHandle cmd else none with
    | some hd => runBuildin m hd argc b s
    | none => return { s with core := runChild m argc b prefd postfd s }

/-! ### Pipelines and lists -/

/-- `pipe(postfd)`: what the array holds then. -/
def Core.pipe (postfd : Pipefd) (c : Core) : Pipefd × Core :=
  if m.pipes then
    let T := c.files.create (.readEnd c.files.made)
    ((c.files.free, T.free),
      { c.add (.pipe c.files.made) with files := T.create (.writeEnd c.files.made) })
  else (postfd, c)

variable (host : Host)

/-- The loop of `do_pipe_cmd` and the last call behind it; `n` bounds the rounds. There is no
`prefd` as long as `prepipe` is not set. -/
def pipeLoop (b : ℕ) : (n i j : ℕ) → Option Pipefd → Pipefd → Shell → Except Halt Shell
  | 0, _, _, _, _, s => .error ⟨.crash, s.core⟩
  | n + 1, i, j, prefd, postfd, s => do
    let m := host s.core.calls
    match ← halted s.core (s.entry (b + i)) with
    | none => doSimpleCmd m (i - j) (b + j) prefd none s
    | some p =>
      if (← halted s.core (s.str p)) = ['|'] then
        let (postfd, core) := s.core.pipe m postfd
        let s ← doSimpleCmd m (i - j) (b + j) prefd (some postfd)
          { s.store (b + i) none with core := core }
        pipeLoop b n (i + 1) (i + 1) (some postfd) postfd (s.store (b + i) (some p))
      else pipeLoop b n (i + 1) j prefd postfd s

/-- **`do_pipe_cmd(argbuf + b)`**. Nothing is stored to its `postfd` before the first pipe. -/
def doPipeCmd (b : ℕ) (s : Shell) : Except Halt Shell :=
  pipeLoop host b (ARGSZ + 1) 0 0 none (host s.core.calls).postfd s

/-- The loop of `do_list_cmd` and the last call behind it; `n` bounds the rounds. -/
def listLoop : (n i j : ℕ) → Shell → Except Halt Shell
  | 0, _, _, s => .error ⟨.crash, s.core⟩
  | n + 1, i, j, s => do
    match ← halted s.core (s.entry i) with
    | none => doPipeCmd host j s
    | some p =>
      if (← halted s.core (s.str p)) = [';'] then
        let s ← doPipeCmd host j (s.store i none)
        listLoop n (i + 1) (i + 1) (s.store i (some p))
      else listLoop n (i + 1) j s

/-- **`do_list_cmd()`**. -/
def doListCmd (s : Shell) : Except Halt Shell := listLoop host (ARGSZ + 1) 0 0 s

end LinuxHomework.Msh.Commands
