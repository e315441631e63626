import LinuxHomework.Lib.Descriptors

/-! # The commands of `2/parseline.l`

The tokens of a line lie in one array, which `do_list_cmd` and `do_pipe_cmd` cut in place: they put
`NULL` in the place of a separator, and whom they call sees the entries up to the next `NULL`. Every
`free` of an entry goes with the assignment of `NULL` to it, so an entry that is not `NULL` stands
for the string that it owns. Strings are lists of characters, each of which stands for one byte; the
byte 0 that ends them is left out.

An access outside the array, a null pointer where a string is expected, and a copy into a block that
is too small have no meaning in C; the shell stops there (`Stop`). `pipe` succeeds. A child that is
forked works on a copy of everything; what becomes of it is kept in the log, which is also known
when the shell stops (`Halt`). The log goes on behind each `waitpid` as if it came back; what the
shell comes to do when one does not is said in `Shell.Calls` and `Shell.Deadlock`.

* `scanRedirect`, `doSimpleCmd`, `doPipeCmd`, `doListCmd`: the source. -/

namespace LinuxHomework.Shell.Commands

open LinuxHomework.Lib.Descriptors

/-- A string; a character stands for one byte. -/
abbrev Text := List Char

/-- The number of entries of `tokens`. -/
def TOKENSZ : ℕ := 200

/-- Why the shell, or a child, does not go on: it called `do_exit`, it exits because a file cannot
be opened or `fork` failed, or what it does has no meaning. -/
inductive Stop
  | exited
  | failed
  | crash
  | overflow
deriving DecidableEq

inductive Mode
  | r
  | w
deriving DecidableEq

/-- What is open: an end of a pipe, a file opened by its name, or something else. -/
inductive Kind
  | given
  | readEnd (pipe : ℕ)
  | writeEnd (pipe : ℕ)
  | named (name : Text) (mode : Mode)
deriving DecidableEq

/-- The machine: `sizeof(char *)`, which files can be opened, and which calls of `fork` succeed.
Files come and go as the commands run: `fopen` may give each of them another answer. -/
structure Env where
  ptrSize : ℕ
  opens : ℕ → Text → Mode → Bool
  forks : ℕ → Bool

/-- The machine while a simple command runs. -/
structure Moment where
  ptrSize : ℕ
  opens : Text → Mode → Bool

/-- The machine as command `k` finds it. -/
def Env.moment (env : Env) (k : ℕ) : Moment := ⟨env.ptrSize, env.opens k⟩

@[simp] theorem Env.ptrSize_moment (env : Env) (k : ℕ) : (env.moment k).ptrSize = env.ptrSize := rfl

/-- A call of `do_simple_cmd`: its slice, and whether there is a `prefd` and a `postfd`. -/
structure Call where
  cmd : List Text
  pre : Bool
  post : Bool
  bg : Bool
deriving DecidableEq

/-- A child at its `execvp`. -/
structure Exec where
  argv : List Text
  files : Table Kind

/-- What the shell does. -/
inductive Event
  | call (c : Call)
  | pipe (num : ℕ)
  | fork (pid : ℕ) (child : Except Stop Exec)
  | waitpid (pid : ℕ) (nohang : Bool)

/-- The shell without its strings. -/
structure Core where
  files : Table Kind
  forked : ℕ
  log : List Event

/-- How often `do_simple_cmd` was called. -/
def called (log : List Event) : ℕ :=
  log.countP fun e =>
    match e with
    | .call _ => true
    | _ => false

@[simp] theorem called_append (log es : List Event) : called (log ++ es) = called log + called es :=
  List.countP_append

@[simp] theorem called_nil : called [] = 0 := rfl

@[simp] theorem called_call (c : Call) (es : List Event) : called (.call c :: es) = called es + 1 :=
  List.countP_cons_of_pos rfl

@[simp] theorem called_pipe (num : ℕ) (es : List Event) : called (.pipe num :: es) = called es :=
  List.countP_cons_of_neg (by simp)

@[simp] theorem called_fork (pid : ℕ) (child : Except Stop Exec) (es : List Event) :
    called (.fork pid child :: es) = called es := List.countP_cons_of_neg (by simp)

@[simp] theorem called_waitpid (pid : ℕ) (nohang : Bool) (es : List Event) :
    called (.waitpid pid nohang :: es) = called es := List.countP_cons_of_neg (by simp)

/-- **The shell.** `none` is `NULL` in `tokens` and the byte 0 in `buf`. -/
structure Mysh where
  tokens : ℕ → Option Text
  tokCnt : ℕ
  buf : ℕ → Option Char
  core : Core

/-- The shell stops: why, and what it has done until then. -/
structure Halt where
  why : Stop
  log : List Event

/-- What stops the shell, with what it has done until then. -/
def logged {α : Type} (log : List Event) (r : Except Stop α) : Except Halt α :=
  match r with
  | .ok v => .ok v
  | .error e => .error ⟨e, log⟩

@[simp] theorem logged_ok {α : Type} (log : List Event) (v : α) : logged log (.ok v) = .ok v := rfl

theorem logged_eq_ok {α : Type} {log : List Event} {r : Except Stop α} {v : α} :
    logged log r = .ok v ↔ r = .ok v := by
  cases r with
  | ok w => simp
  | error e => simp [logged]

/-- A pair of descriptors from `pipe`: the read end and the write end. -/
abbrev Pipefd := ℕ × ℕ

variable (now : Moment)

/-- Entry `i` of `tokens`. -/
def entry (tokens : ℕ → Option Text) (i : ℕ) : Except Stop (Option Text) :=
  if i < TOKENSZ then .ok (tokens i) else .error .crash

/-- `free(tokens[i]); tokens[i] = 0`. -/
def clear (tokens : ℕ → Option Text) (i : ℕ) : ℕ → Option Text := Function.update tokens i none

/-- The entries from `i` on up to `NULL`. -/
def slice (tokens : ℕ → Option Text) : (n i : ℕ) → List Text
  | 0, _ => []
  | n + 1, i =>
    match tokens i with
    | none => []
    | some t => t :: slice tokens n (i + 1)

def Core.add (c : Core) (e : Event) : Core := { c with log := c.log ++ [e] }

@[simp] theorem Core.files_add (c : Core) (e : Event) : (c.add e).files = c.files := rfl

@[simp] theorem Core.forked_add (c : Core) (e : Event) : (c.add e).forked = c.forked := rfl

@[simp] theorem Core.log_add (c : Core) (e : Event) : (c.add e).log = c.log ++ [e] := rfl

/-! ### Redirection -/

/-- `close(fd)`, then `fopen` of an operand of `<` or `>`; the shell exits if it fails. -/
def reopen (fd : ℕ) (mode : Mode) (operand : Option Text) (T : Table Kind) :
    Except Stop (Table Kind) :=
  match operand with
  | none => .error .crash
  | some name =>
    if now.opens name mode then .ok ((T.close fd).create (.named name mode)) else .error .failed

/-- `strcpy` of a word into a block of `sizeof(char *) + 1` bytes. -/
def copyWord (t : Text) : Except Stop Text :=
  if t.length ≤ now.ptrSize then .ok t else .error .overflow

/-- The loop of `scan_redirect`; `n` bounds the rounds. -/
def scanLoop : (n i : ℕ) → List Text → (ℕ → Option Text) → Table Kind →
    Except Stop (List Text × (ℕ → Option Text) × Table Kind)
  | 0, _, _, _, _ => .error .crash
  | n + 1, i, newcmd, tokens, T => do
    match ← entry tokens i with
    | none => return (newcmd, tokens, T)
    | some t =>
      if t = ['<'] then
        let T ← reopen now 0 .r (← entry tokens (i + 1)) T
        scanLoop n (i + 2) newcmd (clear (clear tokens i) (i + 1)) T
      else if t = ['>'] then
        let T ← reopen now 1 .w (← entry tokens (i + 1)) T
        scanLoop n (i + 2) newcmd (clear (clear tokens i) (i + 1)) T
      else
        let t ← copyWord now t
        scanLoop n (i + 1) (newcmd ++ [t]) (clear tokens i) T

/-- `scan_redirect(tokens + b)`; `newcmd` ends in `NULL`, for `calloc` clears it. -/
def scanRedirect (b : ℕ) (tokens : ℕ → Option Text) (T : Table Kind) :
    Except Stop (List Text × (ℕ → Option Text) × Table Kind) :=
  scanLoop now (TOKENSZ + 1) b [] tokens T

/-! ### Built-in commands -/

/-- `do_exit`. -/
def doExit (_argv : List Text) : Except Stop Unit := .error .exited

/-- `do_cd` and `do_export` do nothing; `do_echo` only prints. -/
def doCd (_argv : List Text) : Except Stop Unit := .ok ()

@[inherit_doc doCd]
def doExport (_argv : List Text) : Except Stop Unit := .ok ()

@[inherit_doc doCd]
def doEcho (_argv : List Text) : Except Stop Unit := .ok ()

def buildinCmdTable : List (Text × (List Text → Except Stop Unit)) :=
  [(['e', 'x', 'i', 't'], doExit), (['c', 'd'], doCd), (['e', 'c', 'h', 'o'], doEcho),
    (['e', 'x', 'p', 'o', 'r', 't'], doExport)]

/-- `get_cmd_handle`. -/
def getCmdHandle (cmd : Text) : Option (List Text → Except Stop Unit) :=
  (buildinCmdTable.find? fun e => e.1 = cmd).map Prod.snd

/-! ### Simple commands -/

/-- `dup2(prefd[0], STDIN_FILENO); close(prefd[0])`. -/
def joinPre (prefd : Option Pipefd) (T : Table Kind) : Table Kind :=
  match prefd with
  | some fd => (T.dup2 fd.1 0).close fd.1
  | none => T

/-- `dup2(postfd[1], STDOUT_FILENO); close(postfd[1])`. -/
def joinPost (postfd : Option Pipefd) (T : Table Kind) : Table Kind :=
  match postfd with
  | some fd => (T.dup2 fd.2 1).close fd.2
  | none => T

/-- `close` of an end of a pipe, if there is the pipe. -/
def closeEnd (fd : Option ℕ) (T : Table Kind) : Table Kind :=
  match fd with
  | some fd => T.close fd
  | none => T

/-- `close(postfd[1]); close(prefd[0])` in the parent. -/
def closeParent (prefd postfd : Option Pipefd) (T : Table Kind) : Table Kind :=
  closeEnd (prefd.map Prod.fst) (closeEnd (postfd.map Prod.snd) T)

/-- The child of `do_simple_cmd` up to its `execvp`. -/
def child (b : ℕ) (prefd postfd : Option Pipefd) (tokens : ℕ → Option Text) (T : Table Kind) :
    Except Stop Exec := do
  let T := joinPost postfd (closeEnd (postfd.map Prod.fst) (joinPre prefd T))
  let (argv, _, T) ← scanRedirect now b tokens T
  match argv with
  | [] => .error .crash
  | argv => return ⟨argv, T⟩

variable (env : Env)

/-- **`do_simple_cmd(tokens + b, prefd, postfd, bg)`**. -/
def doSimpleCmd (b : ℕ) (prefd postfd : Option Pipefd) (bg : Bool) (s : Mysh) :
    Except Halt Mysh := do
  let core := s.core.add
    (.call ⟨slice s.tokens (TOKENSZ - b) b, prefd.isSome, postfd.isSome, bg⟩)
  match ← logged core.log (entry s.tokens b) with
  | none => .error ⟨.crash, core.log⟩
  | some cmd =>
    match getCmdHandle cmd with
    | some hd =>
      let T := joinPost postfd (joinPre prefd core.files)
      let (argv, tokens, T) ← logged core.log
        (scanRedirect (env.moment (called s.core.log)) b s.tokens T)
      let _ ← logged core.log (hd argv)
      return { s with tokens := tokens, core := { core with files := T } }
    | none =>
      if env.forks core.forked then
        let core := core.add (.fork core.forked (child (env.moment (called s.core.log)) b prefd postfd
          s.tokens core.files))
        let core := core.add (.waitpid core.forked bg)
        return { s with core := { core with
          files := closeParent prefd postfd core.files, forked := core.forked + 1 } }
      else .error ⟨.failed, core.log⟩

/-! ### Pipelines and lists -/

/-- `pipe(postfd)`. -/
def Core.pipe (c : Core) : Pipefd × Core :=
  let T := c.files.create (.readEnd c.files.made)
  ((c.files.free, T.free),
    { c.add (.pipe c.files.made) with files := T.create (.writeEnd c.files.made) })

@[simp] theorem Core.called_pipe (c : Core) : called c.pipe.2.log = called c.log := by
  simp [Core.pipe]

/-- The loop of `do_pipe_cmd` and the last call behind it; `n` bounds the rounds. There is no
`prefd` as long as `is_first_cmd` is set. -/
def pipeLoop (b : ℕ) (bg : Bool) : (n i j : ℕ) → Option Pipefd → Mysh → Except Halt Mysh
  | 0, _, _, _, s => .error ⟨.crash, s.core.log⟩
  | n + 1, i, j, prefd, s => do
    match ← logged s.core.log (entry s.tokens (b + i)) with
    | none => doSimpleCmd env (b + j) prefd none bg s
    | some t =>
      if t = ['|'] then
        let (postfd, core) := s.core.pipe
        let s ← doSimpleCmd env (b + j) prefd (some postfd) bg
          { s with tokens := clear s.tokens (b + i), core := core }
        pipeLoop b bg n (i + 1) (i + 1) (some postfd) s
      else pipeLoop b bg n (i + 1) j prefd s

/-- **`do_pipe_cmd(tokens + b, bg)`**. -/
def doPipeCmd (b : ℕ) (bg : Bool) (s : Mysh) : Except Halt Mysh :=
  pipeLoop env b bg (TOKENSZ + 1) 0 0 none s

/-- The loop of `do_list_cmd`; `n` bounds the rounds. -/
def listLoop : (n i j : ℕ) → Mysh → Except Halt Mysh
  | 0, _, _, s => .error ⟨.crash, s.core.log⟩
  | n + 1, i, j, s => do
    match ← logged s.core.log (entry s.tokens i) with
    | none => return { s with tokCnt := 0 }
    | some t =>
      if t = [';'] ∨ t = ['\n'] then
        let s := { s with tokens := clear s.tokens i }
        let s ← if j ≠ i then doPipeCmd env j false s else .ok s
        listLoop n (i + 1) (i + 1) s
      else if t = ['&'] then
        let s := { s with tokens := clear s.tokens i }
        let s ← if j ≠ i then doPipeCmd env j true s else .ok s
        listLoop n (i + 1) (i + 1) s
      else listLoop n (i + 1) j s

/-- **`do_list_cmd()`**. -/
def doListCmd (s : Mysh) : Except Halt Mysh := listLoop env (TOKENSZ + 1) 0 0 s

end LinuxHomework.Shell.Commands
