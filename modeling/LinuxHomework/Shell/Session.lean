import LinuxHomework.Shell.Leaks
import LinuxHomework.Shell.Main

/-! # Sessions of `mysh`

The whole of the shell: `line_buf` with the lines that are typed, the scanner, the static buffer of
`expand`, and the tokens as strings in the heap. What a session comes to is told without any of
these: lines are joined, their lexemes are expanded, and the reference parse of the tokens runs.

* `runText`, `runTyped`: the reference.
* `addWord`, `gather`, `yylex`, `mainLoop`: the source, on the heap.
* `yylex_alike`: a text that is handed to the lexer.
* `session_alike`: the main loop of `2/mysh.c`, whatever lines are typed. -/

namespace LinuxHomework.Shell.Session

open LinuxHomework.Lib.Buffer LinuxHomework.Lib.Outcome LinuxHomework.Shell.Commands
open LinuxHomework.Shell.Parse LinuxHomework.Shell.Ownership LinuxHomework.Shell.Leaks
open LinuxHomework.Shell.Lexer (Values Lexeme Fits lexemes image expand expand_cases gather_eq
  gather_overflow)
open LinuxHomework.Shell.Main (Reader BUFSIZE Stored takeLine cleanUp)

variable (v : Values) (env : Env)

instance (ls : List Lexeme) : Decidable (Fits v ls) :=
  decidable_of_iff (ls.length < TOKENSZ ∧ ∀ l ∈ ls, (image v l).length < TOKENSZ)
    ⟨fun h => ⟨h.1, h.2⟩, fun h => ⟨h.room, h.short⟩⟩

/-! ### The reference -/

/-- **What a text does**: its tokens run as the reference parse tells, if they fit. -/
def runText (text : Text) (c : Core) : Except Halt Core :=
  if Fits v (lexemes [] text) then runLine env (parse ((lexemes [] text).map (image v))) c
  else .error ⟨.overflow, c.log⟩

/-- **What lines do** that are typed behind the text `pending`. A line that ends in a backslash is
continued; an empty line stops the shell, and so does a text that is too long. -/
def runTyped : Text → List Text → Core → Except Halt Core
  | _, [], c => .ok c
  | pending, line :: lines, c =>
    if line = [] then .error ⟨.crash, c.log⟩
    else if line.getLast? = some '\\' then
      if (pending ++ line.dropLast).length < BUFSIZE then
        runTyped (pending ++ line.dropLast) lines c
      else .error ⟨.overflow, c.log⟩
    else if (pending ++ line).length + 1 < BUFSIZE then
      runText v env (pending ++ line ++ ['\n']) c >>= runTyped [] lines
    else .error ⟨.overflow, c.log⟩

/-! ### The source -/

/-- **The shell**: the static buffer of `expand`, and the rest. -/
structure State where
  buf : ℕ → Option Char
  machine : Machine

/-- `add_token`. -/
def State.addToken (token : Text) (s : State) : Except Stop State := do
  let m ← Ownership.addToken token s.machine
  return { s with machine := m }

/-- `add_token(expand(yytext))`. -/
def addWord (yytext : Text) (s : State) : Except Stop State := do
  let buf ← expand v yytext s.buf
  match cString TOKENSZ buf with
  | none => .error .crash
  | some token => State.addToken token { s with buf := buf }

/-- The actions up to the newline. -/
def gather : List Lexeme → State → Except Stop State
  | [], s => .ok s
  | .op c :: ls, s => do gather ls (← s.addToken [c])
  | .word yytext :: ls, s => do gather ls (← addWord v yytext s)
  | .newline :: _, s => s.addToken ['\n']

/-- `yylex()` on a line that ends in its newline. -/
def yylex (text : Text) (s : State) : Except Halt State := do
  let s ← logged s.machine.core.log (gather v (lexemes [] text) s)
  let m ← Ownership.doListCmd env s.machine
  return { s with machine := m }

/-- The loop of `main` over the lines that `readline` returns. -/
def mainLoop : List Text → Reader → State → Except Halt (Reader × State)
  | [], m, s => .ok (m, s)
  | line :: lines, m, s => do
    match ← logged s.machine.core.log (takeLine line m) with
    | (none, m) => mainLoop lines m s
    | (some text, m) => do
      let s ← yylex v env text s
      mainLoop lines (cleanUp m) s

variable {v env} {s : State} {t : Text} {c : Mysh} {m : Reader} {pending line : Text} {lines : List Text}

/-! ### A line -/

/-- The two shells, while a line is read. -/
structure Same (s : State) (c : Mysh) : Prop where
  sim : Sim s.machine c
  buf : c.buf = s.buf

/-- A new token is the same string in both. -/
theorem addToken_alike (h : Same s c) (t : Text) :
    Alike Same (s.addToken t) (Lexer.addToken t c) := by
  obtain ⟨⟨hown, htokens, hcnt, hcore⟩, hbuf⟩ := h
  unfold State.addToken
  by_cases hroom : s.machine.tokCnt + 1 < TOKENSZ
  · obtain ⟨m', hadd, hadded⟩ := addToken_added hroom t
    have htexts : m'.texts = Function.update (Function.update c.tokens s.machine.tokCnt (some t))
        (s.machine.tokCnt + 1) none := by
      funext x
      show (m'.tokens x).bind (text m'.heap) = _
      by_cases hx : x = s.machine.tokCnt + 1
      · rw [hx, hadded.null, Function.update_self]
        rfl
      rw [Function.update_of_ne hx]
      by_cases hx' : x = s.machine.tokCnt
      · rw [hx', hadded.new, Function.update_self, Option.bind_some, hadded.text]
      · rw [Function.update_of_ne hx', hadded.old x hx' hx, htokens]
        unfold Mem.texts
        cases hp : s.machine.mem.tokens x with
        | none => rfl
        | some p => exact text_congr (hadded.block p (Nat.ne_of_lt (hown.lt_made hp)))
    have htext : Lexer.addToken t c = .ok { c with
        tokens := m'.texts, tokCnt := s.machine.tokCnt + 1 } := by
      unfold Lexer.addToken
      rw [hcnt, if_pos (by omega), if_pos hroom, htexts]
    rw [hadd, htext]
    exact ⟨⟨hadded.own hown, rfl, rfl, hcore⟩, hbuf⟩
  · unfold Ownership.addToken Lexer.addToken
    rw [hcnt, if_neg hroom, if_neg hroom]
    by_cases hle : s.machine.tokCnt ≤ TOKENSZ
    · rw [if_pos hle, if_pos hle]
      rfl
    · rw [if_neg hle, if_neg hle]
      rfl

theorem addWord_alike (h : Same s c) (yytext : Text) :
    Alike Same (addWord v yytext s) (Lexer.addWord v yytext c) := by
  unfold addWord Lexer.addWord
  rw [h.buf]
  rcases expand_cases v yytext s.buf with ⟨buf, hrun, hstr, -⟩ | ⟨hrun, -⟩
  · simp only [hrun, ok_bind, hstr]
    have hsame : Same { s with buf := buf } { c with buf := buf } :=
      ⟨⟨h.sim.own, h.sim.tokens, h.sim.tokCnt, h.sim.core⟩, rfl⟩
    exact addToken_alike hsame _
  · rw [hrun]
    rfl

theorem gather_alike (ls : List Lexeme) (h : Same s c) :
    Alike Same (gather v ls s) (Lexer.gather v ls c) := by
  induction ls generalizing s c with
  | nil => exact h
  | cons l ls ih =>
    cases l with
    | op ch => exact (addToken_alike h [ch]).bind fun _ _ h => ih h
    | word yytext => exact (addWord_alike h yytext).bind fun _ _ h => ih h
    | newline => exact addToken_alike h ['\n']

/-- **The shell at a prompt**, which has come to `c`. -/
structure Prompt (s : State) (c : Core) : Prop where
  ready : Ready s.machine
  core : s.machine.core = c

/-- **One text.** -/
theorem yylex_alike (hline : '\n' ∉ line) {c : Core} (h : Prompt s c) :
    Alike Prompt (yylex v env (line ++ ['\n']) s) (runText v env (line ++ ['\n']) c) := by
  obtain ⟨⟨hown, hcnt⟩, rfl⟩ := h
  have hsame : Same s { mysh s.machine with buf := s.buf } := ⟨⟨hown, rfl, rfl, rfl⟩, rfl⟩
  have hread := gather_alike (v := v) (lexemes [] (line ++ ['\n'])) hsame
  unfold yylex runText
  by_cases hfits : Fits v (lexemes [] (line ++ ['\n']))
  · obtain ⟨t, hgather, hholds, hcore⟩ :=
      gather_eq (s := { mysh s.machine with buf := s.buf }) hline hcnt hfits
    rw [hgather] at hread
    obtain ⟨s', hs', hsim, -⟩ := hread.of_ok
    have hlist := doListCmd_alike env hsim
    obtain ⟨τ, heq⟩ := doListCmd_eq env hholds
    have hcore : t.core = s.machine.core := hcore
    rw [heq, hcore] at hlist
    rw [if_pos hfits, hs', logged_ok, ok_bind]
    cases hrun : runLine env (parse ((lexemes [] (line ++ ['\n'])).map (image v))) s.machine.core with
    | error e =>
      rw [hrun] at hlist
      rw [hlist.of_error]
      rfl
    | ok c =>
      rw [hrun] at hlist
      obtain ⟨m', hm', hsim', -⟩ := hlist.of_ok
      rw [hm']
      exact ⟨⟨hsim'.own, hsim'.tokCnt.symm⟩, hsim'.core.symm⟩
  · rw [gather_overflow (s := { mysh s.machine with buf := s.buf }) hline hcnt hfits] at hread
    rw [if_neg hfits, hread.of_error]
    rfl

/-! ### A session -/

variable (v env) in
/-- **A session of the shell**: what it does with the lines that are typed, up to where it stops.
The static buffer, the array and the heap may hold anything the lines before have left in them. -/
theorem session_alike (hlines : ∀ line ∈ lines, '\n' ∉ line) (hm : Stored m pending)
    (hpending : '\n' ∉ pending) {c : Core} (h : Prompt s c) :
    Alike (fun r c => Prompt r.2 c) (mainLoop v env lines m s) (runTyped v env pending lines c) := by
  induction lines generalizing m s c pending with
  | nil => exact h
  | cons line lines ih =>
    obtain ⟨hline, hlines⟩ := List.forall_mem_cons.mp hlines
    unfold mainLoop runTyped
    by_cases hne : line = []
    · rw [if_pos hne, hne, Main.takeLine_nil, h.core]
      rfl
    rw [if_neg hne]
    by_cases hlast : line.getLast? = some '\\'
    · rw [if_pos hlast]
      rcases Main.takeLine_continued hm hlast with ⟨m', htake, hstored⟩ | ⟨htake, hfull⟩
      · have hpending' : '\n' ∉ pending ++ line.dropLast := by
          rw [List.mem_append, not_or]
          exact ⟨hpending, fun hmem => hline (List.mem_of_mem_dropLast hmem)⟩
        rw [if_pos hstored.short, htake, logged_ok, ok_bind]
        exact ih hlines hstored hpending' h
      · rw [if_neg (not_lt.mpr hfull), htake, h.core]
        rfl
    · rw [if_neg hlast]
      rcases Main.takeLine_last hm hne hlast with ⟨m', htake, -, hfit⟩ | ⟨htake, hfull⟩
      · have htext : '\n' ∉ pending ++ line := by
          rw [List.mem_append, not_or]
          exact ⟨hpending, hline⟩
        rw [if_pos hfit, htake, logged_ok, ok_bind]
        exact (yylex_alike htext h).bind fun _ _ h =>
          ih hlines (Main.stored_cleanUp m') List.not_mem_nil h
      · rw [if_neg (not_lt.mpr hfull), htake, h.core]
        rfl

/-- `mysh` has no arguments. -/
def noParams : Values := ⟨fun _ => [], 42, 1, 0⟩

/-- `ec\` and `ho hi`, and `ls|wc`. -/
def typed : List Text :=
  [['e', 'c', '\\'], ['h', 'o', ' ', 'h', 'i'], ['l', 's', '|', 'w', 'c']]

/-- The shell at its start. -/
def begin (core : Core) : State := ⟨fun _ => none, start core⟩

theorem prompt_begin (core : Core) : Prompt (begin core) core := ⟨ready_start core, rfl⟩

theorem typed_closed : ∀ line ∈ typed, '\n' ∉ line := by decide

/-- `echo` is a command of the shell, and two programs are started. -/
theorem runTyped_typed : ∃ c, runTyped noParams i686 [] typed ⟨terminal, 0, []⟩ = .ok c ∧
    c.forked = 2 := by
  have hforked : (runTyped noParams i686 [] typed ⟨terminal, 0, []⟩).toOption.map Core.forked =
      some 2 := by decide +kernel
  obtain ⟨c, hc, hcount⟩ := Option.map_eq_some_iff.mp hforked
  exact ⟨c, toOption_eq_some.mp hc, hcount⟩

-- Otherwise the session is run to find out what `Alike` says of it.
attribute [local irreducible] Alike

theorem session_alike_typed : ∃ r, mainLoop noParams i686 typed (Main.init fun _ => none)
    (begin ⟨terminal, 0, []⟩) = .ok r ∧ Ready r.2.machine ∧ r.2.machine.core.forked = 2 := by
  obtain ⟨c, hc, hcount⟩ := runTyped_typed
  have h := session_alike noParams i686 typed_closed (Main.stored_init fun _ => none)
    List.not_mem_nil (prompt_begin ⟨terminal, 0, []⟩)
  rw [hc] at h
  obtain ⟨r, hr, hprompt⟩ := h.of_ok
  exact ⟨r, hr, hprompt.ready, (congrArg Core.forked hprompt.core).trans hcount⟩

end LinuxHomework.Shell.Session
