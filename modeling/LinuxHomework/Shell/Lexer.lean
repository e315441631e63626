import LinuxHomework.Lib.Buffer
import LinuxHomework.Lib.Outcome
import LinuxHomework.Shell.Commands
import LinuxHomework.Shell.Parse

/-! # The lexer of `2/parseline.l`

The rules of the lexer do not depend on their actions, so a line is first cut into lexemes. The
actions then put the tokens into the array: an operator as it is, a word after its expansion in the
static buffer `buf`, whose old contents are arbitrary.

* `lexemes`, `expand`, `addToken`, `yylex`: the source.
* `expand_eq`: a word is expanded in one pass if the result fits into the buffer.
* `gather_eq`: the array of a line is the list of its expanded lexemes, if everything fits. -/

namespace LinuxHomework.Shell.Lexer

open LinuxHomework.Lib.Buffer LinuxHomework.Lib.Outcome LinuxHomework.Shell.Commands
open LinuxHomework.Shell.Parse

/-! ### The rules -/

/-- What the lexer matches. -/
inductive Lexeme
  | op (c : Char)
  | word (yytext : Text)
  | newline
deriving DecidableEq

/-- The class `[^ \t\n|<>;&"]`. -/
def isWordChar (c : Char) : Bool := c ∉ [' ', '\t', '\n', '|', '<', '>', ';', '&', '"']

def isOpChar (c : Char) : Bool := c ∈ [';', '>', '<', '|', '&']

/-- A character that is not in a word; the rule `.` drops the others. -/
def single (c : Char) : List Lexeme :=
  if isOpChar c then [.op c] else if c = '\n' then [.newline] else []

/-- The end of a word, if one was begun. -/
def flush (yytext : Text) : List Lexeme := if yytext = [] then [] else [.word yytext]

/-- **The lexemes** of a line behind the beginning `yytext` of a word, which the lexer makes as long
as it can. -/
def lexemes (yytext : Text) : Text → List Lexeme
  | [] => flush yytext
  | c :: cs =>
    if isWordChar c then lexemes (yytext ++ [c]) cs
    else flush yytext ++ single c ++ lexemes [] cs

/-! ### Expansion -/

/-- What the expansion of a word looks up: `pos_param`, `getpid()`, `ARGC` and `EXIT_STATUS`. -/
structure Values where
  posParam : ℕ → Text
  pid : ℕ
  argc : ℕ
  exitStatus : ℕ

/-- What `%d` prints. -/
def decimal (n : ℕ) : Text := Nat.toDigits 10 n

variable (v : Values)

/-- `sprintf(buf+l, "%s", text); l = strlen(buf)`. -/
def sprintf (text : Text) (l : ℕ) (buf : ℕ → Option Char) :
    Except Stop (ℕ × (ℕ → Option Char)) :=
  if l + text.length < TOKENSZ then
    match strlen TOKENSZ (paste buf l text) with
    | some n => .ok (n, paste buf l text)
    | none => .error .crash
  else .error .overflow

/-- The loop of `expand` over the rest of the word. -/
def expandLoop : Text → (l : ℕ) → (ℕ → Option Char) → Except Stop (ℕ × (ℕ → Option Char))
  | [], l, buf => .ok (l, buf)
  | c :: token, l, buf =>
    if c = '$' then
      match token with
      | [] => .ok (l, buf)
      | d :: rest =>
        if d = '$' then do
          let (l, buf) ← sprintf (decimal v.pid) l buf
          expandLoop rest l buf
        else if d.isDigit then do
          let (l, buf) ← sprintf (v.posParam (d.toNat - 0x30)) l buf
          expandLoop rest l buf
        else if d = '#' then do
          let (l, buf) ← sprintf (decimal v.argc) l buf
          expandLoop rest l buf
        else if d = '?' then do
          let (l, buf) ← sprintf (decimal v.exitStatus) l buf
          expandLoop rest l buf
        else expandLoop (d :: rest) l buf
    else if l < TOKENSZ then expandLoop token (l + 1) (Function.update buf l (some c))
    else .error .overflow

/-- **`expand`**: what `buf` holds afterwards. -/
def expand (token : Text) (buf : ℕ → Option Char) : Except Stop (ℕ → Option Char) := do
  let (l, buf) ← expandLoop v token 0 buf
  if l < TOKENSZ then return Function.update buf l none else .error .overflow

/-! ### Actions -/

/-- **`add_token`**. Both the token and the `NULL` behind it have to lie in the array. -/
def addToken (token : Text) (s : Mysh) : Except Stop Mysh :=
  if s.tokCnt ≤ TOKENSZ then
    if s.tokCnt + 1 < TOKENSZ then
      .ok { s with
        tokens := Function.update (Function.update s.tokens s.tokCnt (some token)) (s.tokCnt + 1) none
        tokCnt := s.tokCnt + 1 }
    else .error .overflow
  else .error .failed

/-- `add_token(expand(yytext))`. -/
def addWord (yytext : Text) (s : Mysh) : Except Stop Mysh := do
  let buf ← expand v yytext s.buf
  match cString TOKENSZ buf with
  | none => .error .crash
  | some token => addToken token { s with buf := buf }

/-- The actions up to the newline. -/
def gather : List Lexeme → Mysh → Except Stop Mysh
  | [], s => .ok s
  | .op c :: ls, s => do gather ls (← addToken [c] s)
  | .word yytext :: ls, s => do gather ls (← addWord v yytext s)
  | .newline :: _, s => addToken ['\n'] s

/-- **`yylex()`** on a line that ends in its newline. -/
def yylex (env : Env) (text : Text) (s : Mysh) : Except Halt Mysh := do
  let s ← logged s.core.log (gather v (lexemes [] text) s)
  doListCmd env s

/-! ### What a word stands for -/

/-- What `$d` stands for. -/
def valueOf (d : Char) : Option Text :=
  if d = '$' then some (decimal v.pid)
  else if d.isDigit then some (v.posParam (d.toNat - 0x30))
  else if d = '#' then some (decimal v.argc)
  else if d = '?' then some (decimal v.exitStatus)
  else none

/-- **The expansion of a word**: values take the place of their `$d`, other `$` are dropped. -/
def expansion : Text → Text
  | [] => []
  | c :: token =>
    if c = '$' then
      match token with
      | [] => []
      | d :: rest =>
        match valueOf v d with
        | some text => text ++ expansion rest
        | none => expansion (d :: rest)
    else c :: expansion token

variable {v} {text token acc : Text} {buf : ℕ → Option Char} {c d : Char} {s t : Mysh}

theorem expandLoop_value (h : valueOf v d = some text) (l : ℕ) (rest : Text) :
    expandLoop v ('$' :: d :: rest) l buf =
      sprintf text l buf >>= fun r => expandLoop v rest r.1 r.2 := by
  rw [expandLoop, if_pos rfl]
  dsimp only
  unfold valueOf at h
  split_ifs at h ⊢
  all_goals
    obtain rfl := Option.some.inj h
    rfl

theorem expandLoop_dropped (h : valueOf v d = none) (l : ℕ) (rest : Text) :
    expandLoop v ('$' :: d :: rest) l buf = expandLoop v (d :: rest) l buf := by
  conv_lhs => rw [expandLoop, if_pos rfl]
  dsimp only
  unfold valueOf at h
  split_ifs at h ⊢
  rfl

theorem expansion_value (h : valueOf v d = some text) (rest : Text) :
    expansion v ('$' :: d :: rest) = text ++ expansion v rest := by
  rw [expansion, if_pos rfl]
  simp only [h]

theorem expansion_dropped (h : valueOf v d = none) (rest : Text) :
    expansion v ('$' :: d :: rest) = expansion v (d :: rest) := by
  conv_lhs => rw [expansion, if_pos rfl]
  simp only [h]

theorem expansion_char (hc : c ≠ '$') : expansion v (c :: token) = c :: expansion v token := by
  conv_lhs => unfold expansion
  rw [if_neg hc]

/-! ### The expansion in the buffer -/

theorem sprintf_fits (h : Begins buf acc) (hfit : (acc ++ text).length < TOKENSZ) :
    sprintf text acc.length buf = .ok ((acc ++ text).length, paste buf acc.length text) := by
  rw [List.length_append] at hfit ⊢
  unfold sprintf
  have hend : paste buf acc.length text (acc ++ text).length = none := by
    rw [List.length_append]
    exact paste_end
  rw [if_pos hfit, strlen_eq h.paste hend (by rw [List.length_append]; exact hfit),
    List.length_append]

theorem sprintf_full (hfull : TOKENSZ ≤ (acc ++ text).length) :
    sprintf text acc.length buf = .error .overflow := by
  rw [List.length_append] at hfull
  exact if_neg (by omega)

/-- **The loop of `expand`** puts the expansion behind what the buffer begins with, if there is
room. -/
theorem expandLoop_cases (h : Begins buf acc) (hacc : acc.length ≤ TOKENSZ) :
    (∃ buf', expandLoop v token acc.length buf = .ok ((acc ++ expansion v token).length, buf') ∧
      Begins buf' (acc ++ expansion v token) ∧ (acc ++ expansion v token).length ≤ TOKENSZ) ∨
    (expandLoop v token acc.length buf = .error .overflow ∧
      TOKENSZ ≤ (acc ++ expansion v token).length) := by
  induction token using expansion.induct v generalizing acc buf with
  | case1 =>
    simp only [expansion, List.append_nil]
    exact Or.inl ⟨buf, rfl, h, hacc⟩
  | case2 =>
    have hnil : expansion v ['$'] = [] := rfl
    rw [hnil, List.append_nil]
    exact Or.inl ⟨buf, rfl, h, hacc⟩
  | case3 d rest text hd ih =>
    rw [expandLoop_value hd, expansion_value hd, ← List.append_assoc]
    by_cases hfit : (acc ++ text).length < TOKENSZ
    · rw [sprintf_fits h hfit]
      exact ih h.paste (by omega)
    · refine Or.inr ⟨by rw [sprintf_full (by omega)]; rfl, ?_⟩
      rw [List.length_append]
      omega
  | case4 d rest hd ih =>
    rw [expandLoop_dropped hd, expansion_dropped hd]
    exact ih h hacc
  | case5 c token hc ih =>
    unfold expandLoop
    rw [expansion_char hc, if_neg hc,
      show acc ++ c :: expansion v token = acc ++ [c] ++ expansion v token by simp]
    by_cases hfit : acc.length < TOKENSZ
    · rw [if_pos hfit]
      have hlen : (acc ++ [c]).length = acc.length + 1 := by simp
      rw [← hlen]
      exact ih h.store (by omega)
    · refine Or.inr ⟨if_neg hfit, ?_⟩
      rw [List.length_append, List.length_append]
      omega

/-- **`expand`** leaves the expansion of the word in the buffer, whatever it held, if it fits. -/
theorem expand_cases (v : Values) (token : Text) (buf : ℕ → Option Char) :
    (∃ buf', expand v token buf = .ok buf' ∧ cString TOKENSZ buf' = some (expansion v token) ∧
      (expansion v token).length < TOKENSZ) ∨
    (expand v token buf = .error .overflow ∧ TOKENSZ ≤ (expansion v token).length) := by
  unfold expand
  rcases @expandLoop_cases v token [] buf begins_nil (Nat.zero_le _) with
    ⟨buf', hrun, hbegins, hle⟩ | ⟨hrun, hfull⟩
  · rw [List.nil_append] at hrun hbegins hle
    rw [List.length_nil] at hrun
    simp only [hrun, ok_bind]
    by_cases hfit : (expansion v token).length < TOKENSZ
    · rw [if_pos hfit]
      refine Or.inl ⟨_, rfl, ?_, hfit⟩
      exact cString_eq hbegins.stop (Function.update_self ..) hfit
    · exact Or.inr ⟨if_neg hfit, by omega⟩
  · rw [List.length_nil] at hrun
    rw [hrun]
    exact Or.inr ⟨rfl, hfull⟩

/-! ### The tokens of a line -/

/-- The token that is added for a lexeme. -/
def image (v : Values) : Lexeme → Text
  | .op c => [c]
  | .word yytext => expansion v yytext
  | .newline => ['\n']

/-- **The lexemes fit**: there is room for their tokens and the `NULL` behind them, and in `buf` for
each token and the byte that ends it. -/
structure Fits (v : Values) (ls : List Lexeme) : Prop where
  room : ls.length < TOKENSZ
  short : ∀ l ∈ ls, (image v l).length < TOKENSZ

/-- The array begins with the given tokens. -/
structure Collected (s : Mysh) (ts : List Text) : Prop where
  cnt : s.tokCnt = ts.length
  begins : Begins s.tokens ts

variable {ts : List Text} {l : Lexeme} {ls : List Lexeme} {tokens : ℕ → Option Text} {b : ℕ}

/-- Tokens with `NULL` behind them. -/
theorem holds_of_begins (h : Begins tokens ts) (hlt : ts.length < TOKENSZ)
    (hend : tokens ts.length = none) : Holds tokens 0 ts := by
  have hfrom : ∀ b ≤ ts.length, Holds tokens b (ts.drop b) := by
    intro b hb
    induction hn : ts.length - b generalizing b with
    | zero =>
      obtain rfl : b = ts.length := by omega
      rw [List.drop_length]
      exact ⟨hlt, hend⟩
    | succ n ih =>
      have hb' : b < ts.length := by omega
      rw [List.drop_eq_getElem_cons hb']
      exact ⟨(h b hb').trans (List.getElem?_eq_getElem hb'), ih (b + 1) (by omega) (by omega)⟩
  exact hfrom 0 (Nat.zero_le _)

/-- The action of a rule. -/
def action (v : Values) : Lexeme → Mysh → Except Stop Mysh
  | .op c, s => addToken [c] s
  | .word yytext, s => addWord v yytext s
  | .newline, s => addToken ['\n'] s

theorem gather_cons (hl : l ≠ .newline) :
    gather v (l :: ls) s = action v l s >>= fun t => gather v ls t := by
  cases l with
  | op c => rfl
  | word yytext => rfl
  | newline => exact absurd rfl hl

theorem addToken_fits (token : Text) (h : Collected s ts) (hroom : ts.length + 1 < TOKENSZ) :
    ∃ t, addToken token s = .ok t ∧ Collected t (ts ++ [token]) ∧ t.core = s.core ∧
      t.tokens (ts.length + 1) = none := by
  unfold addToken
  rw [h.cnt, if_pos (by omega), if_pos hroom]
  refine ⟨_, rfl, ⟨by simp, ?_⟩, rfl, Function.update_self ..⟩
  have hlen : ts.length + 1 = (ts ++ [token]).length := by simp
  dsimp only
  rw [hlen]
  exact h.begins.store.stop

theorem addToken_full (h : Collected s ts) (hts : ts.length < TOKENSZ)
    (hfull : TOKENSZ ≤ ts.length + 1) : addToken token s = .error .overflow := by
  unfold addToken
  rw [h.cnt, if_pos (by omega), if_neg (by omega)]

theorem addWord_fits (h : Collected s ts) (hroom : ts.length + 1 < TOKENSZ)
    (hshort : (expansion v token).length < TOKENSZ) :
    ∃ t, addWord v token s = .ok t ∧ Collected t (ts ++ [expansion v token]) ∧ t.core = s.core := by
  rcases expand_cases v token s.buf with ⟨buf', hrun, hstr, -⟩ | ⟨-, hfull⟩
  · unfold addWord
    simp only [hrun, ok_bind, hstr]
    obtain ⟨t, ht, hcol, hcore, -⟩ :=
      addToken_fits _ (s := { s with buf := buf' }) ⟨h.cnt, h.begins⟩ hroom
    exact ⟨t, ht, hcol, hcore⟩
  · omega

theorem addWord_full (h : Collected s ts) (hts : ts.length < TOKENSZ)
    (hfull : TOKENSZ ≤ ts.length + 1 ∨ TOKENSZ ≤ (expansion v token).length) :
    addWord v token s = .error .overflow := by
  unfold addWord
  rcases expand_cases v token s.buf with ⟨buf', hrun, hstr, hshort⟩ | ⟨hrun, -⟩
  · simp only [hrun, ok_bind, hstr]
    exact addToken_full (s := { s with buf := buf' }) ⟨h.cnt, h.begins⟩ hts (by omega)
  · rw [hrun]
    rfl

/-- **One action**: it adds the token of the lexeme, or there is no room for it. -/
theorem action_cases (l : Lexeme) (h : Collected s ts) (hts : ts.length < TOKENSZ) :
    (∃ t, action v l s = .ok t ∧ Collected t (ts ++ [image v l]) ∧ t.core = s.core ∧
      ts.length + 1 < TOKENSZ ∧ (image v l).length < TOKENSZ) ∨
    (action v l s = .error .overflow ∧
      (TOKENSZ ≤ ts.length + 1 ∨ TOKENSZ ≤ (image v l).length)) := by
  have hone : 1 < TOKENSZ := by decide
  by_cases hroom : ts.length + 1 < TOKENSZ
  · cases l with
    | op c =>
      obtain ⟨t, ht, hcol, hcore, -⟩ := addToken_fits [c] h hroom
      exact Or.inl ⟨t, ht, hcol, hcore, hroom, hone⟩
    | word yytext =>
      by_cases hshort : (expansion v yytext).length < TOKENSZ
      · obtain ⟨t, ht, hcol, hcore⟩ := addWord_fits h hroom hshort
        exact Or.inl ⟨t, ht, hcol, hcore, hroom, hshort⟩
      · have hfull : TOKENSZ ≤ (expansion v yytext).length := by omega
        exact Or.inr ⟨addWord_full h hts (Or.inr hfull), Or.inr hfull⟩
    | newline =>
      obtain ⟨t, ht, hcol, hcore, -⟩ := addToken_fits ['\n'] h hroom
      exact Or.inl ⟨t, ht, hcol, hcore, hroom, hone⟩
  · have hfull : TOKENSZ ≤ ts.length + 1 := by omega
    refine Or.inr ⟨?_, Or.inl hfull⟩
    cases l with
    | op c => exact addToken_full h hts hfull
    | word yytext => exact addWord_full h hts (Or.inl hfull)
    | newline => exact addToken_full h hts hfull

/-- **The actions up to the newline** put the tokens of the lexemes into the array, or there is no
room for one of them. -/
theorem gather_cases (h : Collected s ts) (hts : ts.length < TOKENSZ) (hls : Lexeme.newline ∉ ls) :
    (∃ t, gather v (ls ++ [Lexeme.newline]) s = .ok t ∧
      Holds t.tokens 0 (ts ++ (ls ++ [Lexeme.newline]).map (image v)) ∧ t.core = s.core ∧
      ts.length + (ls ++ [Lexeme.newline]).length < TOKENSZ ∧
      ∀ l ∈ ls ++ [Lexeme.newline], (image v l).length < TOKENSZ) ∨
    (gather v (ls ++ [Lexeme.newline]) s = .error .overflow ∧
      (TOKENSZ ≤ ts.length + (ls ++ [Lexeme.newline]).length ∨
        ∃ l ∈ ls ++ [Lexeme.newline], TOKENSZ ≤ (image v l).length)) := by
  induction ls generalizing s ts with
  | nil =>
    show (∃ t, addToken ['\n'] s = .ok t ∧ _) ∨ (addToken ['\n'] s = _ ∧ _)
    by_cases hroom : ts.length + 1 < TOKENSZ
    · obtain ⟨t, ht, hcol, hcore, hend⟩ := addToken_fits ['\n'] h hroom
      refine Or.inl ⟨t, ht, holds_of_begins hcol.begins ?_ ?_, hcore, hroom, ?_⟩
      · simpa using hroom
      · simpa [image] using hend
      · simp [image, TOKENSZ]
    · exact Or.inr ⟨addToken_full h hts (by omega), Or.inl (by simpa using hroom)⟩
  | cons l ls ih =>
    have hl : l ≠ .newline := fun hl => hls (by simp [hl])
    rw [List.cons_append, gather_cons hl]
    rcases action_cases (v := v) l h hts with ⟨t, ht, hcol, hcore, hroom, hshort⟩ | ⟨ht, hfull⟩
    · rw [ht]
      simp only [ok_bind]
      have hlen : (ts ++ [image v l]).length = ts.length + 1 := by simp
      rcases ih hcol (by omega) (fun hmem => hls (by simp [hmem])) with
        ⟨t', ht', hholds, hcore', hroom', hshort'⟩ | ⟨ht', hfull'⟩
      · refine Or.inl ⟨t', ht', ?_, hcore'.trans hcore, ?_, ?_⟩
        · simpa using hholds
        · rw [List.length_cons]
          omega
        · exact List.forall_mem_cons.mpr ⟨hshort, hshort'⟩
      · refine Or.inr ⟨ht', hfull'.imp (fun hfull => ?_) fun ⟨l', hl', hfull⟩ => ?_⟩
        · rw [List.length_cons]
          omega
        · exact ⟨l', List.mem_cons_of_mem _ hl', hfull⟩
    · rw [ht]
      refine Or.inr ⟨rfl, hfull.imp (fun hfull => ?_) fun hfull => ⟨l, List.mem_cons_self, hfull⟩⟩
      rw [List.length_cons, List.length_append, List.length_singleton]
      omega

/-! ### Lines -/

theorem lexemes_newline (yytext line : Text) :
    lexemes yytext (line ++ ['\n']) = lexemes yytext line ++ [.newline] := by
  induction line generalizing yytext with
  | nil => simp [lexemes, flush, single, isWordChar, isOpChar]
  | cons c cs ih =>
    rw [List.cons_append, lexemes, lexemes]
    by_cases hc : isWordChar c = true
    · rw [if_pos hc, if_pos hc, ih]
    · rw [if_neg hc, if_neg hc, ih, ← List.append_assoc]

theorem newline_notMem (yytext : Text) {line : Text} (h : '\n' ∉ line) :
    Lexeme.newline ∉ lexemes yytext line := by
  have hflush : ∀ w : Text, Lexeme.newline ∉ flush w := by
    intro w
    unfold flush
    split_ifs <;> simp
  induction line generalizing yytext with
  | nil => exact hflush yytext
  | cons c cs ih =>
    rw [List.mem_cons, not_or] at h
    unfold lexemes
    have hsingle : Lexeme.newline ∉ single c := by
      unfold single
      rw [if_neg (Ne.symm h.1)]
      split_ifs <;> simp
    split_ifs
    · exact ih _ h.2
    · simp [hflush, hsingle, ih _ h.2]

/-- **What `yylex` leaves in the array**: the tokens of the line, if it fits. -/
theorem gather_eq {line : Text} (hline : '\n' ∉ line) (hs : s.tokCnt = 0)
    (hfits : Fits v (lexemes [] (line ++ ['\n']))) :
    ∃ t, gather v (lexemes [] (line ++ ['\n'])) s = .ok t ∧
      Holds t.tokens 0 ((lexemes [] (line ++ ['\n'])).map (image v)) ∧ t.core = s.core := by
  have hcol : Collected s [] := ⟨hs, begins_nil⟩
  obtain ⟨hroom, hshort⟩ := hfits
  rw [lexemes_newline] at hroom hshort ⊢
  rcases gather_cases (v := v) hcol (by decide) (newline_notMem [] hline) with
    ⟨t, ht, hholds, hcore, -⟩ | ⟨-, hfull | ⟨l, hl, hfull⟩⟩
  · exact ⟨t, ht, hholds, hcore⟩
  · rw [List.length_nil] at hfull
    omega
  · have := hshort l hl
    omega

/-- **Otherwise a store goes outside** the array or `buf`. -/
theorem gather_overflow {line : Text} (hline : '\n' ∉ line) (hs : s.tokCnt = 0)
    (hfits : ¬ Fits v (lexemes [] (line ++ ['\n']))) :
    gather v (lexemes [] (line ++ ['\n'])) s = .error .overflow := by
  have hcol : Collected s [] := ⟨hs, begins_nil⟩
  rw [lexemes_newline] at hfits ⊢
  rcases gather_cases (v := v) hcol (by decide) (newline_notMem [] hline) with
    ⟨t, -, -, -, hroom, hshort⟩ | ⟨ht, -⟩
  · rw [List.length_nil, Nat.zero_add] at hroom
    exact absurd ⟨hroom, hshort⟩ hfits
  · exact ht

/-! ### The shell at its prompt -/

/-- **The shell between two lines**: it has just begun, or it has come back from a line. -/
inductive Prompt (env : Env) : Mysh → Prop
  | start (core : Core) : Prompt env ⟨fun _ => none, 0, fun _ => none, core⟩
  | line {s t : Mysh} {line : Text} (v : Values) (hs : Prompt env s) (hline : '\n' ∉ line)
      (h : yylex v env (line ++ ['\n']) s = .ok t) : Prompt env t

/-- `tok_cnt` is 0 at the prompt. -/
theorem Prompt.tokCnt {env : Env} (h : Prompt env s) : s.tokCnt = 0 := by
  induction h with
  | start core => rfl
  | @line s t line v hs hline h ih =>
    obtain ⟨t₁, ht, hrun⟩ := bind_eq_ok.mp h
    have hlex := logged_eq_ok.mp ht
    by_cases hfits : Fits v (lexemes [] (line ++ ['\n']))
    · obtain ⟨t', ht', hholds, -⟩ := gather_eq hline ih hfits
      obtain rfl := Except.ok.inj (hlex.symm.trans ht')
      obtain ⟨τ, heq⟩ := doListCmd_eq env hholds
      rw [heq] at hrun
      obtain ⟨core, -, rfl⟩ := map_eq_ok.mp hrun
      rfl
    · rw [gather_overflow hline ih hfits] at hlex
      exact absurd hlex (by simp)

/-- `buf` and the array are never overrun: no store goes outside them. -/
def InBounds (v : Values) (line : Text) (s : Mysh) : Prop :=
  gather v (lexemes [] (line ++ ['\n'])) s ≠ .error .overflow

/-- **No store goes outside** if and only if the lexemes fit. -/
theorem in_bounds {env : Env} {line : Text} (hline : '\n' ∉ line) (hs : Prompt env s) :
    InBounds v line s ↔ Fits v (lexemes [] (line ++ ['\n'])) := by
  unfold InBounds
  by_cases hfits : Fits v (lexemes [] (line ++ ['\n']))
  · obtain ⟨t, ht, -⟩ := gather_eq hline hs.tokCnt hfits
    simp [ht, hfits]
  · simp [gather_overflow hline hs.tokCnt hfits, hfits]

/-- `mysh` was called with `a` and an argument of 200 letters. -/
def longParam : Values := ⟨fun i => if i = 1 then List.replicate 200 'a' else [], 42, 2, 0⟩

/-- The shell before its first line. -/
theorem prompt_holding (env : Env) : Prompt env (holding []) := .start ⟨terminal, 0, []⟩

theorem in_bounds_echo : InBounds longParam ['e', 'c', 'h', 'o', ' ', '$', '$'] (holding []) :=
  (in_bounds (by decide) (prompt_holding i686)).mpr ⟨by decide, by decide⟩

/-- The expansion of `$1` does not fit into `buf`. -/
theorem not_in_bounds : Prompt i686 (holding []) ∧ ¬ InBounds longParam ['$', '1'] (holding []) := by
  have hfits : ¬ Fits longParam (lexemes [] ['$', '1', '\n']) := by
    intro h
    exact absurd (h.short (.word ['$', '1']) (by decide)) (by decide +kernel)
  exact ⟨prompt_holding i686, fun h => h (gather_overflow (by decide) rfl hfits)⟩

end LinuxHomework.Shell.Lexer
