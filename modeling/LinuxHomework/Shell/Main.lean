import LinuxHomework.Lib.CInt
import LinuxHomework.Shell.Lexer

/-! # The main loop of `2/mysh.c`

A line that ends in a backslash is continued by the next one. The loop keeps the text of the lines
in `line_buf` and its length in `line_len`, and the lexer gets both through `my_yyinput`.

* `takeLine`, `mainLoop`: the source.
* `feed_eq`: the texts handed to the lexer are those that joining the lines gives (`assemble`).
* `mainLoop_eq`: the shell runs on these texts one after the other.
* `line_assembled`: a logical line is put together if and only if its last physical line is not
  empty and the whole fits into `line_buf`. -/

namespace LinuxHomework.Shell.Main

open LinuxHomework.Lib.Buffer LinuxHomework.Lib.CInt LinuxHomework.Lib.Outcome
open LinuxHomework.Shell.Commands LinuxHomework.Shell.Parse LinuxHomework.Shell.Lexer

/-! ### The source -/

/-- The size of `line_buf`. -/
def BUFSIZE : ℕ := 128

/-- The lexer asks for at most so many characters. -/
def YY_READ_BUF_SIZE : ℤ := 8192

/-- The variables of the loop, and the buffer of the lexer that `my_yyinput` fills. `none` is the
byte 0 that ends a string. -/
structure Reader where
  flagContLine : Bool
  lineBuf : ℕ → Option Char
  lineLen : ℤ
  yybuf : ℕ → Option Char

/-- `init()`: `calloc` clears `line_buf`. -/
def init (yybuf : ℕ → Option Char) : Reader := ⟨false, fun _ => none, 0, yybuf⟩

/-- `line[strlen(line)-1]`. -/
def lastChar (line : Text) : Except Stop Char :=
  match line.getLast? with
  | some c => .ok c
  | none => .error .crash

/-- `strcat(line_buf, text)`. -/
def strcat (lineBuf : ℕ → Option Char) (text : Text) : Except Stop (ℕ → Option Char) :=
  match strlen BUFSIZE lineBuf with
  | none => .error .crash
  | some n => if n + text.length < BUFSIZE then .ok (paste lineBuf n text) else .error .overflow

/-- **`my_yyinput`**: the characters that the lexer gets. If there are too many it returns -1, and
the lexer stores in front of its buffer. -/
def myYyinput (maxSize : ℤ) (m : Reader) : Except Stop (Text × Reader) :=
  if m.lineLen < maxSize then
    match cString BUFSIZE m.lineBuf with
    | none => .error .crash
    | some text =>
      let yybuf := paste m.yybuf 0 text
      .ok ((List.range m.lineLen.toNat).map fun i => (yybuf i).getD '\x00', { m with yybuf := yybuf })
  else .error .crash

/-- **The body of the loop** up to `yylex()`: what is handed to the lexer, unless the line is
continued. -/
def takeLine (line : Text) (m : Reader) : Except Stop (Option Text × Reader) := do
  -- `set_prompt`
  let m := { m with flagContLine := false }
  if (← lastChar line) = '\\' then
    let line := line.dropLast
    let m := { m with flagContLine := true, lineLen := wrap32 (m.lineLen + line.length) }
    let lineBuf ← strcat m.lineBuf line
    return (none, { m with lineBuf := lineBuf })
  else
    let m := { m with lineLen := wrap32 (m.lineLen + line.length) }
    let lineBuf ← strcat m.lineBuf line
    let lineBuf ← strcat lineBuf ['\n']
    let m := { m with lineBuf := lineBuf, lineLen := wrap32 (m.lineLen + 1) }
    let (text, m) ← myYyinput YY_READ_BUF_SIZE m
    return (some text, m)

/-- `line_buf[0] = 0; line_len = 0`. -/
def cleanUp (m : Reader) : Reader :=
  { m with lineBuf := Function.update m.lineBuf 0 none, lineLen := 0 }

/-- **The loop** over the lines that `readline` returns. -/
def mainLoop (v : Values) (env : Env) : List Text → Reader → Mysh → Except Halt (Reader × Mysh)
  | [], m, s => .ok (m, s)
  | line :: lines, m, s => do
    match ← logged s.core.log (takeLine line m) with
    | (none, m) => mainLoop v env lines m s
    | (some text, m) => do
      let s ← yylex v env text s
      mainLoop v env lines (cleanUp m) s

/-! ### The texts -/

/-- The loop without the commands: the texts that are handed to the lexer. -/
def feed : List Text → Reader → Except Stop (List Text × Reader)
  | [], m => .ok ([], m)
  | line :: lines, m => do
    match ← takeLine line m with
    | (none, m) => feed lines m
    | (some text, m) => do
      let (texts, m) ← feed lines (cleanUp m)
      return (text :: texts, m)

/-- **What the lines should come to** behind the text `pending`: the text of a line that is
continued is put before that of the next one. An empty line, and a text that is too long, have no
meaning. -/
def assemble (pending : Text) : List Text → Except Stop (List Text)
  | [] => .ok []
  | line :: lines =>
    if line = [] then .error .crash
    else if line.getLast? = some '\\' then
      if (pending ++ line.dropLast).length < BUFSIZE then assemble (pending ++ line.dropLast) lines
      else .error .overflow
    else if (pending ++ line).length + 1 < BUFSIZE then
      (assemble [] lines).map fun texts => (pending ++ line ++ ['\n']) :: texts
    else .error .overflow

/-- **The invariant**: `line_buf` holds the text `pending`, and `line_len` is its length. -/
structure Stored (m : Reader) (pending : Text) : Prop where
  begins : Begins m.lineBuf pending
  stop : m.lineBuf pending.length = none
  short : pending.length < BUFSIZE
  lineLen : m.lineLen = pending.length

variable {m m' m₁ m₂ : Reader} {pending text line last : Text} {lines texts bodies : List Text}

theorem stored_init (yybuf : ℕ → Option Char) : Stored (init yybuf) [] :=
  ⟨begins_nil, rfl, by decide, rfl⟩

theorem stored_cleanUp (m : Reader) : Stored (cleanUp m) [] :=
  ⟨begins_nil, rfl, by decide, rfl⟩

/-- The lexer may do what it likes with its buffer. -/
theorem Stored.yybuf (h : Stored m pending) (yybuf : ℕ → Option Char) :
    Stored { m with yybuf := yybuf } pending :=
  ⟨h.begins, h.stop, h.short, h.lineLen⟩

/-! ### One line -/

theorem strcat_fits {buf : ℕ → Option Char} (text : Text) (h : Begins buf pending)
    (hstop : buf pending.length = none)
    (hfit : (pending ++ text).length < BUFSIZE) : ∃ buf', strcat buf text = .ok buf' ∧
      Begins buf' (pending ++ text) ∧ buf' (pending ++ text).length = none := by
  rw [List.length_append] at hfit
  unfold strcat
  rw [strlen_eq h hstop (by omega)]
  refine ⟨paste buf pending.length text, if_pos hfit, h.paste, ?_⟩
  rw [List.length_append]
  exact paste_end

theorem strcat_full {buf : ℕ → Option Char} (h : Begins buf pending) (hstop : buf pending.length = none)
    (hlt : pending.length < BUFSIZE) (hfull : BUFSIZE ≤ (pending ++ text).length) :
    strcat buf text = .error .overflow := by
  rw [List.length_append] at hfull
  unfold strcat
  rw [strlen_eq h hstop hlt]
  exact if_neg (by omega)

/-- The lexer gets the whole text. -/
theorem myYyinput_eq (h : Stored m text) : ∃ m', myYyinput YY_READ_BUF_SIZE m = .ok (text, m') ∧
    m'.lineLen = text.length := by
  have hlt : m.lineLen < YY_READ_BUF_SIZE := by
    have := h.short
    rw [h.lineLen]
    unfold BUFSIZE at this
    unfold YY_READ_BUF_SIZE
    omega
  unfold myYyinput
  rw [if_pos hlt, cString_eq h.begins h.stop h.short]
  refine ⟨_, congrArg Except.ok (Prod.ext ?_ rfl), h.lineLen⟩
  refine List.ext_getElem (by simp [h.lineLen]) fun i h₁ h₂ => ?_
  have hbegins : Begins (paste m.yybuf 0 text) ([] ++ text) := begins_nil.paste
  rw [List.nil_append] at hbegins
  rw [List.getElem_map, List.getElem_range, hbegins i h₂, List.getElem?_eq_getElem h₂]
  rfl

/-- **An empty line** is read before its beginning. -/
theorem takeLine_nil : takeLine [] m = .error .crash := rfl

/-- **A line that is continued** puts its text behind what there is. -/
theorem takeLine_continued (h : Stored m pending) (hline : line.getLast? = some '\\') :
    (∃ m', takeLine line m = .ok (none, m') ∧ Stored m' (pending ++ line.dropLast)) ∨
    (takeLine line m = .error .overflow ∧ BUFSIZE ≤ (pending ++ line.dropLast).length) := by
  have hlast : lastChar line = .ok '\\' := by
    unfold lastChar
    rw [hline]
  unfold takeLine
  rw [hlast, ok_bind, if_pos rfl]
  by_cases hfit : (pending ++ line.dropLast).length < BUFSIZE
  · obtain ⟨buf, hbuf, hbegins, hstop⟩ := strcat_fits _ h.begins h.stop hfit
    have hlen : wrap32 (m.lineLen + line.dropLast.length) = (pending ++ line.dropLast).length := by
      rw [h.lineLen, List.length_append]
      rw [List.length_append] at hfit
      unfold BUFSIZE at hfit
      exact_mod_cast wrap32_of_lt (by omega) (by omega)
    simp only [hbuf, ok_bind]
    exact Or.inl ⟨_, rfl, hbegins, hstop, hfit, hlen⟩
  · simp only [strcat_full h.begins h.stop h.short (not_lt.mp hfit)]
    exact Or.inr ⟨rfl, not_lt.mp hfit⟩

/-- **A line that is not continued** ends the text, which is handed over. -/
theorem takeLine_last (h : Stored m pending) (hne : line ≠ []) (hline : line.getLast? ≠ some '\\') :
    (∃ m', takeLine line m = .ok (some (pending ++ line ++ ['\n']), m') ∧
      m'.lineLen = (pending ++ line ++ ['\n']).length ∧ (pending ++ line).length + 1 < BUFSIZE) ∨
    (takeLine line m = .error .overflow ∧ BUFSIZE ≤ (pending ++ line).length + 1) := by
  obtain ⟨c, hc⟩ := Option.ne_none_iff_exists'.mp (mt List.getLast?_eq_none_iff.mp hne)
  have hlast : lastChar line = .ok c := by
    unfold lastChar
    rw [hc]
  have hcont : c ≠ '\\' := fun h => hline (h ▸ hc)
  unfold takeLine
  rw [hlast, ok_bind, if_neg hcont]
  by_cases hfit : (pending ++ line).length < BUFSIZE
  swap
  · simp only [strcat_full h.begins h.stop h.short (not_lt.mp hfit)]
    exact Or.inr ⟨rfl, by omega⟩
  obtain ⟨buf, hbuf, hbegins, hstop⟩ := strcat_fits _ h.begins h.stop hfit
  simp only [hbuf, ok_bind]
  have hlen : (pending ++ line ++ ['\n']).length = (pending ++ line).length + 1 :=
    List.length_append
  by_cases hfit' : (pending ++ line).length + 1 < BUFSIZE
  swap
  · rw [strcat_full hbegins hstop hfit (by omega)]
    exact Or.inr ⟨rfl, not_lt.mp hfit'⟩
  obtain ⟨buf', hbuf', hbegins', hstop'⟩ := strcat_fits ['\n'] hbegins hstop (by omega)
  have hnum : wrap32 (wrap32 (m.lineLen + line.length) + 1) = (pending ++ line ++ ['\n']).length := by
    rw [hlen, h.lineLen]
    rw [List.length_append] at hfit' ⊢
    unfold BUFSIZE at hfit'
    rw [wrap32_of_lt (x := pending.length + line.length) (by omega) (by omega),
      wrap32_of_lt (by omega) (by omega)]
    push_cast
    rfl
  obtain ⟨m', hm', hm'len⟩ := myYyinput_eq (m := { m with
    flagContLine := false, lineBuf := buf', lineLen := wrap32 (wrap32 (m.lineLen + line.length) + 1) })
    ⟨hbegins', hstop', by omega, hnum⟩
  simp only [hbuf', ok_bind, hm']
  exact Or.inl ⟨m', rfl, hm'len, hfit'⟩

/-! ### The loop -/

theorem feed_none (h : takeLine line m = .ok (none, m')) : feed (line :: lines) m = feed lines m' := by
  rw [feed, h]
  rfl

theorem feed_some (h : takeLine line m = .ok (some text, m')) : feed (line :: lines) m =
    feed lines (cleanUp m') >>= fun r => .ok (text :: r.1, r.2) := by
  rw [feed, h]
  rfl

theorem feed_error {e : Stop} (h : takeLine line m = .error e) : feed (line :: lines) m = .error e := by
  rw [feed, h]
  rfl

/-- **The texts handed to the lexer** are those that joining the lines gives. -/
theorem feed_eq (lines : List Text) (h : Stored m pending) :
    (feed lines m).map Prod.fst = assemble pending lines := by
  induction lines generalizing m pending with
  | nil => rfl
  | cons line lines ih =>
    rw [assemble]
    by_cases hne : line = []
    · rw [if_pos hne, hne, feed_error takeLine_nil]
      rfl
    rw [if_neg hne]
    by_cases hline : line.getLast? = some '\\'
    · rw [if_pos hline]
      rcases takeLine_continued h hline with ⟨m', hm', hstored⟩ | ⟨herr, hfull⟩
      · rw [if_pos hstored.short, feed_none hm', ih hstored]
      · rw [if_neg (by omega), feed_error herr]
        rfl
    · rw [if_neg hline]
      rcases takeLine_last h hne hline with ⟨m', hm', -, hfit⟩ | ⟨herr, hfull⟩
      · rw [if_pos hfit, feed_some hm', map_bind, ← ih (stored_cleanUp m')]
        cases feed lines (cleanUp m') with
        | ok r => rfl
        | error e => rfl
      · rw [if_neg (by omega), feed_error herr]
        rfl

/-- **The shell** runs on the texts one after the other. -/
theorem mainLoop_eq {v : Values} {env : Env} {s : Mysh} (h : feed lines m = .ok (texts, m')) :
    (mainLoop v env lines m s).map Prod.snd = texts.foldlM (fun s text => yylex v env text s) s := by
  induction lines generalizing m s texts with
  | nil =>
    obtain ⟨rfl, -⟩ := Prod.mk.inj (Except.ok.inj h)
    rfl
  | cons line lines ih =>
    cases htake : takeLine line m with
    | error e =>
      rw [feed_error htake] at h
      exact absurd h (by simp)
    | ok r =>
      obtain ⟨o, m₁⟩ := r
      rw [mainLoop, htake, logged_ok, ok_bind]
      cases o with
      | none =>
        rw [feed_none htake] at h
        exact ih h
      | some text =>
        rw [feed_some htake] at h
        obtain ⟨⟨texts', m₂⟩, hfeed, h⟩ := bind_eq_ok.mp h
        obtain ⟨rfl, rfl⟩ := Prod.mk.inj (Except.ok.inj h)
        rw [List.foldlM_cons]
        dsimp only
        rw [map_bind]
        exact bind_congr fun s => ih hfeed

/-! ### Logical lines -/

/-- The physical lines of a logical line: the continued ones end in a backslash. -/
def physical (bodies : List Text) (last : Text) : List Text := bodies.map (· ++ ['\\']) ++ [last]

/-- The text of a logical line. -/
def joined (bodies : List Text) (last : Text) : Text := bodies.flatten ++ last ++ ['\n']

/-- The last line is not empty, and the text and the byte that ends it fit into `line_buf`. -/
def LineFits (bodies : List Text) (last : Text) : Prop :=
  last ≠ [] ∧ (joined bodies last).length < BUFSIZE

instance (bodies : List Text) (last : Text) : Decidable (LineFits bodies last) :=
  inferInstanceAs (Decidable (_ ∧ _))

theorem getLast?_continued (body : Text) : (body ++ ['\\']).getLast? = some '\\' := by simp

/-- The lines of a logical line that are continued. -/
theorem feed_continued (bodies : List Text) (h : Stored m pending) :
    (∃ m', feed (bodies.map (· ++ ['\\'])) m = .ok ([], m') ∧ Stored m' (pending ++ bodies.flatten)) ∨
    (feed (bodies.map (· ++ ['\\'])) m = .error .overflow ∧
      BUFSIZE ≤ (pending ++ bodies.flatten).length) := by
  induction bodies generalizing m pending with
  | nil => exact Or.inl ⟨m, rfl, by simpa using h⟩
  | cons body bodies ih =>
    rw [List.map_cons, List.flatten_cons, ← List.append_assoc]
    have htake := takeLine_continued h (getLast?_continued body)
    rw [List.dropLast_concat] at htake
    rcases htake with ⟨m', hm', hstored⟩ | ⟨herr, hfull⟩
    · rw [feed_none hm']
      exact ih hstored
    · rw [feed_error herr]
      refine Or.inr ⟨rfl, ?_⟩
      rw [List.length_append]
      omega

theorem assemble_line (hne : last ≠ []) (hlast : last.getLast? ≠ some '\\')
    (hfit : (pending ++ joined bodies last).length < BUFSIZE) :
    assemble pending (physical bodies last ++ lines) =
      (assemble [] lines).map fun texts => (pending ++ joined bodies last) :: texts := by
  induction bodies generalizing pending with
  | nil =>
    have hfit' : (pending ++ last).length + 1 < BUFSIZE := by
      unfold joined at hfit
      simp only [List.length_append, List.flatten_nil, List.length_nil, List.length_singleton] at hfit ⊢
      omega
    show assemble pending (last :: lines) = _
    rw [assemble, if_neg hne, if_neg hlast, if_pos hfit', List.append_assoc]
    rfl
  | cons body bodies ih =>
    have hjoined : pending ++ joined (body :: bodies) last = pending ++ body ++ joined bodies last := by
      unfold joined
      rw [List.flatten_cons]
      simp only [List.append_assoc]
    rw [hjoined] at hfit ⊢
    have hshort : (pending ++ body).length < BUFSIZE := by
      rw [List.length_append] at hfit
      omega
    show assemble pending ((body ++ ['\\']) :: (physical bodies last ++ lines)) = _
    rw [assemble, if_neg (by simp), if_pos (getLast?_continued body), List.dropLast_concat,
      if_pos hshort]
    exact ih hfit

/-- **Whole sessions**: logical lines that fit are put together one after the other. -/
theorem assemble_physical {session : List (List Text × Text)}
    (h : ∀ l ∈ session, LineFits l.1 l.2 ∧ l.2.getLast? ≠ some '\\') :
    assemble [] (session.flatMap fun l => physical l.1 l.2) =
      .ok (session.map fun l => joined l.1 l.2) := by
  induction session with
  | nil => rfl
  | cons l session ih =>
    obtain ⟨⟨hne, hfit⟩, hlast⟩ := h l (by simp)
    rw [List.flatMap_cons, assemble_line hne hlast hfit, ih fun l' hl' => h l' (by simp [hl'])]
    rfl

/-- The shell runs on the logical lines of a session. -/
theorem mainLoop_session {v : Values} {env : Env} {s : Mysh} {session : List (List Text × Text)}
    (hm : Stored m []) (h : ∀ l ∈ session, LineFits l.1 l.2 ∧ l.2.getLast? ≠ some '\\') :
    (mainLoop v env (session.flatMap fun l => physical l.1 l.2) m s).map Prod.snd =
      session.foldlM (fun s l => yylex v env (joined l.1 l.2) s) s := by
  have hfeed := feed_eq (session.flatMap fun l => physical l.1 l.2) hm
  rw [assemble_physical h] at hfeed
  obtain ⟨⟨texts, m'⟩, hr, htexts⟩ := map_eq_ok.mp hfeed
  rw [mainLoop_eq hr, show texts = _ from htexts, List.foldlM_map]

/-- **The states of the loop at its prompt**: it has just begun, or a command has returned. -/
inductive AtPrompt : Reader → Prop
  | start (yybuf : ℕ → Option Char) : AtPrompt (init yybuf)
  | command {m m₁ m₂ : Reader} {lines : List Text} {last text : Text} (h : AtPrompt m)
      (hlines : feed lines m = .ok ([], m₁)) (hlast : takeLine last m₁ = .ok (some text, m₂))
      (yybuf : ℕ → Option Char) : AtPrompt { cleanUp m₂ with yybuf := yybuf }

theorem AtPrompt.stored (h : AtPrompt m) : Stored m [] := by
  cases h with
  | start yybuf => exact stored_init yybuf
  | command h hlines hlast yybuf => exact (stored_cleanUp _).yybuf yybuf

/-- What is right about a logical line: every access to a line or to `line_buf` is inside, the lexer
gets the text, `line_len` is its length, and after the command it is as if the line had never
been. -/
def Assembles (m : Reader) (bodies : List Text) (last : Text) : Prop :=
  ∃ m₁ m₂, feed (bodies.map (· ++ ['\\'])) m = .ok ([], m₁) ∧
    takeLine last m₁ = .ok (some (joined bodies last), m₂) ∧
      m₂.lineLen = (joined bodies last).length ∧
        (cleanUp m₂).lineBuf 0 = none ∧ (cleanUp m₂).lineLen = 0 ∧
          ∀ (yybuf yybuf' : ℕ → Option Char) (lines : List Text),
            (feed lines { cleanUp m₂ with yybuf := yybuf }).map Prod.fst =
              (feed lines (init yybuf')).map Prod.fst

/-- **A logical line is put together** if and only if its last line is not empty and the text
fits. -/
theorem line_assembled (h : AtPrompt m) (hlast : last.getLast? ≠ some '\\') :
    Assembles m bodies last ↔ LineFits bodies last := by
  have hlen : (joined bodies last).length = (bodies.flatten ++ last).length + 1 := List.length_append
  have hcontinued := feed_continued bodies h.stored
  rw [List.nil_append] at hcontinued
  constructor
  · rintro ⟨m₁, m₂, hfeed, htake, -⟩
    rcases hcontinued with ⟨m', hm', hstored⟩ | ⟨herr, -⟩
    · obtain ⟨-, rfl⟩ := Prod.mk.inj (Except.ok.inj (hm'.symm.trans hfeed))
      have hne : last ≠ [] := by
        rintro rfl
        exact absurd htake (by simp [takeLine_nil])
      rcases takeLine_last hstored hne hlast with ⟨-, -, -, hfit⟩ | ⟨herr, -⟩
      · exact ⟨hne, by rw [hlen]; exact hfit⟩
      · rw [herr] at htake
        exact absurd htake (by simp)
    · rw [herr] at hfeed
      exact absurd hfeed (by simp)
  · rintro ⟨hne, hfit⟩
    rw [hlen, List.length_append] at hfit
    rcases hcontinued with ⟨m₁, hm₁, hstored⟩ | ⟨-, hfull⟩
    · rcases takeLine_last hstored hne hlast with ⟨m₂, hm₂, hlineLen, -⟩ | ⟨-, hfull⟩
      · refine ⟨m₁, m₂, hm₁, hm₂, hlineLen, rfl, rfl, fun yybuf yybuf' lines => ?_⟩
        rw [feed_eq lines ((stored_cleanUp m₂).yybuf yybuf), feed_eq lines (stored_init yybuf')]
      · rw [List.length_append] at hfull
        omega
    · omega

/-- Two lines that are continued, and a third one. -/
theorem line_assembled_echo :
    Assembles (init fun _ => none) [['e', 'c'], ['h', 'o', ' ']] ['h', 'i'] :=
  (line_assembled (.start _) (by decide)).mpr (by decide)

/-- The empty line is read before its beginning, and 127 letters with the newline overrun
`line_buf`. -/
theorem not_line_assembled : ¬ Assembles (init fun _ => none) [] [] ∧
    ¬ Assembles (init fun _ => none) [] (List.replicate 127 'a') := by
  constructor
  · rintro ⟨m₁, m₂, -, htake, -⟩
    exact absurd htake (by simp [takeLine_nil])
  · rintro ⟨m₁, m₂, hfeed, htake, -⟩
    obtain ⟨-, rfl⟩ := Prod.mk.inj (Except.ok.inj hfeed)
    have hne : List.replicate 127 'a' ≠ [] := by decide
    rcases takeLine_last (stored_init fun _ => none) hne (by decide) with
      ⟨-, -, -, hfit⟩ | ⟨herr, -⟩
    · rw [List.nil_append, List.length_replicate] at hfit
      exact absurd hfit (by decide)
    · rw [herr] at htake
      exact absurd htake (by simp)

end LinuxHomework.Shell.Main
