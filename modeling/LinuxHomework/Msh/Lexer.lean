import LinuxHomework.Lib.Pieces
import LinuxHomework.Lib.Scanner
import LinuxHomework.Lib.Split

/-! # The lexer of `2/xyshell-read-only/study/msh/parsecmd.l`

The rules of the lexer have two start conditions: a double quote leads to `QUOTE`, where everything
up to the next double quote is one argument, and back. A newline ends a line in both.

* `rules`, `yylex`: the source.
* `yylex_line`: what the lexer makes of a line, by its segments between the double quotes. It is
  back in `INITIAL` behind the newline, also if a quote was not closed.
* `yylex_write`: a line that is written from arguments, quoted or not, is read back as these. -/

namespace LinuxHomework.Msh.Lexer

open LinuxHomework.Lib.Pieces LinuxHomework.Lib.Scanner
open LinuxHomework.Lib.Split (cut_induction)

/-- A string; a character stands for one byte. -/
abbrev Text := List Char

/-- The start conditions. -/
inductive Start
  | initial
  | quote
deriving DecidableEq

/-- What an action calls: `add_arg`, `add_simple_arg`, or `do_list_cmd` and then `reset_args`. -/
inductive Action
  | arg (xarg : Text)
  | simpleArg (arg : Text)
  | line
deriving DecidableEq

/-- The class `[^ \t\n|<>;"]`. -/
def isWordChar (c : Char) : Bool := c ∉ [' ', '\t', '\n', '|', '<', '>', ';', '"']

/-- The class `[^\n"]`. -/
def isQuoteChar (c : Char) : Bool := c ∉ ['\n', '"']

/-- A rule for a single character. -/
def char (c : Char) (actions : List Action) (next : Start) : Rule Char (List Action × Start) :=
  ⟨fun yytext => yytext = [c], fun _ => (actions, next)⟩

/-- A rule for a run of characters, which become an argument. -/
def run (p : Char → Bool) (next : Start) : Rule Char (List Action × Start) :=
  ⟨fun yytext => yytext ≠ [] && yytext.all p, fun yytext => ([.arg yytext], next)⟩

/-- `.`, which does nothing. -/
def anyChar : Rule Char (List Action × Start) :=
  ⟨fun yytext => yytext.length = 1 && '\n' ∉ yytext, fun _ => ([], .initial)⟩

/-- **The rules**, in their order. -/
def rules : Start → List (Rule Char (List Action × Start))
  | .initial =>
    [char '"' [] .quote, char ';' [.simpleArg [';']] .initial, char '>' [.simpleArg ['>']] .initial,
      char '<' [.simpleArg ['<']] .initial, char '|' [.simpleArg ['|']] .initial,
      run isWordChar .initial, char '\n' [.line] .initial, anyChar]
  | .quote => [run isQuoteChar .quote, char '"' [] .initial, char '\n' [.line] .initial]

/-- **`yylex`** from a start condition: its actions, and the start condition it ends in. -/
def yylex (q : Start) (text : Text) : Option (List Action × Start) :=
  (scanFrom rules q text).map fun out => (out.1.flatten, out.2)

/-! ### What a line means -/

/-- What the lexer makes of a piece outside of quotes. -/
def bareAction (piece : Text) : List Action :=
  if piece.all isWordChar then [.arg piece]
  else if piece = [' '] ∨ piece = ['\t'] then [] else [.simpleArg piece]

/-- A segment outside of quotes: its words, and its operators. -/
def bare (seg : Text) : List Action := (pieces isWordChar seg).flatMap bareAction

/-- A segment in quotes: one argument, if it is not empty. -/
def quoted (seg : Text) : List Action := if seg = [] then [] else [.arg seg]

/-- The segments, in turn outside of quotes and in quotes. -/
def segments : Start → List Text → List Action
  | _, [] => []
  | .initial, seg :: segs => bare seg ++ segments .quote segs
  | .quote, seg :: segs => quoted seg ++ segments .initial segs

/-- **The actions of a line**, with the newline behind it. -/
def lineActions (line : Text) : List Action := segments .initial (line.splitOn '"') ++ [.line]

/-- **An argument as it can be typed**: an operator, or a word without quotes or in quotes. -/
inductive Item
  | op (c : Char)
  | bare (w : Text)
  | quoted (w : Text)
deriving DecidableEq

/-- What is typed for it. -/
def Item.spelled : Item → Text
  | .op c => [c]
  | .bare w => w
  | .quoted w => '"' :: w ++ ['"']

/-- What is to become of it. -/
def Item.action : Item → Action
  | .op c => .simpleArg [c]
  | .bare w => .arg w
  | .quoted w => .arg w

/-- It can be typed. -/
def Item.Typed : Item → Prop
  | .op c => c ∈ [';', '>', '<', '|']
  | .bare w => w ≠ [] ∧ ∀ c ∈ w, isWordChar c = true
  | .quoted w => w ≠ [] ∧ ∀ c ∈ w, isQuoteChar c = true

instance : DecidablePred Item.Typed
  | .op _ => inferInstanceAs (Decidable (_ ∈ _))
  | .bare _ => inferInstanceAs (Decidable (_ ∧ _))
  | .quoted _ => inferInstanceAs (Decidable (_ ∧ _))

/-- It is a word without quotes. -/
def Item.isBare : Item → Bool
  | .bare _ => true
  | _ => false

/-- The text of some arguments, each with the blanks behind it. -/
def write (items : List (Item × Text)) : Text := items.flatMap fun it => it.1.spelled ++ it.2

/-- **Arguments and blanks that can be typed.** There are blanks between words without quotes. -/
structure Writable (items : List (Item × Text)) : Prop where
  typed : ∀ it ∈ items, it.1.Typed
  blanks : ∀ it ∈ items, ∀ c ∈ it.2, c = ' ' ∨ c = '\t'
  spaced : items.IsChain fun it next => it.1.isBare = true → next.1.isBare = true → it.2 ≠ []

variable {q : Start} {text rest w seg blanks : Text} {c : Char} {it : Item}
  {r : Rule Char (List Action × Start)}

/-! ### Which rule wins -/

theorem char_accepts {acts : List Action} {next : Start} :
    (char c acts next).accepts text = decide (text = [c]) := rfl

/-- Nothing but a run of one class is longer than a character. -/
theorem winner_initial_long (hlen : 1 < text.length) (hc : c ∈ text) (hword : isWordChar c = false) :
    winner (rules .initial) text = none := by
  have hone : ∀ d, text ≠ [d] := by
    rintro d rfl
    simp at hlen
  have hrun : (run isWordChar .initial).accepts text = false := by
    simp only [run, Bool.and_eq_false_iff, List.all_eq_false]
    exact Or.inr ⟨c, hc, by simp [hword]⟩
  have hany : anyChar.accepts text = false := by
    simp only [anyChar, Bool.and_eq_false_iff, decide_eq_false_iff_not]
    exact Or.inl (by omega)
  simp only [winner, rules, List.find?_cons, char_accepts, hone, decide_false, hrun, hany,
    List.find?_nil]

theorem winner_quote_long (hlen : 1 < text.length) (hc : c ∈ text) (hquote : isQuoteChar c = false) :
    winner (rules .quote) text = none := by
  have hone : ∀ d, text ≠ [d] := by
    rintro d rfl
    simp at hlen
  have hrun : (run isQuoteChar .quote).accepts text = false := by
    simp only [run, Bool.and_eq_false_iff, List.all_eq_false]
    exact Or.inr ⟨c, hc, by simp [hquote]⟩
  simp only [winner, rules, List.find?_cons, char_accepts, hone, decide_false, hrun,
    List.find?_nil]

theorem winner_word (hne : w ≠ []) (hw : ∀ c ∈ w, isWordChar c = true) :
    winner (rules .initial) w = some (run isWordChar .initial) := by
  have hone : ∀ c, isWordChar c = false → w ≠ [c] := by
    rintro c hc rfl
    rw [hw c (List.mem_singleton_self c)] at hc
    cases hc
  have hrun : (run isWordChar .initial).accepts w = true := by simpa [run, hne] using hw
  simp only [winner, rules, List.find?_cons, char_accepts, hone '"' (by decide),
    hone ';' (by decide), hone '>' (by decide), hone '<' (by decide), hone '|' (by decide),
    decide_false, hrun]

theorem winner_quoted (hne : w ≠ []) (hw : ∀ c ∈ w, isQuoteChar c = true) :
    winner (rules .quote) w = some (run isQuoteChar .quote) := by
  have hrun : (run isQuoteChar .quote).accepts w = true := by simpa [run, hne] using hw
  simp only [winner, rules, List.find?_cons, hrun]

/-! ### Steps of the lexer -/

@[simp] theorem yylex_nil : yylex q [] = some ([], q) := by simp [yylex]

/-- **One step of the lexer.** -/
theorem yylex_eq (hne : text ≠ []) (hwin : winner (rules q) text = some r)
    (hlong : ∀ more, more ≠ [] → more <+: rest → winner (rules q) (text ++ more) = none) :
    yylex q (text ++ rest) = (yylex (r.action text).2 rest).map fun out =>
      ((r.action text).1 ++ out.1, out.2) := by
  unfold yylex
  rw [scanFrom_eq hne hwin hlong, Option.map_map, Option.map_map]
  rfl

/-- A character that is not in a word is matched alone. -/
theorem yylex_single (hc : isWordChar c = false) (hwin : winner (rules .initial) [c] = some r) :
    yylex .initial (c :: rest) = (yylex (r.action [c]).2 rest).map fun out =>
      ((r.action [c]).1 ++ out.1, out.2) := by
  refine yylex_eq (by simp) hwin fun more hmore _ => ?_
  have := List.length_pos_iff.mpr hmore
  exact winner_initial_long (by rw [List.length_append, List.length_singleton]; omega)
    (List.mem_append_left more (List.mem_singleton_self c)) hc

/-- A character that is not quoted is matched alone. -/
theorem yylex_quote_single (hc : isQuoteChar c = false) (hwin : winner (rules .quote) [c] = some r) :
    yylex .quote (c :: rest) = (yylex (r.action [c]).2 rest).map fun out =>
      ((r.action [c]).1 ++ out.1, out.2) := by
  refine yylex_eq (by simp) hwin fun more hmore _ => ?_
  have := List.length_pos_iff.mpr hmore
  exact winner_quote_long (by rw [List.length_append, List.length_singleton]; omega)
    (List.mem_append_left more (List.mem_singleton_self c)) hc

theorem yylex_word (hne : w ≠ []) (hw : ∀ c ∈ w, isWordChar c = true)
    (hrest : ∀ c ∈ rest.head?, isWordChar c = false) :
    yylex .initial (w ++ rest) = (yylex .initial rest).map fun out => (.arg w :: out.1, out.2) := by
  refine yylex_eq hne (winner_word hne hw) fun more hmore hpre => ?_
  obtain ⟨c, cs, rfl⟩ := List.exists_cons_of_ne_nil hmore
  obtain ⟨tail, rfl⟩ := hpre
  have := List.length_pos_iff.mpr hne
  exact winner_initial_long (by rw [List.length_append, List.length_cons]; omega)
    (List.mem_append_right w List.mem_cons_self) (hrest c rfl)

theorem yylex_quoted (hw : ∀ c ∈ w, isQuoteChar c = true)
    (hrest : ∀ c ∈ rest.head?, isQuoteChar c = false) :
    yylex .quote (w ++ rest) = (yylex .quote rest).map fun out => (quoted w ++ out.1, out.2) := by
  by_cases hne : w = []
  · subst hne
    simp [quoted]
  · unfold quoted
    rw [if_neg hne]
    refine yylex_eq hne (winner_quoted hne hw) fun more hmore hpre => ?_
    obtain ⟨c, cs, rfl⟩ := List.exists_cons_of_ne_nil hmore
    obtain ⟨tail, rfl⟩ := hpre
    have := List.length_pos_iff.mpr hne
    exact winner_quote_long (by rw [List.length_append, List.length_cons]; omega)
      (List.mem_append_right w List.mem_cons_self) (hrest c rfl)

/-- The rule for an operator. -/
theorem winner_op (hc : c ∈ [';', '>', '<', '|']) : isWordChar c = false ∧
    winner (rules .initial) [c] = some (char c [.simpleArg [c]] .initial) := by
  simp only [List.mem_cons, List.not_mem_nil, or_false] at hc
  rcases hc with rfl | rfl | rfl | rfl <;> exact ⟨rfl, rfl⟩

/-- The rule for a blank. -/
theorem winner_blank (hc : c = ' ' ∨ c = '\t') : isWordChar c = false ∧
    winner (rules .initial) [c] = some anyChar := by
  rcases hc with rfl | rfl <;> exact ⟨rfl, rfl⟩

theorem yylex_op (hc : c ∈ [';', '>', '<', '|']) :
    yylex .initial (c :: rest) = (yylex .initial rest).map fun out =>
      (.simpleArg [c] :: out.1, out.2) := by
  obtain ⟨hword, hwin⟩ := winner_op hc
  rw [yylex_single hword hwin]
  rfl

theorem yylex_blank (hc : c = ' ' ∨ c = '\t') :
    yylex .initial (c :: rest) = yylex .initial rest := by
  obtain ⟨hword, hwin⟩ := winner_blank hc
  rw [yylex_single hword hwin]
  simp [anyChar]

theorem yylex_open : yylex .initial ('"' :: rest) = yylex .quote rest := by
  rw [yylex_single (c := '"') (r := char '"' [] .quote) rfl rfl]
  simp [char]

theorem yylex_close : yylex .quote ('"' :: rest) = yylex .initial rest := by
  rw [yylex_quote_single (c := '"') (r := char '"' [] .initial) rfl rfl]
  simp [char]

/-- A newline ends the line, in quotes too. -/
theorem yylex_newline : yylex q ['\n'] = some ([.line], .initial) := by
  cases q with
  | initial =>
    rw [yylex_single (c := '\n') (r := char '\n' [.line] .initial) rfl rfl]
    simp [char]
  | quote =>
    rw [yylex_quote_single (c := '\n') (r := char '\n' [.line] .initial) rfl rfl]
    simp [char]

/-! ### Lines -/

/-- The characters that are not in a word. -/
theorem of_not_word (hc : isWordChar c = false) : c = ' ' ∨ c = '\t' ∨ c = '\n' ∨ c = '|' ∨
    c = '<' ∨ c = '>' ∨ c = ';' ∨ c = '"' := by
  have hmem := not_not.mp (of_decide_eq_false hc)
  simpa only [List.mem_cons, List.not_mem_nil, or_false] using hmem

theorem bareAction_single (hc : isWordChar c = false) (hblank : ¬ (c = ' ' ∨ c = '\t')) :
    bareAction [c] = [.simpleArg [c]] := by
  unfold bareAction
  rw [if_neg (by simp [hc]), if_neg (by simpa using hblank)]

theorem yylex_bare (hseg : ∀ c ∈ seg, isQuoteChar c = true)
    (hrest : ∀ c ∈ rest.head?, isWordChar c = false) :
    yylex .initial (seg ++ rest) = (yylex .initial rest).map fun out => (bare seg ++ out.1, out.2) := by
  induction seg using piece_induction isWordChar with
  | hnil => simp [bare, pieces_nil]
  | hrun w tail hne hw htail ih =>
    have hnext : ∀ c ∈ (tail ++ rest).head?, isWordChar c = false := by
      cases tail with
      | nil => exact hrest
      | cons c cs => exact htail
    have hbare : bare (w ++ tail) = .arg w :: bare tail := by
      unfold bare
      rw [pieces_run hne hw htail, List.flatMap_cons, bareAction, if_pos (by simpa using hw)]
      rfl
    rw [List.append_assoc, yylex_word hne hw hnext,
      ih fun c hc => hseg c (List.mem_append_right w hc), hbare, Option.map_map]
    rfl
  | hsingle c tail hc ih =>
    have ih := ih fun d hd => hseg d (List.mem_cons_of_mem c hd)
    have hbare : bare (c :: tail) = bareAction [c] ++ bare tail := by
      unfold bare
      rw [pieces_single hc, List.flatMap_cons]
    rw [List.cons_append, hbare]
    by_cases hblank : c = ' ' ∨ c = '\t'
    · have hnone : bareAction [c] = [] := by rcases hblank with rfl | rfl <;> rfl
      rw [yylex_blank hblank, ih, hnone, List.nil_append]
    · have hq := hseg c List.mem_cons_self
      have hop : c ∈ [';', '>', '<', '|'] := by
        rcases of_not_word hc with rfl | rfl | rfl | rfl | rfl | rfl | rfl | rfl
        all_goals first | decide | exact absurd hq (by decide) | exact absurd hblank (by decide)
      rw [yylex_op hop, ih, bareAction_single hc hblank, Option.map_map]
      rfl

theorem isQuoteChar_of (hquote : '"' ∉ seg) (hline : '\n' ∉ seg) : ∀ c ∈ seg, isQuoteChar c = true := by
  intro c hc
  have hne : c ≠ '"' := fun h => hquote (h ▸ hc)
  have hnl : c ≠ '\n' := fun h => hline (h ▸ hc)
  simp [isQuoteChar, hne, hnl]

/-- The lexer over the segments of a line. -/
theorem yylex_segments (line : Text) (hline : '\n' ∉ line) (q : Start) :
    yylex q (line ++ ['\n']) = some (segments q (line.splitOn '"') ++ [.line], .initial) := by
  induction line using cut_induction '"' generalizing q with
  | hfree seg hquote =>
    have hseg := isQuoteChar_of hquote hline
    rw [List.splitOn_eq_singleton hquote]
    cases q with
    | initial =>
      rw [yylex_bare hseg (by simp [isWordChar]), yylex_newline]
      simp [segments]
    | quote =>
      rw [yylex_quoted hseg (by simp [isQuoteChar]), yylex_newline]
      simp [segments]
  | hcut seg rest hquote ih =>
    rw [List.mem_append, List.mem_cons, not_or, not_or] at hline
    have hseg := isQuoteChar_of hquote hline.1
    have ih := ih hline.2.2
    rw [List.splitOn_append_cons_self_of_not_mem hquote, List.append_assoc, List.cons_append]
    cases q with
    | initial =>
      rw [yylex_bare hseg (by simp [isWordChar]), yylex_open, ih .quote]
      simp [segments]
    | quote =>
      rw [yylex_quoted hseg (by simp [isQuoteChar]), yylex_close, ih .initial]
      simp [segments]

/-- **What the lexer makes of a line**, whatever stands in it: the words and operators outside of
the quotes, and what is in quotes as one argument. -/
theorem yylex_line {line : Text} (hline : '\n' ∉ line) :
    yylex .initial (line ++ ['\n']) = some (lineActions line, .initial) :=
  yylex_segments line hline .initial

/-- `echo "a;b` with a quote that is not closed. -/
theorem yylex_line_unclosed :
    yylex .initial (['e', 'c', 'h', 'o', ' ', '"', 'a', ';', 'b'] ++ ['\n']) =
      some ([.arg ['e', 'c', 'h', 'o'], .arg ['a', ';', 'b'], .line], .initial) := by
  have hactions : lineActions ['e', 'c', 'h', 'o', ' ', '"', 'a', ';', 'b'] =
      [.arg ['e', 'c', 'h', 'o'], .arg ['a', ';', 'b'], .line] := by decide
  rw [yylex_line (by decide), hactions]

/-! ### Written lines -/

theorem yylex_blanks (hblanks : ∀ c ∈ blanks, c = ' ' ∨ c = '\t') :
    yylex .initial (blanks ++ rest) = yylex .initial rest := by
  induction blanks with
  | nil => rfl
  | cons c cs ih =>
    rw [List.cons_append, yylex_blank (hblanks c List.mem_cons_self),
      ih fun d hd => hblanks d (List.mem_cons_of_mem c hd)]

theorem Writable.tail {p : Item × Text} {items : List (Item × Text)} (h : Writable (p :: items)) :
    Writable items :=
  ⟨fun it hit => h.typed it (List.mem_cons_of_mem p hit),
    fun it hit => h.blanks it (List.mem_cons_of_mem p hit), h.spaced.tail⟩

/-- What stands behind a word without quotes is no part of it. -/
theorem Writable.head_behind {p : Item × Text} {items : List (Item × Text)} (h : Writable (p :: items))
    (hbare : p.1.isBare = true) :
    ∀ c ∈ (p.2 ++ (write items ++ ['\n'])).head?, isWordChar c = false := by
  intro c hc
  rcases hblanks : p.2 with _ | ⟨d, ds⟩
  · rw [hblanks, List.nil_append] at hc
    rcases items with _ | ⟨q, items⟩
    · obtain rfl := Option.some.inj hc
      rfl
    have hnext : ¬ q.1.isBare = true := fun hq =>
      (List.isChain_cons_cons.mp h.spaced).1 hbare hq hblanks
    have htyped := h.typed q (by simp)
    cases hq : q.1 with
    | op d =>
      rw [hq] at htyped
      have hd : d = c := by simpa [write, hq, Item.spelled] using hc
      exact hd ▸ (winner_op htyped).1
    | bare w => exact absurd (by rw [hq]; rfl) hnext
    | quoted w =>
      have hd : '"' = c := by simpa [write, hq, Item.spelled] using hc
      exact hd ▸ rfl
  · rw [hblanks] at hc
    obtain rfl := Option.some.inj hc
    have := h.blanks p List.mem_cons_self d (by rw [hblanks]; exact List.mem_cons_self)
    exact (winner_blank this).1

/-- One argument and the blanks behind it. -/
theorem yylex_item (h : it.Typed) (hblanks : ∀ c ∈ blanks, c = ' ' ∨ c = '\t')
    (hnext : it.isBare = true → ∀ c ∈ (blanks ++ rest).head?, isWordChar c = false) :
    yylex .initial (it.spelled ++ (blanks ++ rest)) = (yylex .initial rest).map fun out =>
      (it.action :: out.1, out.2) := by
  cases it with
  | op c =>
    show yylex .initial (c :: (blanks ++ rest)) = _
    rw [yylex_op h, yylex_blanks hblanks]
    rfl
  | bare w =>
    obtain ⟨hne, hw⟩ := h
    show yylex .initial (w ++ (blanks ++ rest)) = _
    rw [yylex_word hne hw (hnext rfl), yylex_blanks hblanks]
    rfl
  | quoted w =>
    obtain ⟨hne, hw⟩ := h
    show yylex .initial ('"' :: (w ++ ['"'] ++ (blanks ++ rest))) = _
    rw [yylex_open, List.append_assoc, yylex_quoted hw (by simp [isQuoteChar]), List.singleton_append,
      yylex_close, yylex_blanks hblanks, quoted, if_neg hne]
    rfl

/-- **A written line is read back**: each argument gives its action, whether it was quoted or
not. -/
theorem yylex_write {items : List (Item × Text)} (h : Writable items) :
    yylex .initial (write items ++ ['\n']) =
      some (items.map (fun it => it.1.action) ++ [.line], .initial) := by
  induction items with
  | nil => exact yylex_newline
  | cons it items ih =>
    have hwrite : write (it :: items) ++ ['\n'] =
        it.1.spelled ++ (it.2 ++ (write items ++ ['\n'])) := by simp [write]
    rw [hwrite,
      yylex_item (h.typed it List.mem_cons_self) (h.blanks it List.mem_cons_self) h.head_behind,
      ih h.tail]
    rfl

/-- `ls>"a;b"`. -/
def typedList : List (Item × Text) :=
  [(.bare ['l', 's'], []), (.op '>', []), (.quoted ['a', ';', 'b'], [])]

theorem writable_typedList : Writable typedList where
  typed := by simp [typedList, Item.Typed, isWordChar, isQuoteChar]
  blanks := by simp [typedList]
  spaced := by simp [typedList, Item.isBare]

theorem yylex_write_list : yylex .initial (write typedList ++ ['\n']) =
    some ([.arg ['l', 's'], .simpleArg ['>'], .arg ['a', ';', 'b'], .line], .initial) :=
  yylex_write writable_typedList

end LinuxHomework.Msh.Lexer
