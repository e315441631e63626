import LinuxHomework.Lib.Pieces
import LinuxHomework.Lib.Scanner
import LinuxHomework.Shell.Expand

/-! # The tokens of a line

The rules of `2/parseline.l` as the scanner takes them: the longest match, and the first rule where
two match the same text. The lexemes that the scanner finds are `lexemes` of the line.

A line is cut into its `pieces`, the longest runs of word characters and the other characters one by
one. The tokens are the pieces that are not a blank, a tab or a double quote, and the newline.

* `scan_rules`: the scanner finds `lexemes`.
* `line_tokens`: what the array holds after a line without `$`, whatever it held before. -/

namespace LinuxHomework.Shell.Tokens

open LinuxHomework.Lib.Buffer LinuxHomework.Lib.Outcome LinuxHomework.Lib.Pieces
open LinuxHomework.Lib.Scanner
open LinuxHomework.Shell.Commands LinuxHomework.Shell.Parse LinuxHomework.Shell.Lexer
open LinuxHomework.Shell.Expand

/-! ### The rules -/

/-- The rule for an operator. -/
def operator (c : Char) : Rule Char (List Lexeme) := ⟨fun yytext => yytext = [c], fun _ => [.op c]⟩

/-- `[^ \t\n|<>;&"]+`. -/
def wordRule : Rule Char (List Lexeme) :=
  ⟨fun yytext => yytext ≠ [] && yytext.all isWordChar, fun yytext => [.word yytext]⟩

/-- `\n`. -/
def newlineRule : Rule Char (List Lexeme) := ⟨fun yytext => yytext = ['\n'], fun _ => [.newline]⟩

/-- `.`, which does nothing. -/
def anyRule : Rule Char (List Lexeme) :=
  ⟨fun yytext => yytext.length = 1 && '\n' ∉ yytext, fun _ => []⟩

/-- **The rules**, in their order. -/
def rules : List (Rule Char (List Lexeme)) :=
  [operator ';', operator '>', operator '<', operator '|', operator '&', wordRule, newlineRule,
    anyRule]

/-! ### The pieces -/

/-- A piece that becomes a token. -/
def kept (piece : Text) : Bool := piece ≠ [' '] && piece ≠ ['\t'] && piece ≠ ['"']

/-- A character that the lexer does not drop. -/
def visible (c : Char) : Bool := c ≠ ' ' && c ≠ '\t' && c ≠ '"'

/-- **The tokens of a line**, with the newline behind it. -/
def lineTokens (line : Text) : List Text := (pieces isWordChar line).filter kept ++ [['\n']]

/-- **What the pieces are**: put together they are the line, each one is a character that is not in
a word or a run of word characters, and of two runs neither comes right behind the other. -/
structure Maximal (line : Text) (ps : List Text) : Prop where
  flatten : ps.flatten = line
  piece : ∀ p ∈ ps, (∃ c, p = [c] ∧ isWordChar c = false) ∨
    (p ≠ [] ∧ ∀ c ∈ p, isWordChar c = true)
  apart : ps.IsChain fun p q => ∃ hp hq, (isWordChar (p.getLast hp) && isWordChar (q.head hq)) = false

variable {v : Values} {line text w rest : Text} {c : Char} {s t : Mysh} {ls : List Lexeme}

/-! ### Which rule wins -/

theorem operator_eq_false (h : text ≠ [c]) : (operator c).accepts text = false :=
  decide_eq_false h

/-- A run of word characters goes to the rule for words. -/
theorem winner_word (hne : w ≠ []) (hw : ∀ c ∈ w, isWordChar c = true) :
    winner rules w = some wordRule := by
  have hop : ∀ c, isWordChar c = false → (operator c).accepts w = false := by
    intro c hc
    refine operator_eq_false ?_
    rintro rfl
    rw [hw c (List.mem_singleton_self c)] at hc
    cases hc
  have hword : wordRule.accepts w = true := by simpa [wordRule, hne] using hw
  simp only [winner, rules, List.find?_cons, hop ';' (by decide), hop '>' (by decide),
    hop '<' (by decide), hop '|' (by decide), hop '&' (by decide), hword]

/-- A longer text with a character that is not in a word goes to nobody. -/
theorem winner_mixed (hlen : 1 < text.length) (hc : c ∈ text) (hword : isWordChar c = false) :
    winner rules text = none := by
  have hone : ∀ d, text ≠ [d] := by
    rintro d rfl
    simp at hlen
  have hrun : wordRule.accepts text = false := by
    simp only [wordRule, Bool.and_eq_false_iff, List.all_eq_false]
    exact Or.inr ⟨c, hc, by simp [hword]⟩
  have hline : newlineRule.accepts text = false := decide_eq_false (hone '\n')
  have hany : anyRule.accepts text = false := by
    simp only [anyRule, Bool.and_eq_false_iff, decide_eq_false_iff_not]
    exact Or.inl (by omega)
  simp only [winner, rules, List.find?_cons, operator_eq_false (hone _), hrun, hline, hany,
    List.find?_nil]

/-- The characters that are not in a word. -/
theorem of_not_word (hc : isWordChar c = false) : c = ' ' ∨ c = '\t' ∨ c = '\n' ∨ c = '|' ∨
    c = '<' ∨ c = '>' ∨ c = ';' ∨ c = '&' ∨ c = '"' := by
  have hmem := not_not.mp (of_decide_eq_false hc)
  simpa only [List.mem_cons, List.not_mem_nil, or_false] using hmem

/-- A character that is not in a word goes to the rule that makes `single` of it. -/
theorem winner_single (hc : isWordChar c = false) :
    ∃ r, winner rules [c] = some r ∧ r.action [c] = single c := by
  rcases of_not_word hc with rfl | rfl | rfl | rfl | rfl | rfl | rfl | rfl | rfl <;>
    exact ⟨_, rfl, rfl⟩

/-! ### The scanner finds the lexemes -/

theorem lexemes_run (hw : ∀ c ∈ w, isWordChar c = true)
    (hrest : ∀ c ∈ rest.head?, isWordChar c = false) (yytext : Text) :
    lexemes yytext (w ++ rest) = flush (yytext ++ w) ++ lexemes [] rest := by
  induction w generalizing yytext with
  | nil =>
    rw [List.nil_append, List.append_nil]
    cases rest with
    | nil => simp [lexemes, flush]
    | cons c cs =>
      have hc : isWordChar c = false := hrest c rfl
      rw [lexemes, lexemes, if_neg (by simp [hc]), if_neg (by simp [hc])]
      simp [flush]
  | cons c w ih =>
    have hc : isWordChar c = true := hw c List.mem_cons_self
    rw [List.cons_append, lexemes, if_pos hc,
      ih (fun d hd => hw d (List.mem_cons_of_mem c hd)), List.append_assoc, List.singleton_append]

theorem lexemes_single (hc : isWordChar c = false) :
    lexemes [] (c :: rest) = single c ++ lexemes [] rest := by
  rw [lexemes, if_neg (by simp [hc])]
  rfl

/-- **The scanner finds the lexemes.** -/
theorem scan_rules (text : Text) : (scan rules text).map List.flatten = some (lexemes [] text) := by
  induction text using piece_induction isWordChar with
  | hnil => simp [lexemes, flush]
  | hrun w rest hne hw hrest ih =>
    rw [scan_eq hne (winner_word hne hw), lexemes_run hw hrest]
    · obtain ⟨out, hout, hflat⟩ := Option.map_eq_some_iff.mp ih
      rw [hout, ← hflat]
      simp [wordRule, flush, hne]
    · intro more hmore hpre
      obtain ⟨c, cs, rfl⟩ := List.exists_cons_of_ne_nil hmore
      obtain ⟨tail, rfl⟩ := hpre
      have := List.length_pos_iff.mpr hne
      exact winner_mixed (by rw [List.length_append, List.length_cons]; omega)
        (List.mem_append_right w List.mem_cons_self) (hrest c rfl)
  | hsingle c rest hc ih =>
    obtain ⟨r, hwin, hact⟩ := winner_single hc
    rw [← List.singleton_append, scan_eq (by simp) hwin, List.singleton_append, lexemes_single hc]
    · obtain ⟨out, hout, hflat⟩ := Option.map_eq_some_iff.mp ih
      rw [hout, ← hflat]
      simp [hact]
    · intro more hmore _
      have := List.length_pos_iff.mpr hmore
      exact winner_mixed (by rw [List.length_append, List.length_singleton]; omega)
        (List.mem_append_left more (List.mem_singleton_self c)) hc

/-! ### The tokens -/

theorem maximal_pieces (line : Text) : Maximal line (pieces isWordChar line) := by
  refine ⟨List.flatten_splitBy _ line, ?_, List.isChain_getLast_head_splitBy
    (fun c d => isWordChar c && isWordChar d) line⟩
  induction line using piece_induction isWordChar with
  | hnil => simp [pieces]
  | hrun w rest hne hw hrest ih =>
    rw [pieces_run hne hw hrest, List.forall_mem_cons]
    exact ⟨Or.inr ⟨hne, hw⟩, ih⟩
  | hsingle c rest hc ih =>
    rw [pieces_single hc, List.forall_mem_cons]
    exact ⟨Or.inl ⟨c, rfl, hc⟩, ih⟩

theorem kept_run (hw : ∀ c ∈ w, isWordChar c = true) : kept w = true := by
  have hne : ∀ c, isWordChar c = false → w ≠ [c] := by
    rintro c hc rfl
    rw [hw c (List.mem_singleton_self c)] at hc
    cases hc
  simp [kept, hne ' ' (by decide), hne '\t' (by decide), hne '"' (by decide)]

theorem map_single (hc : isWordChar c = false) (hline : c ≠ '\n') :
    (single c).map (image v) = [[c]].filter kept := by
  rcases of_not_word hc with rfl | rfl | rfl | rfl | rfl | rfl | rfl | rfl | rfl
  case inr.inr.inl => exact absurd rfl hline
  all_goals rfl

/-- **The lexemes stand for the pieces that are kept.** -/
theorem map_image (hline : '\n' ∉ line) (hdollar : '$' ∉ line) :
    (lexemes [] line).map (image v) = (pieces isWordChar line).filter kept := by
  induction line using piece_induction isWordChar with
  | hnil => rfl
  | hrun w rest hne hw hrest ih =>
    rw [List.mem_append, not_or] at hline hdollar
    rw [lexemes_run hw hrest, pieces_run hne hw hrest, List.map_append, ih hline.2 hdollar.2,
      List.filter_cons_of_pos (kept_run hw)]
    simp [flush, hne, image, expansion_plain hdollar.1]
  | hsingle c rest hc ih =>
    rw [List.mem_cons, not_or] at hline hdollar
    rw [lexemes_single hc, pieces_single hc, List.map_append, ih hline.2 hdollar.2,
      map_single hc (Ne.symm hline.1), ← List.filter_append, List.singleton_append]

theorem addToken_tokCnt {token : Text} (h : addToken token s = .ok t) :
    t.tokCnt = s.tokCnt + 1 := by
  unfold addToken at h
  split_ifs at h
  obtain rfl := Except.ok.inj h
  rfl

/-- Each action adds one token. -/
theorem action_tokCnt {l : Lexeme} (h : action v l s = .ok t) : t.tokCnt = s.tokCnt + 1 := by
  cases l with
  | op c => exact addToken_tokCnt h
  | newline => exact addToken_tokCnt h
  | word yytext =>
    obtain ⟨buf, -, h⟩ := bind_eq_ok.mp h
    split at h
    · cases h
    · exact addToken_tokCnt (s := { s with buf := buf }) h

theorem gather_tokCnt (hls : Lexeme.newline ∉ ls)
    (h : gather v (ls ++ [Lexeme.newline]) s = .ok t) : t.tokCnt = s.tokCnt + ls.length + 1 := by
  induction ls generalizing s with
  | nil => exact addToken_tokCnt h
  | cons l ls ih =>
    rw [List.mem_cons, not_or] at hls
    rw [List.cons_append, gather_cons (Ne.symm hls.1)] at h
    obtain ⟨r, hr, hrest⟩ := bind_eq_ok.mp h
    rw [ih hls.2 hrest, action_tokCnt hr, List.length_cons]
    omega

theorem visible_of_word (hc : isWordChar c = true) : visible c = true := by
  have hne : ∀ d, isWordChar d = false → c ≠ d := by
    rintro d hd rfl
    rw [hc] at hd
    cases hd
  simp [visible, hne ' ' (by decide), hne '\t' (by decide), hne '"' (by decide)]

theorem flatten_kept (line : Text) :
    ((pieces isWordChar line).filter kept).flatten = line.filter visible := by
  induction line using piece_induction isWordChar with
  | hnil => rfl
  | hrun w rest hne hw hrest ih =>
    have hself : w.filter visible = w :=
      List.filter_eq_self.mpr fun c hc => visible_of_word (hw c hc)
    rw [pieces_run hne hw hrest, List.filter_cons_of_pos (kept_run hw), List.flatten_cons, ih,
      List.filter_append, hself]
  | hsingle c rest hc ih =>
    have hone : ([[c]].filter kept).flatten = [c].filter visible := by
      rcases of_not_word hc with rfl | rfl | rfl | rfl | rfl | rfl | rfl | rfl | rfl <;> rfl
    rw [pieces_single hc, ← List.singleton_append, List.filter_append, List.flatten_append, ih,
      hone, ← List.filter_append, List.singleton_append]

/-- **The tokens put together** are the line without blanks, tabs and double quotes. -/
theorem flatten_lineTokens (line : Text) :
    (lineTokens line).flatten = (line ++ ['\n']).filter visible := by
  unfold lineTokens
  rw [List.flatten_append, flatten_kept, List.filter_append]
  rfl

/-- **The lexer loses nothing and splits maximally**: after a line without `$` that stays within the
limits, whatever the lines before it left in the array. -/
theorem line_tokens {env : Env} (hs : Prompt env s) (v : Values) (hline : '\n' ∉ line)
    (hdollar : '$' ∉ line) (hcount : (lineTokens line).length < TOKENSZ)
    (hshort : ∀ token ∈ lineTokens line, token.length < TOKENSZ) :
    ∃ out t, scan rules (line ++ ['\n']) = some out ∧ gather v out.flatten s = .ok t ∧
      t.tokCnt = (lineTokens line).length ∧ Holds t.tokens 0 (lineTokens line) ∧
      Maximal line (pieces isWordChar line) ∧
      (lineTokens line).flatten = (line ++ ['\n']).filter visible := by
  have htokens : (lexemes [] (line ++ ['\n'])).map (image v) = lineTokens line := by
    rw [lexemes_newline, List.map_append, map_image hline hdollar]
    rfl
  have hfits : Fits v (lexemes [] (line ++ ['\n'])) := by
    constructor
    · rw [← List.length_map (image v), htokens]
      exact hcount
    · intro l hl
      exact hshort _ (htokens ▸ List.mem_map_of_mem hl)
  obtain ⟨out, hout, hflat⟩ := Option.map_eq_some_iff.mp (scan_rules (line ++ ['\n']))
  obtain ⟨t, ht, hholds, -⟩ := gather_eq hline hs.tokCnt hfits
  refine ⟨out, t, hout, by rw [hflat, ht], ?_, htokens ▸ hholds, maximal_pieces line,
    flatten_lineTokens line⟩
  rw [lexemes_newline] at ht
  rw [gather_tokCnt (newline_notMem [] hline) ht, hs.tokCnt, ← htokens, List.length_map,
    lexemes_newline, List.length_append]
  simp

/-- `echo "a;b>>`, with a quote that is not closed. -/
def echoLine : Text := ['e', 'c', 'h', 'o', ' ', '"', 'a', ';', 'b', '>', '>']

theorem line_tokens_echo : ∃ out t, scan rules (echoLine ++ ['\n']) = some out ∧
    gather longParam out.flatten (holding []) = .ok t ∧ t.tokCnt = 7 ∧
    Holds t.tokens 0 (lineTokens echoLine) ∧ Maximal echoLine (pieces isWordChar echoLine) ∧
    (lineTokens echoLine).flatten = ['e', 'c', 'h', 'o', 'a', ';', 'b', '>', '>', '\n'] :=
  line_tokens (prompt_holding i686) longParam (by decide) (by decide) (by decide) (by decide)

end LinuxHomework.Shell.Tokens
