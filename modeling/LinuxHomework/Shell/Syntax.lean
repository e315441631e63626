import LinuxHomework.Shell.Lexer
import Mathlib.Data.List.Induction

/-! # What is syntax in a line

`do_list_cmd`, `do_pipe_cmd` and `scan_redirect` compare the texts of the tokens, which the lexer
has put into one array, operators and expanded words alike. A token made by an expansion is syntax
if its text is that of an operator.

* `treated_eq`: the tokens that the three functions treat as operators, in one pass over the line.
* `outline_parse`: these tokens say how the line is cut.
* `cut_alike`: two assignments of the parameters cut a line in the same way if and only if they
  agree on the words that consist of parameters alone. -/

namespace LinuxHomework.Shell.Syntax

open LinuxHomework.Lib.Buffer LinuxHomework.Lib.Split LinuxHomework.Shell.Commands
open LinuxHomework.Shell.Parse LinuxHomework.Shell.Lexer

/-- What a token is treated as: `;` or a newline, `&`, `|`, `<`, `>`. -/
inductive Mark
  | seq
  | amp
  | bar
  | inp
  | out
deriving DecidableEq

/-- `do_list_cmd` at a token that ends a pipeline. -/
def endMark (t : Text) : Mark := if t = ['&'] then .amp else .seq

/-- `scan_redirect` at a token that is not the operand of a redirection. -/
def redirector (t : Text) : Option Mark :=
  (redirection t).map fun r => if r.1 = 0 then .inp else .out

/-- What `scan_redirect` treats as operators in a simple command. -/
def scanned : List Text → List (Option Mark)
  | [] => []
  | t :: ts =>
    match redirector t with
    | some m =>
      some m :: match ts with
        | [] => []
        | _ :: ts => none :: scanned ts
    | none => none :: scanned ts

/-- What `do_pipe_cmd` and then `scan_redirect` treat as operators in a pipeline. -/
def piped (ws : List Text) : List (Option Mark) :=
  [some .bar].intercalate ((ws.splitOn ['|']).map scanned)

/-- **What is treated as syntax** in the tokens of a line, one after the other. -/
def treated (line : List Text) : List (Option Mark) :=
  (pieces isEnd line).flatMap fun q => piped q.1 ++ [some (endMark q.2)]

/-! ### In one pass -/

/-- A token that ends a pipeline or a simple command. -/
def separator (t : Text) : Option Mark :=
  if isEnd t then some (endMark t) else if t = ['|'] then some .bar else none

/-- What a token is treated as, behind an operator of redirection if `operand`. -/
def markAt (operand : Bool) (t : Text) : Option Mark :=
  (separator t).or (if operand then none else redirector t)

/-- The next token is an operand. -/
def opens (m : Option Mark) : Bool := m = some .inp ∨ m = some .out

/-- The tokens of a line from left to right. -/
def treatFrom : Bool → List Text → List (Option Mark)
  | _, [] => []
  | operand, t :: ts => markAt operand t :: treatFrom (opens (markAt operand t)) ts

variable {t : Text} {ts ws line rest : List Text} {operand : Bool} {m : Mark}

theorem markAt_separator (h : separator t = some m) : markAt operand t = some m := by
  unfold markAt
  rw [h]
  rfl

theorem markAt_operand (h : separator t = none) : markAt true t = none := by
  unfold markAt
  rw [h]
  rfl

theorem markAt_word (h : separator t = none) : markAt false t = redirector t := by
  unfold markAt
  rw [h]
  rfl

theorem opens_separator (h : separator t = some m) : opens (some m) = false := by
  unfold separator endMark at h
  split_ifs at h
  all_goals
    obtain rfl := Option.some.inj h
    rfl

theorem opens_redirector (h : redirector t = some m) : opens (some m) = true := by
  unfold redirector at h
  obtain ⟨r, -, rfl⟩ := Option.map_eq_some_iff.mp h
  split_ifs
  · rfl
  · rfl

/-- A separator, whatever stands before it. -/
theorem treatFrom_separator (h : separator t = some m) :
    treatFrom operand (t :: rest) = some m :: treatFrom false rest := by
  rw [treatFrom, markAt_separator h, opens_separator h]

theorem scanned_operator {name : Text} (h : redirector t = some m) :
    scanned (t :: name :: ws) = some m :: none :: scanned ws := by
  conv_lhs => unfold scanned
  simp only [h]

theorem scanned_lone (h : redirector t = some m) : scanned [t] = [some m] := by
  unfold scanned
  simp only [h]

theorem scanned_word (h : redirector t = none) : scanned (t :: ws) = none :: scanned ws := by
  conv_lhs => unfold scanned
  simp only [h]

/-- **A simple command** up to the separator behind it. -/
theorem treatFrom_scanned (hws : ∀ w ∈ ws, separator w = none) (ht : separator t = some m) :
    treatFrom false (ws ++ t :: rest) = scanned ws ++ some m :: treatFrom false rest := by
  induction ws using List.twoStepInduction with
  | nil => exact treatFrom_separator ht
  | singleton w =>
    have hw := hws w (by simp)
    rw [List.cons_append, treatFrom, markAt_word hw, List.nil_append, treatFrom_separator ht]
    cases hr : redirector w with
    | none =>
      rw [scanned_word hr]
      rfl
    | some m' =>
      rw [scanned_lone hr]
      rfl
  | cons_cons w name ws ih ihname =>
    have hw := hws w (by simp)
    have hname := hws name (by simp)
    rw [List.cons_append, treatFrom, markAt_word hw]
    cases hr : redirector w with
    | none =>
      rw [scanned_word hr, List.cons_append]
      exact congrArg _ (ihname name fun w' hw' => hws w' (List.mem_cons_of_mem _ hw'))
    | some m' =>
      rw [scanned_operator hr, opens_redirector hr, List.cons_append, treatFrom, markAt_operand hname,
        List.cons_append, List.cons_append]
      exact congrArg _ (congrArg _ (ih fun w' hw' => hws w' (by simp [hw'])))

theorem piped_single (hws : ['|'] ∉ ws) : piped ws = scanned ws := by
  unfold piped
  rw [List.splitOn_eq_singleton hws, List.map_singleton, List.intercalate_singleton]

theorem piped_bar {c : List Text} (hc : ['|'] ∉ c) :
    piped (c ++ ['|'] :: ws) = scanned c ++ some .bar :: piped ws := by
  unfold piped
  rw [List.splitOn_append_cons_self_of_not_mem hc, List.map_cons]
  cases h : ws.splitOn ['|'] with
  | nil => exact absurd h (List.splitOn_ne_nil _ _)
  | cons stage stages =>
    rw [List.map_cons, List.intercalate_cons_cons, List.append_assoc]
    rfl

theorem separator_bar : separator ['|'] = some .bar := rfl

theorem separator_end (h : isEnd t = true) : separator t = some (endMark t) := if_pos h

theorem separator_eq_none (hend : isEnd t = false) (hbar : t ≠ ['|']) : separator t = none := by
  unfold separator
  rw [hend, if_neg Bool.false_ne_true, if_neg hbar]

/-- **A pipeline** up to the token that ends it; the words `c` are those of the present command. -/
theorem treatFrom_piped {c : List Text} (hc : ['|'] ∉ c) (hws : ∀ w ∈ c ++ ws, isEnd w = false)
    (ht : isEnd t = true) : treatFrom false (c ++ ws ++ t :: rest) =
      piped (c ++ ws) ++ some (endMark t) :: treatFrom false rest := by
  have hsep : ∀ w ∈ c, separator w = none := fun w hw =>
    separator_eq_none (hws w (by simp [hw])) fun h => hc (h ▸ hw)
  induction ws generalizing c with
  | nil =>
    rw [List.append_nil, piped_single hc]
    exact treatFrom_scanned hsep (separator_end ht)
  | cons w ws ih =>
    by_cases hbar : w = ['|']
    · rw [hbar, List.append_assoc, List.cons_append, treatFrom_scanned hsep separator_bar, piped_bar hc,
        List.append_assoc]
      have hrest := ih (c := []) (by simp) (fun w' hw' => hws w' (by simp at hw'; simp [hw'])) (by simp)
      exact congrArg _ (congrArg _ hrest)
    · have hc' : ['|'] ∉ c ++ [w] := by
        simp only [List.mem_append, List.mem_singleton, not_or]
        exact ⟨hc, fun h => hbar h.symm⟩
      have hrest := ih (c := c ++ [w]) hc' (by simpa using hws) fun w' hw' =>
        separator_eq_none (hws w' (by simp at hw' ⊢; tauto)) fun h => hc' (h ▸ hw')
      simpa using hrest

theorem treatFrom_pipeline (hws : ∀ w ∈ ws, isEnd w = false) (ht : isEnd t = true) :
    treatFrom false (ws ++ t :: rest) = piped ws ++ some (endMark t) :: treatFrom false rest :=
  treatFrom_piped (c := []) (by simp) hws ht

theorem treated_piece (hws : ∀ w ∈ ws, isEnd w = false) (ht : isEnd t = true) :
    treated (ws ++ t :: rest) = piped ws ++ some (endMark t) :: treated rest := by
  unfold treated
  rw [pieces_append hws ht, List.flatMap_cons, List.append_assoc]
  rfl

/-- The tokens `ws` are those of the present pipeline. -/
theorem treated_from (hws : ∀ w ∈ ws, isEnd w = false) (line : List Text) :
    treated (ws ++ (line ++ [['\n']])) = treatFrom false (ws ++ (line ++ [['\n']])) := by
  induction line generalizing ws with
  | nil =>
    have hend : isEnd ['\n'] = true := rfl
    rw [List.nil_append, treated_piece hws hend, treatFrom_pipeline hws hend]
    rfl
  | cons t line ih =>
    by_cases ht : isEnd t = true
    · rw [List.cons_append, treated_piece hws ht, treatFrom_pipeline hws ht]
      have hnil : ∀ w ∈ ([] : List Text), isEnd w = false := by simp
      exact congrArg _ (congrArg _ (ih hnil))
    · have hws' : ∀ w ∈ ws ++ [t], isEnd w = false := by
        intro w hw
        rcases List.mem_append.mp hw with hw | hw
        · exact hws w hw
        · rw [List.mem_singleton.mp hw]
          simpa using ht
      simpa using ih hws'

/-- **A line** is treated in one pass. -/
theorem treated_eq (line : List Text) :
    treated (line ++ [['\n']]) = treatFrom false (line ++ [['\n']]) := by
  have hnil : ∀ w ∈ ([] : List Text), isEnd w = false := by simp
  exact treated_from hnil line

/-! ### How the line is cut -/

/-- The mark ends a pipeline. -/
def isEndMark (m : Option Mark) : Bool := m = some .seq ∨ m = some .amp

/-- The simple commands of a pipeline, with what `scan_redirect` treats as operators in them, and
whether it runs in the background. -/
def outline (p : Pipeline) : List (List (Option Mark)) × Bool := (p.stages.map scanned, p.bg)

/-- How the marks cut a line. -/
def cut (marks : List (Option Mark)) : List (List (List (Option Mark)) × Bool) :=
  ((pieces isEndMark marks).filter fun q => q.1 ≠ []).map fun q =>
    (q.1.splitOn (some .bar), q.2 = some .amp)

theorem mem_scanned {o : Option Mark} (h : o ∈ scanned ws) :
    o = none ∨ ∃ t, o = redirector t := by
  induction ws using List.twoStepInduction with
  | nil => exact absurd h (by simp [scanned])
  | singleton t =>
    cases hr : redirector t with
    | none =>
      rw [scanned_word hr] at h
      exact Or.inl (List.mem_singleton.mp h)
    | some m =>
      rw [scanned_lone hr] at h
      exact Or.inr ⟨t, (List.mem_singleton.mp h).trans hr.symm⟩
  | cons_cons t name ws ih ihname =>
    cases hr : redirector t with
    | none =>
      rw [scanned_word hr] at h
      rcases List.mem_cons.mp h with rfl | h
      · exact Or.inl rfl
      · exact ihname name h
    | some m =>
      rw [scanned_operator hr] at h
      rcases List.mem_cons.mp h with rfl | h
      · exact Or.inr ⟨t, hr.symm⟩
      · rcases List.mem_cons.mp h with rfl | h
        · exact Or.inl rfl
        · exact ih h

/-- What is no operator of redirection is no mark of a simple command. -/
theorem notMem_scanned (h : opens (some m) = false) : some m ∉ scanned ws := by
  intro hm
  rcases mem_scanned hm with hm | ⟨t, hm⟩
  · exact absurd hm (by simp)
  · rw [opens_redirector hm.symm] at h
    exact absurd h (by simp)

theorem isEndMark_piped {o : Option Mark} (h : o ∈ piped ws) : isEndMark o = false := by
  rcases mem_intercalate h with rfl | ⟨l, hl, ho⟩
  · rfl
  · obtain ⟨stage, -, rfl⟩ := List.mem_map.mp hl
    unfold isEndMark
    refine decide_eq_false ?_
    rintro (rfl | rfl)
    · exact notMem_scanned rfl ho
    · exact notMem_scanned rfl ho

theorem splitOn_piped (ws : List Text) :
    (piped ws).splitOn (some .bar) = (ws.splitOn ['|']).map scanned := by
  refine List.splitOn_intercalate _ (fun l hl hbar => ?_) ?_
  · obtain ⟨stage, -, rfl⟩ := List.mem_map.mp hl
    exact notMem_scanned rfl hbar
  · simp

theorem scanned_ne_nil (h : ws ≠ []) : scanned ws ≠ [] := by
  cases ws with
  | nil => exact absurd rfl h
  | cons t ws =>
    unfold scanned
    split
    · simp
    · simp

theorem piped_eq_nil : piped ws = [] ↔ ws = [] := by
  constructor
  · intro h
    have hsplit := splitOn_piped ws
    rw [h, List.splitOn_nil] at hsplit
    obtain ⟨stage, hstage, hnil⟩ := List.map_eq_singleton_iff.mp hsplit.symm
    have hempty : stage = [] := by
      by_contra hne
      exact scanned_ne_nil hne hnil
    have hws : [['|']].intercalate (ws.splitOn ['|']) = ws := List.intercalate_splitOn ['|']
    rw [← hws, hstage, hempty]
    rfl
  · rintro rfl
    rfl

/-- **The marks of a line** say how it is cut into pipelines, simple commands and redirections. -/
theorem outline_parse (line : List Text) : (parse line).map outline = cut (treated line) := by
  have hglue : treated line =
      glue ((pieces isEnd line).map fun q => (piped q.1, some (endMark q.2))) := by
    unfold treated glue
    rw [List.flatMap_map]
  have hend (t : Text) : isEndMark (some (endMark t)) = true := by
    unfold endMark
    split_ifs
    · rfl
    · rfl
  have hpieces : pieces isEndMark (treated line) =
      (pieces isEnd line).map fun q => (piped q.1, some (endMark q.2)) := by
    rw [hglue]
    refine pieces_glue fun q hq => ?_
    obtain ⟨q', -, rfl⟩ := List.mem_map.mp hq
    exact ⟨hend q'.2, fun o ho => isEndMark_piped ho⟩
  unfold parse cut
  rw [hpieces, List.filter_map, List.map_map, List.map_map]
  have hfilter : (pieces isEnd line).filter ((fun q => decide (q.1 ≠ [])) ∘
      fun q => (piped q.1, some (endMark q.2))) = (pieces isEnd line).filter fun q => q.1 ≠ [] := by
    refine List.filter_congr fun q _ => ?_
    simp [piped_eq_nil]
  rw [hfilter]
  refine List.map_congr_left fun q _ => ?_
  show (_, _) = (_, _)
  rw [splitOn_piped]
  refine Prod.ext rfl (decide_eq_decide.mpr ?_)
  show q.2 = ['&'] ↔ some (endMark q.2) = some .amp
  unfold endMark
  split_ifs with hamp
  · simp [hamp]
  · simp [hamp]

/-! ### Words that consist of parameters -/

/-- The texts of the parameters that a word consists of, one after the other; `none` if it has any
other character, or a number. -/
def paramText (v : Values) : Text → Option Text
  | [] => some []
  | [c] => if c = '$' then some [] else none
  | c :: d :: rest =>
    if c = '$' ∧ d.isDigit then (paramText v rest).map (v.posParam (d.toNat - 0x30) ++ ·) else none

/-- What a lexeme is treated as: an operator as such, and a word that consists of parameters if
their texts are that of an operator. -/
def stands (v : Values) (operand : Bool) : Lexeme → Option Mark
  | .op c => markAt operand [c]
  | .word yytext => (paramText v yytext).bind (markAt operand)
  | .newline => some .seq

/-- **Two assignments agree on the syntax** of a line: the same words are operators, and the same
ones. The word behind an operator of redirection is a file name, unless it is a separator. -/
def SameSyntax (v v' : Values) : Bool → List Lexeme → Prop
  | _, [] => True
  | operand, l :: ls => stands v operand l = stands v' operand l ∧
      SameSyntax v v' (opens (stands v operand l)) ls

instance decidableSameSyntax (v v' : Values) :
    ∀ (operand : Bool) (ls : List Lexeme), Decidable (SameSyntax v v' operand ls)
  | _, [] => isTrue trivial
  | operand, l :: ls =>
    have := decidableSameSyntax v v' (opens (stands v operand l)) ls
    inferInstanceAs (Decidable (_ ∧ _))

variable {v v' : Values} {yytext text token : Text} {c d : Char} {l : Lexeme} {ls : List Lexeme}

theorem valueOf_digit (h : d.isDigit = true) : valueOf v d = some (v.posParam (d.toNat - 0x30)) := by
  have hne : d ≠ '$' := by
    rintro rfl
    exact absurd h (by decide)
  unfold valueOf
  rw [if_neg hne, if_pos h]

theorem paramText_pair (c d : Char) (rest : Text) : paramText v (c :: d :: rest) =
    if c = '$' ∧ d.isDigit then (paramText v rest).map (v.posParam (d.toNat - 0x30) ++ ·)
    else none := rfl

/-- A word that consists of parameters stands for their texts. -/
theorem expansion_params (h : paramText v yytext = some text) : expansion v yytext = text := by
  induction yytext using List.twoStepInduction generalizing text with
  | nil =>
    obtain rfl := Option.some.inj h
    rfl
  | singleton c =>
    unfold paramText at h
    split_ifs at h with hc
    obtain rfl := Option.some.inj h
    rw [hc]
    rfl
  | cons_cons c d rest ih _ =>
    rw [paramText_pair] at h
    split_ifs at h with hcd
    obtain ⟨tail, htail, rfl⟩ := Option.map_eq_some_iff.mp h
    rw [hcd.1, expansion_value (valueOf_digit hcd.2), ih htail]

theorem isWordChar_decimal (n : ℕ) : ∃ c ∈ decimal n, isWordChar c = true := by
  obtain ⟨c, hc⟩ := List.exists_mem_of_ne_nil _ (Nat.toDigits_ne_nil (n := n) (b := 10))
  refine ⟨c, hc, ?_⟩
  have hdigit : c.isDigit = true := Nat.isDigit_of_mem_toDigits (by decide) (Nat.le_refl _) hc
  unfold isWordChar
  refine decide_eq_true fun hmem => ?_
  simp only [List.mem_cons, List.not_mem_nil, or_false] at hmem
  rcases hmem with rfl | rfl | rfl | rfl | rfl | rfl | rfl | rfl | rfl
  all_goals exact absurd hdigit (by decide)

/-- Any other word stands for a text with a character of a word. -/
theorem expansion_literal (h : paramText v yytext = none)
    (hword : ∀ c ∈ yytext, isWordChar c = true) : ∃ c ∈ expansion v yytext, isWordChar c = true := by
  induction yytext using List.twoStepInduction with
  | nil => exact absurd h (by simp [paramText])
  | singleton c =>
    have hc : c ≠ '$' := by
      rintro rfl
      exact absurd h (by simp [paramText])
    rw [expansion_char hc]
    exact ⟨c, by simp, hword c (by simp)⟩
  | cons_cons c d rest ih _ =>
    by_cases hc : c = '$'
    swap
    · rw [expansion_char hc]
      exact ⟨c, by simp, hword c (by simp)⟩
    subst hc
    cases hd : valueOf v d with
    | none =>
      have hne : d ≠ '$' := by
        rintro rfl
        exact absurd hd (by simp [valueOf])
      rw [expansion_dropped hd, expansion_char hne]
      exact ⟨d, by simp, hword d (by simp)⟩
    | some text =>
      rw [expansion_value hd]
      by_cases hdigit : d.isDigit = true
      · rw [paramText_pair, if_pos ⟨rfl, hdigit⟩, Option.map_eq_none_iff] at h
        obtain ⟨c, hc, hwc⟩ := ih h fun c hc => hword c (by simp [hc])
        exact ⟨c, by simp [hc], hwc⟩
      · obtain ⟨n, rfl⟩ : ∃ n, text = decimal n := by
          unfold valueOf at hd
          split_ifs at hd
          all_goals exact ⟨_, (Option.some.inj hd).symm⟩
        obtain ⟨c, hc, hwc⟩ := isWordChar_decimal n
        exact ⟨c, by simp [hc], hwc⟩

/-- A text with a character of a word is no operator. -/
theorem markAt_literal (h : ∃ c ∈ text, isWordChar c = true) : markAt operand text = none := by
  obtain ⟨c, hc, hword⟩ := h
  have hne (d : Char) (hd : isWordChar d = false) : text ≠ [d] := by
    rintro rfl
    rw [List.mem_singleton.mp hc, hd] at hword
    exact absurd hword (by simp)
  have hsep : separator text = none := by
    refine separator_eq_none (decide_eq_false ?_) (hne '|' (by decide))
    rintro (h | h | h)
    · exact hne ';' (by decide) h
    · exact hne '\n' (by decide) h
    · exact hne '&' (by decide) h
  have hred : redirector text = none := by
    unfold redirector redirection
    rw [if_neg (hne '<' (by decide)), if_neg (hne '>' (by decide))]
    rfl
  cases operand with
  | false => rw [markAt_word hsep, hred]
  | true => exact markAt_operand hsep

/-- **What the token of a lexeme is treated as.** -/
theorem markAt_image (hl : ∀ yytext, l = .word yytext → ∀ c ∈ yytext, isWordChar c = true) :
    markAt operand (image v l) = stands v operand l := by
  cases l with
  | op c => rfl
  | newline => exact markAt_separator rfl
  | word yytext =>
    show markAt operand (expansion v yytext) = (paramText v yytext).bind (markAt operand)
    cases h : paramText v yytext with
    | none => exact markAt_literal (expansion_literal h (hl yytext rfl))
    | some text =>
      rw [expansion_params h]
      rfl

/-- The words of a line consist of characters of words. -/
theorem isWordChar_lexemes (hacc : ∀ c ∈ yytext, isWordChar c = true)
    (hl : Lexeme.word token ∈ lexemes yytext text) : ∀ c ∈ token, isWordChar c = true := by
  have hflush (w : Text) (h : Lexeme.word token ∈ flush w) : token = w := by
    unfold flush at h
    split_ifs at h
    · exact absurd h (by simp)
    · simpa using h
  have hsingle (c : Char) : Lexeme.word token ∉ single c := by
    unfold single
    split_ifs <;> simp
  induction text generalizing yytext with
  | nil => exact hflush yytext hl ▸ hacc
  | cons c cs ih =>
    unfold lexemes at hl
    split_ifs at hl with hc
    · refine ih (fun d hd => ?_) hl
      rcases List.mem_append.mp hd with hd | hd
      · exact hacc d hd
      · rw [List.mem_singleton.mp hd]
        exact hc
    · rcases List.mem_append.mp hl with hl | hl
      · rcases List.mem_append.mp hl with hl | hl
        · exact hflush yytext hl ▸ hacc
        · exact absurd hl (hsingle c)
      · exact ih (by simp) hl

/-- **The syntax of a line** is the same under two assignments if they agree on it. -/
theorem treatFrom_image
    (hls : ∀ l ∈ ls, ∀ yytext, l = .word yytext → ∀ c ∈ yytext, isWordChar c = true) :
    treatFrom operand (ls.map (image v)) = treatFrom operand (ls.map (image v')) ↔
      SameSyntax v v' operand ls := by
  induction ls generalizing operand with
  | nil => exact ⟨fun _ => trivial, fun _ => rfl⟩
  | cons l ls ih =>
    have hl := hls l (by simp)
    rw [List.map_cons, List.map_cons, treatFrom, treatFrom, markAt_image hl, markAt_image hl,
      List.cons.injEq]
    refine and_congr_right fun hsame => ?_
    rw [← hsame]
    exact ih fun l' hl' => hls l' (by simp [hl'])

/-! ### Two runs -/

/-- **The line is cut in the same way** under two assignments: the lexer puts its tokens into the
array, and the same of them are treated as syntax. -/
def CutAlike (v v' : Values) (line : Text) (s s' : Mysh) : Prop :=
  ∃ t t', gather v (lexemes [] (line ++ ['\n'])) s = .ok t ∧
    gather v' (lexemes [] (line ++ ['\n'])) s' = .ok t' ∧
      treated (slice t.tokens TOKENSZ 0) = treated (slice t'.tokens TOKENSZ 0)

/-- The tokens of a line, and what is treated as syntax in them. -/
theorem treated_gather {s t : Mysh} {line : Text} (hline : '\n' ∉ line) (hs : s.tokCnt = 0)
    (hfits : Fits v (lexemes [] (line ++ ['\n'])))
    (ht : gather v (lexemes [] (line ++ ['\n'])) s = .ok t) :
    treated (slice t.tokens TOKENSZ 0) =
      treatFrom false ((lexemes [] (line ++ ['\n'])).map (image v)) := by
  obtain ⟨t', ht', hholds, -⟩ := gather_eq hline hs hfits
  obtain rfl := Except.ok.inj (ht.symm.trans ht')
  rw [show slice t.tokens TOKENSZ 0 = _ from hholds.slice, lexemes_newline, List.map_append]
  exact treated_eq _

/-- **Data becomes syntax** exactly in the words that consist of parameters, on which the two
assignments have to agree. -/
theorem cut_alike {env env' : Env} {s s' : Mysh} {line : Text} (hline : '\n' ∉ line)
    (hs : Prompt env s) (hs' : Prompt env' s') : CutAlike v v' line s s' ↔
      Fits v (lexemes [] (line ++ ['\n'])) ∧ Fits v' (lexemes [] (line ++ ['\n'])) ∧
        SameSyntax v v' false (lexemes [] (line ++ ['\n'])) := by
  have hwords : ∀ l ∈ lexemes [] (line ++ ['\n']), ∀ yytext, l = .word yytext →
      ∀ c ∈ yytext, isWordChar c = true := by
    rintro l hl yytext rfl
    exact isWordChar_lexemes (by simp) hl
  constructor
  · rintro ⟨t, t', ht, ht', hsame⟩
    have hfits : Fits v (lexemes [] (line ++ ['\n'])) := by
      by_contra hfits
      rw [gather_overflow hline hs.tokCnt hfits] at ht
      exact absurd ht (by simp)
    have hfits' : Fits v' (lexemes [] (line ++ ['\n'])) := by
      by_contra hfits
      rw [gather_overflow hline hs'.tokCnt hfits] at ht'
      exact absurd ht' (by simp)
    rw [treated_gather hline hs.tokCnt hfits ht, treated_gather hline hs'.tokCnt hfits' ht'] at hsame
    exact ⟨hfits, hfits', (treatFrom_image hwords).mp hsame⟩
  · rintro ⟨hfits, hfits', hsame⟩
    obtain ⟨t, ht, -⟩ := gather_eq hline hs.tokCnt hfits
    obtain ⟨t', ht', -⟩ := gather_eq hline hs'.tokCnt hfits'
    refine ⟨t, t', ht, ht', ?_⟩
    rw [treated_gather hline hs.tokCnt hfits ht, treated_gather hline hs'.tokCnt hfits' ht']
    exact (treatFrom_image hwords).mpr hsame

/-- `mysh` was called with the argument `param`. -/
def withParam (param : Text) (pid : ℕ) : Values := ⟨fun i => if i = 1 then param else [], pid, 2, 0⟩

/-- `echo $1>$$` with two names. -/
theorem cut_alike_names : CutAlike (withParam ['a'] 42) (withParam ['b', 'c'] 43)
    ['e', 'c', 'h', 'o', ' ', '$', '1', '>', '$', '$'] (holding []) (holding []) :=
  (cut_alike (by decide) (prompt_holding i686) (prompt_holding i686)).mpr
    ⟨⟨by decide, by decide⟩, ⟨by decide, by decide⟩, by decide⟩

/-- `echo $1` is two commands if the parameter is `;`. -/
theorem not_cut_alike : ¬ CutAlike (withParam ['a'] 42) (withParam [';'] 42)
    ['e', 'c', 'h', 'o', ' ', '$', '1'] (holding []) (holding []) := by
  rintro ⟨t, t', ht, ht', hsame⟩
  rw [treated_gather (by decide) rfl ⟨by decide, by decide⟩ ht,
    treated_gather (by decide) rfl ⟨by decide, by decide⟩ ht'] at hsame
  exact absurd hsame (by decide)

end LinuxHomework.Shell.Syntax
