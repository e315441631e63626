import LinuxHomework.Shell.Lexer
import Mathlib.Tactic.IntervalCases

/-! # Expansion is compositional

`expand` reads a word once, from left to right, and what it has written it does not read again. So
the expansion of two words put together is that of the first and then that of the second, unless the
first ends on a `$` that takes the beginning of the second.

* `expansion_append`: the text of the expansion.
* `expands_iff`: what `expand` leaves in the static buffer, whatever the buffer held.
* `expand_compositional`: the two together, with the plain words and the values. -/

namespace LinuxHomework.Shell.Expand

open LinuxHomework.Lib.Buffer LinuxHomework.Lib.Outcome LinuxHomework.Shell.Commands
open LinuxHomework.Shell.Lexer

/-! ### Words, their results and their values -/

/-- `main()`: `pos_param` and `ARGC`. -/
def mainValues (argv : List Text) (pid exitStatus : ℕ) : Values :=
  ⟨fun i => if i < argv.length then argv.getD i [] else [], pid, argv.length, exitStatus⟩

/-- `expand` makes `result` of the word, whatever bytes the static buffer holds. -/
def Expands (v : Values) (word result : Text) : Prop :=
  ∀ buf, ∃ buf', expand v word buf = .ok buf' ∧ cString TOKENSZ buf' = some result

/-- A character that a `$` before it takes. -/
def taken (d : Char) : Bool := d = '$' || d.isDigit || d = '#' || d = '?'

/-- The scan of the word ends on a `$` that has taken nothing. -/
def endsOnDollar : Text → Bool
  | [] => false
  | c :: token =>
    if c = '$' then
      match token with
      | [] => true
      | d :: rest => if taken d then endsOnDollar rest else endsOnDollar (d :: rest)
    else endsOnDollar token

/-- What `$$`, `$#`, `$?` and `$0` to `$9` stand for. -/
inductive Stands (v : Values) : Char → Text → Prop
  | pid : Stands v '$' (decimal v.pid)
  | argc : Stands v '#' (decimal v.argc)
  | exitStatus : Stands v '?' (decimal v.exitStatus)
  | posParam (i : ℕ) (hi : i < 10) : Stands v (Nat.digitChar i) (v.posParam i)

variable {v : Values} {s t word result text S T : Text} {d : Char}

theorem taken_eq (v : Values) (d : Char) : taken d = (valueOf v d).isSome := by
  unfold taken valueOf
  split_ifs <;> simp_all

theorem valueOf_of_stands (h : Stands v d text) : valueOf v d = some text := by
  cases h with
  | pid => rfl
  | argc => rfl
  | exitStatus => rfl
  | posParam i hi =>
    interval_cases i <;> rfl

/-- **What the static buffer holds** after `expand`. -/
theorem expands_iff :
    Expands v word result ↔ result = expansion v word ∧ (expansion v word).length < TOKENSZ := by
  constructor
  · intro h
    obtain ⟨buf, hrun, hstr⟩ := h fun _ => none
    rcases expand_cases v word fun _ => none with ⟨buf', hrun', hstr', hfit⟩ | ⟨hrun', -⟩
    · obtain rfl := Except.ok.inj (hrun.symm.trans hrun')
      exact ⟨Option.some.inj (hstr.symm.trans hstr'), hfit⟩
    · rw [hrun] at hrun'
      cases hrun'
  · rintro ⟨rfl, hfit⟩ buf
    rcases expand_cases v word buf with ⟨buf', hrun, hstr, -⟩ | ⟨-, hfull⟩
    · exact ⟨buf', hrun, hstr⟩
    · omega

/-! ### The text of the expansion -/

/-- **The expansion of two words put together.** -/
theorem expansion_append (h : endsOnDollar s = true → ∀ d ∈ t.head?, taken d = false) :
    expansion v (s ++ t) = expansion v s ++ expansion v t := by
  induction s using expansion.induct v with
  | case1 => rfl
  | case2 =>
    cases t with
    | nil => rfl
    | cons d rest =>
      have hd : valueOf v d = none := by
        have := h rfl d rfl
        rw [taken_eq v] at this
        simpa using this
      exact expansion_dropped hd rest
  | case3 d rest text hd ih =>
    have htaken : taken d = true := by rw [taken_eq v, hd]; rfl
    rw [List.cons_append, List.cons_append, expansion_value hd, expansion_value hd, ih,
      List.append_assoc]
    intro hend
    refine h ?_
    rw [endsOnDollar, if_pos rfl]
    simpa [htaken] using hend
  | case4 d rest hd ih =>
    have htaken : taken d = false := by rw [taken_eq v, hd]; rfl
    rw [List.cons_append, List.cons_append, expansion_dropped hd, expansion_dropped hd,
      ← List.cons_append, ih]
    intro hend
    refine h ?_
    rw [endsOnDollar, if_pos rfl]
    simpa [htaken] using hend
  | case5 c token hc ih =>
    rw [List.cons_append, expansion_char hc, expansion_char hc, ih, List.cons_append]
    intro hend
    refine h ?_
    unfold endsOnDollar
    rw [if_neg hc]
    exact hend

/-- A word without `$` is its own expansion. -/
theorem expansion_plain (h : '$' ∉ word) : expansion v word = word := by
  induction word with
  | nil => rfl
  | cons c word ih =>
    rw [List.mem_cons, not_or] at h
    rw [expansion_char (Ne.symm h.1), ih h.2]

/-! ### `expand` -/

theorem expands_append (hs : Expands v s S) (ht : Expands v t T) (hfit : (S ++ T).length < TOKENSZ)
    (hjoin : endsOnDollar s = true → ∀ d ∈ t.head?, taken d = false) :
    Expands v (s ++ t) (S ++ T) := by
  obtain ⟨rfl, -⟩ := expands_iff.mp hs
  obtain ⟨rfl, -⟩ := expands_iff.mp ht
  rw [expands_iff, expansion_append hjoin]
  exact ⟨rfl, hfit⟩

theorem expands_plain (hfit : word.length < TOKENSZ) (h : '$' ∉ word) : Expands v word word := by
  rw [expands_iff, expansion_plain h]
  exact ⟨rfl, hfit⟩

/-- **A value** comes into the result as it is. -/
theorem expands_value (hd : Stands v d text) (hs : Expands v s S) (ht : Expands v t T)
    (hend : endsOnDollar s = false) (hfit : (S ++ text ++ T).length < TOKENSZ) :
    Expands v (s ++ '$' :: d :: t) (S ++ text ++ T) := by
  have hvalue : Expands v ('$' :: d :: t) (text ++ T) := by
    obtain ⟨rfl, -⟩ := expands_iff.mp ht
    rw [expands_iff, expansion_value (valueOf_of_stands hd)]
    refine ⟨rfl, ?_⟩
    rw [List.append_assoc, List.length_append] at hfit
    omega
  rw [List.append_assoc] at hfit ⊢
  refine expands_append hs hvalue hfit fun h => ?_
  rw [hend] at h
  cases h

/-- **`expand` is compositional and reads once**: words put together, plain words, and values, which
may themselves contain any `$`. -/
theorem expand_compositional (v : Values) :
    (∀ s t S T, Expands v s S → Expands v t T → (S ++ T).length < TOKENSZ →
      (endsOnDollar s = true → ∀ d ∈ t.head?, taken d = false) → Expands v (s ++ t) (S ++ T)) ∧
    (∀ word : Text, word.length < TOKENSZ → '$' ∉ word → Expands v word word) ∧
    ∀ d text, Stands v d text → ∀ s t S T, Expands v s S → Expands v t T →
      endsOnDollar s = false → (S ++ text ++ T).length < TOKENSZ →
        Expands v (s ++ '$' :: d :: t) (S ++ text ++ T) := by
  refine ⟨fun s t S T hs ht hfit hjoin => expands_append hs ht hfit hjoin,
    fun word hfit h => expands_plain hfit h, ?_⟩
  intro d text hd s t S T hs ht hend hfit
  exact expands_value hd hs ht hend hfit

/-- `mysh` was called with the argument `$0$`. -/
def dollarParam : Values := mainValues [['m', 'y', 's', 'h'], ['$', '0', '$']] 42 0

/-- The text of the argument is not read again, and what comes behind it does not go with it. -/
theorem expand_compositional_param :
    Expands dollarParam ['a', '$', '1', '0', '.', 'c'] ['a', '$', '0', '$', '0', '.', 'c'] :=
  (expand_compositional dollarParam).2.2 '1' ['$', '0', '$'] (.posParam 1 (by decide)) ['a']
    ['0', '.', 'c'] ['a'] ['0', '.', 'c'] (expands_plain (by decide) (by decide))
    (expands_plain (by decide) (by decide)) rfl (by decide)

end LinuxHomework.Shell.Expand
