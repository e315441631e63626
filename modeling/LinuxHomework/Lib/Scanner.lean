import Mathlib.Data.List.TakeWhile
import Mathlib.Tactic.Basic

/-! # Longest-match scanners

A scanner is a list of rules. At every place it takes the longest text that some rule accepts, and
of the rules that accept this text the first one. It stops when the input is used up, and is jammed
when no rule accepts anything.

* `scan_eq`: one step of the scanner, if a rule is seen to win with a text and nothing longer is
  accepted.
* `scanFrom`, `scanFrom_eq`: a scanner with start conditions, which say what the rules are, and
  which the actions may change. -/

namespace LinuxHomework.Lib.Scanner

variable {α τ : Type*}

/-- A rule: the texts it accepts, and what is made of such a text. -/
structure Rule (α τ : Type*) where
  accepts : List α → Bool
  action : List α → τ

/-- The first rule that accepts the text. -/
def winner (rules : List (Rule α τ)) (text : List α) : Option (Rule α τ) :=
  rules.find? fun r => r.accepts text

/-- The longest beginning of the input, of `n` elements at most, that a rule accepts: its length,
and the rule. -/
def longest (rules : List (Rule α τ)) (input : List α) : ℕ → Option (ℕ × Rule α τ)
  | 0 => none
  | n + 1 =>
    match winner rules (input.take (n + 1)) with
    | some r => some (n + 1, r)
    | none => longest rules input n

variable {rules : List (Rule α τ)} {input text rest : List α} {n m : ℕ} {r : Rule α τ} {a : α}

theorem longest_pos (h : longest rules input n = some (m, r)) : 0 < m := by
  induction n with
  | zero => cases h
  | succ n ih =>
    unfold longest at h
    split at h
    · obtain rfl := (Prod.mk.inj (Option.some.inj h)).1
      omega
    · exact ih h

/-- **The scanner.** -/
def scan (rules : List (Rule α τ)) (input : List α) : Option (List τ) :=
  if input = [] then some []
  else
    match _h : longest rules input input.length with
    | none => none
    | some (m, r) => (scan rules (input.drop m)).map fun out => r.action (input.take m) :: out
termination_by input.length
decreasing_by
  have := longest_pos ‹longest rules input input.length = some (m, r)›
  have := List.length_pos_iff.mpr ‹input ≠ []›
  rw [List.length_drop]
  omega

@[simp] theorem scan_nil : scan rules [] = some [] := by
  unfold scan
  rfl

/-- What is longer than the accepted texts is passed over. -/
theorem longest_eq (hm : 0 < m) (hmn : m ≤ n) (hwin : winner rules (input.take m) = some r)
    (hlong : ∀ k, m < k → k ≤ n → winner rules (input.take k) = none) :
    longest rules input n = some (m, r) := by
  induction n with
  | zero => omega
  | succ n ih =>
    unfold longest
    by_cases heq : m = n + 1
    · rw [← heq, hwin]
    · rw [hlong (n + 1) (by omega) (Nat.le_refl _)]
      exact ih (by omega) fun k hk hkn => hlong k hk (by omega)

/-- What is longest if a rule is seen to win with a text and nothing longer is accepted. -/
theorem longest_append (hne : text ≠ []) (hwin : winner rules text = some r)
    (hlong : ∀ more, more ≠ [] → more <+: rest → winner rules (text ++ more) = none) :
    longest rules (text ++ rest) (text ++ rest).length = some (text.length, r) := by
  have hlen := List.length_pos_iff.mpr hne
  have htake : ∀ k, (text ++ rest).take (text.length + k) = text ++ rest.take k := by
    intro k
    rw [List.take_append, List.take_of_length_le (by omega), Nat.add_sub_cancel_left]
  have hfirst : (text ++ rest).take text.length = text := List.take_left
  refine longest_eq hlen (by simp) (by rw [hfirst, hwin]) fun k hk hkn => ?_
  rw [List.length_append] at hkn
  obtain ⟨j, rfl⟩ := Nat.exists_eq_add_of_lt hk
  rw [Nat.add_assoc, htake]
  refine hlong _ ?_ (List.take_prefix _ _)
  rw [← List.length_pos_iff, List.length_take]
  omega

/-- **One step of the scanner.** -/
theorem scan_eq (hne : text ≠ []) (hwin : winner rules text = some r)
    (hlong : ∀ more, more ≠ [] → more <+: rest → winner rules (text ++ more) = none) :
    scan rules (text ++ rest) = (scan rules rest).map fun out => r.action text :: out := by
  have hstep := longest_append hne hwin hlong
  have hfirst : (text ++ rest).take text.length = text := List.take_left
  rw [scan, if_neg (by simp [hne])]
  split
  · rename_i h
    rw [hstep] at h
    cases h
  · rename_i h
    obtain ⟨rfl, rfl⟩ := Prod.mk.inj (Option.some.inj (hstep.symm.trans h))
    rw [hfirst, List.drop_left]

/-! ### Start conditions -/

variable {κ : Type*} {crules : κ → List (Rule α (τ × κ))} {q : κ} {cr : Rule α (τ × κ)}

/-- **A scanner with start conditions**: what is made of the input, and the condition at its end. -/
def scanFrom (crules : κ → List (Rule α (τ × κ))) (q : κ) (input : List α) :
    Option (List τ × κ) :=
  if input = [] then some ([], q)
  else
    match _h : longest (crules q) input input.length with
    | none => none
    | some (m, r) =>
      (scanFrom crules (r.action (input.take m)).2 (input.drop m)).map fun out =>
        ((r.action (input.take m)).1 :: out.1, out.2)
termination_by input.length
decreasing_by
  have := longest_pos ‹longest (crules q) input input.length = some (m, r)›
  have := List.length_pos_iff.mpr ‹input ≠ []›
  rw [List.length_drop]
  omega

@[simp] theorem scanFrom_nil : scanFrom crules q [] = some ([], q) := by
  unfold scanFrom
  rfl

/-- One step of a scanner with start conditions. -/
theorem scanFrom_eq (hne : text ≠ []) (hwin : winner (crules q) text = some cr)
    (hlong : ∀ more, more ≠ [] → more <+: rest → winner (crules q) (text ++ more) = none) :
    scanFrom crules q (text ++ rest) = (scanFrom crules (cr.action text).2 rest).map fun out =>
      ((cr.action text).1 :: out.1, out.2) := by
  have hstep := longest_append hne hwin hlong
  have hfirst : (text ++ rest).take text.length = text := List.take_left
  rw [scanFrom, if_neg (by simp [hne])]
  split
  · rename_i h
    rw [hstep] at h
    cases h
  · rename_i h
    obtain ⟨rfl, rfl⟩ := Prod.mk.inj (Option.some.inj (hstep.symm.trans h))
    rw [hfirst, List.drop_left]

end LinuxHomework.Lib.Scanner
