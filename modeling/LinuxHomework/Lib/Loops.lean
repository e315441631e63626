import Mathlib.Data.Nat.Basic
import Mathlib.Tactic.Basic

/-! # Loops

A loop is given by what its next turn does in a state: it leaves the loop with a value, it stops
with an error, or it goes on in another state. `loop turn n s` takes `n` turns at most, from the
state `s`, and is `none` if these are not enough.

* `exists_leave_of_loop`: the invariant of a loop holds where the loop is left.
* `loop_of_variant`: a loop whose turns decrease a measure comes to its end. -/

namespace LinuxHomework.Lib.Loops

variable {ε σ α : Type*}

/-- What a turn does. -/
inductive Turn (ε σ α : Type*)
  | leave (v : α)
  | stop (e : ε)
  | next (s : σ)

/-- The loop, for `n` turns at most. -/
def loop (turn : σ → Turn ε σ α) : ℕ → σ → Option (Except ε α)
  | 0, _ => none
  | n + 1, s =>
    match turn s with
    | .leave v => some (.ok v)
    | .stop e => some (.error e)
    | .next s' => loop turn n s'

variable {turn : σ → Turn ε σ α} {I : σ → Prop} {s s' : σ} {v : α} {n : ℕ}

theorem loop_leave (h : turn s = .leave v) : loop turn (n + 1) s = some (.ok v) := by
  rw [loop, h]

theorem loop_next (h : turn s = .next s') : loop turn (n + 1) s = loop turn n s' := by
  rw [loop, h]

/-- **The invariant rule.** A loop is left in a state that satisfies what its turns preserve. -/
theorem exists_leave_of_loop (hI : ∀ s s', I s → turn s = .next s' → I s') (hs : I s)
    (h : loop turn n s = some (.ok v)) : ∃ s', I s' ∧ turn s' = .leave v := by
  induction n generalizing s with
  | zero => exact absurd h (by simp [loop])
  | succ n ih =>
    cases hturn : turn s with
    | leave w =>
      rw [loop_leave hturn] at h
      obtain rfl : w = v := by simpa using h
      exact ⟨s, hs, hturn⟩
    | stop e => exact absurd h (by simp [loop, hturn])
    | next s' =>
      rw [loop_next hturn] at h
      exact ih (hI s s' hs hturn) h

/-- **The variant rule.** A loop that does not stop, and whose turns decrease a measure, is left. -/
theorem loop_of_variant (μ : σ → ℕ) (hI : ∀ s, I s →
    (∃ v, turn s = .leave v) ∨ ∃ s', turn s = .next s' ∧ I s' ∧ μ s' < μ s) (hs : I s)
    (hn : μ s < n) : ∃ v, loop turn n s = some (.ok v) := by
  induction n generalizing s with
  | zero => omega
  | succ n ih =>
    rcases hI s hs with ⟨v, hturn⟩ | ⟨s', hturn, hs', hlt⟩
    · exact ⟨v, loop_leave hturn⟩
    · rw [loop_next hturn]
      exact ih hs' (by omega)

end LinuxHomework.Lib.Loops
