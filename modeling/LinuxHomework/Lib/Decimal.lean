import Mathlib.Data.List.TakeWhile
import Mathlib.Tactic.Basic

/-! # Numbers in decimal

The digits of a text are the longest row of them at its start. -/

namespace LinuxHomework.Lib.Decimal

def isDigit (b : UInt8) : Bool := 48 ≤ b && b ≤ 57

/-- The number with these digits. -/
def number (ds : List UInt8) : ℕ := ds.foldl (fun v b => 10 * v + (b.toNat - 48)) 0

variable {text rest : List UInt8}

theorem number_concat (ds : List UInt8) (b : UInt8) :
    number (ds ++ [b]) = 10 * number ds + (b.toNat - 48) := by
  unfold number
  rw [List.foldl_append, List.foldl_cons, List.foldl_nil]

/-- The row of digits is shorter than the text if the text has another byte. -/
theorem length_takeWhile_lt (h : ∃ b ∈ text, ¬ isDigit b) :
    (text.takeWhile isDigit).length < text.length := by
  obtain ⟨b, hb, hnot⟩ := h
  have hle := (List.takeWhile_prefix (l := text) isDigit).length_le
  refine lt_of_le_of_ne hle fun heq => hnot ?_
  have hall := (List.takeWhile_prefix (l := text) isDigit).eq_of_length heq
  rw [← hall] at hb
  exact List.mem_takeWhile_imp hb

/-- **Where the row ends inside the text**, nothing depends on what is behind the text. -/
theorem takeWhile_append (h : ∃ b ∈ text, ¬ isDigit b) :
    (text ++ rest).takeWhile isDigit = text.takeWhile isDigit := by
  have hlt := length_takeWhile_lt h
  rw [List.takeWhile_append, if_neg (by omega)]

end LinuxHomework.Lib.Decimal
