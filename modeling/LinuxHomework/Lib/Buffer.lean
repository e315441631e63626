import Mathlib.Data.List.Basic
import Mathlib.Tactic.Basic

/-! # Strings in a buffer

A buffer of memory: `none` is the element that ends a string. Nothing is assumed about what the
buffer held before.

* `Begins.paste`, `Begins.store`: how the string at the start of the buffer grows.
* `isSome_cString_iff`: whether there is one.
* `strlen_eq`, `cString_eq`: where it ends, and what it is. -/

namespace LinuxHomework.Lib.Buffer

variable {α : Type*} {buf : ℕ → Option α} {l text : List α} {a : α} {i n size : ℕ}

/-- The buffer begins with `l`. -/
def Begins (buf : ℕ → Option α) (l : List α) : Prop := ∀ i < l.length, buf i = l[i]?

/-- A string, with its end, is put at place `n`. -/
def paste (buf : ℕ → Option α) (n : ℕ) (text : List α) : ℕ → Option α :=
  fun i => if n ≤ i ∧ i ≤ n + text.length then text[i - n]? else buf i

/-- The length of the string at the start of a buffer of the given size. -/
def strlen (size : ℕ) (buf : ℕ → Option α) : Option ℕ :=
  (List.range size).find? fun i => (buf i).isNone

/-- The string at the start of the buffer. -/
def cString (size : ℕ) (buf : ℕ → Option α) : Option (List α) :=
  (strlen size buf).map fun n => (List.range n).filterMap buf

/-- There is a string if something ends it inside the buffer. -/
theorem isSome_cString_iff : (cString size buf).isSome ↔ ∃ i < size, buf i = none := by
  unfold cString strlen
  rw [Option.isSome_map, List.find?_isSome]
  simp only [List.mem_range, Option.isNone_iff_eq_none]

theorem begins_nil : Begins buf [] := fun i hi => absurd hi (by simp)

theorem Begins.paste (h : Begins buf l) : Begins (paste buf l.length text) (l ++ text) := by
  intro i hi
  rw [List.length_append] at hi
  unfold Buffer.paste
  by_cases hl : i < l.length
  · rw [if_neg (by omega), h i hl, List.getElem?_append_left hl]
  · rw [if_pos (by omega), List.getElem?_append_right (by omega)]

theorem paste_end : paste buf n text (n + text.length) = none := by
  unfold paste
  rw [if_pos (by omega), Nat.add_sub_cancel_left]
  exact List.getElem?_eq_none (Nat.le_refl _)

/-- One element is stored behind the string. -/
theorem Begins.store (h : Begins buf l) :
    Begins (Function.update buf l.length (some a)) (l ++ [a]) := by
  intro i hi
  rw [List.length_append, List.length_singleton] at hi
  by_cases hl : i = l.length
  · rw [hl, Function.update_self, List.getElem?_concat_length]
  · rw [Function.update_of_ne hl, h i (by omega), List.getElem?_append_left (by omega)]

/-- The string is ended. -/
theorem Begins.stop (h : Begins buf l) : Begins (Function.update buf l.length none) l := by
  intro i hi
  rw [Function.update_of_ne (by omega)]
  exact h i hi

theorem strlen_eq (h : Begins buf l) (hend : buf l.length = none) (hlt : l.length < size) :
    strlen size buf = some l.length := by
  refine List.find?_range_eq_some.mpr ⟨by rw [hend]; rfl, List.mem_range.mpr hlt, fun i hi => ?_⟩
  rw [h i hi, List.getElem?_eq_getElem hi]
  rfl

theorem cString_eq (h : Begins buf l) (hend : buf l.length = none) (hlt : l.length < size) :
    cString size buf = some l := by
  unfold cString
  rw [strlen_eq h hend hlt, Option.map_some]
  refine congrArg some ?_
  have hread : ∀ n ≤ l.length, (List.range n).filterMap buf = l.take n := by
    intro n hn
    induction n with
    | zero => rfl
    | succ n ih =>
      have hget : buf n = some l[n] := by rw [h n (by omega), List.getElem?_eq_getElem (by omega)]
      rw [List.range_succ, List.filterMap_append, ih (by omega), List.take_add_one,
        ← h n (by omega), hget]
      simp [hget]
  rw [hread l.length (Nat.le_refl _), List.take_length]

end LinuxHomework.Lib.Buffer
