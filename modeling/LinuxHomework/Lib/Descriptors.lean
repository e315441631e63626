import Mathlib.Data.List.Basic
import Mathlib.Logic.Function.Basic
import Mathlib.Tactic.Basic

/-! # Descriptor tables

The table of open files of a process: a descriptor refers to an open file or to none. Open files are
numbered in the order in which they are made, so an open file of a table is never one that is made
later (`Table.old`). A new descriptor is the lowest free one. -/

namespace LinuxHomework.Lib.Descriptors

variable {κ : Type*}

/-- An open file, of some kind. -/
structure OpenFile (κ : Type*) where
  num : ℕ
  kind : κ
deriving DecidableEq

/-- **A descriptor table**. No descriptor from `top` on is open; `made` is the number of the open
file that is made next. -/
structure Table (κ : Type*) where
  file : ℕ → Option (OpenFile κ)
  top : ℕ
  made : ℕ
  closed : ∀ fd, top ≤ fd → file fd = none
  old : ∀ fd f, file fd = some f → f.num < made

namespace Table

variable {T : Table κ} {a b fd : ℕ} {k : κ}

/-- The lowest free descriptor. -/
def free (T : Table κ) : ℕ :=
  ((List.range T.top).find? fun fd => (T.file fd).isNone).getD T.top

theorem file_free (T : Table κ) : T.file T.free = none := by
  unfold free
  cases h : (List.range T.top).find? fun fd => (T.file fd).isNone with
  | none => exact T.closed _ (Nat.le_refl _)
  | some fd => simpa using List.find?_some h

theorem isSome_of_lt_free (h : fd < T.free) : (T.file fd).isSome := by
  unfold free at h
  by_contra hno
  have hnone : (T.file fd).isNone = true := by simpa using hno
  cases hfind : (List.range T.top).find? fun fd => (T.file fd).isNone with
  | none =>
    rw [hfind] at h
    exact List.find?_eq_none.mp hfind fd (List.mem_range.mpr h) hnone
  | some b =>
    rw [hfind] at h
    have hbefore := (List.find?_range_eq_some.mp hfind).2.2 fd h
    rw [hnone] at hbefore
    exact absurd hbefore (by decide)

/-- If the descriptors below `n` are open, the lowest free one is not below `n`. -/
theorem le_free {n : ℕ} (h : ∀ fd < n, (T.file fd).isSome) : n ≤ T.free := by
  by_contra hlt
  have := h T.free (by omega)
  rw [T.file_free] at this
  exact absurd this (by simp)

/-- A free descriptor below which all are open is the lowest one. -/
theorem free_eq (hfd : T.file fd = none) (h : ∀ b < fd, (T.file b).isSome) : T.free = fd := by
  refine Nat.le_antisymm ?_ (le_free h)
  by_contra hlt
  have := isSome_of_lt_free (T := T) (show fd < T.free by omega)
  rw [hfd] at this
  exact absurd this (by simp)

/-- `close`. -/
def close (T : Table κ) (fd : ℕ) : Table κ where
  file := Function.update T.file fd none
  top := T.top
  made := T.made
  closed b hb := by
    by_cases h : b = fd
    · rw [h, Function.update_self]
    · rw [Function.update_of_ne h, T.closed b hb]
  old b f hf := by
    by_cases h : b = fd
    · rw [h, Function.update_self] at hf
      exact absurd hf (by simp)
    · rw [Function.update_of_ne h] at hf
      exact T.old b f hf

/-- `dup2`: `b` refers to what `a` refers to. If `a` is not open, nothing happens. -/
def dup2 (T : Table κ) (a b : ℕ) : Table κ where
  file := if (T.file a).isSome then Function.update T.file b (T.file a) else T.file
  top := max T.top (b + 1)
  made := T.made
  closed fd hfd := by
    have hT := T.closed fd (by omega)
    split
    · rw [Function.update_of_ne (by omega), hT]
    · exact hT
  old fd f hf := by
    split at hf
    · by_cases h : fd = b
      · rw [h, Function.update_self] at hf
        exact T.old a f hf
      · rw [Function.update_of_ne h] at hf
        exact T.old fd f hf
    · exact T.old fd f hf

/-- A new open file, on the lowest free descriptor. -/
def create (T : Table κ) (k : κ) : Table κ where
  file := Function.update T.file T.free (some ⟨T.made, k⟩)
  top := max T.top (T.free + 1)
  made := T.made + 1
  closed fd hfd := by rw [Function.update_of_ne (by omega), T.closed fd (by omega)]
  old fd f hf := by
    by_cases h : fd = T.free
    · rw [h, Function.update_self] at hf
      obtain rfl := Option.some.inj hf
      exact Nat.lt_succ_self _
    · rw [Function.update_of_ne h] at hf
      exact Nat.lt_succ_of_lt (T.old fd f hf)

@[simp] theorem made_close : (T.close fd).made = T.made := rfl

@[simp] theorem made_dup2 : (T.dup2 a b).made = T.made := rfl

@[simp] theorem made_create : (T.create k).made = T.made + 1 := rfl

@[simp] theorem file_close_self : (T.close fd).file fd = none := Function.update_self ..

theorem file_close (h : b ≠ fd) : (T.close fd).file b = T.file b := Function.update_of_ne h ..

theorem file_dup2_self (h : (T.file a).isSome) : (T.dup2 a b).file b = T.file a := by
  unfold dup2
  simp only [h, if_true, Function.update_self]

theorem file_dup2 (h : fd ≠ b) : (T.dup2 a b).file fd = T.file fd := by
  unfold dup2
  dsimp only
  split
  · exact Function.update_of_ne h ..
  · rfl

@[simp] theorem file_create_free : (T.create k).file T.free = some ⟨T.made, k⟩ :=
  Function.update_self ..

theorem file_create (h : fd ≠ T.free) : (T.create k).file fd = T.file fd :=
  Function.update_of_ne h ..

end Table

end LinuxHomework.Lib.Descriptors
