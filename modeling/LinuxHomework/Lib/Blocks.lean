import Mathlib.Data.List.Basic
import Mathlib.Logic.Function.Basic
import Mathlib.Tactic.Basic

/-! # Blocks of a heap

A heap of blocks that are allocated and freed. Blocks are numbered in the order in which they are
allocated, and a number is not used again: a block that was allocated and is not there any more has
been freed, and only once, for nothing can be done with it afterwards (`free`, `write`).

* `malloc_block`, `free_block`, `write_block`: what an operation does to each block. -/

namespace LinuxHomework.Lib.Blocks

variable {β : Type*}

/-- **A heap**: the blocks that are there, and the number of the next one. -/
structure Heap (β : Type*) where
  block : ℕ → Option β
  made : ℕ
  fresh : ∀ p, made ≤ p → block p = none

namespace Heap

variable {h h' : Heap β} {p q : ℕ} {a b : β}

theorem lt_made (hp : h.block p = some b) : p < h.made := by
  by_contra hle
  rw [h.fresh p (by omega)] at hp
  exact absurd hp (by simp)

/-- A new block. -/
def malloc (h : Heap β) (b : β) : ℕ × Heap β :=
  (h.made, {
    block := Function.update h.block h.made (some b)
    made := h.made + 1
    fresh := fun p hp => by rw [Function.update_of_ne (by omega), h.fresh p (by omega)] })

/-- Another content of a block that is there, or none. -/
def put (h : Heap β) (p : ℕ) (r : Option β) : Option (Heap β) :=
  if hp : (h.block p).isSome then
    some {
      block := Function.update h.block p r
      made := h.made
      fresh := fun q hq => by
        have hne : q ≠ p := by
          rintro rfl
          rw [h.fresh q hq] at hp
          exact absurd hp (by simp)
        rw [Function.update_of_ne hne, h.fresh q hq] }
  else none

/-- A block is freed. -/
def free (h : Heap β) (p : ℕ) : Option (Heap β) := h.put p none

/-- A block is overwritten. -/
def write (h : Heap β) (p : ℕ) (b : β) : Option (Heap β) := h.put p (some b)

@[simp] theorem fst_malloc : (h.malloc b).1 = h.made := rfl

@[simp] theorem made_malloc : (h.malloc b).2.made = h.made + 1 := rfl

@[simp] theorem malloc_block_self : (h.malloc b).2.block h.made = some b := Function.update_self ..

theorem malloc_block (hp : p ≠ h.made) : (h.malloc b).2.block p = h.block p :=
  Function.update_of_ne hp ..

/-- What becomes of the blocks when one of them changes. -/
theorem put_block {r : Option β} (hp : h.block p = some a) :
    ∃ h', h.put p r = some h' ∧ h'.made = h.made ∧ h'.block p = r ∧
      ∀ q, q ≠ p → h'.block q = h.block q := by
  have hsome : (h.block p).isSome := by rw [hp]; rfl
  unfold put
  rw [dif_pos hsome]
  exact ⟨_, rfl, rfl, Function.update_self .., fun q hq => Function.update_of_ne hq ..⟩

theorem free_block (hp : h.block p = some a) :
    ∃ h', h.free p = some h' ∧ h'.made = h.made ∧ h'.block p = none ∧
      ∀ q, q ≠ p → h'.block q = h.block q := put_block hp

theorem write_block (hp : h.block p = some a) :
    ∃ h', h.write p b = some h' ∧ h'.made = h.made ∧ h'.block p = some b ∧
      ∀ q, q ≠ p → h'.block q = h.block q := put_block hp

theorem made_free (hfree : h.free p = some h') : h'.made = h.made := by
  unfold free put at hfree
  split at hfree
  · rw [← Option.some.inj hfree]
  · exact absurd hfree (by simp)

end Heap

end LinuxHomework.Lib.Blocks
