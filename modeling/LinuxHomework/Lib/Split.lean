import Mathlib.Data.List.Basic
import Mathlib.Tactic.Basic

/-! # Lists cut behind their marked elements

`pieces p l` are the pieces of `l` that end in an element with `p`, each with that element; what
comes behind the last of these elements belongs to no piece.

* `pieces_append`, `pieces_none`: how the pieces are found from left to right.
* `pieces_glue`: a list that is put together from pieces is cut into them.
* `cut_induction`: induction over the segments between separators. -/

namespace LinuxHomework.Lib.Split

variable {α : Type*} {p : α → Bool} {t : α} {c l : List α}

/-- **The pieces** of a list. -/
def pieces (p : α → Bool) : List α → List (List α × α)
  | [] => []
  | a :: l =>
    if p a then ([], a) :: pieces p l
    else match pieces p l with
      | [] => []
      | (c, t) :: rest => (a :: c, t) :: rest

/-- The list with the given pieces. -/
def glue (ps : List (List α × α)) : List α := ps.flatMap fun q => q.1 ++ [q.2]

theorem pieces_none (hc : ∀ a ∈ c, p a = false) : pieces p c = [] := by
  induction c with
  | nil => rfl
  | cons a c ih =>
    have ha : p a = false := hc a (by simp)
    unfold pieces
    rw [ha, ih fun b hb => hc b (by simp [hb])]
    rfl

theorem pieces_append (hc : ∀ a ∈ c, p a = false) (ht : p t = true) :
    pieces p (c ++ t :: l) = (c, t) :: pieces p l := by
  induction c with
  | nil =>
    show (if p t then _ else _) = _
    rw [ht]
    rfl
  | cons a c ih =>
    have ha : p a = false := hc a (by simp)
    rw [List.cons_append, pieces, ha, ih fun b hb => hc b (by simp [hb])]
    rfl

theorem pieces_glue {ps : List (List α × α)}
    (h : ∀ q ∈ ps, p q.2 = true ∧ ∀ a ∈ q.1, p a = false) : pieces p (glue ps) = ps := by
  induction ps with
  | nil => rfl
  | cons q ps ih =>
    obtain ⟨ht, hc⟩ := h q (by simp)
    have hglue : glue (q :: ps) = q.1 ++ q.2 :: glue ps := by simp [glue]
    rw [hglue, pieces_append hc ht, ih fun r hr => h r (by simp [hr])]

/-- What stands in a list put together with a separator. -/
theorem mem_intercalate {a b : α} {ls : List (List α)} (h : b ∈ [a].intercalate ls) :
    b = a ∨ ∃ l ∈ ls, b ∈ l := by
  induction ls with
  | nil => exact absurd h (by simp [List.intercalate])
  | cons l ls ih =>
    cases ls with
    | nil =>
      rw [List.intercalate_singleton] at h
      exact Or.inr ⟨l, by simp, h⟩
    | cons l' ls =>
      rw [List.intercalate_cons_cons] at h
      rcases List.mem_append.mp h with h | h
      · rcases List.mem_append.mp h with h | h
        · exact Or.inr ⟨l, by simp, h⟩
        · exact Or.inl (List.mem_singleton.mp h)
      · rcases ih h with h | ⟨m, hm, hb⟩
        · exact Or.inl h
        · exact Or.inr ⟨m, by simp [List.mem_cons.mp hm], hb⟩

/-! ### Lists cut at a separator -/

/-- **Induction over the segments**: a list has no separator, or it is a segment, a separator and a
shorter list. -/
theorem cut_induction (a : α) {P : List α → Prop} (hfree : ∀ s, a ∉ s → P s)
    (hcut : ∀ s rest, a ∉ s → P rest → P (s ++ a :: rest)) (l : List α) : P l := by
  induction hn : l.length using Nat.strongRecOn generalizing l with
  | ind n ih =>
    by_cases hmem : a ∈ l
    · obtain ⟨s, rest, rfl, hs⟩ := List.eq_append_cons_of_mem hmem
      refine hcut s rest hs (ih rest.length ?_ rest rfl)
      rw [← hn, List.length_append, List.length_cons]
      omega
    · exact hfree l hmem

end LinuxHomework.Lib.Split
