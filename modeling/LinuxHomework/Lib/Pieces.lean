import Mathlib.Data.List.SplitBy
import Mathlib.Data.List.TakeWhile
import Mathlib.Tactic.Basic

/-! # The pieces of a text

A predicate says which characters belong to words. A text is cut into its `pieces`, the longest runs
of word characters and the other characters one by one.

* `piece_induction`: a text is empty, or it begins with a whole run, or with a character that is not
  in a word.
* `pieces_run`, `pieces_single`: how the pieces are found from left to right. -/

namespace LinuxHomework.Lib.Pieces

variable {α : Type*} {p : α → Bool} {w rest : List α} {c : α}

/-- **The pieces**: two neighbours stay together if both are word characters. -/
def pieces (p : α → Bool) (text : List α) : List (List α) := text.splitBy fun c d => p c && p d

theorem pieces_nil : pieces p [] = [] := rfl

/-- Two neighbours in a run of word characters. -/
theorem isChain_of_run (h : ∀ c ∈ w, p c = true) : w.IsChain fun c d => (p c && p d) = true := by
  refine List.Pairwise.isChain (List.pairwise_of_forall_mem_list fun c hc d hd => ?_)
  rw [h c hc, h d hd]
  rfl

theorem pieces_run (hne : w ≠ []) (hw : ∀ c ∈ w, p c = true)
    (hrest : ∀ c ∈ rest.head?, p c = false) : pieces p (w ++ rest) = w :: pieces p rest := by
  unfold pieces
  rw [List.splitBy_append, List.splitBy_of_isChain hne (isChain_of_run hw), List.singleton_append]
  intro x _ y hy
  rw [hrest y hy, Bool.and_false]

theorem pieces_single (hc : p c = false) : pieces p (c :: rest) = [c] :: pieces p rest := by
  unfold pieces
  rw [← List.singleton_append, List.splitBy_append, List.splitBy_of_isChain (by simp) (by simp),
    List.singleton_append]
  intro x hx y _
  simp only [List.getLast?_singleton, Option.mem_def, Option.some.injEq] at hx
  rw [← hx, hc, Bool.false_and]

/-- What a row of elements with `p` is followed by. -/
theorem not_of_head?_dropWhile (p : α → Bool) (text : List α) :
    ∀ c ∈ (text.dropWhile p).head?, p c = false := by
  intro c hc
  have := List.head?_dropWhile_not p text
  rw [hc] at this
  exact this

/-- **Induction over the pieces.** -/
theorem piece_induction (p : α → Bool) {P : List α → Prop} (hnil : P [])
    (hrun : ∀ w rest : List α, w ≠ [] → (∀ c ∈ w, p c = true) →
      (∀ c ∈ rest.head?, p c = false) → P rest → P (w ++ rest))
    (hsingle : ∀ c rest, p c = false → P rest → P (c :: rest)) (text : List α) : P text := by
  induction hn : text.length using Nat.strong_induction_on generalizing text with
  | _ n ih =>
    cases text with
    | nil => exact hnil
    | cons c cs =>
      by_cases hc : p c = true
      · have hsplit := List.takeWhile_append_dropWhile (p := p) (l := c :: cs)
        rw [← hsplit]
        have hlen := congrArg List.length hsplit
        have hpos : 0 < ((c :: cs).takeWhile p).length := by simp [hc]
        rw [List.length_append] at hlen
        exact hrun _ _ (List.length_pos_iff.mp hpos) (fun d hd => List.mem_takeWhile_imp hd)
          (not_of_head?_dropWhile p _) (ih _ (by omega) _ rfl)
      · exact hsingle c cs (Bool.eq_false_iff.mpr hc)
          (ih cs.length (by rw [← hn]; simp) cs rfl)

end LinuxHomework.Lib.Pieces
