import Mathlib.Data.Finset.Card
import Mathlib.Logic.Function.Basic
import Mathlib.Tactic.Basic

/-! # Counting the tasks in a class of states

`Census K f n` says that exactly `n` of the tasks, whose states are given by `f`, are in a state of
the class `K`; the tasks may be infinitely many. When one task changes its state the count changes
by at most one (`Census.enter`, `Census.leave`, `Census.stay`). -/

namespace LinuxHomework.Lib.Counting

variable {ι κ : Type*}

/-- Exactly `n` tasks are in a state of the class `K`. -/
def Census (K : κ → Prop) (f : ι → κ) (n : ℕ) : Prop :=
  ∃ G : Finset ι, (∀ t, t ∈ G ↔ K (f t)) ∧ G.card = n

variable {K : κ → Prop} {f : ι → κ} {n : ℕ} {t : ι} {k : κ}

theorem census_zero (h : ∀ t, ¬ K (f t)) : Census K f 0 :=
  ⟨∅, fun t => by simp [h t], rfl⟩

/-- There is a task in the class exactly when the count is positive. -/
theorem Census.pos_iff (h : Census K f n) : 0 < n ↔ ∃ t, K (f t) := by
  obtain ⟨G, hG, rfl⟩ := h
  rw [Finset.card_pos]
  exact exists_congr hG

variable [DecidableEq ι]

/-- A task enters the class. -/
theorem Census.enter (h : Census K f n) (ht : ¬ K (f t)) (hk : K k) :
    Census K (Function.update f t k) (n + 1) := by
  obtain ⟨G, hG, rfl⟩ := h
  refine ⟨insert t G, fun u => ?_, Finset.card_insert_of_notMem fun hm => ht ((hG t).mp hm)⟩
  by_cases hu : u = t
  · simp [hu, hk]
  · simp [hu, hG u]

/-- A task leaves the class. -/
theorem Census.leave (h : Census K f n) (ht : K (f t)) (hk : ¬ K k) :
    ∃ m, n = m + 1 ∧ Census K (Function.update f t k) m := by
  obtain ⟨G, hG, rfl⟩ := h
  have hmem : t ∈ G := (hG t).mpr ht
  have hpos : 0 < G.card := Finset.card_pos.mpr ⟨t, hmem⟩
  refine ⟨G.card - 1, by omega, G.erase t, fun u => ?_, Finset.card_erase_of_mem hmem⟩
  by_cases hu : u = t
  · simp [hu, hk]
  · simp [hu, hG u]

/-- A task moves without crossing the border of the class. -/
theorem Census.stay (h : Census K f n) (hk : K k ↔ K (f t)) :
    Census K (Function.update f t k) n := by
  obtain ⟨G, hG, rfl⟩ := h
  refine ⟨G, fun u => ?_, rfl⟩
  by_cases hu : u = t
  · rw [hu, Function.update_self, hk, hG t]
  · rw [Function.update_of_ne hu, hG u]

/-- **The count after one task has moved.** -/
theorem Census.move [DecidablePred K] (h : Census K f n) (t : ι) (k : κ) :
    ∃ m, Census K (Function.update f t k) m ∧
      m + (if K (f t) then 1 else 0) = n + if K k then 1 else 0 := by
  by_cases ht : K (f t) <;> by_cases hk : K k
  · exact ⟨n, h.stay (iff_of_true hk ht), by simp [ht, hk]⟩
  · obtain ⟨m, rfl, hm⟩ := h.leave ht hk
    exact ⟨m, hm, by simp [ht, hk]⟩
  · exact ⟨n + 1, h.enter ht hk, by simp [ht, hk]⟩
  · exact ⟨n, h.stay (iff_of_false hk ht), by simp [ht, hk]⟩

end LinuxHomework.Lib.Counting
