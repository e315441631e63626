import LinuxHomework.Lib.Runs
import Mathlib.Algebra.Group.Action.Defs
import Mathlib.Algebra.Order.BigOperators.Ring.Finset

/-! # Machines that come to rest

A machine whose steps decrease a natural number makes no more steps than that number, and can go on
until no step can be taken.

Where tasks take the steps, the number is often found in two parts: a load, which some steps take
from a task, and a rank, the steps of a task to the next place where its load decreases, or where it
has to wait. A step that takes a load may change the ranks of all the tasks.

* `length_le_of_decreasing`, `exists_resting`: the two facts about a decreasing number.
* `potential`: the number made of loads and ranks; `potential_lt_of_load` and `potential_lt_of_rank`
  say how it decreases, and `potential_le` how large it is. -/

namespace LinuxHomework.Lib.Potential

open LinuxHomework.Lib.Runs

/-! ### A number that decreases -/

section Decreasing

variable {σ α : Type*} {step : σ → α → Option σ} {I : σ → Prop} {f : σ → ℕ} {s s' : σ} {as : List α}

/-- **A run is no longer than the number at its start.** -/
theorem length_le_of_decreasing (hI : ∀ s a s', I s → step s a = some s' → I s')
    (hlt : ∀ s a s', I s → step s a = some s' → f s' < f s) (hs : I s)
    (hrun : run step s as = some s') : as.length ≤ f s := by
  induction as generalizing s with
  | nil => exact Nat.zero_le _
  | cons a as ih =>
    obtain ⟨t, ht, hrun⟩ := Option.bind_eq_some_iff.mp hrun
    have hle := ih (hI s a t hs ht) hrun
    have hdec := hlt s a t hs ht
    rw [List.length_cons]
    omega

/-- **A run can be taken to a state in which no step can be.** -/
theorem exists_resting (hI : ∀ s a s', I s → step s a = some s' → I s')
    (hlt : ∀ s a s', I s → step s a = some s' → f s' < f s) (hs : I s) :
    ∃ s', Reaches step s s' ∧ ∀ a, step s' a = none := by
  obtain ⟨n, hn⟩ : ∃ n, f s = n := ⟨_, rfl⟩
  induction n using Nat.strong_induction_on generalizing s with
  | _ n ih =>
    by_cases hrest : ∀ a, step s a = none
    · exact ⟨s, .refl s, hrest⟩
    · obtain ⟨a, ha⟩ := not_forall.mp hrest
      obtain ⟨t, ht⟩ := Option.ne_none_iff_exists'.mp ha
      obtain ⟨s', hreach, hstop⟩ := ih (f t) (hn ▸ hlt s a t hs ht) (hI s a t hs ht) rfl
      exact ⟨s', (Reaches.single ht).trans hreach, hstop⟩

end Decreasing

/-! ### Loads and ranks -/

section Tasks

variable {ι κ : Type*} {B W : ℕ} {load : κ → ℕ} {rank rank' : κ → ℕ} {G : Finset ι} {f f' : ι → κ}
  {t : ι}

/-- The loads and ranks of the tasks in `G`, for ranks up to `B`: a load is worth more than all
ranks together. -/
def potential (B : ℕ) (load rank : κ → ℕ) (G : Finset ι) (f : ι → κ) : ℕ :=
  (B * G.card + 1) * (∑ t ∈ G, load (f t)) + ∑ t ∈ G, rank (f t)

theorem sum_rank_le (hrank : ∀ k, rank k ≤ B) : ∑ t ∈ G, rank (f t) ≤ B * G.card := by
  rw [mul_comm, ← smul_eq_mul]
  exact Finset.sum_le_card_nsmul G _ B fun t _ => hrank (f t)

/-- **A task loses load**, and no task gains any. -/
theorem potential_lt_of_load (hrank : ∀ k, rank' k ≤ B) (ht : t ∈ G) (hload : load (f' t) < load (f t))
    (hle : ∀ u ∈ G, load (f' u) ≤ load (f u)) :
    potential B load rank' G f' < potential B load rank G f := by
  have hsum : ∑ t ∈ G, load (f' t) < ∑ t ∈ G, load (f t) := Finset.sum_lt_sum hle ⟨t, ht, hload⟩
  have hranks := sum_rank_le (G := G) (f := f') hrank
  have hmul : (B * G.card + 1) * (∑ t ∈ G, load (f' t) + 1) ≤ (B * G.card + 1) * ∑ t ∈ G, load (f t) :=
    Nat.mul_le_mul_left _ hsum
  unfold potential
  rw [Nat.mul_add, Nat.mul_one] at hmul
  omega

/-- **A task loses rank**, and no task gains any, nor load. -/
theorem potential_lt_of_rank (ht : t ∈ G) (hrank : rank (f' t) < rank (f t))
    (hload : ∀ u ∈ G, load (f' u) ≤ load (f u)) (hle : ∀ u ∈ G, rank (f' u) ≤ rank (f u)) :
    potential B load rank G f' < potential B load rank G f := by
  have hloads : ∑ t ∈ G, load (f' t) ≤ ∑ t ∈ G, load (f t) := Finset.sum_le_sum hload
  have hranks : ∑ t ∈ G, rank (f' t) < ∑ t ∈ G, rank (f t) := Finset.sum_lt_sum hle ⟨t, ht, hrank⟩
  exact Nat.add_lt_add_of_le_of_lt (Nat.mul_le_mul_left _ hloads) hranks

theorem potential_le (hload : ∀ k, load k ≤ W) (hrank : ∀ k, rank k ≤ B) :
    potential B load rank G f ≤ (B * G.card + 1) * (W * G.card) + B * G.card :=
  Nat.add_le_add (Nat.mul_le_mul_left _ (sum_rank_le hload)) (sum_rank_le hrank)

end Tasks

end LinuxHomework.Lib.Potential
