import Mathlib.Tactic

/-! # Rings

A ring of `N` cells is a memory whose positions are taken modulo `N`. `ring m N r n` lists the `n`
cells from the position `r` on.

* `ring_add`: a stretch is cut at any of its cells; what is taken from the front and what is left.
* `ring_put`: cells written behind a stretch are appended to it, if the ring has room. -/

namespace LinuxHomework.Lib.Ring

variable {β : Type*} {m m' : ℕ → β} {N r n k w : ℕ} {f : ℕ → β}

/-- The `n` cells from the position `r` on. -/
def ring (m : ℕ → β) (N r n : ℕ) : List β := (List.range n).map fun i => m ((r + i) % N)

/-- Write `n` cells from the position `w` on, none of them around the end. -/
def put (m : ℕ → β) (w n : ℕ) (f : ℕ → β) : ℕ → β :=
  fun i => if w ≤ i ∧ i < w + n then f (i - w) else m i

@[simp] theorem length_ring : (ring m N r n).length = n := by simp [ring]

@[simp] theorem ring_zero : ring m N r 0 = [] := rfl

/-- **A stretch is cut** behind its first `n` cells. -/
theorem ring_add : ring m N r (n + k) = ring m N r n ++ ring m N ((r + n) % N) k := by
  unfold ring
  rw [List.range_add, List.map_append, List.map_map]
  congr 1
  refine List.map_congr_left fun i _ => ?_
  rw [Function.comp, Nat.mod_add_mod, add_assoc]

theorem ring_congr (h : ∀ i < n, m' ((r + i) % N) = m ((r + i) % N)) :
    ring m' N r n = ring m N r n :=
  List.map_congr_left fun i hi => h i (List.mem_range.mp hi)

/-- A stretch that does not go around the end. -/
theorem ring_of_le (h : r + n ≤ N) : ring m N r n = (List.range n).map fun i => m (r + i) := by
  refine List.map_congr_left fun i hi => ?_
  rw [Nat.mod_eq_of_lt]
  have := List.mem_range.mp hi
  omega

/-- Two positions less than one round apart are different cells. -/
theorem mod_ne_mod {a b : ℕ} (hab : a < b) (hb : b < a + N) : a % N ≠ b % N := by
  intro h
  have hdvd : N ∣ b - a := (Nat.modEq_iff_dvd' hab.le).mp h
  have := Nat.le_of_dvd (by omega) hdvd
  omega

/-- **Cells written behind a stretch** are appended to it. -/
theorem ring_put (hn : n + k ≤ N) (hw : w = (r + n) % N) (hend : w + k ≤ N) :
    ring (put m w k f) N r (n + k) = ring m N r n ++ (List.range k).map f := by
  rw [ring_add, ← hw, ring_of_le hend]
  congr 1
  · refine ring_congr fun i hi => if_neg ?_
    rintro ⟨hle, hlt⟩
    obtain ⟨j, hj⟩ := Nat.exists_eq_add_of_le hle
    -- the cell would be one of those behind the stretch
    have hround : (r + i) % N = (r + n + j) % N := by
      have hlt' : (r + n) % N + j < N := by omega
      rw [hj, hw, ← Nat.mod_add_mod (r + n), Nat.mod_eq_of_lt hlt']
    exact mod_ne_mod (by omega) (by omega) hround
  · refine List.map_congr_left fun i hi => ?_
    have := List.mem_range.mp hi
    rw [put, if_pos ⟨by omega, by omega⟩, Nat.add_sub_cancel_left]

/-- Cells written behind a stretch do not change it. -/
theorem ring_put_same (hn : n + k ≤ N) (hw : w = (r + n) % N) (hend : w + k ≤ N) :
    ring (put m w k f) N r n = ring m N r n := by
  have h := ring_put (m := m) (f := f) hn hw hend
  rw [ring_add] at h
  exact (List.append_inj h (by simp)).1

end LinuxHomework.Lib.Ring
