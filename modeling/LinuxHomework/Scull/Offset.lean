import LinuxHomework.Scull.Copy

/-! # Offsets of the scull device

`scull_read` and `scull_write` split a file position into the number of a list item, of a quantum in
it and of a byte in that. They do so with integers of 32 bits, to which the position and the size of
an item are cut first.

* `splits_right_iff`: for which positions and sizes the split is exact and the walk over the list
  stops at the item.
* `exact_iff`: if the size of an item fits into an `int`, these are the positions below `2 ^ 31`. -/

namespace LinuxHomework.Scull.Offset

open LinuxHomework.Lib.CInt LinuxHomework.Scull.Device

/-- **The split of a position.** -/
structure Split (quantum qset fPos : ℤ) (pl : Place) : Prop where
  sum : pl.item * (quantum * qset) + pl.sPos * quantum + pl.qPos = fPos
  item : 0 ≤ pl.item
  sPos : 0 ≤ pl.sPos ∧ pl.sPos < qset
  qPos : 0 ≤ pl.qPos ∧ pl.qPos < quantum

/-- `while (n--)` is left after exactly `k` rounds. -/
def WhileRounds (n : ℤ) (k : ℕ) : Prop := wrap32 (n - k) = 0 ∧ ∀ j < k, wrap32 (n - j) ≠ 0

/-- **A call splits the position right**: nothing is divided by zero, the values computed are the
split of the position, and the walk goes over just as many items. -/
def SplitsRight (quantum qset fPos : ℤ) : Prop :=
  ∃ pl, place quantum qset fPos = .ok pl ∧ Split quantum qset fPos pl ∧
    WhileRounds pl.item pl.item.toNat ∧ (size32 pl.item : ℤ) = pl.item

/-- The number of the item and the rest, computed from the size of an item that is cut to an `int`,
stay in the range of an `int`, the rest being smaller than the cut size. -/
structure Exact (quantum qset fPos : ℤ) : Prop where
  rest : fPos % (quantum * qset) < |wrap32 (quantum * qset)|
  sign : fPos / (quantum * qset) = 0 ∨ 0 < wrap32 (quantum * qset) ∨ fPos % (quantum * qset) = 0
  least : -2 ^ 31 ≤ fPos / (quantum * qset) * wrap32 (quantum * qset) + fPos % (quantum * qset)
  lt : fPos / (quantum * qset) * wrap32 (quantum * qset) + fPos % (quantum * qset) < 2 ^ 31
  quotient : fPos / (quantum * qset) < 2 ^ 31

variable {quantum qset fPos n : ℤ} {pl : Place} {k : ℕ}

/-! ### The walk -/

/-- The loop is left after `n` rounds, if `n` is not negative. -/
theorem whileRounds_of_nonneg (h0 : 0 ≤ n) (h : n < 2 ^ 31) : WhileRounds n n.toNat := by
  constructor
  · rw [Int.toNat_of_nonneg h0, Int.sub_self]
    exact wrap32_of_lt (by norm_num) (by norm_num)
  · intro j hj
    rw [wrap32_of_lt (by omega) (by omega)]
    omega

/-! ### The division -/

/-- Quotient and remainder, from the two divisions of the source. -/
theorem place_eq_ok : place quantum qset fPos = .ok pl ↔
    ∃ rest, divMod32 (wrap32 fPos) (wrap32 (quantum * qset)) = some (pl.item, rest) ∧
      divMod32 rest quantum = some (pl.sPos, pl.qPos) := by
  unfold place
  cases h₁ : divMod32 (wrap32 fPos) (wrap32 (quantum * qset)) with
  | none => simp
  | some v =>
    obtain ⟨item, rest⟩ := v
    dsimp only
    cases h₂ : divMod32 rest quantum with
    | none =>
      constructor
      · exact fun h => absurd h (by simp)
      · rintro ⟨rest', h, h'⟩
        obtain ⟨-, rfl⟩ := Prod.mk.inj (Option.some.inj h)
        exact absurd (h₂.symm.trans h') (by simp)
    | some w =>
      obtain ⟨sPos, qPos⟩ := w
      constructor
      · intro h
        obtain rfl := Except.ok.inj h
        exact ⟨rest, rfl, h₂⟩
      · rintro ⟨rest', h, h'⟩
        obtain ⟨rfl, rfl⟩ := Prod.mk.inj (Option.some.inj h)
        obtain ⟨rfl, rfl⟩ := Prod.mk.inj (Option.some.inj (h₂.symm.trans h'))
        rfl

/-- A quotient of an `int` that is not negative fits into an `int`, but for one division. -/
theorem quotient_lt {x y i r : ℤ} (hi : 0 ≤ i) (hr : 0 ≤ r) (h : divMod32 x y = some (i, r))
    (h0 : -2 ^ 31 ≤ x) (hx : x < 2 ^ 31) : i < 2 ^ 31 := by
  obtain ⟨rfl, hlt, hsign, htrap⟩ := (divMod32_eq_some_iff hi hr).mp h
  by_contra hge
  have hi0 : i ≠ 0 := by omega
  rcases lt_trichotomy y 0 with hneg | rfl | hpos
  · have hr0 : r = 0 := by
      rcases hsign with h | h | h
      · exact absurd h hi0
      · omega
      · exact h
    rw [hr0, add_zero] at h0 htrap
    have hy : y = -1 := by
      by_contra hne
      have : i * y ≤ i * (-2) := mul_le_mul_of_nonneg_left (by omega) hi
      omega
    rw [hy] at h0
    exact htrap ⟨by rw [hy]; omega, hy⟩
  · rw [abs_zero] at hlt
    omega
  · have : i * 1 ≤ i * y := mul_le_mul_of_nonneg_left (by omega) hi
    omega

/-- **The split is exact** if and only if the computation stays in the range of an `int`. -/
theorem splits_right_iff (hquantum : 1 ≤ quantum) (hqset : 1 ≤ qset) (hpos : 0 ≤ fPos) :
    SplitsRight quantum qset fPos ↔ Exact quantum qset fPos := by
  have hP : 0 < quantum * qset := mul_pos (by omega) (by omega)
  constructor
  · rintro ⟨pl, hpl, ⟨hsum, hitem, hs, hq⟩, -⟩
    obtain ⟨rest, h₁, h₂⟩ := place_eq_ok.mp hpl
    obtain ⟨hrest, -⟩ := (divMod32_eq_some_iff hs.1 hq.1).mp h₂
    have hrest0 : 0 ≤ rest := by
      have := mul_nonneg hs.1 (by omega : 0 ≤ quantum)
      omega
    have hrestP : rest < quantum * qset := by
      have : pl.sPos * quantum ≤ (qset - 1) * quantum :=
        mul_le_mul_of_nonneg_right (by omega) (by omega)
      have hexpand : (qset - 1) * quantum = quantum * qset - quantum := by ring
      omega
    obtain ⟨hw, hlt, hsign, -⟩ := (divMod32_eq_some_iff hitem hrest0).mp h₁
    have hmul : pl.item * (quantum * qset) = quantum * qset * pl.item := mul_comm _ _
    obtain ⟨hdiv, hmod⟩ := (Int.ediv_emod_unique hP).mpr
      ⟨show rest + quantum * qset * pl.item = fPos by omega, hrest0, hrestP⟩
    have hleast := least_wrap32 fPos
    have hgreatest := wrap32_lt fPos
    have hquot := quotient_lt hitem hrest0 h₁ hleast hgreatest
    rw [hw] at hleast hgreatest
    exact ⟨by rw [hmod]; exact hlt, by rw [hdiv, hmod]; exact hsign, by rw [hdiv, hmod]; exact hleast,
      by rw [hdiv, hmod]; exact hgreatest, by rw [hdiv]; exact hquot⟩
  · rintro ⟨hlt, hsign, hleast, hgreatest, hquot⟩
    have hitem : 0 ≤ fPos / (quantum * qset) := Int.ediv_nonneg hpos hP.le
    have hrest0 : 0 ≤ fPos % (quantum * qset) := Int.emod_nonneg _ (by omega)
    have hrestP : fPos % (quantum * qset) < quantum * qset := Int.emod_lt_of_pos _ hP
    have hsum : fPos % (quantum * qset) + quantum * qset * (fPos / (quantum * qset)) = fPos :=
      Int.emod_add_mul_ediv fPos _
    generalize hi : fPos / (quantum * qset) = item at *
    generalize hr : fPos % (quantum * qset) = rest at *
    obtain ⟨j, hj⟩ := exists_wrap32 (quantum * qset)
    have hw : wrap32 fPos = item * wrap32 (quantum * qset) + rest := by
      refine wrap32_eq (k := item * j) ?_ hleast hgreatest
      rw [← hsum]
      nth_rewrite 1 [hj]
      ring
    have h₁ : divMod32 (wrap32 fPos) (wrap32 (quantum * qset)) = some (item, rest) := by
      refine (divMod32_eq_some_iff hitem hrest0).mpr ⟨hw, hlt, hsign, ?_⟩
      rintro ⟨htrap, hy⟩
      rw [hw, hy] at htrap
      rw [hy] at hlt
      omega
    have h₂ := divMod32_of_pos hrest0 (by omega : 0 < quantum)
    have hsize := size32_of_lt hitem (by omega : item < 2 ^ 32)
    refine ⟨⟨item, rest / quantum, rest % quantum⟩, place_eq_ok.mpr ⟨rest, h₁, h₂⟩, ⟨?_, hitem, ⟨?_, ?_⟩,
      Int.emod_nonneg _ (by omega), Int.emod_lt_of_pos _ (by omega)⟩,
      whileRounds_of_nonneg hitem hquot, hsize⟩
    · have hsplit := Int.mul_ediv_add_emod rest quantum
      have hcomm : rest / quantum * quantum = quantum * (rest / quantum) := mul_comm _ _
      have hmul : item * (quantum * qset) = quantum * qset * item := mul_comm _ _
      show item * (quantum * qset) + rest / quantum * quantum + rest % quantum = fPos
      omega
    · exact Int.ediv_nonneg hrest0 (by omega)
    · exact Int.ediv_lt_of_lt_mul (by omega) (by rw [mul_comm]; exact hrestP)

/-- **If the size of an item fits** into an `int`, the positions are those that fit, too. -/
theorem exact_iff (hquantum : 1 ≤ quantum) (hqset : 1 ≤ qset) (hfits : quantum * qset < 2 ^ 31)
    (hpos : 0 ≤ fPos) : Exact quantum qset fPos ↔ fPos < 2 ^ 31 := by
  have hP : 0 < quantum * qset := mul_pos (by omega) (by omega)
  have hwrap := wrap32_of_lt (by omega : -2 ^ 31 ≤ quantum * qset) hfits
  have hsum := Int.ediv_mul_add_emod fPos (quantum * qset)
  have hrest := Int.emod_lt_of_pos fPos hP
  have hquot : fPos / (quantum * qset) ≤ fPos := Int.ediv_le_self _ hpos
  constructor
  · intro h
    have hlt := h.lt
    rw [hwrap] at hlt
    omega
  · intro hlt
    refine ⟨?_, Or.inr (Or.inl ?_), ?_, ?_, by omega⟩
    · rw [hwrap, abs_of_pos hP]
      exact hrest
    · rw [hwrap]
      exact hP
    · rw [hwrap]
      omega
    · rw [hwrap]
      omega

/-- The last byte of the third item, with the default sizes. -/
theorem splits_right_default : SplitsRight 4000 1000 11999999 := by
  refine (splits_right_iff (by norm_num) (by norm_num) (by norm_num)).mpr ?_
  exact (exact_iff (by norm_num) (by norm_num) (by norm_num) (by norm_num)).mpr (by norm_num)

/-- At `2 ^ 31`, with the default sizes, the number of the item is negative. -/
theorem not_splits_right : ¬ SplitsRight 4000 1000 (2 ^ 31) := by
  rintro ⟨pl, hpl, hsplit, -⟩
  have hplace : (place 4000 1000 (2 ^ 31)).toOption.map Place.item = some (-536) := by decide
  rw [hpl] at hplace
  have hitem : pl.item = -536 := Option.some.inj hplace
  have := hsplit.item
  omega

end LinuxHomework.Scull.Offset
