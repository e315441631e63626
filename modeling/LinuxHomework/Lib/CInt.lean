import Mathlib.Tactic

/-! # The integers of C

The values of C's integer types are integers, and the conversions to a type of a fixed width are
functions: `wrap32` and `wrap64` to the signed types of 32 and 64 bits, `size32` to the unsigned
type of 32 bits. Division and remainder truncate towards zero, and trap where the quotient does not
exist or does not fit. -/

namespace LinuxHomework.Lib.CInt

/-- The value in a signed type of 32 bits: it wraps around. -/
def wrap32 (x : ℤ) : ℤ := x.bmod (2 ^ 32)

/-- The value in a signed type of 64 bits. -/
def wrap64 (x : ℤ) : ℤ := x.bmod (2 ^ 64)

/-- The value in an unsigned type of 32 bits. -/
def size32 (x : ℤ) : ℕ := (x % 2 ^ 32).toNat

/-- Quotient and remainder of two values of a signed type of 32 bits; `none` if the division
traps. -/
def divMod32 (x y : ℤ) : Option (ℤ × ℤ) :=
  if y = 0 ∨ x = -2 ^ 31 ∧ y = -1 then none else some (x.tdiv y, x.tmod y)

theorem wrap32_of_lt {x : ℤ} (h0 : -2 ^ 31 ≤ x) (h : x < 2 ^ 31) : wrap32 x = x := by
  unfold wrap32
  exact Int.bmod_eq_of_le_mul_two (by omega) (by omega)

theorem least_wrap32 (x : ℤ) : -2 ^ 31 ≤ wrap32 x := by
  unfold wrap32
  have := Int.le_bmod (x := x) (m := 2 ^ 32) (by norm_num)
  omega

theorem wrap32_lt (x : ℤ) : wrap32 x < 2 ^ 31 := by
  unfold wrap32
  have := Int.bmod_lt (x := x) (m := 2 ^ 32) (by norm_num)
  omega

/-- The value differs by a multiple of `2 ^ 32`. -/
theorem exists_wrap32 (x : ℤ) : ∃ k : ℤ, x = wrap32 x + k * 2 ^ 32 :=
  ⟨Int.bdiv x (2 ^ 32), (Int.bmod_add_bdiv' x (2 ^ 32)).symm⟩

/-- A value of the type that differs by a multiple of `2 ^ 32`. -/
theorem wrap32_eq {x y k : ℤ} (h : x = y + k * 2 ^ 32) (h0 : -2 ^ 31 ≤ y) (hlt : y < 2 ^ 31) :
    wrap32 x = y := by
  have h1 := least_wrap32 x
  have h2 := wrap32_lt x
  obtain ⟨j, hj⟩ := exists_wrap32 x
  omega

theorem wrap64_of_lt {x : ℤ} (h0 : -2 ^ 63 ≤ x) (h : x < 2 ^ 63) : wrap64 x = x := by
  unfold wrap64
  exact Int.bmod_eq_of_le_mul_two (by omega) (by omega)

theorem wrap64_lt (x : ℤ) : wrap64 x < 2 ^ 63 := by
  unfold wrap64
  have := Int.bmod_lt (x := x) (m := 2 ^ 64) (by norm_num)
  omega

theorem size32_of_lt {x : ℤ} (h0 : 0 ≤ x) (h : x < 2 ^ 32) : (size32 x : ℤ) = x := by
  unfold size32
  omega

theorem divMod32_of_pos {x y : ℤ} (hx : 0 ≤ x) (hy : 0 < y) :
    divMod32 x y = some (x / y, x % y) := by
  unfold divMod32
  rw [if_neg (by omega), Int.tdiv_eq_ediv_of_nonneg hx, Int.tmod_eq_emod_of_nonneg hx]

/-- **Truncated division** with a quotient and a remainder that are not negative. -/
theorem divMod32_eq_some_iff {x y i r : ℤ} (hi : 0 ≤ i) (hr : 0 ≤ r) :
    divMod32 x y = some (i, r) ↔ x = i * y + r ∧ r < |y| ∧ (i = 0 ∨ 0 < y ∨ r = 0) ∧
      ¬ (x = -2 ^ 31 ∧ y = -1) := by
  unfold divMod32
  constructor
  · intro h
    split_ifs at h with htrap
    obtain ⟨rfl, rfl⟩ := Prod.mk.inj (Option.some.inj h)
    push Not at htrap
    obtain ⟨hy, htrap⟩ := htrap
    have hsum := Int.tdiv_mul_add_tmod x y
    have habs := Int.natAbs_tmod x y
    have hmod : x.natAbs % y.natAbs < y.natAbs := Nat.mod_lt _ (by omega)
    refine ⟨hsum.symm, by rw [Int.abs_eq_natAbs]; omega, ?_, fun hx => htrap hx.1 hx.2⟩
    by_cases hpos : 0 < y
    · exact Or.inr (Or.inl hpos)
    · rcases le_or_gt 0 x with hx | hx
      · -- a quotient of numbers of different signs is not positive
        have := Int.tdiv_nonpos_of_nonneg_of_nonpos hx (by omega : y ≤ 0)
        exact Or.inl (by omega)
      · have hneg := Int.tmod_nonneg y (by omega : 0 ≤ -x)
        rw [Int.neg_tmod] at hneg
        exact Or.inr (Or.inr (by omega))
  · rintro ⟨rfl, hlt, hsign, htrap⟩
    have hy : y ≠ 0 := by
      rintro rfl
      rw [abs_zero] at hlt
      omega
    rw [if_neg (not_or.mpr ⟨hy, htrap⟩)]
    have hdiv : (i * y + r).tdiv y = i := by
      rcases hsign with rfl | hpos | rfl
      · rw [zero_mul, zero_add]
        rcases lt_or_gt_of_ne hy with hneg | hpos
        · rw [abs_of_neg hneg] at hlt
          have := Int.tdiv_eq_zero_of_lt hr hlt
          rw [Int.tdiv_neg] at this
          omega
        · rw [abs_of_pos hpos] at hlt
          exact Int.tdiv_eq_zero_of_lt hr hlt
      · rw [abs_of_pos hpos] at hlt
        have hprod := mul_nonneg hi hpos.le
        rw [Int.tdiv_eq_ediv_of_nonneg (by omega), add_comm, Int.add_mul_ediv_right _ _ hy,
          Int.ediv_eq_zero_of_lt hr hlt, zero_add]
      · rw [add_zero, Int.mul_tdiv_cancel _ hy]
    have hsum := Int.tdiv_mul_add_tmod (i * y + r) y
    rw [hdiv] at hsum ⊢
    rw [show (i * y + r).tmod y = r by omega]

end LinuxHomework.Lib.CInt
