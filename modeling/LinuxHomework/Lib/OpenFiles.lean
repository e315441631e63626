import LinuxHomework.Lib.Descriptors
import Mathlib.Data.Finset.Card
import Mathlib.Data.Finset.Filter
import Mathlib.Data.Finset.Range

/-! # How many descriptors are open

* `count_create`, `count_close`, `count_dup2`: what the calls do to the number of open descriptors.
* `Referred`: some descriptor refers to an open file of a given kind. -/

namespace LinuxHomework.Lib.Descriptors

namespace Table

variable {κ : Type*} {T : Table κ} {a b fd : ℕ} {k k' : κ}

/-- The open descriptors. -/
def opened (T : Table κ) : Finset ℕ := (Finset.range T.top).filter fun fd => (T.file fd).isSome

/-- **How many they are.** -/
def count (T : Table κ) : ℕ := T.opened.card

@[simp] theorem mem_opened : fd ∈ T.opened ↔ (T.file fd).isSome := by
  unfold opened
  rw [Finset.mem_filter, Finset.mem_range, and_iff_right_iff_imp]
  intro hsome
  by_contra hle
  rw [T.closed fd (by omega)] at hsome
  cases hsome

theorem ne_free_of_isSome (h : (T.file fd).isSome) : fd ≠ T.free := by
  rintro rfl
  rw [T.file_free] at h
  cases h

theorem count_create (T : Table κ) (k : κ) : (T.create k).count = T.count + 1 := by
  have hnew : T.free ∉ T.opened := by
    rw [mem_opened, T.file_free]
    exact Bool.false_ne_true
  unfold count
  rw [← Finset.card_insert_of_notMem hnew]
  congr 1
  ext fd
  rw [Finset.mem_insert, mem_opened, mem_opened]
  by_cases h : fd = T.free
  · simp [h]
  · simp [h, file_create h]

theorem count_close (h : (T.file fd).isSome) : (T.close fd).count + 1 = T.count := by
  have hmem : fd ∈ T.opened := mem_opened.mpr h
  unfold count
  rw [← Finset.card_erase_add_one hmem]
  congr 2
  ext b
  rw [Finset.mem_erase, mem_opened, mem_opened]
  by_cases hb : b = fd
  · simp [hb]
  · simp [hb, file_close hb]

/-- What is not open is not closed. -/
theorem count_close_none (h : T.file fd = none) : (T.close fd).count = T.count := by
  unfold count
  congr 1
  ext b
  rw [mem_opened, mem_opened]
  by_cases hb : b = fd
  · rw [hb, file_close_self, h]
  · rw [file_close hb]

theorem count_dup2 (ha : (T.file a).isSome) (hb : (T.file b).isSome) : (T.dup2 a b).count = T.count := by
  unfold count
  congr 1
  ext fd
  rw [mem_opened, mem_opened]
  by_cases h : fd = b
  · rw [h, file_dup2_self ha, ha, hb]
  · rw [file_dup2 h]

/-! ### Kinds of open files -/

/-- Some descriptor refers to an open file of this kind. -/
def Referred (T : Table κ) (k : κ) : Prop := ∃ fd f, T.file fd = some f ∧ f.kind = k

theorem referred_create : (T.create k).Referred k' ↔ k' = k ∨ T.Referred k' := by
  constructor
  · rintro ⟨fd, f, hf, rfl⟩
    by_cases h : fd = T.free
    · rw [h, file_create_free] at hf
      exact Or.inl (congrArg OpenFile.kind (Option.some.inj hf)).symm
    · rw [file_create h] at hf
      exact Or.inr ⟨fd, f, hf, rfl⟩
  · rintro (rfl | ⟨fd, f, hf, rfl⟩)
    · exact ⟨T.free, _, file_create_free, rfl⟩
    · have hne : fd ≠ T.free := ne_free_of_isSome (by rw [hf]; rfl)
      exact ⟨fd, f, (file_create hne).trans hf, rfl⟩

/-- Nothing is new behind `dup2`. -/
theorem Referred.of_dup2 (h : (T.dup2 a b).Referred k) : T.Referred k := by
  obtain ⟨fd, f, hf, hk⟩ := h
  by_cases hfd : fd = b
  · unfold dup2 at hf
    dsimp only at hf
    split_ifs at hf
    · rw [hfd, Function.update_self] at hf
      exact ⟨a, f, hf, hk⟩
    · exact ⟨fd, f, hf, hk⟩
  · rw [file_dup2 hfd] at hf
    exact ⟨fd, f, hf, hk⟩

/-- What is closed is referred to by other descriptors only. -/
theorem referred_close : (T.close fd).Referred k ↔ ∃ b f, b ≠ fd ∧ T.file b = some f ∧ f.kind = k := by
  constructor
  · rintro ⟨b, f, hf, hk⟩
    have hne : b ≠ fd := by
      rintro rfl
      rw [file_close_self] at hf
      cases hf
    exact ⟨b, f, hne, (file_close hne).symm.trans hf, hk⟩
  · rintro ⟨b, f, hne, hf, hk⟩
    exact ⟨b, f, (file_close hne).trans hf, hk⟩

end Table

end LinuxHomework.Lib.Descriptors
