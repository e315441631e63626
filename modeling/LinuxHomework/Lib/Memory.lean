import Mathlib.Tactic

/-! # Byte memories

A memory of a 32-bit machine gives every address its byte, or none if the address is not mapped.
Addresses wrap around: the range of `n` bytes from `a` consists of the addresses `x` with
`(x - a).toNat < n`.

* `fill` writes a range, `word` and `setWord` access four bytes in little-endian order.
* `Apart`: two ranges have no address in common (`Apart.not_mem`).
* `word_setWord`, `word_fill_zero`: what is read after a write. -/

namespace LinuxHomework.Lib.Memory

abbrev Byte := BitVec 8
abbrev Word := BitVec 32

/-- The byte at each mapped address. -/
abbrev Mem := Word → Option Byte

/-- The addresses of the range of `n` bytes from `a`. -/
def InRange (a : Word) (n : ℕ) (x : Word) : Prop := (x - a).toNat < n

instance (a : Word) (n : ℕ) : DecidablePred (InRange a n) := fun x => Nat.decLt (x - a).toNat n

/-- All bytes of the range are mapped. -/
def Mapped (m : Mem) (a : Word) (n : ℕ) : Prop := ∀ i < n, (m (a + BitVec.ofNat 32 i)).isSome

instance (m : Mem) (a : Word) (n : ℕ) : Decidable (Mapped m a n) :=
  inferInstanceAs (Decidable (∀ i < n, (m (a + BitVec.ofNat 32 i)).isSome))

/-- Write the range of `n` bytes from `a`. -/
def fill (m : Mem) (a : Word) (n : ℕ) (f : ℕ → Byte) : Mem :=
  fun x => if InRange a n x then some (f (x - a).toNat) else m x

/-- The bytes of a word, the least significant first. -/
def bytes (w : Word) (i : ℕ) : Byte := w.extractLsb' (8 * i) 8

/-- Read the word at `a`. -/
def word (m : Mem) (a : Word) : Option Word := do
  let b₀ ← m a
  let b₁ ← m (a + 1)
  let b₂ ← m (a + 2)
  let b₃ ← m (a + 3)
  return b₃ ++ b₂ ++ b₁ ++ b₀

/-- Write the word at `a`. -/
def setWord (m : Mem) (a w : Word) : Mem := fill m a 4 (bytes w)

/-- Two ranges without a common address. -/
def Apart (a : Word) (n : ℕ) (b : Word) (k : ℕ) : Prop :=
  n = 0 ∨ k = 0 ∨ n ≤ (b - a).toNat ∧ k ≤ (a - b).toNat

instance (a : Word) (n : ℕ) (b : Word) (k : ℕ) : Decidable (Apart a n b k) :=
  inferInstanceAs (Decidable (_ ∨ _ ∨ _ ∧ _))

variable {m m' : Mem} {a b x w : Word} {n k : ℕ} {f : ℕ → Byte}

theorem Apart.not_mem (h : Apart a n b k) (hx : InRange a n x) : ¬ InRange b k x := by
  unfold Apart at h
  unfold InRange at hx ⊢
  bv_omega

theorem Apart.symm (h : Apart a n b k) : Apart b k a n := by
  unfold Apart at h ⊢
  omega

theorem Apart.mono {n' k' : ℕ} (h : Apart a n b k) (hn : n' ≤ n) (hk : k' ≤ k) :
    Apart a n' b k' := by
  unfold Apart at h ⊢
  omega

/-- Ranges that are apart and not empty have different starts. -/
theorem Apart.ne (h : Apart a n b k) (hn : 0 < n) (hk : 0 < k) : a ≠ b := by
  unfold Apart at h
  rintro rfl
  simp at h
  omega

theorem fill_of_mem (h : InRange a n x) : fill m a n f x = some (f (x - a).toNat) := if_pos h

theorem fill_of_not_mem (h : ¬ InRange a n x) : fill m a n f x = m x := if_neg h

theorem fill_congr {g : ℕ → Byte} (h : ∀ i < n, f i = g i) : fill m a n f = fill m a n g := by
  funext x
  by_cases hx : InRange a n x
  · rw [fill_of_mem hx, fill_of_mem hx, h _ hx]
  · rw [fill_of_not_mem hx, fill_of_not_mem hx]

theorem isSome_fill (h : (m x).isSome) : (fill m a n f x).isSome := by
  by_cases hx : InRange a n x
  · rw [fill_of_mem hx]
    rfl
  · rwa [fill_of_not_mem hx]

/-- An address of a mapped range is mapped. -/
theorem Mapped.isSome (h : Mapped m a n) (hx : InRange a n x) : (m x).isSome := by
  have hax : a + BitVec.ofNat 32 (x - a).toNat = x := by bv_omega
  have := h (x - a).toNat hx
  rwa [hax] at this

theorem Mapped.mono_mem (h : Mapped m a n) (hm : ∀ x, (m x).isSome → (m' x).isSome) :
    Mapped m' a n := fun i hi => hm _ (h i hi)

/-- A part of a mapped range is mapped. -/
theorem Mapped.sub (h : Mapped m a n) (i : ℕ) (hk : i + k ≤ n) :
    Mapped m (a + BitVec.ofNat 32 i) k := by
  intro j hj
  have := h (i + j) (by omega)
  rwa [BitVec.ofNat_add, ← BitVec.add_assoc] at this

theorem word_congr (h : ∀ x, InRange a 4 x → m' x = m x) : word m' a = word m a := by
  have h0 := h a (by unfold InRange; bv_omega)
  have h1 := h (a + 1) (by unfold InRange; bv_omega)
  have h2 := h (a + 2) (by unfold InRange; bv_omega)
  have h3 := h (a + 3) (by unfold InRange; bv_omega)
  unfold word
  rw [h0, h1, h2, h3]

/-- Every word of mapped bytes can be read. -/
theorem Mapped.word (h : Mapped m a n) (hn : 4 ≤ n) : ∃ w, word m a = some w := by
  obtain ⟨b₀, h0⟩ := Option.isSome_iff_exists.mp (h 0 (by omega))
  obtain ⟨b₁, h1⟩ := Option.isSome_iff_exists.mp (h 1 (by omega))
  obtain ⟨b₂, h2⟩ := Option.isSome_iff_exists.mp (h 2 (by omega))
  obtain ⟨b₃, h3⟩ := Option.isSome_iff_exists.mp (h 3 (by omega))
  refine ⟨b₃ ++ b₂ ++ b₁ ++ b₀, ?_⟩
  have h0' : m a = some b₀ := by simpa using h0
  unfold Memory.word
  rw [h0']
  simp only [Option.bind_eq_bind, Option.bind_some]
  rw [show m (a + 1) = some b₁ from h1, show m (a + 2) = some b₂ from h2,
    show m (a + 3) = some b₃ from h3]
  rfl

theorem join_bytes (w : Word) : (bytes w 3 ++ bytes w 2 ++ bytes w 1 ++ bytes w 0 : Word) = w := by
  apply BitVec.eq_of_getLsbD_eq
  intro i hi
  simp only [bytes, BitVec.getLsbD_append, BitVec.getLsbD_extractLsb']
  grind

/-- **A word that was written is read back.** -/
@[simp] theorem word_setWord : word (setWord m a w) a = some w := by
  have h (i : ℕ) (hi : i < 4) : setWord m a w (a + BitVec.ofNat 32 i) = some (bytes w i) := by
    have hx : (a + BitVec.ofNat 32 i - a).toNat = i := by bv_omega
    unfold setWord
    rw [fill_of_mem (by unfold InRange; omega), hx]
  have h0 : setWord m a w a = some (bytes w 0) := by simpa using h 0 (by omega)
  unfold word
  rw [h0, show setWord m a w (a + 1) = some (bytes w 1) from h 1 (by omega),
    show setWord m a w (a + 2) = some (bytes w 2) from h 2 (by omega),
    show setWord m a w (a + 3) = some (bytes w 3) from h 3 (by omega)]
  exact congrArg some (join_bytes w)

theorem bytes_join (b₀ b₁ b₂ b₃ : Byte) {i : ℕ} (hi : i < 4) :
    bytes (b₃ ++ b₂ ++ b₁ ++ b₀) i = [b₀, b₁, b₂, b₃].getD i 0 := by
  apply BitVec.eq_of_getLsbD_eq
  intro j hj
  simp only [bytes, BitVec.getLsbD_append, BitVec.getLsbD_extractLsb']
  obtain rfl | rfl | rfl | rfl : i = 0 ∨ i = 1 ∨ i = 2 ∨ i = 3 := by omega
  all_goals
    simp
    grind

/-- **Writing the word that is there** changes nothing. -/
theorem setWord_same (h : word m a = some w) : setWord m a w = m := by
  unfold word at h
  simp only [Option.bind_eq_bind, Option.bind_eq_some_iff] at h
  obtain ⟨b₀, h0, b₁, h1, b₂, h2, b₃, h3, hw⟩ := h
  obtain rfl : b₃ ++ b₂ ++ b₁ ++ b₀ = w := Option.some.inj hw
  funext x
  by_cases hx : InRange a 4 x
  · unfold setWord
    rw [fill_of_mem hx, bytes_join _ _ _ _ hx]
    have hax : a + BitVec.ofNat 32 (x - a).toNat = x := by bv_omega
    unfold InRange at hx
    obtain hi | hi | hi | hi : (x - a).toNat = 0 ∨ (x - a).toNat = 1 ∨ (x - a).toNat = 2 ∨
        (x - a).toNat = 3 := by omega
    all_goals
      rw [hi] at hax
      rw [hi, ← hax]
    · simpa using h0.symm
    · exact h1.symm
    · exact h2.symm
    · exact h3.symm
  · exact fill_of_not_mem hx

/-- The bytes of a word that can be read. -/
theorem byte_of_word (h : word m a = some w) (hx : InRange a 4 x) :
    m x = some (bytes w (x - a).toNat) := by
  rw [← setWord_same h]
  exact fill_of_mem hx

/-- The bytes of a word that can be read are mapped. -/
theorem mapped_of_word (h : word m a = some w) : Mapped m a 4 := by
  intro i hi
  rw [byte_of_word h (by unfold InRange; bv_omega)]
  rfl

/-- A word of zero bytes is zero. -/
theorem word_fill_zero {i : ℕ} (hi : i + 4 ≤ n) (hn : n ≤ 2 ^ 32) :
    word (fill m a n fun _ => 0) (a + BitVec.ofNat 32 i) = some 0 := by
  have h (j : ℕ) (hj : j < 4) :
      fill m a n (fun _ => 0) (a + BitVec.ofNat 32 i + BitVec.ofNat 32 j) = some 0 := by
    refine fill_of_mem ?_
    unfold InRange
    bv_omega
  have h0 : fill m a n (fun _ => 0) (a + BitVec.ofNat 32 i) = some 0 := by simpa using h 0 (by omega)
  unfold word
  rw [h0, show fill m a n (fun _ => 0) (a + BitVec.ofNat 32 i + 1) = some 0 from h 1 (by omega),
    show fill m a n (fun _ => 0) (a + BitVec.ofNat 32 i + 2) = some 0 from h 2 (by omega),
    show fill m a n (fun _ => 0) (a + BitVec.ofNat 32 i + 3) = some 0 from h 3 (by omega)]
  rfl

end LinuxHomework.Lib.Memory
