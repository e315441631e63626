import Mathlib.Data.List.Nodup
import Mathlib.Logic.Function.Basic
import Mathlib.Tactic.Basic

/-! # Linked chains in a memory

A memory of nodes is seen through the function `nx`: `nx a = none` if no node is allocated at `a`,
and `nx a = some q` if there is one and its link is `q` (`none` for the null pointer).
`Linked nx p l` says that following the links from the pointer `p` visits exactly the nodes `l`,
all of them allocated, and ends at a node whose link is null.

* `Linked.unique`, `Linked.nodup`: the nodes visited are determined by the start, and no node is
  visited twice.
* `Linked.congr`, `Linked.mono`: the chain depends only on the links of its own nodes.
* `Linked.append`, `linked_append_iff`: a chain is cut and joined at any node.
* `Linked.snoc`, `Linked.unlink`: what appending a node and taking one out do to the links. -/

namespace LinuxHomework.Lib.Chain

variable {α : Type*}

/-- Following the links from `p` visits `l` and ends in the null pointer `e`. -/
def Seg (nx : α → Option (Option α)) : Option α → List α → Option α → Prop
  | p, [], e => p = e
  | p, a :: l, e => p = some a ∧ ∃ q, nx a = some q ∧ Seg nx q l e

/-- Following the links from `p` visits `l` and ends in a null link. -/
def Linked (nx : α → Option (Option α)) (p : Option α) (l : List α) : Prop := Seg nx p l none

variable {nx nx' : α → Option (Option α)} {p q e : Option α} {a b : α} {l l₁ l₂ : List α}

@[simp] theorem seg_nil : Seg nx p [] e ↔ p = e := Iff.rfl

@[simp] theorem seg_cons :
    Seg nx p (a :: l) e ↔ p = some a ∧ ∃ q, nx a = some q ∧ Seg nx q l e := Iff.rfl

@[simp] theorem linked_nil : Linked nx p [] ↔ p = none := Iff.rfl

@[simp] theorem linked_cons :
    Linked nx p (a :: l) ↔ p = some a ∧ ∃ q, nx a = some q ∧ Linked nx q l := Iff.rfl

theorem seg_append : ∀ {l₁ : List α} {p : Option α},
    Seg nx p (l₁ ++ l₂) e ↔ ∃ q, Seg nx p l₁ q ∧ Seg nx q l₂ e
  | [], p => by simp
  | a :: l₁, p => by
    simp only [List.cons_append, seg_cons, seg_append]
    constructor
    · rintro ⟨hp, q, hq, r, h1, h2⟩
      exact ⟨r, ⟨hp, q, hq, h1⟩, h2⟩
    · rintro ⟨r, ⟨hp, q, hq, h1⟩, h2⟩
      exact ⟨hp, q, hq, r, h1, h2⟩

theorem linked_append_iff :
    Linked nx p (l₁ ++ l₂) ↔ ∃ q, Seg nx p l₁ q ∧ Linked nx q l₂ := seg_append

/-- A segment depends only on the links of its own nodes. -/
theorem Seg.congr : ∀ {l : List α} {p : Option α}, Seg nx p l e →
    (∀ a ∈ l, nx' a = nx a) → Seg nx' p l e
  | [], _, h, _ => h
  | a :: l, _, ⟨hp, q, hq, h⟩, hl =>
    ⟨hp, q, by rw [hl a (by simp), hq], h.congr fun b hb => hl b (by simp [hb])⟩

/-- A chain stays a chain when more nodes are allocated. -/
theorem Seg.mono : ∀ {l : List α} {p : Option α}, Seg nx p l e →
    (∀ a q, nx a = some q → nx' a = some q) → Seg nx' p l e
  | [], _, h, _ => h
  | a :: _, _, ⟨hp, q, hq, h⟩, hl => ⟨hp, q, hl a q hq, h.mono hl⟩

theorem Linked.congr (h : Linked nx p l) (hl : ∀ a ∈ l, nx' a = nx a) : Linked nx' p l :=
  Seg.congr h hl

/-- Every node of a chain is allocated. -/
theorem Seg.allocated : ∀ {l : List α} {p : Option α}, Seg nx p l e → ∀ a ∈ l, ∃ q, nx a = some q
  | b :: l, _, ⟨_, q, hq, h⟩, a, ha => by
    rcases List.mem_cons.mp ha with rfl | ha
    · exact ⟨q, hq⟩
    · exact h.allocated a ha

theorem Linked.allocated (h : Linked nx p l) (ha : a ∈ l) : ∃ q, nx a = some q :=
  Seg.allocated h a ha

/-- **The nodes of a chain are determined by its start.** -/
theorem Linked.unique : ∀ {l l' : List α} {p : Option α}, Linked nx p l → Linked nx p l' → l = l'
  | [], [], _, _, _ => rfl
  | [], b :: l', p, h, h' => by
    rw [linked_nil] at h
    rw [linked_cons, h] at h'
    exact absurd h'.1 (by simp)
  | a :: l, [], p, h, h' => by
    rw [linked_nil] at h'
    rw [linked_cons, h'] at h
    exact absurd h.1 (by simp)
  | a :: l, b :: l', p, ⟨hp, q, hq, h⟩, ⟨hp', q', hq', h'⟩ => by
    obtain rfl : a = b := Option.some.inj (hp.symm.trans hp')
    obtain rfl : q = q' := Option.some.inj (hq.symm.trans hq')
    rw [Linked.unique h h']

/-- What follows a node of a chain is a chain of its own. -/
theorem Linked.tail_at (h : Linked nx p (l₁ ++ a :: l₂)) : Linked nx (some a) (a :: l₂) := by
  obtain ⟨q, -, h2⟩ := linked_append_iff.mp h
  obtain ⟨rfl, r, hr, h2⟩ := h2
  exact ⟨rfl, r, hr, h2⟩

/-- **A chain visits no node twice.** -/
theorem Linked.nodup : ∀ {l : List α} {p : Option α}, Linked nx p l → l.Nodup
  | [], _, _ => List.nodup_nil
  | a :: l, p, h => by
    obtain ⟨rfl, q, hq, hl⟩ := linked_cons.mp h
    refine List.nodup_cons.mpr ⟨fun ha => ?_, hl.nodup⟩
    -- a second visit would start the same chain again, one node shorter
    obtain ⟨l₁, l₂, rfl⟩ := List.append_of_mem ha
    have hlen := congrArg List.length (h.unique hl.tail_at)
    simp at hlen
    omega

/-- A second node is appended behind the last node `b`. -/
theorem Linked.snoc (h : Linked nx p (l ++ [b])) (hl : ∀ c ∈ l, nx' c = nx c)
    (hb : nx' b = some (some a)) (ha : nx' a = some none) : Linked nx' p (l ++ [b, a]) := by
  obtain ⟨q, h1, rfl, -⟩ := linked_append_iff.mp h
  exact linked_append_iff.mpr ⟨some b, h1.congr hl, rfl, some a, hb, rfl, none, ha, rfl⟩

/-- The node `a` behind `b` is taken out. -/
theorem Linked.unlink (h : Linked nx p (l₁ ++ b :: a :: l₂)) (hb : nx' b = nx a)
    (h₁ : ∀ c ∈ l₁, nx' c = nx c) (h₂ : ∀ c ∈ l₂, nx' c = nx c) : Linked nx' p (l₁ ++ b :: l₂) := by
  obtain ⟨q, hq, rfl, r, hr, rfl, t, ht, hl⟩ := linked_append_iff.mp h
  exact linked_append_iff.mpr ⟨some b, hq.congr h₁, rfl, t, by rw [hb, ht], hl.congr h₂⟩

/-- The first node is taken out. -/
theorem Linked.behead (h : Linked nx p (a :: l)) (hl : ∀ c ∈ l, nx' c = nx c) :
    ∃ q, nx a = some q ∧ Linked nx' q l := by
  obtain ⟨-, q, hq, h⟩ := h
  exact ⟨q, hq, h.congr hl⟩

/-- The link of the last node is null. -/
theorem Linked.last (h : Linked nx p (l ++ [b])) : nx b = some none := by
  obtain ⟨q, -, -, r, hr, rfl⟩ := linked_append_iff.mp h
  exact hr

theorem Linked.start (h : Linked nx p l) : p = l.head? := by
  cases l with
  | nil => exact h
  | cons a l => exact h.1

/-! ### Taking one out -/

/-- The last element stays when another one is taken out. -/
theorem getLast_erase {β : Type*} [DecidableEq β] {a : β} : ∀ {l : List β},
    l.getLast? ≠ some a → (l.erase a).getLast? = l.getLast?
  | [], _ => rfl
  | [b], h => by
    have hba : b ≠ a := by simpa using h
    rw [List.erase_cons_tail (by simpa using hba)]
    rfl
  | b :: c :: l, h => by
    rw [List.getLast?_cons_cons] at h ⊢
    have ih := getLast_erase h
    by_cases hba : b = a
    · rw [hba, List.erase_cons_head]
    · rw [List.erase_cons_tail (by simpa using hba), ← ih]
      cases hrest : (c :: l).erase a with
      | nil =>
        rw [hrest] at ih
        simp [List.getLast?_cons] at ih
      | cons d m => rfl

end LinuxHomework.Lib.Chain
