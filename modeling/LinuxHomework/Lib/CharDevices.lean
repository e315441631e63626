import Mathlib.Data.Int.Notation
import Mathlib.Data.List.Basic
import Mathlib.Logic.Function.Basic
import Mathlib.Tactic.Basic

/-! # Character devices

What a kernel keeps for the character devices of its drivers: the ranges of device numbers that are
taken, and the device that is found under a number. A range is given away only if its numbers are
free, and a range without numbers is not given back.

* `unregister_register`: a range that is taken and given back.
* `cdev_addEach`, `cdev_delEach`: a driver adds its devices, and deletes them. -/

namespace LinuxHomework.Lib.CharDevices

/-- A range of device numbers. -/
structure Region where
  first : ℕ
  count : ℕ
deriving DecidableEq

/-- The number is in the range. -/
def Region.Has (r : Region) (n : ℕ) : Prop := r.first ≤ n ∧ n < r.first + r.count

instance (r : Region) (n : ℕ) : Decidable (r.Has n) := inferInstanceAs (Decidable (_ ∧ _))

/-- No number is in both ranges. -/
def Region.Apart (r q : Region) : Prop :=
  r.first + r.count ≤ q.first ∨ q.first + q.count ≤ r.first

instance (r q : Region) : Decidable (r.Apart q) := inferInstanceAs (Decidable (_ ∨ _))

/-- A `struct cdev`: the one in an element of an array of devices. -/
structure Cdev where
  array : ℤ
  index : ℕ
deriving DecidableEq

/-- **The ranges that are taken, and the devices under their numbers.** -/
@[ext] structure Registry where
  regions : List Region
  cdev : ℕ → Option Cdev

namespace Registry

variable {g : Registry} {r : Region} {n first : ℕ} {c : Cdev}

/-- The numbers of the range are free. -/
def Free (g : Registry) (r : Region) : Prop := ∀ q ∈ g.regions, r.Apart q

instance (g : Registry) (r : Region) : Decidable (g.Free r) :=
  inferInstanceAs (Decidable (∀ q ∈ g.regions, r.Apart q))

/-- `register_chrdev_region` or `alloc_chrdev_region`, where they succeed. -/
def register (g : Registry) (r : Region) : Registry := { g with regions := r :: g.regions }

/-- `unregister_chrdev_region`. -/
def unregister (g : Registry) (r : Region) : Registry :=
  if r.count = 0 then g else { g with regions := g.regions.erase r }

/-- `cdev_add`, where it succeeds. -/
def add (g : Registry) (n : ℕ) (c : Cdev) : Registry :=
  { g with cdev := Function.update g.cdev n (some c) }

/-- `cdev_del`. -/
def del (g : Registry) (n : ℕ) : Registry := { g with cdev := Function.update g.cdev n none }

/-- **Every device has a number that its driver has taken.** -/
def Sound (g : Registry) : Prop := ∀ n, (g.cdev n).isSome → ∃ r ∈ g.regions, r.Has n

theorem unregister_register (h : r.count ≠ 0) : (g.register r).unregister r = g := by
  unfold unregister register
  rw [if_neg h, List.erase_cons_head]

/-- There is no device under a number that is free. -/
theorem Sound.cdev_of_free (h : g.Sound) (hfree : g.Free r) (hn : r.Has n) : g.cdev n = none := by
  by_contra hsome
  obtain ⟨q, hq, hqn⟩ := h n (Option.isSome_iff_ne_none.mpr hsome)
  obtain ⟨hle, hlt⟩ := hn
  obtain ⟨hqle, hqlt⟩ := hqn
  rcases hfree q hq with hap | hap <;> omega

/-! ### The devices of a driver -/

/-- Those of the devices with the indices `l` are added for which `cdev_add` succeeds. -/
def addEach (g : Registry) (first : ℕ) (array : ℤ) (ok : ℕ → Bool) (l : List ℕ) : Registry :=
  l.foldl (fun g i => if ok i then g.add (first + i) ⟨array, i⟩ else g) g

/-- The devices with the indices `l` are deleted. -/
def delEach (g : Registry) (first : ℕ) (l : List ℕ) : Registry :=
  l.foldl (fun g i => g.del (first + i)) g

theorem regions_addEach {array : ℤ} {ok : ℕ → Bool} {l : List ℕ} :
    (g.addEach first array ok l).regions = g.regions := by
  induction l generalizing g with
  | nil => rfl
  | cons i l ih =>
    refine ih.trans ?_
    show (if ok i then _ else g).regions = g.regions
    split_ifs <;> rfl

theorem regions_delEach {l : List ℕ} : (g.delEach first l).regions = g.regions := by
  induction l generalizing g with
  | nil => rfl
  | cons i l ih => exact ih

/-- **What is found** after some devices were added. -/
theorem cdev_addEach {array : ℤ} {ok : ℕ → Bool} {l : List ℕ} : (g.addEach first array ok l).cdev n =
    if first ≤ n ∧ n - first ∈ l ∧ ok (n - first) = true then some ⟨array, n - first⟩ else g.cdev n := by
  induction l generalizing g with
  | nil => exact (if_neg (by simp)).symm
  | cons i l ih =>
    refine ih.trans ?_
    dsimp only
    by_cases hrest : first ≤ n ∧ n - first ∈ l ∧ ok (n - first) = true
    · rw [if_pos hrest, if_pos ⟨hrest.1, List.mem_cons_of_mem i hrest.2.1, hrest.2.2⟩]
    rw [if_neg hrest]
    by_cases hnew : ok i = true ∧ n = first + i
    · obtain ⟨hok, rfl⟩ := hnew
      rw [if_pos hok, Nat.add_sub_cancel_left, if_pos ⟨Nat.le_add_right .., List.mem_cons_self, hok⟩]
      exact Function.update_self ..
    · have hold : (if ok i then g.add (first + i) ⟨array, i⟩ else g).cdev n = g.cdev n := by
        split_ifs with hok
        · exact Function.update_of_ne (fun hn => hnew ⟨hok, hn⟩) ..
        · rfl
      rw [hold, if_neg]
      rintro ⟨hle, hmem, hok⟩
      rcases List.mem_cons.mp hmem with rfl | hmem
      · exact hnew ⟨hok, (Nat.add_sub_cancel' hle).symm⟩
      · exact hrest ⟨hle, hmem, hok⟩

/-- Nothing else is deleted. -/
theorem cdev_delEach {l : List ℕ} : (g.delEach first l).cdev n =
    if first ≤ n ∧ n - first ∈ l then none else g.cdev n := by
  induction l generalizing g with
  | nil => exact (if_neg (by simp)).symm
  | cons i l ih =>
    refine ih.trans ?_
    by_cases hn : n = first + i
    · subst hn
      have hself : (g.del (first + i)).cdev (first + i) = none := Function.update_self ..
      rw [hself, ite_self, if_pos ⟨Nat.le_add_right .., by simp⟩]
    · have hother : (g.del (first + i)).cdev n = g.cdev n := Function.update_of_ne hn ..
      rw [hother]
      refine if_congr (and_congr_right fun hle => ?_) rfl rfl
      rw [List.mem_cons, or_iff_right]
      omega

end Registry

end LinuxHomework.Lib.CharDevices
