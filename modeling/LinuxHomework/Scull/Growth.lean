import LinuxHomework.Scull.Inside

/-! # What a growing list keeps

While a call makes items, arrays and quanta, the quanta that are there stay where they are, and
their bytes too. Of the list itself only pointers that are null change (`Unset`), and the rest of
memory changes only where a block is allocated.

* `quantumIn_of_keeps`: a place keeps its quantum.
* `byte_of_grows`: a byte of a quantum.
* `unchanged_of_grows`: any other byte. -/

namespace LinuxHomework.Scull.Growth

open LinuxHomework.Lib.CInt LinuxHomework.Lib.Memory LinuxHomework.Lib.Outcome
open LinuxHomework.Scull.Device LinuxHomework.Scull.Layout LinuxHomework.Scull.Calls
open LinuxHomework.Scull.Tree LinuxHomework.Scull.Copy LinuxHomework.Scull.Inside

variable {m m' : Mem} {s t : ScullDev} {tree tree' : List Item} {b : Block} {a w x : Word}
  {pl : Place} {i j : ℕ}

/-! ### Quanta -/

/-- **A place keeps its quantum.** -/
theorem quantumIn_of_keeps
    (h : ∀ (i : ℕ) (it : Item), tree[i]? = some it → ∃ it', tree'[i]? = some it' ∧ it.Keeps it')
    (hb : quantumIn tree i j = some b) : quantumIn tree' i j = some b := by
  obtain ⟨l₁, it, l₂, a, -, hit, ha, hq⟩ := exists_quantum hb
  obtain ⟨it', hit', hkeeps⟩ := h i it hit
  obtain ⟨a', ha', -, hquanta⟩ := hkeeps.array a ha
  unfold quantumIn
  rw [hit', Option.bind_some, ha', Option.bind_some, hquanta j b hq]
  rfl

/-- The quantum in the list of items is the one in memory. -/
theorem quantumOf_of_quantumIn (h : Rep s tree) (hj : 0 ≤ pl.sPos)
    (hb : quantumIn tree pl.item.toNat pl.sPos.toNat = some b) : quantumOf s pl = b.addr := by
  obtain ⟨l₁, it, l₂, a, -, hit, ha, hq⟩ := exists_quantum hb
  exact quantumOf_eq h hit ha hj hq

theorem exists_quantumIn (h : Rep s tree) (hj : 0 ≤ pl.sPos ∧ pl.sPos < s.qset)
    (hq : quantumOf s pl ≠ 0) : ∃ b, quantumIn tree pl.item.toNat pl.sPos.toNat = some b ∧
      quantumOf s pl = b.addr := by
  have harr : arrayOf s pl.item.toNat ≠ 0 := fun h0 => hq (if_pos h0)
  obtain ⟨it, hit⟩ : ∃ it, tree[pl.item.toNat]? = some it := by
    refine ⟨_, List.getElem?_eq_getElem ?_⟩
    by_contra hge
    exact harr (arrayOf_missing h (not_lt.mp hge))
  obtain ⟨a, ha⟩ : ∃ a, it.array = some a := by
    refine Option.ne_none_iff_exists'.mp fun hnone => harr ?_
    rw [arrayOf_eq h hit]
    simp [Item.data, hnone, addrOf]
  have hlen := ((h.sized it (List.mem_of_getElem? hit)).array a ha).1
  have hget : a.quanta[pl.sPos.toNat]? = some a.quanta[pl.sPos.toNat] :=
    List.getElem?_eq_getElem (by omega)
  have heq := quantumOf_eq h hit ha hj.1 hget
  cases hquantum : a.quanta[pl.sPos.toNat] with
  | none =>
    rw [heq, hquantum] at hq
    exact absurd rfl hq
  | some b =>
    rw [hquantum] at hget heq
    refine ⟨b, ?_, heq⟩
    unfold quantumIn
    rw [hit, Option.bind_some, ha, Option.bind_some, hget]
    rfl

/-! ### Bytes -/

/-- No new block holds a byte of an old one. -/
theorem not_inNew (h : Grows s t tree tree') (hb : b ∈ s.live) (hx : InRange b.addr b.size x) :
    ¬ InNew s t x := by
  rintro ⟨c, hc, hnew, hxc⟩
  have hne : c ≠ b := by
    rintro rfl
    exact hnew hb
  have : Std.Symm fun b c : Block => Apart b.addr b.size c.addr c.size := ⟨fun _ _ h => h.symm⟩
  have hmem (d : Block) : d ∈ t.live ↔ d ∈ blocks tree' := h.rep.live.mem_iff
  have hap := h.rep.apart.forall ((hmem c).mp hc) ((hmem b).mp (h.keeps b hb)) hne
  exact hap.not_mem hxc hx

/-- **A byte of a quantum** stays while the list grows. -/
theorem byte_of_grows (h : Grows s t tree tree') (hrep : Rep s tree)
    (hb : quantumIn tree i j = some b) (hx : InRange b.addr b.size x) : t.mem x = s.mem x :=
  h.same x (fun hx' => off_quantum hrep hb hx' hx)
    (not_inNew h (hrep.mem_live (quantum_block hrep hb).1) hx)

/-- The addresses of the pointers in the items and arrays of the list. -/
def pointers (s : ScullDev) : List Word :=
  (items s).flatMap fun a =>
    let d := (word s.mem a).getD 0
    a :: (a + 4) :: if d = 0 then []
      else (List.range s.qset.toNat).map fun j => d + BitVec.ofNat 32 (4 * j)

/-- A byte of a null pointer in the list. -/
def Unset (s : ScullDev) (x : Word) : Prop :=
  ∃ w ∈ pointers s, word s.mem w = some 0 ∧ InRange w 4 x

instance (s : ScullDev) : DecidablePred (Unset s) :=
  fun _ => inferInstanceAs (Decidable (∃ w ∈ pointers s, _))

section Pointers
variable {it : Item} {arr : Pointers}

theorem mem_items (h : Rep s tree) (hit : it ∈ tree) : it.block.addr ∈ items s := by
  rw [items_eq h]
  exact List.mem_map.mpr ⟨it, hit, rfl⟩

theorem mem_pointers_data (h : Rep s tree) (hit : it ∈ tree) : it.block.addr ∈ pointers s :=
  List.mem_flatMap.mpr ⟨_, mem_items h hit, by simp⟩

theorem mem_pointers_next (h : Rep s tree) (hit : it ∈ tree) : it.block.addr + 4 ∈ pointers s :=
  List.mem_flatMap.mpr ⟨_, mem_items h hit, by simp⟩

theorem mem_pointers_entry (h : Rep s tree) (hit : it ∈ tree) (ha : it.array = some arr)
    (hj : j < arr.quanta.length) : entryAt arr j ∈ pointers s := by
  have hmem := mem_items h hit
  obtain ⟨l₁, l₂, rfl⟩ := List.append_of_mem hit
  have hdata : (word s.mem it.block.addr).getD 0 = arr.block.addr := by
    rw [(spine_append.mp h.spine).2.1.data, data_eq ha]
    rfl
  have hlen := ((h.sized it hit).array arr ha).1
  refine List.mem_flatMap.mpr ⟨_, hmem, ?_⟩
  simp only [hdata, if_neg (array_addr_ne_zero h hit ha)]
  refine List.mem_cons_of_mem _ (List.mem_cons_of_mem _ (List.mem_map.mpr ⟨j, ?_, rfl⟩))
  exact List.mem_range.mpr (by omega)

/-- A list cut at one of its items, which is in memory. -/
theorem exists_stored (h : Rep s tree) (hi : tree[i]? = some it) :
    ∃ l₁ l₂, tree = l₁ ++ it :: l₂ ∧ l₁.length = i ∧ it.Stored s.mem (link l₂ 0) := by
  obtain ⟨l₁, l₂, htree, hl₁⟩ := exists_split hi
  have hspine := h.spine
  rw [htree] at hspine
  exact ⟨l₁, l₂, htree, hl₁, (spine_append.mp hspine).2.1⟩

/-- The word `data` stays if it is not null. -/
theorem data_kept {it' : Item} {next' : Word} (hkeeps : it.Keeps it')
    (hstored' : it'.Stored m' next') (h0 : it.data ≠ 0) :
    word m' it.block.addr = some it.data := by
  obtain ⟨arr, harr⟩ : ∃ arr, it.array = some arr := by
    refine Option.ne_none_iff_exists'.mp fun hnone => h0 ?_
    simp [Item.data, hnone, addrOf]
  obtain ⟨arr', harr', hblock, -⟩ := hkeeps.array arr harr
  rw [← hkeeps.block, hstored'.data, data_eq harr, data_eq harr', hblock]

/-- An entry of an array stays if it is not null. -/
theorem entry_kept {it' : Item} {next' : Word} (hkeeps : it.Keeps it')
    (hstored' : it'.Stored m' next') (harr : it.array = some arr)
    (hb : arr.quanta[j]? = some (some b)) : word m' (entryAt arr j) = some b.addr := by
  obtain ⟨arr', harr', hblock, hquanta⟩ := hkeeps.array arr harr
  have hword := hstored'.entry arr' harr' _ _ (hquanta j b hb)
  unfold entryAt at hword ⊢
  rwa [hblock] at hword

/-- The word `next` stays if it is not null: the item behind is still there. -/
theorem next_kept {l₁ l₂ k₁ k₂ : List Item} {it' jt : Item} {next' : Word}
    (h : ∀ (i : ℕ) (kt : Item), (l₁ ++ it :: jt :: l₂)[i]? = some kt →
      ∃ kt', (k₁ ++ it' :: k₂)[i]? = some kt' ∧ kt.Keeps kt')
    (hlen : k₁.length = l₁.length) : link k₂ next' = jt.block.addr := by
  obtain ⟨kt, hkt, hkeeps⟩ := h (l₁.length + 1) jt (by
    rw [List.getElem?_append_right (by omega), Nat.add_sub_cancel_left]
    rfl)
  rw [List.getElem?_append_right (by omega), hlen, Nat.add_sub_cancel_left] at hkt
  cases k₂ with
  | nil => exact absurd hkt (by simp)
  | cons k k₂ =>
    obtain rfl : k = kt := Option.some.inj hkt
    exact congrArg Block.addr hkeeps.block

/-- A byte of an item or of an array belongs to a pointer, which the list keeps if it is not
null. -/
theorem pointer_of_touched (h : Grows s t tree tree') (hrep : Rep s tree) (hx : Touched tree x) :
    ∃ w ∈ pointers s, InRange w 4 x ∧ ∃ v, word s.mem w = some v ∧
      (v ≠ 0 → word t.mem w = some v) := by
  obtain ⟨it, hit, hx⟩ := hx
  obtain ⟨i, hi⟩ := List.mem_iff_getElem?.mp hit
  obtain ⟨it', hi', hkeeps⟩ := h.items i it hi
  obtain ⟨l₁, l₂, htree, hl₁, hstored⟩ := exists_stored hrep hi
  obtain ⟨k₁, k₂, htree', hk₁, hstored'⟩ := exists_stored h.rep hi'
  rcases hx with hx | ⟨arr, harr, hx⟩
  · by_cases hdata : InRange it.block.addr 4 x
    · exact ⟨_, mem_pointers_data hrep hit, hdata, it.data, hstored.data, data_kept hkeeps hstored'⟩
    · have hnext : InRange (it.block.addr + 4) 4 x := by
        unfold InRange at hx hdata ⊢
        bv_omega
      refine ⟨_, mem_pointers_next hrep hit, hnext, link l₂ 0, hstored.next, fun h0 => ?_⟩
      cases l₂ with
      | nil => exact absurd rfl h0
      | cons jt l₂ =>
        have hitems := h.items
        rw [htree, htree'] at hitems
        rw [← hkeeps.block, hstored'.next, next_kept hitems (by omega)]
        rfl
  · have hlen := (hrep.sized it hit).length_lt hrep.qset.2 harr
    have hlt : (x - arr.block.addr).toNat / 4 < arr.quanta.length := by
      unfold InRange at hx
      omega
    have hentry : InRange (entryAt arr ((x - arr.block.addr).toNat / 4)) 4 x := by
      unfold entryAt
      unfold InRange at hx ⊢
      bv_omega
    have hget := List.getElem?_eq_getElem hlt
    refine ⟨_, mem_pointers_entry hrep hit harr hlt, hentry, _,
      hstored.entry arr harr _ _ hget, fun h0 => ?_⟩
    cases hq : arr.quanta[(x - arr.block.addr).toNat / 4] with
    | none =>
      rw [hq] at h0
      exact absurd rfl h0
    | some b =>
      rw [hq] at hget
      exact entry_kept hkeeps hstored' harr hget

end Pointers

/-- **Any other byte** stays while the list grows: where no block is allocated, and no null pointer
is filled in. -/
theorem unchanged_of_grows (h : Grows s t tree tree') (hrep : Rep s tree) (hnew : ¬ InNew s t x)
    (hunset : ¬ Unset s x) : t.mem x = s.mem x := by
  by_cases hx : Touched tree x
  · obtain ⟨w, hw, hin, v, hv, hkept⟩ := pointer_of_touched h hrep hx
    have h0 : v ≠ 0 := by
      rintro rfl
      exact hunset ⟨w, hw, hv, hin⟩
    rw [byte_of_word hv hin, byte_of_word (hkept h0) hin]
  · exact h.same x hx hnew

end LinuxHomework.Scull.Growth
