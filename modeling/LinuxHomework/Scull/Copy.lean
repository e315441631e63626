import LinuxHomework.Scull.Tree

/-! # The user copies of the scull driver

`scull_read` and `scull_write` first look for the quantum of the position (`readFind`, `writeFind`),
and then copy to or from `dev->data + *f_pos` (`readCopy`, `writeCopy`). What the search finds and
makes can be told from the device before the call and the answers of `kmalloc`: `quantumAt` is the
quantum, and `Part` are the addresses of the items and pointer arrays.

* `readFind_tree`, `writeFind_tree`: the search, on the blocks of the device.
* `scullRead_eq`, `scullWrite_eq`: the calls. -/

namespace LinuxHomework.Scull.Copy

open LinuxHomework.Lib.CInt LinuxHomework.Lib.Memory LinuxHomework.Lib.Outcome
open LinuxHomework.Scull.Device LinuxHomework.Scull.Layout LinuxHomework.Scull.Calls
open LinuxHomework.Scull.Tree

/-! ### Search and copy -/

/-- `scull_read` up to its user copy: the quantum, null if there is none. -/
def readFind (s : ScullDev) (pl : Place) : Except Stop (Word × ScullDev) := do
  let (dptr, s) ← scullFollow s pl.item
  if dptr = 0 then return (0, s)
  let data ← s.load dptr
  if data = 0 then return (0, s)
  let quantum ← s.load (entry data pl.sPos)
  return (quantum, s)

/-- `scull_write` up to its user copy: the quantum, null if memory ran out. -/
def writeFind (s : ScullDev) (pl : Place) : Except Stop (Word × ScullDev) := do
  let (dptr, s) ← scullFollow s pl.item
  if dptr = 0 then return (0, s)
  let (data, s) ← itemData s dptr
  if data = 0 then return (0, s)
  entryQuantum s (entry data pl.sPos)

/-- The number of bytes that a read copies. -/
def readLen (s : ScullDev) (pl : Place) (count : ℕ) (fPos : ℤ) : ℕ :=
  min (if wrap64 (fPos + count) > s.size then size32 (s.size - fPos) else count)
    (size32 (s.quantum - pl.qPos))

/-- The number of bytes that a write copies. -/
def writeLen (s : ScullDev) (pl : Place) (count : ℕ) (fPos : ℤ) : ℕ :=
  let count := min count (size32 (s.quantum - pl.qPos))
  if wrap64 (fPos + count) > SCULL_DATA_SIZE then size32 (SCULL_DATA_SIZE - fPos) else count

/-- The number of bytes due: as many as are asked for, as there are in the quantum, and as there are
up to `limit`. -/
def due (s : ScullDev) (pl : Place) (count : ℕ) (fPos limit : ℤ) : ℤ :=
  min (min count (s.quantum - pl.qPos)) (limit - fPos)

/-- The user copy of a read of `n` bytes, and what follows. -/
def readCopy (k : Kernel) (s : ScullDev) (n : ℕ) (fPos : ℤ) : Except Stop (Reply × ScullDev) := do
  let bytes ← copyToUser s k (copyAddr s fPos) n
  if k.faults n then return (⟨-EFAULT, fPos, bytes, some (copyAddr s fPos, n), viaOut⟩, s)
  return (⟨wrap32 n, wrap64 (fPos + n), bytes, some (copyAddr s fPos, n), viaOut⟩, s)

/-- The user copy of a write of `n` bytes, and what follows. -/
def writeCopy (k : Kernel) (s : ScullDev) (buf : ℕ → Byte) (n : ℕ) (fPos : ℤ) :
    Except Stop (Reply × ScullDev) := do
  let s ← copyFromUser s k (copyAddr s fPos) buf n
  if k.faults n then return (⟨-EFAULT, fPos, [], some (copyAddr s fPos, n), viaOut⟩, s)
  let fPos' := wrap64 (fPos + n)
  let s := if (s.size : ℤ) < fPos' then { s with size := size32 fPos' } else s
  return (⟨wrap32 n, fPos', (List.range n).map buf, some (copyAddr s fPos, n), viaOut⟩, s)

variable {s t : ScullDev} {k : Kernel} {buf : ℕ → Byte} {count : ℕ} {p : ℤ} {pl : Place}

/-- A copy of mapped bytes returns. -/
theorem copyToUser_eq {src : Word} {n : ℕ} (h : Mapped s.mem src n) :
    copyToUser s k src n = .ok ((List.range ((k.fault.getD n).min n)).map fun i =>
      (s.mem (src + BitVec.ofNat 32 i)).getD 0) :=
  if_pos fun i hi => h i (lt_of_lt_of_le hi (Nat.min_le_right _ _))

theorem copyFromUser_eq {dst : Word} {n : ℕ} (h : Mapped s.mem dst n) :
    copyFromUser s k dst buf n = .ok { s with
      mem := fill s.mem dst n fun i => if k.fault.getD n ≤ i then 0 else buf i } :=
  if_pos h

theorem not_faults (h : k.fault = none) (n : ℕ) : ¬ k.faults n := by
  unfold Kernel.faults
  rw [h]
  exact lt_irrefl n

theorem readCopy_eq {n : ℕ} (h : Mapped s.mem (copyAddr s p) n) : ∃ v q bs,
    readCopy k s n p = .ok (⟨v, q, bs, some (copyAddr s p, n), viaOut⟩, s) := by
  unfold readCopy
  rw [copyToUser_eq h]
  by_cases hfault : k.faults n
  · exact ⟨_, _, _, if_pos hfault⟩
  · exact ⟨_, _, _, if_neg hfault⟩

/-- A user copy that does not fault. -/
theorem readCopy_full {n : ℕ} (h : Mapped s.mem (copyAddr s p) n) (hfault : ¬ k.faults n)
    (hn : n < 2 ^ 31) :
    readCopy k s n p = .ok (⟨n, wrap64 (p + n), (List.range n).map fun i =>
      (s.mem (copyAddr s p + BitVec.ofNat 32 i)).getD 0, some (copyAddr s p, n), viaOut⟩, s) := by
  have hmin : (k.fault.getD n).min n = n := Nat.min_eq_right (not_lt.mp hfault)
  unfold readCopy
  rw [copyToUser_eq h, hmin, wrap32_of_lt (by omega) (by omega)]
  exact if_neg hfault

/-- A user copy that faults has zeroed the rest of its destination. -/
theorem writeCopy_faulted {n : ℕ} (h : Mapped s.mem (copyAddr s p) n) (hfault : k.faults n) :
    writeCopy k s buf n p = .ok (⟨-EFAULT, p, [], some (copyAddr s p, n), viaOut⟩,
      { s with mem := fill s.mem (copyAddr s p) n fun i =>
        if k.fault.getD n ≤ i then 0 else buf i }) := by
  unfold writeCopy
  rw [copyFromUser_eq h]
  exact if_pos hfault

theorem writeCopy_full {n : ℕ} (h : Mapped s.mem (copyAddr s p) n) (hfault : ¬ k.faults n)
    (hn : n < 2 ^ 31) :
    writeCopy k s buf n p = .ok
      (⟨n, wrap64 (p + n), (List.range n).map buf, some (copyAddr s p, n), viaOut⟩,
        { s with
          mem := fill s.mem (copyAddr s p) n buf
          size := if (s.size : ℤ) < wrap64 (p + n) then size32 (wrap64 (p + n)) else s.size }) := by
  have hfill : fill s.mem (copyAddr s p) n (fun i => if k.fault.getD n ≤ i then 0 else buf i) =
      fill s.mem (copyAddr s p) n buf :=
    fill_congr fun i hi => if_neg (by have := not_lt.mp hfault; omega)
  unfold writeCopy
  rw [copyFromUser_eq h, hfill, wrap32_of_lt (by omega) (by omega)]
  show (if k.faults n then _ else pure (_, if (s.size : ℤ) < wrap64 (p + n) then _ else _)) = _
  rw [if_neg hfault]
  split_ifs <;> rfl

theorem writeCopy_eq {n : ℕ} (h : Mapped s.mem (copyAddr s p) n) : ∃ v q bs f size,
    writeCopy k s buf n p = .ok (⟨v, q, bs, some (copyAddr s p, n), viaOut⟩,
      { s with mem := fill s.mem (copyAddr s p) n f, size := size }) := by
  unfold writeCopy
  rw [copyFromUser_eq h]
  by_cases hfault : k.faults n
  · exact ⟨_, _, _, _, s.size, if_pos hfault⟩
  · refine ⟨wrap32 n, wrap64 (p + n), (List.range n).map buf,
      fun i => if k.fault.getD n ≤ i then 0 else buf i,
      if (s.size : ℤ) < wrap64 (p + n) then size32 (wrap64 (p + n)) else s.size, ?_⟩
    show (if k.faults n then _ else pure (_, if (s.size : ℤ) < wrap64 (p + n) then _ else _)) = _
    rw [if_neg hfault]
    split_ifs <;> rfl

/-- **A read** inside the file is a search and a copy. The bound by the end of the file is computed
before the search. -/
theorem scullRead_eq (hk : k.taken = true) (hp : p < s.size)
    (hpl : place s.quantum s.qset p = .ok pl) :
    scullRead k s count p = readFind s pl >>= fun r =>
      if r.1 = 0 then .ok (⟨0, p, [], none, viaOut⟩, r.2)
      else readCopy k r.2 (readLen { s with quantum := r.2.quantum } pl count p) p := by
  unfold scullRead readFind
  rw [if_neg (by simp [hk]), if_neg (not_le.mpr hp), hpl]
  show (scullFollow s pl.item >>= _) = _
  rw [bind_assoc]
  refine bind_congr fun r => ?_
  obtain ⟨dptr, t⟩ := r
  by_cases h0 : dptr = 0
  · simp only [h0, if_true, pure_bind]
    rfl
  · simp only [h0, if_false, bind_assoc]
    refine bind_congr fun data => ?_
    by_cases hd : data = 0
    · simp only [hd, if_true, pure_bind]
      rfl
    · simp only [hd, if_false, bind_assoc, pure_bind]
      rfl

/-- **A write** is a search and a copy. -/
theorem scullWrite_eq (hk : k.taken = true) (hpl : place s.quantum s.qset p = .ok pl) :
    scullWrite k s buf count p = writeFind s pl >>= fun r =>
      if r.1 = 0 then .ok (⟨-ENOMEM, p, [], none, viaOut⟩, r.2)
      else writeCopy k r.2 buf (writeLen r.2 pl count p) p := by
  unfold scullWrite writeFind
  rw [if_neg (by simp [hk]), hpl]
  show (scullFollow s pl.item >>= _) = _
  rw [bind_assoc]
  refine bind_congr fun r => ?_
  obtain ⟨dptr, t⟩ := r
  by_cases h0 : dptr = 0
  · simp only [h0, if_true, pure_bind]
    rfl
  · simp only [h0, if_false, bind_assoc]
    refine bind_congr fun r => ?_
    obtain ⟨data, t'⟩ := r
    by_cases hd : data = 0
    · simp only [hd, if_true, pure_bind]
      rfl
    · simp only [hd, if_false]
      rfl

/-! ### What a search finds and makes -/

/-- The items of the list in memory from `a` on, at most `n` of them. -/
def itemsFrom (m : Mem) : ℕ → Word → List Word
  | 0, _ => []
  | n + 1, a => if a = 0 then [] else a :: itemsFrom m n ((word m (a + 4)).getD 0)

/-- The items of the device. -/
def items (s : ScullDev) : List Word := itemsFrom s.mem (2 ^ 32) s.data

/-- The number of items that a walk to the item with the number `i` makes. -/
def missing (s : ScullDev) (i : ℕ) : ℕ := i + 1 - (items s).length

/-- The pointer array of the item with the number `i`, null if there is none. -/
def arrayOf (s : ScullDev) (i : ℕ) : Word := ((items s)[i]?.bind (word s.mem)).getD 0

/-- The quantum at a place, null if there is none. -/
def quantumOf (s : ScullDev) (pl : Place) : Word :=
  if arrayOf s pl.item.toNat = 0 then 0
  else (word s.mem (entry (arrayOf s pl.item.toNat) pl.sPos)).getD 0

/-- The answer of the `j`-th `kmalloc` of a call, null if there is none. -/
def answer (s : ScullDev) (j : ℕ) : Word := addrOf (s.answers[j]?.join.map Chunk.toBlock)

/-- The quantum at a place once a write has made what is missing: the items first, then the pointer
array, then the quantum. -/
def quantumAt (s : ScullDev) (pl : Place) : Word :=
  if quantumOf s pl ≠ 0 then quantumOf s pl
  else answer s (missing s pl.item.toNat + if arrayOf s pl.item.toNat = 0 then 1 else 0)

/-- The number of `kmalloc`s of a write that succeeds. -/
def used (s : ScullDev) (pl : Place) : ℕ :=
  missing s pl.item.toNat + (if arrayOf s pl.item.toNat = 0 then 1 else 0) +
    if quantumOf s pl = 0 then 1 else 0

/-- A write gets to its user copy: memory does not run out. -/
def Supplied (s : ScullDev) (pl : Place) : Prop := 0 ≤ pl.item ∧ none ∉ s.answers.take (used s pl)

instance (s : ScullDev) (pl : Place) : Decidable (Supplied s pl) :=
  decidable_of_iff (0 ≤ pl.item ∧ ∀ o ∈ s.answers.take (used s pl), o.isSome) <| by
    unfold Supplied
    refine and_congr_right fun _ => ⟨fun h hn => absurd (h none hn) (by simp), fun h o ho => ?_⟩
    rw [Option.isSome_iff_ne_none]
    exact fun hn => h (hn ▸ ho)

/-- The ranges of the items and of the pointer arrays, once a write has made what is missing. -/
def parts (s : ScullDev) (pl : Place) : List (Word × ℕ) :=
  let n := (4 * s.qset).toNat
  (items s).map (fun a => (a, 8)) ++
    (((items s).map fun a => (word s.mem a).getD 0).filter (· ≠ 0)).map (fun d => (d, n)) ++
    (s.answers.take (missing s pl.item.toNat)).reduceOption.map (fun c => (c.addr, 8)) ++
    if arrayOf s pl.item.toNat = 0 then
      (s.answers[missing s pl.item.toNat]?.join.toList).map fun c => (c.addr, n)
    else []

/-- An address of an item or of a pointer array. -/
def Part (s : ScullDev) (pl : Place) (x : Word) : Prop := ∃ r ∈ parts s pl, InRange r.1 r.2 x

/-- The shape of a list of items: which of them have an array, and which entries have a quantum. -/
abbrev Shape := List (Option (List Bool))

def shape (tree : List Item) : Shape :=
  tree.map fun it => it.array.map fun a => a.quanta.map Option.isSome

/-- The shape after a walk to the item with the number `i`. -/
def extended (sh : Shape) (i : ℕ) : Shape := sh ++ List.replicate (i + 1 - sh.length) none

/-- The shape after the entry `j` of the item with the number `i` has got its quantum; an array has
`n` entries. -/
def marked (n : ℕ) (sh : Shape) (i j : ℕ) : Shape :=
  (extended sh i).set i (some (((extended sh i)[i]?.join.getD (List.replicate n false)).set j true))

/-- The quantum of an entry, in the list of items. -/
def quantumIn (tree : List Item) (i j : ℕ) : Option Block :=
  (tree[i]?.bind Item.array).bind fun a => a.quanta[j]?.join

variable {m : Mem} {tree tree' l₁ l₂ : List Item} {it : Item} {a : Pointers} {q : Option Block}
  {i j n : ℕ} {x : Word}

theorem exists_split {α : Type*} {l : List α} {v : α} (h : l[i]? = some v) :
    ∃ l₁ l₂, l = l₁ ++ v :: l₂ ∧ l₁.length = i := by
  obtain ⟨hlt, rfl⟩ := List.getElem?_eq_some_iff.mp h
  refine ⟨l.take i, l.drop (i + 1), ?_, by simp; omega⟩
  rw [List.cons_getElem_drop_succ, List.take_append_drop]

/-- A list in memory takes up two bytes and more for each item. -/
theorem length_le (h : Rep s tree) : tree.length ≤ 2 ^ 31 := by
  have hap := (List.pairwise_flatMap.mp h.apart).2
  have hpair : tree.Pairwise fun it jt => Apart it.block.addr 8 jt.block.addr 8 := by
    refine hap.imp_of_mem fun {it jt} hit hjt hab => ?_
    exact (hab it.block (by simp [Item.blocks]) jt.block (by simp [Item.blocks])).mono
      (h.sized it hit).item (h.sized jt hjt).item
  have hnodup : (tree.flatMap fun it => [it.block.addr, it.block.addr + 1]).Nodup := by
    refine List.pairwise_flatMap.mpr ⟨fun it _ => ?_, hpair.imp fun hab x hx y hy => ?_⟩
    · simp
    · simp at hx hy
      unfold Apart at hab
      rcases hx with rfl | rfl <;> rcases hy with rfl | rfl <;> bv_omega
  have hlen := length_le_of_nodup hnodup
  simp [List.length_flatMap] at hlen
  omega

theorem addr_ne_zero (h : Rep s tree) (hit : it ∈ tree) : it.block.addr ≠ 0 := by
  obtain ⟨l₁, l₂, rfl⟩ := List.append_of_mem hit
  exact h.addr_ne_zero

theorem itemsFrom_eq (h : Spine m tree 0) (h0 : ∀ it ∈ tree, it.block.addr ≠ 0) :
    ∀ {n : ℕ}, tree.length ≤ n → itemsFrom m n (link tree 0) = tree.map fun it => it.block.addr := by
  induction tree with
  | nil =>
    intro n _
    cases n with
    | zero => rfl
    | succ n => exact if_pos rfl
  | cons it rest ih =>
    intro n hn
    obtain ⟨hit, hrest⟩ := h
    cases n with
    | zero => simp at hn
    | succ n =>
      have hne : link (it :: rest) 0 ≠ 0 := h0 it (by simp)
      have hnext : (word m (link (it :: rest) 0 + 4)).getD 0 = link rest 0 := by
        show (word m (it.block.addr + 4)).getD 0 = _
        rw [hit.next]
        rfl
      rw [itemsFrom, if_neg hne, hnext, ih hrest (fun jt hj => h0 jt (by simp [hj])) (by simpa using hn)]
      rfl

theorem items_eq (h : Rep s tree) : items s = tree.map fun it => it.block.addr := by
  have hlen := length_le h
  unfold items
  rw [h.data]
  exact itemsFrom_eq h.spine (fun it hit => addr_ne_zero h hit) (by omega)

theorem missing_eq (h : Rep s tree) : missing s i = i + 1 - tree.length := by
  unfold missing
  rw [items_eq h, List.length_map]

theorem arrayOf_eq (h : Rep s tree) (hi : tree[i]? = some it) : arrayOf s i = it.data := by
  obtain ⟨l₁, l₂, rfl, -⟩ := exists_split hi
  have hit := (spine_append.mp h.spine).2.1
  unfold arrayOf
  rw [items_eq h, List.getElem?_map, hi]
  show (word s.mem it.block.addr).getD 0 = _
  rw [hit.data]
  rfl

theorem arrayOf_missing (h : Rep s tree) (hi : tree.length ≤ i) : arrayOf s i = 0 := by
  unfold arrayOf
  rw [items_eq h, List.getElem?_eq_none (by simpa using hi)]
  rfl

/-- An item points to its array, if it has one. -/
theorem data_eq (ha : it.array = some a) : it.data = a.block.addr := by
  simp [Item.data, ha, addrOf]

theorem array_addr_ne_zero (h : Rep s tree) (hit : it ∈ tree) (ha : it.array = some a) :
    a.block.addr ≠ 0 := by
  refine (h.sound a.block (h.mem_live (List.mem_flatMap.mpr ⟨it, hit, ?_⟩))).1
  simp [Item.blocks, ha]

theorem entry_eq (hj : 0 ≤ pl.sPos) : entry a.block.addr pl.sPos = entryAt a pl.sPos.toNat := by
  obtain ⟨n, hn⟩ := Int.eq_ofNat_of_zero_le hj
  unfold entry entryAt
  rw [hn, Int.toNat_natCast, show (4 * (n : ℤ)) = ((4 * n : ℕ) : ℤ) by push_cast; ring,
    BitVec.ofInt_natCast]

theorem quantumOf_eq (h : Rep s tree) (hi : tree[pl.item.toNat]? = some it) (ha : it.array = some a)
    (hj : 0 ≤ pl.sPos) (hq : a.quanta[pl.sPos.toNat]? = some q) : quantumOf s pl = addrOf q := by
  have hne := array_addr_ne_zero h (List.mem_of_getElem? hi) ha
  have hit : word s.mem (entryAt a pl.sPos.toNat) = some (addrOf q) := by
    obtain ⟨l₁, l₂, rfl, -⟩ := exists_split hi
    exact (spine_append.mp h.spine).2.1.entry a ha _ q hq
  unfold quantumOf
  rw [arrayOf_eq h hi, data_eq ha, if_neg hne, entry_eq hj, hit]
  rfl

/-! ### The search -/

/-- The place lies in the array of its item. An item that is negative is never reached: the walk to
it is longer than any list. -/
structure Within (s : ScullDev) (pl : Place) : Prop where
  item : -2 ^ 31 ≤ pl.item ∧ pl.item < 2 ^ 31
  entry : 0 ≤ pl.item → 0 ≤ pl.sPos ∧ pl.sPos < s.qset

/-- Every position has a place. -/
theorem exists_place {q qs : ℤ} (hq : 1 ≤ q) (hqs : 1 ≤ qs) (hfit : q * qs < 2 ^ 31) (p : ℤ) :
    ∃ pl, place q qs p = .ok pl := by
  have hpos : 0 < q * qs := by positivity
  refine ⟨⟨(wrap32 p).tdiv (q * qs), ((wrap32 p).tmod (q * qs)).tdiv q,
    ((wrap32 p).tmod (q * qs)).tmod q⟩, ?_⟩
  unfold place divMod32
  rw [wrap32_of_lt (by omega) hfit, if_neg (by omega)]
  simp only
  rw [if_neg (by omega)]

/-- The place of a position below `2 ^ 31`. -/
theorem place_within {q qs : ℤ} (hq : 1 ≤ q) (hqs : 1 ≤ qs) (hfit : q * qs < 2 ^ 31)
    (hp : 0 ≤ p ∧ p < 2 ^ 31) (hpl : place q qs p = .ok pl) : (0 ≤ pl.item ∧ pl.item < 2 ^ 31) ∧
      (0 ≤ pl.sPos ∧ pl.sPos < qs) ∧ 0 ≤ pl.qPos ∧ pl.qPos < q := by
  rw [place_eq hq hqs hfit hp.1 hp.2] at hpl
  obtain rfl := Except.ok.inj hpl
  have hpos : 0 < q * qs := by positivity
  have hle := Int.ediv_le_self (q * qs) hp.1
  refine ⟨⟨Int.ediv_nonneg hp.1 hpos.le, by simp only; omega⟩, sPos_bounds hq hqs, ?_⟩
  simp only
  rw [qPos_eq]
  exact qPos_bounds hq

/-- **The length of a read** that begins inside the file. -/
theorem readLen_eq (hq : pl.qPos < s.quantum) (hquantum : s.quantum < 2 ^ 31) (hqPos : 0 ≤ pl.qPos)
    (hp : 0 ≤ p ∧ p < 2 ^ 31) (hsize : p < s.size) (hcount : count < 2 ^ 32) :
    (readLen s pl count p : ℤ) = due s pl count p s.size := by
  have hrest : (size32 (s.quantum - pl.qPos) : ℤ) = s.quantum - pl.qPos :=
    size32_of_lt (by omega) (by omega)
  have hw : wrap64 (p + count) = p + count := wrap64_of_lt (by omega) (by omega)
  unfold readLen due
  rw [hw]
  split_ifs with hgt
  · have hs : (size32 (s.size - p) : ℤ) = s.size - p := size32_of_lt (by omega) (by omega)
    omega
  · omega

/-- **The length of a write** that begins at `SCULL_DATA_SIZE` at most. -/
theorem writeLen_eq (hq : pl.qPos < s.quantum) (hquantum : s.quantum < 2 ^ 31) (hqPos : 0 ≤ pl.qPos)
    (hp : 0 ≤ p ∧ p ≤ SCULL_DATA_SIZE) (hcount : count < 2 ^ 32) :
    (writeLen s pl count p : ℤ) = due s pl count p SCULL_DATA_SIZE := by
  have hrest : (size32 (s.quantum - pl.qPos) : ℤ) = s.quantum - pl.qPos :=
    size32_of_lt (by omega) (by omega)
  obtain ⟨c, hc⟩ : ∃ c, min count (size32 (s.quantum - pl.qPos)) = c := ⟨_, rfl⟩
  unfold SCULL_DATA_SIZE at hp
  have hw : wrap64 (p + c) = p + c := wrap64_of_lt (by omega) (by omega)
  have hs : (size32 (16 - p) : ℤ) = 16 - p := size32_of_lt (by omega) (by omega)
  have hlen : writeLen s pl count p = if p + c > 16 then size32 (16 - p) else c := by
    unfold writeLen SCULL_DATA_SIZE
    rw [hc]
    show (if wrap64 (p + c) > 16 then _ else _) = _
    rw [hw]
  rw [hlen]
  unfold due SCULL_DATA_SIZE
  by_cases hgt : p + c > 16
  · rw [if_pos hgt]
    omega
  · rw [if_neg hgt]
    omega

/-- The walk to an item with a negative number does not end. -/
theorem item_nonneg {r : Word × ScullDev} (hitem : -2 ^ 31 ≤ pl.item ∧ pl.item < 2 ^ 31)
    (hr : Reaches s tree (size32 pl.item) r tree') (h0 : r.1 ≠ 0) :
    0 ≤ pl.item ∧ size32 pl.item = pl.item.toNat := by
  obtain ⟨hlen, -, -⟩ := hr.found h0
  have hbound := length_le hr.grows.rep
  unfold size32 at hlen ⊢
  omega

/-- What the list is like after a walk: what is touched, and which items are there. -/
theorem touched_of_walk {r : Word × ScullDev} (h : Rep s tree) (hr : Reaches s tree i r tree')
    (hx : Touched tree' x) : Touched tree x ∨
      ∃ c ∈ (s.answers.take (missing s i)).reduceOption, InRange c.addr 8 x := by
  obtain ⟨new, rfl, hcount, hbare⟩ := hr.new
  rcases touched_append.mp hx with hx | ⟨it, hit, hx⟩
  · exact Or.inl hx
  · obtain ⟨j, hj⟩ := List.mem_iff_getElem?.mp hit
    obtain ⟨c, hc, rfl⟩ := hbare j it hj
    have hlt := (List.getElem?_eq_some_iff.mp hj).1
    rcases hx with hx | ⟨a, ha, -⟩
    · refine Or.inr ⟨c, ?_, hx⟩
      rw [List.reduceOption_mem_iff, List.mem_iff_getElem?]
      refine ⟨j, ?_⟩
      rw [List.getElem?_take_of_lt (by rw [missing_eq h]; omega), hc]
    · exact absurd ha (by simp)

/-- The items and arrays before a call are parts of the device. -/
theorem part_of_touched (h : Rep s tree) (hx : Touched tree x) : Part s pl x := by
  obtain ⟨it, hit, hx⟩ := hx
  have hword : word s.mem it.block.addr = some it.data := by
    obtain ⟨l₁, l₂, rfl⟩ := List.append_of_mem hit
    exact (spine_append.mp h.spine).2.1.data
  have haddr : it.block.addr ∈ items s := by
    rw [items_eq h]
    exact List.mem_map.mpr ⟨it, hit, rfl⟩
  rcases hx with hx | ⟨a, ha, hx⟩
  · refine ⟨(it.block.addr, 8), ?_, hx⟩
    simp [parts, haddr]
  · rw [Option.mem_def] at ha
    have hlen := ((h.sized it hit).array a ha).1
    refine ⟨(a.block.addr, (4 * s.qset).toNat), ?_, inRange_mono hx (by omega)⟩
    have hdata : a.block.addr ∈ ((items s).map fun a => (word s.mem a).getD 0).filter (· ≠ 0) := by
      refine List.mem_filter.mpr ⟨List.mem_map.mpr ⟨_, haddr, ?_⟩, ?_⟩
      · rw [hword, data_eq ha]
        rfl
      · simpa using array_addr_ne_zero h hit ha
    unfold parts
    simp only [List.mem_append, List.mem_map]
    exact Or.inl (Or.inl (Or.inr ⟨_, hdata, rfl⟩))

/-- The items that a walk makes are parts. -/
theorem part_of_new {c : Chunk} (hc : c ∈ (s.answers.take (missing s pl.item.toNat)).reduceOption)
    (hx : InRange c.addr 8 x) : Part s pl x := by
  refine ⟨(c.addr, 8), ?_, hx⟩
  unfold parts
  simp only [List.mem_append, List.mem_map]
  exact Or.inl (Or.inr ⟨c, hc, rfl⟩)

/-- The array that a write makes is a part. -/
theorem part_of_array {c : Chunk} (harr : arrayOf s pl.item.toNat = 0)
    (hc : s.answers[missing s pl.item.toNat]? = some (some c))
    (hx : InRange c.addr (4 * s.qset).toNat x) : Part s pl x := by
  refine ⟨(c.addr, (4 * s.qset).toNat), ?_, hx⟩
  unfold parts
  simp only [List.mem_append]
  rw [if_pos harr, hc]
  exact Or.inr (by simp)

/-- What a search comes to. -/
structure Finds (s : ScullDev) (tree : List Item) (pl : Place) (r : Word × ScullDev)
    (tree' : List Item) : Prop where
  grows : Grows s r.2 tree tree'
  home : r.2.data ≠ 0 → r.2.data ∈ home s
  found : r.1 ≠ 0 → 0 ≤ pl.item ∧
    ∃ b, quantumIn tree' pl.item.toNat pl.sPos.toNat = some b ∧ b.addr = r.1

/-- A quantum hangs from an item. -/
theorem Finds.data_ne_zero {r : Word × ScullDev} (h : Finds s tree pl r tree') (h0 : r.1 ≠ 0) :
    r.2.data ≠ 0 := by
  intro hd
  obtain ⟨-, b, hb, -⟩ := h.found h0
  rw [h.grows.rep.nil_iff.mp hd] at hb
  exact absurd hb (by simp [quantumIn])

theorem quantumIn_eq (hi : l₁.length = i) (ha : it.array = some a) (hq : a.quanta[j]? = some q) :
    quantumIn (l₁ ++ it :: l₂) i j = q := by
  unfold quantumIn
  rw [List.getElem?_append_right (by omega), hi, Nat.sub_self, List.getElem?_cons_zero,
    Option.bind_some, ha, Option.bind_some, hq, Option.join_some]

/-- The shape of the list after a walk. -/
theorem shape_of_walk {r : Word × ScullDev} (hr : Reaches s tree i r tree') (h0 : r.1 ≠ 0) :
    shape tree' = extended (shape tree) i := by
  obtain ⟨new, rfl, -, hbare⟩ := hr.new
  obtain ⟨hlen, -, -⟩ := hr.found h0
  rw [List.length_append] at hlen
  unfold shape extended
  rw [List.map_append, List.length_map]
  congr 1
  refine List.eq_replicate_iff.mpr ⟨by rw [List.length_map]; omega, fun b hb => ?_⟩
  obtain ⟨it, hit, rfl⟩ := List.mem_map.mp hb
  obtain ⟨j, hj⟩ := List.mem_iff_getElem?.mp hit
  obtain ⟨c, -, rfl⟩ := hbare j it hj
  rfl

/-- A walk gives no item a quantum. -/
theorem quantumIn_of_walk {r : Word × ScullDev} (hr : Reaches s tree n r tree') :
    quantumIn tree' i j = quantumIn tree i j := by
  obtain ⟨new, rfl, -, hbare⟩ := hr.new
  unfold quantumIn
  by_cases hlt : i < tree.length
  · rw [List.getElem?_append_left hlt]
  · rw [List.getElem?_append_right (by omega), List.getElem?_eq_none (by omega : tree.length ≤ i)]
    cases hget : new[i - tree.length]? with
    | none => rfl
    | some it =>
      obtain ⟨c, -, rfl⟩ := hbare _ it hget
      rfl

/-- **The search of a read.** -/
theorem readFind_tree (h : Rep s tree) (hpl : Within s pl) :
    Safe Unanswered (readFind s pl) fun r =>
      ∃ tree', Finds s tree pl r tree' ∧ (r.1 ≠ 0 → r.1 = quantumOf s pl) ∧
        (none ∉ s.answers → shape tree' = extended (shape tree) pl.item.toNat ∧
          r.1 = addrOf (quantumIn tree pl.item.toNat pl.sPos.toNat)) := by
  unfold readFind
  refine (follow_tree h pl.item).bind ?_
  rintro ⟨dptr, t⟩ ⟨tree', hr, hhome⟩
  show Safe Unanswered (if dptr = 0 then _ else _) _
  by_cases h0 : dptr = 0
  · rw [if_pos h0]
    exact ⟨tree', ⟨hr.grows, hhome, fun h0 => absurd rfl h0⟩, fun h0 => absurd rfl h0,
      fun hnone => absurd (hr.null h0) hnone⟩
  rw [if_neg h0]
  obtain ⟨hpos, hidx⟩ := item_nonneg hpl.item hr h0
  rw [hidx] at hr
  obtain ⟨-, ⟨it, hit, rfl⟩, -⟩ := hr.found h0
  obtain ⟨hs0, hslt⟩ := hpl.entry hpos
  obtain ⟨l₁, l₂, htree, hl₁⟩ := exists_split hit
  have hshape := shape_of_walk hr h0
  have hsame := quantumIn_of_walk (i := pl.item.toNat) (j := pl.sPos.toNat) hr
  have hrep : Rep t (l₁ ++ it :: l₂) := htree ▸ hr.grows.rep
  have hstored := (spine_append.mp hrep.spine).2.1
  rw [load_eq hstored.data]
  show Safe Unanswered (if it.data = 0 then _ else _) _
  cases ha : it.array with
  | none =>
    rw [if_pos (by simp [Item.data, ha, addrOf])]
    refine ⟨tree', ⟨hr.grows, hhome, fun h0 => absurd rfl h0⟩, fun h0 => absurd rfl h0,
      fun _ => ⟨hshape, ?_⟩⟩
    rw [← hsame]
    unfold quantumIn
    rw [hit, Option.bind_some, ha]
    rfl
  | some a =>
    have ha0 := array_addr_ne_zero hrep (by simp) ha
    rw [data_eq ha, if_neg ha0, entry_eq hs0]
    have hlen := ((hrep.sized it (by simp)).array a ha).1
    have hqset : t.qset = s.qset := hr.grows.qset
    obtain ⟨q, hq⟩ : ∃ q, a.quanta[pl.sPos.toNat]? = some q :=
      ⟨_, List.getElem?_eq_getElem (by rw [hlen, hqset]; omega)⟩
    have hin : quantumIn tree' pl.item.toNat pl.sPos.toNat = q := by
      rw [htree]
      exact quantumIn_eq hl₁ ha hq
    rw [load_eq (hstored.entry a ha _ q hq)]
    refine ⟨tree', ⟨hr.grows, hhome, fun hne => ⟨hpos, ?_⟩⟩, fun hne => ?_, fun _ => ⟨hshape, ?_⟩⟩
    · cases q with
      | none => exact absurd rfl hne
      | some b => exact ⟨b, hin, rfl⟩
    · -- an item that has just been made has no array
      obtain ⟨new, rfl, -, hbare⟩ := hr.new
      by_cases hlt : pl.item.toNat < tree.length
      · rw [List.getElem?_append_left hlt] at hit
        exact (quantumOf_eq h hit ha hs0 hq).symm
      · rw [List.getElem?_append_right (by omega)] at hit
        obtain ⟨c, -, rfl⟩ := hbare _ it hit
        exact absurd ha (by simp)
    · rw [← hsame, hin]

/-- The pointer array that a write finds or makes: its quanta, its address and where the answers
stand. -/
structure Arrays (s : ScullDev) (tree : List Item) (pl : Place) (t : ScullDev) (it : Item)
    (a : Pointers) : Prop where
  quanta : a.quanta = (it.array.map Pointers.quanta).getD (List.replicate s.qset.toNat none)
  touched : ∀ x, InRange a.block.addr (4 * a.quanta.length) x →
    (∃ b ∈ it.array, InRange b.block.addr (4 * b.quanta.length) x) ∨ Part s pl x
  quantum : ∀ q, a.quanta[pl.sPos.toNat]? = some q → quantumOf s pl = addrOf q
  answers : t.answers = s.answers.drop
    (missing s pl.item.toNat + if arrayOf s pl.item.toNat = 0 then 1 else 0)
  supplied : none ∉ s.answers.take
    (missing s pl.item.toNat + if arrayOf s pl.item.toNat = 0 then 1 else 0)

/-- The answers to a walk that comes to its item are chunks. -/
theorem supplied_of_walk {r : Word × ScullDev} (h : Rep s tree) (hr : Reaches s tree i r tree')
    (h0 : r.1 ≠ 0) : none ∉ s.answers.take (missing s i) := by
  obtain ⟨new, rfl, -, hbare⟩ := hr.new
  obtain ⟨hlen, -, -⟩ := hr.found h0
  rw [List.length_append] at hlen
  rw [missing_eq h]
  intro hnone
  obtain ⟨j, hj⟩ := List.mem_iff_getElem?.mp hnone
  have hlt : j < i + 1 - tree.length := by
    have := (List.getElem?_eq_some_iff.mp hj).1
    rw [List.length_take] at this
    omega
  rw [List.getElem?_take_of_lt hlt] at hj
  obtain ⟨c, hc, -⟩ := hbare j _ (List.getElem?_eq_getElem (by omega))
  exact absurd (hj.symm.trans hc) (by simp)

/-- One answer more. -/
theorem supplied_succ {c : Chunk} (h : none ∉ s.answers.take n)
    (hc : s.answers[n]? = some (some c)) : none ∉ s.answers.take (n + 1) := by
  rw [List.take_add_one, hc]
  simpa using h

/-- **The pointer array** of the item that a walk has come to. -/
theorem itemData_find {r : Word × ScullDev} (h : Rep s tree) (hs0 : 0 ≤ pl.sPos)
    (hr : Reaches s tree pl.item.toNat r tree') (h0 : r.1 ≠ 0)
    (htree : tree' = l₁ ++ it :: l₂) (hl₁ : l₁.length = pl.item.toNat) :
    Safe Unanswered (itemData r.2 it.block.addr) fun v => ∃ it', Fills r.2 l₁ it l₂ v it' ∧
      (v.1 ≠ 0 → ∃ a, it'.array = some a ∧ a.block.addr = v.1 ∧ Arrays s tree pl v.2 it a) := by
  obtain ⟨hlen, -, hanswers⟩ := hr.found h0
  have hget : tree'[pl.item.toNat]? = some it := by
    rw [htree, List.getElem?_append_right (by omega), hl₁, Nat.sub_self, List.getElem?_cons_zero]
  have hold : ∀ a, it.array = some a → tree[pl.item.toNat]? = some it := by
    intro a ha
    obtain ⟨new, rfl, -, hbare⟩ := hr.new
    by_cases hlt : pl.item.toNat < tree.length
    · rwa [List.getElem?_append_left hlt] at hget
    · rw [List.getElem?_append_right (by omega)] at hget
      obtain ⟨c, -, rfl⟩ := hbare _ it hget
      exact absurd ha (by simp)
  have hrep : Rep r.2 (l₁ ++ it :: l₂) := htree ▸ hr.grows.rep
  have hsupplied := supplied_of_walk h hr h0
  rw [← missing_eq h] at hanswers
  refine (itemData_tree hrep).mono ?_
  rintro v ⟨it', hfills, hv⟩
  refine ⟨it', hfills, fun hv0 => ?_⟩
  obtain ⟨a, ha, haddr, ⟨hita, hans⟩ | ⟨hita, hq, ⟨c, hc, hblock⟩, hans⟩⟩ := hv hv0
  · -- the item had its array before the call
    have hi := hold a hita
    have harr : arrayOf s pl.item.toNat ≠ 0 := by
      rw [arrayOf_eq h hi, data_eq hita]
      exact array_addr_ne_zero h (List.mem_of_getElem? hi) hita
    refine ⟨a, ha, haddr, by rw [hita]; rfl, fun x hx => Or.inl ⟨a, hita, hx⟩,
      fun q hq => quantumOf_eq h hi hita hs0 hq, ?_, ?_⟩
    · rw [hans, hanswers, if_neg harr, Nat.add_zero]
    · rw [if_neg harr]
      exact hsupplied
  · have harr : arrayOf s pl.item.toNat = 0 := by
      by_cases hlt : pl.item.toNat < tree.length
      · obtain ⟨new, rfl, -, -⟩ := hr.new
        rw [List.getElem?_append_left hlt] at hget
        rw [arrayOf_eq h hget]
        simp [Item.data, hita, addrOf]
      · exact arrayOf_missing h (by omega)
    have hqset : r.2.qset = s.qset := hr.grows.qset
    rw [hqset] at hq
    rw [hanswers, List.getElem?_drop, Nat.add_zero] at hc
    refine ⟨a, ha, haddr, by rw [hita]; exact hq, fun x hx => Or.inr ?_, fun q hq' => ?_, ?_, ?_⟩
    · refine part_of_array harr hc (inRange_mono (n := 4 * a.quanta.length) ?_ ?_)
      · rwa [← show a.block.addr = c.addr by rw [hblock]]
      · rw [hq, List.length_replicate]
        omega
    · obtain ⟨hlt, rfl⟩ := List.getElem?_eq_some_iff.mp hq'
      unfold quantumOf
      rw [if_pos harr]
      simp [hq, addrOf]
    · rw [hans, hanswers, if_pos harr, List.drop_drop]
    · rw [if_pos harr]
      exact supplied_succ hsupplied hc

/-- The shape of the list after an entry has got its quantum. -/
theorem marked_eq {b : Block} (htree : shape tree' = extended (shape tree) i)
    (hsplit : tree' = l₁ ++ it :: l₂) (hl₁ : l₁.length = i)
    (ha : a.quanta = (it.array.map Pointers.quanta).getD (List.replicate n none)) {c c' : Block} :
    shape (l₁ ++ ⟨c, some ⟨c', a.quanta.set j (some b)⟩⟩ :: l₂) = marked n (shape tree) i j := by
  have hshape : shape tree' = shape l₁ ++ shape [it] ++ shape l₂ := by
    rw [hsplit]
    simp [shape]
  have hlen : (shape l₁).length = i := by
    unfold shape
    rw [List.length_map, hl₁]
  have hmarks : a.quanta.map Option.isSome =
      ((extended (shape tree) i)[i]?.join.getD (List.replicate n false)) := by
    rw [← htree, hshape, ← hlen, List.append_assoc, List.getElem?_append_right le_rfl, Nat.sub_self,
      ha]
    cases hit : it.array <;> simp [shape, hit]
  have hset : (extended (shape tree) i).set i (some ((a.quanta.map Option.isSome).set j true)) =
      shape l₁ ++ some ((a.quanta.map Option.isSome).set j true) :: shape l₂ := by
    rw [← htree, hshape, ← hlen, List.append_assoc, List.set_append_right _ _ le_rfl, Nat.sub_self]
    rfl
  unfold marked
  rw [← hmarks, hset]
  simp [shape, List.map_set]

/-- **The search of a write.** -/
theorem writeFind_tree (h : Rep s tree) (hpl : Within s pl) :
    Safe Unanswered (writeFind s pl) fun r =>
      ∃ tree', Finds s tree pl r tree' ∧
        (r.1 ≠ 0 → r.1 = quantumAt s pl ∧ Supplied s pl ∧ ∀ x, Touched tree' x → Part s pl x) ∧
        (none ∉ s.answers → r.1 ≠ 0 ∧
          shape tree' = marked s.qset.toNat (shape tree) pl.item.toNat pl.sPos.toNat) := by
  unfold writeFind
  refine (follow_tree h pl.item).bind ?_
  rintro ⟨dptr, t⟩ ⟨tree', hr, hhome⟩
  show Safe Unanswered (if dptr = 0 then _ else _) _
  by_cases h0 : dptr = 0
  · rw [if_pos h0]
    exact ⟨tree', ⟨hr.grows, hhome, fun h0 => absurd rfl h0⟩, fun h0 => absurd rfl h0,
      fun hnone => absurd (hr.null h0) hnone⟩
  rw [if_neg h0]
  obtain ⟨hpos, hidx⟩ := item_nonneg hpl.item hr h0
  rw [hidx] at hr
  obtain ⟨-, ⟨it, hit, rfl⟩, -⟩ := hr.found h0
  obtain ⟨hs0, hslt⟩ := hpl.entry hpos
  obtain ⟨l₁, l₂, htree, hl₁⟩ := exists_split hit
  have hdata : t.data ≠ 0 := fun hd => by
    have hnil := hr.grows.rep.nil_iff.mp hd
    simp [htree] at hnil
  refine (itemData_find h hs0 hr h0 htree hl₁).bind ?_
  rintro ⟨data, t₂⟩ ⟨it', hfills, hv⟩
  have hgrows₂ : Grows s t₂ tree (l₁ ++ it' :: l₂) := hr.grows.trans (htree ▸ hfills.grows)
  have hdata₂ : t₂.data = t.data := hfills.grows.data hdata
  show Safe Unanswered (if data = 0 then _ else _) _
  by_cases hd : data = 0
  · rw [if_pos hd]
    refine ⟨_, ⟨hgrows₂, fun _ => hdata₂ ▸ hhome hdata, fun h0 => absurd rfl h0⟩,
      fun h0 => absurd rfl h0, fun hnone => absurd ?_ hnone⟩
    exact hr.grows.answers _ (hfills.null hd)
  rw [if_neg hd]
  obtain ⟨a, ha, rfl, harr⟩ := hv hd
  have hlen : a.quanta.length = s.qset.toNat := by
    rw [← hgrows₂.qset]
    exact ((hgrows₂.rep.sized it' (by simp)).array a ha).1
  rw [entry_eq hs0]
  refine (entryQuantum_tree hgrows₂.rep ha (by omega)).mono ?_
  rintro ⟨w, t₃⟩ ⟨q, hfills₃, rfl, hq⟩
  have hdata₃ : t₃.data = t.data := (hfills₃.grows.data (hdata₂ ▸ hdata)).trans hdata₂
  have hqset : pl.sPos.toNat < a.quanta.length := by omega
  refine ⟨_, ⟨hgrows₂.trans hfills₃.grows, fun _ => hdata₃ ▸ hhome hdata, fun hne => ⟨hpos, ?_⟩⟩,
    fun hne => ⟨?_, ⟨hpos, ?_⟩, fun x hx => ?_⟩, fun hnone => ?_⟩
  · cases q with
    | none => exact absurd rfl hne
    | some b => exact ⟨b, quantumIn_eq hl₁ rfl (List.getElem?_set_self hqset), rfl⟩
  · unfold quantumAt
    rcases hq hne with hold | ⟨hnull, c, hc, rfl⟩
    · rw [harr.quantum q hold, if_pos hne]
    · have hz : ¬ addrOf none ≠ 0 := fun h => h rfl
      rw [harr.quantum none hnull, if_neg hz]
      rw [harr.answers, List.getElem?_drop, Nat.add_zero] at hc
      unfold answer
      rw [hc]
      rfl
  · unfold used
    rcases hq hne with hold | ⟨hnull, c, hc, rfl⟩
    · rw [harr.quantum q hold, if_neg hne]
      exact harr.supplied
    · rw [harr.quantum none hnull, if_pos (show addrOf none = 0 from rfl)]
      rw [harr.answers, List.getElem?_drop, Nat.add_zero] at hc
      exact supplied_succ harr.supplied hc
  · have hx₂ : Touched (l₁ ++ it' :: l₂) x := by
      refine touched_replace (fun x hx => ?_) hx
      rcases hx with hx | ⟨b, hb, hx⟩
      · exact Or.inl hx
      · obtain rfl := Option.some.inj hb
        exact Or.inr ⟨a, ha, by simpa using hx⟩
    have hx₁ : Touched tree' x ∨ Part s pl x := by
      obtain ⟨jt, hj, hx⟩ := hx₂
      rcases List.mem_append.mp hj with hj | hj
      · exact Or.inl ⟨jt, by simp [htree, hj], hx⟩
      rcases List.mem_cons.mp hj with hj | hj
      · rw [hj] at hx
        rcases hx with hx | ⟨b, hb, hx⟩
        · rw [hfills.block] at hx
          exact Or.inl ⟨it, by simp [htree], Or.inl hx⟩
        · obtain rfl := Option.some.inj (ha.symm.trans hb)
          rcases harr.touched x hx with hx | hx
          · exact Or.inl ⟨it, by simp [htree], Or.inr hx⟩
          · exact Or.inr hx
      · exact Or.inl ⟨jt, by simp [htree, hj], hx⟩
    rcases hx₁ with hx | hx
    · rcases touched_of_walk h hr hx with hx | ⟨c, hc, hx⟩
      · exact part_of_touched h hx
      · exact part_of_new hc hx
    · exact hx
  · have hne : addrOf q ≠ 0 := fun hw => hnone (hgrows₂.answers _ (hfills₃.null hw))
    cases q with
    | none => exact absurd rfl hne
    | some b => exact ⟨hne, marked_eq (shape_of_walk hr h0) htree hl₁ harr.quanta⟩

end LinuxHomework.Scull.Copy
