import LinuxHomework.Scull.Copy
import LinuxHomework.Scull.Store

/-! # What a trim gives back

`scull_trim` walks over the list and gives back, for each item, the quanta in its array's entries,
the array and the item (`given`). Null pointers aside these are the allocated blocks, each of them
once (`trim_tree`), as long as the list is in memory as it was built. A write copies the user's
bytes to `dev->data + *f_pos`, which may be in the middle of an item or of a pointer array.

* `trims_right`: in the runs whose writes are all `WriteOff` every trim is right.
* `not_trims_right`: three bytes written at offset 0 replace the pointer to the first array. -/

namespace LinuxHomework.Scull.Trim

open LinuxHomework.Lib.CInt LinuxHomework.Lib.Memory LinuxHomework.Lib.Outcome
open LinuxHomework.Lib.Runs LinuxHomework.Scull.Device LinuxHomework.Scull.Layout
open LinuxHomework.Scull.Calls LinuxHomework.Scull.Store LinuxHomework.Scull.Tree
open LinuxHomework.Scull.Copy

variable {m : Mem} {s : ScullDev} {tree : List Item} {it : Item} {e : Word} {quantum qset : ℤ}

/-! ### Trim -/

/-- The pointers that `scull_trim` gives back for an item. -/
def itemGiven (it : Item) : List Word :=
  (it.array.elim [] fun a => a.quanta.map addrOf ++ [a.block.addr]) ++ [it.block.addr]

def given (tree : List Item) : List Word := tree.flatMap itemGiven

/-- The device after the pointers `ps` have been given back. -/
def returned (s : ScullDev) (ps : List Word) : ScullDev :=
  { s with live := s.live.filter fun b => b.addr ∉ ps, freed := s.freed ++ ps }

theorem returned_returned {ps qs : List Word} :
    returned { returned s ps with mem := m } qs = returned { s with mem := m } (ps ++ qs) := by
  have hlive : (s.live.filter fun b => b.addr ∉ ps).filter (fun b => b.addr ∉ qs) =
      s.live.filter fun b => b.addr ∉ ps ++ qs := by
    rw [List.filter_filter]
    refine List.filter_congr fun b _ => ?_
    simp [Bool.and_comm]
  unfold returned
  rw [hlive, List.append_assoc]

theorem kfree_eq {p : Word} : s.kfree p = returned s [p] := by
  unfold returned ScullDev.kfree
  simp

theorem kfree_returned {ps : List Word} {p : Word} :
    (returned s ps).kfree p = returned s (ps ++ [p]) := by
  rw [kfree_eq]
  exact returned_returned

theorem returned_nil : returned s [] = s := by
  unfold returned
  simp

/-- The quanta are given back in order. -/
theorem freeQuanta_eq {d : Word} {f : ℕ → Word}
    (h : ∀ i < qset.toNat, word s.mem (d + BitVec.ofNat 32 (4 * i)) = some (f i)) :
    freeQuanta s d qset = .ok (returned s ((List.range qset.toNat).map f)) := by
  have key : ∀ (l : List ℕ) (ps : List Word), (∀ i ∈ l, i < qset.toNat) →
      l.foldlM (fun s i => do
        let q ← s.load (d + BitVec.ofNat 32 (4 * i))
        return s.kfree q) (returned s ps) = Except.ok (returned s (ps ++ l.map f)) := by
    intro l
    induction l with
    | nil =>
      intro ps _
      rw [List.map_nil, List.append_nil]
      rfl
    | cons i l ih =>
      intro ps hl
      have hload : (returned s ps).load (d + BitVec.ofNat 32 (4 * i)) = .ok (f i) :=
        load_eq (h i (hl i (by simp)))
      rw [List.foldlM_cons, hload, List.map_cons, List.append_cons]
      show l.foldlM _ ((returned s ps).kfree (f i)) = _
      rw [kfree_returned]
      exact ih _ fun j hj => hl j (by simp [hj])
  have hkey := key (List.range qset.toNat) [] fun i hi => List.mem_range.mp hi
  rw [returned_nil] at hkey
  exact hkey

/-- **An item is given back** with its array and its quanta. -/
theorem trimItem_eq (h : it.Stored s.mem e) (hsize : it.Sized quantum qset)
    (hmap : Mapped s.mem it.block.addr 8) (h0 : ∀ a ∈ it.array, a.block.addr ≠ 0) :
    ∃ m', (∀ x, ¬ InRange it.block.addr 4 x → m' x = s.mem x) ∧
      (∀ x, (s.mem x).isSome → (m' x).isSome) ∧
        trimItem s qset it.block.addr = .ok (e, returned { s with mem := m' } (itemGiven it)) := by
  unfold trimItem emptyItem
  cases ha : it.array with
  | none =>
    obtain ⟨p, hdata, hp⟩ : ∃ p, word s.mem it.block.addr = some p ∧ p = 0 :=
      ⟨it.data, h.data, by simp [Item.data, ha, addrOf]⟩
    refine ⟨s.mem, fun _ _ => rfl, fun _ hx => hx, ?_⟩
    have hgiven : itemGiven it = [] ++ [it.block.addr] := by simp [itemGiven, ha]
    rw [load_eq hdata, hp, hgiven, ← kfree_returned, returned_nil]
    show (s.load (it.block.addr + 4) >>= _) = _
    rw [load_eq h.next]
    rfl
  | some a =>
    obtain ⟨hlen, -, -⟩ := hsize.array a ha
    have ha0 := h0 a ha
    have hdata : word s.mem it.block.addr = some a.block.addr := by
      rw [h.data]
      simp [Item.data, ha, addrOf]
    have hquanta : ∀ i < qset.toNat, word s.mem (a.block.addr + BitVec.ofNat 32 (4 * i)) =
        some (addrOf (a.quanta.getD i none)) := by
      intro i hi
      have hget := List.getElem?_eq_getElem (show i < a.quanta.length by omega)
      rw [List.getD_eq_getElem?_getD, hget]
      exact h.entry a ha i _ hget
    have hmapq : (List.range qset.toNat).map (fun i => addrOf (a.quanta.getD i none)) =
        a.quanta.map addrOf := by
      refine List.ext_getElem (by simp [hlen]) fun i h₁ h₂ => ?_
      have hi : i < a.quanta.length := by simpa using h₂
      simp [List.getD_eq_getElem?_getD, List.getElem?_eq_getElem hi]
    have hmap4 : Mapped s.mem it.block.addr 4 := fun i hi => hmap i (by omega)
    refine ⟨setWord s.mem it.block.addr 0, fun x hx => fill_of_not_mem hx,
      fun x hx => isSome_fill hx, ?_⟩
    have hgiven : itemGiven it = a.quanta.map addrOf ++ [a.block.addr] ++ [it.block.addr] := by
      simp [itemGiven, ha]
    have hnext : word (setWord s.mem it.block.addr 0) (it.block.addr + 4) = some e := by
      rw [← h.next]
      exact word_congr fun x hx => fill_of_not_mem (not_inRange_of_next hx)
    rw [load_eq hdata]
    show ((if a.block.addr ≠ 0 then _ else _) >>= _) = _
    rw [if_pos ha0, freeQuanta_eq hquanta, hmapq]
    show ((((returned s (a.quanta.map addrOf)).kfree a.block.addr).store it.block.addr 0) >>= _) = _
    have hstore := store_eq (s := returned s (a.quanta.map addrOf ++ [a.block.addr])) (w := 0) hmap4
    rw [kfree_returned, hstore]
    show (ScullDev.load _ (it.block.addr + 4) >>= _) = _
    have hfreed : ({ returned s (a.quanta.map addrOf ++ [a.block.addr]) with
        mem := setWord s.mem it.block.addr 0 } : ScullDev).kfree it.block.addr =
          returned { s with mem := setWord s.mem it.block.addr 0 } (itemGiven it) := by
      rw [kfree_eq, returned_returned, hgiven]
    rw [load_eq hnext]
    exact congrArg (fun t => Except.ok (e, t)) hfreed

/-- **The loop of `scull_trim`** gives every item back. -/
theorem trimLoop_tree (hq : 0 ≤ qset ∧ qset < 2 ^ 30) : ∀ {tree : List Item} {fuel : ℕ} {s : ScullDev},
    tree.length ≤ fuel → Spine s.mem tree 0 → (∀ it ∈ tree, it.Sized quantum qset) →
    ((blocks tree).Pairwise fun b c => Apart b.addr b.size c.addr c.size) →
    (∀ b ∈ blocks tree, b.addr ≠ 0 ∧ Mapped s.mem b.addr b.size) →
      ∃ m', (∀ x, (s.mem x).isSome → (m' x).isSome) ∧
        trimLoop qset fuel (link tree 0) s = .ok (returned { s with mem := m' } (given tree)) := by
  intro tree
  induction tree with
  | nil =>
    intro fuel s _ _ _ _ _
    refine ⟨s.mem, fun _ hx => hx, ?_⟩
    rw [show given [] = [] from rfl, returned_nil]
    cases fuel <;> rfl
  | cons it rest ih =>
    intro fuel s hlen hspine hsize hap hsound
    obtain ⟨hit, hrest⟩ := hspine
    obtain ⟨-, hap, hout⟩ := List.pairwise_append.mp (by simpa using hap :
      (it.blocks ++ blocks rest).Pairwise fun b c => Apart b.addr b.size c.addr c.size)
    have hblock : it.block ∈ blocks (it :: rest) := by simp [Item.blocks]
    obtain ⟨hne, hmap⟩ := hsound it.block hblock
    have hsz := hsize it (by simp)
    have h8 := hsz.item
    cases fuel with
    | zero => simp at hlen
    | succ fuel =>
      obtain ⟨m₁, hm₁, hmono₁, heq₁⟩ := trimItem_eq (s := s) hit hsz (fun i hi => hmap i (by omega))
        fun a ha => (hsound a.block (by
          rw [Option.mem_def] at ha
          simp [Item.blocks, ha])).1
      have hspine₁ : Spine m₁ rest 0 := by
        refine hrest.congr (fun jt hj => hsize jt (by simp [hj])) hq.2 fun x hx => hm₁ x fun hx' => ?_
        obtain ⟨jt, hj, hx⟩ := hx
        obtain ⟨b, hb, hxb⟩ := hx.covered (hsize jt (by simp [hj])) hq.1
        refine (hout it.block (by simp [Item.blocks]) b
          (List.mem_flatMap.mpr ⟨jt, hj, hb⟩)).not_mem (inRange_mono hx' (by omega)) hxb
      obtain ⟨m', hmono, heq⟩ := ih (s := returned { s with mem := m₁ } (itemGiven it))
        (by simpa using hlen) hspine₁ (fun jt hj => hsize jt (by simp [hj])) hap
        fun b hb => ⟨(hsound b (by simp [hb])).1, (hsound b (by simp [hb])).2.mono_mem hmono₁⟩
      refine ⟨m', fun x hx => hmono x (hmono₁ x hx), ?_⟩
      rw [trimLoop, if_neg (show link (it :: rest) 0 ≠ 0 from hne)]
      show (trimItem s qset it.block.addr >>= _) = _
      rw [heq₁]
      show trimLoop qset fuel (link rest 0) (returned { s with mem := m₁ } (itemGiven it)) = _
      rw [heq, returned_returned]
      rfl

/-- The quanta of an array among the pointers given back. -/
theorem filter_quanta {l : List (Option Block)} (h0 : ∀ b, some b ∈ l → b.addr ≠ 0) :
    (l.map addrOf).filter (· ≠ 0) = l.reduceOption.map Block.addr := by
  induction l with
  | nil => rfl
  | cons o l ih =>
    have hl := ih fun b hb => h0 b (by simp [hb])
    cases o with
    | none =>
      rw [List.map_cons, List.filter_cons_of_neg (by simp [addrOf]), hl,
        List.reduceOption_cons_of_none]
    | some b =>
      have hb : addrOf (some b) ≠ 0 := h0 b (by simp)
      rw [List.map_cons, List.filter_cons_of_pos (by simpa using hb), hl,
        List.reduceOption_cons_of_some, List.map_cons]
      rfl

theorem filter_singleton {w : Word} (h : w ≠ 0) : [w].filter (· ≠ 0) = [w] :=
  List.filter_cons_of_pos (by simpa using h)

theorem item_given_perm (h0 : ∀ b ∈ it.blocks, b.addr ≠ 0) :
    ((itemGiven it).filter (· ≠ 0)).Perm (it.blocks.map Block.addr) := by
  have hb := h0 it.block (by simp [Item.blocks])
  cases ha : it.array with
  | none =>
    have hgiven : (itemGiven it).filter (· ≠ 0) = [it.block.addr] := by
      simp only [itemGiven, ha, Option.elim_none, List.nil_append, filter_singleton hb]
    rw [hgiven]
    simp [Item.blocks, ha]
  | some a =>
    have ha0 := h0 a.block (by simp [Item.blocks, ha])
    have hq := filter_quanta (l := a.quanta) fun b hb =>
      h0 b (by simp [Item.blocks, ha, List.reduceOption_mem_iff, hb])
    have hgiven : (itemGiven it).filter (· ≠ 0) =
        a.quanta.reduceOption.map Block.addr ++ [a.block.addr] ++ [it.block.addr] := by
      simp only [itemGiven, ha, Option.elim_some, List.filter_append, hq, filter_singleton hb,
        filter_singleton ha0]
    rw [hgiven, List.append_assoc]
    have hblocks : it.blocks.map Block.addr =
        [it.block.addr, a.block.addr] ++ a.quanta.reduceOption.map Block.addr := by
      simp [Item.blocks, ha]
    rw [hblocks]
    exact List.perm_append_comm.trans ((List.Perm.swap _ _ _).append_right _)

/-- **Every block is given back**, and nothing else but null pointers. -/
theorem given_perm (h0 : ∀ b ∈ blocks tree, b.addr ≠ 0) :
    ((given tree).filter (· ≠ 0)).Perm ((blocks tree).map Block.addr) := by
  induction tree with
  | nil => rfl
  | cons it rest ih =>
    have hit : ((itemGiven it).filter (· ≠ 0)).Perm (it.blocks.map Block.addr) :=
      item_given_perm fun b hb => h0 b (by simp [hb])
    have hrest := ih fun b hb => h0 b (by simp [hb])
    have hgiven : given (it :: rest) = itemGiven it ++ given rest := rfl
    rw [hgiven, blocks_cons, List.filter_append, List.map_append]
    exact hit.append hrest

/-- The blocks have different addresses. -/
theorem addr_nodup (h : Rep s tree) : (s.live.map Block.addr).Nodup := by
  have hpair : (blocks tree).Pairwise fun b c => b.addr ≠ c.addr := by
    refine h.apart.imp_of_mem fun {b c} hb hc hbc => ?_
    exact hbc.ne (h.sound b (h.mem_live hb)).2.1 (h.sound c (h.mem_live hc)).2.1
  exact (h.live.map Block.addr).nodup_iff.mpr (List.pairwise_map.mpr hpair)

/-- What is right about a trim: it is over, it has given back, null pointers aside, every allocated
block once and nothing else, and the device is empty. -/
structure Trimmed (s s' : ScullDev) : Prop where
  freed : ∃ ps, s'.freed = s.freed ++ ps ∧ (ps.filter (· ≠ 0)).Perm (s.live.map Block.addr)
  once : (s.live.map Block.addr).Nodup
  live : s'.live = []
  data : s'.data = 0
  size : s'.size = 0

/-- **Trim** gives back the blocks of the list. -/
theorem trim_tree {P : Params} (h : Rep s tree) (hquantum : 1 ≤ P.scullQuantum ∧ P.scullQuantum < 2 ^ 31)
    (hqset : 1 ≤ P.scullQset ∧ P.scullQset < 2 ^ 30) : ∃ s', scullTrim P s = .ok s' ∧ Trimmed s s' ∧
      Rep s' [] ∧ s'.quantum = P.scullQuantum ∧ s'.qset = P.scullQset := by
  have hq := h.qset
  have hlen := length_le h
  have hsound : ∀ b ∈ blocks tree, b.addr ≠ 0 ∧ Mapped s.mem b.addr b.size :=
    fun b hb => ⟨(h.sound b (h.mem_live hb)).1, (h.sound b (h.mem_live hb)).2.2⟩
  obtain ⟨m', -, hloop⟩ : ∃ m', (∀ x, (s.mem x).isSome → (m' x).isSome) ∧
      trimLoop s.qset (2 ^ 32) (link tree 0) s = .ok (returned { s with mem := m' } (given tree)) :=
    trimLoop_tree ⟨by omega, hq.2⟩ (by omega) h.spine h.sized h.apart hsound
  have hgiven := given_perm fun b hb => (hsound b hb).1
  have hlive : (returned { s with mem := m' } (given tree)).live = [] := by
    refine List.filter_eq_nil_iff.mpr fun b hb => ?_
    have hmem : b.addr ∈ (blocks tree).map Block.addr :=
      List.mem_map.mpr ⟨b, h.live.mem_iff.mp hb, rfl⟩
    have hin := (List.mem_filter.mp (hgiven.mem_iff.mpr hmem)).1
    simpa using hin
  refine ⟨{ returned { s with mem := m' } (given tree) with
    size := 0, quantum := P.scullQuantum, qset := P.scullQset, data := 0 }, ?_,
    ⟨⟨given tree, rfl, hgiven.trans (h.live.map _).symm⟩, addr_nodup h, hlive, rfl, rfl⟩,
    ⟨hquantum, hqset, rfl, trivial, by simp, ?_, List.Pairwise.nil, fun b hb => ?_⟩, rfl, rfl⟩
  · unfold scullTrim
    rw [h.data, hloop]
    rfl
  · rw [show blocks [] = [] from rfl]
    exact List.perm_nil.mpr hlive
  · rw [show _ = [] from hlive] at hb
    exact absurd hb (by simp)

/-! ### Runs -/

/-- Every write-only open that gets the semaphore returns, and its trim is right. -/
def TrimsRight (P : Params) (s : Sys) : Prop :=
  s.crashed = false → ∀ (k : Kernel) (fFlags : ℕ), k.taken = true →
    fFlags &&& O_ACCMODE = O_WRONLY →
      ∃ s', scullOpen P k { s.dev with answers := k.answers } fFlags = .ok (0, s') ∧
        Trimmed s.dev s'

/-- The write keeps off the list: it begins at `SCULL_DATA_SIZE` at most, and its bytes, if it comes
to its user copy, meet no item and no pointer array from `8 * p` behind the first item on. -/
def Off (s : ScullDev) (count : ℕ) (p : ℤ) (pl : Place) : Prop :=
  (0 ≤ p ∧ p ≤ SCULL_DATA_SIZE) ∧ (Supplied s pl → ∀ D ∈ home s, ∀ r ∈ parts s pl,
    Apart (D + BitVec.ofInt 32 (8 * p)) (due s pl count p SCULL_DATA_SIZE).toNat r.1 r.2)

-- not by trying every address for `D`
instance (s : ScullDev) (count : ℕ) (p : ℤ) (pl : Place) : Decidable (Off s count p pl) :=
  have := Option.decidableForallMem (p := fun D => ∀ r ∈ parts s pl,
    Apart (D + BitVec.ofInt 32 (8 * p)) (due s pl count p SCULL_DATA_SIZE).toNat r.1 r.2) (home s)
  inferInstanceAs (Decidable (_ ∧ (_ → _)))

/-- The condition on a call: a write keeps off the list. -/
def WriteOff (s : Sys) : Act → Prop
  | .write f _ count k => k.taken = true → ∀ p ∈ s.fPos f,
      ∀ pl ∈ (place s.dev.quantum s.dev.qset p).toOption,
        Off { s.dev with answers := k.answers } count.toNat p pl
  | .open .. => True
  | .read .. => True
  | .llseek .. => True

instance (s : Sys) : DecidablePred (WriteOff s)
  | .write .. => inferInstanceAs (Decidable (_ → ∀ p ∈ s.fPos _, ∀ pl ∈ Except.toOption _, _))
  | .open .. => isTrue trivial
  | .read .. => isTrue trivial
  | .llseek .. => isTrue trivial

/-- **The invariant**: as long as the kernel is up, the list is in memory as it was built. -/
def Built (P : Params) (s : Sys) : Prop :=
  s.crashed = false → (∃ tree, Rep s.dev tree) ∧ s.dev.quantum = P.scullQuantum ∧
    s.dev.qset = P.scullQset

variable {P : Params} {t : ScullDev} {k : Kernel} {buf : ℕ → Byte} {count : ℕ} {p : ℤ} {pl : Place}

/-- The list is there, and the geometry is that of another device. -/
def Holds (s t : ScullDev) : Prop :=
  (∃ tree, Rep t tree) ∧ t.quantum = s.quantum ∧ t.qset = s.qset

theorem holds_of_grows {tree' : List Item} (h : Grows s t tree tree') : Holds s t :=
  ⟨⟨tree', h.rep⟩, h.quantum, h.qset⟩

/-- **A read** only makes the list longer. -/
theorem read_grows (h : Rep s tree) (hpl : place s.quantum s.qset p = .ok pl) :
    Safe (fun _ => True) (scullRead k s count p) fun r => ∃ tree', Grows s r.2 tree tree' := by
  have hself : ∃ tree', Grows s s tree tree' := ⟨tree, Grows.refl h⟩
  by_cases hk : k.taken = true
  swap
  · unfold scullRead
    rw [if_pos hk]
    exact hself
  by_cases hp : p < s.size
  swap
  · unfold scullRead
    rw [if_neg (not_not_intro hk), if_pos (not_lt.mp hp)]
    exact hself
  have hfind : Safe (fun _ => True) (readFind s pl) fun r => ∃ tree', Grows s r.2 tree tree' := by
    unfold readFind
    refine ((follow_tree h pl.item).weaken fun _ _ => trivial).bind ?_
    rintro ⟨dptr, t⟩ ⟨tree', hr, -⟩
    have ht : ∃ tree', Grows s t tree tree' := ⟨tree', hr.grows⟩
    show Safe _ (if dptr = 0 then _ else _) _
    split_ifs with h0
    · exact ht
    · refine (safe_any (t.load dptr)).bind fun data _ => ?_
      show Safe _ (if data = 0 then _ else _) _
      split_ifs with hd
      · exact ht
      · exact (safe_any (t.load _)).bind fun _ _ => ht
  rw [scullRead_eq hk hp hpl]
  refine hfind.bind fun r hr => ?_
  split_ifs with h0
  · exact hr
  · refine (safe_any (copyToUser _ _ _ _)).bind fun bytes _ => ?_
    split_ifs with hfault
    · exact hr
    · exact hr

/-- **The search of a write** that keeps off the list: the bytes that will be copied are those due,
and meet no item and no array. -/
theorem writeFind_off (h : Rep s tree) (hfit : s.quantum * s.qset < 2 ^ 31)
    (hpl : place s.quantum s.qset p = .ok pl) (hcount : count < 2 ^ 32) (hoff : Off s count p pl) :
    Safe Unanswered (writeFind s pl) fun r => ∃ tree', Finds s tree pl r tree' ∧
      (none ∉ s.answers → r.1 ≠ 0) ∧ (r.1 ≠ 0 → Supplied s pl ∧
        (writeLen r.2 pl count p : ℤ) = due s pl count p SCULL_DATA_SIZE ∧
          ∀ x, InRange (copyAddr r.2 p) (writeLen r.2 pl count p) x → ¬ Touched tree' x) := by
  obtain ⟨hp, hoff⟩ := hoff
  have hp' : 0 ≤ p ∧ p < 2 ^ 31 := ⟨hp.1, by have := hp.2; unfold SCULL_DATA_SIZE at this; omega⟩
  obtain ⟨hitem, hs, hq⟩ := place_within h.quantum.1 h.qset.1 hfit hp' hpl
  refine (writeFind_tree h ⟨by omega, fun _ => hs⟩).mono ?_
  rintro r ⟨tree', hfinds, hw, hnone⟩
  refine ⟨tree', hfinds, fun ha => (hnone ha).1, fun h0 => ?_⟩
  obtain ⟨-, hsupplied, hparts⟩ := hw h0
  have hlen : (writeLen r.2 pl count p : ℤ) = due s pl count p SCULL_DATA_SIZE := by
    rw [← writeLen_eq hq.2 h.quantum.2 hq.1 hp hcount]
    unfold writeLen
    rw [hfinds.grows.quantum]
  refine ⟨hsupplied, hlen, fun x hx hx' => ?_⟩
  obtain ⟨v, hv, hxv⟩ := hparts x hx'
  rw [← Int.toNat_natCast (writeLen r.2 pl count p), hlen] at hx
  exact (hoff hsupplied r.2.data (hfinds.home (hfinds.data_ne_zero h0)) v hv).not_mem hx hxv

/-- **What a write comes to** that keeps off the list. It gives up before its user copy, or the copy
faults, or it takes the bytes due. -/
inductive Written (k : Kernel) (s : ScullDev) (tree : List Item) (pl : Place) (count : ℕ) (p : ℤ) :
    Reply × ScullDev → Prop
  | gaveUp {v : ℤ} {sem : List SemOp} {t : ScullDev} {tree' : List Item} (negative : v < 0)
      (grows : Grows s t tree tree') : Written k s tree pl count p (⟨v, p, [], none, sem⟩, t)
  | faulted {t : ScullDev} {tree' : List Item} {n : ℕ} {f : ℕ → Byte}
      (grows : Grows s t tree tree') (home : t.data ∈ home s)
      (length : (n : ℤ) = due s pl count p SCULL_DATA_SIZE)
      (free : ∀ x, InRange (copyAddr t p) n x → ¬ Touched tree' x) (fault : k.faults n) :
      Written k s tree pl count p
        (⟨-EFAULT, p, [], some (copyAddr t p, n), viaOut⟩,
          { t with mem := fill t.mem (copyAddr t p) n f })
  | took {t : ScullDev} {tree' : List Item} {n size : ℕ} {f : ℕ → Byte} {bytes : List Byte}
      {range : Option (Word × ℕ)} {sem : List SemOp} (grows : Grows s t tree tree')
      (length : (n : ℤ) = due s pl count p SCULL_DATA_SIZE)
      (free : ∀ x, InRange (copyAddr t p) n x → ¬ Touched tree' x)
      (size_eq : (size : ℤ) = max (s.size : ℤ) (p + n)) :
      Written k s tree pl count p
        (⟨n, p + n, bytes, range, sem⟩, { t with mem := fill t.mem (copyAddr t p) n f, size := size })

theorem write_written (h : Rep s tree) (hfit : s.quantum * s.qset < 2 ^ 31)
    (hpl : place s.quantum s.qset p = .ok pl) (hcount : count < 2 ^ 32)
    (hoff : k.taken = true → Off s count p pl) :
    Safe (fun _ => True) (scullWrite k s buf count p) (Written k s tree pl count p) := by
  by_cases hk : k.taken = true
  swap
  · unfold scullWrite
    rw [if_pos hk]
    exact .gaveUp (by decide) (Grows.refl h)
  have hp := (hoff hk).1
  rw [scullWrite_eq hk hpl]
  refine ((writeFind_off h hfit hpl hcount (hoff hk)).weaken fun _ _ => trivial).bind ?_
  rintro ⟨w, t⟩ ⟨tree', hfinds, -, hw⟩
  have hgrows := hfinds.grows
  show Safe _ (if w = 0 then _ else writeCopy k t buf (writeLen t pl count p) p) _
  by_cases h0 : w = 0
  · rw [if_pos h0]
    exact .gaveUp (by decide) hgrows
  rw [if_neg h0]
  obtain ⟨-, hlen, hfree⟩ := hw h0
  simp only at hlen hfree
  generalize writeLen t pl count p = n at hlen hfree
  have hn : p + n ≤ 16 := by
    unfold due SCULL_DATA_SIZE at hlen
    unfold SCULL_DATA_SIZE at hp
    omega
  have hhome := hfinds.home (hfinds.data_ne_zero h0)
  by_cases hmap : Mapped t.mem (copyAddr t p) n
  swap
  · have hoops : copyFromUser t k (copyAddr t p) buf n = .error .oops := if_neg hmap
    unfold writeCopy
    rw [hoops]
    trivial
  by_cases hfault : k.faults n
  · rw [writeCopy_faulted hmap hfault]
    exact .faulted hgrows hhome hlen hfree hfault
  have hwrap : wrap64 (p + n) = p + n := wrap64_of_lt (by omega) (by omega)
  have hs : (size32 (p + n) : ℤ) = p + n := size32_of_lt (by omega) (by omega)
  have hsize : t.size = s.size := hgrows.size
  rw [writeCopy_full hmap hfault (by omega), hwrap]
  refine .took hgrows hlen hfree ?_
  split_ifs <;> omega

/-- The list after the write. -/
theorem Written.rep {r : Reply × ScullDev} (h : Written k s tree pl count p r) :
    (∃ tree', Rep r.2 tree') ∧ r.2.quantum = s.quantum ∧ r.2.qset = s.qset := by
  cases h with
  | gaveUp negative grows => exact holds_of_grows grows
  | faulted grows home length free fault =>
    exact ⟨⟨_, grows.rep.write_off free⟩, grows.quantum, grows.qset⟩
  | took grows length free size_eq =>
    exact ⟨⟨_, (grows.rep.write_off free).congr rfl rfl rfl rfl (fun _ _ => rfl) fun _ hx => hx⟩,
      grows.quantum, grows.qset⟩

/-- A write that keeps off the list ends at `SCULL_DATA_SIZE` at most. -/
theorem Written.size_le {r : Reply × ScullDev} (h : Written k s tree pl count p r)
    (hsize : s.size ≤ 16) : r.2.size ≤ 16 := by
  cases h with
  | gaveUp negative grows => exact grows.size ▸ hsize
  | faulted grows home length free fault => exact grows.size ▸ hsize
  | took grows length free size_eq =>
    unfold due SCULL_DATA_SIZE at length
    simp only
    omega

/-- A call has returned, or the kernel is down. -/
theorem of_conclude_any {α : Type} {σ σ' : Sys} {r : Except Stop α} {Q : α → Prop} {f : α → Sys}
    (hr : Safe (fun _ => True) r Q) (h : conclude σ r f = some σ') :
    (∃ v, Q v ∧ σ' = f v) ∨ σ'.crashed = true := by
  unfold conclude at h
  split at h
  · next v => exact Or.inl ⟨v, hr, (Option.some.inj h).symm⟩
  · exact absurd h (by simp)
  · rw [← Option.some.inj h]
    exact Or.inr rfl

theorem quantum_lt (hP : Params.Ok P) : 1 ≤ P.scullQuantum ∧ P.scullQuantum < 2 ^ 31 := by
  have hq := hP.quantum
  have hqs := hP.qset
  have hfit := hP.fits
  refine ⟨hq, ?_⟩
  nlinarith

theorem built_start (hP : Params.Ok P) (mem : Mem) : Built P (start P mem) := by
  refine fun _ => ⟨⟨[], ?_⟩, rfl, rfl⟩
  exact ⟨quantum_lt hP, hP.qset, rfl, trivial, by simp, List.Perm.refl _, List.Pairwise.nil,
    by simp [start]⟩

/-- The invariant makes every trim right. -/
theorem Built.right (hP : Params.Ok P) {σ : Sys} (h : Built P σ) : TrimsRight P σ := by
  intro halive k fFlags hk hflags
  obtain ⟨⟨tree, htree⟩, -, -⟩ := h halive
  obtain ⟨s', hs', htrimmed, -⟩ := trim_tree (htree.answers k.answers) (quantum_lt hP) hP.qset
  refine ⟨s', ?_, htrimmed.freed, htrimmed.once, htrimmed.live, htrimmed.data, htrimmed.size⟩
  unfold scullOpen
  rw [if_pos hflags, if_pos hk, hs']
  rfl

/-- An item fits an `int`. -/
theorem Built.fits (hP : Params.Ok P) {σ : Sys} (h : Built P σ) (halive : σ.crashed = false) :
    σ.dev.quantum * σ.dev.qset < 2 ^ 31 := by
  obtain ⟨-, hquantum, hqset⟩ := h halive
  rw [hquantum, hqset]
  exact hP.fits

theorem Built.place (hP : Params.Ok P) {σ : Sys} (h : Built P σ) (halive : σ.crashed = false)
    (p : ℤ) : ∃ pl, place σ.dev.quantum σ.dev.qset p = .ok pl := by
  obtain ⟨⟨tree, htree⟩, -⟩ := h halive
  exact exists_place htree.quantum.1 htree.qset.1 (h.fits hP halive) p

/-- **One call** keeps the list in memory as it was built, if its write does. -/
theorem built_keep (hP : Params.Ok P) {σ σ' : Sys} {act : Act} (h : Built P σ)
    (hstep : step P σ act = some σ')
    (hwrite : ∀ f buf count k p, act = .write f buf count k → σ.fPos f = some p →
      Safe (fun _ => True) (scullWrite k (before σ k) buf count.toNat p) fun r =>
        Holds (before σ k) r.2) : Built P σ' := by
  have halive : σ.crashed = false := by
    by_contra hcrashed
    simp [step, hcrashed] at hstep
  obtain ⟨⟨tree, htree⟩, hquantum, hqset⟩ := h halive
  -- a call that holds on to the list
  have hkeep : ∀ {s' : ScullDev} {k : Kernel}, Holds (before σ k) s' →
      (∃ tree, Rep s' tree) ∧ s'.quantum = P.scullQuantum ∧ s'.qset = P.scullQset :=
    fun ⟨hrep, hq', hqs'⟩ => ⟨hrep, hq'.trans hquantum, hqs'.trans hqset⟩
  have hdown : ∀ {τ : Sys}, τ.crashed = true → Built P τ :=
    fun hdown hup => absurd (hup.symm.trans hdown) (by simp)
  cases act with
  | «open» f fFlags k =>
    have hopen : Safe (fun _ => True) (scullOpen P k (before σ k) fFlags) fun r =>
        (∃ tree, Rep r.2 tree) ∧ r.2.quantum = P.scullQuantum ∧ r.2.qset = P.scullQset := by
      have hsame : Holds (before σ k) (before σ k) := ⟨⟨tree, htree.answers _⟩, rfl, rfl⟩
      unfold scullOpen
      split_ifs
      · obtain ⟨s', hs', -, hrep, hq', hqs'⟩ :=
          trim_tree (htree.answers k.answers) (quantum_lt hP) hP.qset
        rw [show scullTrim P (before σ k) = .ok s' from hs']
        exact ⟨⟨[], hrep⟩, hq', hqs'⟩
      · exact hkeep hsame
      · exact hkeep hsame
    obtain ⟨-, -, hstep⟩ := step_open hstep
    rcases of_conclude_any hopen hstep with ⟨r, hr, rfl⟩ | hd
    · by_cases h0 : r.1 = 0
      · rw [if_pos h0]
        exact fun _ => hr
      · rw [if_neg h0]
        exact fun _ => hr
    · exact hdown hd
  | read f count k =>
    obtain ⟨-, p, -, hstep⟩ := step_read hstep
    obtain ⟨pl, hpl⟩ := h.place hP halive p
    rcases of_conclude_any (read_grows (htree.answers k.answers) hpl) hstep with
      ⟨r, ⟨tree', hr⟩, rfl⟩ | hd
    · exact fun _ => hkeep (holds_of_grows hr)
    · exact hdown hd
  | write f buf count k =>
    obtain ⟨-, p, hf, hstep⟩ := step_write hstep
    rcases of_conclude_any (hwrite f buf count k p rfl hf) hstep with ⟨r, hr, rfl⟩ | hd
    · exact fun _ => hkeep hr
    · exact hdown hd
  | llseek f off whence =>
    obtain ⟨-, p, -, rfl⟩ := step_llseek hstep
    exact fun _ => ⟨⟨tree, htree⟩, hquantum, hqset⟩

theorem built_step (hP : Params.Ok P) {σ σ' : Sys} {act : Act} (h : Built P σ) (hoff : WriteOff σ act)
    (hstep : step P σ act = some σ') : Built P σ' := by
  refine built_keep hP h hstep ?_
  rintro f buf count k p rfl hf
  obtain ⟨halive, -⟩ := step_write hstep
  obtain ⟨⟨tree, htree⟩, -⟩ := h halive
  obtain ⟨pl, hpl⟩ := h.place hP halive p
  refine (write_written (htree.answers k.answers) (h.fits hP halive) hpl count.isLt fun hk => ?_).mono
    fun _ hr => hr.rep
  exact hoff hk p hf pl (by rw [hpl]; rfl)

/-- As long as the writes keep off the list, the file ends at `SCULL_DATA_SIZE` at most. -/
theorem size_step (hP : Params.Ok P) {σ σ' : Sys} {act : Act} (h : Built P σ) (hoff : WriteOff σ act)
    (hstep : step P σ act = some σ') (hsize : σ.dev.size ≤ 16) :
    σ'.crashed = false → σ'.dev.size ≤ 16 := by
  have halive : σ.crashed = false := by
    by_contra hcrashed
    simp [step, hcrashed] at hstep
  obtain ⟨⟨tree, htree⟩, -⟩ := h halive
  have hdown : ∀ {τ : Sys}, τ.crashed = true → τ.crashed = false → τ.dev.size ≤ 16 :=
    fun hdown hup => absurd (hup.symm.trans hdown) (by simp)
  cases act with
  | «open» f fFlags k =>
    have hopen : Safe (fun _ => True) (scullOpen P k (before σ k) fFlags) fun r =>
        r.2.size ≤ 16 := by
      unfold scullOpen
      split_ifs
      · obtain ⟨s', hs', htrimmed, -⟩ :=
          trim_tree (htree.answers k.answers) (quantum_lt hP) hP.qset
        rw [show scullTrim P (before σ k) = .ok s' from hs']
        show s'.size ≤ 16
        rw [htrimmed.size]
        exact Nat.zero_le _
      · exact hsize
      · exact hsize
    obtain ⟨-, -, hstep⟩ := step_open hstep
    rcases of_conclude_any hopen hstep with ⟨r, hr, rfl⟩ | hd
    · by_cases h0 : r.1 = 0
      · rw [if_pos h0]
        exact fun _ => hr
      · rw [if_neg h0]
        exact fun _ => hr
    · exact hdown hd
  | read f count k =>
    obtain ⟨-, p, -, hstep⟩ := step_read hstep
    obtain ⟨pl, hpl⟩ := h.place hP halive p
    rcases of_conclude_any (read_grows (htree.answers k.answers) hpl) hstep with
      ⟨r, ⟨tree', hr⟩, rfl⟩ | hd
    · exact fun _ => hr.size ▸ hsize
    · exact hdown hd
  | write f buf count k =>
    obtain ⟨-, p, hf, hstep⟩ := step_write hstep
    obtain ⟨pl, hpl⟩ := h.place hP halive p
    have hwritten : Safe (fun _ => True) (scullWrite k (before σ k) buf count.toNat p)
        (Written k (before σ k) tree pl count.toNat p) :=
      write_written (htree.answers k.answers) (h.fits hP halive) hpl count.isLt fun hk =>
        hoff hk p hf pl (by rw [hpl]; rfl)
    rcases of_conclude_any hwritten hstep with ⟨r, hr, rfl⟩ | hd
    · exact fun _ => hr.size_le hsize
    · exact hdown hd
  | llseek f off whence =>
    obtain ⟨-, p, -, rfl⟩ := step_llseek hstep
    exact fun _ => hsize

/-- What holds in the runs whose writes keep off the list: it is in memory as it was built, and the
file ends at `SCULL_DATA_SIZE` at most. -/
def Small (P : Params) (s : Sys) : Prop := Built P s ∧ (s.crashed = false → s.dev.size ≤ 16)

theorem small_start (hP : Params.Ok P) (mem : Mem) : Small P (start P mem) :=
  ⟨built_start hP mem, fun _ => Nat.zero_le _⟩

theorem small_step (hP : Params.Ok P) {σ σ' : Sys} {act : Act} (h : Small P σ)
    (hoff : WriteOff σ act) (hstep : step P σ act = some σ') : Small P σ' := by
  refine ⟨built_step hP h.1 hoff hstep, size_step hP h.1 hoff hstep (h.2 ?_)⟩
  by_contra hcrashed
  simp [step, hcrashed] at hstep

/-- **Trim returns exactly what was allocated** in the runs whose writes keep off the list. -/
theorem trims_right (hP : Params.Ok P) (mem : Mem) {acts : List Act}
    (h : Meets (step P) WriteOff (start P mem) acts) :
    Always (step P) (TrimsRight P) (start P mem) acts :=
  (always_of_meets (fun _ _ _ hb hoff hstep => built_step hP hb hoff hstep) (built_start hP mem)
    h).mono fun _ hb => hb.right hP

/-- The trim after a write of three bytes at offset 1. -/
theorem trims_right_offset_one : Always (step smallDevice) (TrimsRight smallDevice)
    (start smallDevice fun _ => some 0)
    [.open 0 2 threeChunks, .llseek 0 1 0, .write 0 letters 3 threeChunks, .open 1 1 threeChunks] :=
  trims_right ⟨by decide, by decide, by decide⟩ _ (by decide +kernel)

/-- Three bytes written at offset 0 replace the pointer to the array of the first item: the trim
gives back the address 0x434241 and not the array. -/
theorem not_trims_right : ¬ Always (step smallDevice) (TrimsRight smallDevice)
    (start smallDevice fun _ => some 0) [.open 0 2 threeChunks, .write 0 letters 3 threeChunks] := by
  intro h
  have hrun : (run (step smallDevice) (start smallDevice fun _ => some 0)
      [.open 0 2 threeChunks, .write 0 letters 3 threeChunks]).map (fun s => (s.crashed,
        (scullOpen smallDevice threeChunks { s.dev with answers := threeChunks.answers } 1).toOption.map
          fun r => (r.2.freed, r.2.live.map Block.addr))) =
      some (false, some ([0, 0, 0x434241, 0x1000], [0x3000, 0x2000])) := by decide +kernel
  obtain ⟨s, hs, hval⟩ := Option.map_eq_some_iff.mp hrun
  obtain ⟨halive, hopen⟩ := Prod.mk.inj hval
  obtain ⟨s', hs', htrim⟩ := h.last hs halive threeChunks 1 rfl rfl
  rw [hs'] at hopen
  have hlive : s'.live.map Block.addr = [0x3000, 0x2000] :=
    (Prod.mk.inj (Option.some.inj hopen)).2
  rw [htrim.live] at hlive
  exact absurd hlive (by simp)

end LinuxHomework.Scull.Trim
