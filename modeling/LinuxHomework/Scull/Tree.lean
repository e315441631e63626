import LinuxHomework.Scull.Calls
import Mathlib.Data.List.ReduceOption

/-! # The blocks of a scull device

A list item with its pointer array and the quanta in the array's entries is an `Item`, and the
device in memory is a list of items (`Rep`): the words of the items and arrays hold the pointers,
and the ranges that the driver has allocated are exactly the blocks of the items, apart from one
another. The memory of a device is only looked at where an item or an array lies (`Touched`).

* `Rep.write_off`: a write elsewhere, such as one inside a quantum, keeps the device.
* `follow_tree`, `itemData_tree`, `entryQuantum_tree`: the list grows by the blocks that a call
  allocates (`Grows`). -/

namespace LinuxHomework.Scull.Tree

open LinuxHomework.Lib.CInt LinuxHomework.Lib.Memory LinuxHomework.Lib.Outcome
open LinuxHomework.Scull.Device LinuxHomework.Scull.Layout LinuxHomework.Scull.Calls

/-! ### Items -/

/-- A pointer array, and the quantum in each of its entries. -/
structure Pointers where
  block : Block
  quanta : List (Option Block)

/-- A list item, and its pointer array. -/
structure Item where
  block : Block
  array : Option Pointers

/-- The pointer to a block, or null. -/
def addrOf (b : Option Block) : Word := b.elim 0 Block.addr

/-- The word `data` of an item. -/
def Item.data (it : Item) : Word := addrOf (it.array.map Pointers.block)

/-- The pointer to the first item, or `e` if there is none. -/
def link : List Item → Word → Word
  | [], e => e
  | it :: _, _ => it.block.addr

/-- The blocks of an item: its own, that of its array, and its quanta. -/
def Item.blocks (it : Item) : List Block :=
  it.block :: it.array.elim [] fun a => a.block :: a.quanta.reduceOption

def blocks (tree : List Item) : List Block := tree.flatMap Item.blocks

/-- The addresses of the two words of an item and of the entries of its array. -/
def Item.Touches (it : Item) (x : Word) : Prop :=
  InRange it.block.addr 8 x ∨
    ∃ a ∈ it.array, InRange a.block.addr (4 * a.quanta.length) x

def Touched (tree : List Item) (x : Word) : Prop := ∃ it ∈ tree, it.Touches x

/-- What becomes of an item while the list grows: it keeps the array and the quanta that it has. -/
structure Item.Keeps (it it' : Item) : Prop where
  block : it'.block = it.block
  array : ∀ a ∈ it.array, ∃ a' ∈ it'.array, a'.block = a.block ∧
    ∀ (j : ℕ) (b : Block), a.quanta[j]? = some (some b) → a'.quanta[j]? = some (some b)

/-- The address of an entry of a pointer array. -/
def entryAt (a : Pointers) (i : ℕ) : Word := a.block.addr + BitVec.ofNat 32 (4 * i)

/-- The item is in memory, and `next` behind it. -/
structure Item.Stored (m : Mem) (next : Word) (it : Item) : Prop where
  data : word m it.block.addr = some it.data
  next : word m (it.block.addr + 4) = some next
  entry : ∀ a ∈ it.array, ∀ i q, a.quanta[i]? = some q → word m (entryAt a i) = some (addrOf q)

/-- The items are in memory, linked to one another, and the last one to `e`. -/
def Spine (m : Mem) : List Item → Word → Prop
  | [], _ => True
  | it :: rest, e => it.Stored m (link rest e) ∧ Spine m rest e

/-- The blocks are as large as they have to be. -/
structure Item.Sized (quantum qset : ℤ) (it : Item) : Prop where
  item : 8 ≤ it.block.size
  array : ∀ a ∈ it.array, a.quanta.length = qset.toNat ∧ 4 * qset ≤ a.block.size ∧
    ∀ b, some b ∈ a.quanta → quantum ≤ b.size

/-- **The device in memory.** -/
structure Rep (s : ScullDev) (tree : List Item) : Prop where
  quantum : 1 ≤ s.quantum ∧ s.quantum < 2 ^ 31
  qset : 1 ≤ s.qset ∧ s.qset < 2 ^ 30
  data : s.data = link tree 0
  spine : Spine s.mem tree 0
  sized : ∀ it ∈ tree, it.Sized s.quantum s.qset
  live : s.live.Perm (blocks tree)
  apart : (blocks tree).Pairwise fun b c => Apart b.addr b.size c.addr c.size
  sound : ∀ b ∈ s.live, b.addr ≠ 0 ∧ 0 < b.size ∧ Mapped s.mem b.addr b.size

variable {m m' : Mem} {s s' : ScullDev} {tree l₁ l₂ : List Item} {it it' : Item} {a : Pointers}
  {b c : Block} {e w x : Word} {i n : ℕ} {quantum qset : ℤ}

@[simp] theorem blocks_nil : blocks [] = [] := rfl

@[simp] theorem blocks_cons : blocks (it :: tree) = it.blocks ++ blocks tree := rfl

@[simp] theorem blocks_append : blocks (l₁ ++ l₂) = blocks l₁ ++ blocks l₂ := by
  simp [blocks]

@[simp] theorem link_append : link (l₁ ++ l₂) e = link l₁ (link l₂ e) := by
  cases l₁ <;> rfl

theorem spine_append : Spine m (l₁ ++ l₂) e ↔ Spine m l₁ (link l₂ e) ∧ Spine m l₂ e := by
  induction l₁ with
  | nil => simp [Spine]
  | cons it l₁ ih => rw [List.cons_append, Spine, Spine, ih, link_append, and_assoc]

theorem touched_append : Touched (l₁ ++ l₂) x ↔ Touched l₁ x ∨ Touched l₂ x := by
  simp [Touched, or_and_right, exists_or]

/-- What holds of all items holds when one of them is replaced. -/
theorem forall_replace {Q : Item → Prop} (h : ∀ jt ∈ l₁ ++ it :: l₂, Q jt) (hit : Q it') :
    ∀ jt ∈ l₁ ++ it' :: l₂, Q jt := by
  intro jt hj
  rcases List.mem_append.mp hj with hj | hj
  · exact h jt (by simp [hj])
  · rcases List.mem_cons.mp hj with rfl | hj
    · exact hit
    · exact h jt (by simp [hj])

theorem touched_replace (h : ∀ x, it.Touches x → it'.Touches x) (hx : Touched (l₁ ++ it :: l₂) x) :
    Touched (l₁ ++ it' :: l₂) x := by
  obtain ⟨jt, hj, hx⟩ := hx
  rcases List.mem_append.mp hj with hj | hj
  · exact ⟨jt, by simp [hj], hx⟩
  · rcases List.mem_cons.mp hj with rfl | hj
    · exact ⟨it', by simp, h x hx⟩
    · exact ⟨jt, by simp [hj], hx⟩

/-- What an item touches that replaces another one. -/
theorem touched_replaced {Q : Word → Prop} (h : ∀ x, it'.Touches x → it.Touches x ∨ Q x)
    (hx : Touched (l₁ ++ it' :: l₂) x) : Touched (l₁ ++ it :: l₂) x ∨ Q x := by
  obtain ⟨jt, hj, hx⟩ := hx
  rcases List.mem_append.mp hj with hj | hj
  · exact Or.inl ⟨jt, by simp [hj], hx⟩
  · rcases List.mem_cons.mp hj with rfl | hj
    · exact (h x hx).imp_left fun hx => ⟨it, by simp, hx⟩
    · exact Or.inl ⟨jt, by simp [hj], hx⟩

theorem inRange_entryAt (hi : i < a.quanta.length) (hlen : 4 * a.quanta.length < 2 ^ 32)
    (hx : InRange (entryAt a i) 4 x) : InRange a.block.addr (4 * a.quanta.length) x :=
  inRange_add hx (by omega) hlen

theorem Item.Sized.length_lt (h : it.Sized quantum qset) (hq : qset < 2 ^ 30) (ha : a ∈ it.array) :
    4 * a.quanta.length < 2 ^ 32 := by
  have := (h.array a ha).1
  omega

/-- An item in memory depends only on the addresses it touches. -/
theorem Item.Stored.congr (h : it.Stored m e) (hsize : it.Sized quantum qset) (hq : qset < 2 ^ 30)
    (hm : ∀ x, it.Touches x → m' x = m x) : it.Stored m' e := by
  refine ⟨?_, ?_, fun a ha i q hi => ?_⟩
  · rw [word_congr fun x hx => hm x (Or.inl (inRange_mono hx (by omega)))]
    exact h.data
  · rw [word_congr fun x hx => hm x (Or.inl (inRange_next hx))]
    exact h.next
  · obtain ⟨hlt, -⟩ := List.getElem?_eq_some_iff.mp hi
    have hlen := hsize.length_lt hq ha
    rw [word_congr fun x hx => hm x (Or.inr ⟨a, ha, inRange_entryAt hlt hlen hx⟩)]
    exact h.entry a ha i q hi

theorem Spine.congr (h : Spine m tree e) (hsize : ∀ it ∈ tree, it.Sized quantum qset)
    (hq : qset < 2 ^ 30) (hm : ∀ x, Touched tree x → m' x = m x) : Spine m' tree e := by
  induction tree with
  | nil => trivial
  | cons it rest ih =>
    obtain ⟨hit, hrest⟩ := h
    refine ⟨hit.congr (hsize it (by simp)) hq fun x hx => hm x ⟨it, by simp, hx⟩,
      ih hrest (fun jt hj => hsize jt (by simp [hj])) fun x hx => ?_⟩
    obtain ⟨jt, hj, hx⟩ := hx
    exact hm x ⟨jt, by simp [hj], hx⟩

/-- What an item touches lies in its blocks. -/
theorem Item.Touches.covered (hx : it.Touches x) (hsize : it.Sized quantum qset) (hq : 0 ≤ qset) :
    ∃ b ∈ it.blocks, InRange b.addr b.size x := by
  rcases hx with hx | ⟨a, ha, hx⟩
  · exact ⟨it.block, by simp [Item.blocks], inRange_mono hx hsize.item⟩
  · obtain ⟨hlen, hsz, -⟩ := hsize.array a ha
    refine ⟨a.block, ?_, inRange_mono hx (by omega)⟩
    rw [Option.mem_def] at ha
    simp [Item.blocks, ha]

section Separation
variable (h : Rep s tree)
include h

theorem Rep.mem_live (hb : b ∈ blocks tree) : b ∈ s.live := h.live.mem_iff.mpr hb

theorem Rep.covered (hx : Touched tree x) : ∃ b ∈ s.live, InRange b.addr b.size x := by
  obtain ⟨it, hit, hx⟩ := hx
  have hqset := h.qset
  obtain ⟨b, hb, hx⟩ := hx.covered (h.sized it hit) (by omega)
  exact ⟨b, h.mem_live (List.mem_flatMap.mpr ⟨it, hit, hb⟩), hx⟩

/-- A fresh chunk is nowhere touched. -/
theorem Rep.off_chunk {c : Chunk} (hf : s.Fresh n c) (hx : Touched tree x) :
    ¬ InRange c.addr c.size x := by
  obtain ⟨b, hb, hx⟩ := h.covered hx
  exact (hf.2.2.2 b hb).symm.not_mem hx

omit h in
/-- Other items touch no block of an item. -/
theorem Rep.off_others (h : Rep s (l₁ ++ it :: l₂)) (hx : Touched (l₁ ++ l₂) x) (hb : b ∈ it.blocks) :
    ¬ InRange b.addr b.size x := by
  have hqset := h.qset
  have hap := h.apart
  rw [blocks_append, blocks_cons] at hap
  obtain ⟨-, h₂, h₁⟩ := List.pairwise_append.mp hap
  obtain ⟨-, -, h₂⟩ := List.pairwise_append.mp h₂
  obtain ⟨jt, hj, hx⟩ := hx
  have hjt : jt ∈ l₁ ++ it :: l₂ := by
    rcases List.mem_append.mp hj with hj | hj
    · simp [hj]
    · simp [hj]
  obtain ⟨c, hc, hx⟩ := hx.covered (h.sized jt hjt) (by omega)
  rcases List.mem_append.mp hj with hj | hj
  · have hc : c ∈ blocks l₁ := List.mem_flatMap.mpr ⟨jt, hj, hc⟩
    exact (h₁ c hc b (List.mem_append_left _ hb)).not_mem hx
  · have hc : c ∈ blocks l₂ := List.mem_flatMap.mpr ⟨jt, hj, hc⟩
    exact fun hx' => (h₂ b hb c hc).not_mem hx' hx

/-- The device depends only on what its items touch. -/
theorem Rep.congr (hquantum : s'.quantum = s.quantum) (hqset : s'.qset = s.qset)
    (hdata : s'.data = s.data) (hlive : s'.live = s.live)
    (hm : ∀ x, Touched tree x → s'.mem x = s.mem x)
    (hmapped : ∀ x, (s.mem x).isSome → (s'.mem x).isSome) : Rep s' tree := by
  refine ⟨hquantum ▸ h.quantum, hqset ▸ h.qset, hdata ▸ h.data,
    h.spine.congr h.sized h.qset.2 hm, ?_, hlive ▸ h.live, h.apart, fun b hb => ?_⟩
  · rw [hquantum, hqset]
    exact h.sized
  · obtain ⟨h0, hsize, hmap⟩ := h.sound b (hlive ▸ hb)
    exact ⟨h0, hsize, hmap.mono_mem hmapped⟩

theorem Rep.answers (as : List (Option Chunk)) : Rep { s with answers := as } tree :=
  h.congr rfl rfl rfl rfl (fun _ _ => rfl) fun _ hx => hx

/-- **A write** that touches no item and no array keeps the device. -/
theorem Rep.write_off {f : ℕ → Byte} (hoff : ∀ x, InRange w n x → ¬ Touched tree x) :
    Rep { s with mem := fill s.mem w n f } tree :=
  h.congr rfl rfl rfl rfl (fun _ hx => fill_of_not_mem fun hx' => hoff _ hx' hx)
    fun _ hx => isSome_fill hx

end Separation

/-! ### A new block -/

/-- The memory after a chunk has been handed out, its address stored at `w`, and its first `z` bytes
zeroed. -/
def attach (m : Mem) (c : Chunk) (w : Word) (z : ℕ) : Mem :=
  fill (setWord (fill m c.addr c.size c.raw) w c.addr) c.addr z fun _ => 0

section Attach
variable {c : Chunk} {z : ℕ}

theorem attach_off (hz : z ≤ c.size) (hc : ¬ InRange c.addr c.size x) (hw : ¬ InRange w 4 x) :
    attach m c w z x = m x := by
  unfold attach
  rw [fill_of_not_mem fun h => hc (inRange_mono h hz), setWord, fill_of_not_mem hw,
    fill_of_not_mem hc]

theorem attach_word (hz : z ≤ c.size) (hw : ∀ x, InRange w 4 x → ¬ InRange c.addr c.size x) :
    word (attach m c w z) w = some c.addr := by
  have hset := word_setWord (m := fill m c.addr c.size c.raw) (a := w) (w := c.addr)
  rw [← hset]
  exact word_congr fun x hx => fill_of_not_mem fun h => hw x hx (inRange_mono h hz)

theorem attach_zero (hi : 4 * i + 4 ≤ z) (hz : z < 2 ^ 32) :
    word (attach m c w z) (c.addr + BitVec.ofNat 32 (4 * i)) = some 0 :=
  word_fill_zero hi (by omega)

theorem isSome_attach (hx : (m x).isSome) : (attach m c w z x).isSome :=
  isSome_fill (isSome_fill (isSome_fill hx))

/-- Without zeroing. -/
theorem attach_bare : attach m c w 0 = setWord (fill m c.addr c.size c.raw) w c.addr := by
  funext x
  exact fill_of_not_mem (by unfold InRange; omega)

end Attach

/-- The address lies in a block that has been allocated since. -/
def InNew (s s' : ScullDev) (x : Word) : Prop :=
  ∃ b ∈ s'.live, b ∉ s.live ∧ InRange b.addr b.size x

/-- **A device that has grown**: its blocks are the old ones and chunks handed out since, and memory
has changed only there and where items and arrays lie. -/
structure Grows (s s' : ScullDev) (tree tree' : List Item) : Prop where
  rep : Rep s' tree'
  quantum : s'.quantum = s.quantum
  qset : s'.qset = s.qset
  size : s'.size = s.size
  freed : s'.freed = s.freed
  data : s.data ≠ 0 → s'.data = s.data
  items : ∀ (i : ℕ) (it : Item), tree[i]? = some it → ∃ it', tree'[i]? = some it' ∧ it.Keeps it'
  touched : ∀ x, Touched tree x → Touched tree' x
  old : ∀ x, Touched tree' x → Touched tree x ∨ InNew s s' x
  answers : ∀ o ∈ s'.answers, o ∈ s.answers
  keeps : ∀ b ∈ s.live, b ∈ s'.live
  live : ∀ b ∈ s'.live, b ∈ s.live ∨ ∃ c, some c ∈ s.answers ∧ c.toBlock = b
  same : ∀ x, ¬ Touched tree x → ¬ InNew s s' x → s'.mem x = s.mem x
  mapped : ∀ x, (s.mem x).isSome → (s'.mem x).isSome

theorem Item.Keeps.refl (it : Item) : it.Keeps it :=
  ⟨rfl, fun a ha => ⟨a, ha, rfl, fun _ _ hb => hb⟩⟩

theorem Item.Keeps.trans {it'' : Item} (h : it.Keeps it') (h' : it'.Keeps it'') : it.Keeps it'' := by
  refine ⟨h'.block.trans h.block, fun a ha => ?_⟩
  obtain ⟨a', ha', hblock, hq⟩ := h.array a ha
  obtain ⟨a'', ha'', hblock', hq'⟩ := h'.array a' ha'
  exact ⟨a'', ha'', hblock'.trans hblock, fun j b hb => hq' j b (hq j b hb)⟩

/-- One item has changed. -/
theorem keeps_replace (h : it.Keeps it') {jt : Item} (hj : (l₁ ++ it :: l₂)[i]? = some jt) :
    ∃ jt', (l₁ ++ it' :: l₂)[i]? = some jt' ∧ jt.Keeps jt' := by
  by_cases hlt : i < l₁.length
  · rw [List.getElem?_append_left hlt] at hj ⊢
    exact ⟨jt, hj, Item.Keeps.refl jt⟩
  · rw [List.getElem?_append_right (by omega)] at hj ⊢
    cases hi : i - l₁.length with
    | zero =>
      rw [hi] at hj
      obtain rfl := Option.some.inj hj
      exact ⟨it', rfl, h⟩
    | succ i =>
      rw [hi] at hj
      exact ⟨jt, hj, Item.Keeps.refl jt⟩

theorem Grows.refl (h : Rep s tree) : Grows s s tree tree :=
  ⟨h, rfl, rfl, rfl, rfl, fun _ => rfl, fun _ it hit => ⟨it, hit, Item.Keeps.refl it⟩,
    fun _ hx => hx, fun _ hx => Or.inl hx, fun _ ho => ho, fun _ hb => hb, fun _ hb => Or.inl hb,
    fun _ _ _ => rfl, fun _ hx => hx⟩

theorem Grows.trans {s'' : ScullDev} {tree' tree'' : List Item} (h : Grows s s' tree tree')
    (h' : Grows s' s'' tree' tree'') : Grows s s'' tree tree'' := by
  have hfirst : ∀ x, InNew s s' x → InNew s s'' x := fun x ⟨b, hb, hnew, hx⟩ =>
    ⟨b, h'.keeps b hb, hnew, hx⟩
  have hsecond : ∀ x, InNew s' s'' x → InNew s s'' x := fun x ⟨b, hb, hnew, hx⟩ =>
    ⟨b, hb, fun hold => hnew (h.keeps b hold), hx⟩
  refine ⟨h'.rep, h'.quantum.trans h.quantum, h'.qset.trans h.qset, h'.size.trans h.size,
    h'.freed.trans h.freed, fun h0 => ?_, fun i it hit => ?_,
    fun x hx => h'.touched x (h.touched x hx), fun x hx => ?_,
    fun o ho => h.answers o (h'.answers o ho), fun b hb => h'.keeps b (h.keeps b hb), fun b hb => ?_,
    fun x hx hnew => ?_, fun x hx => h'.mapped x (h.mapped x hx)⟩
  · have hd := h.data h0
    rw [h'.data (by rw [hd]; exact h0), hd]
  · obtain ⟨it', hit', hkeeps⟩ := h.items i it hit
    obtain ⟨it'', hit'', hkeeps'⟩ := h'.items i it' hit'
    exact ⟨it'', hit'', hkeeps.trans hkeeps'⟩
  · rcases h'.old x hx with hx | hx
    · exact (h.old x hx).imp_right (hfirst x)
    · exact Or.inr (hsecond x hx)
  · rcases h'.live b hb with hb | ⟨c, hc, rfl⟩
    · exact h.live b hb
    · exact Or.inr ⟨c, h.answers _ hc, rfl⟩
  · have hx' : ¬ Touched tree' x := fun hx' => (h.old x hx').elim hx fun hn => hnew (hfirst x hn)
    rw [h'.same x hx' fun hn => hnew (hsecond x hn)]
    exact h.same x hx fun hn => hnew (hfirst x hn)

/-- An answer of `kmalloc` is consumed. -/
theorem Rep.fail {rest : List (Option Chunk)} {o : Option Chunk} (h : Rep s tree)
    (hans : s.answers = o :: rest) : Grows s { s with answers := rest } tree tree :=
  ⟨h.answers rest, rfl, rfl, rfl, rfl, fun _ => rfl, fun _ it hit => ⟨it, hit, Item.Keeps.refl it⟩,
    fun _ hx => hx, fun _ hx => Or.inl hx,
    fun _ ho => by rw [hans]; exact List.mem_cons_of_mem _ ho, fun _ hb => hb,
    fun _ hb => Or.inl hb, fun _ _ _ => rfl, fun _ hx => hx⟩

section Attach
variable {c : Chunk} {z : ℕ} {rest : List (Option Chunk)} {tree' : List Item}

/-- **One block more**: what is left to show is that the items are in memory. -/
theorem Rep.attach (h : Rep s tree) (hans : s.answers = some c :: rest) (hf : s.Fresh n c)
    (hn : 0 < n) {D : Word} (hD : D = link tree' 0) (hsame : s.data ≠ 0 → D = s.data)
    (hspine : Spine m tree' 0) (hsized : ∀ it ∈ tree', it.Sized s.quantum s.qset)
    (hblocks : (blocks tree').Perm (c.toBlock :: blocks tree))
    (hitems : ∀ (i : ℕ) (it : Item), tree[i]? = some it → ∃ it', tree'[i]? = some it' ∧ it.Keeps it')
    (htouched : ∀ x, Touched tree x → Touched tree' x)
    (hold : ∀ x, Touched tree' x → Touched tree x ∨ InRange c.addr c.size x)
    (hframe : ∀ x, ¬ Touched tree' x → ¬ InRange c.addr c.size x → m x = s.mem x)
    (hmapped : ∀ x, (s.mem x).isSome → (m x).isSome) :
    Grows s { s with data := D, mem := m, live := c.toBlock :: s.live, answers := rest } tree
      tree' := by
  have hans' : some c ∈ s.answers := by simp [hans]
  have hfresh : c.toBlock ∉ s.live := fun hc => by
    have hpos := lt_of_lt_of_le hn hf.2.1
    exact (hf.2.2.2 _ hc).ne hpos hpos rfl
  have hnew : ∀ x, InRange c.addr c.size x → InNew s
      { s with data := D, mem := m, live := c.toBlock :: s.live, answers := rest } x :=
    fun x hx => ⟨c.toBlock, List.mem_cons_self .., hfresh, hx⟩
  refine ⟨⟨h.quantum, h.qset, hD, hspine, hsized, (h.live.cons _).trans hblocks.symm, ?_, ?_⟩, rfl,
    rfl, rfl, rfl, hsame, hitems, htouched, fun x hx => (hold x hx).imp_right (hnew x),
    fun o ho => by rw [hans]; exact List.mem_cons_of_mem _ ho,
    fun b hb => List.mem_cons_of_mem _ hb, fun b hb => ?_, fun x hx hn => ?_, hmapped⟩
  · refine (hblocks.pairwise_iff fun hbc => hbc.symm).mpr (List.pairwise_cons.mpr ⟨?_, h.apart⟩)
    exact fun b hb => hf.2.2.2 b (h.mem_live hb)
  · intro b hb
    rcases List.mem_cons.mp hb with rfl | hb
    · exact ⟨hf.1, lt_of_lt_of_le hn hf.2.1, hf.2.2.1.mono_mem hmapped⟩
    · obtain ⟨h0, hsize, hmap⟩ := h.sound b hb
      exact ⟨h0, hsize, hmap.mono_mem hmapped⟩
  · rcases List.mem_cons.mp hb with rfl | hb
    · exact Or.inr ⟨c, hans', rfl⟩
    · exact Or.inl hb
  · have hc : ¬ InRange c.addr c.size x := fun hc => hn (hnew x hc)
    exact hframe x (fun hx' => (hold x hx').elim hx hc) hc

/-- The items other than `it` are still in memory when a word of `it` is set to a new chunk. -/
theorem Rep.others (h : Rep s (l₁ ++ it :: l₂)) (hf : s.Fresh n c) (hz : z ≤ c.size)
    (hw : ∀ x, InRange w 4 x → it.Touches x) :
    Spine (Tree.attach s.mem c w z) l₁ it.block.addr ∧ Spine (Tree.attach s.mem c w z) l₂ 0 := by
  have hqset := h.qset
  obtain ⟨h₁, h₂⟩ := spine_append.mp h.spine
  have hout : ∀ x, Touched (l₁ ++ l₂) x → Tree.attach s.mem c w z x = s.mem x := by
    intro x hx
    refine attach_off hz (h.off_chunk hf ?_) fun hx' => ?_
    · rw [touched_append] at hx ⊢
      rcases hx with hx | ⟨jt, hj, hx⟩
      · exact Or.inl hx
      · exact Or.inr ⟨jt, by simp [hj], hx⟩
    · obtain ⟨b, hb, hxb⟩ := (hw x hx').covered (h.sized it (by simp)) (by omega)
      exact h.off_others hx hb hxb
  refine ⟨h₁.congr (fun jt hj => h.sized jt (by simp [hj])) h.qset.2 fun x hx => hout x ?_,
    h₂.2.congr (fun jt hj => h.sized jt (by simp [hj])) h.qset.2 fun x hx => hout x ?_⟩
  · exact touched_append.mpr (Or.inl hx)
  · exact touched_append.mpr (Or.inr hx)

/-- Of an item only the word set to the new chunk changes. -/
theorem Rep.own (h : Rep s (l₁ ++ it :: l₂)) (hf : s.Fresh n c) (hz : z ≤ c.size)
    (hx : it.Touches x) (hw : ¬ InRange w 4 x) : Tree.attach s.mem c w z x = s.mem x :=
  attach_off hz (h.off_chunk hf ⟨it, by simp, hx⟩) hw

/-- The new chunk is stored at a word of an item. -/
theorem Rep.stored (h : Rep s (l₁ ++ it :: l₂)) (hf : s.Fresh n c) (hz : z ≤ c.size)
    (hw : ∀ x, InRange w 4 x → it.Touches x) :
    word (Tree.attach s.mem c w z) w = some c.addr :=
  attach_word hz fun x hx => h.off_chunk hf ⟨it, by simp, hw x hx⟩

/-- The item and its array are apart. -/
theorem Rep.array_off (h : Rep s (l₁ ++ it :: l₂)) (ha : it.array = some a)
    (hx : InRange it.block.addr 8 x) : ¬ InRange a.block.addr (4 * a.quanta.length) x := by
  have hsize := h.sized it (by simp)
  obtain ⟨hlen, hsz, -⟩ := hsize.array a ha
  have hap := h.apart
  rw [blocks_append, blocks_cons] at hap
  have hap := (List.pairwise_append.mp (List.pairwise_append.mp hap).2.1).1
  rw [Item.blocks, ha] at hap
  have hap := (List.pairwise_cons.mp hap).1 a.block (by simp)
  exact fun hx' => hap.not_mem (inRange_mono hx hsize.item) (inRange_mono hx' (by omega))

/-- **The list gets a new last item.** -/
theorem Rep.newItem {l : List Item} (h : Rep s (l ++ [it])) (hans : s.answers = some c :: rest)
    (hf : s.Fresh 8 c) :
    Grows s { s with
        mem := Tree.attach s.mem c (it.block.addr + 4) 8, live := c.toBlock :: s.live,
        answers := rest }
      (l ++ [it]) (l ++ [it, ⟨c.toBlock, none⟩]) := by
  have hw : ∀ x, InRange (it.block.addr + 4) 4 x → it.Touches x :=
    fun x hx => Or.inl (inRange_next hx)
  obtain ⟨hl, -⟩ := h.others hf hf.2.1 hw
  have hit := (spine_append.mp h.spine).2.1
  have hsize := h.sized it (by simp)
  have hstored : it.Stored (Tree.attach s.mem c (it.block.addr + 4) 8) c.addr := by
    refine ⟨?_, h.stored hf hf.2.1 hw, fun a ha i q hi => ?_⟩
    · rw [← hit.data]
      exact word_congr fun x hx => h.own hf hf.2.1 (Or.inl (inRange_mono hx (by omega)))
        (not_inRange_next hx)
    · have hlt := (List.getElem?_eq_some_iff.mp hi).1
      rw [← hit.entry a ha i q hi]
      refine word_congr fun x hx => ?_
      have hxa := inRange_entryAt hlt (hsize.length_lt h.qset.2 ha) hx
      exact h.own hf hf.2.1 (Or.inr ⟨a, ha, hxa⟩) fun hx' =>
        h.array_off ha (inRange_next hx') hxa
  have hnew : (⟨c.toBlock, none⟩ : Item).Stored
      (Tree.attach s.mem c (it.block.addr + 4) 8) 0 := by
    refine ⟨?_, ?_, by simp⟩
    · have := attach_zero (m := s.mem) (c := c) (w := it.block.addr + 4) (z := 8) (i := 0)
        (by omega) (by omega)
      simpa [Item.data, addrOf] using this
    · exact attach_zero (i := 1) (by omega) (by omega)
  refine h.attach hans hf (by omega) ?_ (fun _ => rfl) ?_ ?_ ?_ (fun i jt hj => ?_) ?_ (fun x hx => ?_)
    (fun x hx hc => ?_) fun x hx => isSome_attach hx
  · rw [h.data, link_append, link_append]
    rfl
  · exact spine_append.mpr ⟨hl, hstored, hnew, trivial⟩
  · intro jt hj
    rcases List.mem_append.mp hj with hj | hj
    · exact h.sized jt (by simp [hj])
    · rcases List.mem_cons.mp hj with rfl | hj
      · exact hsize
      · rw [List.mem_singleton.mp hj]
        exact ⟨hf.2.1, by simp⟩
  · have hperm : (blocks (l ++ [it]) ++ [c.toBlock]).Perm (c.toBlock :: blocks (l ++ [it])) :=
      List.perm_append_comm
    simpa [Item.blocks] using hperm
  · have hlt := (List.getElem?_eq_some_iff.mp hj).1
    refine ⟨jt, ?_, Item.Keeps.refl jt⟩
    rw [show l ++ [it, ⟨c.toBlock, none⟩] = (l ++ [it]) ++ [⟨c.toBlock, none⟩] by simp,
      List.getElem?_append_left hlt, hj]
  · rintro x ⟨jt, hj, hx⟩
    refine ⟨jt, ?_, hx⟩
    rcases List.mem_append.mp hj with hj | hj
    · simp [hj]
    · simp [List.mem_singleton.mp hj]
  · rw [show l ++ [it, ⟨c.toBlock, none⟩] = (l ++ [it]) ++ [⟨c.toBlock, none⟩] by simp] at hx
    refine (touched_append.mp hx).imp_right ?_
    rintro ⟨jt, hj, hx⟩
    rw [List.mem_singleton.mp hj] at hx
    rcases hx with hx | ⟨a, ha, -⟩
    · exact inRange_mono hx hf.2.1
    · exact absurd ha (by simp)
  · exact attach_off hf.2.1 hc fun hx' => hx ⟨it, by simp, hw x hx'⟩

/-- **An item gets its pointer array.** -/
theorem Rep.newArray (h : Rep s (l₁ ++ it :: l₂)) (hans : s.answers = some c :: rest)
    (hn : (n : ℤ) = 4 * s.qset) (hf : s.Fresh n c) (ha : it.array = none) :
    Grows s { s with
        mem := Tree.attach s.mem c it.block.addr n, live := c.toBlock :: s.live, answers := rest }
      (l₁ ++ it :: l₂)
      (l₁ ++ ⟨it.block, some ⟨c.toBlock, List.replicate s.qset.toNat none⟩⟩ :: l₂) := by
  have hqset := h.qset
  have hw : ∀ x, InRange it.block.addr 4 x → it.Touches x :=
    fun x hx => Or.inl (inRange_mono hx (by omega))
  obtain ⟨hl₁, hl₂⟩ := h.others hf hf.2.1 hw
  have hit := (spine_append.mp h.spine).2.1
  have hstored : (⟨it.block, some ⟨c.toBlock, List.replicate s.qset.toNat none⟩⟩ : Item).Stored
      (Tree.attach s.mem c it.block.addr n) (link l₂ 0) := by
    refine ⟨h.stored hf hf.2.1 hw, ?_, fun a ha i q hi => ?_⟩
    · show word _ (it.block.addr + 4) = _
      rw [← hit.next]
      exact word_congr fun x hx => h.own hf hf.2.1 (Or.inl (inRange_next hx))
        (not_inRange_of_next hx)
    · obtain rfl := Option.some.inj ha
      obtain ⟨hlt, hq⟩ := List.getElem?_eq_some_iff.mp hi
      rw [List.length_replicate] at hlt
      rw [List.getElem_replicate] at hq
      rw [← hq]
      exact attach_zero (by omega) (by omega)
  refine h.attach hans hf (by omega) ?_ (fun _ => rfl) ?_ ?_ ?_ (fun _ jt hj => keeps_replace ?_ hj) ?_
    (fun x hx => touched_replaced (fun x hx => ?_) hx) (fun x hx hc => ?_) fun x hx => isSome_attach hx
  · rw [h.data, link_append, link_append]
    rfl
  · exact spine_append.mpr ⟨hl₁, hstored, hl₂⟩
  · refine forall_replace h.sized ⟨(h.sized it (by simp)).item, fun a ha => ?_⟩
    obtain rfl := Option.some.inj ha
    have := hf.2.1
    exact ⟨List.length_replicate, by simp only; omega, by simp⟩
  · have hblocks : it.blocks = [it.block] := by simp [Item.blocks, ha]
    have hperm : (blocks l₁ ++ [it.block] ++ c.toBlock :: blocks l₂).Perm
        (c.toBlock :: (blocks l₁ ++ [it.block] ++ blocks l₂)) := List.perm_middle
    simpa [Item.blocks, ha, List.reduceOption_replicate_none] using hperm
  · refine ⟨rfl, fun a ha' => ?_⟩
    rw [ha] at ha'
    exact absurd ha' (by simp)
  · refine fun x => touched_replace fun x hx => ?_
    rcases hx with hx | ⟨a, ha', -⟩
    · exact Or.inl hx
    · rw [ha] at ha'
      exact absurd ha' (by simp)
  · rcases hx with hx | ⟨a, ha', hx⟩
    · exact Or.inl (Or.inl hx)
    · obtain rfl := Option.some.inj ha'
      have := hf.2.1
      refine Or.inr (inRange_mono hx ?_)
      simp only [List.length_replicate]
      omega
  · refine attach_off hf.2.1 hc fun hx' => hx ⟨_, List.mem_append_right _ (List.mem_cons_self ..), ?_⟩
    exact Or.inl (inRange_mono hx' (by omega))

theorem entryAt_off {j : ℕ} (hij : i ≠ j) (hi : i < a.quanta.length) (hj : j < a.quanta.length)
    (hlen : 4 * a.quanta.length < 2 ^ 32) (hx : InRange (entryAt a j) 4 x) :
    ¬ InRange (entryAt a i) 4 x := by
  unfold entryAt InRange at *
  bv_omega

theorem reduceOption_set {l : List (Option Block)} (hi : l[i]? = some none) :
    (l.set i (some b)).reduceOption.Perm (b :: l.reduceOption) := by
  obtain ⟨hlt, hget⟩ := List.getElem?_eq_some_iff.mp hi
  have hl : l = l.take i ++ none :: l.drop (i + 1) := by
    rw [← hget, List.cons_getElem_drop_succ, List.take_append_drop]
  rw [List.set_eq_take_append_cons_drop, if_pos hlt]
  conv_rhs => rw [hl]
  rw [List.reduceOption_append, List.reduceOption_append, List.reduceOption_cons_of_some,
    List.reduceOption_cons_of_none]
  exact List.perm_middle

/-- **An entry of a pointer array gets its quantum.** -/
theorem Rep.newQuantum (h : Rep s (l₁ ++ it :: l₂)) (hans : s.answers = some c :: rest)
    (hn : (n : ℤ) = s.quantum) (hf : s.Fresh n c) (ha : it.array = some a)
    (hi : a.quanta[i]? = some none) :
    Grows s { s with
        mem := Tree.attach s.mem c (entryAt a i) 0, live := c.toBlock :: s.live, answers := rest }
      (l₁ ++ it :: l₂)
      (l₁ ++ ⟨it.block, some ⟨a.block, a.quanta.set i (some c.toBlock)⟩⟩ :: l₂) := by
  have hquantum := h.quantum
  have hsize := h.sized it (by simp)
  have hlen := hsize.length_lt h.qset.2 ha
  obtain ⟨hlt, -⟩ := List.getElem?_eq_some_iff.mp hi
  have hw : ∀ x, InRange (entryAt a i) 4 x → it.Touches x :=
    fun x hx => Or.inr ⟨a, ha, inRange_entryAt hlt hlen hx⟩
  obtain ⟨hl₁, hl₂⟩ := h.others hf (Nat.zero_le _) hw
  have hit := (spine_append.mp h.spine).2.1
  have hstored : (⟨it.block, some ⟨a.block, a.quanta.set i (some c.toBlock)⟩⟩ : Item).Stored
      (Tree.attach s.mem c (entryAt a i) 0) (link l₂ 0) := by
    have hout : ∀ x, InRange it.block.addr 8 x → ¬ InRange (entryAt a i) 4 x :=
      fun x hx hx' => h.array_off ha hx (inRange_entryAt hlt hlen hx')
    refine ⟨?_, ?_, fun a' ha' j q hj => ?_⟩
    · have hdata : it.data = a.block.addr := by simp [Item.data, ha, addrOf]
      show word _ it.block.addr = some a.block.addr
      rw [← hdata, ← hit.data]
      refine word_congr fun x hx => ?_
      have hx8 : InRange it.block.addr 8 x := inRange_mono hx (by omega)
      exact h.own hf (Nat.zero_le _) (Or.inl hx8) (hout x hx8)
    · show word _ (it.block.addr + 4) = _
      rw [← hit.next]
      refine word_congr fun x hx => ?_
      exact h.own hf (Nat.zero_le _) (Or.inl (inRange_next hx)) (hout x (inRange_next hx))
    · obtain rfl := Option.some.inj ha'
      show word _ (entryAt a j) = _
      by_cases hij : i = j
      · subst hij
        rw [List.getElem?_set_self hlt] at hj
        rw [← Option.some.inj hj]
        exact h.stored hf (Nat.zero_le _) hw
      · rw [List.getElem?_set_ne hij] at hj
        have hjlt := (List.getElem?_eq_some_iff.mp hj).1
        rw [← hit.entry a ha j q hj]
        refine word_congr fun x hx => ?_
        exact h.own hf (Nat.zero_le _) (Or.inr ⟨a, ha, inRange_entryAt hjlt hlen hx⟩)
          (entryAt_off hij hlt hjlt hlen hx)
  refine h.attach hans hf (by omega) ?_ (fun _ => rfl) ?_ ?_ ?_ (fun _ jt hj => keeps_replace ?_ hj) ?_
    (fun x hx => touched_replaced (fun x hx => ?_) hx) (fun x hx hc => ?_) fun x hx => isSome_attach hx
  · rw [h.data, link_append, link_append]
    rfl
  · exact spine_append.mpr ⟨hl₁, hstored, hl₂⟩
  · obtain ⟨hlen', hsz, hq⟩ := hsize.array a ha
    refine forall_replace h.sized ⟨hsize.item, fun a' ha' => ?_⟩
    obtain rfl := Option.some.inj ha'
    refine ⟨by simpa using hlen', hsz, fun b hb => ?_⟩
    rcases List.mem_or_eq_of_mem_set hb with hb | hb
    · exact hq b hb
    · obtain rfl := Option.some.inj hb
      have := hf.2.1
      show s.quantum ≤ (c.size : ℤ)
      omega
  · have hq := reduceOption_set (b := c.toBlock) hi
    have hperm : (blocks l₁ ++ (it.block :: a.block :: (a.quanta.set i (some c.toBlock)).reduceOption)
        ++ blocks l₂).Perm (c.toBlock :: (blocks l₁ ++ (it.block :: a.block ::
          a.quanta.reduceOption) ++ blocks l₂)) := by
      refine (((hq.cons _).cons _).append_left _ |>.append_right _).trans ?_
      have hmid : (blocks l₁ ++ [it.block, a.block] ++
          c.toBlock :: (a.quanta.reduceOption ++ blocks l₂)).Perm
            (c.toBlock :: (blocks l₁ ++ [it.block, a.block] ++
              (a.quanta.reduceOption ++ blocks l₂))) := List.perm_middle
      simpa using hmid
    simpa [Item.blocks, ha] using hperm
  · refine ⟨rfl, fun a' ha' => ?_⟩
    obtain rfl := Option.some.inj (ha.symm.trans ha')
    refine ⟨_, rfl, rfl, fun j b hb => ?_⟩
    have hij : i ≠ j := by
      rintro rfl
      exact absurd (hi.symm.trans hb) (by simp)
    show (a.quanta.set i (some c.toBlock))[j]? = _
    rw [List.getElem?_set_ne hij, hb]
  · refine fun x => touched_replace fun x hx => ?_
    rcases hx with hx | ⟨a', ha', hx⟩
    · exact Or.inl hx
    · rw [Option.mem_def, ha] at ha'
      obtain rfl := Option.some.inj ha'
      exact Or.inr ⟨_, rfl, by simpa using hx⟩
  · rcases hx with hx | ⟨a', ha', hx⟩
    · exact Or.inl (Or.inl hx)
    · obtain rfl := Option.some.inj ha'
      exact Or.inl (Or.inr ⟨a, ha, by simpa using hx⟩)
  · refine attach_off (Nat.zero_le _) hc fun hx' =>
      hx ⟨_, List.mem_append_right _ (List.mem_cons_self ..), ?_⟩
    exact Or.inr ⟨_, rfl, by simpa using inRange_entryAt hlt hlen hx'⟩

end Attach

/-! ### The calls while the list grows -/

theorem Rep.addr_ne_zero (h : Rep s (l₁ ++ it :: l₂)) : it.block.addr ≠ 0 :=
  (h.sound it.block (h.mem_live (by simp [Item.blocks]))).1

/-- The block of an item is allocated. -/
theorem Rep.item_mapped (h : Rep s (l₁ ++ it :: l₂)) : Mapped s.mem it.block.addr 8 := by
  have hsize := (h.sized it (by simp)).item
  obtain ⟨-, -, hmap⟩ := h.sound it.block (h.mem_live (by simp [Item.blocks]))
  exact fun i hi => hmap i (by omega)

/-- The list is empty exactly if the pointer to it is null. -/
theorem Rep.nil_iff (h : Rep s tree) : s.data = 0 ↔ tree = [] := by
  rw [h.data]
  cases tree with
  | nil => exact iff_of_true rfl rfl
  | cons it rest =>
    refine iff_of_false ?_ (by simp)
    have h' : Rep s ([] ++ it :: rest) := h
    exact h'.addr_ne_zero

/-- What a walk to the item with the number `i` does to the list: it is made as long as is needed,
by items without an array. -/
structure Reaches (s : ScullDev) (tree : List Item) (i : ℕ) (r : Word × ScullDev)
    (tree' : List Item) : Prop where
  grows : Grows s r.2 tree tree'
  null : r.1 = 0 → none ∈ s.answers
  new : ∃ new : List Item, tree' = tree ++ new ∧ new.length ≤ i + 1 - tree.length ∧
    ∀ (j : ℕ) (it : Item), new[j]? = some it →
      ∃ c, s.answers[j]? = some (some c) ∧ it = ⟨c.toBlock, none⟩
  found : r.1 ≠ 0 → tree'.length = max tree.length (i + 1) ∧
    (∃ it, tree'[i]? = some it ∧ it.block.addr = r.1) ∧
      r.2.answers = s.answers.drop (i + 1 - tree.length)

/-- **The loop of `scull_follow`** from an item of the list. -/
theorem followLoop_tree (n : ℕ) : ∀ {s : ScullDev} {l₁ l₂ : List Item} {it : Item},
    Rep s (l₁ ++ it :: l₂) → Safe Unanswered (followLoop n it.block.addr s) fun r =>
      ∃ tree', Reaches s (l₁ ++ it :: l₂) (l₁.length + n) r tree' := by
  induction n with
  | zero =>
    intro s l₁ l₂ it h
    refine ⟨_, Grows.refl h, fun h0 => absurd h0 h.addr_ne_zero, ⟨[], by simp⟩, fun _ => ?_⟩
    have hlen : (l₁ ++ it :: l₂).length = l₁.length + (l₂.length + 1) := by simp
    refine ⟨by omega, ⟨it, by simp, rfl⟩, ?_⟩
    rw [show l₁.length + 0 + 1 - (l₁ ++ it :: l₂).length = 0 by omega, List.drop_zero]
  | succ n ih =>
    intro s l₁ l₂ it h
    have hit := (spine_append.mp h.spine).2.1
    cases l₂ with
    | cons jt l₂ =>
      have h' : Rep s ((l₁ ++ [it]) ++ jt :: l₂) := by simpa using h
      have hnext : word s.mem (it.block.addr + 4) = some jt.block.addr := hit.next
      refine followLoop_rule hnext (fun _ => ?_) (fun h0 => absurd h0 h'.addr_ne_zero)
        fun h0 => absurd h0 h'.addr_ne_zero
      refine (ih h').mono ?_
      rintro r ⟨tree', hr⟩
      have hidx : (l₁ ++ [it]).length + n = l₁.length + (n + 1) := by simp; omega
      rw [hidx] at hr
      refine ⟨tree', ?_⟩
      simpa using hr
    | nil =>
      have hnext : word s.mem (it.block.addr + 4) = some 0 := hit.next
      refine followLoop_rule hnext (fun h0 => absurd rfl h0) (fun _ rest hans => ?_)
        fun _ c rest hans hf => ?_
      · exact ⟨_, h.fail hans, fun _ => by simp [hans], ⟨[], by simp⟩, fun h0 => absurd rfl h0⟩
      · have hgrows := h.newItem hans hf
        have h' : Rep { s with
            mem := Tree.attach s.mem c (it.block.addr + 4) 8, live := c.toBlock :: s.live,
            answers := rest } ((l₁ ++ [it]) ++ ⟨c.toBlock, none⟩ :: []) := by
          simpa using hgrows.rep
        refine (ih h').mono ?_
        rintro r ⟨tree', hr⟩
        obtain ⟨new, hnew, hcount, hbare⟩ := hr.new
        refine ⟨tree', hgrows.trans (by simpa using hr.grows), fun h0 => ?_,
          ⟨⟨c.toBlock, none⟩ :: new, by simpa using hnew, ?_, fun j it' hj => ?_⟩, fun h0 => ?_⟩
        · have := hr.null h0
          rw [hans]
          exact List.mem_cons_of_mem _ this
        · simp at hcount ⊢
          omega
        · rw [hans]
          cases j with
          | zero => exact ⟨c, rfl, (Option.some.inj hj).symm⟩
          | succ j => exact hbare j it' hj
        · obtain ⟨hlen, hfound, hanswers⟩ := hr.found h0
          refine ⟨?_, ?_, ?_⟩
          · simp at hlen ⊢
            omega
          · rwa [show (l₁ ++ [it]).length + n = l₁.length + (n + 1) by simp; omega] at hfound
          · rw [hanswers, hans]
            have h₁ : (l₁ ++ [it]).length = l₁.length + 1 := by simp
            have h₂ : (l₁ ++ [it] ++ [(⟨c.toBlock, none⟩ : Item)]).length = l₁.length + 2 := by simp
            rw [h₂, h₁, show l₁.length + 1 + n + 1 - (l₁.length + 2) = n by omega,
              show l₁.length + (n + 1) + 1 - (l₁.length + 1) = n + 1 by omega, List.drop_succ_cons]

/-- One walk after another. -/
theorem Reaches.trans {r r' : Word × ScullDev} {tree' tree'' : List Item} {j : ℕ}
    (h : Reaches s tree i r tree') (h0 : r.1 ≠ 0) (h' : Reaches r.2 tree' j r' tree'')
    (hij : i ≤ j) : Reaches s tree j r' tree'' := by
  obtain ⟨new, rfl, hcount, hbare⟩ := h.new
  obtain ⟨new', rfl, hcount', hbare'⟩ := h'.new
  obtain ⟨hlen, -, hanswers⟩ := h.found h0
  rw [List.length_append] at hlen hcount'
  refine ⟨h.grows.trans h'.grows, fun h0' => h.grows.answers _ (h'.null h0'),
    ⟨new ++ new', by rw [List.append_assoc], ?_, fun k it hk => ?_⟩, fun h0' => ?_⟩
  · rw [List.length_append]
    omega
  · by_cases hlt : k < new.length
    · rw [List.getElem?_append_left hlt] at hk
      exact hbare k it hk
    · rw [List.getElem?_append_right (by omega)] at hk
      obtain ⟨c, hc, rfl⟩ := hbare' _ it hk
      rw [hanswers, List.getElem?_drop,
        show i + 1 - tree.length + (k - new.length) = k by omega] at hc
      exact ⟨c, hc, rfl⟩
  · obtain ⟨hlen', hfound, hanswers'⟩ := h'.found h0'
    simp only [List.length_append] at hlen' hanswers' ⊢
    refine ⟨by omega, hfound, ?_⟩
    rw [hanswers', hanswers, List.drop_drop]
    congr 1
    omega

/-- **An empty list gets its first item.** -/
theorem Rep.newFirst {c : Chunk} {rest : List (Option Chunk)} (h : Rep s []) (hd : s.data = 0)
    (hans : s.answers = some c :: rest) (hf : s.Fresh 8 c) :
    Grows s { s with
        data := c.addr, mem := fill (fill s.mem c.addr c.size c.raw) c.addr 8 fun _ => 0,
        live := c.toBlock :: s.live, answers := rest }
      [] [⟨c.toBlock, none⟩] := by
  have hzero (i : ℕ) (hi : i + 4 ≤ 8) : word (fill (fill s.mem c.addr c.size c.raw) c.addr 8
      fun _ => 0) (c.addr + BitVec.ofNat 32 i) = some 0 := word_fill_zero hi (by omega)
  have hstored : (⟨c.toBlock, none⟩ : Item).Stored
      (fill (fill s.mem c.addr c.size c.raw) c.addr 8 fun _ => 0) 0 :=
    ⟨by simpa [Item.data, addrOf] using hzero 0 (by omega), hzero 4 (by omega), by simp⟩
  refine h.attach hans hf (by omega) rfl (fun h0 => absurd hd h0) ⟨hstored, trivial⟩
    (fun it hit => ?_) (by simp [Item.blocks]) (by simp) (by simp [Touched]) (fun x hx => Or.inr ?_)
    (fun x _ hx => ?_) fun x hx => isSome_fill (isSome_fill hx)
  · rw [List.mem_singleton.mp hit]
    exact ⟨hf.2.1, by simp⟩
  · obtain ⟨it, hit, hx⟩ := hx
    rw [List.mem_singleton.mp hit] at hx
    rcases hx with hx | ⟨a, ha, -⟩
    · exact inRange_mono hx hf.2.1
    · exact absurd ha (by simp)
  · rw [fill_of_not_mem fun hx' => hx (inRange_mono hx' hf.2.1), fill_of_not_mem hx]

/-- **The first item** is there, or is made. -/
theorem firstItem_tree (h : Rep s tree) :
    Safe Unanswered (firstItem s) fun r =>
      ∃ tree', Reaches s tree 0 r tree' ∧ (r.2.data ≠ 0 → r.2.data ∈ home s) ∧
        (r.1 ≠ 0 → ∃ it rest, tree' = it :: rest ∧ it.block.addr = r.1) := by
  refine firstItem_rule (fun hd => ?_) (fun hd rest hans => ?_) fun hd c rest hans hf => ?_
  · cases tree with
    | nil => exact absurd (h.nil_iff.mpr rfl) hd
    | cons it rest =>
      refine ⟨_, ⟨Grows.refl h, fun h0 => absurd h0 hd, ⟨[], by simp⟩, fun _ => ?_⟩,
        fun h0 => home_of_data h0, fun _ => ⟨it, rest, rfl, h.data.symm⟩⟩
      exact ⟨by simp, ⟨it, rfl, h.data.symm⟩, by simp⟩
  · obtain rfl := h.nil_iff.mp hd
    exact ⟨[], ⟨h.fail hans, fun _ => by simp [hans], ⟨[], by simp⟩, fun h0 => absurd rfl h0⟩,
      fun h0 => absurd hd h0, fun h0 => absurd rfl h0⟩
  · obtain rfl := h.nil_iff.mp hd
    have hgrows := h.newFirst hd hans hf
    refine ⟨[⟨c.toBlock, none⟩], ⟨hgrows, fun h0 => absurd h0 hf.1, ⟨_, rfl, by simp, fun j it hj => ?_⟩,
      fun _ => ?_⟩, fun _ => ?_, fun _ => ⟨_, _, rfl, rfl⟩⟩
    · obtain ⟨hlt, rfl⟩ := List.getElem?_eq_some_iff.mp hj
      obtain rfl : j = 0 := by simpa using hlt
      exact ⟨c, by simp [hans], rfl⟩
    · exact ⟨rfl, ⟨_, rfl, rfl⟩, by simp [hans]⟩
    · show c.addr ∈ home s
      simp [home, hd, hans]

/-- **`scull_follow`** finds an item, or makes it. -/
theorem follow_tree (h : Rep s tree) (i : ℤ) :
    Safe Unanswered (scullFollow s i) fun r =>
      ∃ tree', Reaches s tree (size32 i) r tree' ∧ (r.2.data ≠ 0 → r.2.data ∈ home s) := by
  unfold scullFollow
  refine (firstItem_tree h).bind ?_
  rintro ⟨qs, t⟩ ⟨tree', hr, hhome, hfirst⟩
  show Safe Unanswered (if qs = 0 then _ else _) _
  by_cases h0 : qs = 0
  · rw [if_pos h0]
    obtain ⟨new, hnew, hcount, hbare⟩ := hr.new
    exact ⟨tree', ⟨hr.grows, fun _ => hr.null h0, ⟨new, hnew, by omega, hbare⟩,
      fun h => absurd rfl h⟩, hhome⟩
  · rw [if_neg h0]
    obtain ⟨it, rest, rfl, hit⟩ := hfirst h0
    have hrep : Rep t ([] ++ it :: rest) := hr.grows.rep
    obtain rfl : it.block.addr = qs := hit
    refine (followLoop_tree (size32 i) hrep).mono ?_
    rintro r ⟨tree'', hr'⟩
    rw [List.length_nil, Nat.zero_add] at hr'
    refine ⟨tree'', hr.trans h0 hr' (Nat.zero_le _), fun _ => ?_⟩
    have hd : t.data ≠ 0 := by
      rw [hrep.data]
      exact h0
    rw [hr'.grows.data hd]
    exact hhome hd

/-- What a call has done to one item: `it` has become `it'`. -/
structure Fills (s : ScullDev) (l₁ : List Item) (it : Item) (l₂ : List Item)
    (r : Word × ScullDev) (it' : Item) : Prop where
  grows : Grows s r.2 (l₁ ++ it :: l₂) (l₁ ++ it' :: l₂)
  null : r.1 = 0 → none ∈ s.answers
  block : it'.block = it.block

/-- The pointer array of an item is there, or is made. -/
theorem itemData_tree (h : Rep s (l₁ ++ it :: l₂)) :
    Safe Unanswered (itemData s it.block.addr) fun r => ∃ it', Fills s l₁ it l₂ r it' ∧
      (r.1 ≠ 0 → ∃ a, it'.array = some a ∧ a.block.addr = r.1 ∧
        (it.array = some a ∧ r.2.answers = s.answers ∨
          it.array = none ∧ a.quanta = List.replicate s.qset.toNat none ∧
            (∃ c, s.answers[0]? = some (some c) ∧ a.block = c.toBlock) ∧
              r.2.answers = s.answers.drop 1)) := by
  have hqset := h.qset
  have hit := (spine_append.mp h.spine).2.1
  have hsize : (size32 (s.qset * 4) : ℤ) = 4 * s.qset := by
    rw [size32_of_lt (by omega) (by omega)]
    ring
  cases ha : it.array with
  | none =>
    have hdata : word s.mem it.block.addr = some 0 := by
      rw [hit.data]
      simp [Item.data, ha, addrOf]
    refine itemData_rule hdata (fun h0 => absurd rfl h0) (fun _ rest hans => ?_)
      fun _ c rest hans hf => ?_
    · exact ⟨it, ⟨h.fail hans, fun _ => by simp [hans], rfl⟩, fun h0 => absurd rfl h0⟩
    · have hgrows := h.newArray hans hsize hf ha
      refine ⟨_, ⟨hgrows, fun h0 => absurd h0 hf.1, rfl⟩,
        fun _ => ⟨_, rfl, rfl, Or.inr ⟨rfl, rfl, ⟨c, by simp [hans], rfl⟩, ?_⟩⟩⟩
      simp [hans]
  | some a =>
    have hdata : word s.mem it.block.addr = some a.block.addr := by
      rw [hit.data]
      simp [Item.data, ha, addrOf]
    have ha0 : a.block.addr ≠ 0 :=
      (h.sound a.block (h.mem_live (by simp [Item.blocks, ha]))).1
    refine itemData_rule hdata (fun _ => ?_) (fun h0 => absurd h0 ha0) fun h0 => absurd h0 ha0
    exact ⟨it, ⟨Grows.refl h, fun h0 => absurd h0 ha0, rfl⟩,
      fun _ => ⟨a, ha, rfl, Or.inl ⟨rfl, rfl⟩⟩⟩

/-- The entries of an array can be read and written. -/
theorem Rep.entry_mapped (h : Rep s (l₁ ++ it :: l₂)) (ha : it.array = some a)
    (hi : i < a.quanta.length) : Mapped s.mem (entryAt a i) 4 := by
  obtain ⟨hlen, hsz, -⟩ := (h.sized it (by simp)).array a ha
  obtain ⟨-, -, hmap⟩ := h.sound a.block (h.mem_live (by simp [Item.blocks, ha]))
  exact hmap.sub (4 * i) (by omega)

/-- The quantum of an entry is there, or is made. -/
theorem entryQuantum_tree (h : Rep s (l₁ ++ it :: l₂)) (ha : it.array = some a)
    (hi : i < a.quanta.length) :
    Safe Unanswered (entryQuantum s (entryAt a i)) fun r =>
      ∃ q, Fills s l₁ it l₂ r ⟨it.block, some ⟨a.block, a.quanta.set i q⟩⟩ ∧ r.1 = addrOf q ∧
        (r.1 ≠ 0 → a.quanta[i]? = some q ∨
          a.quanta[i]? = some none ∧ ∃ c, s.answers[0]? = some (some c) ∧ q = some c.toBlock) := by
  have hquantum := h.quantum
  have hit := (spine_append.mp h.spine).2.1
  have hget : a.quanta[i]? = some a.quanta[i] := List.getElem?_eq_getElem hi
  have hword := hit.entry a ha i _ hget
  have hsame : ⟨it.block, some ⟨a.block, a.quanta.set i a.quanta[i]⟩⟩ = it := by
    rw [List.set_getElem_self]
    cases it
    simp_all
  have hsize : (size32 s.quantum : ℤ) = s.quantum := size32_of_lt (by omega) (by omega)
  cases hq : a.quanta[i] with
  | none =>
    rw [hq] at hword hsame hget
    refine entryQuantum_rule hword (fun h0 => absurd rfl h0) (fun _ rest hans => ?_)
      fun _ c rest hans hf => ?_
    · refine ⟨none, ⟨?_, fun _ => by simp [hans], rfl⟩, rfl, fun h0 => absurd rfl h0⟩
      rw [hsame]
      exact h.fail hans
    · have hgrows := h.newQuantum hans hsize hf ha hget
      rw [attach_bare] at hgrows
      exact ⟨some c.toBlock, ⟨hgrows, fun h0 => absurd h0 hf.1, rfl⟩, rfl,
        fun _ => Or.inr ⟨hget, c, by simp [hans], rfl⟩⟩
  | some b =>
    rw [hq] at hword hsame hget
    have hb0 : b.addr ≠ 0 := by
      refine (h.sound b (h.mem_live ?_)).1
      have hmem : some b ∈ a.quanta := List.mem_of_getElem? hget
      simp [Item.blocks, ha, List.reduceOption_mem_iff, hmem]
    refine entryQuantum_rule hword (fun _ => ?_) (fun h0 => absurd h0 hb0) fun h0 => absurd h0 hb0
    refine ⟨some b, ⟨?_, fun h0 => absurd h0 hb0, rfl⟩, rfl, fun _ => Or.inl hget⟩
    rw [hsame]
    exact Grows.refl h

end LinuxHomework.Scull.Tree
