import LinuxHomework.Lib.Chain
import LinuxHomework.Lib.Outcome
import LinuxHomework.Scull.Device

/-! # The list of a scull device in memory

`Items s nodes` says that the items `nodes` hang from `dev->data` in the memory, each in a range of
its own, with a pointer array of its own or none.

* `firstItem_rule`, `followLoop_rule`, `itemData_rule`, `entryQuantum_rule`: what the functions that
  make a block do, with what is to hold afterwards as a parameter.
* `trim_safe`: `scull_trim` walks the list to its end and empties the device.
* `followLoop_safe`, `itemData_safe`, `entryQuantum_safe`: the list stays in order while it grows,
  and the protected addresses keep their bytes (`Kept`).

The protected addresses are the `zone` behind the first item, where the driver's copies go: bytes 8
to 120 from `dev->data`. They are kept as long as no range that is handed out meets them
(`Room`). -/

namespace LinuxHomework.Scull.Layout

open LinuxHomework.Lib.CInt LinuxHomework.Lib.Memory LinuxHomework.Lib.Chain
open LinuxHomework.Lib.Outcome LinuxHomework.Scull.Device

/-- The pointer in a word. -/
def ptr (w : Word) : Option Word := if w = 0 then none else some w

/-- The link of the item at `a`. -/
def nx (m : Mem) (a : Word) : Option (Option Word) := (word m (a + 4)).map ptr

/-- **The list in memory.** -/
structure Items (s : ScullDev) (nodes : List Word) : Prop where
  qset : 1 ≤ s.qset ∧ s.qset < 2 ^ 30
  chain : Linked (nx s.mem) (ptr s.data) nodes
  item : ∀ a ∈ nodes, ∃ n, ⟨a, n⟩ ∈ s.live ∧ 8 ≤ n
  array : ∀ a ∈ nodes, ∃ d, word s.mem a = some d ∧
    (d ≠ 0 → d ∉ nodes ∧ ∃ n : ℕ, ⟨d, n⟩ ∈ s.live ∧ 4 * s.qset ≤ n)
  apart : ∀ b ∈ s.live, ∀ c ∈ s.live, b.addr ≠ c.addr → Apart b.addr b.size c.addr c.size
  mapped : ∀ b ∈ s.live, Mapped s.mem b.addr b.size

/-- The only way in which a call may fail to return: the answers are not possible ones. -/
abbrev Unanswered (e : Stop) : Prop := e = .unanswered

theorem inRange_add {a x : Word} {i k n : ℕ} (h : InRange (a + BitVec.ofNat 32 i) k x)
    (hi : i + k ≤ n) (hn : n < 2 ^ 32) : InRange a n x := by
  unfold InRange at h ⊢
  bv_omega

theorem inRange_next {a x : Word} (h : InRange (a + 4) 4 x) : InRange a 8 x :=
  inRange_add (i := 4) h (by omega) (by omega)

theorem inRange_mono {a x : Word} {n k : ℕ} (h : InRange a n x) (hk : n ≤ k) : InRange a k x :=
  lt_of_lt_of_le h hk

/-- The two words of an item do not overlap. -/
theorem not_inRange_next {a x : Word} (h : InRange a 4 x) : ¬ InRange (a + 4) 4 x := by
  unfold InRange at h ⊢
  bv_omega

theorem not_inRange_of_next {a x : Word} (h : InRange (a + 4) 4 x) : ¬ InRange a 4 x :=
  fun h' => not_inRange_next h' h

theorem nx_congr {m m' : Mem} {a : Word} (h : ∀ x, InRange a 8 x → m' x = m x) :
    nx m' a = nx m a := by
  unfold nx
  rw [word_congr fun x hx => h x (inRange_next hx)]

/-! ### Single accesses -/

section Access
variable {s : ScullDev} {a w : Word} {n : ℕ} {f : ℕ → Byte}

theorem load_eq (h : word s.mem a = some w) : s.load a = .ok w := by
  unfold ScullDev.load
  rw [h]

theorem write_eq (h : Mapped s.mem a n) : s.write a n f = .ok { s with mem := fill s.mem a n f } :=
  if_pos h

theorem store_eq (h : Mapped s.mem a 4) :
    s.store a w = .ok { s with mem := setWord s.mem a w } := if_pos h

/-- What comes after a `kmalloc`: it fails and changes nothing, or hands out a fresh chunk. -/
theorem kmalloc_bind {β : Type} {g : Word × ScullDev → Except Stop β} {Q : β → Prop}
    (hnull : ∀ rest, s.answers = none :: rest →
      Safe Unanswered (g (0, { s with answers := rest })) Q)
    (hchunk : ∀ c rest, s.answers = some c :: rest → s.Fresh n c →
      Safe Unanswered (g (c.addr, { s with
        mem := fill s.mem c.addr c.size c.raw, live := c.toBlock :: s.live, answers := rest })) Q) :
    Safe Unanswered (s.kmalloc n >>= g) Q := by
  refine Safe.bind (Q := fun r => Safe Unanswered (g r) Q) ?_ fun _ hr => hr
  unfold ScullDev.kmalloc
  split
  · exact rfl
  · next rest h => exact hnull rest h
  · next c rest h =>
    by_cases hf : s.Fresh n c
    · rw [if_pos hf]
      exact hchunk c rest h hf
    · rw [if_neg hf]
      exact rfl

end Access

/-! ### The functions that make a block -/

section Make
variable {s : ScullDev} {a w : Word} {n : ℕ} {Q : Word × ScullDev → Prop}

/-- A null pointer is stored where there is one. -/
theorem store_null_eq {rest : List (Option Chunk)} (hw : word s.mem a = some 0) :
    ({ s with answers := rest } : ScullDev).store a 0 = .ok { s with answers := rest } := by
  have hs := store_eq (s := { s with answers := rest }) (w := 0) (mapped_of_word hw)
  rw [hs]
  show Except.ok { s with mem := setWord s.mem a 0, answers := rest } = _
  rw [setWord_same hw]

/-- **A block is made**, its address is stored in place of a null pointer, and it is zeroed. -/
theorem make_bind {k : Word → ScullDev → Except Stop (Word × ScullDev)}
    (hw : word s.mem a = some 0)
    (hnull : ∀ rest, s.answers = none :: rest → Q (0, { s with answers := rest }))
    (hnew : ∀ c rest, s.answers = some c :: rest → s.Fresh n c →
      Safe Unanswered (k c.addr { s with
        mem := fill (setWord (fill s.mem c.addr c.size c.raw) a c.addr) c.addr n fun _ => 0,
        live := c.toBlock :: s.live, answers := rest }) Q) :
    Safe Unanswered (do
      let (p, s) ← s.kmalloc n
      let s ← s.store a p
      if p = 0 then return (0, s)
      else
        let s ← s.memset p n
        k p s) Q := by
  refine kmalloc_bind (fun rest hans => ?_) fun c rest hans hf => ?_
  · show Safe Unanswered (_ >>= _) _
    rw [store_null_eq hw]
    exact hnull rest hans
  · have hmap' : Mapped (setWord (fill s.mem c.addr c.size c.raw) a c.addr) c.addr n :=
      fun i hi => isSome_fill (isSome_fill (hf.2.2.1 i (lt_of_lt_of_le hi hf.2.1)))
    show Safe Unanswered (_ >>= _) _
    rw [store_eq ((mapped_of_word hw).mono_mem fun x hx => isSome_fill hx)]
    show Safe Unanswered (if c.addr = 0 then _ else _) _
    rw [if_neg hf.1, ScullDev.memset, write_eq hmap']
    exact hnew c rest hans hf

/-- The first lines of `scull_follow`. -/
theorem firstItem_rule (hthere : s.data ≠ 0 → Q (s.data, s))
    (hnull : s.data = 0 → ∀ rest, s.answers = none :: rest → Q (0, { s with answers := rest }))
    (hnew : s.data = 0 → ∀ c rest, s.answers = some c :: rest → s.Fresh 8 c → Q (c.addr, { s with
      data := c.addr, mem := fill (fill s.mem c.addr c.size c.raw) c.addr 8 fun _ => 0,
      live := c.toBlock :: s.live, answers := rest })) :
    Safe Unanswered (firstItem s) Q := by
  unfold firstItem
  by_cases hd : s.data = 0
  · rw [if_pos hd]
    refine kmalloc_bind (fun rest hans => ?_) fun c rest hans hf => ?_
    · have hsame : { s with answers := rest, data := 0 } = { s with answers := rest } := by
        rw [← hd]
      show Q (0, { s with answers := rest, data := 0 })
      rw [hsame]
      exact hnull hd rest hans
    · show Safe Unanswered (if c.addr = 0 then _ else _) _
      have hmap : Mapped (fill s.mem c.addr c.size c.raw) c.addr 8 := fun i hi =>
        isSome_fill (hf.2.2.1 i (lt_of_lt_of_le hi hf.2.1))
      rw [if_neg hf.1, ScullDev.memset, write_eq hmap]
      exact hnew hd c rest hans hf
  · rw [if_neg hd]
    exact hthere hd

/-- A turn of the loop of `scull_follow`. -/
theorem followLoop_rule (hw : word s.mem (a + 4) = some w)
    (hthere : w ≠ 0 → Safe Unanswered (followLoop n w s) Q)
    (hnull : w = 0 → ∀ rest, s.answers = none :: rest → Q (0, { s with answers := rest }))
    (hnew : w = 0 → ∀ c rest, s.answers = some c :: rest → s.Fresh 8 c →
      Safe Unanswered (followLoop n c.addr { s with
        mem := fill (setWord (fill s.mem c.addr c.size c.raw) (a + 4) c.addr) c.addr 8 fun _ => 0,
        live := c.toBlock :: s.live, answers := rest }) Q) :
    Safe Unanswered (followLoop (n + 1) a s) Q := by
  rw [followLoop, load_eq hw]
  show Safe Unanswered (if w = 0 then _ else _) _
  by_cases hw0 : w = 0
  · subst hw0
    rw [if_pos rfl]
    exact make_bind hw (hnull rfl) (hnew rfl)
  · rw [if_neg hw0]
    exact hthere hw0

/-- `itemData`. -/
theorem itemData_rule (hw : word s.mem a = some w) (hthere : w ≠ 0 → Q (w, s))
    (hnull : w = 0 → ∀ rest, s.answers = none :: rest → Q (0, { s with answers := rest }))
    (hnew : w = 0 → ∀ c rest, s.answers = some c :: rest → s.Fresh (size32 (s.qset * 4)) c →
      Q (c.addr, { s with
        mem := fill (setWord (fill s.mem c.addr c.size c.raw) a c.addr) c.addr
          (size32 (s.qset * 4)) fun _ => 0,
        live := c.toBlock :: s.live, answers := rest })) :
    Safe Unanswered (itemData s a) Q := by
  unfold itemData
  rw [load_eq hw]
  show Safe Unanswered (if w = 0 then _ else _) _
  by_cases hw0 : w = 0
  · subst hw0
    rw [if_pos rfl]
    exact make_bind (k := fun data s => pure (data, s)) hw (hnull rfl) (hnew rfl)
  · rw [if_neg hw0]
    exact hthere hw0

/-- `entryQuantum`. What the new block holds stays there. -/
theorem entryQuantum_rule (hw : word s.mem a = some w) (hthere : w ≠ 0 → Q (w, s))
    (hnull : w = 0 → ∀ rest, s.answers = none :: rest → Q (0, { s with answers := rest }))
    (hnew : w = 0 → ∀ c rest, s.answers = some c :: rest → s.Fresh (size32 s.quantum) c →
      Q (c.addr, { s with
        mem := setWord (fill s.mem c.addr c.size c.raw) a c.addr,
        live := c.toBlock :: s.live, answers := rest })) :
    Safe Unanswered (entryQuantum s a) Q := by
  unfold entryQuantum
  rw [load_eq hw]
  show Safe Unanswered (if w = 0 then _ else _) _
  by_cases hw0 : w = 0
  · subst hw0
    rw [if_pos rfl]
    refine kmalloc_bind (fun rest hans => ?_) fun c rest hans hf => ?_
    · show Safe Unanswered (_ >>= _) _
      rw [store_null_eq hw]
      exact hnull rfl rest hans
    · show Safe Unanswered (_ >>= _) _
      rw [store_eq ((mapped_of_word hw).mono_mem fun x hx => isSome_fill hx)]
      exact hnew rfl c rest hans hf
  · rw [if_neg hw0]
    exact hthere hw0

end Make

section Ranges
variable {s : ScullDev} {nodes : List Word} (h : Items s nodes) {a b d : Word} {n : ℕ}
include h

theorem Items.items_apart (ha : a ∈ nodes) (hb : b ∈ nodes) (hab : a ≠ b) : Apart a 8 b 8 := by
  obtain ⟨n, hn, h8⟩ := h.item a ha
  obtain ⟨k, hk, h8'⟩ := h.item b hb
  exact (h.apart _ hn _ hk hab).mono h8 h8'

theorem Items.item_apart (ha : a ∈ nodes) (hb : ⟨d, n⟩ ∈ s.live) (had : a ≠ d) : Apart a 8 d n := by
  obtain ⟨k, hk, h8⟩ := h.item a ha
  exact (h.apart _ hk _ hb had).mono h8 le_rfl

theorem Items.item_mapped (ha : a ∈ nodes) : Mapped s.mem a 8 := by
  obtain ⟨n, hn, h8⟩ := h.item a ha
  exact fun i hi => h.mapped _ hn i (by simp only; omega)

theorem Items.item_ne_zero (ha : a ∈ nodes) : a ≠ 0 := by
  -- every item is the pointer before it
  have key : ∀ {l : List Word} {p : Word}, Linked (nx s.mem) (ptr p) l → ∀ a ∈ l, a ≠ 0 := by
    intro l
    induction l with
    | nil => simp
    | cons c l ih =>
      rintro p ⟨hp, q, hq, hl⟩ a ha
      rcases List.mem_cons.mp ha with rfl | ha
      · unfold ptr at hp
        split at hp
        · exact absurd hp (by simp)
        · next hne => exact Option.some.inj hp ▸ hne
      · obtain ⟨w, -, rfl⟩ := Option.map_eq_some_iff.mp hq
        exact ih hl a ha
  exact key h.chain a ha

/-- The link of an item is a word that can be read: null, or the address of an item. -/
theorem Items.next (ha : a ∈ nodes) :
    ∃ w, word s.mem (a + 4) = some w ∧ (w ≠ 0 → w ∈ nodes) ∧
      (w = 0 → ∃ l, nodes = l ++ [a]) := by
  obtain ⟨l₁, l₂, rfl⟩ := List.append_of_mem ha
  obtain ⟨-, q, hq, hl⟩ := h.chain.tail_at
  obtain ⟨w, hw, rfl⟩ := Option.map_eq_some_iff.mp hq
  refine ⟨w, hw, fun hw0 => ?_, fun hw0 => ?_⟩
  · cases l₂ with
    | nil =>
      have hp : ptr w = none := hl
      rw [ptr, if_neg hw0] at hp
      exact absurd hp (by simp)
    | cons c l₂ =>
      obtain ⟨hp, -⟩ := hl
      rw [ptr, if_neg hw0] at hp
      rw [Option.some.inj hp]
      simp
  · cases l₂ with
    | nil => exact ⟨l₁, rfl⟩
    | cons c l₂ =>
      obtain ⟨hp, -⟩ := hl
      rw [ptr, if_pos hw0] at hp
      exact absurd hp (by simp)

/-- Writing outside the items, and allocating, leaves the list as it is. -/
theorem Items.congr {s' : ScullDev} (hdata : s'.data = s.data) (hqset : s'.qset = s.qset)
    (hmem : ∀ a ∈ nodes, ∀ x, InRange a 8 x → s'.mem x = s.mem x)
    (hlive : ∀ b ∈ s.live, b ∈ s'.live)
    (hapart : ∀ b ∈ s'.live, ∀ c ∈ s'.live, b.addr ≠ c.addr → Apart b.addr b.size c.addr c.size)
    (hmapped : ∀ b ∈ s'.live, Mapped s'.mem b.addr b.size) : Items s' nodes := by
  refine ⟨hqset ▸ h.qset, ?_, fun a ha => ?_, fun a ha => ?_, hapart, hmapped⟩
  · rw [hdata]
    exact h.chain.congr fun a ha => nx_congr (hmem a ha)
  · obtain ⟨n, hn, h8⟩ := h.item a ha
    exact ⟨n, hlive _ hn, h8⟩
  · obtain ⟨d, hd, harr⟩ := h.array a ha
    refine ⟨d, ?_, fun hd0 => ?_⟩
    · rw [word_congr fun x hx => hmem a ha x (inRange_mono hx (by omega))]
      exact hd
    · obtain ⟨hdn, n, hn, hq⟩ := harr hd0
      exact ⟨hdn, n, hlive _ hn, hqset ▸ hq⟩

end Ranges

theorem Items.answers {s : ScullDev} {nodes : List Word} (h : Items s nodes) (as : List (Option Chunk)) :
    Items { s with answers := as } nodes :=
  ⟨h.qset, h.chain, h.item, h.array, h.apart, h.mapped⟩

/-! ### Trim -/

/-- Ranges are given back, and no address is unmapped. -/
structure Shrunk (s s' : ScullDev) : Prop where
  live : ∀ b ∈ s'.live, b ∈ s.live
  mapped : ∀ x, (s.mem x).isSome → (s'.mem x).isSome

theorem Shrunk.refl (s : ScullDev) : Shrunk s s := ⟨fun _ h => h, fun _ h => h⟩

theorem Shrunk.trans {s s' s'' : ScullDev} (h : Shrunk s s') (h' : Shrunk s' s'') : Shrunk s s'' :=
  ⟨fun b hb => h.live b (h'.live b hb), fun x hx => h'.mapped x (h.mapped x hx)⟩

theorem shrunk_kfree (s : ScullDev) (p : Word) : Shrunk s (s.kfree p) :=
  ⟨fun _ hb => List.mem_of_mem_filter hb, fun _ h => h⟩

/-- The items that `scull_trim` still has before it. -/
structure Walk (qset : ℤ) (s : ScullDev) (l : List Word) : Prop where
  apart : ∀ a ∈ l, ∀ b ∈ l, a ≠ b → Apart a 8 b 8
  mapped : ∀ a ∈ l, Mapped s.mem a 8
  array : ∀ a ∈ l, ∃ d, word s.mem a = some d ∧ (d ≠ 0 → Mapped s.mem d (4 * qset.toNat))

theorem freeQuanta_safe {s : ScullDev} {d : Word} {qset : ℤ}
    (h : Mapped s.mem d (4 * qset.toNat)) :
    Safe Unanswered (freeQuanta s d qset) fun s' => s'.mem = s.mem ∧ Shrunk s s' := by
  have key : ∀ (l : List ℕ) (t : ScullDev), (∀ i ∈ l, i < qset.toNat) → t.mem = s.mem →
      Safe Unanswered (l.foldlM (fun s i => do
        let q ← s.load (d + BitVec.ofNat 32 (4 * i))
        return s.kfree q) t) fun s' => s'.mem = s.mem ∧ Shrunk t s' := by
    intro l
    induction l with
    | nil => exact fun t _ ht => ⟨ht, Shrunk.refl t⟩
    | cons i l ih =>
      intro t hl ht
      have hi := hl i (by simp)
      obtain ⟨q, hq⟩ := (h.sub (4 * i) (k := 4) (by omega)).word le_rfl
      rw [List.foldlM_cons, load_eq (ht ▸ hq)]
      exact (ih (t.kfree q) (fun j hj => hl j (by simp [hj])) ht).mono fun s' hs' =>
        ⟨hs'.1, (shrunk_kfree t q).trans hs'.2⟩
  exact key _ s (fun i hi => List.mem_range.mp hi) rfl

/-- The first word of the item is all that may change. -/
theorem emptyItem_safe {s : ScullDev} {qset : ℤ} {a : Word} {l : List Word}
    (h : Walk qset s (a :: l)) :
    Safe Unanswered (emptyItem s qset a) fun t =>
      (∀ x, ¬ InRange a 4 x → t.mem x = s.mem x) ∧ Shrunk s t := by
  obtain ⟨d, hd, harr⟩ := h.array a (by simp)
  have hmap := h.mapped a (by simp)
  unfold emptyItem
  rw [load_eq hd]
  by_cases hd0 : d = 0
  · rw [hd0]
    exact ⟨fun _ _ => rfl, Shrunk.refl s⟩
  · show Safe Unanswered (if d ≠ 0 then _ else _) _
    rw [if_pos hd0]
    refine (freeQuanta_safe (harr hd0)).bind fun t ht => ?_
    have hmap' : Mapped (t.kfree d).mem a 4 := fun i hi => by
      show (t.mem _).isSome
      rw [ht.1]
      exact hmap i (by omega)
    rw [store_eq hmap']
    refine ⟨fun x hx => ?_, (ht.2.trans (shrunk_kfree t d)).trans ⟨fun _ hb => hb, fun x hx => ?_⟩⟩
    · show fill t.mem a 4 _ x = s.mem x
      rw [fill_of_not_mem hx, ht.1]
    · exact isSome_fill hx

theorem trimItem_safe {s : ScullDev} {qset : ℤ} {a : Word} {l : List Word}
    (h : Walk qset s (a :: l)) (hl : Linked (nx s.mem) (some a) (a :: l)) :
    Safe Unanswered (trimItem s qset a) fun r =>
      Linked (nx r.2.mem) (ptr r.1) l ∧ Walk qset r.2 l ∧ Shrunk s r.2 := by
  have hnd := (List.nodup_cons.mp hl.nodup).1
  obtain ⟨-, q, hq, hrest⟩ := hl
  obtain ⟨w, hw, rfl⟩ := Option.map_eq_some_iff.mp hq
  unfold trimItem
  refine (emptyItem_safe h).bind ?_
  rintro t ⟨hmem, hs⟩
  have hw' : word t.mem (a + 4) = some w := by
    rw [word_congr fun x hx => hmem x (not_inRange_of_next hx)]
    exact hw
  have hout : ∀ b ∈ l, ∀ x, InRange b 8 x → t.mem x = s.mem x := fun b hb x hx =>
    hmem x ((h.apart b (by simp [hb]) a (by simp) (fun hba => hnd (hba ▸ hb))).mono le_rfl
      (by omega) |>.not_mem hx)
  rw [load_eq hw']
  refine ⟨hrest.congr fun b hb => nx_congr (hout b hb), ⟨fun b hb c hc => ?_, fun b hb => ?_,
    fun b hb => ?_⟩, hs.trans (shrunk_kfree t a)⟩
  · exact h.apart b (by simp [hb]) c (by simp [hc])
  · exact (h.mapped b (by simp [hb])).mono_mem hs.mapped
  · obtain ⟨e, he, harr⟩ := h.array b (by simp [hb])
    refine ⟨e, ?_, fun he0 => (harr he0).mono_mem hs.mapped⟩
    rw [← he]
    exact word_congr fun x hx => hout b hb x (inRange_mono hx (by omega))

theorem trimLoop_safe {qset : ℤ} {l : List Word} :
    ∀ {fuel : ℕ} {p : Word} {s : ScullDev}, Walk qset s l → Linked (nx s.mem) (ptr p) l →
      l.length ≤ fuel → Safe Unanswered (trimLoop qset fuel p s) fun s' => Shrunk s s' := by
  induction l with
  | nil =>
    intro fuel p s _ hl _
    have hp : p = 0 := by
      by_contra hp0
      have hp : ptr p = none := hl
      rw [ptr, if_neg hp0] at hp
      exact absurd hp (by simp)
    subst hp
    cases fuel <;> exact Shrunk.refl s
  | cons a l ih =>
    intro fuel p s h hl hlen
    cases fuel with
    | zero => simp at hlen
    | succ fuel =>
      have hpa := hl.1
      have hp0 : p ≠ 0 := by
        rintro rfl
        exact absurd hpa (by simp [ptr])
      rw [ptr, if_neg hp0] at hpa
      obtain rfl := Option.some.inj hpa
      rw [ptr, if_neg hp0] at hl
      rw [trimLoop, if_neg hp0]
      refine (trimItem_safe h hl).bind fun r hr => ?_
      obtain ⟨hl', hw, hs⟩ := hr
      exact (ih hw hl' (by simpa using hlen)).mono fun s' hs' => hs.trans hs'

/-- There are no more different addresses than addresses. -/
theorem length_le_of_nodup {l : List Word} (h : l.Nodup) : l.length ≤ 2 ^ 32 := by
  have hmap : (l.map BitVec.toNat).Nodup := h.map fun _ _ hab => BitVec.eq_of_toNat_eq hab
  have hsub : l.map BitVec.toNat ⊆ List.range (2 ^ 32) := by
    intro n hn
    obtain ⟨w, -, rfl⟩ := List.mem_map.mp hn
    exact List.mem_range.mpr w.isLt
  have := (List.subperm_of_subset hmap hsub).length_le
  rwa [List.length_map, List.length_range] at this

theorem Items.walk {s : ScullDev} {nodes : List Word} (h : Items s nodes) :
    Walk s.qset s nodes := by
  refine ⟨fun a ha b hb => h.items_apart ha hb, fun a ha => h.item_mapped ha, fun a ha => ?_⟩
  obtain ⟨d, hd, harr⟩ := h.array a ha
  refine ⟨d, hd, fun hd0 i hi => ?_⟩
  obtain ⟨-, n, hn, hq⟩ := harr hd0
  exact h.mapped _ hn i (by simp only; omega)

/-- **Trim** walks the list to its end and leaves an empty device. -/
theorem trim_safe {P : Params} {s : ScullDev} {nodes : List Word} (h : Items s nodes)
    (hP : 1 ≤ P.scullQset ∧ P.scullQset < 2 ^ 30) :
    Safe Unanswered (scullTrim P s) fun s' => Items s' [] ∧ s'.data = 0 ∧ s'.size = 0 ∧
      s'.quantum = P.scullQuantum ∧ s'.qset = P.scullQset := by
  unfold scullTrim
  refine (trimLoop_safe h.walk h.chain (length_le_of_nodup h.chain.nodup)).bind fun t ht => ?_
  refine ⟨⟨hP, rfl, by simp, by simp, fun b hb c hc => ?_, fun b hb => ?_⟩, rfl, rfl, rfl, rfl⟩
  · exact h.apart b (ht.live b hb) c (ht.live c hc)
  · exact (h.mapped b (ht.live b hb)).mono_mem ht.mapped

/-! ### Growth -/

/-- No range that is allocated or may be handed out meets the zone behind the first item `D`, other
than the first item's own. -/
structure Room (D : Word) (s : ScullDev) : Prop where
  live : ∀ b ∈ s.live, b.addr ≠ D → Apart (D + 8) 113 b.addr b.size
  answers : ∀ c, some c ∈ s.answers → c.addr ≠ D → Apart (D + 8) 113 c.addr c.size

instance (D : Word) (s : ScullDev) : Decidable (Room D s) :=
  decidable_of_iff ((∀ b ∈ s.live, b.addr ≠ D → Apart (D + 8) 113 b.addr b.size) ∧
      ∀ o ∈ s.answers, ∀ c ∈ o, c.addr ≠ D → Apart (D + 8) 113 c.addr c.size)
    ⟨fun h => ⟨h.1, fun c hc => h.2 _ hc c rfl⟩, fun h => ⟨h.1, fun _ ho c hc => h.2 c (hc ▸ ho)⟩⟩

/-- **A call in progress** on a list that begins with `D`. -/
structure Good (D : Word) (s : ScullDev) (nodes : List Word) : Prop where
  items : Items s nodes
  data : s.data = D
  first : D ∈ nodes
  room : Room D s

/-- What a call in progress leaves alone. -/
structure Kept (D : Word) (s s' : ScullDev) : Prop where
  quantum : s'.quantum = s.quantum
  qset : s'.qset = s.qset
  size : s'.size = s.size
  zone : ∀ x, InRange (D + 8) 113 x → s'.mem x = s.mem x
  mapped : ∀ x, (s.mem x).isSome → (s'.mem x).isSome

theorem Kept.refl (D : Word) (s : ScullDev) : Kept D s s :=
  ⟨rfl, rfl, rfl, fun _ _ => rfl, fun _ h => h⟩

theorem Kept.answers (D : Word) (s : ScullDev) (rest : List (Option Chunk)) :
    Kept D s { s with answers := rest } :=
  ⟨rfl, rfl, rfl, fun _ _ => rfl, fun _ h => h⟩

theorem Kept.trans {D : Word} {s s' s'' : ScullDev} (h : Kept D s s') (h' : Kept D s' s'') :
    Kept D s s'' :=
  ⟨h'.quantum.trans h.quantum, h'.qset.trans h.qset, h'.size.trans h.size,
    fun x hx => (h'.zone x hx).trans (h.zone x hx), fun x hx => h'.mapped x (h.mapped x hx)⟩

/-- A list that is not empty begins with `dev->data`. -/
theorem Items.good {s : ScullDev} {nodes : List Word} (h : Items s nodes) (hd : s.data ≠ 0)
    (hroom : Room s.data s) :
    Good s.data s nodes := by
  refine ⟨h, rfl, ?_, hroom⟩
  cases nodes with
  | nil =>
    have hp : ptr s.data = none := h.chain
    rw [ptr, if_neg hd] at hp
    exact absurd hp (by simp)
  | cons a l =>
    have hp := h.chain.1
    rw [ptr, if_neg hd] at hp
    rw [Option.some.inj hp]
    simp

section Grow
variable {D : Word} {s : ScullDev} {nodes : List Word} (h : Good D s nodes) {a d w x : Word}
  {n : ℕ} {c : Chunk} {rest : List (Option Chunk)}
include h

theorem Good.off_item (ha : a ∈ nodes) (hx : InRange a 8 x) : ¬ InRange (D + 8) 113 x := by
  by_cases haD : a = D
  · subst haD
    unfold InRange at hx ⊢
    bv_omega
  · obtain ⟨n, hn, h8⟩ := h.items.item a ha
    exact (h.room.live _ hn haD).symm.not_mem (inRange_mono hx h8)

theorem Good.off_block (hd : ⟨d, n⟩ ∈ s.live) (hdn : d ∉ nodes) (hx : InRange d n x) :
    ¬ InRange (D + 8) 113 x :=
  (h.room.live _ hd fun hdD : d = D => hdn (hdD ▸ h.first)).symm.not_mem hx

/-- A fresh chunk does not meet the zone. -/
theorem Good.off_chunk (hans : s.answers = some c :: rest) (hf : s.Fresh n c)
    (hx : InRange c.addr c.size x) : ¬ InRange (D + 8) 113 x := by
  by_cases hcD : c.addr = D
  · -- it is not the first item's range either
    obtain ⟨k, hk, h8⟩ := h.items.item D h.first
    have hap := hf.2.2.2 _ hk
    rw [hcD] at hap
    unfold InRange at hx
    rcases Nat.eq_zero_or_pos c.size with hz | hz
    · omega
    · exact absurd rfl (hap.ne hz (by simp only; omega))
  · exact (h.room.answers c (by simp [hans]) hcD).symm.not_mem hx

/-- A fresh chunk does not meet an item. -/
theorem Good.chunk_off_item (hf : s.Fresh n c) (ha : a ∈ nodes) (hx : InRange a 8 x) :
    ¬ InRange c.addr c.size x := by
  obtain ⟨k, hk, h8⟩ := h.items.item a ha
  exact (hf.2.2.2 _ hk).symm.not_mem (inRange_mono hx h8)

theorem Good.chunk_ne_item (hf : s.Fresh n c) (hn : 0 < n) (ha : a ∈ nodes) : a ≠ c.addr := by
  obtain ⟨k, hk, h8⟩ := h.items.item a ha
  exact ((hf.2.2.2 _ hk).ne (lt_of_lt_of_le hn hf.2.1) (by simp only; omega)).symm

/-- The answers become fewer. -/
theorem Good.fail (hans : s.answers = none :: rest) : Good D { s with answers := rest } nodes :=
  ⟨⟨h.items.qset, h.items.chain, h.items.item, h.items.array, h.items.apart, h.items.mapped⟩, h.data,
    h.first, h.room.live, fun c hc => h.room.answers c (by simp [hans, hc])⟩

/-- The ranges that are allocated stay apart when a fresh chunk is added. -/
theorem Good.apart_cons (hf : s.Fresh n c) : ∀ b ∈ c.toBlock :: s.live,
    ∀ b' ∈ c.toBlock :: s.live, b.addr ≠ b'.addr → Apart b.addr b.size b'.addr b'.size := by
  intro b hb b' hb' hne
  rcases List.mem_cons.mp hb with rfl | hb <;> rcases List.mem_cons.mp hb' with rfl | hb'
  · exact absurd rfl hne
  · exact hf.2.2.2 b' hb'
  · exact (hf.2.2.2 b hb).symm
  · exact h.items.apart b hb b' hb' hne

theorem Good.mapped_cons {m : Mem} (hf : s.Fresh n c) (hm : ∀ x, (s.mem x).isSome → (m x).isSome) :
    ∀ b ∈ c.toBlock :: s.live, Mapped m b.addr b.size := by
  intro b hb
  rcases List.mem_cons.mp hb with rfl | hb
  · exact hf.2.2.1.mono_mem hm
  · exact (h.items.mapped b hb).mono_mem hm

theorem Good.room_cons (hans : s.answers = some c :: rest) {s' : ScullDev}
    (hlive : s'.live = c.toBlock :: s.live) (hrest : s'.answers = rest) : Room D s' := by
  refine ⟨fun b hb hbD => ?_, fun c' hc' => ?_⟩
  · rw [hlive] at hb
    rcases List.mem_cons.mp hb with rfl | hb
    · exact h.room.answers c (by simp [hans]) hbD
    · exact h.room.live b hb hbD
  · rw [hrest] at hc'
    exact h.room.answers c' (by simp [hans, hc'])

/-- What a call that takes a chunk and changes one word elsewhere keeps. -/
theorem Good.kept (hans : s.answers = some c :: rest) (hf : s.Fresh n c) {m : Mem}
    (hw : ∀ x, InRange w 4 x → ¬ InRange (D + 8) 113 x)
    (hout : ∀ x, ¬ InRange c.addr c.size x → ¬ InRange w 4 x → m x = s.mem x)
    (hm : ∀ x, (s.mem x).isSome → (m x).isSome) :
    Kept D s { s with mem := m, live := c.toBlock :: s.live, answers := rest } :=
  ⟨rfl, rfl, rfl, fun x hx => hout x (fun h' => h.off_chunk hans hf h' hx) fun h' => hw x h' hx, hm⟩

/-- **The list gets a new last item.** -/
theorem Good.newItem (hans : s.answers = some c :: rest) (hf : s.Fresh 8 c) {l : List Word}
    (hl : nodes = l ++ [a]) {m : Mem}
    (hm : m = fill (setWord (fill s.mem c.addr c.size c.raw) (a + 4) c.addr) c.addr 8 fun _ => 0) :
    Good D { s with mem := m, live := c.toBlock :: s.live, answers := rest } (nodes ++ [c.addr]) ∧
      Kept D s { s with mem := m, live := c.toBlock :: s.live, answers := rest } := by
  have hnd := h.items.chain.nodup
  have ha : a ∈ nodes := by simp [hl]
  have hla : ∀ b ∈ l, b ≠ a := by
    rintro b hb rfl
    rw [hl] at hnd
    exact (List.nodup_append.mp hnd).2.2 b hb b (by simp) rfl
  have hout : ∀ x, ¬ InRange c.addr c.size x → ¬ InRange (a + 4) 4 x → m x = s.mem x := by
    intro x hx hx'
    rw [hm, fill_of_not_mem fun h' => hx (inRange_mono h' hf.2.1), setWord, fill_of_not_mem hx',
      fill_of_not_mem hx]
  have hmapped : ∀ x, (s.mem x).isSome → (m x).isSome := fun x hx => by
    rw [hm]
    exact isSome_fill (isSome_fill (isSome_fill hx))
  -- of the items that were there, only the link of `a` has changed
  have hold : ∀ b ∈ nodes, ∀ x, InRange b 8 x → ¬ InRange (a + 4) 4 x → m x = s.mem x :=
    fun b hb x hx hx' => hout x (h.chunk_off_item hf hb hx) hx'
  have hnx : nx m a = some (some c.addr) := by
    have hw : word m (a + 4) = some c.addr := by
      rw [← word_setWord (m := fill s.mem c.addr c.size c.raw) (a := a + 4) (w := c.addr), hm]
      exact word_congr fun x hx => fill_of_not_mem fun h' =>
        h.chunk_off_item hf ha (inRange_next hx) (inRange_mono h' hf.2.1)
    unfold nx
    rw [hw, Option.map_some, ptr, if_neg hf.1]
  have hnew : nx m c.addr = some none := by
    unfold nx
    rw [hm, show c.addr + 4 = c.addr + BitVec.ofNat 32 4 from rfl,
      word_fill_zero (by omega) (by omega)]
    rfl
  have hdata : ∀ b ∈ nodes, word m b = word s.mem b := fun b hb => word_congr fun x hx => by
    refine hold b hb x (inRange_mono hx (by omega)) fun hx' => ?_
    by_cases hba : b = a
    · exact not_inRange_next (hba ▸ hx) hx'
    · exact (h.items.items_apart hb ha hba).not_mem (inRange_mono hx (by omega)) (inRange_next hx')
  refine ⟨⟨⟨h.items.qset, ?_, fun b hb => ?_, fun b hb => ?_, h.apart_cons hf,
    h.mapped_cons hf hmapped⟩, h.data, by simp [h.first], h.room_cons hans rfl rfl⟩,
    h.kept hans hf (fun x hx => h.off_item ha (inRange_next hx)) hout hmapped⟩
  · have hchain := h.items.chain
    subst hl
    rw [List.append_assoc]
    refine hchain.snoc (fun b hb => nx_congr fun x hx => ?_) hnx hnew
    exact hold b (by simp [hb]) x hx fun hx' =>
      (h.items.items_apart (by simp [hb]) ha (hla b hb)).not_mem hx (inRange_next hx')
  · rcases List.mem_append.mp hb with hb | hb
    · obtain ⟨k, hk, h8⟩ := h.items.item b hb
      exact ⟨k, List.mem_cons_of_mem _ hk, h8⟩
    · rw [List.mem_singleton.mp hb]
      exact ⟨c.size, by simp, hf.2.1⟩
  · rcases List.mem_append.mp hb with hb | hb
    · obtain ⟨d, hd, harr⟩ := h.items.array b hb
      refine ⟨d, (hdata b hb).trans hd, fun hd0 => ?_⟩
      obtain ⟨hdn, k, hk, hq⟩ := harr hd0
      have hdc : d ≠ c.addr := by
        have := h.items.qset
        exact ((hf.2.2.2 _ hk).ne (lt_of_lt_of_le (by omega) hf.2.1) (by simp only; omega)).symm
      exact ⟨by simp [hdn, hdc], k, List.mem_cons_of_mem _ hk, hq⟩
    · rw [List.mem_singleton.mp hb]
      refine ⟨0, ?_, fun h0 => absurd rfl h0⟩
      have := word_fill_zero (m := setWord (fill s.mem c.addr c.size c.raw) (a + 4) c.addr)
        (a := c.addr) (i := 0) (n := 8) (by omega) (by omega)
      rw [hm]
      simpa using this

/-- **An item gets its pointer array.** -/
theorem Good.newArray (hans : s.answers = some c :: rest) (hn : (n : ℤ) = 4 * s.qset)
    (hf : s.Fresh n c) (ha : a ∈ nodes) {m : Mem}
    (hm : m = fill (setWord (fill s.mem c.addr c.size c.raw) a c.addr) c.addr n fun _ => 0) :
    Good D { s with mem := m, live := c.toBlock :: s.live, answers := rest } nodes ∧
      Kept D s { s with mem := m, live := c.toBlock :: s.live, answers := rest } := by
  have hqset := h.items.qset
  have hne : ∀ b ∈ nodes, b ≠ c.addr := fun b hb => h.chunk_ne_item hf (by omega) hb
  have hout : ∀ x, ¬ InRange c.addr c.size x → ¬ InRange a 4 x → m x = s.mem x := by
    intro x hx hx'
    rw [hm, fill_of_not_mem fun h' => hx (inRange_mono h' hf.2.1), setWord, fill_of_not_mem hx',
      fill_of_not_mem hx]
  have hmapped : ∀ x, (s.mem x).isSome → (m x).isSome := fun x hx => by
    rw [hm]
    exact isSome_fill (isSome_fill (isSome_fill hx))
  have hold : ∀ b ∈ nodes, ∀ x, InRange b 8 x → ¬ InRange a 4 x → m x = s.mem x :=
    fun b hb x hx hx' => hout x (h.chunk_off_item hf hb hx) hx'
  have hnx : ∀ b ∈ nodes, nx m b = nx s.mem b := fun b hb => by
    unfold nx
    rw [word_congr fun x hx => ?_]
    refine hold b hb x (inRange_next hx) fun hx' => ?_
    by_cases hba : b = a
    · exact not_inRange_next hx' (hba ▸ hx)
    · exact (h.items.items_apart hb ha hba).not_mem (inRange_next hx) (inRange_mono hx' (by omega))
  refine ⟨⟨⟨hqset, h.items.chain.congr hnx, fun b hb => ?_, fun b hb => ?_, h.apart_cons hf,
    h.mapped_cons hf hmapped⟩, h.data, h.first, h.room_cons hans rfl rfl⟩,
    h.kept hans hf (fun x hx => h.off_item ha (inRange_mono hx (by omega))) hout hmapped⟩
  · obtain ⟨k, hk, h8⟩ := h.items.item b hb
    exact ⟨k, List.mem_cons_of_mem _ hk, h8⟩
  · by_cases hba : b = a
    · subst hba
      refine ⟨c.addr, ?_, fun _ => ⟨fun hc => hne _ hc rfl, c.size, by simp, ?_⟩⟩
      · show word m b = some c.addr
        rw [← word_setWord (m := fill s.mem c.addr c.size c.raw) (a := b) (w := c.addr), hm]
        exact word_congr fun x hx => fill_of_not_mem fun h' =>
          h.chunk_off_item hf ha (inRange_mono hx (by omega)) (inRange_mono h' hf.2.1)
      · have := hf.2.1
        show 4 * s.qset ≤ c.size
        omega
    · obtain ⟨d, hd, harr⟩ := h.items.array b hb
      refine ⟨d, ?_, fun hd0 => ?_⟩
      · rw [← hd]
        exact word_congr fun x hx => hold b hb x (inRange_mono hx (by omega)) fun hx' =>
          (h.items.items_apart hb ha hba).not_mem (inRange_mono hx (by omega))
            (inRange_mono hx' (by omega))
      · obtain ⟨hdn, k, hk, hq⟩ := harr hd0
        exact ⟨hdn, k, List.mem_cons_of_mem _ hk, hq⟩

/-- **An entry of a pointer array gets its quantum.** -/
theorem Good.newQuantum (hans : s.answers = some c :: rest) (hf : s.Fresh n c) {k : ℕ}
    (hd : ⟨d, k⟩ ∈ s.live) (hdn : d ∉ nodes) (hw : ∀ x, InRange w 4 x → InRange d k x) {m : Mem}
    (hm : m = setWord (fill s.mem c.addr c.size c.raw) w c.addr) :
    Good D { s with mem := m, live := c.toBlock :: s.live, answers := rest } nodes ∧
      Kept D s { s with mem := m, live := c.toBlock :: s.live, answers := rest } := by
  have hout : ∀ x, ¬ InRange c.addr c.size x → ¬ InRange w 4 x → m x = s.mem x := by
    intro x hx hx'
    rw [hm, setWord, fill_of_not_mem hx', fill_of_not_mem hx]
  have hmapped : ∀ x, (s.mem x).isSome → (m x).isSome := fun x hx => by
    rw [hm]
    exact isSome_fill (isSome_fill hx)
  refine ⟨⟨h.items.congr rfl rfl (fun a ha x hx => ?_) (fun b hb => List.mem_cons_of_mem _ hb)
    (h.apart_cons hf) (h.mapped_cons hf hmapped), h.data, h.first, h.room_cons hans rfl rfl⟩,
    h.kept hans hf (fun x hx => h.off_block hd hdn (hw x hx)) hout hmapped⟩
  refine hout x (h.chunk_off_item hf ha hx) fun hx' => ?_
  exact (h.items.item_apart ha hd fun had => hdn (had ▸ ha)).not_mem hx (hw x hx')

/-- **Following** the list, and making it longer, keeps it in order. -/
theorem followLoop_safe (n : ℕ) (ha : a ∈ nodes) :
    Safe Unanswered (followLoop n a s) fun r =>
      ∃ nodes', Good D r.2 nodes' ∧ Kept D s r.2 ∧ (r.1 ≠ 0 → r.1 ∈ nodes') := by
  induction n generalizing a s nodes with
  | zero => exact ⟨nodes, h, Kept.refl D s, fun _ => ha⟩
  | succ n ih =>
    obtain ⟨w, hw, hmem, hlast⟩ := h.items.next ha
    refine followLoop_rule hw (fun hw0 => ih h (hmem hw0)) (fun _ rest hans => ?_)
      fun hw0 c rest hans hf => ?_
    · exact ⟨nodes, h.fail hans, Kept.answers D s rest, fun h0 => absurd rfl h0⟩
    · obtain ⟨l, hl⟩ := hlast hw0
      obtain ⟨hgood, hkept⟩ := h.newItem hans hf hl rfl
      refine (ih hgood (by simp)).mono fun r hr => ?_
      obtain ⟨nodes', hg, hk, hr⟩ := hr
      exact ⟨nodes', hg, hkept.trans hk, hr⟩

/-- The pointer array of an item is there, or is made. -/
theorem itemData_safe (ha : a ∈ nodes) :
    Safe Unanswered (itemData s a) fun r => Good D r.2 nodes ∧ Kept D s r.2 ∧
      (r.1 ≠ 0 → r.1 ∉ nodes ∧ ∃ k : ℕ, ⟨r.1, k⟩ ∈ r.2.live ∧ 4 * s.qset ≤ k) := by
  obtain ⟨d, hd, harr⟩ := h.items.array a ha
  have hqset := h.items.qset
  have hsize : (size32 (s.qset * 4) : ℤ) = 4 * s.qset := by
    rw [size32_of_lt (by omega) (by omega)]
    ring
  refine itemData_rule hd (fun hd0 => ?_) (fun _ rest hans => ?_) fun _ c rest hans hf => ?_
  · obtain ⟨hdn, k, hk, hq⟩ := harr hd0
    exact ⟨h, Kept.refl D s, fun _ => ⟨hdn, k, hk, hq⟩⟩
  · exact ⟨h.fail hans, Kept.answers D s rest, fun h0 => absurd rfl h0⟩
  · obtain ⟨hgood, hkept⟩ := h.newArray hans hsize hf ha rfl
    refine ⟨hgood, hkept, fun _ => ⟨fun hc => ?_, c.size, by simp, ?_⟩⟩
    · exact h.chunk_ne_item hf (by omega) hc rfl
    · have := hf.2.1
      omega

/-- The entries of a pointer array lie inside it. -/
theorem Good.entry_inRange {k : ℕ} (hq : 4 * s.qset ≤ k) {i : ℤ} (hi : 0 ≤ i ∧ i < s.qset)
    (hx : InRange (entry d i) 4 x) : InRange d k x := by
  have hqset := h.items.qset
  have hi' : entry d i = d + BitVec.ofNat 32 (4 * i).toNat := by
    unfold entry
    rw [← BitVec.ofInt_natCast, Int.toNat_of_nonneg (by omega)]
  rw [hi'] at hx
  exact inRange_mono (inRange_add hx (n := 4 * s.qset.toNat) (by omega) (by omega)) (by omega)

theorem Good.entry_mapped {k : ℕ} (hd : ⟨d, k⟩ ∈ s.live) (hq : 4 * s.qset ≤ k) {i : ℤ}
    (hi : 0 ≤ i ∧ i < s.qset) : Mapped s.mem (entry d i) 4 := fun j hj =>
  (h.items.mapped _ hd).isSome (h.entry_inRange hq hi (by
    unfold InRange
    bv_omega))

/-- The quantum of an entry is there, or is made. -/
theorem entryQuantum_safe {k : ℕ} (hd : ⟨d, k⟩ ∈ s.live) (hdn : d ∉ nodes) (hq : 4 * s.qset ≤ k)
    {i : ℤ} (hi : 0 ≤ i ∧ i < s.qset) :
    Safe Unanswered (entryQuantum s (entry d i)) fun r => Good D r.2 nodes ∧ Kept D s r.2 := by
  obtain ⟨w, hw⟩ := (h.entry_mapped hd hq hi).word le_rfl
  refine entryQuantum_rule hw (fun _ => ⟨h, Kept.refl D s⟩) (fun _ rest hans => ?_)
    fun _ c rest hans hf => ?_
  · exact ⟨h.fail hans, Kept.answers D s rest⟩
  · exact h.newQuantum hans hf hd hdn (fun x hx => h.entry_inRange hq hi hx) rfl

end Grow

end LinuxHomework.Scull.Layout
