import LinuxHomework.Scull.Tree

/-! # The walk of `scull_follow`, `7/main.c`

`scull_follow(dev, n)` walks along the list that hangs from `dev->data` to the item with the number
`n`, and makes the items that are missing on the way. Nothing is asked of the list but that its
items are allocated: their `data` may be anything, and so may the parameters of the device.

* `Hangs`: the list in memory, with the `data` of each item.
* `Grown`: what the call may do to the device. The list is longer by zeroed items, which are the
  blocks that have been allocated, in that order; nothing is given back, and of the memory that was
  there only the link of the last item has changed.
* `Hangs.newLast`, `Hangs.newFirst`: one item more.
* `scullFollow_followed`: which item is returned, and how long the list is then. -/

namespace LinuxHomework.Scull.Follow

open LinuxHomework.Lib.CInt LinuxHomework.Lib.Memory LinuxHomework.Lib.Chain
open LinuxHomework.Lib.Outcome LinuxHomework.Scull.Device LinuxHomework.Scull.Layout
open LinuxHomework.Scull.Tree (attach attach_off attach_word attach_zero isSome_attach)

/-- An item: its address and the word `data`. -/
structure Node where
  addr : Word
  data : Word

/-- **The list in memory.** -/
structure Hangs (s : ScullDev) (l : List Node) : Prop where
  chain : Linked (nx s.mem) (ptr s.data) (l.map Node.addr)
  data : ∀ it ∈ l, word s.mem it.addr = some it.data
  block : ∀ it ∈ l, ∃ n, ⟨it.addr, n⟩ ∈ s.live ∧ 8 ≤ n
  apart : ∀ it ∈ l, ∀ jt ∈ l, it.addr ≠ jt.addr → Apart it.addr 8 jt.addr 8
  mapped : ∀ it ∈ l, Mapped s.mem it.addr 8

/-- An item in a block of its own whose bytes are zero. -/
def zeroed (b : Block) : Node := ⟨b.addr, 0⟩

/-- **A device whose list has grown** by the blocks `new`. -/
structure Grown (s : ScullDev) (l : List Node) (new : List Block) (s' : ScullDev) : Prop where
  hangs : Hangs s' (l ++ new.map zeroed)
  sized : ∀ b ∈ new, 8 ≤ b.size
  live : s'.live = new.reverse ++ s.live
  freed : s'.freed = s.freed
  rest : s'.quantum = s.quantum ∧ s'.qset = s.qset ∧ s'.size = s.size
  answers : ∀ o ∈ s'.answers, o ∈ s.answers
  kept : ∀ x, (∀ b ∈ new, ¬ InRange b.addr b.size x) →
    (∀ it, l.getLast? = some it → ¬ InRange (it.addr + 4) 4 x) → s'.mem x = s.mem x

/-- **What `scull_follow` comes to** for the item with the number `n`: the item, in a list that is
as long as is needed, or the null pointer because a `kmalloc` failed. -/
structure Followed (s : ScullDev) (l : List Node) (n : ℕ) (new : List Block)
    (r : Word × ScullDev) : Prop where
  grown : Grown s l new r.2
  found : r.1 ≠ 0 → (l ++ new.map zeroed).length = max l.length (n + 1) ∧
    ∃ it, (l ++ new.map zeroed)[n]? = some it ∧ it.addr = r.1
  failed : r.1 = 0 → none ∈ s.answers ∧ l.length + new.length ≤ n

variable {s s' s'' : ScullDev} {l : List Node} {it jt : Node} {c : Chunk} {n : ℕ}
  {new new' : List Block} {rest : List (Option Chunk)} {a w : Word}

/-! ### Pointers -/

theorem ptr_eq_none : ptr w = none ↔ w = 0 := by
  unfold ptr
  split_ifs with h
  · exact iff_of_true rfl h
  · exact iff_of_false (by simp) h

theorem ptr_eq_some : ptr w = some a ↔ w = a ∧ a ≠ 0 := by
  unfold ptr
  split_ifs with h
  · refine iff_of_false (by simp) ?_
    rintro ⟨rfl, hne⟩
    exact hne h
  · rw [Option.some.injEq]
    exact ⟨fun heq => ⟨heq, heq ▸ h⟩, fun heq => heq.1⟩

theorem nx_eq_some {m : Mem} {q : Option Word} :
    nx m a = some q ↔ ∃ w, word m (a + 4) = some w ∧ ptr w = q := Option.map_eq_some_iff

/-! ### Items of the list -/

theorem hangs_nil_iff (h : Hangs s l) : s.data = 0 ↔ l = [] := by
  rw [← ptr_eq_none, h.chain.start]
  simp

/-- The first item is the one the device points to. -/
theorem Hangs.first (h : Hangs s (it :: l)) : it.addr = s.data ∧ s.data ≠ 0 := by
  obtain ⟨heq, hne⟩ := ptr_eq_some.mp h.chain.1
  exact ⟨heq.symm, heq ▸ hne⟩

theorem Hangs.answers (h : Hangs s l) (as : List (Option Chunk)) :
    Hangs { s with answers := as } l :=
  ⟨h.chain, h.data, h.block, h.apart, h.mapped⟩

/-- The link of an item is the address of the one behind it. -/
theorem Hangs.next {l₁ l₂ : List Node} (h : Hangs s (l₁ ++ it :: jt :: l₂)) :
    word s.mem (it.addr + 4) = some jt.addr ∧ jt.addr ≠ 0 := by
  have hchain := h.chain
  rw [List.map_append] at hchain
  obtain ⟨-, q, hq, hrest⟩ := hchain.tail_at
  obtain ⟨w, hw, rfl⟩ := nx_eq_some.mp hq
  obtain ⟨rfl, hne⟩ := ptr_eq_some.mp hrest.1
  exact ⟨hw, hne⟩

/-- That of the last one is null. -/
theorem Hangs.last (h : Hangs s (l ++ [it])) : word s.mem (it.addr + 4) = some 0 := by
  have hchain := h.chain
  rw [List.map_append] at hchain
  obtain ⟨w, hw, hptr⟩ := nx_eq_some.mp hchain.last
  rw [ptr_eq_none.mp hptr] at hw
  exact hw

/-- A chunk that is handed out is apart from the items. -/
theorem Hangs.apart_fresh (h : Hangs s l) (hit : it ∈ l) (hf : s.Fresh 8 c) :
    Apart it.addr 8 c.addr c.size := by
  obtain ⟨n, hn, h8⟩ := h.block it hit
  exact (hf.2.2.2 _ hn).symm.mono h8 le_rfl

/-! ### One item more -/

/-- The list with one item more in a new block, in a memory that keeps the old items. -/
theorem Hangs.snoc {m : Mem} {d : Word} (h : Hangs s l) (hf : s.Fresh 8 c)
    (hchain : Linked (nx m) (ptr d) (l.map Node.addr ++ [c.addr]))
    (hdata : ∀ it ∈ l, word m it.addr = word s.mem it.addr) (hnew : word m c.addr = some 0)
    (hmapped : ∀ x, (s.mem x).isSome → (m x).isSome) :
    Hangs { s with data := d, mem := m, live := c.toBlock :: s.live, answers := rest }
      (l ++ [zeroed c.toBlock]) := by
  have hmem : ∀ jt ∈ l ++ [zeroed c.toBlock], jt ∈ l ∨ jt = zeroed c.toBlock := by
    intro jt hjt
    simpa using hjt
  refine ⟨by simpa [zeroed] using hchain, fun jt hjt => ?_, fun jt hjt => ?_,
    fun jt hjt kt hkt hne => ?_, fun jt hjt => ?_⟩
  · rcases hmem jt hjt with hjt | rfl
    · exact (hdata jt hjt).trans (h.data jt hjt)
    · exact hnew
  · rcases hmem jt hjt with hjt | rfl
    · obtain ⟨n, hn, h8⟩ := h.block jt hjt
      exact ⟨n, List.mem_cons_of_mem _ hn, h8⟩
    · exact ⟨c.size, List.mem_cons_self, hf.2.1⟩
  · rcases hmem jt hjt with hjt | rfl
    · rcases hmem kt hkt with hkt | rfl
      · exact h.apart jt hjt kt hkt hne
      · exact (h.apart_fresh hjt hf).mono le_rfl hf.2.1
    · rcases hmem kt hkt with hkt | rfl
      · exact ((h.apart_fresh hkt hf).mono le_rfl hf.2.1).symm
      · exact absurd rfl hne
  · rcases hmem jt hjt with hjt | rfl
    · exact (h.mapped jt hjt).mono_mem hmapped
    · exact fun i hi => hmapped _ (hf.2.2.1 i (lt_of_lt_of_le hi hf.2.1))

/-- **An item is made behind the last one.** -/
theorem Hangs.newLast (h : Hangs s (l ++ [it])) (hans : s.answers = some c :: rest)
    (hf : s.Fresh 8 c) : Grown s (l ++ [it]) [c.toBlock] { s with
      mem := attach s.mem c (it.addr + 4) 8, live := c.toBlock :: s.live, answers := rest } := by
  set m := attach s.mem c (it.addr + 4) 8 with hm
  have hit : it ∈ l ++ [it] := by simp
  have hnodup : it.addr ∉ l.map Node.addr := by
    have := h.chain.nodup
    rw [List.map_append] at this
    exact fun hmem => (List.nodup_append.mp this).2.2 _ hmem _ (by simp) rfl
  have hoff : ∀ jt ∈ l ++ [it], ∀ x, InRange jt.addr 8 x → ¬ InRange (it.addr + 4) 4 x →
      m x = s.mem x := fun jt hjt x hx hlink =>
    attach_off hf.2.1 ((h.apart_fresh hjt hf).not_mem hx) hlink
  have hold : ∀ jt ∈ l, nx m jt.addr = nx s.mem jt.addr := by
    intro jt hjt
    have hne : it.addr ≠ jt.addr := fun heq => hnodup (heq ▸ List.mem_map_of_mem hjt)
    have hapart := h.apart it hit jt (List.mem_append_left _ hjt) hne
    exact nx_congr fun x hx => hoff jt (List.mem_append_left _ hjt) x hx fun hlink =>
      hapart.not_mem (inRange_next hlink) hx
  have hlink : word m (it.addr + 4) = some c.addr := attach_word hf.2.1 fun x hx =>
    (h.apart_fresh hit hf).not_mem (inRange_next hx)
  have hzero : word m (c.addr + 4) = some 0 := attach_zero (i := 1) (by omega) (by omega)
  have hnew : word m c.addr = some 0 := by
    have h0 : word m (c.addr + BitVec.ofNat 32 (4 * 0)) = some 0 :=
      attach_zero (by omega) (by omega)
    simpa using h0
  refine ⟨?_, by simpa using hf.2.1, rfl, rfl, ⟨rfl, rfl, rfl⟩, fun o ho => ?_, fun x hx hlast => ?_⟩
  · refine h.snoc hf ?_ (fun jt hjt => ?_) hnew fun x hx => isSome_attach hx
    · have hchain := h.chain
      rw [List.map_append] at hchain ⊢
      rw [List.append_assoc]
      refine hchain.snoc (fun b hb => ?_) (nx_eq_some.mpr ⟨_, hlink, ptr_eq_some.mpr ⟨rfl, hf.1⟩⟩)
        (nx_eq_some.mpr ⟨_, hzero, ptr_eq_none.mpr rfl⟩)
      obtain ⟨jt, hjt, rfl⟩ := List.mem_map.mp hb
      exact hold jt hjt
    · refine word_congr fun x hx => hoff jt hjt x (inRange_mono hx (by omega)) fun hlink' => ?_
      by_cases heq : it.addr = jt.addr
      · exact not_inRange_next hx (heq ▸ hlink')
      · exact (h.apart it hit jt hjt heq).not_mem (inRange_next hlink') (inRange_mono hx (by omega))
  · rw [hans]
    exact List.mem_cons_of_mem _ ho
  · exact attach_off hf.2.1 (hx c.toBlock (by simp)) (hlast it (by simp))

/-- **The first item is made.** -/
theorem Hangs.newFirst (h : Hangs s []) (hans : s.answers = some c :: rest) (hf : s.Fresh 8 c) :
    Grown s [] [c.toBlock] { s with
      data := c.addr, mem := fill (fill s.mem c.addr c.size c.raw) c.addr 8 fun _ => 0,
      live := c.toBlock :: s.live, answers := rest } := by
  set m := fill (fill s.mem c.addr c.size c.raw) c.addr 8 fun _ => 0
  have hzero : word m (c.addr + 4) = some 0 := word_fill_zero (i := 4) (by omega) (by omega)
  have hnew : word m c.addr = some 0 := by
    have h0 : word m (c.addr + BitVec.ofNat 32 0) = some 0 := word_fill_zero (by omega) (by omega)
    simpa using h0
  refine ⟨?_, by simpa using hf.2.1, rfl, rfl, ⟨rfl, rfl, rfl⟩, fun o ho => ?_, fun x hx _ => ?_⟩
  · refine h.snoc hf ?_ (fun _ hjt => absurd hjt List.not_mem_nil) hnew fun x hx =>
      isSome_fill (isSome_fill hx)
    exact ⟨ptr_eq_some.mpr ⟨rfl, hf.1⟩, none, nx_eq_some.mpr ⟨_, hzero, ptr_eq_none.mpr rfl⟩, rfl⟩
  · rw [hans]
    exact List.mem_cons_of_mem _ ho
  · have hout := hx c.toBlock (by simp)
    show fill (fill s.mem c.addr c.size c.raw) c.addr 8 (fun _ => 0) x = s.mem x
    rw [fill_of_not_mem fun hx' => hout (inRange_mono hx' hf.2.1), fill_of_not_mem hout]

/-! ### Growing -/

theorem Hangs.same (h : Hangs s l) : Grown s l [] s :=
  ⟨by simpa using h, by simp, rfl, rfl, ⟨rfl, rfl, rfl⟩, fun _ ho => ho, fun _ _ _ => rfl⟩

/-- A `kmalloc` that fails changes nothing. -/
theorem Hangs.fail (h : Hangs s l) (hans : s.answers = none :: rest) :
    Grown s l [] { s with answers := rest } :=
  ⟨by simpa using h.answers rest, by simp, rfl, rfl, ⟨rfl, rfl, rfl⟩,
    fun o ho => hans ▸ List.mem_cons_of_mem _ ho, fun _ _ _ => rfl⟩

/-- **One growth after another.** The link that the second changes is that of the last old item, or
one of a new block. -/
theorem Grown.trans (h : Grown s l new s') (h' : Grown s' (l ++ new.map zeroed) new' s'') :
    Grown s l (new ++ new') s'' := by
  refine ⟨?_, fun b hb => ?_, ?_, h'.freed.trans h.freed, ?_, fun o ho => h.answers o (h'.answers o ho),
    fun x hx hlast => ?_⟩
  · have hhangs := h'.hangs
    rwa [List.append_assoc, ← List.map_append] at hhangs
  · rcases List.mem_append.mp hb with hb | hb
    · exact h.sized b hb
    · exact h'.sized b hb
  · rw [h'.live, h.live, List.reverse_append, List.append_assoc]
  · obtain ⟨hq, hs, hz⟩ := h.rest
    obtain ⟨hq', hs', hz'⟩ := h'.rest
    exact ⟨hq'.trans hq, hs'.trans hs, hz'.trans hz⟩
  · have hold := h.kept x (fun b hb => hx b (List.mem_append_left _ hb)) hlast
    rw [← hold]
    refine h'.kept x (fun b hb => hx b (List.mem_append_right _ hb)) fun it hit => ?_
    rw [List.getLast?_append] at hit
    rcases Option.or_eq_some_iff.mp hit with hnew | ⟨-, hlastOld⟩
    · obtain ⟨b, hb, rfl⟩ := List.mem_map.mp (List.mem_of_getLast? hnew)
      exact fun hlink => hx b (List.mem_append_left _ hb)
        (inRange_mono (inRange_next hlink) (h.sized b hb))
    · exact hlast it hlastOld

/-- The item is there. -/
theorem Hangs.followed {l₁ l₂ : List Node} (h : Hangs s (l₁ ++ it :: l₂)) (hne : it.addr ≠ 0) :
    Followed s (l₁ ++ it :: l₂) l₁.length [] (it.addr, s) := by
  refine ⟨h.same, fun _ => ⟨?_, it, by simp, rfl⟩, fun h0 => absurd h0 hne⟩
  simp only [List.map_nil, List.append_nil, List.length_append, List.length_cons]
  omega

/-- The walk goes on after items have been made, no more than are needed. -/
theorem Followed.after {r : Word × ScullDev} (h : Grown s l new s')
    (h' : Followed s' (l ++ new.map zeroed) n new' r)
    (hn : l.length + new.length ≤ max l.length (n + 1)) : Followed s l n (new ++ new') r := by
  refine ⟨h.trans h'.grown, fun h0 => ?_, fun h0 => ?_⟩
  · obtain ⟨hlen, hit⟩ := h'.found h0
    rw [List.append_assoc, ← List.map_append] at hlen hit
    refine ⟨?_, hit⟩
    simp only [List.length_append, List.length_map] at hlen ⊢
    omega
  · obtain ⟨hnone, hlen⟩ := h'.failed h0
    rw [List.length_append, List.length_map] at hlen
    rw [List.length_append]
    exact ⟨h.answers _ hnone, by omega⟩

/-- **The loop of `scull_follow`** from an item of the list, by induction on the number of turns. -/
theorem followLoop_followed (n : ℕ) : ∀ {s : ScullDev} {l₁ l₂ : List Node} {it : Node},
    Hangs s (l₁ ++ it :: l₂) → it.addr ≠ 0 → Safe Unanswered (followLoop n it.addr s) fun r =>
      ∃ new, Followed s (l₁ ++ it :: l₂) (l₁.length + n) new r := by
  induction n with
  | zero => exact fun h hne => ⟨[], h.followed hne⟩
  | succ n ih =>
    intro s l₁ l₂ it h hne
    have hidx : (l₁ ++ [it]).length + n = l₁.length + (n + 1) := by
      rw [List.length_append, List.length_singleton]
      omega
    cases l₂ with
    | cons jt l₂ =>
      obtain ⟨hnext, hjt⟩ := h.next
      have h' : Hangs s ((l₁ ++ [it]) ++ jt :: l₂) := by simpa using h
      refine followLoop_rule hnext (fun _ => ?_) (fun h0 => absurd h0 hjt) fun h0 => absurd h0 hjt
      refine (ih h' hjt).mono ?_
      rintro r ⟨new, hr⟩
      rw [hidx] at hr
      exact ⟨new, by simpa using hr⟩
    | nil =>
      refine followLoop_rule h.last (fun h0 => absurd rfl h0) (fun _ rest hans => ?_)
        fun _ c rest hans hf => ?_
      · refine ⟨[], h.fail hans, fun h0 => absurd rfl h0, fun _ => ⟨by simp [hans], ?_⟩⟩
        simp
      · have hgrown := h.newLast hans hf
        have h' : Hangs _ ((l₁ ++ [it]) ++ zeroed c.toBlock :: []) := hgrown.hangs
        refine (ih h' hf.1).mono ?_
        rintro r ⟨new, hr⟩
        rw [hidx] at hr
        exact ⟨[c.toBlock] ++ new, hr.after hgrown (by simp)⟩

/-- **The first item** is there, or is made. -/
theorem firstItem_grown (h : Hangs s l) : Safe Unanswered (firstItem s) fun r => ∃ new,
    Grown s l new r.2 ∧ l.length + new.length ≤ max l.length 1 ∧
      (r.1 ≠ 0 → ∃ it rest, l ++ new.map zeroed = it :: rest ∧ it.addr = r.1) ∧
      (r.1 = 0 → none ∈ s.answers ∧ l = [] ∧ new = []) := by
  cases l with
  | cons it l =>
    obtain ⟨haddr, hdata⟩ := h.first
    refine firstItem_rule (fun _ => ?_) (fun h0 => absurd h0 hdata) fun h0 => absurd h0 hdata
    exact ⟨[], h.same, by simp, fun _ => ⟨it, l, by simp, haddr⟩, fun h0 => absurd h0 hdata⟩
  | nil =>
    have hdata : s.data = 0 := (hangs_nil_iff h).mpr rfl
    refine firstItem_rule (fun h0 => absurd hdata h0) (fun _ rest hans => ?_)
      fun _ c rest hans hf => ?_
    · exact ⟨[], h.fail hans, by simp, fun h0 => absurd rfl h0, fun _ => ⟨by simp [hans], rfl, rfl⟩⟩
    · exact ⟨[c.toBlock], h.newFirst hans hf, by simp, fun _ => ⟨zeroed c.toBlock, [], rfl, rfl⟩,
        fun h0 => absurd h0 hf.1⟩

/-- **`scull_follow`** returns the item with the number `n`, or the null pointer because a `kmalloc`
failed. In both cases the list is the old one with zeroed items behind it, one for each block that
has been allocated. -/
theorem scullFollow_followed {n : ℤ} (h : Hangs s l) (hn : 0 ≤ n ∧ n < 2 ^ 31) :
    Safe Unanswered (scullFollow s n) fun r => ∃ new, Followed s l n.toNat new r := by
  have hsize : size32 n = n.toNat := by
    unfold size32
    omega
  unfold scullFollow
  refine (firstItem_grown h).bind ?_
  rintro ⟨qs, t⟩ ⟨new, hgrown, hlen, hthere, hnull⟩
  show Safe Unanswered (if qs = 0 then _ else _) _
  by_cases h0 : qs = 0
  · obtain ⟨hnone, rfl, rfl⟩ := hnull h0
    rw [if_pos h0]
    exact ⟨[], hgrown, fun h => absurd rfl h, fun _ => ⟨hnone, by simp⟩⟩
  · obtain ⟨it, rest, heq, rfl⟩ := hthere h0
    have hhangs : Hangs t ([] ++ it :: rest) := heq ▸ hgrown.hangs
    rw [if_neg h0, hsize]
    refine (followLoop_followed n.toNat hhangs h0).mono ?_
    rintro r ⟨new', hr⟩
    rw [List.length_nil, Nat.zero_add, List.nil_append, ← heq] at hr
    exact ⟨new ++ new', hr.after hgrown (by omega)⟩

/-- A device with one item, in a memory of zeros, and a kernel that has room for one more. -/
def oneItem : ScullDev where
  data := 4096
  quantum := 0
  qset := 0
  size := 0
  mem := fun _ => some 0
  live := [⟨4096, 8⟩]
  answers := [some ⟨⟨8192, 32⟩, fun _ => 7⟩, none]
  freed := []

theorem hangs_oneItem : Hangs oneItem [⟨4096, 0⟩] where
  chain := ⟨rfl, none, by decide, rfl⟩
  data it hit := by
    rw [List.mem_singleton.mp hit]
    decide
  block it hit := by
    rw [List.mem_singleton.mp hit]
    exact ⟨8, List.mem_cons_self, le_rfl⟩
  apart it hit jt hjt hne :=
    absurd ((congrArg _ (List.mem_singleton.mp hit)).trans
      (congrArg _ (List.mem_singleton.mp hjt)).symm) hne
  mapped _ _ _ _ := rfl

/-- The second item is made, at the address of the new block. -/
theorem scullFollow_oneItem : (scullFollow oneItem 1).toOption.map Prod.fst = some 8192 ∧
    Safe Unanswered (scullFollow oneItem 1) fun r =>
      ∃ new, Followed oneItem [⟨4096, 0⟩] 1 new r :=
  ⟨by decide +kernel, scullFollow_followed hangs_oneItem (by decide)⟩

end LinuxHomework.Scull.Follow
