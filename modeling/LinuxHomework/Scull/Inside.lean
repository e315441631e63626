import LinuxHomework.Scull.Trim

/-! # Where the user copies go

The copies should stay inside the quantum of the position, from the byte of the position on
(`InQuantum`). They go to `dev->data + *f_pos` instead, which is `8 * *f_pos` bytes behind the first
item, and a write that begins behind `SCULL_DATA_SIZE` gets the length of a negative number.

* `copies_inside`: in the runs whose calls are all `CopyOk` every user copy stays inside. The quantum
  has to lie where it makes the address right (`InPlace`); that the length ends with the quantum, and
  that the bytes are those of one live block and of no item or array, is derived.
* `not_copies_inside`: a byte written at offset 0 goes into the first item. -/

namespace LinuxHomework.Scull.Inside

open LinuxHomework.Lib.CInt LinuxHomework.Lib.Memory LinuxHomework.Lib.Outcome
open LinuxHomework.Lib.Runs LinuxHomework.Scull.Device LinuxHomework.Scull.Layout
open LinuxHomework.Scull.Calls LinuxHomework.Scull.Store LinuxHomework.Scull.Tree
open LinuxHomework.Scull.Copy LinuxHomework.Scull.Trim

/-- The `n` bytes from `a` are bytes of the quantum of the place, from `q_pos` on, and bytes of no
other allocated block. -/
structure InQuantum (s : ScullDev) (pl : Place) (a : Word) (n : ℕ) : Prop where
  quantum : quantumOf s pl ≠ 0
  bytes : ∀ i < n, ∃ j : ℕ, pl.qPos ≤ j ∧ j < s.quantum ∧
    a + BitVec.ofNat 32 i = quantumOf s pl + BitVec.ofNat 32 j
  own : ∃ b ∈ s.live, b.addr = quantumOf s pl ∧
    ∀ i < n, InRange b.addr b.size (a + BitVec.ofNat 32 i)
  others : ∀ b ∈ s.live, b.addr ≠ quantumOf s pl →
    ∀ i < n, ¬ InRange b.addr b.size (a + BitVec.ofNat 32 i)

/-- The user copy of a call, if it came to one, was as long as the caller asked for at most, and
inside the quantum. -/
def Stays (count : ℕ) (pl : Place) (r : Reply × ScullDev) : Prop :=
  ∀ a n, r.1.range = some (a, n) → n ≤ count ∧ InQuantum r.2 pl a n

/-- **The copy of a call stays inside**, and the call does not bring the kernel down. -/
def CopyInside (s : Sys) : Act → Prop
  | .read f count k => ∀ p ∈ s.fPos f, ∀ pl ∈ (place s.dev.quantum s.dev.qset p).toOption,
      Safe Unanswered (scullRead k { s.dev with answers := k.answers } count.toNat p)
        (Stays count.toNat pl)
  | .write f buf count k => ∀ p ∈ s.fPos f, ∀ pl ∈ (place s.dev.quantum s.dev.qset p).toOption,
      Safe Unanswered (scullWrite k { s.dev with answers := k.answers } buf count.toNat p)
        (Stays count.toNat pl)
  | .open .. => True
  | .llseek .. => True

/-- The quantum at `Q` lies where the code takes it to be: `8 * p - q_pos` bytes behind the first
item. -/
def InPlace (s : ScullDev) (Q : Word) (pl : Place) (p : ℤ) : Prop :=
  ∀ D ∈ home s, Q = D + BitVec.ofInt 32 (8 * p - pl.qPos)

/-- The condition on a read: if bytes are asked for and there is a quantum, it lies in its place. -/
def ReadOk (s : ScullDev) (count : ℕ) (p : ℤ) (pl : Place) : Prop :=
  (0 ≤ p ∧ p < 2 ^ 31) ∧ (count ≠ 0 → quantumOf s pl ≠ 0 → InPlace s (quantumOf s pl) pl p)

/-- The condition on a write: it begins at `SCULL_DATA_SIZE` at most, and if bytes are to be written
and memory does not run out, the quantum that is there or is made lies in its place. -/
def WriteOk (s : ScullDev) (count : ℕ) (p : ℤ) (pl : Place) : Prop :=
  (0 ≤ p ∧ p ≤ SCULL_DATA_SIZE) ∧
    (count ≠ 0 → p ≠ SCULL_DATA_SIZE → Supplied s pl → InPlace s (quantumAt s pl) pl p)

-- not by trying every address for `D`
instance (s : ScullDev) (Q : Word) (pl : Place) (p : ℤ) : Decidable (InPlace s Q pl p) :=
  Option.decidableForallMem (p := fun D => Q = D + BitVec.ofInt 32 (8 * p - pl.qPos)) (home s)

instance (s : ScullDev) (count : ℕ) (p : ℤ) (pl : Place) : Decidable (ReadOk s count p pl) :=
  inferInstanceAs (Decidable (_ ∧ _))

instance (s : ScullDev) (count : ℕ) (p : ℤ) (pl : Place) : Decidable (WriteOk s count p pl) :=
  inferInstanceAs (Decidable (_ ∧ _))

/-- The condition on a call. -/
def CopyOk (s : Sys) : Act → Prop
  | .read f count k => k.taken = true → ∀ p ∈ s.fPos f, p < s.dev.size →
      ∀ pl ∈ (place s.dev.quantum s.dev.qset p).toOption,
        ReadOk { s.dev with answers := k.answers } count.toNat p pl
  | .write f _ count k => k.taken = true → ∀ p ∈ s.fPos f,
      ∀ pl ∈ (place s.dev.quantum s.dev.qset p).toOption,
        WriteOk { s.dev with answers := k.answers } count.toNat p pl
  | .open .. => True
  | .llseek .. => True

instance (s : Sys) : DecidablePred (CopyOk s)
  | .read .. => inferInstanceAs (Decidable (_ → ∀ p ∈ s.fPos _, _ → ∀ pl ∈ Except.toOption _, _))
  | .write .. => inferInstanceAs (Decidable (_ → ∀ p ∈ s.fPos _, ∀ pl ∈ Except.toOption _, _))
  | .open .. => isTrue trivial
  | .llseek .. => isTrue trivial

variable {s t : ScullDev} {tree tree' l₁ l₂ : List Item} {it : Item} {a : Pointers} {b : Block}
  {x Q : Word} {k : Kernel} {buf : ℕ → Byte} {n count : ℕ} {p : ℤ} {pl : Place} {i j : ℕ}

/-! ### The blocks of the quanta -/

/-- The quantum of an entry, and where it is. -/
theorem exists_quantum (h : quantumIn tree i j = some b) : ∃ l₁ it l₂ a, tree = l₁ ++ it :: l₂ ∧
    tree[i]? = some it ∧ it.array = some a ∧ a.quanta[j]? = some (some b) := by
  unfold quantumIn at h
  obtain ⟨a, ha, hb⟩ := Option.bind_eq_some_iff.mp h
  obtain ⟨it, hit, ha⟩ := Option.bind_eq_some_iff.mp ha
  obtain ⟨l₁, l₂, htree, -⟩ := exists_split hit
  exact ⟨l₁, it, l₂, a, htree, hit, ha, Option.join_eq_some_iff.mp hb⟩

/-- A quantum holds no part of an item or of a pointer array. -/
theorem off_quantum (h : Rep s tree) (hb : quantumIn tree i j = some b) (hx : Touched tree x) :
    ¬ InRange b.addr b.size x := by
  obtain ⟨l₁, it, l₂, a, rfl, -, ha, hq⟩ := exists_quantum hb
  have hmem : b ∈ a.quanta.reduceOption :=
    List.reduceOption_mem_iff.mpr (List.mem_of_getElem? hq)
  have hb' : b ∈ it.blocks := by simp [Item.blocks, ha, hmem]
  obtain ⟨jt, hj, hx⟩ := hx
  have hcase : jt = it ∨ jt ∈ l₁ ++ l₂ := by
    rcases List.mem_append.mp hj with hj | hj
    · simp [hj]
    · rcases List.mem_cons.mp hj with hj | hj
      · exact Or.inl hj
      · simp [hj]
  rcases hcase with rfl | hj
  swap
  · exact h.off_others ⟨jt, hj, hx⟩ hb'
  -- the item of the quantum itself
  have hap := h.apart
  rw [blocks_append, blocks_cons] at hap
  have hap := (List.pairwise_append.mp (List.pairwise_append.mp hap).2.1).1
  rw [Item.blocks, ha] at hap
  obtain ⟨hitem, hap⟩ := List.pairwise_cons.mp hap
  obtain ⟨harray, -⟩ := List.pairwise_cons.mp hap
  have hsize := h.sized jt (by simp)
  rcases hx with hx | ⟨a', ha', hx⟩
  · exact (hitem b (by simp [hmem])).not_mem (inRange_mono hx hsize.item)
  · obtain rfl := Option.some.inj (ha.symm.trans ha')
    obtain ⟨hlen, hsz, -⟩ := hsize.array a ha
    exact (harray b hmem).not_mem (inRange_mono hx (by omega))

/-- The block of a quantum. -/
theorem quantum_block (h : Rep t tree) (hb : quantumIn tree i j = some b) :
    b ∈ blocks tree ∧ t.quantum ≤ b.size := by
  obtain ⟨l₁, it, l₂, a, htree, hit, ha, hq⟩ := exists_quantum hb
  have hmem := List.mem_of_getElem? hit
  have hbq : some b ∈ a.quanta := List.mem_of_getElem? hq
  refine ⟨List.mem_flatMap.mpr ⟨it, hmem, ?_⟩, ((h.sized it hmem).array a ha).2.2 b hbq⟩
  simp [Item.blocks, ha, List.reduceOption_mem_iff, hbq]

/-- The range of a copy that ends with the quantum lies in its block. -/
theorem inRange_quantum (h : Rep t tree) (hb : quantumIn tree i j = some b) {w : Word}
    (hin : n = 0 ∨ ((w - b.addr).toNat : ℤ) + n ≤ t.quantum) (hx : InRange w n x) :
    InRange b.addr b.size x := by
  have hsize := (quantum_block h hb).2
  unfold InRange at hx ⊢
  bv_omega

theorem mapped_quantum (h : Rep t tree) (hb : quantumIn tree i j = some b) {w : Word}
    (hin : n = 0 ∨ ((w - b.addr).toNat : ℤ) + n ≤ t.quantum) : Mapped t.mem w n := by
  obtain ⟨-, -, hmap⟩ := h.sound b (h.mem_live (quantum_block h hb).1)
  intro i hi
  refine hmap.isSome (inRange_quantum h hb hin ?_)
  unfold InRange
  bv_omega

/-- **The copy stays inside** where its range meets the quantum. -/
theorem in_quantum (h : Rep t tree) (hb : quantumIn tree pl.item.toNat pl.sPos.toNat = some b)
    (hs0 : 0 ≤ pl.sPos) {w : Word} (hlow : n = 0 ∨ pl.qPos ≤ (w - b.addr).toNat ∧
      ((w - b.addr).toNat : ℤ) + n ≤ t.quantum) : InQuantum t pl w n := by
  obtain ⟨hmem, hsize⟩ := quantum_block h hb
  have hQ : quantumOf t pl = b.addr := by
    obtain ⟨l₁, it, l₂, a, -, hit, ha, hq⟩ := exists_quantum hb
    exact quantumOf_eq h hit ha hs0 hq
  have hlive := h.mem_live hmem
  have hin : ∀ i < n, InRange b.addr b.size (w + BitVec.ofNat 32 i) := by
    intro i hi
    refine inRange_quantum h hb (hlow.imp_right And.right) ?_
    unfold InRange
    bv_omega
  rw [← hQ] at hlow
  refine ⟨?_, fun i hi => ⟨(w - quantumOf t pl).toNat + i, by omega, by omega, ?_⟩,
    ⟨b, hlive, hQ.symm, hin⟩, fun c hc hne i hi => ?_⟩
  · rw [hQ]
    exact (h.sound b hlive).1
  · bv_omega
  · have hne' : c ≠ b := by
      rintro rfl
      exact hne hQ.symm
    have : Std.Symm fun b c : Block => Apart b.addr b.size c.addr c.size := ⟨fun _ _ h => h.symm⟩
    have hap := h.apart.forall (h.live.mem_iff.mp hc) hmem hne'
    exact fun hx => hap.not_mem hx (hin i hi)

/-! ### The calls -/

/-- **The place of the quantum and the length that is left** of the three truncations keep a copy in
the quantum. -/
theorem copy_within (hfinds : Finds s tree pl (b.addr, t) tree') (h0 : b.addr ≠ 0) {limit : ℤ}
    (hq : 0 ≤ pl.qPos ∧ pl.qPos < s.quantum) (hquantum : s.quantum < 2 ^ 31)
    (hdue : (n : ℤ) = due s pl count p limit)
    (hplace : count ≠ 0 → p ≠ limit → InPlace s b.addr pl p) :
    n = 0 ∨ pl.qPos ≤ (copyAddr t p - b.addr).toNat ∧
      ((copyAddr t p - b.addr).toNat : ℤ) + n ≤ t.quantum := by
  have hsame : t.quantum = s.quantum := hfinds.grows.quantum
  unfold due at hdue
  by_cases hn : n = 0
  · exact Or.inl hn
  have hbehind : b.addr = t.data + BitVec.ofInt 32 (8 * p - pl.qPos) :=
    hplace (by omega) (by omega) t.data (hfinds.home (hfinds.data_ne_zero h0))
  have haddr : copyAddr t p = b.addr + BitVec.ofInt 32 pl.qPos := by
    rw [hbehind, BitVec.add_assoc, ← BitVec.ofInt_add, Int.sub_add_cancel]
    rfl
  have hoff : ((copyAddr t p - b.addr).toNat : ℤ) = pl.qPos := by
    obtain ⟨q, hq'⟩ := Int.eq_ofNat_of_zero_le hq.1
    rw [haddr, hq', BitVec.ofInt_natCast]
    bv_omega
  exact Or.inr ⟨hoff.ge, by omega⟩

/-- **A read** that meets the condition stays inside. -/
theorem read_inside (h : Rep s tree) (hpl : place s.quantum s.qset p = .ok pl)
    (hfit : s.quantum * s.qset < 2 ^ 31) (hcount : count < 2 ^ 32)
    (hok : k.taken = true → p < s.size → ReadOk s count p pl) :
    Safe Unanswered (scullRead k s count p) fun r => Holds s r.2 ∧ Stays count pl r := by
  have hself : Holds s s := ⟨⟨tree, h⟩, rfl, rfl⟩
  have hnone : ∀ t v sem, Holds s t → Holds s t ∧ Stays count pl (⟨v, p, [], none, sem⟩, t) :=
    fun t v sem ht => ⟨ht, fun a n hr => absurd hr (by simp)⟩
  by_cases hk : k.taken = true
  swap
  · unfold scullRead
    rw [if_pos hk]
    exact hnone s _ _ hself
  by_cases hp : p < s.size
  swap
  · unfold scullRead
    rw [if_neg (not_not_intro hk), if_pos (not_lt.mp hp)]
    exact hnone s _ _ hself
  obtain ⟨hp0, hplace⟩ := hok hk hp
  obtain ⟨hitem, hs, hq⟩ := place_within h.quantum.1 h.qset.1 hfit hp0 hpl
  have hdue := readLen_eq hq.2 h.quantum.2 hq.1 hp0 hp hcount
  rw [scullRead_eq hk hp hpl]
  refine (readFind_tree h ⟨by omega, fun _ => hs⟩).bind ?_
  rintro ⟨w, t⟩ ⟨tree', hfinds, hw, -⟩
  have hholds := holds_of_grows hfinds.grows
  show Safe _ (if w = 0 then _ else _) _
  by_cases h0 : w = 0
  · rw [if_pos h0]
    exact hnone t _ _ hholds
  rw [if_neg h0]
  obtain ⟨hpos, b, hb, rfl⟩ := hfinds.found h0
  obtain ⟨n, hn⟩ : ∃ n, readLen { s with quantum := t.quantum } pl count p = n := ⟨_, rfl⟩
  have hlen : readLen s pl count p = n := by
    rw [← hn, show t.quantum = s.quantum from hfinds.grows.quantum]
  rw [hlen] at hdue
  have hin := copy_within hfinds h0 hq h.quantum.2 hdue fun hcount' _ => by
    rw [show b.addr = _ from hw h0]
    exact hplace hcount' (hw h0 ▸ h0)
  have hmap := mapped_quantum hfinds.grows.rep hb (hin.imp_right And.right)
  show Safe _ (readCopy k t (readLen _ _ _ _) p) _
  rw [hn]
  obtain ⟨v, q, bs, hcopy⟩ := readCopy_eq hmap
  rw [hcopy]
  refine ⟨holds_of_grows hfinds.grows, fun a m hr => ?_⟩
  obtain ⟨rfl, rfl⟩ := Prod.mk.inj (Option.some.inj hr)
  exact ⟨by unfold due at hdue; omega, in_quantum hfinds.grows.rep hb hs.1 hin⟩

/-- **A write** that meets the condition stays inside. -/
theorem write_inside (h : Rep s tree) (hpl : place s.quantum s.qset p = .ok pl)
    (hfit : s.quantum * s.qset < 2 ^ 31) (hcount : count < 2 ^ 32)
    (hok : k.taken = true → WriteOk s count p pl) :
    Safe Unanswered (scullWrite k s buf count p) fun r => Holds s r.2 ∧ Stays count pl r := by
  have hnone : ∀ t v sem, Holds s t → Holds s t ∧ Stays count pl (⟨v, p, [], none, sem⟩, t) :=
    fun t v sem ht => ⟨ht, fun a n hr => absurd hr (by simp)⟩
  by_cases hk : k.taken = true
  swap
  · unfold scullWrite
    rw [if_pos hk]
    exact hnone s _ _ ⟨⟨tree, h⟩, rfl, rfl⟩
  obtain ⟨hp, hplace⟩ := hok hk
  have hp0 : 0 ≤ p ∧ p < 2 ^ 31 := ⟨hp.1, by have := hp.2; unfold SCULL_DATA_SIZE at this; omega⟩
  obtain ⟨hitem, hs, hq⟩ := place_within h.quantum.1 h.qset.1 hfit hp0 hpl
  have hdue := writeLen_eq hq.2 h.quantum.2 hq.1 hp hcount
  rw [scullWrite_eq hk hpl]
  refine (writeFind_tree h ⟨by omega, fun _ => hs⟩).bind ?_
  rintro ⟨w, t⟩ ⟨tree', hfinds, hw, -⟩
  show Safe _ (if w = 0 then _ else _) _
  by_cases h0 : w = 0
  · rw [if_pos h0]
    exact hnone t _ _ (holds_of_grows hfinds.grows)
  rw [if_neg h0]
  obtain ⟨hpos, b, hb, rfl⟩ := hfinds.found h0
  obtain ⟨hQ, hsupplied, -⟩ := hw h0
  obtain ⟨n, hn⟩ : ∃ n, writeLen t pl count p = n := ⟨_, rfl⟩
  have hlen : writeLen s pl count p = n := by
    rw [← hn]
    unfold writeLen
    rw [show t.quantum = s.quantum from hfinds.grows.quantum]
  rw [hlen] at hdue
  have hin := copy_within hfinds h0 hq h.quantum.2 hdue fun hcount' hend => by
    rw [show b.addr = _ from hQ]
    exact hplace hcount' hend hsupplied
  have hrep := hfinds.grows.rep
  have hmap := mapped_quantum hrep hb (hin.imp_right And.right)
  have hwrite : ∀ f size, Rep { t with mem := fill t.mem (copyAddr t p) n f, size := size } tree' := by
    intro f size
    have hoff := hrep.write_off (f := f) fun x hx hx' =>
      off_quantum hrep hb hx' (inRange_quantum hrep hb (hin.imp_right And.right) hx)
    exact hoff.congr rfl rfl rfl rfl (fun _ _ => rfl) fun _ hx => hx
  show Safe _ (writeCopy k t buf (writeLen _ _ _ _) p) _
  rw [hn]
  obtain ⟨v, q, bs, f, size, hcopy⟩ := writeCopy_eq hmap
  rw [hcopy]
  refine ⟨⟨⟨tree', hwrite f size⟩, hfinds.grows.quantum, hfinds.grows.qset⟩, fun a m hr => ?_⟩
  obtain ⟨rfl, rfl⟩ := Prod.mk.inj (Option.some.inj hr)
  exact ⟨by unfold due at hdue; omega, in_quantum (hwrite f size) hb hs.1 hin⟩

/-! ### Runs -/

variable {P : Params} {σ σ' : Sys} {act : Act}

/-- A call that meets the condition stays inside. -/
theorem stays_inside (hP : Params.Ok P) (h : Built P σ) (hok : CopyOk σ act)
    (hstep : step P σ act = some σ') : CopyInside σ act := by
  cases act with
  | read f count k =>
    obtain ⟨halive, -⟩ := step_read hstep
    obtain ⟨⟨tree, htree⟩, -⟩ := h halive
    intro p hf pl' hpl'
    obtain ⟨pl, hpl⟩ := h.place hP halive p
    rw [hpl] at hpl'
    obtain rfl := Option.some.inj hpl'
    refine (read_inside (htree.answers k.answers) hpl (h.fits hP halive) count.isLt
      fun hk hp => ?_).mono fun _ hr => hr.2
    exact hok hk p hf hp pl (by rw [hpl]; rfl)
  | write f buf count k =>
    obtain ⟨halive, -⟩ := step_write hstep
    obtain ⟨⟨tree, htree⟩, -⟩ := h halive
    intro p hf pl' hpl'
    obtain ⟨pl, hpl⟩ := h.place hP halive p
    rw [hpl] at hpl'
    obtain rfl := Option.some.inj hpl'
    refine (write_inside (htree.answers k.answers) hpl (h.fits hP halive) count.isLt
      fun hk => ?_).mono fun _ hr => hr.2
    exact hok hk p hf pl (by rw [hpl]; rfl)
  | «open» f fFlags k => trivial
  | llseek f off whence => trivial

/-- A copy that stays inside leaves the list as it was built. -/
theorem built_inside (hP : Params.Ok P) (h : Built P σ) (hok : CopyOk σ act)
    (hstep : step P σ act = some σ') : Built P σ' := by
  refine built_keep hP h hstep ?_
  rintro f buf count k p rfl hf
  obtain ⟨halive, -⟩ := step_write hstep
  obtain ⟨⟨tree, htree⟩, -⟩ := h halive
  obtain ⟨pl, hpl⟩ := h.place hP halive p
  refine ((write_inside (htree.answers k.answers) hpl (h.fits hP halive) count.isLt fun hk => ?_).mono
    fun _ hr => hr.1).weaken fun _ _ => trivial
  exact hok hk p hf pl (by rw [hpl]; rfl)

/-- **Copies stay inside one quantum** in the runs whose calls meet the condition. -/
theorem copies_inside (hP : Params.Ok P) (mem : Mem) {acts : List Act}
    (h : Meets (step P) CopyOk (start P mem) acts) :
    Meets (step P) CopyInside (start P mem) acts :=
  meets_of_meets (fun _ _ _ hb hok hstep => built_inside hP hb hok hstep)
    (fun _ _ _ hb hok hstep => stays_inside hP hb hok hstep) (built_start hP mem) h

/-- The first quantum is handed out 56 bytes behind the first item. -/
def nextChunks : Kernel :=
  ⟨true, [some ⟨⟨0x1000, 8⟩, fun _ => 7⟩, some ⟨⟨0x2000, 8⟩, fun _ => 7⟩,
    some ⟨⟨0x1038, 16⟩, fun _ => 7⟩], none⟩

/-- Three bytes written at offset 8, which is 64 bytes behind the first item, and read back. -/
theorem copies_inside_next : Meets (step smallDevice) CopyInside (start smallDevice fun _ => some 0)
    [.open 0 2 nextChunks, .llseek 0 8 0, .write 0 letters 3 nextChunks, .llseek 0 8 0,
      .read 0 3 nextChunks] :=
  copies_inside ⟨by decide, by decide, by decide⟩ _ (by decide +kernel)

/-- The empty device, one file being open. -/
def opened : Sys where
  dev := ⟨0, 16, 2, 0, fun _ => some 0, [], threeChunks.answers, []⟩
  fPos := Function.update (fun _ => none) 0 (some 0)
  crashed := false
  writes := []
  got := none

/-- The byte written at offset 0 is put into the first item: its array is lost. -/
theorem not_copies_inside : ¬ Meets (step smallDevice) CopyInside (start smallDevice fun _ => some 0)
    [.open 0 2 threeChunks, .write 0 letters 1 threeChunks] := by
  intro h
  have hstays : Safe Unanswered (scullWrite threeChunks opened.dev letters 1 0) (Stays 1 ⟨0, 0, 0⟩) :=
    h [.open 0 2 threeChunks] (.write 0 letters 1 threeChunks) (List.prefix_refl _) opened rfl
      (by decide +kernel) 0 rfl ⟨0, 0, 0⟩ rfl
  have hrun : (scullWrite threeChunks opened.dev letters 1 0).toOption.map (fun r =>
      (r.1.range, r.2.live, quantumOf r.2 ⟨0, 0, 0⟩)) =
        some (some (0x1000, 1), [⟨0x3000, 16⟩, ⟨0x2000, 8⟩, ⟨0x1000, 8⟩], 0) := by decide +kernel
  cases hres : scullWrite threeChunks opened.dev letters 1 0 with
  | error e => simp [hres, Except.toOption] at hrun
  | ok r =>
    rw [hres] at hstays hrun
    obtain ⟨hrange, hrest⟩ := Prod.mk.inj (Option.some.inj hrun)
    obtain ⟨hlive, hquantum⟩ := Prod.mk.inj hrest
    have hown := (hstays _ _ hrange).2.others ⟨0x1000, 8⟩
    rw [hquantum, hlive] at hown
    exact hown (by simp) (by decide) 0 (by decide) (by decide)

end LinuxHomework.Scull.Inside
