import LinuxHomework.Scull.Progress

/-! # Calls that fail

A read or a write that returns a negative number should change nothing that can be seen: neither the
size nor the position nor what reads return (`Unseen`), and it has released the semaphore if it took
it (`released`). Items, arrays and quanta that it has made stay in the list. A write whose user copy
faults has run over its destination, the copy being made in place.

* `scullRead_sem`, `scullWrite_sem`: on every way out the semaphore is released if it was taken.
* `fails_quietly`: in the states that writes lead to which keep off the list, a read that fails
  leaves the device as it was, and a write that fails is unseen, but for the bytes that are
  `Exposed`: those of the destination, and, as reads return what lies behind the first item, those
  of new blocks and of null pointers in the list.
* `not_fails_quietly`: a write that faults at once has zeroed the byte at its position. -/

namespace LinuxHomework.Scull.Failure

open LinuxHomework.Lib.CInt LinuxHomework.Lib.Memory LinuxHomework.Lib.Outcome
open LinuxHomework.Lib.Runs LinuxHomework.Scull.Device LinuxHomework.Scull.Layout
open LinuxHomework.Scull.Calls LinuxHomework.Scull.Store LinuxHomework.Scull.Tree
open LinuxHomework.Scull.Copy LinuxHomework.Scull.Trim LinuxHomework.Scull.Inside
open LinuxHomework.Scull.Growth LinuxHomework.Scull.Progress

/-- What a call does to the semaphore: it is released exactly if it was taken. -/
def released (k : Kernel) : List SemOp := if k.taken then viaOut else []

/-! ### What can be seen -/

/-- A read that gets the semaphore, and allocates nothing. -/
def glance (s : ScullDev) (count : ℕ) (q : ℤ) : Except Stop (Reply × ScullDev) :=
  scullRead ⟨true, [], none⟩ { s with answers := [] } count q

/-- Whatever could be read before can be read now, and is the same but for the bytes at the
addresses `W`. -/
def SameView (W : Word → Prop) (s s' : ScullDev) : Prop :=
  ∀ (q : ℤ) (count : BitVec 32) r t, 0 ≤ q → glance s count.toNat q = .ok (r, t) → 0 < r.retval →
    ∃ r' t', glance s' count.toNat q = .ok (r', t') ∧ r'.retval = r.retval ∧ r'.fPos = r.fPos ∧
      r'.bytes.length = r.bytes.length ∧ ∀ i b, r.bytes[i]? = some b →
        ¬ W (copyAddr s q + BitVec.ofNat 32 i) → r'.bytes[i]? = some b

/-- A call from the position `p` has changed nothing that can be seen, but for the bytes at `W`. -/
structure Unseen (W : Word → Prop) (s : ScullDev) (p : ℤ) (r : Reply) (s' : ScullDev) : Prop where
  size : s'.size = s.size
  fPos : r.fPos = p
  view : SameView W s s'

/-- **A call that fails changes nothing visible** and releases the semaphore. A read leaves the
device as it was; of a write the bytes at the addresses that `W` gives are left out. -/
def FailsQuietly (W : ScullDev → ScullDev → Reply → Word → Prop) (s : Sys) : Act → Prop
  | .read f count k => ∀ p ∈ s.fPos f, ∀ r t,
      scullRead k (before s k) count.toNat p = .ok (r, t) → r.retval < 0 →
        t = before s k ∧ r.fPos = p ∧ r.sem = released k
  | .write f buf count k => ∀ p ∈ s.fPos f, ∀ r t,
      scullWrite k (before s k) buf count.toNat p = .ok (r, t) → r.retval < 0 →
        Unseen (W (before s k) t r) (before s k) p r t ∧ r.sem = released k
  | .open .. => True
  | .llseek .. => True

/-- The write comes to its user copy. -/
def Copies (s : Sys) : Act → Prop
  | .write f buf count k => ∃ p ∈ s.fPos f,
      ∃ r ∈ (scullWrite k (before s k) buf count.toNat p).toOption, r.1.range.isSome = true
  | .read .. => False
  | .open .. => False
  | .llseek .. => False

instance (s : Sys) : DecidablePred (Copies s)
  | .write .. => inferInstanceAs (Decidable (∃ p ∈ s.fPos _, ∃ r ∈ Except.toOption _, _))
  | .read .. => isFalse not_false
  | .open .. => isFalse not_false
  | .llseek .. => isFalse not_false

/-- The bytes that a failing write may change: those of the destination of its user copy, of the
blocks it has allocated, and of the null pointers in the list. -/
def Exposed (s s' : ScullDev) (r : Reply) (x : Word) : Prop :=
  (∃ a n, r.range = some (a, n) ∧ InRange a n x) ∨ InNew s s' x ∨ Unset s x

variable {P : Params} {s t : ScullDev} {tree tree' l₁ l₂ : List Item} {it jt : Item} {k : Kernel}
  {buf : ℕ → Byte} {count n : ℕ} {p q : ℤ} {pl : Place} {b : Block} {i j : ℕ} {r : Reply}
  {W : Word → Prop}

/-! ### The search for a quantum that exists -/

/-- The walk to an item of the list. -/
theorem followLoop_old : ∀ {n : ℕ} {l₁ l₂ : List Item} {it : Item}, Rep s (l₁ ++ it :: l₂) →
    (it :: l₂)[n]? = some jt → followLoop n it.block.addr s = .ok (jt.block.addr, s) := by
  intro n
  induction n with
  | zero =>
    intro l₁ l₂ it _ hj
    obtain rfl := Option.some.inj hj
    rfl
  | succ n ih =>
    intro l₁ l₂ it h hj
    have hit := (spine_append.mp h.spine).2.1
    cases l₂ with
    | nil => exact absurd hj (by simp)
    | cons kt l₂ =>
      have h' : Rep s ((l₁ ++ [it]) ++ kt :: l₂) := by simpa using h
      have hnext : word s.mem (it.block.addr + 4) = some kt.block.addr := hit.next
      rw [followLoop, load_eq hnext]
      show (if kt.block.addr = 0 then _ else _) = _
      rw [if_neg h'.addr_ne_zero]
      exact ih h' hj

theorem scullFollow_old (h : Rep s tree) (hi : 0 ≤ pl.item ∧ pl.item < 2 ^ 31)
    (hj : tree[pl.item.toNat]? = some jt) : scullFollow s pl.item = .ok (jt.block.addr, s) := by
  cases tree with
  | nil => exact absurd hj (by simp)
  | cons it rest =>
    have h' : Rep s ([] ++ it :: rest) := h
    have hdata : s.data = it.block.addr := h.data
    have hs : size32 pl.item = pl.item.toNat := by
      have := size32_of_lt hi.1 (by omega : pl.item < 2 ^ 32)
      omega
    unfold scullFollow firstItem
    rw [hdata, if_neg h'.addr_ne_zero]
    show (if it.block.addr = 0 then _ else followLoop (size32 pl.item) it.block.addr s) = _
    rw [if_neg h'.addr_ne_zero, hs]
    exact followLoop_old h' hj

/-- **A quantum that exists** is found, and nothing is made. -/
theorem readFind_old (h : Rep s tree) (hi : 0 ≤ pl.item ∧ pl.item < 2 ^ 31) (hj : 0 ≤ pl.sPos)
    (hb : quantumIn tree pl.item.toNat pl.sPos.toNat = some b) : readFind s pl = .ok (b.addr, s) := by
  obtain ⟨l₁, it, l₂, a, htree, hit, ha, hq⟩ := exists_quantum hb
  have hmem := List.mem_of_getElem? hit
  have hstored : it.Stored s.mem (link l₂ 0) := by
    have hspine := h.spine
    rw [htree] at hspine
    exact (spine_append.mp hspine).2.1
  unfold readFind
  rw [scullFollow_old h hi hit]
  show (if it.block.addr = 0 then _ else _) = _
  rw [if_neg (addr_ne_zero h hmem), load_eq hstored.data, data_eq ha]
  show (if a.block.addr = 0 then _ else _) = _
  rw [if_neg (array_addr_ne_zero h hmem ha), entry_eq hj, load_eq (hstored.entry a ha _ _ hq)]
  rfl

/-! ### What a read returns -/

/-- **A read** returns nothing, or it has found a quantum that exists. -/
theorem read_found (h : Rep s tree) (hfit : s.quantum * s.qset < 2 ^ 31) (hcount : count < 2 ^ 32)
    (hq : 0 ≤ q) (hsize : s.size ≤ 16) (hk : k.taken = true)
    (hr : scullRead k s count q = .ok (r, t)) : (r.retval = 0 ∧ r.fPos = q) ∨
      q < s.size ∧ ∃ (b : Block) (n : ℕ),
        quantumIn tree (spot s q).item.toNat (spot s q).sPos.toNat = some b ∧
          (n : ℤ) = due s (spot s q) count q s.size ∧ readCopy k s n q = .ok (r, t) := by
  by_cases hlt : q < s.size
  swap
  · unfold scullRead at hr
    rw [if_neg (not_not_intro hk), if_pos (not_lt.mp hlt)] at hr
    obtain ⟨rfl, -⟩ := Prod.mk.inj (Except.ok.inj hr)
    exact Or.inl ⟨rfl, rfl⟩
  have hpl : place s.quantum s.qset q = .ok (spot s q) :=
    place_eq h.quantum.1 h.qset.1 hfit hq (by omega)
  obtain ⟨hitem, hs, hqPos⟩ := place_within h.quantum.1 h.qset.1 hfit (by omega) hpl
  have hwithin : Within s (spot s q) := ⟨by omega, fun _ => hs⟩
  have hfind := readFind_tree h hwithin
  rw [scullRead_eq hk hlt hpl] at hr
  obtain ⟨⟨w, u⟩, hw, hr⟩ := bind_eq_ok.mp hr
  rw [hw] at hfind
  obtain ⟨tree', -, hquantum, -⟩ := hfind
  simp only at hr hquantum
  by_cases h0 : w = 0
  · rw [if_pos h0] at hr
    obtain ⟨rfl, -⟩ := Prod.mk.inj (Except.ok.inj hr)
    exact Or.inl ⟨rfl, rfl⟩
  rw [if_neg h0] at hr
  obtain ⟨b, hb, -⟩ := exists_quantumIn h hs (hquantum h0 ▸ h0)
  obtain rfl : s = u :=
    (Prod.mk.inj (Except.ok.inj ((readFind_old h hitem hs.1 hb).symm.trans hw))).2
  exact Or.inr ⟨hlt, b, _, hb, readLen_eq hqPos.2 h.quantum.2 hqPos.1 (by omega) hlt hcount, hr⟩

/-- A read from a quantum that exists. -/
theorem read_old (h : Rep s tree) (hfit : s.quantum * s.qset < 2 ^ 31) (hcount : count < 2 ^ 32)
    (hq : 0 ≤ q ∧ q < s.size) (hsize : s.size ≤ 16) (hk : k.taken = true)
    (hb : quantumIn tree (spot s q).item.toNat (spot s q).sPos.toNat = some b)
    (hn : (n : ℤ) = due s (spot s q) count q s.size) : scullRead k s count q = readCopy k s n q := by
  have hpl : place s.quantum s.qset q = .ok (spot s q) :=
    place_eq h.quantum.1 h.qset.1 hfit hq.1 (by omega)
  obtain ⟨hitem, hs, hqPos⟩ := place_within h.quantum.1 h.qset.1 hfit (by omega) hpl
  have hb0 : b.addr ≠ 0 := (h.sound b (h.mem_live (quantum_block h hb).1)).1
  have hlen := readLen_eq hqPos.2 h.quantum.2 hqPos.1 (by omega) hq.2 hcount
  obtain rfl : readLen s (spot s q) count q = n := by omega
  rw [scullRead_eq hk hq.2 hpl, readFind_old h hitem hs.1 hb]
  exact if_neg hb0

/-- The reply to a read of `n` bytes. -/
def shown (s : ScullDev) (q : ℤ) (n : ℕ) : Reply :=
  ⟨n, q + n, (List.range n).map fun i => (s.mem (copyAddr s q + BitVec.ofNat 32 i)).getD 0,
    some (copyAddr s q, n), viaOut⟩

/-- A copy without a fault returns if the bytes are mapped. -/
theorem readCopy_iff (hfault : ∀ m, ¬ k.faults m) (hn : n ≤ 16) (hq : 0 ≤ q ∧ q ≤ 16) :
    readCopy k s n q = .ok (r, t) ↔ Mapped s.mem (copyAddr s q) n ∧ r = shown s q n ∧ t = s := by
  have hwrap : wrap64 (q + n) = q + n := wrap64_of_lt (by omega) (by omega)
  by_cases hmap : Mapped s.mem (copyAddr s q) n
  · rw [readCopy_full hmap (hfault n) (by omega), hwrap, Except.ok.injEq, Prod.mk.injEq]
    exact ⟨fun ⟨hr, ht⟩ => ⟨hmap, hr.symm, ht.symm⟩, fun ⟨_, hr, ht⟩ => ⟨hr.symm, ht.symm⟩⟩
  · have hmin : (k.fault.getD n).min n = n := Nat.min_eq_right (not_lt.mp (hfault n))
    have hoops : copyToUser s k (copyAddr s q) n = .error .oops := by
      unfold copyToUser
      rw [hmin]
      exact if_neg hmap
    unfold readCopy
    rw [hoops]
    refine ⟨fun hr => ?_, fun ⟨h, _⟩ => absurd h hmap⟩
    obtain ⟨bs, hbs, -⟩ := bind_eq_ok.mp hr
    exact absurd hbs (by simp)

/-- **Whatever can be read** still can be, and is the same where the memory is. -/
theorem sameView (h : Rep s tree) (h' : Rep t tree') (hfit : s.quantum * s.qset < 2 ^ 31)
    (hsize : s.size ≤ 16)
    (hitems : ∀ (i : ℕ) (it : Item), tree[i]? = some it → ∃ it', tree'[i]? = some it' ∧ it.Keeps it')
    (hgeometry : t.quantum = s.quantum ∧ t.qset = s.qset ∧ t.size = s.size)
    (hdata : s.data ≠ 0 → t.data = s.data) (hmapped : ∀ x, (s.mem x).isSome → (t.mem x).isSome)
    (hmem : ∀ x, ¬ W x → t.mem x = s.mem x) : SameView W s t := by
  obtain ⟨hquantum, hqset, hsame⟩ := hgeometry
  intro q count r u hq hr hret
  obtain ⟨hzero, -⟩ | ⟨hlt, b, n, hb, hn, hcopy⟩ :=
    read_found (h.answers []) hfit count.isLt hq hsize rfl hr
  · omega
  have hn16 : n ≤ 16 := by
    unfold due at hn
    simp only at hn hlt
    omega
  have hfault : ∀ m, ¬ (⟨true, [], none⟩ : Kernel).faults m := not_faults rfl
  obtain ⟨hmap, rfl, -⟩ := (readCopy_iff hfault hn16 ⟨hq, by simp only at hlt; omega⟩).mp hcopy
  have hdata' : t.data = s.data := by
    refine hdata fun h0 => ?_
    rw [h.nil_iff.mp h0] at hb
    exact absurd hb (by simp [quantumIn])
  have haddr : copyAddr t q = copyAddr s q := by
    unfold copyAddr
    rw [hdata']
  have hspot : spot t q = spot s q := by
    unfold spot
    rw [hquantum, hqset]
  have hread : scullRead ⟨true, [], none⟩ { t with answers := [] } count.toNat q =
      readCopy ⟨true, [], none⟩ { t with answers := [] } n q := by
    refine read_old (h'.answers []) (by simpa [hquantum, hqset] using hfit) count.isLt
      ⟨hq, hsame ▸ hlt⟩ (by simpa [hsame] using hsize) rfl (b := b) ?_ ?_
    · show quantumIn tree' (spot t q).item.toNat (spot t q).sPos.toNat = some b
      rw [hspot]
      exact quantumIn_of_keeps hitems hb
    · show (n : ℤ) = due { t with answers := [] } (spot t q) count.toNat q t.size
      rw [hspot, hn]
      show due s (spot s q) count.toNat q s.size = due t (spot s q) count.toNat q t.size
      unfold due
      rw [hquantum, hsame]
  have hmap' : Mapped t.mem (copyAddr t q) n := by
    rw [haddr]
    exact hmap.mono_mem hmapped
  refine ⟨shown t q n, { t with answers := [] }, ?_, rfl, rfl, by simp [shown], fun i c hc hw => ?_⟩
  · unfold glance
    rw [hread]
    exact (readCopy_iff hfault hn16 ⟨hq, by simp only at hlt; omega⟩).mpr ⟨hmap', rfl, rfl⟩
  · rw [← hc]
    unfold shown
    rw [List.getElem?_map, List.getElem?_map, haddr]
    by_cases hi : i < n
    · rw [List.getElem?_range hi, Option.map_some, Option.map_some, hmem _ hw]
      rfl
    · rw [List.getElem?_eq_none (by simpa using hi)]
      rfl

/-! ### The calls -/

/-- What becomes of the device and of the position in a read. -/
theorem read_outcome (h : Rep s tree) (hfit : s.quantum * s.qset < 2 ^ 31) (hcount : count < 2 ^ 32)
    (hq : 0 ≤ q) (hsize : s.size ≤ 16) (hr : scullRead k s count q = .ok (r, t)) :
    (r.retval < 0 ∧ t = s ∧ r.fPos = q) ∨ (0 ≤ r.retval ∧ r.fPos = q + r.retval) := by
  by_cases hk : k.taken = true
  swap
  · unfold scullRead at hr
    rw [if_pos hk] at hr
    obtain ⟨rfl, rfl⟩ := Prod.mk.inj (Except.ok.inj hr)
    exact Or.inl ⟨show (-ERESTARTSYS : ℤ) < 0 by decide, rfl, rfl⟩
  obtain ⟨hzero, hpos⟩ | ⟨hlt, b, n, -, hn, hcopy⟩ := read_found h hfit hcount hq hsize hk hr
  · omega
  have hn16 : n ≤ 16 := by
    unfold due at hn
    omega
  have hwrap32 : wrap32 n = n := wrap32_of_lt (by omega) (by omega)
  have hwrap64 : wrap64 (q + n) = q + n := wrap64_of_lt (by omega) (by omega)
  unfold readCopy at hcopy
  obtain ⟨bs, -, hcopy⟩ := bind_eq_ok.mp hcopy
  split_ifs at hcopy
  · obtain ⟨rfl, rfl⟩ := Prod.mk.inj (Except.ok.inj hcopy)
    exact Or.inl ⟨show (-EFAULT : ℤ) < 0 by decide, rfl, rfl⟩
  · obtain ⟨rfl, -⟩ := Prod.mk.inj (Except.ok.inj hcopy)
    refine Or.inr ⟨?_, ?_⟩
    · rw [hwrap32]
      exact Int.natCast_nonneg n
    · rw [hwrap32]
      exact hwrap64

/-- **The semaphore** on every way out of `scull_read`. -/
theorem scullRead_sem (hr : scullRead k s count p = .ok (r, t)) : r.sem = released k := by
  unfold released
  by_cases hk : k.taken = true
  swap
  · unfold scullRead at hr
    rw [if_pos hk] at hr
    obtain ⟨rfl, -⟩ := Prod.mk.inj (Except.ok.inj hr)
    exact (if_neg hk).symm
  rw [if_pos hk]
  by_cases hlt : p < s.size
  swap
  · unfold scullRead at hr
    rw [if_neg (not_not_intro hk), if_pos (not_lt.mp hlt)] at hr
    obtain ⟨rfl, -⟩ := Prod.mk.inj (Except.ok.inj hr)
    rfl
  cases hpl : place s.quantum s.qset p with
  | error e =>
    unfold scullRead at hr
    rw [if_neg (not_not_intro hk), if_neg (not_le.mpr hlt), hpl] at hr
    exact absurd hr (by simp)
  | ok pl =>
    rw [scullRead_eq hk hlt hpl] at hr
    obtain ⟨⟨w, u⟩, -, hr⟩ := bind_eq_ok.mp hr
    simp only at hr
    split_ifs at hr
    · obtain ⟨rfl, -⟩ := Prod.mk.inj (Except.ok.inj hr)
      rfl
    · unfold readCopy at hr
      obtain ⟨bs, -, hr⟩ := bind_eq_ok.mp hr
      split_ifs at hr
      · obtain ⟨rfl, -⟩ := Prod.mk.inj (Except.ok.inj hr)
        rfl
      · obtain ⟨rfl, -⟩ := Prod.mk.inj (Except.ok.inj hr)
        rfl

/-- What a user copy of a write replies. -/
theorem writeCopy_reply (hr : writeCopy k s buf n p = .ok (r, t)) :
    r.range.isSome = true ∧ r.sem = viaOut := by
  unfold writeCopy at hr
  obtain ⟨u, -, hr⟩ := bind_eq_ok.mp hr
  split_ifs at hr
  · obtain ⟨rfl, -⟩ := Prod.mk.inj (Except.ok.inj hr)
    exact ⟨rfl, rfl⟩
  · obtain ⟨rfl, -⟩ := Prod.mk.inj (Except.ok.inj hr)
    exact ⟨rfl, rfl⟩

/-- **The semaphore** on every way out of `scull_write`. -/
theorem scullWrite_sem (hpl : place s.quantum s.qset p = .ok pl)
    (hr : scullWrite k s buf count p = .ok (r, t)) : r.sem = released k := by
  unfold released
  by_cases hk : k.taken = true
  swap
  · unfold scullWrite at hr
    rw [if_pos hk] at hr
    obtain ⟨rfl, -⟩ := Prod.mk.inj (Except.ok.inj hr)
    exact (if_neg hk).symm
  rw [if_pos hk]
  rw [scullWrite_eq hk hpl] at hr
  obtain ⟨⟨w, u⟩, -, hr⟩ := bind_eq_ok.mp hr
  simp only at hr
  split_ifs at hr
  · obtain ⟨rfl, -⟩ := Prod.mk.inj (Except.ok.inj hr)
    rfl
  · exact (writeCopy_reply hr).2

/-- **The search of a write that gives up**, for any place: null is stored only where there was
null. -/
theorem writeFind_null (h : Rep s tree) : Safe (fun _ => True) (writeFind s pl) fun r =>
    r.1 = 0 → ∃ tree', Grows s r.2 tree tree' := by
  unfold writeFind
  refine ((follow_tree h pl.item).weaken fun _ _ => trivial).bind ?_
  rintro ⟨dptr, t⟩ ⟨tree', hr, -⟩
  show Safe _ (if dptr = 0 then _ else _) _
  by_cases h0 : dptr = 0
  · rw [if_pos h0]
    exact fun _ => ⟨tree', hr.grows⟩
  rw [if_neg h0]
  obtain ⟨-, ⟨it, hit, rfl⟩, -⟩ := hr.found h0
  obtain ⟨l₁, l₂, htree, -⟩ := exists_split hit
  refine ((itemData_tree (htree ▸ hr.grows.rep)).weaken fun _ _ => trivial).bind ?_
  rintro ⟨data, t₂⟩ ⟨it', hfills, -⟩
  have hgrows : Grows s t₂ tree (l₁ ++ it' :: l₂) := hr.grows.trans (htree ▸ hfills.grows)
  show Safe _ (if data = 0 then _ else _) _
  by_cases hd : data = 0
  · rw [if_pos hd]
    exact fun _ => ⟨_, hgrows⟩
  rw [if_neg hd]
  cases hw : word t₂.mem (entry data pl.sPos) with
  | none =>
    unfold entryQuantum ScullDev.load
    rw [hw]
    trivial
  | some w =>
    refine (entryQuantum_rule hw (fun hne h0 => absurd h0 hne) (fun _ rest hans _ => ?_)
      fun _ c rest _ hfresh h0 => absurd h0 hfresh.1).weaken fun _ _ => trivial
    exact ⟨_, hgrows.trans (hgrows.rep.fail hans)⟩

/-- **A write that does not come to its user copy** has only made the list longer. -/
theorem write_gaveUp (h : Rep s tree) (hpl : place s.quantum s.qset p = .ok pl)
    (hr : scullWrite k s buf count p = .ok (r, t)) (hrange : ¬ r.range.isSome = true) :
    (∃ tree', Grows s t tree tree') ∧ r.fPos = p := by
  by_cases hk : k.taken = true
  swap
  · unfold scullWrite at hr
    rw [if_pos hk] at hr
    obtain ⟨rfl, rfl⟩ := Prod.mk.inj (Except.ok.inj hr)
    exact ⟨⟨tree, Grows.refl h⟩, rfl⟩
  rw [scullWrite_eq hk hpl] at hr
  obtain ⟨⟨w, u⟩, hw, hr⟩ := bind_eq_ok.mp hr
  have hnull : Safe _ (writeFind s pl) _ := writeFind_null h
  rw [hw] at hnull
  simp only at hr hnull
  split_ifs at hr with h0
  · obtain ⟨rfl, rfl⟩ := Prod.mk.inj (Except.ok.inj hr)
    exact ⟨hnull h0, rfl⟩
  · exact absurd (writeCopy_reply hr).1 hrange

/-- A list that has grown cannot be told from what it was. -/
theorem unseen_of_grows (h : Rep s tree) (hfit : s.quantum * s.qset < 2 ^ 31) (hsize : s.size ≤ 16)
    (hgrows : Grows s t tree tree') (hpos : r.fPos = p) : Unseen (Exposed s t r) s p r t := by
  refine ⟨hgrows.size, hpos, sameView h hgrows.rep hfit hsize hgrows.items
    ⟨hgrows.quantum, hgrows.qset, hgrows.size⟩ hgrows.data hgrows.mapped fun x hx => ?_⟩
  exact unchanged_of_grows hgrows h (fun hnew => hx (.inr (.inl hnew)))
    fun hunset => hx (.inr (.inr hunset))

/-- **A write that fails** has changed no byte but those exposed. -/
theorem write_fails (h : Rep s tree) (hfit : s.quantum * s.qset < 2 ^ 31) (hsize : s.size ≤ 16)
    (hw : Written k s tree pl count p (r, t)) (hret : r.retval < 0) :
    Unseen (Exposed s t r) s p r t := by
  cases hw with
  | gaveUp negative grows => exact unseen_of_grows h hfit hsize grows rfl
  | faulted grows home length free fault =>
    refine ⟨grows.size, rfl, sameView h (grows.rep.write_off free) hfit hsize grows.items
      ⟨grows.quantum, grows.qset, grows.size⟩ grows.data (fun x hx => isSome_fill (grows.mapped x hx))
      fun x hx => ?_⟩
    refine (fill_of_not_mem fun hin => hx (.inl ⟨_, _, rfl, hin⟩)).trans ?_
    exact unchanged_of_grows grows h (fun hnew => hx (.inr (.inl hnew)))
      fun hunset => hx (.inr (.inr hunset))
  | took grows length free size_eq =>
    simp only at hret
    omega

/-! ### Runs -/

/-- **The invariant**, in the runs whose writes keep off the list: no position is negative. -/
def Placed (P : Params) (s : Sys) : Prop := Small P s ∧ ∀ f p, s.fPos f = some p → 0 ≤ p

variable {σ σ' : Sys} {act : Act}

theorem placed_start (hP : Params.Ok P) (mem : Mem) : Placed P (start P mem) :=
  ⟨small_start hP mem, fun _ _ hf => absurd hf (by simp [start])⟩

theorem pos_update (h : ∀ f p, σ.fPos f = some p → 0 ≤ p) {f : File} {v : ℤ} (hv : 0 ≤ v) :
    ∀ g q, Function.update σ.fPos f (some v) g = some q → 0 ≤ q := by
  intro g q hq
  by_cases hg : g = f
  · rw [hg, Function.update_self] at hq
    exact Option.some.inj hq ▸ hv
  · rw [Function.update_of_ne hg] at hq
    exact h g q hq

/-- The position after a write. -/
theorem written_pos {r : Reply × ScullDev} (hw : Written k s tree pl count p r) (hp : 0 ≤ p) :
    0 ≤ r.1.fPos := by
  cases hw with
  | gaveUp negative grows => exact hp
  | faulted grows home length free fault => exact hp
  | took grows length free size_eq => exact add_nonneg hp (Int.natCast_nonneg _)

theorem scullLlseek_nonneg (hp : 0 ≤ p) (off whence : ℤ) : 0 ≤ (scullLlseek s p off whence).2 := by
  unfold scullLlseek
  simp only
  split
  · exact hp
  · split_ifs with hneg
    · exact hp
    · exact not_lt.mp hneg

/-- The outcome of a call, if it has returned. -/
theorem of_conclude_ok {α : Type} {τ τ' : Sys} {o : Except Stop α} {f : α → Sys}
    (h : conclude τ o f = some τ') : (∃ v, o = .ok v ∧ τ' = f v) ∨ τ'.fPos = τ.fPos := by
  unfold conclude at h
  split at h
  · next v => exact Or.inl ⟨v, rfl, (Option.some.inj h).symm⟩
  · exact absurd h (by simp)
  · rw [← Option.some.inj h]
    exact Or.inr rfl

/-- The write of a call that keeps off the list. -/
theorem written_of_off (hP : Params.Ok P) (h : Small P σ) (halive : σ.crashed = false) {f : File}
    {count : BitVec 32} (hoff : WriteOff σ (.write f buf count k)) (hf : σ.fPos f = some p) :
    ∃ tree pl, Rep (before σ k) tree ∧ Safe (fun _ => True)
      (scullWrite k (before σ k) buf count.toNat p)
      (Written k (before σ k) tree pl count.toNat p) := by
  obtain ⟨⟨tree, htree⟩, -⟩ := h.1 halive
  obtain ⟨pl, hpl⟩ := h.1.place hP halive p
  exact ⟨tree, pl, htree.answers k.answers, write_written (htree.answers k.answers)
    (h.1.fits hP halive) hpl count.isLt fun hk => hoff hk p hf pl (by rw [hpl]; rfl)⟩

theorem placed_step (hP : Params.Ok P) (h : Placed P σ) (hoff : WriteOff σ act)
    (hstep : step P σ act = some σ') : Placed P σ' := by
  refine ⟨small_step hP h.1 hoff hstep, ?_⟩
  obtain ⟨hsmall, hpos⟩ := h
  cases act with
  | «open» f fFlags k =>
    obtain ⟨-, -, hstep⟩ := step_open hstep
    rcases of_conclude_ok hstep with ⟨r, -, rfl⟩ | hsame
    · by_cases h0 : r.1 = 0
      · rw [if_pos h0]
        exact pos_update hpos le_rfl
      · rw [if_neg h0]
        exact hpos
    · exact hsame ▸ hpos
  | read f count k =>
    obtain ⟨halive, p, hf, hstep⟩ := step_read hstep
    obtain ⟨⟨tree, htree⟩, -⟩ := hsmall.1 halive
    have hp := hpos f p hf
    rcases of_conclude_ok hstep with ⟨r, hr, rfl⟩ | hsame
    · have hread := read_outcome (htree.answers k.answers) (hsmall.1.fits hP halive) count.isLt hp
        (hsmall.2 halive) hr
      exact pos_update hpos (by omega)
    · exact hsame ▸ hpos
  | write f buf count k =>
    obtain ⟨halive, p, hf, hstep⟩ := step_write hstep
    obtain ⟨tree, pl, -, hwritten⟩ := written_of_off hP hsmall halive hoff hf
    rcases of_conclude_ok hstep with ⟨r, hr, rfl⟩ | hsame
    · rw [hr] at hwritten
      exact pos_update hpos (written_pos hwritten (hpos f p hf))
    · exact hsame ▸ hpos
  | llseek f off whence =>
    obtain ⟨-, p, hf, rfl⟩ := step_llseek hstep
    exact pos_update hpos (scullLlseek_nonneg (hpos f p hf) _ _)

/-- **A call that fails** in such a state. -/
theorem failsQuietly_of_placed (hP : Params.Ok P) (h : Placed P σ) (halive : σ.crashed = false)
    (hoff : Copies σ act → WriteOff σ act) : FailsQuietly Exposed σ act := by
  obtain ⟨hsmall, hpos⟩ := h
  obtain ⟨⟨tree, htree⟩, -⟩ := hsmall.1 halive
  cases act with
  | read f count k =>
    intro p hp r t hr hret
    have hread := read_outcome (htree.answers k.answers) (hsmall.1.fits hP halive) count.isLt
      (hpos f p hp) (hsmall.2 halive) hr
    obtain ⟨-, hsame, hfPos⟩ | ⟨hret', -⟩ := hread
    · exact ⟨hsame, hfPos, scullRead_sem hr⟩
    · omega
  | write f buf count k =>
    intro p hp r t hr hret
    obtain ⟨pl, hpl⟩ := hsmall.1.place hP halive p
    refine ⟨?_, scullWrite_sem (s := before σ k) hpl hr⟩
    by_cases hrange : r.range.isSome = true
    · have hcopies : Copies σ (.write f buf count k) :=
        ⟨p, hp, (r, t), toOption_eq_some.mpr hr, hrange⟩
      obtain ⟨tree, pl, htree, hwritten⟩ := written_of_off hP hsmall halive (hoff hcopies) hp
      rw [hr] at hwritten
      exact write_fails htree (hsmall.1.fits hP halive) (hsmall.2 halive) hwritten hret
    · obtain ⟨⟨tree', hgrows⟩, hfPos⟩ := write_gaveUp (htree.answers k.answers) hpl hr hrange
      exact unseen_of_grows (htree.answers k.answers) (hsmall.1.fits hP halive) (hsmall.2 halive)
        hgrows hfPos
  | «open» f fFlags k => trivial
  | llseek f off whence => trivial

/-- **Calls fail quietly** in the states that writes lead to which keep off the list, but for the
bytes exposed. A write that fails has to keep off the list itself only if it comes to its user
copy. -/
theorem fails_quietly (hP : Params.Ok P) (mem : Mem) {acts : List Act}
    (h : Meets (step P) WriteOff (start P mem) acts)
    (hrun : run (step P) (start P mem) acts = some σ) (halive : σ.crashed = false)
    (hoff : Copies σ act → WriteOff σ act) : FailsQuietly Exposed σ act := by
  have hplaced : Always (step P) (Placed P) (start P mem) acts :=
    always_of_meets (fun _ _ _ hs hoff hstep => placed_step hP hs hoff hstep) (placed_start hP mem) h
  exact failsQuietly_of_placed hP (hplaced.last hrun) halive hoff

/-- A byte is written at offset 1, and a second file is moved to offset 40. -/
def oneByte : List Act :=
  [.open 0 2 threeChunks, .llseek 0 1 0, .write 0 letters 1 threeChunks, .llseek 0 1 0,
    .open 1 2 threeChunks, .llseek 1 40 0]

theorem isSome_oneByte :
    (run (step smallDevice) (start smallDevice fun _ => some 0) oneByte).isSome = true := by
  decide +kernel

def afterOneByte : Sys :=
  (run (step smallDevice) (start smallDevice fun _ => some 0) oneByte).get isSome_oneByte

/-- A write at offset 1 that faults at once. -/
def faultingWrite : Act := .write 0 letters 1 ⟨true, [], some 0⟩

/-- A write at offset 40, for which there is no memory. -/
def refusedWrite : Act := .write 1 letters 1 ⟨true, [none], none⟩

theorem fails_quietly_afterOneByte :
    FailsQuietly Exposed afterOneByte faultingWrite ∧
      FailsQuietly Exposed afterOneByte refusedWrite := by
  have hmeets : Meets (step smallDevice) WriteOff (start smallDevice fun _ => some 0) oneByte := by
    decide +kernel
  have hrun := (Option.some_get isSome_oneByte).symm
  exact ⟨fails_quietly ⟨by decide, by decide, by decide⟩ _ hmeets hrun (by decide +kernel)
      (by decide +kernel),
    fails_quietly ⟨by decide, by decide, by decide⟩ _ hmeets hrun (by decide +kernel)
      (by decide +kernel)⟩

/-- The number that a call returns, and the byte. -/
def answered (o : Except Stop (Reply × ScullDev)) : Option (ℤ × List Byte) :=
  o.toOption.map fun r => (r.1.retval, r.1.bytes)

/-- What a write at offset 1 returns that faults at once, and what is read there then. -/
def afterFault (s : Sys) : Option (ℤ × Option (ℤ × List Byte)) :=
  (scullWrite ⟨true, [], some 0⟩ (before s ⟨true, [], some 0⟩) letters 1 1).toOption.map
    fun r => (r.1.retval, answered (glance r.2 1 1))

/-- The byte at offset 1, the letter A, reads as 0 after the write that has failed. -/
theorem not_fails_quietly : run (step smallDevice) (start smallDevice fun _ => some 0) oneByte =
      some afterOneByte ∧ afterOneByte.crashed = false ∧
    ¬ FailsQuietly (fun _ _ _ _ => False) afterOneByte faultingWrite := by
  refine ⟨(Option.some_get isSome_oneByte).symm, by decide +kernel, fun hquiet => ?_⟩
  have hf : afterOneByte.fPos 0 = some 1 := by decide +kernel
  have hbefore : answered (glance (before afterOneByte ⟨true, [], some 0⟩) 1 1) = some (1, [65]) := by
    decide +kernel
  have hafter : afterFault afterOneByte = some (-14, some (1, [0])) := by decide +kernel
  obtain ⟨r, hwrite, hval⟩ := Option.map_eq_some_iff.mp hafter
  obtain ⟨hret, hread⟩ := Prod.mk.inj hval
  obtain ⟨r₁, hglance, hval⟩ := Option.map_eq_some_iff.mp hbefore
  obtain ⟨hret₁, hbytes₁⟩ := Prod.mk.inj hval
  have hfailed : r.1.retval < 0 := by omega
  have hone : 0 < r₁.1.retval := by omega
  obtain ⟨⟨-, -, hview⟩, -⟩ := hquiet 1 hf r.1 r.2 (toOption_eq_some.mp hwrite) hfailed
  obtain ⟨r', t', hr', -, -, -, hsame⟩ :=
    hview 1 1 r₁.1 r₁.2 (by decide) (toOption_eq_some.mp hglance) hone
  have hb : r'.bytes[0]? = some 65 := hsame 0 65 (by rw [hbytes₁]; rfl) not_false
  rw [show glance r.2 1 1 = .ok (r', t') from hr'] at hread
  have hbytes : r'.bytes = [0] := (Prod.mk.inj (Option.some.inj hread)).2
  rw [hbytes] at hb
  exact absurd hb (by decide)

end LinuxHomework.Scull.Failure
