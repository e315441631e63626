import LinuxHomework.Scull.Inside

/-! # What a read reveals

Two executions make the same calls on an empty device; `kmalloc` hands out other addresses and other
memory in the second one. The lists have the same shape in both (`Twin`), so a call finds and makes
the same, but the bytes that a read returns come from behind the first item: the bytes of the item
itself, the bytes placed there by a write, or those that were in memory before.

* `reads_alike`: in the runs whose reads take only bytes that a write has placed there, both
  executions get the same from every read.
* `not_reads_alike`: a read at offset 0 returns the first byte of the pointer to the array. -/

namespace LinuxHomework.Scull.Reveal

open LinuxHomework.Lib.CInt LinuxHomework.Lib.Memory LinuxHomework.Lib.Outcome
open LinuxHomework.Lib.Runs LinuxHomework.Scull.Device LinuxHomework.Scull.Layout
open LinuxHomework.Scull.Calls LinuxHomework.Scull.Store LinuxHomework.Scull.Tree
open LinuxHomework.Scull.Copy LinuxHomework.Scull.Trim LinuxHomework.Scull.Inside

variable {s t : ScullDev} {tree tree' : List Item} {x : Word} {k : Kernel} {buf : ℕ → Byte}
  {count : ℕ} {p : ℤ} {pl : Place} {i j : ℕ}

/-! ### One execution -/

/-- The shape has a quantum in the entry `j` of the item with the number `i`. -/
def mark (sh : Shape) (i j : ℕ) : Bool := ((sh[i]?.join).bind fun l => l[j]?).getD false

theorem mark_eq : mark (shape tree) i j = (quantumIn tree i j).isSome := by
  unfold mark quantumIn shape
  rw [List.getElem?_map]
  cases tree[i]? with
  | none => rfl
  | some it =>
    simp only [Option.map_some, Option.join_some, Option.bind_some]
    cases it.array with
    | none => rfl
    | some a =>
      simp only [Option.map_some, Option.bind_some, List.getElem?_map]
      cases a.quanta[j]? with
      | none => rfl
      | some q => rfl

/-- No item and no array lies in the zone behind the first item. -/
theorem zone_untouched (h : Grows s t tree tree') (hroom : Room t.data s) (hx : Touched tree' x) :
    ¬ InRange (t.data + 8) 113 x := by
  have hrep := h.rep
  have hapart : ∀ b ∈ t.live, b.addr ≠ t.data → Apart (t.data + 8) 113 b.addr b.size := by
    intro b hb hne
    rcases h.live b hb with hb | ⟨c, hc, rfl⟩
    · exact hroom.live b hb hne
    · exact hroom.answers c hc hne
  obtain ⟨it, hit, hx⟩ := hx
  obtain ⟨l₁, l₂, rfl⟩ := List.append_of_mem hit
  have hqset := hrep.qset
  have hsize := hrep.sized it hit
  rcases hx with hx | ⟨a, ha, hx⟩
  · by_cases hfirst : it.block.addr = t.data
    · rw [hfirst] at hx
      unfold InRange at hx ⊢
      bv_omega
    · have hb : it.block ∈ t.live := hrep.mem_live (by simp [Item.blocks])
      exact fun hz => (hapart _ hb hfirst).not_mem hz (inRange_mono hx hsize.item)
  · obtain ⟨hlen, hsz, -⟩ := hsize.array a ha
    rw [Option.mem_def] at ha
    have hb : a.block ∈ t.live := hrep.mem_live (by simp [Item.blocks, ha])
    refine fun hz => (hapart _ hb fun hfirst => ?_).not_mem hz (inRange_mono hx (by omega))
    -- the first item is not an array
    have hin : InRange a.block.addr (4 * a.quanta.length) t.data := by
      unfold InRange
      rw [hfirst]
      simp
      omega
    cases l₁ with
    | nil =>
      refine hrep.array_off ha ?_ hin
      rw [hrep.data]
      unfold InRange link
      simp
    | cons jt l₁ =>
      have hrep' : Rep t ([] ++ jt :: (l₁ ++ it :: l₂)) := hrep
      have hj := (hrep.sized jt (by simp)).item
      refine hrep'.off_others (x := t.data) ⟨it, by simp, Or.inr ⟨a, ha, hin⟩⟩
        (b := jt.block) (by simp [Item.blocks]) ?_
      rw [hrep.data]
      unfold InRange link
      simp
      omega

/-- The 121 bytes from the first item on are still mapped. -/
theorem first_mapped {r : Word × ScullDev} (h : Finds s tree pl r tree') (hroom : RoomFor s)
    (h0 : r.1 ≠ 0) : Mapped r.2.mem r.2.data 121 :=
  (hroom _ (h.home (h.data_ne_zero h0))).1.mono_mem h.grows.mapped

/-- The number of bytes that a read returns. -/
def readCount (sh : Shape) (s : ScullDev) (pl : Place) (count : ℕ) (p : ℤ) : ℕ :=
  if mark sh pl.item.toNat pl.sPos.toNat then (due s pl count p s.size).toNat else 0

/-- **What a read comes to**, told from the shape of the list. -/
structure ReadShows (s : ScullDev) (sh : Shape) (pl : Place) (count : ℕ) (p : ℤ)
    (r : Reply × ScullDev) : Prop where
  list : ∃ tree', Rep r.2 tree' ∧ shape tree' = extended sh pl.item.toNat
  size : r.2.size = s.size
  retval : r.1.retval = readCount sh s pl count p
  fPos : r.1.fPos = p + readCount sh s pl count p
  bytes : r.1.bytes.length = readCount sh s pl count p

theorem read_shows (h : Rep s tree) (hroom : RoomFor s) (hfit : s.quantum * s.qset < 2 ^ 31)
    (hpl : place s.quantum s.qset p = .ok pl) (hk : k.taken = true) (hfault : k.fault = none)
    (hnone : none ∉ s.answers) (hp : 0 ≤ p ∧ p < s.size) (hsize : s.size ≤ 16)
    (hcount : count < 2 ^ 32) :
    Safe Unanswered (scullRead k s count p) (ReadShows s (shape tree) pl count p) := by
  obtain ⟨hitem, hs, hq⟩ := place_within h.quantum.1 h.qset.1 hfit (by omega) hpl
  have hdue := readLen_eq hq.2 h.quantum.2 hq.1 (by omega) hp.2 hcount
  rw [scullRead_eq hk hp.2 hpl]
  refine (readFind_tree h ⟨by omega, fun _ => hs⟩).bind ?_
  rintro ⟨w, t⟩ ⟨tree', hfinds, -, hshape⟩
  obtain ⟨hshape, hw⟩ := hshape hnone
  have hlist : ∃ tree', Rep t tree' ∧ shape tree' = extended (shape tree) pl.item.toNat :=
    ⟨tree', hfinds.grows.rep, hshape⟩
  have hquantum : t.quantum = s.quantum := hfinds.grows.quantum
  have htsize : t.size = s.size := hfinds.grows.size
  show Safe _ (if w = 0 then _ else _) _
  by_cases h0 : w = 0
  · rw [if_pos h0]
    have hnull : readCount (shape tree) s pl count p = 0 := by
      refine if_neg ?_
      rw [mark_eq]
      cases hin : quantumIn tree pl.item.toNat pl.sPos.toNat with
      | none => simp
      | some b =>
        have hb := (quantum_block h hin).1
        simp only [hin] at hw
        exact absurd (hw.symm.trans h0) (h.sound b (h.mem_live hb)).1
    exact ⟨hlist, htsize, by rw [hnull]; rfl, by rw [hnull]; simp, by rw [hnull]; rfl⟩
  · rw [if_neg h0]
    have hmark : mark (shape tree) pl.item.toNat pl.sPos.toNat = true := by
      rw [mark_eq]
      cases hin : quantumIn tree pl.item.toNat pl.sPos.toNat with
      | none =>
        simp only [hin] at hw
        exact absurd hw h0
      | some b => rfl
    have hn : readLen { s with quantum := t.quantum } pl count p =
        readCount (shape tree) s pl count p := by
      unfold readCount
      rw [if_pos hmark, ← hdue, hquantum, Int.toNat_natCast]
    have hbound : p + readCount (shape tree) s pl count p ≤ s.size := by
      unfold readCount due
      rw [if_pos hmark]
      omega
    have hmap : Mapped t.mem (copyAddr t p) (readCount (shape tree) s pl count p) :=
      copy_mapped (first_mapped hfinds hroom h0) (by omega) (by omega) (by omega)
    show Safe _ (readCopy k t (readLen _ _ _ _) p) _
    rw [hn, readCopy_full hmap (not_faults hfault _) (by omega)]
    refine ⟨hlist, htsize, rfl, wrap64_of_lt (by omega) (by omega), ?_⟩
    simp

/-- **What a write comes to**. -/
structure WriteShows (s : ScullDev) (sh : Shape) (pl : Place) (buf : ℕ → Byte) (n : ℕ) (p : ℤ)
    (r : Reply × ScullDev) : Prop where
  list : ∃ tree', Rep r.2 tree' ∧
    shape tree' = marked s.qset.toNat sh pl.item.toNat pl.sPos.toNat
  size : r.2.size = if (s.size : ℤ) < p + n then size32 (p + n) else s.size
  retval : r.1.retval = n
  fPos : r.1.fPos = p + n
  bytes : r.1.bytes = (List.range n).map buf

theorem write_shows (h : Rep s tree) (hroom : RoomFor s) (hfit : s.quantum * s.qset < 2 ^ 31)
    (hpl : place s.quantum s.qset p = .ok pl) (hk : k.taken = true) (hfault : k.fault = none)
    (hnone : none ∉ s.answers) (hp : 0 ≤ p ∧ p ≤ SCULL_DATA_SIZE) (hp0 : p = 0 → count = 0)
    (hcount : count < 2 ^ 32) : Safe Unanswered (scullWrite k s buf count p)
      (WriteShows s (shape tree) pl buf (due s pl count p SCULL_DATA_SIZE).toNat p) := by
  have hp16 : p ≤ 16 := hp.2
  obtain ⟨hitem, hs, hq⟩ := place_within h.quantum.1 h.qset.1 hfit (by omega) hpl
  have hdue := writeLen_eq hq.2 h.quantum.2 hq.1 hp hcount
  rw [scullWrite_eq hk hpl]
  refine (writeFind_tree h ⟨by omega, fun _ => hs⟩).bind ?_
  rintro ⟨w, t⟩ ⟨tree', hfinds, -, hshape⟩
  obtain ⟨h0, hshape⟩ := hshape hnone
  have hquantum : t.quantum = s.quantum := hfinds.grows.quantum
  have htsize : t.size = s.size := hfinds.grows.size
  show Safe _ (if w = 0 then _ else _) _
  rw [if_neg h0]
  obtain ⟨n, hn⟩ : ∃ n, (due s pl count p SCULL_DATA_SIZE).toNat = n := ⟨_, rfl⟩
  have hlen : writeLen t pl count p = n := by
    rw [← hn, ← hdue, Int.toNat_natCast]
    unfold writeLen
    rw [hquantum]
  have hbound : p + n ≤ 16 ∧ (p = 0 → n = 0) := by
    unfold due SCULL_DATA_SIZE at hn
    omega
  have hmap : Mapped t.mem (copyAddr t p) n :=
    copy_mapped (first_mapped hfinds hroom h0) (by omega) (by omega) (by omega)
  have hroom' : Room t.data s := (hroom _ (hfinds.home (hfinds.data_ne_zero h0))).2
  have hrep := hfinds.grows.rep.write_off (f := buf) (w := copyAddr t p) (n := n) fun x hx hx' => by
    refine zone_untouched hfinds.grows hroom' hx' ?_
    by_cases hz : n = 0
    · unfold InRange at hx
      omega
    · exact copy_zone ⟨by omega, hbound.1⟩ hx
  have hwrap : wrap64 (p + n) = p + n := wrap64_of_lt (by omega) (by omega)
  show Safe _ (writeCopy k t buf (writeLen _ _ _ _) p) _
  rw [hlen, writeCopy_full hmap (not_faults hfault _) (by omega), hwrap, hn]
  refine ⟨⟨tree', ?_, hshape⟩, ?_, rfl, rfl, rfl⟩
  · exact hrep.congr rfl rfl rfl rfl (fun _ _ => rfl) fun _ hx => hx
  · show (if (t.size : ℤ) < _ then _ else _) = _
    rw [htsize]

/-! ### Two executions -/

/-- A call, without the answers of the kernel. -/
inductive Call
  | open (f : File) (fFlags : ℕ)
  | read (f : File) (count : BitVec 32)
  | write (f : File) (buf : ℕ → Byte) (count : BitVec 32)
  | llseek (f : File) (off : BitVec 64) (whence : ℤ)

/-- A call in two executions. It gets the semaphore in both or in none, and every `kmalloc`
succeeds, with the chunks of one list in the first execution and those of another in the second. -/
structure Pair where
  call : Call
  taken : Bool
  chunks : List Chunk
  chunks' : List Chunk

/-- The kernel in an execution in which every `kmalloc` and every user copy succeeds. -/
def kernel (taken : Bool) (chunks : List Chunk) : Kernel := ⟨taken, chunks.map some, none⟩

def Call.act (k : Kernel) : Call → Act
  | .open f fFlags => .open f fFlags k
  | .read f count => .read f count k
  | .write f buf count => .write f buf count k
  | .llseek f off whence => .llseek f off whence

/-- One call in both executions. -/
def twice (P : Params) (σ : Sys × Sys) (a : Pair) : Option (Sys × Sys) := do
  let s ← step P σ.1 (a.call.act (kernel a.taken a.chunks))
  let t ← step P σ.2 (a.call.act (kernel a.taken a.chunks'))
  return (s, t)

/-- What the caller of a read gets to see. -/
def shown (r : Except Stop (Reply × ScullDev)) : Except Stop (ℤ × ℤ × List Byte) :=
  r.map fun r => (r.1.retval, r.1.fPos, r.1.bytes)

/-- **A read shows the same** in both executions. -/
def ReadsAlike (σ : Sys × Sys) (a : Pair) : Prop :=
  match a.call with
  | .read f count => ∀ p ∈ σ.1.fPos f, ∀ p' ∈ σ.2.fPos f,
      shown (scullRead (kernel a.taken a.chunks) (before σ.1 (kernel a.taken a.chunks))
        count.toNat p) =
      shown (scullRead (kernel a.taken a.chunks') (before σ.2 (kernel a.taken a.chunks'))
        count.toNat p')
  | _ => True

/-- If the position has a quantum, every byte due to a read was put there by a write. -/
def Written (σ : Sys) (k : Kernel) (count : ℕ) (p : ℤ) : Prop :=
  ∀ pl ∈ (place σ.dev.quantum σ.dev.qset p).toOption, quantumOf (before σ k) pl ≠ 0 →
    ∀ i < count, (i : ℤ) < due σ.dev pl count p σ.dev.size → (lastIn σ.writes (8 * p + i)).isSome

instance (σ : Sys) (k : Kernel) (count : ℕ) (p : ℤ) : Decidable (Written σ k count p) :=
  inferInstanceAs (Decidable (∀ pl ∈ Except.toOption _, _ → ∀ i < count, _ → _))

/-- The condition on a call. There is room behind the first item in both executions. A write begins
behind offset 0, at most at offset 16, and a read takes bytes that were written. -/
def RevealOk (σ : Sys × Sys) (a : Pair) : Prop :=
  match a.call with
  | .read f count => a.taken = true → ∀ p ∈ σ.1.fPos f, p < σ.1.dev.size →
      RoomFor (before σ.1 (kernel a.taken a.chunks)) ∧
        RoomFor (before σ.2 (kernel a.taken a.chunks')) ∧
          Written σ.1 (kernel a.taken a.chunks) count.toNat p
  | .write f _ count => a.taken = true → ∀ p ∈ σ.1.fPos f,
      RoomFor (before σ.1 (kernel a.taken a.chunks)) ∧
        RoomFor (before σ.2 (kernel a.taken a.chunks')) ∧
          p ≤ SCULL_DATA_SIZE ∧ (p = 0 → count.toNat = 0)
  | .open .. => True
  | .llseek .. => True

instance (σ : Sys × Sys) : DecidablePred (RevealOk σ)
  | ⟨.read .., _, _, _⟩ => inferInstanceAs (Decidable (_ → ∀ p ∈ σ.1.fPos _, _ → _ ∧ _ ∧ _))
  | ⟨.write .., _, _, _⟩ => inferInstanceAs (Decidable (_ → ∀ p ∈ σ.1.fPos _, _ ∧ _ ∧ _ ∧ (_ → _)))
  | ⟨.open .., _, _, _⟩ => isTrue trivial
  | ⟨.llseek .., _, _, _⟩ => isTrue trivial

/-- **The invariant of two executions.** -/
structure Twin (P : Params) (σ : Sys × Sys) : Prop where
  left : Store.Inv P { σ.1 with got := none }
  right : Store.Inv P { σ.2 with got := none }
  trees : ∃ tree tree', Rep σ.1.dev tree ∧ Rep σ.2.dev tree' ∧ shape tree = shape tree'
  size : σ.1.dev.size = σ.2.dev.size
  fPos : σ.1.fPos = σ.2.fPos
  writes : σ.1.writes = σ.2.writes

variable {P : Params} {σ τ : Sys × Sys} {a : Pair}

theorem rep_start (hP : Params.Ok P) (mem : Mem) : Rep (start P mem).dev [] := by
  obtain ⟨⟨tree, htree⟩, -⟩ := built_start hP mem rfl
  have hnil := htree.nil_iff.mp rfl
  exact hnil ▸ htree

theorem twin_start (hP : Params.Ok P) (mem mem' : Mem) :
    Twin P (start P mem, start P mem') :=
  ⟨Store.inv_start hP mem, Store.inv_start hP mem', ⟨[], [], rep_start hP mem, rep_start hP mem', rfl⟩,
    rfl, rfl, rfl⟩

/-- Both executions make the call. -/
theorem twice_eq (h : twice P σ a = some τ) :
    step P σ.1 (a.call.act (kernel a.taken a.chunks)) = some τ.1 ∧
      step P σ.2 (a.call.act (kernel a.taken a.chunks')) = some τ.2 := by
  unfold twice at h
  obtain ⟨s, hs, h⟩ := Option.bind_eq_some_iff.mp h
  obtain ⟨t, ht, h⟩ := Option.bind_eq_some_iff.mp h
  obtain rfl := Option.some.inj h
  exact ⟨hs, ht⟩

theorem none_not_mem {taken : Bool} {chunks : List Chunk} : none ∉ (kernel taken chunks).answers := by
  unfold kernel
  simp

/-! ### One call in one execution -/

/-- What an execution shows after a call: positions, accepted writes, size and shape. -/
structure Shows (u : Sys) (fPos : File → Option ℤ) (writes : List Write) (size : ℕ) (sh : Shape) :
    Prop where
  fPos : u.fPos = fPos
  writes : u.writes = writes
  size : u.dev.size = size
  tree : ∃ tree, Rep u.dev tree ∧ shape tree = sh

theorem twin_of_shows {fPos : File → Option ℤ} {writes : List Write} {size : ℕ} {sh : Shape}
    (hl : Store.Inv P { τ.1 with got := none }) (hr : Store.Inv P { τ.2 with got := none })
    (h₁ : Shows τ.1 fPos writes size sh) (h₂ : Shows τ.2 fPos writes size sh) : Twin P τ := by
  obtain ⟨tree, htree, hsh⟩ := h₁.tree
  obtain ⟨tree', htree', hsh'⟩ := h₂.tree
  exact ⟨hl, hr, ⟨tree, tree', htree, htree', hsh.trans hsh'.symm⟩, h₁.size.trans h₂.size.symm,
    h₁.fPos.trans h₂.fPos.symm, h₁.writes.trans h₂.writes.symm⟩

section Once
variable {u v : Sys} {f : File} {fFlags : ℕ} {n : BitVec 32} {off : BitVec 64} {whence : ℤ}

theorem open_trims (hP : Params.Ok P) (h : Rep u.dev tree) (hw : fFlags &&& O_ACCMODE = O_WRONLY)
    (hk : k.taken = true) (hstep : step P u (.open f fFlags k) = some v) :
    Shows v (Function.update u.fPos f (some 0)) [] 0 [] := by
  obtain ⟨-, -, hstep⟩ := step_open hstep
  obtain ⟨s', hs', htrim, hrep, -⟩ := trim_tree (h.answers k.answers) (quantum_lt hP) hP.qset
  unfold scullOpen at hstep
  rw [if_pos hw, if_pos hk, show scullTrim P (before u k) = .ok s' from hs'] at hstep
  obtain rfl := Option.some.inj hstep
  simp only [hw, if_true]
  exact ⟨rfl, rfl, htrim.size, [], hrep, rfl⟩

theorem open_interrupted (h : Rep u.dev tree) (hw : fFlags &&& O_ACCMODE = O_WRONLY)
    (hk : k.taken = false) (hstep : step P u (.open f fFlags k) = some v) :
    Shows v u.fPos u.writes u.dev.size (shape tree) := by
  obtain ⟨-, -, hstep⟩ := step_open hstep
  unfold scullOpen at hstep
  rw [if_pos hw, if_neg (by simp [hk])] at hstep
  obtain rfl := Option.some.inj hstep
  exact ⟨rfl, rfl, rfl, tree, h.answers _, rfl⟩

theorem open_plain (h : Rep u.dev tree) (hw : fFlags &&& O_ACCMODE ≠ O_WRONLY)
    (hstep : step P u (.open f fFlags k) = some v) :
    Shows v (Function.update u.fPos f (some 0)) u.writes u.dev.size (shape tree) := by
  obtain ⟨-, -, hstep⟩ := step_open hstep
  unfold scullOpen at hstep
  rw [if_neg hw] at hstep
  obtain rfl := Option.some.inj hstep
  simp only [if_true, if_neg hw]
  exact ⟨rfl, rfl, rfl, tree, h.answers _, rfl⟩

theorem llseek_shows (h : Rep u.dev tree) (hstep : step P u (.llseek f off whence) = some v) :
    ∃ p, u.fPos f = some p ∧
      Shows v (Function.update u.fPos f (some (scullLlseek u.dev p off.toInt whence).2)) u.writes
        u.dev.size (shape tree) := by
  obtain ⟨-, p, hf, rfl⟩ := step_llseek hstep
  exact ⟨p, hf, rfl, rfl, rfl, tree, h, rfl⟩

/-- A read that gets the semaphore and begins inside the file. -/
def Reads (u : Sys) (k : Kernel) (p : ℤ) : Prop := k.taken = true ∧ p < u.dev.size

instance (u : Sys) (k : Kernel) (p : ℤ) : Decidable (Reads u k p) :=
  inferInstanceAs (Decidable (_ ∧ _))

/-- A read that does not come to the list. -/
theorem scullRead_idle (h : ¬ Reads u k p) : scullRead k (before u k) n.toNat p =
    .ok (⟨if k.taken = true then 0 else -ERESTARTSYS, p, [], none,
      if k.taken = true then viaOut else []⟩, before u k) := by
  unfold scullRead
  by_cases hk : k.taken = true
  · have hp : p ≥ (before u k).size := not_lt.mp fun hp => h ⟨hk, hp⟩
    rw [if_neg (not_not_intro hk), if_pos hp, if_pos hk, if_pos hk]
    rfl
  · rw [if_pos hk, if_neg hk, if_neg hk]
    rfl

/-- **One read** in one execution. -/
theorem read_once (hP : Params.Ok P) (hI : Store.Inv P { u with got := none }) (h : Rep u.dev tree)
    (hnone : none ∉ k.answers) (hfault : k.fault = none) (hf : u.fPos f = some p)
    (hroom : RoomFor (before u k)) (hr : Reads u k p)
    (hpl : place u.dev.quantum u.dev.qset p = .ok pl) :
    Safe Unanswered (scullRead k (before u k) n.toNat p) fun r =>
      ReadBytes (before u k) n.toNat p r ∧
        ReadShows (before u k) (shape tree) pl n.toNat p r := by
  have hfit : u.dev.quantum * u.dev.qset < 2 ^ 31 := by
    rw [show u.dev.quantum = _ from hI.quantum, show u.dev.qset = _ from hI.qset]
    exact hP.fits
  exact (hI.read_bytes hP hroom hf).and (read_shows (h.answers k.answers) hroom hfit hpl hr.1 hfault
    hnone ⟨(hI.pos f p hf).1, hr.2⟩ hI.size n.isLt)

/-- The bytes due to a read from a quantum of the list were written. -/
def MarkedWritten (sh : Shape) (s : ScullDev) (writes : List Write) (pl : Place) (count : ℕ) (p : ℤ) :
    Prop :=
  mark sh pl.item.toNat pl.sPos.toNat = true → ∀ i < count, (i : ℤ) < due s pl count p s.size →
    (lastIn writes (8 * p + i)).isSome

theorem marked_written (h : Rep u.dev tree) (hpl : place u.dev.quantum u.dev.qset p = .ok pl)
    (hs0 : 0 ≤ pl.sPos) (hw : Written u k count p) :
    MarkedWritten (shape tree) (before u k) u.writes pl count p := by
  intro hmark i hi hdue
  refine hw pl (by rw [hpl]; rfl) ?_ i hi hdue
  rw [mark_eq] at hmark
  obtain ⟨b, hb⟩ := Option.isSome_iff_exists.mp hmark
  have hrep : Rep (before u k) tree := h.answers k.answers
  obtain ⟨l₁, it, l₂, a, -, hit, ha, hq⟩ := exists_quantum hb
  rw [quantumOf_eq hrep hit ha hs0 hq]
  exact (h.sound b (h.mem_live (quantum_block h hb).1)).1

/-- **A byte that a read returns** is one that was written. -/
theorem read_written {sh : Shape} (hI : Store.Inv P { u with got := none })
    (hw : MarkedWritten sh (before u k) u.writes pl n.toNat p) {r : Reply × ScullDev}
    (hr : ReadBytes (before u k) n.toNat p r) (hr' : ReadShows (before u k) sh pl n.toNat p r)
    (hi : i < readCount sh (before u k) pl n.toNat p) : ∃ w, lastIn u.writes (8 * p + i) = some w ∧
      r.1.bytes[i]? = w.data[(8 * p + i - 8 * w.start).toNat]? := by
  have hret : 0 ≤ r.1.retval := by
    rw [hr'.retval]
    omega
  have hb := List.getElem?_eq_getElem (show i < r.1.bytes.length by rw [hr'.bytes]; exact hi)
  obtain ⟨⟨hcount, -⟩, hbyte⟩ := hI.read_byte hr hret hb
  -- a byte is returned, so there is a quantum
  have hmark : mark sh pl.item.toNat pl.sPos.toNat = true := by
    by_contra hno
    rw [readCount, if_neg hno] at hi
    omega
  rw [readCount, if_pos hmark] at hi
  obtain ⟨w, hw⟩ := Option.isSome_iff_exists.mp (hw hmark i hcount (by omega))
  exact ⟨w, hw, by rw [hb, hbyte w hw]⟩

end Once

/-! ### One call in both executions -/

section Both
variable {k' : Kernel} {f : File} {fFlags : ℕ} {n : BitVec 32} {off : BitVec 64} {whence : ℤ}

theorem twin_open (hP : Params.Ok P) (h : Twin P σ) (hk : k.taken = k'.taken)
    (h₁ : step P σ.1 (.open f fFlags k) = some τ.1)
    (h₂ : step P σ.2 (.open f fFlags k') = some τ.2) : Twin P τ := by
  obtain ⟨tree, tree', htree, htree', hsh⟩ := h.trees
  have hl := (Store.inv_open hP h.left (by rw [step_forget]; exact h₁)).forget
  have hr := (Store.inv_open hP h.right (by rw [step_forget]; exact h₂)).forget
  by_cases hw : fFlags &&& O_ACCMODE = O_WRONLY
  · by_cases ht : k.taken = true
    · have hs := open_trims hP htree' hw (hk ▸ ht) h₂
      rw [← h.fPos] at hs
      exact twin_of_shows hl hr (open_trims hP htree hw ht h₁) hs
    · have ht : k.taken = false := by simpa using ht
      have hs := open_interrupted htree' hw (hk ▸ ht) h₂
      rw [← h.fPos, ← h.writes, ← h.size, ← hsh] at hs
      exact twin_of_shows hl hr (open_interrupted htree hw ht h₁) hs
  · have hs := open_plain htree' hw h₂
    rw [← h.fPos, ← h.writes, ← h.size, ← hsh] at hs
    exact twin_of_shows hl hr (open_plain htree hw h₁) hs

theorem twin_llseek (h : Twin P σ) (h₁ : step P σ.1 (.llseek f off whence) = some τ.1)
    (h₂ : step P σ.2 (.llseek f off whence) = some τ.2) : Twin P τ := by
  obtain ⟨tree, tree', htree, htree', hsh⟩ := h.trees
  have hl := (Store.inv_llseek h.left (by rw [step_forget]; exact h₁)).forget
  have hr := (Store.inv_llseek h.right (by rw [step_forget]; exact h₂)).forget
  obtain ⟨p, hf, hs⟩ := llseek_shows htree h₁
  obtain ⟨p', hf', hs'⟩ := llseek_shows htree' h₂
  rw [← h.fPos] at hf'
  obtain rfl := Option.some.inj (hf.symm.trans hf')
  have hseek : scullLlseek σ.2.dev p off.toInt whence = scullLlseek σ.1.dev p off.toInt whence := by
    unfold scullLlseek
    rw [h.size]
  rw [hseek, ← h.fPos, ← h.writes, ← h.size, ← hsh] at hs'
  exact twin_of_shows hl hr hs hs'

/-- The place of a position is the same in both executions. -/
theorem place_twin (hP : Params.Ok P) (h : Twin P σ) (p : ℤ) : ∃ pl,
    place σ.1.dev.quantum σ.1.dev.qset p = .ok pl ∧ place σ.2.dev.quantum σ.2.dev.qset p = .ok pl := by
  rw [show σ.1.dev.quantum = _ from h.left.quantum, show σ.1.dev.qset = _ from h.left.qset,
    show σ.2.dev.quantum = _ from h.right.quantum, show σ.2.dev.qset = _ from h.right.qset]
  obtain ⟨pl, hpl⟩ := exists_place hP.quantum hP.qset.1 hP.fits p
  exact ⟨pl, hpl, hpl⟩

theorem due_twin (h : Twin P σ) (p limit : ℤ) (count : ℕ) :
    due (before σ.2 k') pl count p limit = due (before σ.1 k) pl count p limit := by
  have hquantum : (before σ.2 k').quantum = (before σ.1 k).quantum :=
    (show σ.2.dev.quantum = _ from h.right.quantum).trans h.left.quantum.symm
  unfold due
  rw [hquantum]

/-- A call on the file `f` that does nothing, in both executions. -/
theorem twin_idle (h : Twin P σ) {p : ℤ} (hf : σ.1.fPos f = some p) (g g' : Option (ℤ × List Byte)) :
    Twin P ({ σ.1 with
        dev := before σ.1 k, fPos := Function.update σ.1.fPos f (some p), got := g },
      { σ.2 with
        dev := before σ.2 k', fPos := Function.update σ.2.fPos f (some p), got := g' }) := by
  obtain ⟨tree, tree', htree, htree', hsh⟩ := h.trees
  refine ⟨h.left.idle hf k.answers, h.right.idle (h.fPos ▸ hf) k'.answers,
    ⟨tree, tree', htree.answers _, htree'.answers _, hsh⟩, h.size, ?_, h.writes⟩
  show Function.update σ.1.fPos f (some p) = Function.update σ.2.fPos f (some p)
  rw [h.fPos]

theorem readCount_twin (h : Twin P σ) (sh : Shape) (p : ℤ) (count : ℕ) :
    readCount sh (before σ.2 k') pl count p = readCount sh (before σ.1 k) pl count p := by
  have hsize : (before σ.2 k').size = (before σ.1 k).size := h.size.symm
  unfold readCount
  rw [due_twin h, hsize]

/-- **A read** in both executions. -/
theorem twin_read (hP : Params.Ok P) (h : Twin P σ) (hk : k.taken = k'.taken)
    (hnone : none ∉ k.answers) (hnone' : none ∉ k'.answers) (hfault : k.fault = none)
    (hfault' : k'.fault = none)
    (hok : k.taken = true → ∀ p ∈ σ.1.fPos f, p < σ.1.dev.size →
      RoomFor (before σ.1 k) ∧ RoomFor (before σ.2 k') ∧ Written σ.1 k n.toNat p)
    (h₁ : step P σ.1 (.read f n k) = some τ.1) (h₂ : step P σ.2 (.read f n k') = some τ.2) :
    Twin P τ ∧ ∃ p, σ.1.fPos f = some p ∧ shown (scullRead k (before σ.1 k) n.toNat p) =
      shown (scullRead k' (before σ.2 k') n.toNat p) := by
  obtain ⟨τ₁, τ₂⟩ := τ
  obtain ⟨tree, tree', htree, htree', hsh⟩ := h.trees
  obtain ⟨-, p, hf, hstep⟩ := step_read h₁
  obtain ⟨-, p', hf', hstep'⟩ := step_read h₂
  have hf₂ := hf'
  rw [← h.fPos] at hf₂
  obtain rfl := Option.some.inj (hf.symm.trans hf₂)
  by_cases hr : Reads σ.1 k p
  · have hr' : Reads σ.2 k' p := ⟨hk ▸ hr.1, h.size ▸ hr.2⟩
    obtain ⟨hroom, hroom', hwritten⟩ := hok hr.1 p hf hr.2
    obtain ⟨pl, hpl, hpl'⟩ := place_twin hP h p
    have hs0 : 0 ≤ pl.sPos := by
      have hsize : σ.1.dev.size ≤ 16 := h.left.size
      have hpos := (h.left.pos f p hf).1
      have hlt := hr.2
      have hfit := hP.fits
      rw [← show σ.1.dev.quantum = _ from h.left.quantum,
        ← show σ.1.dev.qset = _ from h.left.qset] at hfit
      exact (place_within htree.quantum.1 htree.qset.1 hfit ⟨hpos, by omega⟩ hpl).2.1.1
    obtain ⟨r, ⟨heq, hbytes, hshows⟩, rfl⟩ :=
      of_conclude (read_once hP h.left htree hnone hfault hf hroom hr hpl).eq hstep
    obtain ⟨r', ⟨heq', hbytes', hshows'⟩, rfl⟩ :=
      of_conclude (read_once hP h.right htree' hnone' hfault' hf' hroom' hr' hpl').eq hstep'
    rw [← hsh] at hshows'
    have hN : readCount (shape tree) (before σ.2 k') pl n.toNat p =
        readCount (shape tree) (before σ.1 k) pl n.toNat p := readCount_twin h _ p _
    have hfPos : r'.1.fPos = r.1.fPos := by rw [hshows'.fPos, hshows.fPos, hN]
    have hs : ∀ {g}, Shows { σ.1 with
        dev := r.2, fPos := Function.update σ.1.fPos f (some r.1.fPos), got := g }
        (Function.update σ.1.fPos f (some r.1.fPos)) σ.1.writes σ.1.dev.size
          (extended (shape tree) pl.item.toNat) := ⟨rfl, rfl, hshows.size, hshows.list⟩
    have hs' : ∀ {g}, Shows { σ.2 with
        dev := r'.2, fPos := Function.update σ.2.fPos f (some r'.1.fPos), got := g }
        (Function.update σ.1.fPos f (some r.1.fPos)) σ.1.writes σ.1.dev.size
          (extended (shape tree) pl.item.toNat) := by
      refine ⟨?_, h.writes.symm, hshows'.size.trans h.size.symm, hshows'.list⟩
      show Function.update σ.2.fPos f (some r'.1.fPos) = _
      rw [hfPos, h.fPos]
    refine ⟨twin_of_shows (h.left.after_read hbytes) (h.right.after_read hbytes') hs hs', p, hf, ?_⟩
    rw [heq, heq']
    have hw := marked_written htree hpl hs0 hwritten
    have hw' : MarkedWritten (shape tree) (before σ.2 k') σ.2.writes pl n.toNat p := by
      intro hmark i hi hdue
      rw [due_twin (k := k) h, show (before σ.2 k').size = (before σ.1 k).size from h.size.symm] at hdue
      rw [← h.writes]
      exact hw hmark i hi hdue
    have hbytes : r.1.bytes = r'.1.bytes := by
      refine List.ext_getElem? fun i => ?_
      by_cases hi : i < readCount (shape tree) (before σ.1 k) pl n.toNat p
      · obtain ⟨w, hw, hb⟩ := read_written h.left hw hbytes hshows hi
        obtain ⟨w', hw', hb'⟩ := read_written h.right hw' hbytes' hshows' (hN ▸ hi)
        have hwrites : σ.2.writes = σ.1.writes := h.writes.symm
        rw [show ({ σ.2 with got := none } : Sys).writes = σ.1.writes from hwrites] at hw'
        obtain rfl := Option.some.inj (hw.symm.trans hw')
        rw [hb, hb']
      · rw [List.getElem?_eq_none (by rw [hshows.bytes]; omega),
          List.getElem?_eq_none (by rw [hshows'.bytes, hN]; omega)]
    show Except.ok (r.1.retval, r.1.fPos, r.1.bytes) = .ok (r'.1.retval, r'.1.fPos, r'.1.bytes)
    rw [hfPos, hbytes, hshows.retval, hshows'.retval, hN]
  · have hr' : ¬ Reads σ.2 k' p := fun hr' => hr ⟨hk ▸ hr'.1, h.size ▸ hr'.2⟩
    have hidle := scullRead_idle (n := n) hr
    have hidle' := scullRead_idle (n := n) hr'
    rw [hidle] at hstep
    rw [hidle'] at hstep'
    obtain rfl := Option.some.inj hstep
    obtain rfl := Option.some.inj hstep'
    refine ⟨twin_idle h hf _ _, p, hf, ?_⟩
    rw [hidle, hidle', hk]
    rfl

/-- **A write** in both executions. -/
theorem twin_write (hP : Params.Ok P) (h : Twin P σ) (hk : k.taken = k'.taken)
    (hnone : none ∉ k.answers) (hnone' : none ∉ k'.answers) (hfault : k.fault = none)
    (hfault' : k'.fault = none)
    (hok : k.taken = true → ∀ p ∈ σ.1.fPos f, RoomFor (before σ.1 k) ∧ RoomFor (before σ.2 k') ∧
      p ≤ SCULL_DATA_SIZE ∧ (p = 0 → n.toNat = 0))
    (h₁ : step P σ.1 (.write f buf n k) = some τ.1)
    (h₂ : step P σ.2 (.write f buf n k') = some τ.2) : Twin P τ := by
  obtain ⟨τ₁, τ₂⟩ := τ
  obtain ⟨tree, tree', htree, htree', hsh⟩ := h.trees
  obtain ⟨-, p, hf, hstep⟩ := step_write h₁
  obtain ⟨-, p', hf', hstep'⟩ := step_write h₂
  have hf₂ := hf'
  rw [← h.fPos] at hf₂
  obtain rfl := Option.some.inj (hf.symm.trans hf₂)
  by_cases ht : k.taken = true
  · obtain ⟨hroom, hroom', h16, hp0⟩ := hok ht p hf
    have hpos := (h.left.pos f p hf).1
    obtain ⟨pl, hpl, hpl'⟩ := place_twin hP h p
    have hfit := hP.fits
    have hfit' := hP.fits
    rw [← show σ.1.dev.quantum = _ from h.left.quantum,
      ← show σ.1.dev.qset = _ from h.left.qset] at hfit
    rw [← show σ.2.dev.quantum = _ from h.right.quantum,
      ← show σ.2.dev.qset = _ from h.right.qset] at hfit'
    have hgeo : ∀ q ∈ σ.1.fPos f, q ≤ 16 ∧ (q = 0 → n.toNat = 0) := by
      intro q hq
      obtain rfl := Option.some.inj (hf.symm.trans hq)
      exact ⟨h16, hp0⟩
    have hok₁ : StoreOk { σ.1 with got := none } (.write f buf n k) := ⟨hroom, hfault, hgeo⟩
    have hok₂ : StoreOk { σ.2 with got := none } (.write f buf n k') :=
      ⟨hroom', hfault', by rw [h.fPos] at hgeo; exact hgeo⟩
    have hl := (Store.inv_write hP h.left hok₁ (by rw [step_forget]; exact h₁)).forget
    have hr := (Store.inv_write hP h.right hok₂ (by rw [step_forget]; exact h₂)).forget
    have hrep : Rep (before σ.1 k) tree := htree.answers k.answers
    have hrep' : Rep (before σ.2 k') tree' := htree'.answers k'.answers
    obtain ⟨r, hshows, hτ⟩ := of_conclude (write_shows hrep hroom hfit hpl ht hfault hnone
      ⟨hpos, h16⟩ hp0 n.isLt) hstep
    obtain ⟨r', hshows', hτ'⟩ := of_conclude (write_shows hrep' hroom' hfit' hpl' (hk ▸ ht) hfault'
      hnone' ⟨hpos, h16⟩ hp0 n.isLt) hstep'
    have hdue : due (before σ.2 k') pl n.toNat p SCULL_DATA_SIZE =
        due (before σ.1 k) pl n.toNat p SCULL_DATA_SIZE := due_twin h p _ _
    have hqset : (before σ.2 k').qset = (before σ.1 k).qset :=
      (show σ.2.dev.qset = _ from h.right.qset).trans h.left.qset.symm
    have hsize : (before σ.2 k').size = (before σ.1 k).size := h.size.symm
    rw [← hsh] at hshows'
    have hlist := hshows'.list
    have hsize' := hshows'.size
    have hfPos : r'.1.fPos = r.1.fPos := by rw [hshows'.fPos, hshows.fPos, hdue]
    have hret : r'.1.retval = r.1.retval := by rw [hshows'.retval, hshows.retval, hdue]
    have hbytes : r'.1.bytes = r.1.bytes := by rw [hshows'.bytes, hshows.bytes, hdue]
    rw [hdue, hsize, ← hshows.size] at hsize'
    rw [hqset] at hlist
    have hs : Shows τ₁ (Function.update σ.1.fPos f (some r.1.fPos))
        (if 0 < r.1.retval then ⟨p, r.1.bytes⟩ :: σ.1.writes else σ.1.writes) r.2.size
          (marked (before σ.1 k).qset.toNat (shape tree) pl.item.toNat pl.sPos.toNat) := by
      rw [show τ₁ = _ from hτ]
      exact ⟨rfl, rfl, rfl, hshows.list⟩
    have hs' : Shows τ₂ (Function.update σ.1.fPos f (some r.1.fPos))
        (if 0 < r.1.retval then ⟨p, r.1.bytes⟩ :: σ.1.writes else σ.1.writes) r.2.size
          (marked (before σ.1 k).qset.toNat (shape tree) pl.item.toNat pl.sPos.toNat) := by
      rw [show τ₂ = _ from hτ', ← hfPos, ← hret, ← hbytes, h.fPos, h.writes]
      exact ⟨rfl, rfl, hsize', hlist⟩
    exact twin_of_shows hl hr hs hs'
  · have hidle : ∀ {u : Sys} {k : Kernel}, ¬ k.taken = true → scullWrite k (before u k) buf n.toNat p =
        .ok (⟨-ERESTARTSYS, p, [], none, []⟩, before u k) := fun ht => if_pos ht
    rw [hidle ht] at hstep
    rw [hidle (hk ▸ ht)] at hstep'
    obtain rfl := Option.some.inj hstep
    obtain rfl := Option.some.inj hstep'
    exact twin_idle h hf none none

end Both

/-! ### Runs -/

/-- One call keeps the two executions twins, and a read shows the same. -/
theorem twin_step (hP : Params.Ok P) (h : Twin P σ) (hok : RevealOk σ a) (hstep : twice P σ a = some τ) :
    Twin P τ ∧ ReadsAlike σ a := by
  obtain ⟨call, taken, chunks, chunks'⟩ := a
  obtain ⟨h₁, h₂⟩ := twice_eq hstep
  have hk : (kernel taken chunks).taken = (kernel taken chunks').taken := rfl
  cases call with
  | «open» f fFlags => exact ⟨twin_open hP h hk h₁ h₂, trivial⟩
  | read f count =>
    obtain ⟨htwin, p, hf, hshown⟩ :=
      twin_read hP h hk none_not_mem none_not_mem rfl rfl hok h₁ h₂
    refine ⟨htwin, fun q hq q' hq' => ?_⟩
    rw [← h.fPos] at hq'
    obtain rfl := Option.some.inj (hf.symm.trans hq)
    obtain rfl := Option.some.inj (hf.symm.trans hq')
    exact hshown
  | write f buf count =>
    exact ⟨twin_write hP h hk none_not_mem none_not_mem rfl rfl hok h₁ h₂, trivial⟩
  | llseek f off whence => exact ⟨twin_llseek h h₁ h₂, trivial⟩

/-- **Reads reveal only what was written**, in the runs whose calls meet the condition. -/
theorem reads_alike (hP : Params.Ok P) (mem mem' : Mem) {as : List Pair}
    (h : Meets (twice P) RevealOk (start P mem, start P mem') as) :
    Meets (twice P) ReadsAlike (start P mem, start P mem') as :=
  meets_of_meets (fun _ _ _ hI hok hstep => (twin_step hP hI hok hstep).1)
    (fun _ _ _ hI hok hstep => (twin_step hP hI hok hstep).2) (twin_start hP mem mem') h

/-- An item, an array and a quantum, far from one another. -/
def someChunks : List Chunk :=
  [⟨⟨0x1000, 8⟩, fun _ => 7⟩, ⟨⟨0x2000, 8⟩, fun _ => 7⟩, ⟨⟨0x3000, 16⟩, fun _ => 7⟩]

/-- The same at other addresses, with other contents. -/
def otherChunks : List Chunk :=
  [⟨⟨0x1100, 8⟩, fun _ => 9⟩, ⟨⟨0x2204, 8⟩, fun _ => 9⟩, ⟨⟨0x3300, 16⟩, fun _ => 9⟩]

/-- A call that gets the semaphore, in two executions. -/
def both (call : Call) : Pair := ⟨call, true, someChunks, otherChunks⟩

/-- Three bytes written at offset 1 are read in both executions. -/
theorem reads_alike_letters : Meets (twice smallDevice) ReadsAlike
    (start smallDevice fun _ => some 0, start smallDevice fun _ => some 1)
    ([.open 0 2, .llseek 0 1 0, .write 0 letters 3, .llseek 0 1 0, .read 0 3].map both) :=
  reads_alike ⟨by decide, by decide, by decide⟩ _ _ (by decide +kernel)

/-- The bytes that the caller of a read gets. -/
def gotten (r : Except Stop (ℤ × ℤ × List Byte)) : Option (List Byte) :=
  r.toOption.map fun r => r.2.2

/-- The read at offset 0 returns a byte of the pointer to the array. -/
theorem not_reads_alike : ¬ Meets (twice smallDevice) ReadsAlike
    (start smallDevice fun _ => some 0, start smallDevice fun _ => some 0)
    ([.open 0 2, .llseek 0 1 0, .write 0 letters 1, .llseek 0 0 0, .read 0 1].map both) := by
  intro h
  have hrun : (run (twice smallDevice) (start smallDevice fun _ => some 0,
      start smallDevice fun _ => some 0)
      ([.open 0 2, .llseek 0 1 0, .write 0 letters 1, .llseek 0 0 0].map both)).map (fun σ =>
        ((σ.1.fPos 0, σ.2.fPos 0, (twice smallDevice σ (both (.read 0 1))).isSome),
          gotten (shown (scullRead (kernel true someChunks) (before σ.1 (kernel true someChunks)) 1 0)),
          gotten (shown (scullRead (kernel true otherChunks) (before σ.2 (kernel true otherChunks)) 1
            0)))) =
      some ((some 0, some 0, true), some [0x00], some [0x04]) := by decide +kernel
  obtain ⟨σ, hσ, hval⟩ := Option.map_eq_some_iff.mp hrun
  obtain ⟨hstate, hshown⟩ := Prod.mk.inj hval
  obtain ⟨hf, hrest⟩ := Prod.mk.inj hstate
  obtain ⟨hf', hsome⟩ := Prod.mk.inj hrest
  obtain ⟨hleft, hright⟩ := Prod.mk.inj hshown
  have halike := h _ (both (.read 0 1)) (List.prefix_refl _) σ hσ hsome 0 hf 0 hf'
  have heq : some [(0x00 : Byte)] = some [0x04] := by
    rw [← hleft, ← hright]
    exact congrArg gotten halike
  exact absurd heq (by decide)

end LinuxHomework.Scull.Reveal
