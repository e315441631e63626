import LinuxHomework.Scull.Growth

/-! # Progress of the writes

The byte at the offset `x` is stored at `q_pos` of a quantum, in the layout of `scull.h` (`cell`). A
write should take one byte at least, move the position by as many as it takes, make the file as
large as the new position at least, and leave the stored bytes at other offsets alone (`Advances`).
But it is cut off at `SCULL_DATA_SIZE`, and goes to `dev->data + *f_pos`.

* `writes_advance`: in the runs whose writes begin before `SCULL_DATA_SIZE`, keep off the list and
  off the bytes stored at other offsets (`AdvanceOk`), and a loop that writes what is left ends.
* `not_writes_advance`: a write at `SCULL_DATA_SIZE` takes no byte. -/

namespace LinuxHomework.Scull.Progress

open LinuxHomework.Lib.CInt LinuxHomework.Lib.Memory LinuxHomework.Lib.Outcome
open LinuxHomework.Lib.Runs LinuxHomework.Scull.Device LinuxHomework.Scull.Layout
open LinuxHomework.Scull.Calls LinuxHomework.Scull.Store LinuxHomework.Scull.Tree
open LinuxHomework.Scull.Copy LinuxHomework.Scull.Trim LinuxHomework.Scull.Inside
open LinuxHomework.Scull.Growth

/-! ### Stored bytes -/

/-- The place of an offset in the layout. -/
def spot (s : ScullDev) (x : ℤ) : Place :=
  ⟨x / (s.quantum * s.qset), x % (s.quantum * s.qset) / s.quantum, x % (s.quantum * s.qset) % s.quantum⟩

/-- The address of the byte at an offset, if it is in a quantum that exists. -/
def cell (s : ScullDev) (x : ℤ) : Option Word :=
  if quantumOf s (spot s x) = 0 then none
  else some (quantumOf s (spot s x) + BitVec.ofInt 32 (spot s x).qPos)

/-- **The byte stored at an offset.** -/
def storedByte (s : ScullDev) (x : ℤ) : Option Byte := (cell s x).bind s.mem

/-- The offsets up to the last item. -/
def capacity (s : ScullDev) : ℕ := (items s).length * (s.quantum * s.qset).toNat

/-- What is right about a write of at most `count` bytes at the position `p`. -/
structure Advances (s : ScullDev) (count : ℕ) (p : ℤ) (r : Reply × ScullDev) : Prop where
  takes : 1 ≤ r.1.retval ∧ r.1.retval ≤ count
  fPos : r.1.fPos = p + r.1.retval
  size : (r.2.size : ℤ) = max (s.size : ℤ) (p + r.1.retval)
  others : ∀ x b, 0 ≤ x → ¬ (p ≤ x ∧ x < p + r.1.retval) → storedByte s x = some b →
    storedByte r.2 x = some b

/-- The kernel takes the semaphore, and neither `kmalloc` nor the user copy fails. -/
def Willing (k : Kernel) : Prop := k.taken = true ∧ k.fault = none ∧ none ∉ k.answers

instance (k : Kernel) : Decidable (Willing k) :=
  decidable_of_iff (k.taken = true ∧ k.fault = none ∧ ∀ o ∈ k.answers, o.isSome) <| by
    refine and_congr_right fun _ => and_congr_right fun _ => ⟨fun h hn => ?_, fun h o ho => ?_⟩
    · exact absurd (h none hn) (by simp)
    · rw [Option.isSome_iff_ne_none]
      exact fun hn => h (hn ▸ ho)

/-- **A write advances**, if something is to be written and the position fits an `int`. -/
def WriteAdvances (s : Sys) : Act → Prop
  | .write f buf count k => Willing k → 1 ≤ count.toNat → ∀ p ∈ s.fPos f, 0 ≤ p → p < 2 ^ 31 →
      ∃ r, scullWrite k (before s k) buf count.toNat p = .ok r ∧
        Advances (before s k) count.toNat p r
  | .open .. => True
  | .read .. => True
  | .llseek .. => True

/-- The bytes due to a write, from `8 * p` behind the first item on, are mapped, and no byte is
stored among them that has another offset. The write begins before `SCULL_DATA_SIZE`. -/
def Clear (s : ScullDev) (count : ℕ) (p : ℤ) (pl : Place) : Prop :=
  p < SCULL_DATA_SIZE ∧ ∀ D ∈ home s,
    Mapped s.mem (D + BitVec.ofInt 32 (8 * p)) (due s pl count p SCULL_DATA_SIZE).toNat ∧
      ∀ x < capacity s, ∀ a ∈ cell s x,
        InRange (D + BitVec.ofInt 32 (8 * p)) (due s pl count p SCULL_DATA_SIZE).toNat a →
          p ≤ x ∧ x < p + due s pl count p SCULL_DATA_SIZE

-- not by trying every address for `D` or `a`
instance (s : ScullDev) (count : ℕ) (p : ℤ) (pl : Place) : Decidable (Clear s count p pl) :=
  have (D : Word) (x : ℕ) := Option.decidableForallMem (p := fun a =>
    InRange (D + BitVec.ofInt 32 (8 * p)) (due s pl count p SCULL_DATA_SIZE).toNat a →
      p ≤ x ∧ x < p + due s pl count p SCULL_DATA_SIZE) (cell s x)
  have := Option.decidableForallMem (p := fun D =>
    Mapped s.mem (D + BitVec.ofInt 32 (8 * p)) (due s pl count p SCULL_DATA_SIZE).toNat ∧
      ∀ x < capacity s, ∀ a ∈ cell s x,
        InRange (D + BitVec.ofInt 32 (8 * p)) (due s pl count p SCULL_DATA_SIZE).toNat a →
          p ≤ x ∧ x < p + due s pl count p SCULL_DATA_SIZE) (home s)
  inferInstanceAs (Decidable (_ ∧ _))

/-- The condition on a call: a write keeps off the list, and off the bytes at other offsets. -/
def AdvanceOk (s : Sys) : Act → Prop
  | .write f _ count k => k.taken = true → ∀ p ∈ s.fPos f,
      ∀ pl ∈ (place s.dev.quantum s.dev.qset p).toOption,
        Off (before s k) count.toNat p pl ∧
          (Willing k → 1 ≤ count.toNat → Clear (before s k) count.toNat p pl)
  | .open .. => True
  | .read .. => True
  | .llseek .. => True

instance (s : Sys) : DecidablePred (AdvanceOk s)
  | .write .. =>
    inferInstanceAs (Decidable (_ → ∀ p ∈ s.fPos _, ∀ pl ∈ Except.toOption _, _ ∧ (_ → _ → _)))
  | .open .. => isTrue trivial
  | .read .. => isTrue trivial
  | .llseek .. => isTrue trivial

/-- The calls of a loop that writes `count` bytes: what a write has left is written by the next
one. -/
def Reissues (P : Params) (f : File) : Sys → (ℕ → Byte) → BitVec 32 → List Act → Prop
  | _, _, _, [] => True
  | s, buf, count, act :: acts => ∃ k p r s', act = .write f buf count k ∧ Willing k ∧
      1 ≤ count.toNat ∧ s.fPos f = some p ∧ 0 ≤ p ∧ p < 2 ^ 31 ∧
        scullWrite k (before s k) buf count.toNat p = .ok r ∧ step P s act = some s' ∧
          Reissues P f s' (fun i => buf (r.1.retval.toNat + i)) (count - BitVec.ofInt 32 r.1.retval)
            acts

variable {P : Params} {s t : ScullDev} {tree tree' : List Item} {k : Kernel} {buf : ℕ → Byte}
  {count : ℕ} {p x : ℤ} {pl : Place} {a : Word}

/-! ### Cells -/

/-- The place of an offset. -/
theorem spot_bounds (h : Rep s tree) (hx : 0 ≤ x) : 0 ≤ (spot s x).item ∧
    (0 ≤ (spot s x).sPos ∧ (spot s x).sPos < s.qset) ∧
      0 ≤ (spot s x).qPos ∧ (spot s x).qPos < s.quantum := by
  have hq := h.quantum
  have hqs := h.qset
  have hpos : 0 < s.quantum * s.qset := mul_pos (by omega) (by omega)
  refine ⟨Int.ediv_nonneg hx hpos.le, sPos_bounds hq.1 hqs.1, ?_⟩
  unfold spot
  simp only
  rw [qPos_eq]
  exact qPos_bounds hq.1

/-- The cell of an offset is in the block of its quantum. -/
theorem cell_eq_some_iff (h : Rep s tree) (hx : 0 ≤ x) : cell s x = some a ↔
    ∃ b, quantumIn tree (spot s x).item.toNat (spot s x).sPos.toNat = some b ∧
      a = b.addr + BitVec.ofInt 32 (spot s x).qPos := by
  obtain ⟨-, hs, -⟩ := spot_bounds h hx
  unfold cell
  constructor
  · intro ha
    split_ifs at ha with h0
    obtain ⟨b, hb, heq⟩ := exists_quantumIn h hs h0
    rw [heq] at ha
    exact ⟨b, hb, (Option.some.inj ha).symm⟩
  · rintro ⟨b, hb, rfl⟩
    have heq := quantumOf_of_quantumIn h hs.1 hb
    have hne : b.addr ≠ 0 := (h.sound b (h.mem_live (quantum_block h hb).1)).1
    rw [heq, if_neg hne]

/-- The cell lies in its block. -/
theorem inRange_cell (h : Rep s tree) (hx : 0 ≤ x) {b : Block}
    (hb : quantumIn tree (spot s x).item.toNat (spot s x).sPos.toNat = some b) :
    InRange b.addr b.size (b.addr + BitVec.ofInt 32 (spot s x).qPos) := by
  obtain ⟨-, -, hq⟩ := spot_bounds h hx
  have hsize := (quantum_block h hb).2
  obtain ⟨n, hn⟩ := Int.eq_ofNat_of_zero_le hq.1
  rw [hn] at hq ⊢
  rw [BitVec.ofInt_natCast]
  unfold InRange
  bv_omega

/-- An offset with a cell is one of an item. -/
theorem lt_capacity (h : Rep s tree) {x : ℕ} (ha : cell s x = some a) : x < capacity s := by
  obtain ⟨b, hb, -⟩ := (cell_eq_some_iff h (by omega)).mp ha
  obtain ⟨l₁, it, l₂, arr, -, hit, -, -⟩ := exists_quantum hb
  have hlt : (spot s x).item.toNat < tree.length := (List.getElem?_eq_some_iff.mp hit).1
  have hpos : 0 < s.quantum * s.qset := mul_pos (by have := h.quantum; omega) (by have := h.qset; omega)
  have hitem : (x : ℤ) / (s.quantum * s.qset) < tree.length := by
    have : (spot s x).item = (x : ℤ) / (s.quantum * s.qset) := rfl
    omega
  have hmul := Int.lt_mul_of_ediv_lt hpos hitem
  unfold capacity
  rw [items_eq h, List.length_map]
  zify
  rwa [Int.toNat_of_nonneg hpos.le]

/-- **A cell stays**, and its byte, while the list grows. -/
theorem cell_of_grows (h : Grows s t tree tree') (hrep : Rep s tree) (hx : 0 ≤ x)
    (ha : cell s x = some a) : t.mem a = s.mem a ∧ ∀ u : ScullDev, Rep u tree' →
      u.quantum = t.quantum → u.qset = t.qset → cell u x = some a := by
  obtain ⟨b, hb, rfl⟩ := (cell_eq_some_iff hrep hx).mp ha
  refine ⟨byte_of_grows h hrep hb (inRange_cell hrep hx hb), fun u hu hquantum hqset => ?_⟩
  have hspot : spot u x = spot s x := by
    unfold spot
    rw [hquantum, hqset, h.quantum, h.qset]
  refine (cell_eq_some_iff hu hx).mpr ⟨b, ?_, by rw [hspot]⟩
  rw [hspot]
  exact quantumIn_of_keeps h.items hb

/-! ### The write -/

/-- **A write** that is clear of the other stored bytes advances. -/
theorem write_advances (h : Rep s tree) (hfit : s.quantum * s.qset < 2 ^ 31)
    (hpl : place s.quantum s.qset p = .ok pl) (hcount : 1 ≤ count ∧ count < 2 ^ 32)
    (hk : k.taken = true ∧ k.fault = none) (hnone : none ∉ s.answers) (hoff : Off s count p pl)
    (hclear : Clear s count p pl) :
    Safe Unanswered (scullWrite k s buf count p) (Advances s count p) := by
  obtain ⟨hlt, hclear⟩ := hclear
  have hp := hoff.1
  unfold SCULL_DATA_SIZE at hlt hp
  obtain ⟨-, -, hq⟩ := place_within h.quantum.1 h.qset.1 hfit (by omega) hpl
  rw [scullWrite_eq hk.1 hpl]
  refine (writeFind_off h hfit hpl hcount.2 hoff).bind ?_
  rintro ⟨w, t⟩ ⟨tree', hfinds, hne, hw⟩
  have h0 : w ≠ 0 := hne hnone
  obtain ⟨-, hlen, hfree⟩ := hw h0
  obtain ⟨hmap, hapart⟩ := hclear t.data (hfinds.home (hfinds.data_ne_zero h0))
  have hgrows := hfinds.grows
  show Safe _ (if w = 0 then _ else writeCopy k t buf (writeLen t pl count p) p) _
  rw [if_neg h0]
  simp only at hlen hfree
  generalize writeLen t pl count p = n at hlen hfree
  rw [← hlen, Int.toNat_natCast] at hmap hapart
  have hn : 1 ≤ n ∧ n ≤ count ∧ p + n ≤ 16 := by
    unfold due SCULL_DATA_SIZE at hlen
    omega
  have hwrap : wrap64 (p + n) = p + n := wrap64_of_lt (by omega) (by omega)
  have hs : (size32 (p + n) : ℤ) = p + n := size32_of_lt (by omega) (by omega)
  have hsize : t.size = s.size := hgrows.size
  rw [writeCopy_full (hmap.mono_mem hgrows.mapped) (not_faults hk.2 n) (by omega), hwrap, hsize]
  have htakes : (1 : ℤ) ≤ n ∧ (n : ℤ) ≤ count := by omega
  refine ⟨htakes, rfl, ?_, fun x b hx hout hb => ?_⟩
  · show ((if (s.size : ℤ) < p + n then size32 (p + n) else s.size : ℕ) : ℤ) = max _ (p + (n : ℤ))
    split_ifs with hlarge
    · omega
    · omega
  · -- a byte at another offset
    obtain ⟨a, ha, hmem⟩ := Option.bind_eq_some_iff.mp hb
    obtain ⟨hsame, hcell⟩ := cell_of_grows hgrows h hx ha
    have hrep : Rep { t with
        mem := fill t.mem (copyAddr t p) n buf
        size := if (s.size : ℤ) < p + n then size32 (p + n) else s.size } tree' :=
      (hgrows.rep.write_off hfree).congr rfl rfl rfl rfl (fun _ _ => rfl) fun _ hx => hx
    have hx' : ¬ InRange (copyAddr t p) n a := fun hin => by
      obtain ⟨j, rfl⟩ := Int.eq_ofNat_of_zero_le hx
      exact hout (hapart j (lt_capacity h ha) a ha hin)
    refine Option.bind_eq_some_iff.mpr ⟨a, hcell _ hrep rfl rfl, ?_⟩
    show fill t.mem (copyAddr t p) n buf a = some b
    rw [fill_of_not_mem hx', hsame, hmem]

/-! ### Runs -/

variable {σ σ' : Sys} {act : Act} {acts : List Act} {f : File}

theorem advanceOk_off (h : AdvanceOk σ act) : WriteOff σ act := by
  cases act with
  | write f buf count k => exact fun hk p hp pl hpl => (h hk p hp pl hpl).1
  | «open» f fFlags k => trivial
  | read f count k => trivial
  | llseek f off whence => trivial

/-- A write that meets the condition advances. -/
theorem writeAdvances_of_ok (hP : Params.Ok P) (h : Built P σ) (hok : AdvanceOk σ act)
    (hstep : step P σ act = some σ') : WriteAdvances σ act := by
  cases act with
  | write f buf count k =>
    obtain ⟨halive, p, hf, hstep⟩ := step_write hstep
    obtain ⟨⟨tree, htree⟩, -⟩ := h halive
    intro hk hcount p' hp' h0 hlt
    obtain rfl := Option.some.inj (hf.symm.trans hp')
    obtain ⟨pl, hpl⟩ := h.place hP halive p
    obtain ⟨hoff, hclear⟩ := hok hk.1 p hf pl (by rw [hpl]; rfl)
    have hsafe : Safe Unanswered (scullWrite k (before σ k) buf count.toNat p)
        (Advances (before σ k) count.toNat p) :=
      write_advances (htree.answers k.answers) (h.fits hP halive) hpl ⟨hcount, count.isLt⟩
        ⟨hk.1, hk.2.1⟩ hk.2.2 hoff (hclear hk hcount)
    obtain ⟨r, hr, -⟩ := of_conclude hsafe.eq hstep
    exact ⟨r, hr⟩
  | «open» f fFlags k => trivial
  | read f count k => trivial
  | llseek f off whence => trivial

/-- **A loop that writes what is left ends**: it makes `count` calls at most. -/
theorem reissues_length (h : Meets (step P) WriteAdvances σ acts) :
    ∀ {buf : ℕ → Byte} {count : BitVec 32}, Reissues P f σ buf count acts →
      acts.length ≤ count.toNat := by
  induction acts generalizing σ with
  | nil =>
    intro buf count _
    exact Nat.zero_le _
  | cons act acts ih =>
    rintro buf count ⟨k, p, r, σ', rfl, hk, hcount, hp, h0, hlt, hr, hstep, hrest⟩
    obtain ⟨hadvances, hmeets⟩ := meets_cons.mp h σ' hstep
    obtain ⟨r', hr', ⟨⟨hone, hle⟩, -, -, -⟩⟩ := hadvances hk hcount p hp h0 hlt
    obtain rfl : r = r' := Except.ok.inj (hr.symm.trans hr')
    have hlen := ih hmeets hrest
    obtain ⟨n, hn⟩ := Int.eq_ofNat_of_zero_le (by omega : 0 ≤ r.1.retval)
    rw [hn, BitVec.ofInt_natCast] at hlen
    rw [hn] at hone hle
    rw [List.length_cons]
    bv_omega

/-- Two bytes written at offset 1, and a third one behind them. -/
def twoWrites : List Act :=
  [.open 0 2 threeChunks, .llseek 0 1 0, .write 0 letters 2 threeChunks, .write 0 letters 1 threeChunks]

/-- The device is empty, and a file is open at offset 16. -/
def atLimit : Sys where
  dev := ⟨0, 16, 2, 0, fun _ => some 0, [], threeChunks.answers, []⟩
  fPos := Function.update (Function.update (fun _ => none) 0 (some 0)) 0 (some 16)
  crashed := false
  writes := []
  got := none

end LinuxHomework.Scull.Progress
