import LinuxHomework.Lib.Runs
import LinuxHomework.Scull.Calls

/-! # The scull device as a byte store

The byte accepted last at an offset (`byteAt`) is read off the history of the writes since the last
trim. The driver copies to and from the address `dev->data + *f_pos`, which is `8 * *f_pos` bytes
behind the first item: the byte `i` of a call at position `p` lies at `8 * p + i`, not at a place
that depends on the offset `p + i` alone.

* `byte_store`: in the runs whose calls are all `StoreOk` no call brings the kernel down, and every
  byte that a read returns is the one accepted last at its offset.
* `not_byte_store`: two bytes written at offset 1; the second one is not found at offset 2. -/

namespace LinuxHomework.Scull.Store

open LinuxHomework.Lib.CInt LinuxHomework.Lib.Memory LinuxHomework.Lib.Outcome
open LinuxHomework.Lib.Runs LinuxHomework.Scull.Device LinuxHomework.Scull.Layout
open LinuxHomework.Scull.Calls

/-! ### What was written, and where -/

/-- The write accepted a byte at the offset `x`. -/
def Covers (w : Write) (x : ℤ) : Prop := w.start ≤ x ∧ x < w.start + w.data.length

/-- The write put a byte `x` bytes behind the first item. -/
def Placed (w : Write) (x : ℤ) : Prop := 8 * w.start ≤ x ∧ x < 8 * w.start + w.data.length

instance (x : ℤ) : DecidablePred fun w => Covers w x := fun _ => inferInstanceAs (Decidable (_ ∧ _))

instance (x : ℤ) : DecidablePred fun w => Placed w x := fun _ => inferInstanceAs (Decidable (_ ∧ _))

/-- The last write that covers an offset. -/
def lastAt (ws : List Write) (x : ℤ) : Option Write := ws.find? fun w => Covers w x

/-- The last write that put a byte somewhere behind the first item. -/
def lastIn (ws : List Write) (x : ℤ) : Option Write := ws.find? fun w => Placed w x

/-- **The byte accepted last** at an offset since the last trim. -/
def byteAt (ws : List Write) (x : ℤ) : Option Byte :=
  (lastAt ws x).bind fun w => w.data[(x - w.start).toNat]?

/-- Every byte the last call returned, if it was a read, is the one accepted last at its offset. -/
def ReadsRight (s : Sys) : Prop :=
  ∀ p bs, s.got = some (p, bs) → ∀ (i : ℕ) b b', bs[i]? = some b →
    byteAt s.writes (p + i) = some b' → b = b'

/-- The device serves: every call so far has returned, and reads are right. -/
structure Serves (s : Sys) : Prop where
  alive : s.crashed = false
  right : ReadsRight s

/-- The condition on a call. There is room behind the first item. A write begins behind offset 0, at
most at offset 16, and its user copy succeeds. A read takes each byte that was written from where it
was put: the last write at its offset began where the read begins, and no later write was placed
over it. -/
def StoreOk (s : Sys) : Act → Prop
  | .read f count k => RoomFor { s.dev with answers := k.answers } ∧
      ∀ p ∈ s.fPos f, ∀ i : ℕ, i < count.toNat → p + i < s.dev.size →
        i < s.dev.quantum - p % s.dev.quantum → ∀ w ∈ lastAt s.writes (p + i),
          w.start = p ∧ lastIn s.writes (8 * p + i) = some w
  | .write f _ count k => RoomFor { s.dev with answers := k.answers } ∧ k.fault = none ∧
      ∀ p ∈ s.fPos f, p ≤ 16 ∧ (p = 0 → count.toNat = 0)
  | .open .. => True
  | .llseek .. => True

instance (s : Sys) : DecidablePred (StoreOk s)
  | .read .. => inferInstanceAs (Decidable (_ ∧ ∀ p ∈ s.fPos _, ∀ i < _, _ → _ → ∀ w ∈ _, _))
  | .write .. => inferInstanceAs (Decidable (_ ∧ _ ∧ ∀ p ∈ s.fPos _, _))
  | .open .. => isTrue trivial
  | .llseek .. => isTrue trivial

/-! ### The invariant -/

/-- **The invariant**: the list is in order, and behind its first item lie the bytes placed there
last. -/
structure Inv (P : Params) (s : Sys) : Prop where
  serves : Serves s
  items : ∃ nodes, Items s.dev nodes
  quantum : s.dev.quantum = P.scullQuantum
  qset : s.dev.qset = P.scullQset
  size : s.dev.size ≤ 16
  pos : ∀ f p, s.fPos f = some p → 0 ≤ p ∧ p < 2 ^ 63
  writes : ∀ w ∈ s.writes, 1 ≤ w.start ∧ w.start + w.data.length ≤ 16
  empty : s.dev.data = 0 → s.writes = []
  kept : ∀ x w, lastIn s.writes x = some w →
    s.dev.mem (s.dev.data + BitVec.ofInt 32 x) = w.data[(x - 8 * w.start).toNat]?

/-- The parameters the module can work with. -/
structure Params.Ok (P : Params) : Prop where
  quantum : 1 ≤ P.scullQuantum
  qset : 1 ≤ P.scullQset ∧ P.scullQset < 2 ^ 30
  fits : P.scullQuantum * P.scullQset < 2 ^ 31

variable {P : Params} {s s' : Sys} {ws : List Write} {w : Write} {x : ℤ}

theorem inv_start (hP : Params.Ok P) (mem : Mem) : Inv P (start P mem) :=
  ⟨⟨rfl, fun p bs h => absurd h (by simp [start])⟩,
    ⟨[], hP.qset, rfl, by simp, by simp, by simp [start], by simp [start]⟩, rfl, rfl,
    by simp [start], by simp [start], by simp [start], fun _ => rfl,
    fun x w h => absurd h (by simp [start, lastIn])⟩

theorem placed_of_lastIn (h : lastIn ws x = some w) : w ∈ ws ∧ Placed w x :=
  ⟨List.mem_of_find?_eq_some h, by simpa using List.find?_some h⟩

/-- What a write places lies in the zone behind the first item. -/
theorem zone_of_placed (hw : 1 ≤ w.start ∧ w.start + w.data.length ≤ 16) (hx : Placed w x) (D : Word) :
    InRange (D + 8) 113 (D + BitVec.ofInt 32 x) := by
  have hbound : 8 ≤ x ∧ x < 121 := by
    unfold Placed at hx
    omega
  obtain ⟨n, rfl⟩ := Int.eq_ofNat_of_zero_le (show 0 ≤ x by omega)
  rw [BitVec.ofInt_natCast]
  unfold InRange
  bv_omega

/-- The placed bytes are kept by a call that leaves the zone alone. -/
theorem Inv.kept_of_grown (h : Inv P s) {as : List (Option Chunk)} {t : ScullDev}
    (hg : Grown { s.dev with answers := as } t) (hx : lastIn s.writes x = some w) :
    t.data = s.dev.data ∧
      t.mem (t.data + BitVec.ofInt 32 x) = w.data[(x - 8 * w.start).toNat]? := by
  obtain ⟨hmem, hplaced⟩ := placed_of_lastIn hx
  have hd : s.dev.data ≠ 0 := fun h0 => by
    rw [h.empty h0] at hmem
    exact absurd hmem (by simp)
  obtain ⟨hdata, hzone⟩ := hg.zone hd
  refine ⟨hdata, ?_⟩
  rw [hdata, hzone _ (zone_of_placed (h.writes w hmem) hplaced _)]
  exact h.kept x w hx

theorem Inv.empty_of_grown (h : Inv P s) {as : List (Option Chunk)} {t : ScullDev}
    (hg : Grown { s.dev with answers := as } t) (h0 : t.data = 0) : s.writes = [] := by
  by_cases hd : s.dev.data = 0
  · exact h.empty hd
  · exact absurd ((hg.zone hd).1.symm.trans h0) hd

/-- The positions stay in range when one of them is set to a position in range. -/
theorem Inv.pos_update (h : Inv P s) {f : File} {v : ℤ} (hv : 0 ≤ v ∧ v < 2 ^ 63) :
    ∀ g p, Function.update s.fPos f (some v) g = some p → 0 ≤ p ∧ p < 2 ^ 63 := by
  intro g p hg
  by_cases hgf : g = f
  · rw [hgf, Function.update_self] at hg
    exact Option.some.inj hg ▸ hv
  · rw [Function.update_of_ne hgf] at hg
    exact h.pos g p hg

/-- The addresses of the bytes of a copy. -/
theorem copyAddr_add (t : ScullDev) (p : ℤ) (i : ℕ) :
    copyAddr t p + BitVec.ofNat 32 i = t.data + BitVec.ofInt 32 (8 * p + i) := by
  unfold copyAddr
  rw [BitVec.add_assoc, ← BitVec.ofInt_natCast, ← BitVec.ofInt_add]

/-- **A byte that a read returns** lies in the file and in the quantum, and is the one placed last
where the read takes it from. -/
theorem Inv.read_byte (h : Inv P s) {as : List (Option Chunk)} {count : ℕ} {p : ℤ}
    {r : Reply × ScullDev} (hr : ReadBytes { s.dev with answers := as } count p r)
    (hret : 0 ≤ r.1.retval) {i : ℕ} {b : Byte} (hb : r.1.bytes[i]? = some b) :
    (i < count ∧ p + i < s.dev.size ∧ i < s.dev.quantum - p % s.dev.quantum) ∧
      ∀ w, lastIn s.writes (8 * p + i) = some w →
        w.data[(8 * p + i - 8 * w.start).toNat]? = some b := by
  obtain hnil | ⟨n, hle, hend, hq, hbytes⟩ := hr.bytes hret
  · rw [hnil] at hb
    exact absurd hb (by simp)
  · rw [hbytes] at hb
    obtain ⟨hi, hget⟩ := List.getElem?_eq_some_iff.mp hb
    have hin : i < n := by simpa using hi
    simp only at hend hq
    refine ⟨by omega, fun w hw => ?_⟩
    obtain ⟨-, hmem⟩ := h.kept_of_grown hr.grown hw
    rw [List.getElem_map, List.getElem_range, copyAddr_add, hmem] at hget
    obtain ⟨hlast, hplaced⟩ := placed_of_lastIn hw
    unfold Placed at hplaced
    rw [List.getElem?_eq_getElem (by omega)] at hget ⊢
    exact congrArg some hget

/-- **A read** that meets the condition is right. -/
theorem Inv.read_right (h : Inv P s) {f : File} {count : BitVec 32} {k : Kernel} {p : ℤ}
    (hok : StoreOk s (.read f count k)) (hp : s.fPos f = some p) {r : Reply × ScullDev}
    (hr : ReadBytes { s.dev with answers := k.answers } count.toNat p r) (hret : 0 ≤ r.1.retval)
    (i : ℕ) (b b' : Byte) (hb : r.1.bytes[i]? = some b)
    (hb' : byteAt s.writes (p + i) = some b') : b = b' := by
  obtain ⟨⟨hcount, hend, hq⟩, hbyte⟩ := h.read_byte hr hret hb
  obtain ⟨w, hw, hwb⟩ := Option.bind_eq_some_iff.mp hb'
  obtain ⟨hstart, hlast⟩ := hok.2 p hp i hcount hend hq w hw
  have hidx : (8 * p + i - 8 * w.start).toNat = (p + i - w.start).toNat := by omega
  have hget := hbyte w hlast
  rw [hidx, hwb] at hget
  exact (Option.some.inj hget).symm

/-! ### The calls keep the invariant -/

/-- A call that can only fail to return for an impossible answer does return. -/
theorem of_conclude {α : Type} {r : Except Stop α} {Q : α → Prop} {f : α → Sys}
    (hr : Safe Unanswered r Q) (h : conclude s r f = some s') : ∃ v, Q v ∧ s' = f v := by
  cases r with
  | ok v => exact ⟨v, hr, (Option.some.inj h).symm⟩
  | error e =>
    obtain rfl : e = .unanswered := hr
    exact absurd h (by simp [conclude])

theorem serves_of_got (hs : s.crashed = false) (hgot : s.got = none) : Serves s :=
  ⟨hs, fun p bs h => absurd (hgot.symm.trans h) (by simp)⟩

theorem inv_open (hP : Params.Ok P) (h : Inv P s) {f : File} {fFlags : ℕ} {k : Kernel}
    (hstep : step P s (.open f fFlags k) = some s') : Inv P s' := by
  obtain ⟨nodes, hitems⟩ := h.items
  obtain ⟨halive, -, hstep⟩ := step_open hstep
  by_cases hw : fFlags &&& O_ACCMODE = O_WRONLY
  · by_cases ht : k.taken = true
    · have hsafe : Safe Unanswered (scullOpen P k { s.dev with answers := k.answers } fFlags)
          fun r => r.1 = 0 ∧ Items r.2 [] ∧ r.2.data = 0 ∧ r.2.size = 0 ∧
            r.2.quantum = P.scullQuantum ∧ r.2.qset = P.scullQset := by
        unfold scullOpen
        rw [if_pos hw, if_pos ht]
        exact (trim_safe (hitems.answers k.answers) hP.qset).bind fun t ht => ⟨rfl, ht⟩
      obtain ⟨r, ⟨h0, hi, hd, hsize, hq, hqs⟩, rfl⟩ := of_conclude hsafe hstep
      rw [if_pos h0, if_pos hw]
      refine ⟨serves_of_got halive rfl, ⟨[], hi⟩, hq, hqs, by simp only; omega,
        h.pos_update ⟨le_rfl, by norm_num⟩, by simp, fun _ => rfl, fun x w hx => ?_⟩
      exact absurd hx (by simp [lastIn])
    · unfold scullOpen at hstep
      rw [if_pos hw, if_neg ht] at hstep
      obtain rfl := Option.some.inj hstep
      exact ⟨serves_of_got halive rfl, ⟨nodes, hitems.answers _⟩, h.quantum, h.qset, h.size, h.pos,
        h.writes, h.empty, h.kept⟩
  · unfold scullOpen at hstep
    rw [if_neg hw] at hstep
    obtain rfl := Option.some.inj hstep
    simp only [hw, if_true, if_false]
    exact ⟨serves_of_got halive rfl, ⟨nodes, hitems.answers _⟩, h.quantum, h.qset, h.size,
      h.pos_update ⟨le_rfl, by norm_num⟩, h.writes, h.empty, h.kept⟩

/-- A call on the file `f` that does nothing. -/
theorem Inv.idle (h : Inv P s) {f : File} {p : ℤ} (hf : s.fPos f = some p)
    (as : List (Option Chunk)) : Inv P { s with
      dev := { s.dev with answers := as }, fPos := Function.update s.fPos f (some p), got := none } := by
  obtain ⟨nodes, hitems⟩ := h.items
  exact ⟨serves_of_got h.serves.alive rfl, ⟨nodes, hitems.answers as⟩, h.quantum, h.qset, h.size,
    h.pos_update (h.pos f p hf), h.writes, h.empty, h.kept⟩

/-- The invariant without what the last read returned. -/
theorem Inv.forget (h : Inv P s) : Inv P { s with got := none } :=
  ⟨serves_of_got h.serves.alive rfl, h.items, h.quantum, h.qset, h.size, h.pos, h.writes, h.empty,
    h.kept⟩

/-- What the last read returned has no bearing on a call. -/
theorem step_forget (act : Act) : step P { s with got := none } act = step P s act := by
  cases act <;> rfl

/-- **After a read** the bytes are where they were. -/
theorem Inv.after_read (h : Inv P s) {f : File} {as : List (Option Chunk)} {count : ℕ} {p : ℤ}
    {r : Reply × ScullDev} (hr : ReadBytes { s.dev with answers := as } count p r) :
    Inv P { s with
      dev := r.2, fPos := Function.update s.fPos f (some r.1.fPos), got := none } :=
  ⟨serves_of_got h.serves.alive rfl, hr.grown.items, hr.grown.quantum.trans h.quantum,
    hr.grown.qset.trans h.qset, hr.grown.size ▸ h.size, h.pos_update hr.fPos, h.writes,
    h.empty_of_grown hr.grown, fun _ _ hx => (h.kept_of_grown hr.grown hx).2⟩

/-- What a read comes to, where there is room. -/
theorem Inv.read_bytes (hP : Params.Ok P) (h : Inv P s) {f : File} {count : BitVec 32} {k : Kernel}
    {p : ℤ} (hroom : RoomFor { s.dev with answers := k.answers }) (hf : s.fPos f = some p) :
    Safe Unanswered (scullRead k { s.dev with answers := k.answers } count.toNat p)
      (ReadBytes { s.dev with answers := k.answers } count.toNat p) := by
  obtain ⟨nodes, hitems⟩ := h.items
  have hq := hP.quantum
  have hfit := hP.fits
  rw [← h.quantum] at hq
  rw [← h.quantum, ← h.qset] at hfit
  exact read_safe (hitems.answers k.answers) hroom hq hfit h.size count.isLt (h.pos f p hf)

theorem inv_read (hP : Params.Ok P) (h : Inv P s) {f : File} {count : BitVec 32} {k : Kernel}
    (hok : StoreOk s (.read f count k)) (hstep : step P s (.read f count k) = some s') :
    Inv P s' := by
  obtain ⟨halive, p, hf, hstep⟩ := step_read hstep
  obtain ⟨r, hr, rfl⟩ := of_conclude (h.read_bytes hP hok.1 hf) hstep
  have hafter := h.after_read (f := f) hr
  refine ⟨⟨halive, fun p' bs hgot i b b' hb hb' => ?_⟩, hafter.items, hafter.quantum, hafter.qset,
    hafter.size, hafter.pos, hafter.writes, hafter.empty, hafter.kept⟩
  by_cases hret : 0 ≤ r.1.retval
  · simp only [hret, if_true, Option.some.injEq, Prod.mk.injEq] at hgot
    obtain ⟨rfl, rfl⟩ := hgot
    exact h.read_right hok hf hr hret i b b' hb hb'
  · simp [hret] at hgot

/-- The bytes placed last, after a write. -/
theorem lastIn_cons {w' : Write} (hx : lastIn (w' :: ws) x = some w) :
    (w = w' ∧ Placed w' x) ∨ (¬ Placed w' x ∧ lastIn ws x = some w) := by
  unfold lastIn at hx
  by_cases hp : Placed w' x
  · rw [List.find?_cons_of_pos (by simpa using hp)] at hx
    exact Or.inl ⟨(Option.some.inj hx).symm, hp⟩
  · rw [List.find?_cons_of_neg (by simpa using hp)] at hx
    exact Or.inr ⟨hp, hx⟩

/-- An offset behind the first item, as an address of a copy. -/
theorem inRange_copy {t : ScullDev} {p : ℤ} {n : ℕ} (hp : 0 ≤ p ∧ p + n ≤ 16)
    (hx : 0 ≤ x ∧ x < 121) :
    (InRange (copyAddr t p) n (t.data + BitVec.ofInt 32 x) ↔ 8 * p ≤ x ∧ x < 8 * p + n) ∧
      (8 * p ≤ x → (t.data + BitVec.ofInt 32 x - copyAddr t p).toNat = (x - 8 * p).toNat) := by
  obtain ⟨a, rfl⟩ := Int.eq_ofNat_of_zero_le hp.1
  obtain ⟨b, rfl⟩ := Int.eq_ofNat_of_zero_le hx.1
  have haddr : copyAddr t (a : ℤ) = t.data + BitVec.ofNat 32 (8 * a) := by
    unfold copyAddr
    rw [show (8 * (a : ℤ)) = ((8 * a : ℕ) : ℤ) by push_cast; ring, BitVec.ofInt_natCast]
  rw [haddr, BitVec.ofInt_natCast]
  unfold InRange
  constructor
  · constructor
    · intro h
      bv_omega
    · intro h
      bv_omega
  · intro h
    bv_omega

/-- A copy that does not begin at offset 0 goes into the zone behind the first item. -/
theorem copy_zone {t : ScullDev} {p : ℤ} {n : ℕ} {a : Word} (hp : 1 ≤ p ∧ p + n ≤ 16)
    (ha : InRange (copyAddr t p) n a) : InRange (t.data + 8) 113 a := by
  obtain ⟨b, rfl⟩ := Int.eq_ofNat_of_zero_le (show 0 ≤ p by omega)
  have haddr : copyAddr t (b : ℤ) = t.data + BitVec.ofNat 32 (8 * b) := by
    unfold copyAddr
    rw [show (8 * (b : ℤ)) = ((8 * b : ℕ) : ℤ) by push_cast; ring, BitVec.ofInt_natCast]
  rw [haddr] at ha
  unfold InRange at ha ⊢
  bv_omega

theorem inv_write (hP : Params.Ok P) (h : Inv P s) {f : File} {buf : ℕ → Byte} {count : BitVec 32}
    {k : Kernel} (hok : StoreOk s (.write f buf count k))
    (hstep : step P s (.write f buf count k) = some s') : Inv P s' := by
  obtain ⟨nodes, hitems⟩ := h.items
  obtain ⟨halive, p, hf, hstep⟩ := step_write hstep
  have hq := hP.quantum
  have hfit := hP.fits
  rw [← h.quantum] at hq
  rw [← h.quantum, ← h.qset] at hfit
  have hpos := h.pos f p hf
  obtain ⟨hroom, hfault, hgeo⟩ := hok
  obtain ⟨h16, hp0⟩ := hgeo p hf
  obtain ⟨r, hr, rfl⟩ := of_conclude (write_safe (hitems.answers k.answers) hroom hq hfit h.size
    count.isLt ⟨hpos.1, h16⟩ hp0 hfault) hstep
  obtain ⟨t, hg, ⟨hret, hdev⟩ | ⟨ht0, n, hend, hn0, hret, hbytes, size, hsize, hdev⟩⟩ :=
    hr.bytes
  · -- nothing was accepted
    rw [if_neg (by omega), hdev]
    exact ⟨serves_of_got halive rfl, hg.items, hg.quantum.trans h.quantum, hg.qset.trans h.qset,
      hg.size ▸ h.size, h.pos_update hr.fPos, h.writes, h.empty_of_grown hg,
      fun x w hx => (h.kept_of_grown hg hx).2⟩
  · -- the bytes went behind the first item
    have hcopy : ∀ a, InRange (copyAddr t p) n a → InRange (t.data + 8) 113 a := fun a ha => by
      by_cases hz : n = 0
      · unfold InRange at ha
        omega
      · exact copy_zone ⟨by omega, hend⟩ ha
    obtain ⟨h0, -⟩ | ⟨nodes', hgood⟩ := hg.list
    · exact absurd h0 ht0
    have hitems' : Items r.2 nodes' := by
      rw [hdev]
      exact hgood.items.congr rfl rfl
        (fun a ha x hx => fill_of_not_mem fun hx' => hgood.off_item ha hx (hcopy x hx'))
        (fun _ hb => hb) hgood.items.apart
        fun b hb => (hgood.items.mapped b hb).mono_mem fun x hx => isSome_fill hx
    have hdata : r.2.data = t.data := by rw [hdev]
    have hmem : r.2.mem = fill t.mem (copyAddr t p) n buf := by rw [hdev]
    refine ⟨serves_of_got halive rfl, ⟨nodes', hitems'⟩, ?_, ?_, ?_, h.pos_update hr.fPos,
      fun w hw => ?_, fun h0 => absurd (hdata.symm.trans h0) ht0, fun x w hx => ?_⟩
    · rw [hdev]
      exact hg.quantum.trans h.quantum
    · rw [hdev]
      exact hg.qset.trans h.qset
    · rw [hdev]
      exact hsize
    · simp only at hw
      split_ifs at hw with hpos0
      · rcases List.mem_cons.mp hw with rfl | hw
        · have hlen : r.1.bytes.length = n := by rw [hbytes]; simp
          exact ⟨by simp only; omega, by simp only; omega⟩
        · exact h.writes w hw
      · exact h.writes w hw
    · show r.2.mem (r.2.data + _) = _
      rw [hdata, hmem]
      have hold : ∀ {x w}, lastIn s.writes x = some w → ¬ (8 * p ≤ x ∧ x < 8 * p + n) →
          fill t.mem (copyAddr t p) n buf (t.data + BitVec.ofInt 32 x) =
            w.data[(x - 8 * w.start).toNat]? := by
        intro x w hx hout
        obtain ⟨hw, hplaced⟩ := placed_of_lastIn hx
        have hbound := h.writes w hw
        unfold Placed at hplaced
        rw [fill_of_not_mem fun hx' => hout (((inRange_copy ⟨hpos.1, hend⟩ (by omega)).1).mp hx')]
        exact (h.kept_of_grown hg hx).2
      simp only at hx
      split_ifs at hx with hpos0
      · have hlen : r.1.bytes.length = n := by rw [hbytes]; simp
        have hplaced : Placed ⟨p, r.1.bytes⟩ x ↔ 8 * p ≤ x ∧ x < 8 * p + n := by
          rw [← hlen]
          rfl
        obtain ⟨rfl, hin⟩ | ⟨hout, hx⟩ := lastIn_cons hx
        · rw [hplaced] at hin
          obtain ⟨hmem', haddr⟩ := inRange_copy (t := t) (n := n) ⟨hpos.1, hend⟩
            (show 0 ≤ x ∧ x < 121 by omega)
          rw [fill_of_mem (hmem'.mpr hin), haddr hin.1]
          show _ = r.1.bytes[(x - 8 * p).toNat]?
          rw [hbytes, List.getElem?_map, List.getElem?_range (by omega), Option.map_some]
        · exact hold hx fun hin => hout (hplaced.mpr hin)
      · exact hold hx (by omega)

theorem inv_llseek (h : Inv P s) {f : File} {off : BitVec 64} {whence : ℤ}
    (hstep : step P s (.llseek f off whence) = some s') : Inv P s' := by
  obtain ⟨halive, p, hf, rfl⟩ := step_llseek hstep
  have hpos := h.pos f p hf
  have hseek : 0 ≤ (scullLlseek s.dev p off.toInt whence).2 ∧
      (scullLlseek s.dev p off.toInt whence).2 < 2 ^ 63 := by
    have h1 := wrap64_lt (p + off.toInt)
    have h2 := wrap64_lt (s.dev.size + off.toInt)
    have h3 := BitVec.toInt_lt (x := off)
    unfold scullLlseek
    simp only
    split
    · exact hpos
    · next v hv =>
      split_ifs with hneg
      · exact hpos
      · refine ⟨by simp only; omega, ?_⟩
        split_ifs at hv <;> simp only [Option.some.injEq] at hv <;> simp only <;> omega
  exact ⟨serves_of_got halive rfl, h.items, h.quantum, h.qset, h.size, h.pos_update hseek, h.writes,
    h.empty, h.kept⟩

theorem inv_step (hP : Params.Ok P) (h : Inv P s) {act : Act} (hok : StoreOk s act)
    (hstep : step P s act = some s') : Inv P s' := by
  cases act with
  | «open» f fFlags k => exact inv_open hP h hstep
  | read f count k => exact inv_read hP h hok hstep
  | write f buf count k => exact inv_write hP h hok hstep
  | llseek f off whence => exact inv_llseek h hstep

/-- **The device is a byte store** in the runs all of whose calls are `StoreOk`. -/
theorem byte_store (hP : Params.Ok P) (mem : Mem) {acts : List Act}
    (h : Meets (step P) StoreOk (start P mem) acts) : Always (step P) Serves (start P mem) acts :=
  (always_of_meets (fun _ _ _ hI hok hstep => inv_step hP hI hok hstep) (inv_start hP mem)
    h).mono fun _ hs => hs.serves

/-- Quanta of 16 bytes, two to an item. -/
def smallDevice : Params := ⟨16, 2⟩

/-- The kernel answers with an item, an array and a quantum, far from one another. -/
def threeChunks : Kernel :=
  ⟨true, [some ⟨⟨0x1000, 8⟩, fun _ => 7⟩, some ⟨⟨0x2000, 8⟩, fun _ => 7⟩,
    some ⟨⟨0x3000, 16⟩, fun _ => 7⟩], none⟩

/-- The letters from A on. -/
def letters (i : ℕ) : Byte := BitVec.ofNat 8 (65 + i)

/-- Three bytes written at offset 1 are read from there. -/
theorem byte_store_same_offset : Always (step smallDevice) Serves (start smallDevice fun _ => some 0)
    [.open 0 2 threeChunks, .llseek 0 1 0, .write 0 letters 3 threeChunks, .llseek 0 1 0,
      .read 0 3 threeChunks] :=
  byte_store ⟨by decide, by decide, by decide⟩ _ (by decide +kernel)

/-- Two bytes are written at offset 1; the read at offset 2 does not return the second one. -/
theorem not_byte_store :
    ¬ Always (step smallDevice) ReadsRight (start smallDevice fun _ => some 0)
      [.open 0 2 threeChunks, .llseek 0 1 0, .write 0 letters 2 threeChunks, .llseek 0 2 0,
        .read 0 1 threeChunks] := by
  intro h
  have hrun : (run (step smallDevice) (start smallDevice fun _ => some 0)
      [.open 0 2 threeChunks, .llseek 0 1 0, .write 0 letters 2 threeChunks, .llseek 0 2 0,
        .read 0 1 threeChunks]).map (fun s => (s.got, s.writes)) =
      some (some (2, [0]), [⟨1, [65, 66]⟩]) := by decide
  obtain ⟨s, hs, hval⟩ := Option.map_eq_some_iff.mp hrun
  obtain ⟨hgot, hwrites⟩ := Prod.mk.inj hval
  have := h.last hs 2 [0] hgot 0 0 66 rfl (by rw [hwrites]; decide)
  exact absurd this (by decide)

end LinuxHomework.Scull.Store
