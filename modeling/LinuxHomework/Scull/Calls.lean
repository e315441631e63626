import LinuxHomework.Scull.Layout

/-! # The calls of the scull driver

What `scull_follow`, `scull_read` and `scull_write` do to a device whose list is in order, when
there is room behind the first item: up to the user copy the list only grows (`Grown`). Then the
read returns the bytes behind `dev->data + *f_pos` (`read_safe`), and the write puts the user's
bytes there (`write_safe`). -/

namespace LinuxHomework.Scull.Calls

open LinuxHomework.Lib.CInt LinuxHomework.Lib.Memory LinuxHomework.Lib.Chain
open LinuxHomework.Lib.Outcome LinuxHomework.Scull.Device LinuxHomework.Scull.Layout

/-- The first item that a call finds or makes. -/
def home (s : ScullDev) : Option Word :=
  if s.data ≠ 0 then some s.data
  else
    match s.answers with
    | some c :: _ => some c.addr
    | _ => none

/-- There is room behind the first item: its 121 bytes are mapped, and no other range meets those
from the ninth on. -/
def RoomFor (s : ScullDev) : Prop := ∀ D ∈ home s, Mapped s.mem D 121 ∧ Room D s

instance (s : ScullDev) : Decidable (RoomFor s) :=
  match h : home s with
  | none => isTrue fun D hD => by simp [h] at hD
  | some D => decidable_of_iff (Mapped s.mem D 121 ∧ Room D s) (by simp [RoomFor, h])

/-- **A call before its user copy**: the list has grown. -/
structure Grown (s s' : ScullDev) : Prop where
  quantum : s'.quantum = s.quantum
  qset : s'.qset = s.qset
  size : s'.size = s.size
  mapped : ∀ x, (s.mem x).isSome → (s'.mem x).isSome
  home : s'.data ≠ 0 → s'.data ∈ home s
  zone : s.data ≠ 0 → s'.data = s.data ∧ ∀ x, InRange (s.data + 8) 113 x → s'.mem x = s.mem x
  list : s'.data = 0 ∧ Items s' [] ∨ ∃ nodes, Good s'.data s' nodes

variable {s s' t : ScullDev} {nodes : List Word} {D : Word} {n : ℕ}

theorem home_of_data (h : s.data ≠ 0) : s.data ∈ home s := if_pos h

theorem Grown.items (h : Grown s t) : ∃ nodes, Items t nodes := by
  obtain ⟨-, hi⟩ | ⟨nodes, hg⟩ := h.list
  · exact ⟨[], hi⟩
  · exact ⟨nodes, hg.items⟩

theorem Grown.first_mapped (h : Grown s t) (hroom : RoomFor s) (ht : t.data ≠ 0) :
    Mapped t.mem t.data 121 := (hroom _ (h.home ht)).1.mono_mem h.mapped

theorem Grown.step (h : Grown s t) (hg : Good t.data t' nodes) (hk : Kept t.data t t') :
    Grown s t' := by
  have hd := hg.data
  refine ⟨hk.quantum.trans h.quantum, hk.qset.trans h.qset, hk.size.trans h.size,
    fun x hx => hk.mapped x (h.mapped x hx), fun h0 => ?_, fun h0 => ?_, Or.inr ⟨nodes, ?_⟩⟩
  · rw [hd] at h0 ⊢
    exact h.home h0
  · obtain ⟨hdata, hz⟩ := h.zone h0
    exact ⟨hd.trans hdata, fun x hx => (hk.zone x (hdata ▸ hx)).trans (hz x hx)⟩
  · rw [hd]
    exact hg

/-- **An empty list gets its first item.** -/
theorem newFirst_good {c : Chunk} {rest : List (Option Chunk)} (h : Items s []) (hroom : RoomFor s)
    (hd : s.data = 0) (hans : s.answers = some c :: rest) (hf : s.Fresh 8 c) :
    Good c.addr { s with
      data := c.addr, mem := fill (fill s.mem c.addr c.size c.raw) c.addr 8 fun _ => 0,
      live := c.toBlock :: s.live, answers := rest } [c.addr] := by
  obtain ⟨-, hR⟩ := hroom c.addr (by simp [home, hd, hans])
  have hmapped : ∀ x, (s.mem x).isSome →
      (fill (fill s.mem c.addr c.size c.raw) c.addr 8 (fun _ => 0) x).isSome :=
    fun x hx => isSome_fill (isSome_fill hx)
  have hzero (i : ℕ) (hi : i + 4 ≤ 8) : word (fill (fill s.mem c.addr c.size c.raw) c.addr 8
      fun _ => 0) (c.addr + BitVec.ofNat 32 i) = some 0 := word_fill_zero hi (by omega)
  have hnx : nx (fill (fill s.mem c.addr c.size c.raw) c.addr 8 fun _ => 0) c.addr =
      some none := by
    unfold nx
    rw [show c.addr + 4 = c.addr + BitVec.ofNat 32 4 from rfl, hzero 4 (by omega)]
    rfl
  refine ⟨⟨h.qset, ⟨if_neg hf.1, none, hnx, rfl⟩, fun a ha => ?_, fun a ha => ?_, ?_, ?_⟩, rfl,
    by simp, ⟨fun b hb hbD => ?_, fun c' hc' => hR.answers c' (by simp [hans, hc'])⟩⟩
  · rw [List.mem_singleton.mp ha]
    exact ⟨c.size, by simp, hf.2.1⟩
  · rw [List.mem_singleton.mp ha]
    exact ⟨0, by simpa using hzero 0 (by omega), fun h0 => absurd rfl h0⟩
  · intro b hb b' hb' hne
    rcases List.mem_cons.mp hb with rfl | hb <;> rcases List.mem_cons.mp hb' with rfl | hb'
    · exact absurd rfl hne
    · exact hf.2.2.2 b' hb'
    · exact (hf.2.2.2 b hb).symm
    · exact h.apart b hb b' hb' hne
  · intro b hb
    rcases List.mem_cons.mp hb with rfl | hb
    · exact hf.2.2.1.mono_mem hmapped
    · exact (h.mapped b hb).mono_mem hmapped
  · rcases List.mem_cons.mp hb with rfl | hb
    · exact absurd rfl hbD
    · exact hR.live b hb hbD

/-- **The first item** is there, or is made. -/
theorem firstItem_safe (h : Items s nodes) (hroom : RoomFor s) :
    Safe Unanswered (firstItem s) fun r =>
      Grown s r.2 ∧ (r.1 ≠ 0 → ∃ nodes, Good r.2.data r.2 nodes ∧ r.1 ∈ nodes) := by
  have hnil (hd : s.data = 0) : nodes = [] := by
    cases nodes with
    | nil => rfl
    | cons a l =>
      have hp := h.chain.1
      rw [hd] at hp
      exact absurd hp (by simp [ptr])
  refine firstItem_rule (fun hd => ?_) (fun hd rest hans => ?_) fun hd c rest hans hf => ?_
  · have hhome := home_of_data hd
    have hgood := h.good hd (hroom _ hhome).2
    exact ⟨⟨rfl, rfl, rfl, fun _ hx => hx, fun _ => hhome, fun _ => ⟨rfl, fun _ _ => rfl⟩,
      Or.inr ⟨_, hgood⟩⟩, fun _ => ⟨_, hgood, hgood.first⟩⟩
  · obtain rfl := hnil hd
    have hchain : Linked (nx s.mem) (ptr s.data) [] := h.chain
    refine ⟨⟨rfl, rfl, rfl, fun _ hx => hx, fun h0 => absurd hd h0, fun h0 => absurd hd h0,
      Or.inl ⟨hd, ⟨h.qset, hchain, by simp, by simp, h.apart, h.mapped⟩⟩⟩, fun h0 => absurd rfl h0⟩
  · obtain rfl := hnil hd
    have hgood := newFirst_good h hroom hd hans hf
    have hmapped : ∀ x, (s.mem x).isSome →
        (fill (fill s.mem c.addr c.size c.raw) c.addr 8 (fun _ => 0) x).isSome :=
      fun x hx => isSome_fill (isSome_fill hx)
    refine ⟨⟨rfl, rfl, rfl, hmapped, fun _ => ?_,
      fun h0 => absurd hd h0, Or.inr ⟨_, hgood⟩⟩, fun _ => ⟨_, hgood, by simp⟩⟩
    show c.addr ∈ home s
    simp [home, hd, hans]

/-- **`scull_follow`** finds an item, or makes it. -/
theorem follow_safe (h : Items s nodes) (hroom : RoomFor s) (i : ℤ) :
    Safe Unanswered (scullFollow s i) fun r =>
      Grown s r.2 ∧ (r.1 ≠ 0 → ∃ nodes, Good r.2.data r.2 nodes ∧ r.1 ∈ nodes) := by
  unfold scullFollow
  refine (firstItem_safe h hroom).bind ?_
  rintro ⟨qs, t⟩ ⟨hgrown, hqs⟩
  show Safe Unanswered (if qs = 0 then _ else _) _
  by_cases h0 : qs = 0
  · rw [if_pos h0]
    exact ⟨hgrown, fun h => absurd rfl h⟩
  · rw [if_neg h0]
    obtain ⟨nodes, hgood, hmem⟩ := hqs h0
    refine (followLoop_safe hgood _ hmem).mono ?_
    rintro ⟨p, t'⟩ ⟨nodes', hgood', hkept, hp⟩
    refine ⟨hgrown.step hgood' hkept, fun hp0 => ⟨nodes', ?_, hp hp0⟩⟩
    rw [hgood'.data]
    exact hgood'

/-! ### The place of a position -/

section Place
variable {q qs f : ℤ}

/-- The place of a position that is not negative, in a device whose items fit an `int`. -/
theorem place_eq (hq : 1 ≤ q) (hqs : 1 ≤ qs) (hfit : q * qs < 2 ^ 31) (hf : 0 ≤ f)
    (hlt : f < 2 ^ 31) :
    place q qs f = .ok ⟨f / (q * qs), f % (q * qs) / q, f % (q * qs) % q⟩ := by
  have hpos : 0 < q * qs := by positivity
  have hrest : 0 ≤ f % (q * qs) := Int.emod_nonneg _ hpos.ne'
  unfold place
  rw [wrap32_of_lt (by omega) hlt, wrap32_of_lt (by omega) hfit, divMod32_of_pos hf hpos]
  simp only
  rw [divMod32_of_pos hrest (by omega)]

theorem sPos_bounds (hq : 1 ≤ q) (hqs : 1 ≤ qs) :
    0 ≤ f % (q * qs) / q ∧ f % (q * qs) / q < qs := by
  have hpos : 0 < q * qs := by positivity
  have hrest : 0 ≤ f % (q * qs) := Int.emod_nonneg _ hpos.ne'
  have hlt : f % (q * qs) < q * qs := Int.emod_lt_of_pos _ hpos
  exact ⟨Int.ediv_nonneg hrest (by omega), Int.ediv_lt_of_lt_mul (by omega) (by linarith)⟩

theorem qPos_eq : f % (q * qs) % q = f % q := Int.emod_emod_of_dvd f (dvd_mul_right q qs)

/-- What is left of the quantum at a position. -/
theorem rest_eq {p : ℤ} (hq : 1 ≤ q) (hqs : 1 ≤ qs) (hfit : q * qs < 2 ^ 31) :
    (size32 (q - p % (q * qs) % q) : ℤ) = q - p % q := by
  have hqlt : q < 2 ^ 31 := by nlinarith
  have h0 : 0 ≤ p % q := Int.emod_nonneg _ (by omega)
  have hlt : p % q < q := Int.emod_lt_of_pos _ (by omega)
  rw [qPos_eq, size32_of_lt (by omega) (by omega)]

theorem qPos_bounds (hq : 1 ≤ q) : 0 ≤ f % q ∧ f % q < q :=
  ⟨Int.emod_nonneg _ (by omega), Int.emod_lt_of_pos _ (by omega)⟩

end Place

/-! ### Read -/

theorem grown_refl (h : Items s nodes) (hroom : RoomFor s) : Grown s s := by
  refine ⟨rfl, rfl, rfl, fun _ hx => hx, fun h0 => home_of_data h0,
    fun _ => ⟨rfl, fun _ _ => rfl⟩, ?_⟩
  by_cases hd : s.data = 0
  · refine Or.inl ⟨hd, h.qset, ?_, by simp, by simp, h.apart, h.mapped⟩
    rw [hd]
    rfl
  · exact Or.inr ⟨nodes, h.good hd (hroom _ (home_of_data hd)).2⟩

/-- What a read answers: nothing, or bytes behind `dev->data + *f_pos`, as many as were asked for
and as there are in the file and in the quantum. -/
structure ReadBytes (s : ScullDev) (count : ℕ) (p : ℤ) (r : Reply × ScullDev) : Prop where
  grown : Grown s r.2
  fPos : 0 ≤ r.1.fPos ∧ r.1.fPos < 2 ^ 63
  bytes : 0 ≤ r.1.retval → r.1.bytes = [] ∨ ∃ n : ℕ, n ≤ count ∧ p + n ≤ s.size ∧
    n ≤ s.quantum - p % s.quantum ∧ r.1.bytes = (List.range n).map fun i =>
      (r.2.mem (copyAddr r.2 p + BitVec.ofNat 32 i)).getD 0

/-- The addresses of the user copies are among the 121 bytes from the first item on. -/
theorem copy_mapped (hmap : Mapped t.mem t.data 121) {p : ℤ} (hp : 0 ≤ p ∧ p ≤ 16) (hn : p + n ≤ 16)
    (hn0 : p = 16 → n = 0) : Mapped t.mem (copyAddr t p) n := by
  have haddr : copyAddr t p = t.data + BitVec.ofNat 32 (8 * p).toNat := by
    unfold copyAddr
    rw [← BitVec.ofInt_natCast, Int.toNat_of_nonneg (by omega)]
  rw [haddr]
  by_cases h16 : p = 16
  · rw [hn0 h16]
    exact fun i hi => absurd hi (by omega)
  · exact hmap.sub _ (by omega)

/-- The first bound on the size of a read: it ends at the end of the file. -/
theorem read_clip {count : ℕ} {p : ℤ} (hsize : s.size ≤ 16) (hcount : count < 2 ^ 32)
    (hp : 0 ≤ p ∧ p < s.size) : ∃ n : ℕ,
      (if wrap64 (p + count) > s.size then size32 (s.size - p) else count) = n ∧
        n ≤ count ∧ p + n ≤ s.size := by
  have hw : wrap64 (p + count) = p + count := wrap64_of_lt (by omega) (by omega)
  have hs : (size32 (s.size - p) : ℤ) = s.size - p := size32_of_lt (by omega) (by omega)
  rw [hw]
  split_ifs with hgt
  · exact ⟨_, rfl, by omega, by omega⟩
  · exact ⟨_, rfl, le_rfl, by omega⟩

theorem read_safe {k : Kernel} {count : ℕ} {p : ℤ} (h : Items s nodes) (hroom : RoomFor s)
    (hq : 1 ≤ s.quantum) (hfit : s.quantum * s.qset < 2 ^ 31) (hsize : s.size ≤ 16)
    (hcount : count < 2 ^ 32) (hp : 0 ≤ p ∧ p < 2 ^ 63) :
    Safe Unanswered (scullRead k s count p) (ReadBytes s count p) := by
  have hnone : ∀ v : ℤ, ∀ sem t, Grown s t → ReadBytes s count p (⟨v, p, [], none, sem⟩, t) :=
    fun v sem t ht => ⟨ht, hp, fun _ => Or.inl rfl⟩
  unfold scullRead
  by_cases htaken : ¬ k.taken
  · rw [if_pos htaken]
    exact hnone _ _ s (grown_refl h hroom)
  rw [if_neg htaken]
  by_cases heof : p ≥ s.size
  · rw [if_pos heof]
    exact hnone _ _ s (grown_refl h hroom)
  rw [if_neg heof]
  obtain ⟨count', hclip, hle, hend⟩ := read_clip hsize hcount ⟨hp.1, not_le.mp heof⟩
  rw [hclip, place_eq hq h.qset.1 hfit hp.1 (by omega)]
  refine (follow_safe h hroom _).bind ?_
  rintro ⟨dptr, t⟩ ⟨hgrown, hdptr⟩
  show Safe Unanswered (if dptr = 0 then _ else _) _
  by_cases h0 : dptr = 0
  · rw [if_pos h0]
    exact hnone _ _ t hgrown
  rw [if_neg h0]
  obtain ⟨nodes', hgood, hmem⟩ := hdptr h0
  obtain ⟨d, hd, harr⟩ := hgood.items.array dptr hmem
  show Safe Unanswered (t.load dptr >>= _) _
  rw [load_eq hd]
  show Safe Unanswered (if d = 0 then _ else _) _
  by_cases hd0 : d = 0
  · rw [if_pos hd0]
    exact hnone _ _ t hgrown
  rw [if_neg hd0]
  obtain ⟨hdn, k', hk', hqk⟩ := harr hd0
  have hsPos := sPos_bounds (f := p) hq h.qset.1
  rw [← hgrown.qset] at hsPos
  obtain ⟨w, hw⟩ := (hgood.entry_mapped hk' hqk hsPos).word le_rfl
  rw [hgrown.qset] at hw
  show Safe Unanswered (t.load _ >>= _) _
  rw [load_eq hw]
  show Safe Unanswered (if w = 0 then _ else _) _
  by_cases hw0 : w = 0
  · rw [if_pos hw0]
    exact hnone _ _ t hgrown
  rw [if_neg hw0]
  have ht0 : t.data ≠ 0 := hgood.items.item_ne_zero hgood.first
  have hrest : (size32 (t.quantum - p % (s.quantum * s.qset) % s.quantum) : ℤ) =
      s.quantum - p % s.quantum := by
    rw [hgrown.quantum]
    exact rest_eq hq h.qset.1 hfit
  obtain ⟨n, hn⟩ : ∃ n, min count' (size32 (t.quantum - p % (s.quantum * s.qset) % s.quantum)) = n :=
    ⟨_, rfl⟩
  have hmapped : ∀ j ≤ n, Mapped t.mem (copyAddr t p) j := fun j hj =>
    copy_mapped (hgrown.first_mapped hroom ht0) (by omega) (by omega) (by omega)
  have hcopy : copyToUser t k (copyAddr t p) n = .ok ((List.range ((k.fault.getD n).min n)).map
      fun i => (t.mem (copyAddr t p + BitVec.ofNat 32 i)).getD 0) :=
    if_pos (hmapped _ (Nat.min_le_right _ _))
  show Safe Unanswered (copyToUser t k _ (min count' _) >>= _) _
  rw [hn, hcopy]
  show Safe Unanswered (if k.faults n then _ else _) _
  by_cases hfault : k.faults n
  · rw [if_pos hfault]
    exact ⟨hgrown, hp, fun hr => absurd hr (by show ¬ (0 ≤ -EFAULT); decide)⟩
  · rw [if_neg hfault]
    have hwrap : wrap64 (p + n) = p + n := wrap64_of_lt (by omega) (by omega)
    have hmin : (k.fault.getD n).min n = n := Nat.min_eq_right (not_lt.mp hfault)
    refine ⟨hgrown, ?_, fun _ => Or.inr ⟨n, by omega, by omega, by omega, ?_⟩⟩
    · show 0 ≤ wrap64 (p + n) ∧ wrap64 (p + n) < 2 ^ 63
      omega
    · show List.map _ _ = _
      rw [hmin]

/-! ### Write -/

/-- What a write does: nothing but make the list longer, or put the user's first `n` bytes behind
`dev->data + *f_pos`. -/
structure WriteBytes (s : ScullDev) (buf : ℕ → Byte) (p : ℤ) (r : Reply × ScullDev) : Prop where
  fPos : 0 ≤ r.1.fPos ∧ r.1.fPos < 2 ^ 63
  bytes : ∃ t, Grown s t ∧ (r.1.retval ≤ 0 ∧ r.2 = t ∨ t.data ≠ 0 ∧ ∃ n : ℕ, p + n ≤ 16 ∧
    (p = 0 → n = 0) ∧ r.1.retval = n ∧ r.1.bytes = (List.range n).map buf ∧ ∃ size ≤ 16,
      r.2 = { t with mem := fill t.mem (copyAddr t p) n buf, size := size })

/-- The size of a write from a position of at most 16: it ends there. -/
theorem write_clip {count : ℕ} {p : ℤ} (hcount : count < 2 ^ 32) (hp : 0 ≤ p ∧ p ≤ 16) :
    ∃ n : ℕ, (if wrap64 (p + count) > SCULL_DATA_SIZE then size32 (SCULL_DATA_SIZE - p)
      else count) = n ∧ n ≤ count ∧ p + n ≤ 16 := by
  have hw : wrap64 (p + count) = p + count := wrap64_of_lt (by omega) (by omega)
  have hs : (size32 (16 - p) : ℤ) = 16 - p := size32_of_lt (by omega) (by omega)
  rw [hw, SCULL_DATA_SIZE]
  split_ifs with hgt
  · exact ⟨_, rfl, by omega, by omega⟩
  · exact ⟨_, rfl, le_rfl, by omega⟩

theorem write_safe {k : Kernel} {buf : ℕ → Byte} {count : ℕ} {p : ℤ} (h : Items s nodes)
    (hroom : RoomFor s) (hq : 1 ≤ s.quantum) (hfit : s.quantum * s.qset < 2 ^ 31)
    (hsize : s.size ≤ 16) (hcount : count < 2 ^ 32) (hp : 0 ≤ p ∧ p ≤ 16)
    (hp0 : p = 0 → count = 0) (hfault : k.fault = none) :
    Safe Unanswered (scullWrite k s buf count p) (WriteBytes s buf p) := by
  have hnone : ∀ v : ℤ, v ≤ 0 → ∀ sem t, Grown s t →
      WriteBytes s buf p (⟨v, p, [], none, sem⟩, t) :=
    fun v hv sem t ht => ⟨⟨hp.1, by show p < 2 ^ 63; omega⟩, t, ht, Or.inl ⟨hv, rfl⟩⟩
  unfold scullWrite
  by_cases htaken : ¬ k.taken
  · rw [if_pos htaken]
    exact hnone _ (by decide) _ s (grown_refl h hroom)
  rw [if_neg htaken, place_eq hq h.qset.1 hfit hp.1 (by omega)]
  refine (follow_safe h hroom _).bind ?_
  rintro ⟨dptr, t₁⟩ ⟨hgrown₁, hdptr⟩
  show Safe Unanswered (if dptr = 0 then _ else _) _
  by_cases h0 : dptr = 0
  · rw [if_pos h0]
    exact hnone _ (by decide) _ t₁ hgrown₁
  rw [if_neg h0]
  obtain ⟨nodes', hgood₁, hmem⟩ := hdptr h0
  refine (itemData_safe hgood₁ hmem).bind ?_
  rintro ⟨d, t₂⟩ ⟨hgood₂, hkept₂, hd⟩
  have hgrown₂ := hgrown₁.step hgood₂ hkept₂
  show Safe Unanswered (if d = 0 then _ else _) _
  by_cases hd0 : d = 0
  · rw [if_pos hd0]
    exact hnone _ (by decide) _ t₂ hgrown₂
  rw [if_neg hd0]
  obtain ⟨hdn, k', hk', hqk⟩ := hd hd0
  have hsPos := sPos_bounds (f := p) hq h.qset.1
  refine (entryQuantum_safe hgood₂ hk' hdn (hkept₂.qset ▸ hqk) (hgrown₂.qset ▸ hsPos)).bind ?_
  rintro ⟨w, t⟩ ⟨hgood, hkept⟩
  have hgrown : Grown s t := by
    have hdata : t₂.data = t₁.data := hgood₂.data
    exact hgrown₂.step (hdata ▸ hgood) (hdata ▸ hkept)
  show Safe Unanswered (if w = 0 then _ else _) _
  by_cases hw0 : w = 0
  · rw [if_pos hw0]
    exact hnone _ (by decide) _ t hgrown
  rw [if_neg hw0]
  have ht0 : t.data ≠ 0 := hgood.data ▸ hgood₁.items.item_ne_zero hgood₁.first
  -- the copy ends at the end of the quantum, and at `SCULL_DATA_SIZE`
  obtain ⟨count', hmin⟩ : ∃ c, min count (size32 (t.quantum - p % (s.quantum * s.qset) %
    s.quantum)) = c := ⟨_, rfl⟩
  have hcount' : count' < 2 ^ 32 := by omega
  obtain ⟨n, hclip, hle, hend⟩ := write_clip hcount' hp
  have hmapped := copy_mapped (hgrown.first_mapped hroom ht0) hp hend (by omega)
  have hcopy : copyFromUser t k (copyAddr t p) buf n =
      .ok { t with mem := fill t.mem (copyAddr t p) n buf } := by
    unfold copyFromUser
    rw [write_eq hmapped, fill_congr fun i hi => if_neg ?_]
    rw [hfault]
    exact not_le.mpr hi
  show Safe Unanswered (copyFromUser t k _ buf (if wrap64 (p + (min count _ : ℕ)) > _ then _ else
    min count _) >>= _) _
  rw [hmin, hclip, hcopy]
  have hno : ¬ k.faults n := by
    unfold Kernel.faults
    rw [hfault]
    exact lt_irrefl n
  have hwrap : wrap64 (p + n) = p + n := wrap64_of_lt (by omega) (by omega)
  have hs32 : (size32 (p + n) : ℤ) = p + n := size32_of_lt (by omega) (by omega)
  have hsize' := hgrown.size
  have hnone0 : p = 0 → n = 0 := by omega
  show Safe Unanswered (if k.faults n then _ else _) _
  rw [if_neg hno, wrap32_of_lt (by omega) (by omega)]
  refine ⟨?_, t, hgrown, Or.inr ⟨ht0, n, hend, hnone0, rfl, rfl,
    if (t.size : ℤ) < p + n then size32 (p + n) else t.size, ?_, ?_⟩⟩
  · show 0 ≤ wrap64 (p + n) ∧ wrap64 (p + n) < 2 ^ 63
    omega
  · split_ifs <;> omega
  · show (if (t.size : ℤ) < wrap64 (p + n) then _ else _) = _
    rw [hwrap]
    split_ifs <;> rfl

end LinuxHomework.Scull.Calls
