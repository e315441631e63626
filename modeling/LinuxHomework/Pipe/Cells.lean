import LinuxHomework.Lib.Ring
import LinuxHomework.Pipe.Device

/-! # The content of the pipe device

The buffer is a ring of `buffersize` bytes in which the bytes from `rp` up to `wp` are unread
(`unread`); one byte stays free, so that an empty ring and a full one differ. `Valid N dev` says
that the pointers are in the buffer.

* `unread_moveRp`: what `scull_p_read` copies out is what it takes from the front.
* `unread_moveWp`: what `scull_p_write` copies in is appended, and never overtakes `rp`.
* `unread_copyIn`: bytes copied in by a write that faults are not part of the content. -/

namespace LinuxHomework.Pipe.Cells

open LinuxHomework.Lib.CInt LinuxHomework.Lib.Ring LinuxHomework.Pipe.Device

/-- The pointers are in a buffer of `N` bytes. -/
structure Valid (N : ℤ) (dev : ScullPipe) : Prop where
  size : dev.buffersize = N
  bufEnd : dev.bufEnd = dev.buffer + N
  rp_ge : dev.buffer ≤ dev.rp
  rp_lt : dev.rp < dev.buffer + N
  wp_ge : dev.buffer ≤ dev.wp
  wp_lt : dev.wp < dev.buffer + N

/-- The number of unread bytes. -/
def used (dev : ScullPipe) : ℕ := ((dev.wp - dev.rp) % dev.buffersize).toNat

/-- The bytes of the buffer. -/
def cells (dev : ScullPipe) : ℕ → UInt8 := fun i => dev.mem (dev.buffer + i)

/-- The unread bytes, from `rp` up to `wp`. -/
def unread (dev : ScullPipe) : List UInt8 :=
  if dev.buffer = 0 then []
  else ring (cells dev) dev.buffersize.toNat (dev.rp - dev.buffer).toNat (used dev)

variable {N : ℤ} {dev : ScullPipe} {k : Kernel} {f : Mode} {n : ℕ} {buf : ℕ → UInt8}

theorem unread_of_ne (dev : ScullPipe) (h : dev.buffer ≠ 0) : unread dev =
    ring (cells dev) dev.buffersize.toNat (dev.rp - dev.buffer).toNat (used dev) := if_neg h

/-! ### How much is read and written at once -/

/-- The unread bytes, by the two cases of the pointers. -/
theorem Valid.used_eq (h : Valid N dev) :
    (used dev : ℤ) = if dev.rp ≤ dev.wp then dev.wp - dev.rp else dev.wp - dev.rp + N := by
  obtain ⟨hN, -, h1, h2, h3, h4⟩ := h
  unfold used
  rw [hN, Int.toNat_of_nonneg (Int.emod_nonneg _ (by omega))]
  split_ifs with hle
  · exact Int.emod_eq_of_lt (by omega) (by omega)
  · rw [← Int.add_emod_right]
    exact Int.emod_eq_of_lt (by omega) (by omega)

theorem Valid.used_lt (h : Valid N dev) : (used dev : ℤ) < N := by
  have hused := h.used_eq
  obtain ⟨-, -, h1, h2, h3, h4⟩ := h
  split_ifs at hused <;> omega

theorem Valid.used_eq_zero (h : Valid N dev) : used dev = 0 ↔ dev.rp = dev.wp := by
  have hused := h.used_eq
  obtain ⟨-, -, h1, h2, h3, h4⟩ := h
  split_ifs at hused <;> omega

/-- One byte of the buffer is never used. -/
theorem Valid.spacefree_eq (h : Valid N dev) : spacefree dev = N - 1 - used dev := by
  have hused := h.used_eq
  obtain ⟨hN, -, h1, h2, h3, h4⟩ := h
  unfold spacefree
  rw [hN]
  by_cases heq : dev.rp = dev.wp
  · rw [if_pos heq]
    rw [if_pos heq.le] at hused
    omega
  · rw [if_neg heq, Int.tmod_eq_emod_of_nonneg (by omega)]
    split_ifs at hused with hle
    · rw [Int.emod_eq_of_lt (by omega) (by omega)]
      omega
    · rw [show dev.rp + N - dev.wp = dev.rp - dev.wp + N by ring, Int.add_emod_right,
        Int.emod_eq_of_lt (by omega) (by omega)]
      omega

theorem size32_le {x : ℤ} (hx : 0 ≤ x) : (size32 x : ℤ) ≤ x := by
  unfold size32
  omega

/-- A read takes no more than there is, and not around the end. -/
theorem Valid.readCount_le (h : Valid N dev) (hne : dev.rp ≠ dev.wp) (count : ℕ) :
    readCount dev count ≤ used dev ∧ dev.rp + readCount dev count ≤ dev.bufEnd := by
  have hused := h.used_eq
  obtain ⟨-, hend, h1, h2, h3, h4⟩ := h
  unfold readCount
  split_ifs at hused ⊢ with hlt hle hle
  · have := size32_le (x := dev.wp - dev.rp) (by omega)
    omega
  · omega
  · omega
  · have := size32_le (x := dev.bufEnd - dev.rp) (by omega)
    omega

/-- A write accepts no more than fits, and not around the end. -/
theorem Valid.writeCount_le (h : Valid N dev) (count : ℕ) :
    (used dev + writeCount dev count : ℤ) ≤ N - 1 ∧
      dev.wp + writeCount dev count ≤ dev.bufEnd := by
  have hspace := h.spacefree_eq
  have hlt := h.used_lt
  have hsize := size32_le (x := spacefree dev) (by omega)
  obtain ⟨-, hend, h1, h2, h3, h4⟩ := h
  simp only [writeCount]
  split_ifs with hge
  · have := size32_le (x := dev.bufEnd - dev.wp) (by omega)
    omega
  · have := size32_le (x := dev.rp - dev.wp - 1) (by omega)
    omega

/-! ### The pointers move -/

/-- A pointer that moves on stays in the buffer. -/
theorem Valid.advance_mem (h : Valid N dev) {p : ℤ} (hp : dev.buffer ≤ p)
    (hn : p + n ≤ dev.bufEnd) :
    dev.buffer ≤ advance dev p n ∧ advance dev p n < dev.buffer + N := by
  obtain ⟨-, hend, h1, h2, h3, h4⟩ := h
  unfold advance
  split_ifs <;> omega

/-- The offset of a pointer that moves on. -/
theorem Valid.advance_offset (h : Valid N dev) {p : ℤ} (hp : dev.buffer ≤ p)
    (hn : p + n ≤ dev.bufEnd) :
    (advance dev p n - dev.buffer).toNat = ((p - dev.buffer).toNat + n) % N.toNat := by
  obtain ⟨-, hend, h1, h2, h3, h4⟩ := h
  unfold advance
  split_ifs with heq
  · rw [show (p - dev.buffer).toNat + n = N.toNat by omega, Nat.mod_self]
    omega
  · rw [Nat.mod_eq_of_lt (by omega)]
    omega

theorem valid_moveRp (h : Valid N dev) (hn : dev.rp + n ≤ dev.bufEnd) : Valid N (moveRp dev n) := by
  obtain ⟨hge, hlt⟩ := h.advance_mem h.rp_ge hn
  exact ⟨h.size, h.bufEnd, hge, hlt, h.wp_ge, h.wp_lt⟩

theorem valid_moveWp (h : Valid N dev) (hn : dev.wp + n ≤ dev.bufEnd) : Valid N (moveWp dev n) := by
  obtain ⟨hge, hlt⟩ := h.advance_mem h.wp_ge hn
  exact ⟨h.size, h.bufEnd, h.rp_ge, h.rp_lt, hge, hlt⟩

theorem valid_copyIn (h : Valid N dev) : Valid N (copyIn dev k buf n) :=
  ⟨h.size, h.bufEnd, h.rp_ge, h.rp_lt, h.wp_ge, h.wp_lt⟩

theorem Valid.used_moveRp (h : Valid N dev) (hused : n ≤ used dev)
    (hn : dev.rp + n ≤ dev.bufEnd) : used (moveRp dev n) = used dev - n := by
  have hnew := (valid_moveRp h hn).used_eq
  have hold := h.used_eq
  obtain ⟨-, hend, h1, h2, h3, h4⟩ := h
  have hrp : (moveRp dev n).rp = if dev.rp + n = dev.bufEnd then dev.buffer else dev.rp + n := rfl
  have hwp : (moveRp dev n).wp = dev.wp := rfl
  rw [hrp, hwp] at hnew
  split_ifs at hnew hold <;> omega

theorem Valid.used_moveWp (h : Valid N dev) (hused : (used dev + n : ℤ) ≤ N - 1)
    (hn : dev.wp + n ≤ dev.bufEnd) : used (moveWp dev n) = used dev + n := by
  have hnew := (valid_moveWp h hn).used_eq
  have hold := h.used_eq
  obtain ⟨-, hend, h1, h2, h3, h4⟩ := h
  have hwp : (moveWp dev n).wp = if dev.wp + n = dev.bufEnd then dev.buffer else dev.wp + n := rfl
  have hrp : (moveWp dev n).rp = dev.rp := rfl
  rw [hrp, hwp] at hnew
  split_ifs at hnew hold <;> omega

/-- `wp` is where the unread bytes end. -/
theorem Valid.wp_offset (h : Valid N dev) : (dev.wp - dev.buffer).toNat =
    ((dev.rp - dev.buffer).toNat + used dev) % N.toNat := by
  have hused := h.used_eq
  obtain ⟨-, hend, h1, h2, h3, h4⟩ := h
  split_ifs at hused with hle
  · rw [Nat.mod_eq_of_lt (by omega)]
    omega
  · rw [show (dev.rp - dev.buffer).toNat + used dev = (dev.wp - dev.buffer).toNat + N.toNat by
      omega, Nat.add_mod_right, Nat.mod_eq_of_lt (by omega)]

/-! ### The content -/

/-- **A read** returns what it takes from the front. -/
theorem Valid.unread_moveRp (h : Valid N dev) (hb : dev.buffer ≠ 0) (hused : n ≤ used dev)
    (hn : dev.rp + n ≤ dev.bufEnd) : unread dev = copyOut dev n ++ unread (moveRp dev n) := by
  have hoff := h.advance_offset h.rp_ge hn
  have hcopy : copyOut dev n =
      ring (cells dev) N.toNat (dev.rp - dev.buffer).toNat n := by
    rw [ring_of_le (by have := h.bufEnd; have := h.rp_ge; omega)]
    unfold copyOut cells
    refine List.map_congr_left fun i _ => ?_
    have := h.rp_ge
    congr 1
    omega
  rw [unread_of_ne dev hb, unread_of_ne (moveRp dev n) hb, h.used_moveRp hused hn, hcopy,
    h.size, (valid_moveRp h hn).size]
  obtain ⟨m, hm⟩ := Nat.exists_eq_add_of_le hused
  rw [hm, ring_add, Nat.add_sub_cancel_left, ← hoff]
  rfl

/-- What a user copy leaves in the buffer. -/
theorem Valid.cells_copyIn (h : Valid N dev) : cells (copyIn dev k buf n) =
    put (cells dev) (dev.wp - dev.buffer).toNat n
      fun i => if k.fault.getD n ≤ i then 0 else buf i := by
  funext i
  have := h.wp_ge
  simp only [cells, copyIn, fill, put]
  have hcond : dev.wp ≤ dev.buffer + i ∧ dev.buffer + i < dev.wp + n ↔
      (dev.wp - dev.buffer).toNat ≤ i ∧ i < (dev.wp - dev.buffer).toNat + n := by omega
  rw [if_congr hcond (by rw [show (dev.buffer + i - dev.wp).toNat =
    i - (dev.wp - dev.buffer).toNat by omega]) rfl]

/-- **A copy into free space** leaves the content as it is. -/
theorem Valid.unread_copyIn (h : Valid N dev) (hused : (used dev + n : ℤ) ≤ N - 1)
    (hn : dev.wp + n ≤ dev.bufEnd) (k : Kernel) (buf : ℕ → UInt8) :
    unread (copyIn dev k buf n) = unread dev := by
  by_cases hb : dev.buffer = 0
  · rw [unread, unread, if_pos hb]
    exact if_pos hb
  · have hend := h.bufEnd
    rw [unread_of_ne (copyIn dev k buf n) hb, unread_of_ne dev hb, h.cells_copyIn, h.size]
    change ring _ dev.buffersize.toNat _ (used dev) = _
    rw [h.size]
    exact ring_put_same (by omega) h.wp_offset (by omega)

/-- **A write** appends what it accepts. -/
theorem Valid.unread_moveWp (h : Valid N dev) (hb : dev.buffer ≠ 0)
    (hused : (used dev + n : ℤ) ≤ N - 1) (hn : dev.wp + n ≤ dev.bufEnd) (hk : ¬ k.faults n) :
    unread (moveWp (copyIn dev k buf n) n) = unread dev ++ (List.range n).map buf := by
  have hend := h.bufEnd
  have hlen : used (moveWp (copyIn dev k buf n) n) = used dev + n :=
    Valid.used_moveWp (valid_copyIn h) hused hn
  have hcells : cells (moveWp (copyIn dev k buf n) n) =
      put (cells dev) (dev.wp - dev.buffer).toNat n
        fun i => if k.fault.getD n ≤ i then 0 else buf i := h.cells_copyIn
  rw [unread_of_ne (moveWp (copyIn dev k buf n) n) hb, unread_of_ne dev hb, hlen, hcells]
  change ring _ dev.buffersize.toNat (dev.rp - dev.buffer).toNat _ = _
  rw [h.size, ring_put (by omega) h.wp_offset (by omega)]
  congr 1
  refine List.map_congr_left fun i hi => if_neg ?_
  have hlt := List.mem_range.mp hi
  unfold Kernel.faults at hk
  omega

theorem unread_eq_nil (h : Valid N dev) (hb : dev.buffer ≠ 0) :
    unread dev = [] ↔ dev.rp = dev.wp := by
  rw [unread_of_ne dev hb, ← List.length_eq_zero_iff, length_ring, h.used_eq_zero]

/-! ### `scull_p_open` and `scull_p_release` -/

theorem valid_enter (hN : 1 ≤ N) : Valid N (enter N f dev) := by
  constructor <;> simp only [enter] <;> omega

/-- **A new reader or writer** starts from an empty ring. -/
theorem unread_enter : unread (enter N f dev) = [] := by
  unfold unread
  split_ifs with hb
  · rfl
  · simp [used, enter]

theorem unread_leave : unread (leave f dev) = unread dev := rfl

theorem valid_leave (h : Valid N dev) : Valid N (leave f dev) :=
  ⟨h.size, h.bufEnd, h.rp_ge, h.rp_lt, h.wp_ge, h.wp_lt⟩

theorem unread_releaseBuffer : unread (releaseBuffer dev) =
    if dev.nreaders + dev.nwriters = 0 then [] else unread dev := by
  unfold releaseBuffer
  split_ifs
  · exact if_pos rfl
  · rfl

end LinuxHomework.Pipe.Cells
