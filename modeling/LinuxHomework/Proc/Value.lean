import LinuxHomework.Lib.Buffer
import LinuxHomework.Lib.Runs
import LinuxHomework.Proc.Report

/-! # The value of a proc file, `4/m2/pm2.c`

A write to the file puts the first bytes of the user's, 16 at most, to `mydata.value` and a NUL over
the last of them; a read of the file prints `mydata.value` with `%s`. Memory is addressed from the
start of `mydata.value`, so that the array is `0, ..., 15`, and the places stored to are kept in the
order of the stores.

* `bounded_procWrite_iff`: a write keeps the value a string inside its array exactly if its `count`
  is not `0`. Where it is `0`, the NUL goes to the place before the array.
* `always_bounded_iff`: so do the writes of a run, from `"Ticks="` on.
* `Bounded.exists_data`: what a read prints, then, is a text of less than 16 bytes. -/

namespace LinuxHomework.Proc.Value

open LinuxHomework.Lib.Buffer LinuxHomework.Lib.Runs LinuxHomework.Proc.Report

/-- `MYDATA_LEN`. -/
def mydataLen : ℕ := 16

def efault : ℤ := 14

/-- A call of `proc_write`: its `count`, the bytes behind its `buffer`, and how many of them can be
copied before a fault, if there is one. -/
structure Call where
  count : ℕ
  buffer : ℕ → UInt8
  fault : Option ℕ

/-- The bytes that `copy_from_user` stores, and how many it has not copied. For these it stores
zeros. -/
def copyFromUser (buffer : ℕ → UInt8) (fault : Option ℕ) (len : ℕ) : List UInt8 × ℕ :=
  let copied := min len (fault.getD len)
  ((List.range copied).map buffer ++ List.replicate (len - copied) 0, len - copied)

/-- `len`, as both `pm2.c` and `pm3.c` clamp it. -/
def Call.len (c : Call) : ℕ := if c.count > mydataLen then mydataLen else c.count

/-- Memory, and the places that have been stored to. -/
structure State where
  mem : ℤ → UInt8
  stores : List ℤ

/-- The bytes are stored from place `p` on. -/
def State.put (s : State) (p : ℤ) (bytes : List UInt8) : State where
  mem q := if 0 ≤ q - p then bytes.getD (q - p).toNat (s.mem q) else s.mem q
  stores := s.stores ++ (List.range bytes.length).map fun i : ℕ => p + i

/-- `strcpy(mydata.value, "Ticks=")` of `init_module`, in any memory. -/
def initModule (mem : ℤ → UInt8) : State :=
  (State.mk mem []).put 0 (bytes ['T', 'i', 'c', 'k', 's', '='] ++ [0])

/-- `proc_write`. -/
def procWrite (c : Call) (s : State) : ℤ × State :=
  let len := c.len
  let (bytes, left) := copyFromUser c.buffer c.fault len
  let s := s.put 0 bytes
  if left ≠ 0 then (-efault, s)
  -- `mydatap->value[len-1]='\0'`
  else (len, s.put (len - 1) [0])

/-- The runs of the file: one write after another. -/
def step (s : State) (c : Call) : Option State := some (procWrite c s).2

/-- What `%s` finds in `mydata.value`; `none` if it reads on behind the array. -/
def State.data (s : State) : Option MyProcData :=
  (cString mydataLen fun i => if s.mem i = 0 then none else some (s.mem i)).map MyProcData.mk

/-- The value is a string inside its array, and nothing has been stored beside the array. -/
structure Bounded (s : State) : Prop where
  inside : ∀ p ∈ s.stores, 0 ≤ p ∧ p < mydataLen
  ended : ∃ i < mydataLen, s.mem i = 0
  data : s.data.isSome

variable {s : State} {c : Call} {as : List Call} {mem : ℤ → UInt8} {text : List UInt8} {p q : ℤ}
  {i len : ℕ} {buffer : ℕ → UInt8} {fault : Option ℕ}

/-! ### Stores -/

theorem mem_stores_put :
    q ∈ (s.put p text).stores ↔ q ∈ s.stores ∨ p ≤ q ∧ q < p + text.length := by
  unfold State.put
  rw [List.mem_append, List.mem_map]
  refine or_congr_right ⟨?_, fun h => ⟨(q - p).toNat, ?_, by omega⟩⟩
  · rintro ⟨i, hi, rfl⟩
    have := List.mem_range.mp hi
    omega
  · rw [List.mem_range]
    omega

theorem put_of_getElem? {b : UInt8} (h : text[i]? = some b) : (s.put p text).mem (p + i) = b := by
  unfold State.put
  simp only
  rw [if_pos (by omega), show (p + (i : ℤ) - p).toNat = i by omega,
    List.getD_eq_getElem?_getD, h, Option.getD_some]

/-! ### One write -/

theorem len_le : c.len ≤ mydataLen := by
  unfold Call.len
  split_ifs with h
  · exact le_rfl
  · omega

theorem len_eq_zero_iff : c.len = 0 ↔ c.count = 0 := by
  unfold Call.len
  split_ifs with h
  · have : mydataLen ≠ 0 := by decide
    omega
  · exact Iff.rfl

theorem length_copyFromUser : (copyFromUser buffer fault len).1.length = len := by
  simp only [copyFromUser, List.length_append, List.length_map, List.length_range,
    List.length_replicate]
  omega

/-- A copy that faults leaves a zero behind what it has copied. -/
theorem exists_zero_of_fault (h : (copyFromUser buffer fault len).2 ≠ 0) :
    ∃ i < len, (copyFromUser buffer fault len).1[i]? = some 0 := by
  unfold copyFromUser at h ⊢
  simp only at h ⊢
  refine ⟨min len (fault.getD len), by omega, ?_⟩
  rw [List.getElem?_append_right (by simp), List.length_map, List.length_range, Nat.sub_self,
    List.getElem?_replicate_of_lt (by omega)]

/-- The value is a string exactly if it has a NUL. -/
theorem isSome_data_iff : s.data.isSome ↔ ∃ i < mydataLen, s.mem i = 0 := by
  unfold State.data
  rw [Option.isSome_map, isSome_cString_iff]
  simp

theorem bounded_iff : Bounded s ↔
    (∀ p ∈ s.stores, 0 ≤ p ∧ p < mydataLen) ∧ ∃ i < mydataLen, s.mem i = 0 :=
  ⟨fun h => ⟨h.inside, h.ended⟩, fun h => ⟨h.1, h.2, isSome_data_iff.mpr h.2⟩⟩

/-- Every write with a `count` leaves a NUL in the array: behind what has been copied, or at the
last place that has been copied to. -/
theorem ended_procWrite (h : c.count ≠ 0) : ∃ i < mydataLen, (procWrite c s).2.mem i = 0 := by
  have hlen := len_le (c := c)
  have hpos : c.len ≠ 0 := fun h0 => h (len_eq_zero_iff.mp h0)
  unfold procWrite
  simp only
  split_ifs with hleft
  · obtain ⟨i, hi, hzero⟩ := exists_zero_of_fault hleft
    refine ⟨i, by omega, ?_⟩
    have := put_of_getElem? (s := s) (p := 0) hzero
    rwa [zero_add] at this
  · refine ⟨c.len - 1, by omega, ?_⟩
    rw [show ((c.len - 1 : ℕ) : ℤ) = (c.len : ℤ) - 1 + (0 : ℕ) by omega]
    exact put_of_getElem? rfl

/-- The places a write stores to. -/
theorem mem_stores_procWrite (hp : p ∈ (procWrite c s).2.stores) :
    p ∈ s.stores ∨ 0 ≤ p ∧ p < c.len ∨ p = c.len - 1 := by
  unfold procWrite at hp
  simp only at hp
  split_ifs at hp with hleft
  · rw [mem_stores_put, length_copyFromUser] at hp
    exact hp.imp_right fun h => Or.inl (by omega)
  · rw [mem_stores_put, mem_stores_put, length_copyFromUser, List.length_singleton, or_assoc] at hp
    exact hp.imp_right fun h => by omega

/-- With no bytes to copy, the NUL is stored before the array. -/
theorem neg_one_mem_stores (h : c.count = 0) : -1 ∈ (procWrite c s).2.stores := by
  have hlen : c.len = 0 := len_eq_zero_iff.mpr h
  have hleft : (copyFromUser c.buffer c.fault 0).2 = 0 := by simp [copyFromUser]
  unfold procWrite
  simp only [hlen]
  rw [if_neg (not_not_intro hleft), mem_stores_put]
  exact Or.inr (by simp)

/-- **One write** keeps the value bounded exactly if there is something to write. -/
theorem bounded_procWrite_iff (h : Bounded s) : Bounded (procWrite c s).2 ↔ c.count ≠ 0 := by
  have hlen := len_le (c := c)
  constructor
  · intro h' h0
    have := h'.inside (-1) (neg_one_mem_stores h0)
    omega
  · intro hc
    have hpos : c.len ≠ 0 := fun h0 => hc (len_eq_zero_iff.mp h0)
    refine bounded_iff.mpr ⟨fun p hp => ?_, ended_procWrite hc⟩
    rcases mem_stores_procWrite hp with hp | hp | hp
    · exact h.inside p hp
    · omega
    · omega

/-! ### Runs -/

theorem bounded_initModule : Bounded (initModule mem) := by
  refine bounded_iff.mpr ⟨fun p hp => ?_, 6, by decide, ?_⟩
  · rcases mem_stores_put.mp hp with hp | ⟨h0, hp⟩
    · exact absurd hp List.not_mem_nil
    · have hsize : (bytes ['T', 'i', 'c', 'k', 's', '='] ++ [0]).length = 7 := by decide
      rw [hsize] at hp
      unfold mydataLen
      omega
  · exact put_of_getElem? (p := 0) (i := 6) (by decide)

/-- **The value stays a string inside its array** exactly if no write comes with a `count` of
`0`. -/
theorem always_bounded_iff (mem : ℤ → UInt8) (as : List Call) :
    Always step Bounded (initModule mem) as ↔ ∀ a ∈ as, a.count ≠ 0 := by
  have hstep : ∀ s a s', True → Bounded s → step s a = some s' → (Bounded s' ↔ a.count ≠ 0) := by
    intro s a s' _ hs h
    rw [← Option.some.inj h]
    exact bounded_procWrite_iff hs
  rw [always_iff_meets (I := fun _ => True) (fun _ _ _ _ _ _ _ => trivial) hstep trivial
    bounded_initModule]
  exact meets_iff_forall fun _ _ => rfl

/-- One write of nothing. -/
theorem not_always_bounded :
    ¬ Always step Bounded (initModule fun _ => 0) [⟨0, fun _ => 0, none⟩] := by
  intro h
  have hinside := (h.last rfl).inside (-1) (by decide)
  exact absurd hinside.1 (by decide)

/-- What a read prints is a text that fits the array with its NUL. -/
theorem Bounded.exists_data (h : Bounded s) :
    ∃ data, s.data = some data ∧ data.value.length < mydataLen := by
  obtain ⟨data, hdata⟩ := Option.isSome_iff_exists.mp h.data
  refine ⟨data, hdata, ?_⟩
  obtain ⟨text, htext, rfl⟩ := Option.map_eq_some_iff.mp hdata
  obtain ⟨n, hn, rfl⟩ := Option.map_eq_some_iff.mp htext
  have hlt := List.mem_range.mp (List.mem_of_find?_eq_some hn)
  exact (List.length_filterMap_le _ _).trans_lt (by rwa [List.length_range])

end LinuxHomework.Proc.Value
