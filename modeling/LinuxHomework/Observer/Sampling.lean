import LinuxHomework.Lib.CInt
import LinuxHomework.Lib.Decimal
import LinuxHomework.Lib.Loops
import Mathlib.Data.Rat.Floor

/-! # Sampling the load, `1/observer.c`

`do_part_D` takes two numbers from the command line, `interval` and `duration`, and samples the load
at once and then every `interval` seconds while `iteration`, the time that has been scheduled, is
less than `duration`.

* `Sampled`: it comes to an end, and has taken one sample for each interval begun.
* `Scheduled`: the invariant of the loop.
* `not_sampled_of_nonpos`: with no interval, or a negative one, the loop is never left.
* `sampled_of_pos`: with a positive interval it is `Sampled` exactly if the end of the last interval
  fits an `int`.
* `sampled_iff`: it is `Sampled` exactly if there is nothing to wait for, or the interval is
  positive and the end of the last interval fits an `int`.
* `doPartD_eq`: what such a run comes to. -/

namespace LinuxHomework.Observer.Sampling

open LinuxHomework.Lib.CInt LinuxHomework.Lib.Decimal LinuxHomework.Lib.Loops

/-! ### The arguments -/

def isSpace (b : UInt8) : Bool := b = 32 || 9 ≤ b && b ≤ 13

/-- `strtol(text, NULL, 10)` for a `long` of `bits` bits: white space, a sign and digits. What does
not fit is replaced by the nearest value that does. -/
def strtol (bits : ℕ) (text : List UInt8) : ℤ :=
  let text := text.dropWhile isSpace
  let value : ℤ :=
    if text.head? = some 45 then -number (text.tail.takeWhile isDigit)
    else if text.head? = some 43 then number (text.tail.takeWhile isDigit)
    else number (text.takeWhile isDigit)
  max (-2 ^ (bits - 1)) (min value (2 ^ (bits - 1) - 1))

/-- `atoi`, the value of `strtol` as an `int`. -/
def atoi (bits : ℕ) (text : List UInt8) : ℤ := wrap32 (strtol bits text)

/-! ### The loop -/

/-- `iteration`, the number of samples taken, and how many seconds have been slept. -/
structure State where
  iteration : ℤ
  samples : ℕ
  slept : ℕ

/-- An addition of two `int`s has no value that fits. -/
inductive Stop
  | overflow

def State.sampleLoadAvg (s : State) : State := { s with samples := s.samples + 1 }

/-- `sleep(interval)`, which takes an `unsigned int`. -/
def State.sleep (s : State) (interval : ℤ) : State := { s with slept := s.slept + size32 interval }

/-- `iteration += interval`. -/
def State.advance (s : State) (interval : ℤ) : Except Stop State :=
  if -2 ^ 31 ≤ s.iteration + interval ∧ s.iteration + interval < 2 ^ 31 then
    .ok { s with iteration := s.iteration + interval }
  else .error .overflow

/-- A turn of `while (iteration < duration)`. -/
def turn (interval duration : ℤ) (s : State) : Turn Stop State State :=
  if s.iteration < duration then
    match ((s.sleep interval).sampleLoadAvg).advance interval with
    | .ok s => .next s
    | .error e => .stop e
  else .leave s

/-- `do_part_D`, for `fuel` turns of its loop at most. -/
def doPartD (bits fuel : ℕ) (intervalStr durationStr : List UInt8) : Option (Except Stop State) :=
  let interval := atoi bits intervalStr
  let duration := atoi bits durationStr
  match (State.mk 0 0 0).sampleLoadAvg.advance interval with
  | .ok s => loop (turn interval duration) fuel s
  | .error e => some (.error e)

/-- **The load is sampled as it should be**: the loop comes to an end without an overflow, and with
an interval of a second at least there has been one sample for each interval begun. -/
def Sampled (bits : ℕ) (intervalStr durationStr : List UInt8) : Prop :=
  ∃ fuel s, doPartD bits fuel intervalStr durationStr = some (.ok s) ∧
    (1 ≤ atoi bits intervalStr →
      s.samples = max 1 ⌈(atoi bits durationStr : ℚ) / atoi bits intervalStr⌉)

variable {interval duration n : ℤ} {s s' : State} {bits fuel : ℕ} {a b : List UInt8}

/-! ### Intervals begun -/

theorem ceil_le_iff (hi : 1 ≤ interval) :
    ⌈(duration : ℚ) / interval⌉ ≤ n ↔ duration ≤ n * interval := by
  have hpos : (0 : ℚ) < interval := by exact_mod_cast (by omega : 0 < interval)
  rw [Int.ceil_le, div_le_iff₀ hpos]
  exact_mod_cast Iff.rfl

/-- The number of intervals begun, of which the last but one is over before the end. -/
theorem eq_max_ceil (hi : 1 ≤ interval) (hn : 1 ≤ n) (hle : duration ≤ n * interval)
    (hlt : n = 1 ∨ (n - 1) * interval < duration) :
    n = max 1 ⌈(duration : ℚ) / interval⌉ := by
  refine le_antisymm ?_ (max_le hn ((ceil_le_iff hi).mpr hle))
  rcases hlt with rfl | hlt
  · exact le_max_left _ _
  · have hceil : ¬ ⌈(duration : ℚ) / interval⌉ ≤ n - 1 := by
      rw [ceil_le_iff hi]
      omega
    exact le_max_of_le_right (by omega)

/-! ### A turn -/

theorem advance_eq_ok (h : s.advance interval = .ok s') :
    s' = { s with iteration := s.iteration + interval } ∧ s'.iteration < 2 ^ 31 := by
  unfold State.advance at h
  split_ifs at h with hfits
  obtain rfl := Except.ok.inj h
  exact ⟨rfl, hfits.2⟩

theorem turn_leave (h : turn interval duration s = .leave s') :
    s' = s ∧ duration ≤ s.iteration := by
  unfold turn at h
  split_ifs at h with hlt
  · split at h <;> exact absurd h (by simp)
  · exact ⟨(Turn.leave.inj h).symm, by omega⟩

theorem turn_next (h : turn interval duration s = .next s') :
    s.iteration < duration ∧ s' = ⟨s.iteration + interval, s.samples + 1, s.slept + size32 interval⟩ ∧
      s'.iteration < 2 ^ 31 := by
  unfold turn at h
  split_ifs at h with hlt
  split at h
  · next t hadvance =>
    obtain rfl := Turn.next.inj h
    obtain ⟨heq, hfits⟩ := advance_eq_ok hadvance
    exact ⟨hlt, heq, hfits⟩
  · exact absurd h (by simp)

/-- The run up to the loop. -/
theorem doPartD_loop (bits fuel : ℕ) (a b : List UInt8) :
    doPartD bits fuel a b = loop (turn (atoi bits a) (atoi bits b)) fuel ⟨atoi bits a, 1, 0⟩ := by
  have hlo := least_wrap32 (strtol bits a)
  have hhi := wrap32_lt (strtol bits a)
  have hadvance : (State.mk 0 0 0).sampleLoadAvg.advance (atoi bits a) = .ok ⟨atoi bits a, 1, 0⟩ := by
    unfold State.advance State.sampleLoadAvg atoi
    simp only [zero_add]
    rw [if_pos ⟨hlo, hhi⟩]
  unfold doPartD
  simp only [hadvance]

/-! ### No interval -/

/-- **An interval that is not positive** does not bring `iteration` up to `duration`: the loop runs
forever, or until `iteration` overflows. -/
theorem not_sampled_of_nonpos (hi : atoi bits a ≤ 0) (hlt : atoi bits a < atoi bits b) :
    ¬ Sampled bits a b := by
  rintro ⟨fuel, s, hrun, -⟩
  rw [doPartD_loop] at hrun
  have hkeep : ∀ s s', s.iteration < atoi bits b → turn (atoi bits a) (atoi bits b) s = .next s' →
      s'.iteration < atoi bits b := by
    intro s s' hs hturn
    obtain ⟨-, rfl, -⟩ := turn_next hturn
    exact (add_le_of_nonpos_right hi).trans_lt hs
  obtain ⟨s', hs', hturn⟩ := exists_leave_of_loop hkeep hlt hrun
  have hend := (turn_leave hturn).2
  omega

/-! ### Intervals of a second at least -/

/-- **The invariant of the loop**: after each sample `iteration` is the end of the interval that it
begins. -/
structure Scheduled (interval duration : ℤ) (s : State) : Prop where
  pos : 1 ≤ (s.samples : ℤ)
  iteration : s.iteration = s.samples * interval
  slept : (s.slept : ℤ) = (s.samples - 1) * interval
  begun : (s.samples : ℤ) = 1 ∨ (s.samples - 1) * interval < duration
  fits : s.iteration < 2 ^ 31

theorem scheduled_first (h : interval < 2 ^ 31) : Scheduled interval duration ⟨interval, 1, 0⟩ where
  pos := by simp
  iteration := by simp
  slept := by simp
  begun := Or.inl (by simp)
  fits := h

/-- A turn keeps the invariant. -/
theorem Scheduled.next (h : Scheduled interval duration s) (hi : 1 ≤ interval)
    (hlt : interval < 2 ^ 31) (hturn : turn interval duration s = .next s') :
    Scheduled interval duration s' := by
  obtain ⟨hgo, rfl, hfits⟩ := turn_next hturn
  have hsleep := size32_of_lt (by omega : 0 ≤ interval) (by omega)
  have hsamples : ((s.samples + 1 : ℕ) : ℤ) = s.samples + 1 := by push_cast; rfl
  rw [h.iteration] at hgo
  refine ⟨?_, ?_, ?_, Or.inr ?_, hfits⟩
  · simp only [hsamples]
    omega
  · simp only [hsamples, h.iteration]
    ring
  · simp only [hsamples]
    push_cast
    rw [h.slept, hsleep]
    ring
  · simp only [hsamples]
    rwa [add_sub_cancel_right]

/-- Where the loop is left, there has been a sample for each interval begun. -/
theorem Scheduled.leave (h : Scheduled interval duration s) (hi : 1 ≤ interval)
    (hturn : turn interval duration s = .leave s') :
    (s'.samples : ℤ) = max 1 ⌈(duration : ℚ) / interval⌉ ∧ Scheduled interval duration s' := by
  obtain ⟨rfl, hend⟩ := turn_leave hturn
  rw [h.iteration] at hend
  exact ⟨eq_max_ceil hi h.pos hend h.begun, h⟩

/-- If the end of the last interval fits an `int`, a turn leaves the loop or brings it closer to its
end. -/
theorem Scheduled.turn (h : Scheduled interval duration s) (hi : 1 ≤ interval)
    (hlt : interval < 2 ^ 31) (hfits : ⌈(duration : ℚ) / interval⌉ * interval < 2 ^ 31) :
    (∃ v, turn interval duration s = .leave v) ∨
      ∃ s', turn interval duration s = .next s' ∧ Scheduled interval duration s' ∧
        (duration - s'.iteration).toNat < (duration - s.iteration).toNat := by
  by_cases hgo : s.iteration < duration
  · have hceil : ¬ ⌈(duration : ℚ) / interval⌉ ≤ s.samples := by
      rw [ceil_le_iff hi, ← h.iteration]
      omega
    have hnext : s.iteration + interval ≤ ⌈(duration : ℚ) / interval⌉ * interval := by
      rw [h.iteration, ← add_one_mul]
      exact Int.mul_le_mul_of_nonneg_right (by omega) (by omega)
    have hpos : 0 ≤ s.iteration := by
      rw [h.iteration]
      exact mul_nonneg (by omega) (by omega)
    have hturn : Sampling.turn interval duration s =
        .next ⟨s.iteration + interval, s.samples + 1, s.slept + size32 interval⟩ := by
      unfold Sampling.turn State.advance State.sampleLoadAvg State.sleep
      rw [if_pos hgo]
      simp only
      rw [if_pos (by omega)]
    exact Or.inr ⟨_, hturn, h.next hi hlt hturn, by simp only; omega⟩
  · refine Or.inl ⟨s, ?_⟩
    unfold Sampling.turn
    rw [if_neg hgo]

/-- **What a run comes to** that ends without an overflow. -/
theorem doPartD_eq (hi : 1 ≤ atoi bits a) (h : doPartD bits fuel a b = some (.ok s)) :
    (s.samples : ℤ) = max 1 ⌈(atoi bits b : ℚ) / atoi bits a⌉ ∧
      Scheduled (atoi bits a) (atoi bits b) s := by
  have hlt : atoi bits a < 2 ^ 31 := wrap32_lt _
  rw [doPartD_loop] at h
  obtain ⟨s', hs', hturn⟩ := exists_leave_of_loop (fun s s' hs ht => hs.next hi hlt ht)
    (scheduled_first hlt) h
  exact hs'.leave hi hturn

/-- **With a positive interval** the load is sampled as it should be exactly if the end of the last
interval fits an `int`. -/
theorem sampled_of_pos (hi : 1 ≤ atoi bits a) :
    Sampled bits a b ↔ ⌈(atoi bits b : ℚ) / atoi bits a⌉ * atoi bits a < 2 ^ 31 := by
  have hlt : atoi bits a < 2 ^ 31 := wrap32_lt _
  constructor
  · rintro ⟨fuel, s, hrun, -⟩
    obtain ⟨hsamples, hs⟩ := doPartD_eq hi hrun
    have hfits := hs.fits
    rw [hs.iteration, hsamples] at hfits
    have hle := Int.mul_le_mul_of_nonneg_right
      (le_max_right 1 ⌈(atoi bits b : ℚ) / atoi bits a⌉) (by omega : 0 ≤ atoi bits a)
    omega
  · intro hfits
    obtain ⟨s, hrun⟩ := loop_of_variant (fun s : State => (atoi bits b - s.iteration).toNat)
      (fun s hs => Scheduled.turn hs hi hlt hfits) (scheduled_first hlt) (Nat.lt_succ_self _)
    rw [← doPartD_loop] at hrun
    exact ⟨_, s, hrun, fun _ => (doPartD_eq hi hrun).1⟩

/-- With nothing to wait for, the first sample is the last. -/
theorem sampled_of_le (h : atoi bits b ≤ atoi bits a) : Sampled bits a b := by
  have hrun : doPartD bits 1 a b = some (.ok ⟨atoi bits a, 1, 0⟩) := by
    rw [doPartD_loop]
    refine loop_leave ?_
    unfold turn
    rw [if_neg (by simpa using h)]
  exact ⟨1, _, hrun, fun hi => (doPartD_eq hi hrun).1⟩

/-- **The load is sampled as it should be** exactly if the first sample is the last, or the interval
is positive and the end of the last interval fits an `int`. -/
theorem sampled_iff (bits : ℕ) (a b : List UInt8) :
    Sampled bits a b ↔ atoi bits b ≤ atoi bits a ∨
      1 ≤ atoi bits a ∧ ⌈(atoi bits b : ℚ) / atoi bits a⌉ * atoi bits a < 2 ^ 31 := by
  constructor
  · intro h
    by_cases hi : 1 ≤ atoi bits a
    · exact Or.inr ⟨hi, (sampled_of_pos hi).mp h⟩
    · by_contra hnot
      exact not_sampled_of_nonpos (by omega) (by omega) h
  · rintro (hle | ⟨hi, hfits⟩)
    · exact sampled_of_le hle
    · exact (sampled_of_pos hi).mpr hfits

/-- `observer -d 0 1`. -/
theorem not_sampled_zero : ¬ Sampled 64 [48] [49] :=
  not_sampled_of_nonpos (by decide) (by decide)

end LinuxHomework.Observer.Sampling
