import LinuxHomework.Pipe.Delivery

/-! # The pipe device as a bounded queue

The unread bytes are a queue with room for one byte less than the buffer has.

* `Valid.writeCount_eq`, `Valid.readCount_eq`: how many bytes a call moves.
* `bounded_queue`: a write appends them, a read takes them from the front.
* `poll_agrees`: `scull_p_poll` says which of the two calls would move a byte. -/

namespace LinuxHomework.Pipe.Queue

open LinuxHomework.Lib.CInt LinuxHomework.Lib.Ring LinuxHomework.Lib.Runs
open LinuxHomework.Pipe.Device LinuxHomework.Pipe.System LinuxHomework.Pipe.Cells
open LinuxHomework.Pipe.Handles LinuxHomework.Pipe.Delivery

/-- How many bytes a write of `count` bytes is to accept. -/
def acceptable (dev : ScullPipe) (count : ℕ) : ℤ :=
  if dev.wp ≥ dev.rp then min (min count (spacefree dev)) (dev.bufEnd - dev.wp)
  else min count (spacefree dev)

/-- The number of unread bytes up to the end of the buffer. -/
def contiguous (dev : ScullPipe) : ℤ :=
  if dev.wp > dev.rp then dev.wp - dev.rp else dev.bufEnd - dev.rp

/-- **A write appends** to the queue what it accepts. -/
structure Appends (N : ℤ) (s s' : Sys) (t : Task) : Prop where
  retval : (s'.task t).retval = acceptable s.dev (s.task t).count
  pos : 1 ≤ (s'.task t).retval
  content : unread s'.dev =
    unread s.dev ++ (List.range (s'.task t).retval.toNat).map (s.task t).buf
  valid : Valid N s'.dev
  apart : s'.dev.rp ≠ s'.dev.wp

/-- **A read takes** from the front of the queue what it returns. -/
structure Takes (N : ℤ) (s s' : Sys) (t : Task) : Prop where
  retval : (s'.task t).retval = min ((s.task t).count : ℤ) (contiguous s.dev)
  pos : 1 ≤ (s'.task t).retval
  bytes : s'.returned = s.returned ++ (unread s.dev).take (s'.task t).retval.toNat
  content : unread s'.dev = (unread s.dev).drop (s'.task t).retval.toNat
  valid : Valid N s'.dev

variable {N : ℤ} {dev : ScullPipe} {s s' : Sys} {t u : Task} {h g : Handle} {k : Kernel} {n : ℕ}

/-! ### How many bytes -/

theorem Valid.writeCount_eq (hv : Valid N dev) (hint : N < 2 ^ 31) (count : ℕ) :
    (writeCount dev count : ℤ) = acceptable dev count := by
  have hspace := hv.spacefree_eq
  have hlt := hv.used_lt
  have hused := hv.used_eq
  have hsize := size32_of_lt (x := spacefree dev) (by omega) (by omega)
  obtain ⟨-, hend, h1, h2, h3, h4⟩ := hv
  unfold acceptable
  simp only [writeCount]
  split_ifs at hused ⊢ with hle
  · have := size32_of_lt (x := dev.bufEnd - dev.wp) (by omega) (by omega)
    omega
  · have := size32_of_lt (x := dev.rp - dev.wp - 1) (by omega) (by omega)
    omega

theorem Valid.readCount_eq (hv : Valid N dev) (hint : N < 2 ^ 31) (count : ℕ) :
    (readCount dev count : ℤ) = min (count : ℤ) (contiguous dev) := by
  obtain ⟨-, hend, h1, h2, h3, h4⟩ := hv
  unfold contiguous readCount
  split_ifs with hlt
  · have := size32_of_lt (x := dev.wp - dev.rp) (by omega) (by omega)
    omega
  · have := size32_of_lt (x := dev.bufEnd - dev.rp) (by omega) (by omega)
    omega

/-- A write accepts a byte if there is space. -/
theorem Valid.acceptable_pos (hv : Valid N dev) (hspace : 0 < spacefree dev) {count : ℕ}
    (hcount : 1 ≤ count) : 1 ≤ acceptable dev count := by
  obtain ⟨-, hend, h1, h2, h3, h4⟩ := hv
  unfold acceptable
  split_ifs <;> omega

theorem Valid.contiguous_pos (hv : Valid N dev) : 1 ≤ contiguous dev := by
  obtain ⟨-, hend, h1, h2, h3, h4⟩ := hv
  unfold contiguous
  split_ifs <;> omega

theorem length_unread (hb : dev.buffer ≠ 0) : (unread dev).length = used dev := by
  rw [unread_of_ne dev hb, length_ring]

/-! ### The calls -/

theorem not_faults (hk : k.fault = none) (n : ℕ) : ¬ k.faults n := by
  unfold Kernel.faults
  rw [hk]
  exact Nat.lt_irrefl n

@[simp] theorem task_set (κ : TaskState) : (s.set t κ).task t = κ := Function.update_self ..

/-- **`scull_p_write`** when there is space. -/
theorem writeBody_appends (hv : Valid N s.dev) (hb : s.dev.buffer ≠ 0) (hint : N < 2 ^ 31)
    (hcount : 1 ≤ (s.task t).count) (hk : k.fault = none) (hspace : 0 < spacefree s.dev) :
    Appends N s (writeBody s t k) t := by
  have hn := Valid.writeCount_eq hv hint (s.task t).count
  have hpos := Valid.acceptable_pos hv hspace hcount
  obtain ⟨hroom, hend⟩ := hv.writeCount_le (s.task t).count
  unfold writeBody
  simp only
  rw [if_neg (by omega), if_neg (not_faults hk _)]
  generalize writeCount s.dev (s.task t).count = n at hn hroom hend
  have hcopied : Valid N (copyIn s.dev k (s.task t).buf n) := valid_copyIn hv
  have hused := hcopied.used_moveWp hroom hend
  have hmoved := valid_moveWp hcopied hend
  have hret : ((Sys.set s t { s.task t with pc := .writeUp, retval := n }).task t).retval = n := by
    rw [task_set]
  refine ⟨hret.trans hn, ?_, ?_, hmoved, fun heq => ?_⟩
  · exact (hn ▸ hpos : (1 : ℤ) ≤ n).trans_eq hret.symm
  · have hcontent : unread (moveWp (copyIn s.dev k (s.task t).buf n) n) = _ :=
      hv.unread_moveWp hb hroom hend (not_faults hk n)
    refine hcontent.trans ?_
    rw [show ((Sys.set s t { s.task t with pc := .writeUp, retval := n }).task t).retval = n from
      hret, Int.toNat_natCast]
  · have hzero := hmoved.used_eq_zero.mpr heq
    omega

/-- **`scull_p_read`** when there is something to read. -/
theorem readBody_takes (hv : Valid N s.dev) (hb : s.dev.buffer ≠ 0) (hint : N < 2 ^ 31)
    (hcount : 1 ≤ (s.task t).count) (hk : k.fault = none) (hne : s.dev.rp ≠ s.dev.wp) :
    Takes N s (readBody s t k) t := by
  have hn := Valid.readCount_eq hv hint (s.task t).count
  have hpos := Valid.contiguous_pos hv
  obtain ⟨hused, hend⟩ := hv.readCount_le hne (s.task t).count
  unfold readBody
  simp only
  rw [if_neg hne, if_neg (not_faults hk _)]
  generalize readCount s.dev (s.task t).count = n at hn hused hend
  have hcut := hv.unread_moveRp hb hused hend
  have hlen : (copyOut s.dev n).length = n := by simp [copyOut]
  have hret : ((Sys.set s t { s.task t with pc := .readUp, retval := n }).task t).retval = n := by
    rw [task_set]
  refine ⟨hret.trans hn, ?_, ?_, ?_, valid_moveRp hv hend⟩
  · refine (?_ : (1 : ℤ) ≤ n).trans_eq hret.symm
    omega
  · show s.returned ++ copyOut s.dev n = s.returned ++ (unread s.dev).take _
    rw [hret, Int.toNat_natCast, hcut, List.take_left' hlen]
  · show unread (moveRp s.dev n) = (unread s.dev).drop _
    rw [hret, Int.toNat_natCast, hcut, List.drop_left' hlen]

/-- **The ring is a bounded queue** of `buffersize - 1` bytes, for every position of the
pointers. -/
theorem bounded_queue (hint : N < 2 ^ 31) (hv : Valid N s.dev) (hb : s.dev.buffer ≠ 0)
    (hcount : 1 ≤ (s.task t).count) (hk : k.fault = none) :
    spacefree s.dev = N - 1 - (unread s.dev).length ∧
    (0 < spacefree s.dev → Appends N s (writeBody s t k) t) ∧
    (unread s.dev ≠ [] → Takes N s (readBody s t k) t) := by
  refine ⟨?_, writeBody_appends hv hb hint hcount hk, fun hne => ?_⟩
  · rw [length_unread hb]
    exact hv.spacefree_eq
  · rw [Ne, unread_eq_nil hv hb] at hne
    exact readBody_takes hv hb hint hcount hk hne

/-- Two bytes are unread, and `rp` is behind `wp`; a call moves three bytes. -/
def wrapped : Sys :=
  { start (fun x => UInt8.ofNat x.toNat) with
    dev := ⟨64, 68, 4, 66, 64, 1, 1, fun x => UInt8.ofNat x.toNat, [64], []⟩
    task := fun _ => ⟨.out, 0, 3, fun _ => 65, false, false, 0⟩ }

theorem bounded_queue_wrapped :
    spacefree wrapped.dev = 4 - 1 - (unread wrapped.dev).length ∧
    (0 < spacefree wrapped.dev → Appends 4 wrapped (writeBody wrapped 0 buffer64) 0) ∧
    (unread wrapped.dev ≠ [] → Takes 4 wrapped (readBody wrapped 0 buffer64) 0) :=
  bounded_queue (by decide) ⟨rfl, rfl, by decide, by decide, by decide, by decide⟩ (by decide)
    (by decide) rfl

/-! ### Readiness -/

/-- The task goes on until its call returns, for `n` steps at most. -/
def finish (N : ℤ) (k : Kernel) (t : Task) : ℕ → Sys → Option Sys
  | 0, s => if (s.task t).pc = .out then some s else none
  | n + 1, s => if (s.task t).pc = .out then some s else (go N s t k).bind (finish N k t n)

/-- What the call comes to while nobody else moves. -/
def callOf (N : ℤ) (k : Kernel) (t : Task) (s : Sys) (a : Act) : Option Sys :=
  (step N s a).bind (finish N k t 4)

/-- `POLLIN` is in the mask. -/
def pollin (mask : ℤ) : Prop := mask.toNat.testBit 0 = true

/-- `POLLOUT` is in the mask. -/
def pollout (mask : ℤ) : Prop := mask.toNat.testBit 2 = true

instance (mask : ℤ) : Decidable (pollin mask) := inferInstanceAs (Decidable (_ = _))

instance (mask : ℤ) : Decidable (pollout mask) := inferInstanceAs (Decidable (_ = _))

theorem pollin_pollMask (dev : ScullPipe) : pollin (pollMask dev) ↔ dev.rp ≠ dev.wp := by
  unfold pollin pollMask
  split_ifs with h1 h2 h2
  · exact iff_of_true (by decide) h1
  · exact iff_of_true (by decide) h1
  · exact iff_of_false (by decide) h1
  · exact iff_of_false (by decide) h1

theorem pollout_pollMask (dev : ScullPipe) : pollout (pollMask dev) ↔ spacefree dev ≠ 0 := by
  unfold pollout pollMask
  split_ifs with h1 h2 h2
  · exact iff_of_true (by decide) h2
  · exact iff_of_false (by decide) h2
  · exact iff_of_true (by decide) h2
  · exact iff_of_false (by decide) h2

/-- The task can begin a call on the open file. -/
structure Ready (s : Sys) (t : Task) (h : Handle) : Prop where
  out : (s.task t).pc = .out
  opened : (s.file h).phase = .opened

theorem callPoll_eq (hready : Ready s t h) (hsem : 0 < s.sem) :
    ∃ p, callOf N k t s (.callPoll t h) = some p ∧ (p.task t).retval = pollMask s.dev := by
  obtain ⟨hout, hopen⟩ := hready
  unfold callOf
  simp only [step, hout, hopen, and_self, if_true, Option.bind_some]
  simp [finish, go, enterCall, Sys.down, Sys.set, Sys.goto, hsem, Sys.up, Sys.leave, Sys.ret,
    Sys.setFile]

/-- The call has returned so many bytes from the front of the queue. -/
structure Returned (s r : Sys) (n : ℕ) : Prop where
  bytes : r.returned = s.returned ++ (unread s.dev).take n
  content : unread r.dev = (unread s.dev).drop n

/-- The call has accepted the first `n` bytes of its buffer, which are at the end of the queue
now. -/
structure Accepted (buf : ℕ → UInt8) (s r : Sys) (n : ℕ) : Prop where
  bytes : r.accepted = s.accepted ++ (List.range n).map buf
  content : unread r.dev = unread s.dev ++ (List.range n).map buf

/-- If `ready` was reported, the call moved as many bytes as it returned, one at least; otherwise it
returned `-EAGAIN`, and nothing but the task's own record has changed. -/
def Agrees (ready : Prop) (Moved : Sys → Sys → ℕ → Prop) (s r : Sys) (u : Task) : Prop :=
  (ready ∧ 1 ≤ (r.task u).retval ∧ Moved s r (r.task u).retval.toNat) ∨
    (¬ ready ∧ (r.task u).retval = -EAGAIN ∧ ∃ κ, r = s.set u κ)

/-- **A non-blocking read.** -/
theorem callRead_agrees (hready : Ready s u g) (hsem : 0 < s.sem)
    (hmode : (s.file g).mode.read = true ∧ (s.file g).mode.nonblock = true)
    (hv : Valid N s.dev) (hb : s.dev.buffer ≠ 0) (hint : N < 2 ^ 31) {count : ℕ} (hcount : 1 ≤ count)
    (hk : k.fault = none) : ∃ r, callOf N k u s (.callRead u g count) = some r ∧
      Agrees (s.dev.rp ≠ s.dev.wp) Returned s r u := by
  obtain ⟨hout, hopen⟩ := hready
  obtain ⟨hread, hnonblock⟩ := hmode
  unfold callOf Agrees
  simp only [step, hout, hopen, hread, and_self, if_true, Option.bind_some]
  by_cases heq : s.dev.rp = s.dev.wp
  · simp [finish, go, enterCall, Sys.downInterruptible, Sys.set, Sys.goto, hsem, Sys.up, Sys.leave,
      Sys.ret, Sys.setFile, readBody, heq, Sys.fileOf, hnonblock]
    omega
  · have hn := Valid.readCount_eq hv hint count
    have hpos := Valid.contiguous_pos hv
    have hfault := not_faults hk (readCount s.dev count)
    obtain ⟨hused, hend⟩ := hv.readCount_le heq count
    have hcut := hv.unread_moveRp hb hused hend
    have hlen : (copyOut s.dev (readCount s.dev count)).length = readCount s.dev count := by
      simp [copyOut]
    simp [finish, go, enterCall, Sys.downInterruptible, Sys.set, Sys.goto, hsem, Sys.up, Sys.leave,
      Sys.ret, Sys.setFile, readBody, heq, Sys.wakeOutq, hfault]
    refine ⟨by omega, ?_, ?_⟩
    · rw [hcut]
      exact congrArg _ (List.take_left' hlen).symm
    · rw [hcut]
      exact (List.drop_left' hlen).symm

/-- **A non-blocking write.** -/
theorem callWrite_agrees (hready : Ready s u g) (hsem : 0 < s.sem)
    (hmode : (s.file g).mode.write = true ∧ (s.file g).mode.nonblock = true)
    (hv : Valid N s.dev) (hb : s.dev.buffer ≠ 0) (hint : N < 2 ^ 31) {buf : ℕ → UInt8} {count : ℕ}
    (hcount : 1 ≤ count) (hk : k.fault = none) :
    ∃ r, callOf N k u s (.callWrite u g buf count) = some r ∧
      Agrees (spacefree s.dev ≠ 0) (Accepted buf) s r u := by
  obtain ⟨hout, hopen⟩ := hready
  obtain ⟨hwrite, hnonblock⟩ := hmode
  unfold callOf Agrees
  simp only [step, hout, hopen, hwrite, and_self, if_true, Option.bind_some]
  by_cases hfull : spacefree s.dev = 0
  · simp [finish, go, enterCall, Sys.downInterruptible, Sys.set, Sys.goto, hsem, Sys.up, Sys.leave,
      Sys.ret, Sys.setFile, writeBody, hfull, Sys.fileOf, hnonblock]
    omega
  · have hspace : 0 < spacefree s.dev := by
      have := hv.spacefree_eq
      have := hv.used_lt
      omega
    have hn := Valid.writeCount_eq hv hint count
    have hpos := Valid.acceptable_pos hv hspace hcount
    have hfault := not_faults hk (writeCount s.dev count)
    obtain ⟨hroom, hend⟩ := hv.writeCount_le count
    simp [finish, go, enterCall, Sys.downInterruptible, Sys.set, Sys.goto, hsem, Sys.up, Sys.leave,
      Sys.ret, Sys.setFile, writeBody, hfull, Sys.wakeInq, hfault]
    exact ⟨by omega, rfl, hv.unread_moveWp hb hroom hend hfault⟩

theorem inv_of_run (hN : 1 ≤ N) {mem : ℤ → UInt8} {acts : List Act}
    (hrun : run (step N) (start mem) acts = some s) : Inv N s :=
  (always_of_step (fun _ _ _ hs h => inv_step hN hs h) (inv_start mem) acts).last hrun

/-- An open file keeps the buffer. -/
theorem Inv.buffer_of_opened (hs : Inv N s) (hopen : (s.file g).phase = .opened)
    (hmode : (s.file g).mode.read = true ∨ (s.file g).mode.write = true) : s.dev.buffer ≠ 0 := by
  obtain ⟨n, hn, hreaders⟩ := hs.books.readers
  obtain ⟨m, hm, hwriters⟩ := hs.books.writers
  refine hs.books.buffer ?_
  rcases hmode with hr | hw
  · have hpos : 0 < n := hreaders.pos_iff.mpr ⟨g, Or.inl hopen, hr⟩
    omega
  · have hpos : 0 < m := hwriters.pos_iff.mpr ⟨g, Or.inl hopen, hw⟩
    omega

/-- **`scull_p_poll` agrees with the calls** in every state that the device can reach: what it
reports is what a non-blocking call in that state would do. -/
theorem poll_agrees (hN : 1 ≤ N) (hint : N < 2 ^ 31) {mem : ℤ → UInt8} {acts : List Act}
    (hrun : run (step N) (start mem) acts = some s) (hsem : 0 < s.sem) (hready : Ready s t h)
    (hk : k.fault = none) : ∃ p, callOf N k t s (.callPoll t h) = some p ∧
      (∀ u g count, Ready s u g → (s.file g).mode.read = true ∧ (s.file g).mode.nonblock = true →
        1 ≤ count → ∃ r, callOf N k u s (.callRead u g count) = some r ∧
          Agrees (pollin (p.task t).retval) Returned s r u) ∧
      ∀ u g buf count, Ready s u g →
        (s.file g).mode.write = true ∧ (s.file g).mode.nonblock = true →
        1 ≤ count → ∃ r, callOf N k u s (.callWrite u g buf count) = some r ∧
          Agrees (pollout (p.task t).retval) (Accepted buf) s r u := by
  have hs := inv_of_run hN hrun
  obtain ⟨p, hp, hmask⟩ := callPoll_eq (N := N) (k := k) hready hsem
  refine ⟨p, hp, fun u g count hu hmode hcount => ?_, fun u g buf count hu hmode hcount => ?_⟩
  · have hb := Inv.buffer_of_opened hs hu.opened (Or.inl hmode.1)
    obtain ⟨r, hr, hagrees⟩ := callRead_agrees hu hsem hmode (hs.valid hb) hb hint hcount hk
    refine ⟨r, hr, ?_⟩
    rw [hmask]
    unfold Agrees at hagrees ⊢
    rw [pollin_pollMask]
    exact hagrees
  · have hb := Inv.buffer_of_opened hs hu.opened (Or.inr hmode.1)
    obtain ⟨r, hr, hagrees⟩ := callWrite_agrees hu hsem hmode (hs.valid hb) hb hint hcount hk
    refine ⟨r, hr, ?_⟩
    rw [hmask]
    unfold Agrees at hagrees ⊢
    rw [pollout_pollMask]
    exact hagrees

/-- A file is open for reading and writing without blocking, and one byte has been written. -/
def oneByte : List Act :=
  [.callOpen 0 0 ⟨true, true, true⟩, .go 0 buffer64, .go 0 buffer64, .go 0 buffer64,
    .callWrite 0 0 (fun _ => 65) 1] ++ List.replicate 4 (.go 0 buffer64)

theorem isSome_oneByte : (run (step 4) (start fun _ => 0) oneByte).isSome = true := by
  decide +kernel

def afterOneByte : Sys := (run (step 4) (start fun _ => 0) oneByte).get isSome_oneByte

theorem poll_agrees_oneByte : ∃ p, callOf 4 buffer64 0 afterOneByte (.callPoll 0 0) = some p ∧
    (∀ u g count, Ready afterOneByte u g → (afterOneByte.file g).mode.read = true ∧
      (afterOneByte.file g).mode.nonblock = true → 1 ≤ count →
        ∃ r, callOf 4 buffer64 u afterOneByte (.callRead u g count) = some r ∧
          Agrees (pollin (p.task 0).retval) Returned afterOneByte r u) ∧
    ∀ u g buf count, Ready afterOneByte u g → (afterOneByte.file g).mode.write = true ∧
      (afterOneByte.file g).mode.nonblock = true → 1 ≤ count →
        ∃ r, callOf 4 buffer64 u afterOneByte (.callWrite u g buf count) = some r ∧
          Agrees (pollout (p.task 0).retval) (Accepted buf) afterOneByte r u :=
  poll_agrees (by decide) (by decide) (Option.some_get isSome_oneByte).symm (by decide +kernel)
    ⟨by decide +kernel, by decide +kernel⟩ rfl

end LinuxHomework.Pipe.Queue
