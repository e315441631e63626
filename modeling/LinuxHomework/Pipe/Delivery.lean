import LinuxHomework.Pipe.Cells
import LinuxHomework.Pipe.Handles

/-! # Every byte is delivered once, in order

`Delivered` says that the bytes accepted by writes are those returned by reads, followed by the
unread content of the ring. Reads and writes keep it. `scull_p_open` sets `rp` and `wp` back to the
beginning of the buffer whenever it is called, not only with the first file, and `scull_p_release`
frees the buffer when neither readers nor writers are left.

* `delivered_iff`: the bytes are delivered throughout a run exactly if every `open` and every last
  `release` in it finds the ring empty (`KeepsData`).
* `not_delivered`: a second `open` loses the byte written before. -/

namespace LinuxHomework.Pipe.Delivery

open LinuxHomework.Lib.Runs LinuxHomework.Pipe.Device LinuxHomework.Pipe.System
open LinuxHomework.Pipe.Cells LinuxHomework.Pipe.Handles

/-- **Nothing is lost, doubled or out of order.** -/
def Delivered (s : Sys) : Prop := s.accepted = s.returned ++ unread s.dev

/-- There is nothing to read. -/
abbrev Empty (dev : ScullPipe) : Prop := dev.buffer ≠ 0 → dev.rp = dev.wp

/-- What a step must not do: open a file, or release the last reader or writer, while there is
something to read. -/
def KeepsData (s : Sys) : Act → Prop
  | .go t _ => ((s.task t).pc = .openBody → Empty s.dev) ∧
      ((s.task t).pc = .relBody → (leave (s.fileOf t).mode s.dev).nreaders +
        (leave (s.fileOf t).mode s.dev).nwriters = 0 → Empty s.dev)
  | _ => True

instance (s : Sys) : (a : Act) → Decidable (KeepsData s a)
  | .go _ _ => inferInstanceAs (Decidable ((_ → _) ∧ (_ → _ → _)))
  | .callOpen .. | .callRelease .. | .callRead .. | .callWrite .. | .callPoll .. | .unixSignal _ =>
    inferInstanceAs (Decidable True)

/-- The books are in order, and the ring is. -/
structure Inv (N : ℤ) (s : Sys) : Prop where
  books : Books s
  valid : s.dev.buffer ≠ 0 → Valid N s.dev

variable {N : ℤ} {s s' : Sys} {t : Task} {k : Kernel} {a : Act}

theorem inv_start (mem : ℤ → UInt8) : Inv N (start mem) :=
  ⟨books_start mem, fun h => absurd rfl h⟩

theorem Inv.empty_iff (hs : Inv N s) : unread s.dev = [] ↔ Empty s.dev := by
  by_cases hb : s.dev.buffer = 0
  · exact iff_of_true (if_pos hb) fun h => absurd hb h
  · rw [unread_eq_nil (hs.valid hb) hb]
    constructor
    · exact fun h _ => h
    · exact fun h => h hb

/-! ### The critical sections -/

theorem valid_openBody (hN : 1 ≤ N) (hb : (openBody N s t k).dev.buffer ≠ 0) :
    Valid N (openBody N s t k).dev := by
  simp only [openBody] at hb ⊢
  split_ifs at hb ⊢ with hz
  · exact absurd hz hb
  · exact valid_enter hN

theorem delivered_openBody (hs : Inv N s) (hd : Delivered s) :
    Delivered (openBody N s t k) ↔ Empty s.dev := by
  rw [← hs.empty_iff]
  unfold Delivered at hd ⊢
  simp only [openBody]
  split_ifs with hz
  · have hold : unread s.dev = [] := if_pos (buffer_of_allocate hz)
    have hnew : unread (allocate N k s.dev) = [] := if_pos hz
    refine iff_of_true ?_ hold
    rw [hold] at hd
    exact hnew ▸ hd
  · change s.accepted = s.returned ++ unread (enter N _ _) ↔ _
    rw [unread_enter, hd, List.append_right_inj]

theorem valid_relBody (hs : Inv N s) (hb : (relBody s t).dev.buffer ≠ 0) :
    Valid N (relBody s t).dev := by
  simp only [relBody, releaseBuffer] at hb ⊢
  split_ifs at hb ⊢
  · exact absurd rfl hb
  · exact valid_leave (hs.valid hb)

theorem delivered_relBody (hs : Inv N s) (hd : Delivered s) :
    Delivered (relBody s t) ↔ ((leave (s.fileOf t).mode s.dev).nreaders +
      (leave (s.fileOf t).mode s.dev).nwriters = 0 → Empty s.dev) := by
  rw [← hs.empty_iff]
  unfold Delivered at hd ⊢
  change s.accepted = s.returned ++ unread (releaseBuffer _) ↔ _
  rw [unread_releaseBuffer, unread_leave, hd]
  split_ifs with hz
  · rw [List.append_right_inj]
    exact ⟨fun h _ => h, fun h => h hz⟩
  · exact iff_of_true rfl fun h => absurd h hz

/-- **A read** keeps the ring valid, and returns the bytes that are next. -/
theorem readBody_spec (hs : Inv N s) (hp : (s.task t).pc = .readBody) :
    Valid N (readBody s t k).dev ∧ (Delivered s → Delivered (readBody s t k)) := by
  have hb := hs.books.buffer_of_reading (t := t) (by rw [hp]; rfl)
  have hv := hs.valid hb
  simp only [readBody]
  split_ifs with heq hk
  · exact ⟨hv, fun hd => hd⟩
  · exact ⟨hv, fun hd => hd⟩
  · obtain ⟨hused, hend⟩ := hv.readCount_le heq (s.task t).count
    refine ⟨valid_moveRp hv hend, fun hd => ?_⟩
    unfold Delivered at hd ⊢
    rw [hv.unread_moveRp hb hused hend, ← List.append_assoc] at hd
    exact hd

/-- **A write** keeps the ring valid, and appends the bytes it accepts. -/
theorem writeBody_spec (hs : Inv N s) (hp : (s.task t).pc = .writeBody) :
    Valid N (writeBody s t k).dev ∧ (Delivered s → Delivered (writeBody s t k)) := by
  have hb := hs.books.buffer_of_writing (t := t) (by rw [hp]; rfl)
  have hv := hs.valid hb
  obtain ⟨hused, hend⟩ := hv.writeCount_le (s.task t).count
  simp only [writeBody]
  split_ifs with heq hk
  · exact ⟨hv, fun hd => hd⟩
  · refine ⟨valid_copyIn hv, fun hd => ?_⟩
    unfold Delivered at hd ⊢
    rw [← hv.unread_copyIn hused hend k (s.task t).buf] at hd
    exact hd
  · refine ⟨valid_moveWp (valid_copyIn hv) hend, fun hd => ?_⟩
    unfold Delivered at hd ⊢
    rw [hd, List.append_assoc, ← hv.unread_moveWp hb hused hend hk]
    rfl

/-! ### Whole runs -/

theorem Inv.untouched (hs : Inv N s) (hbooks : Books s') (h : s'.dev = s.dev) : Inv N s' :=
  ⟨hbooks, by rw [h]; exact hs.valid⟩

theorem delivered_congr (h : Untouched s s') : Delivered s' ↔ Delivered s := by
  unfold Delivered
  rw [h.dev, h.accepted, h.returned]

theorem inv_step (hN : 1 ≤ N) (hs : Inv N s) (h : step N s a = some s') : Inv N s' := by
  have hbooks := books_step hs.books h
  rcases step_cases h with ⟨hsame, -⟩ | ⟨t, k, rfl, ⟨hp, rfl⟩ | ⟨hp, rfl⟩ | ⟨hp, rfl⟩ | ⟨hp, rfl⟩⟩
  · exact hs.untouched hbooks hsame.dev
  · exact ⟨hbooks, valid_openBody hN⟩
  · exact ⟨hbooks, valid_relBody hs⟩
  · exact ⟨hbooks, fun _ => (readBody_spec hs hp).1⟩
  · exact ⟨hbooks, fun _ => (writeBody_spec hs hp).1⟩

theorem keepsData_of_not_critical (h : ∀ t k, a = .go t k → ¬ Critical (s.task t).pc) :
    KeepsData s a := by
  cases a with
  | go t k =>
    constructor
    · exact fun hp => absurd (Or.inl hp) (h t k rfl)
    · exact fun hp => absurd (Or.inr (Or.inl hp)) (h t k rfl)
  | _ => trivial

/-- A step delivers if and only if it keeps the data. -/
theorem delivered_step (hs : Inv N s) (hd : Delivered s) (h : step N s a = some s') :
    Delivered s' ↔ KeepsData s a := by
  rcases step_cases h with ⟨hsame, hno⟩ |
    ⟨t, k, rfl, ⟨hp, rfl⟩ | ⟨hp, rfl⟩ | ⟨hp, rfl⟩ | ⟨hp, rfl⟩⟩
  · exact iff_of_true ((delivered_congr hsame).mpr hd) (keepsData_of_not_critical hno)
  · simp [delivered_openBody hs hd, KeepsData, hp]
  · simp [delivered_relBody hs hd, KeepsData, hp]
  · simp [(readBody_spec hs hp).2 hd, KeepsData, hp]
  · simp [(writeBody_spec hs hp).2 hd, KeepsData, hp]

/-- **The pipe delivers every byte once and in order** exactly in the runs in which no `open`, and
no `release` of the last reader or writer, is made while there is something to read. -/
theorem delivered_iff (hN : 2 ≤ N) (mem : ℤ → UInt8) (acts : List Act) :
    Always (step N) Delivered (start mem) acts ↔ Meets (step N) KeepsData (start mem) acts :=
  always_iff_meets (I := Inv N) (fun _ _ _ hs _ h _ => inv_step (by omega) hs h)
    (fun _ _ _ hs hd h => delivered_step hs hd h) (inv_start mem) rfl

/-- The kernel finds a buffer at the address 64. -/
def buffer64 : Kernel := ⟨64, fun _ => 7, none⟩

/-- A file is opened for reading and writing. -/
def openFile (t : Task) (h : Handle) : List Act :=
  [.callOpen t h ⟨true, true, false⟩, .go t buffer64, .go t buffer64, .go t buffer64]

/-- Three bytes are written, of which two are read, into a ring of four. -/
def writeThree : List Act :=
  .callWrite 0 0 (fun i => 65 + UInt8.ofNat i) 3 :: List.replicate 4 (.go 0 buffer64)

def readTwo : List Act := .callRead 1 0 2 :: List.replicate 4 (.go 1 buffer64)

/-- Two files are opened first; then the bytes are written, twice around the ring. -/
theorem delivered_iff_twoFiles : Always (step 4) Delivered (start fun _ => 0)
    (openFile 0 0 ++ openFile 1 1 ++ writeThree ++ readTwo ++ writeThree ++ readTwo) :=
  (delivered_iff (by decide) _ _).mpr (by decide +kernel)

/-- Three bytes are written, and a second file is opened while the first one stays open: the bytes
are lost. -/
theorem not_delivered : ¬ Always (step 4) Delivered (start fun _ => 0)
    (openFile 0 0 ++ writeThree ++ openFile 1 1) := by
  intro h
  have hrun : (run (step 4) (start fun _ => 0) (openFile 0 0 ++ writeThree ++ openFile 1 1)).map
      (fun s => (s.accepted, s.returned ++ unread s.dev)) = some ([65, 66, 67], []) := by
    decide +kernel
  obtain ⟨s, hs, hval⟩ := Option.map_eq_some_iff.mp hrun
  obtain ⟨hacc, hrest⟩ := Prod.mk.inj hval
  have hd : s.accepted = s.returned ++ unread s.dev := h.last hs
  rw [hacc, hrest] at hd
  exact absurd hd (by decide)

end LinuxHomework.Pipe.Delivery
