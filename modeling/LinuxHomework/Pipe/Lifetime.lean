import LinuxHomework.Pipe.Delivery

/-! # The life of the buffer

`scull_p_open` allocates the buffer when there is none, and `scull_p_release` frees it when
`nreaders` and `nwriters` are both gone. `allocated` and `freed` list the pointers that `kmalloc`
returned and that `kfree` was given; a buffer is live while it is once more in the first list than
in the second.

* `buffer_lifetime`: the counters count the open files, the buffer of a reader or writer is live and
  holds both pointers, every buffer is freed once, and all copies are inside of it. -/

namespace LinuxHomework.Pipe.Lifetime

open LinuxHomework.Lib.Runs LinuxHomework.Lib.Counting LinuxHomework.Pipe.Device
open LinuxHomework.Pipe.System LinuxHomework.Pipe.Cells LinuxHomework.Pipe.Handles
open LinuxHomework.Pipe.Delivery

/-- `kmalloc` has returned this pointer once more than `kfree` got it. -/
def Live (dev : ScullPipe) (p : ℤ) : Prop := dev.allocated.count p = dev.freed.count p + 1

/-- The `n` bytes from `p` on are in the buffer, and the buffer is live. -/
structure Inside (dev : ScullPipe) (p : ℤ) (n : ℕ) : Prop where
  live : dev.buffer ≠ 0 ∧ Live dev dev.buffer
  bufEnd : dev.bufEnd = dev.buffer + dev.buffersize
  ge : dev.buffer ≤ p
  le : p + n ≤ dev.bufEnd

/-- **The counters and the buffer** are as the open files say. -/
structure Kept (s : Sys) : Prop where
  readers : ∃ n : ℕ, s.dev.nreaders = n ∧ Census (Counts Mode.read) s.file n
  writers : ∃ n : ℕ, s.dev.nwriters = n ∧ Census (Counts Mode.write) s.file n
  pointers : 0 < s.dev.nreaders ∨ 0 < s.dev.nwriters →
    Inside s.dev s.dev.rp 1 ∧ Inside s.dev s.dev.wp 1
  once : ∀ p, p ≠ 0 → s.dev.freed.count p ≤ s.dev.allocated.count p ∧
    s.dev.allocated.count p ≤ s.dev.freed.count p + 1
  gone : (∀ h, ¬ File.Counted (s.file h)) → ∀ p, p ≠ 0 →
    s.dev.allocated.count p = s.dev.freed.count p

/-- The byte at `x` is copied out: with another one there `copy_to_user` hands over other bytes. -/
def CopiedOut (dev : ScullPipe) (n : ℕ) (x : ℤ) : Prop :=
  ∃ b, copyOut { dev with mem := Function.update dev.mem x b } n ≠ copyOut dev n

/-- The byte at `x` is copied to: `copy_from_user` may leave another one there. -/
def CopiedIn (dev : ScullPipe) (k : Kernel) (n : ℕ) (x : ℤ) : Prop :=
  ∃ buf, (copyIn dev k buf n).mem x ≠ dev.mem x

/-- The bytes that a step copies are in the buffer. -/
def CopiesInside (s : Sys) : Act → Prop
  | .go t k => ((s.task t).pc = .readBody → s.dev.rp ≠ s.dev.wp →
      ∀ x, CopiedOut s.dev (readCount s.dev (s.task t).count) x → Inside s.dev x 1) ∧
    ((s.task t).pc = .writeBody → spacefree s.dev ≠ 0 →
      ∀ x, CopiedIn s.dev k (writeCount s.dev (s.task t).count) x → Inside s.dev x 1)
  | _ => True

/-- **The invariant**: the buffer is what was allocated and not freed, and somebody has a file
open as long as there is one. -/
structure Owned (N : ℤ) (s : Sys) : Prop where
  inv : Inv N s
  balance : ∀ p, p ≠ 0 → s.dev.allocated.count p =
    s.dev.freed.count p + if s.dev.buffer = p then 1 else 0
  user : s.dev.buffer ≠ 0 → ∃ h, File.Counted (s.file h)

variable {N : ℤ} {s s' : Sys} {t : Task} {k : Kernel} {a : Act} {dev : ScullPipe} {p x : ℤ} {n : ℕ}

/-! ### The bytes of a copy -/

/-- **`copy_to_user(buf, dev->rp, n)`** reads the `n` bytes from `rp` on, and no others. -/
theorem copiedOut_iff : CopiedOut dev n x ↔ dev.rp ≤ x ∧ x < dev.rp + n := by
  unfold CopiedOut copyOut
  constructor
  · rintro ⟨b, hb⟩
    by_contra hout
    refine hb (List.map_congr_left fun i hi => ?_)
    rw [List.mem_range] at hi
    show Function.update dev.mem x b (dev.rp + i) = _
    exact Function.update_of_ne (by omega) ..
  · rintro ⟨hge, hlt⟩
    obtain ⟨i, rfl⟩ : ∃ i : ℕ, x = dev.rp + i := ⟨(x - dev.rp).toNat, by omega⟩
    refine ⟨dev.mem (dev.rp + i) + 1, fun heq => ?_⟩
    have hi := List.map_inj_left.mp heq i (List.mem_range.mpr (by omega))
    dsimp only at hi
    rw [Function.update_self] at hi
    exact absurd hi (by simp)

/-- **`copy_from_user(dev->wp, buf, n)`** writes to the `n` bytes from `wp` on only. -/
theorem CopiedIn.range (h : CopiedIn dev k n x) : dev.wp ≤ x ∧ x < dev.wp + n := by
  obtain ⟨buf, hbuf⟩ := h
  by_contra hout
  exact hbuf (if_neg hout)

theorem owned_start (mem : ℤ → UInt8) : Owned N (start mem) where
  inv := inv_start mem
  balance p hp := by
    have hne : (start mem).dev.buffer ≠ p := hp.symm
    rw [if_neg hne]
    rfl
  user h := absurd rfl h

/-! ### What the invariant says -/

theorem Owned.live (h : Owned N s) (hb : s.dev.buffer ≠ 0) : Live s.dev s.dev.buffer := by
  have hbal := h.balance s.dev.buffer hb
  rwa [if_pos rfl] at hbal

theorem Owned.inside (h : Owned N s) (hb : s.dev.buffer ≠ 0) {n : ℕ} (hge : s.dev.buffer ≤ p)
    (hle : p + n ≤ s.dev.bufEnd) : Inside s.dev p n := by
  have hv := h.inv.valid hb
  exact ⟨⟨hb, h.live hb⟩, hv.size ▸ hv.bufEnd, hge, hle⟩

theorem Owned.kept (h : Owned N s) : Kept s where
  readers := h.inv.books.readers
  writers := h.inv.books.writers
  pointers hpos := by
    obtain ⟨n, hn, -⟩ := h.inv.books.readers
    obtain ⟨m, hm, -⟩ := h.inv.books.writers
    have hb := h.inv.books.buffer (by omega)
    obtain ⟨-, hend, hrge, hrlt, hwge, hwlt⟩ := h.inv.valid hb
    exact ⟨h.inside hb hrge (by omega), h.inside hb hwge (by omega)⟩
  once p hp := by
    have hbal := h.balance p hp
    split_ifs at hbal <;> omega
  gone hnone p hp := by
    have hb : s.dev.buffer = 0 := by
      by_contra hne
      obtain ⟨f, hf⟩ := h.user hne
      exact hnone f hf
    have hbal := h.balance p hp
    rw [hb, if_neg hp.symm] at hbal
    exact hbal

theorem Owned.copiesInside (h : Owned N s) (a : Act) : CopiesInside s a := by
  cases a with
  | go t k =>
    constructor
    · intro hp hne x hx
      obtain ⟨hge, hlt⟩ := copiedOut_iff.mp hx
      have hb := h.inv.books.buffer_of_reading (t := t) (by rw [hp]; rfl)
      have hv := h.inv.valid hb
      have hle := (hv.readCount_le hne (s.task t).count).2
      exact h.inside hb (hv.rp_ge.trans hge) (by omega)
    · intro hp _ x hx
      obtain ⟨hge, hlt⟩ := hx.range
      have hb := h.inv.books.buffer_of_writing (t := t) (by rw [hp]; rfl)
      have hv := h.inv.valid hb
      have hle := (hv.writeCount_le (s.task t).count).2
      exact h.inside hb (hv.wp_ge.trans hge) (by omega)
  | _ => trivial

/-! ### Every step -/

/-- A file stays open through the steps that do not touch the device. -/
theorem counted_quiet (hs : Books s) (hq : Quiet s t s') {f : Handle}
    (hf : File.Counted (s.file f)) : File.Counted (s'.file f) := by
  rcases hq with ⟨-, hfile⟩ | ⟨-, -, hfile⟩ | ⟨hop, -, hfile⟩
  · rwa [hfile]
  · rw [hfile]
    by_cases hft : f = (s.task t).h
    · rw [hft] at hf ⊢
      rwa [Function.update_self]
    · rwa [Function.update_of_ne hft]
  · rw [hfile]
    by_cases hft : f = (s.task t).h
    · exact absurd (hft ▸ hf) (hs.not_counted_of_opening hop)
    · rwa [Function.update_of_ne hft]

/-- A file that is updated without leaving the open ones. -/
theorem counted_update {g : File} {f f' : Handle}
    (hg : File.Counted (s.file f') → File.Counted g) (hf : File.Counted (s.file f)) :
    File.Counted (Function.update s.file f' g f) := by
  by_cases hff : f = f'
  · subst hff
    rw [Function.update_self]
    exact hg hf
  · rwa [Function.update_of_ne hff]

theorem counted_untouched (hs : Books s) (h : step N s a = some s')
    (hno : ∀ t k, a = .go t k → ¬ Critical (s.task t).pc) {f : Handle}
    (hf : File.Counted (s.file f)) : File.Counted (s'.file f) := by
  cases a with
  | go t k => exact counted_quiet hs (go_quiet h (hno t k rfl)).1 hf
  | unixSignal t =>
    obtain rfl := Option.some.inj h
    exact hf
  | callOpen t hd mode =>
    simp only [step] at h
    split_ifs at h with hc
    obtain rfl := Option.some.inj h
    refine counted_update (fun hcount => ?_) hf
    exact absurd hcount (by simp [hc.2])
  | callRelease t hd =>
    simp only [step] at h
    split_ifs at h with hc
    obtain rfl := Option.some.inj h
    exact counted_update (fun _ => Or.inr rfl) hf
  | _ =>
    simp only [step] at h
    split_ifs at h with hc
    obtain rfl := Option.some.inj h
    exact counted_update id hf

/-- What `kmalloc` returns is the buffer. -/
theorem balance_allocate (h : ∀ p, p ≠ 0 → dev.allocated.count p =
      dev.freed.count p + if dev.buffer = p then 1 else 0) (hp : p ≠ 0) :
    (allocate N k dev).allocated.count p =
      (allocate N k dev).freed.count p + if (allocate N k dev).buffer = p then 1 else 0 := by
  have hbal := h p hp
  by_cases hb : dev.buffer = 0
  · rw [hb, if_neg hp.symm] at hbal
    unfold allocate
    rw [if_pos hb]
    by_cases hk : k.kmalloc = 0
    · simp only [hk, if_true]
      rw [if_neg hp.symm]
      exact hbal
    · simp only [hk, if_false]
      rw [List.count_cons, hbal]
      simp
  · rw [allocate, if_neg hb]
    exact hbal

/-- What `kfree` is given was the buffer. -/
theorem balance_release (h : ∀ p, p ≠ 0 → dev.allocated.count p =
      dev.freed.count p + if dev.buffer = p then 1 else 0) (hp : p ≠ 0) :
    (releaseBuffer dev).allocated.count p =
      (releaseBuffer dev).freed.count p + if (releaseBuffer dev).buffer = p then 1 else 0 := by
  have hbal := h p hp
  by_cases hz : dev.nreaders + dev.nwriters = 0
  · simp only [releaseBuffer, if_pos hz]
    rw [List.count_cons, if_neg hp.symm, hbal]
    simp
  · rw [releaseBuffer, if_neg hz]
    exact hbal

theorem owned_step (hN : 1 ≤ N) (hs : Owned N s) (h : step N s a = some s') : Owned N s' := by
  have hinv := inv_step hN hs.inv h
  rcases step_cases h with ⟨hsame, hno⟩ | ⟨t, k, rfl, ⟨hp, rfl⟩ | ⟨hp, rfl⟩ | ⟨hp, rfl⟩ | ⟨hp, rfl⟩⟩
  · refine ⟨hinv, ?_, fun hb => ?_⟩
    · rw [hsame.dev]
      exact hs.balance
    · rw [hsame.dev] at hb
      obtain ⟨f, hf⟩ := hs.user hb
      exact ⟨f, counted_untouched hs.inv.books h hno hf⟩
  · have hbal := fun p => balance_allocate (N := N) (k := k) (p := p) hs.balance
    simp only [openBody] at hinv ⊢
    split_ifs at hinv ⊢ with hb
    · exact ⟨hinv, hbal, fun hne => absurd hb hne⟩
    · refine ⟨hinv, hbal, fun _ => ⟨(s.task t).h, Or.inl ?_⟩⟩
      simp [Sys.goto, Sys.set, Sys.setFile]
  · refine ⟨hinv, fun p => balance_release hs.balance, fun hb => ?_⟩
    obtain ⟨n, hn, hreaders⟩ := hinv.books.readers
    obtain ⟨m, hm, hwriters⟩ := hinv.books.writers
    -- the buffer is still there, so that readers or writers are left
    have hleft : (relBody s t).dev.nreaders + (relBody s t).dev.nwriters ≠ 0 := by
      intro hzero
      simp only [relBody, releaseBuffer_counters] at hzero
      exact hb (by simp [relBody, releaseBuffer, hzero])
    by_cases hpos : 0 < n
    · obtain ⟨f, hf⟩ := hreaders.pos_iff.mp hpos
      exact ⟨f, hf.1⟩
    · obtain ⟨f, hf⟩ := hwriters.pos_iff.mp (by omega)
      exact ⟨f, hf.1⟩
  · refine ⟨hinv, ?_, ?_⟩
    · simp only [readBody]
      split_ifs <;> exact hs.balance
    · simp only [readBody]
      split_ifs <;> exact hs.user
  · refine ⟨hinv, ?_, ?_⟩
    · simp only [writeBody]
      split_ifs <;> exact hs.balance
    · simp only [writeBody]
      split_ifs <;> exact hs.user

/-- **The life of the buffer**, in every run and every step of it. -/
theorem buffer_lifetime (hN : 1 ≤ N) (mem : ℤ → UInt8) (acts : List Act) :
    Always (step N) Kept (start mem) acts ∧ Meets (step N) CopiesInside (start mem) acts := by
  have hrun : Always (step N) (Owned N) (start mem) acts :=
    always_of_step (fun _ _ _ hs h => owned_step hN hs h) (owned_start mem) acts
  constructor
  · exact hrun.mono fun _ h => h.kept
  · intro pre a hpre s hs _
    exact (hrun pre ((List.prefix_append pre [a]).trans hpre) s hs).copiesInside a

/-- A writer and a reader open the device, three bytes are written and two of them read, and both
files are released. -/
def wholeLife : List Act :=
  openFile 0 0 ++ openFile 1 1 ++ writeThree ++ readTwo ++
    .callRelease 0 0 :: List.replicate 3 (.go 0 buffer64) ++
    .callRelease 1 1 :: List.replicate 3 (.go 1 buffer64)

/-- A ring of four bytes: bytes are copied in and out, and the last release frees the buffer. -/
theorem buffer_lifetime_whole :
    (run (step 4) (start fun _ => 0) wholeLife).map (fun s => (s.accepted.length, s.returned.length,
      s.dev.allocated, s.dev.freed)) = some (3, 2, [64], [64]) ∧
    Always (step 4) Kept (start fun _ => 0) wholeLife ∧
    Meets (step 4) CopiesInside (start fun _ => 0) wholeLife :=
  ⟨by decide +kernel, buffer_lifetime (by decide) _ _⟩

end LinuxHomework.Pipe.Lifetime
