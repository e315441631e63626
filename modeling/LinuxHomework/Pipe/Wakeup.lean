import LinuxHomework.Lib.Sleepers
import LinuxHomework.Pipe.Handles

/-! # No stuck pipe

A reader waits on `inq` for bytes and a writer on `outq` for space. `scull_p_read` makes space and
wakes the writers, `scull_p_write` makes bytes and wakes the readers. `scull_p_open` makes space
too, by setting `rp` and `wp` back, and wakes nobody.

* `not_stuck`: while no call is between its critical section and its wake-up, nobody sleeps who
  could go on, in the runs in which every `open` that succeeds finds no writer asleep, or a reader
  on its way to wake the writers (`OpenOk`).
* `stuck`: an `open` empties a full ring, and the writer sleeps on. -/

namespace LinuxHomework.Pipe.Wakeup

open LinuxHomework.Lib.Runs LinuxHomework.Lib.Sleepers LinuxHomework.Pipe.Device
open LinuxHomework.Pipe.System LinuxHomework.Pipe.Handles

/-! ### The two queues -/

/-- The tasks of a queue by their places: where they test their condition again and where they
sleep, and where those are who have a wake-up to do. -/
def side (recheck sleep up wake : Pc) : Side TaskState where
  waits k := (k.pc = recheck ∨ k.pc = sleep) ∧ k.interruptible = true
  sleeps k := k.pc = sleep ∧ k.interruptible = true ∧ k.signal = false
  wakes k := k.pc = up ∨ k.pc = wake
  waits_of_sleeps _ h := ⟨Or.inr h.1, h.2.1⟩

/-- Writers sleep on `outq`, and readers wake them. -/
def writers : Side TaskState := side .writeRecheck .writeSleep .readUp .readWake

/-- Readers sleep on `inq`, and writers wake them. -/
def readers : Side TaskState := side .readRecheck .readSleep .writeUp .writeWake

instance : DecidablePred writers.sleeps := fun _ => inferInstanceAs (Decidable (_ ∧ _ ∧ _))

instance : DecidablePred readers.sleeps := fun _ => inferInstanceAs (Decidable (_ ∧ _ ∧ _))

/-- **The invariant**: who sleeps although he could go on will be woken. -/
structure Watched (N : ℤ) (s : Sys) : Prop where
  writers : Watch writers (spacefree s.dev = 0) s.outq s.task
  readers : Watch readers (s.dev.rp = s.dev.wp) s.inq s.task
  size : s.dev.buffersize = 0 ∨ s.dev.buffersize = N

/-- A place on one of the queues. -/
def queued : Pc → Bool
  | .readRecheck | .readSleep | .writeRecheck | .writeSleep => true
  | _ => false

/-- A place before a wake-up. -/
def owes : Pc → Bool
  | .readUp | .readWake | .writeUp | .writeWake => true
  | _ => false

variable {N : ℤ} {s s' : Sys} {t : Task} {k : Kernel} {m : TaskState} {a : Act}

theorem not_waits (h : queued m.pc = false) : ¬ writers.waits m ∧ ¬ readers.waits m := by
  constructor <;> rintro ⟨hp | hp, -⟩ <;> rw [hp] at h <;> cases h

theorem not_wakes (h : owes m.pc = false) : ¬ writers.wakes m ∧ ¬ readers.wakes m := by
  constructor <;> rintro (hp | hp) <;> rw [hp] at h <;> cases h

theorem watched_start (mem : ℤ → UInt8) : Watched N (start mem) :=
  ⟨watch_of_woken fun _ => (not_waits rfl).1, watch_of_woken fun _ => (not_waits rfl).2, Or.inl rfl⟩

/-- A task moves that has nothing to do with the queues. -/
theorem Watched.pass (h : Watched N s) (htask : s'.task = Function.update s.task t m)
    (hm : queued m.pc = false) (ht : owes (s.task t).pc = false)
    (hin : ∀ u, u ≠ t → u ∈ s.inq → u ∈ s'.inq) (hout : ∀ u, u ≠ t → u ∈ s.outq → u ∈ s'.outq)
    (hspace : spacefree s.dev = 0 → spacefree s'.dev = 0)
    (hempty : s.dev.rp = s.dev.wp → s'.dev.rp = s'.dev.wp)
    (hsize : s'.dev.buffersize = 0 ∨ s'.dev.buffersize = N) : Watched N s' := by
  obtain ⟨hmw, hmr⟩ := not_waits hm
  obtain ⟨htw, htr⟩ := not_wakes ht
  constructor
  · rw [htask]
    exact h.writers.pass hout hmw htw hspace
  · rw [htask]
    exact h.readers.pass hin hmr htr hempty
  · exact hsize

/-- The same where the device and the queues stay. -/
theorem Watched.stay (h : Watched N s) (htask : s'.task = Function.update s.task t m)
    (hdev : s'.dev = s.dev) (hin : s'.inq = s.inq) (hout : s'.outq = s.outq)
    (hm : queued m.pc = false) (ht : owes (s.task t).pc = false) : Watched N s' := by
  refine h.pass htask hm ht ?_ ?_ ?_ ?_ ?_
  · rw [hin]
    exact fun _ _ hu => hu
  · rw [hout]
    exact fun _ _ hu => hu
  · rw [hdev]
    exact id
  · rw [hdev]
    exact id
  · rw [hdev]
    exact h.size

theorem mem_enqueue {q : List Task} : t ∈ Sys.enqueue t q := by
  unfold Sys.enqueue
  split_ifs with h
  · exact h
  · exact List.mem_append_right q (List.mem_singleton_self t)

/-! ### The critical sections -/

/-- What a step must not do: open the device, successfully, while a writer sleeps whom nobody is
about to wake. -/
def OpenOk (N : ℤ) (s : Sys) : Act → Prop
  | .go t k => (s.task t).pc = .openBody → (allocate N k s.dev).buffer ≠ 0 →
      ∀ u ∈ s.outq, writers.sleeps (s.task u) → ∃ v, writers.wakes (s.task v)
  | _ => True

theorem allocate_pointers (dev : ScullPipe) : (allocate N k dev).rp = dev.rp ∧
    (allocate N k dev).wp = dev.wp ∧ (allocate N k dev).buffersize = dev.buffersize := by
  unfold allocate
  split_ifs <;> exact ⟨rfl, rfl, rfl⟩

theorem watched_openBody (h : Watched N s) (hok : OpenOk N s (.go t k))
    (hp : (s.task t).pc = .openBody) : Watched N (openBody N s t k) := by
  have ht : owes (s.task t).pc = false := by rw [hp]; rfl
  obtain ⟨hrp, hwp, hsize⟩ := allocate_pointers (N := N) (k := k) s.dev
  simp only [openBody]
  split_ifs with hb
  · refine h.pass (t := t) rfl rfl ht (fun _ _ hu => hu) (fun _ _ hu => hu) ?_ ?_ ?_
    · simp only [spacefree, hrp, hwp, hsize]
      exact id
    · simp only [hrp, hwp]
      exact id
    · simp only [hsize]
      exact h.size
  · -- the ring is reset: space for the writers, and nobody will wake them for it
    have hwriters : Watch writers (spacefree (enter N (s.fileOf t).mode (allocate N k s.dev)) = 0)
        s.outq s.task := h.writers.unblock (hok hp hb)
    obtain ⟨hmw, hmr⟩ := not_waits (m := { s.task t with pc := .openUp }) rfl
    obtain ⟨htw, htr⟩ := not_wakes ht
    refine ⟨?_, ?_, Or.inr rfl⟩
    · exact hwriters.pass (fun _ _ hu => hu) hmw htw id
    · exact h.readers.pass (fun _ _ hu => hu) hmr htr fun _ => rfl

theorem watched_relBody (h : Watched N s) (hp : (s.task t).pc = .relBody) :
    Watched N (relBody s t) := by
  have hdev : ∀ dev, (releaseBuffer dev).rp = dev.rp ∧ (releaseBuffer dev).wp = dev.wp ∧
      (releaseBuffer dev).buffersize = dev.buffersize := by
    intro dev
    unfold releaseBuffer
    split_ifs <;> exact ⟨rfl, rfl, rfl⟩
  obtain ⟨hrp, hwp, hsize⟩ := hdev (leave (s.fileOf t).mode s.dev)
  refine h.pass (t := t) rfl rfl (by rw [hp]; rfl) (fun _ _ hu => hu) (fun _ _ hu => hu) ?_ ?_ ?_
  · simp only [relBody, spacefree, hrp, hwp, hsize]
    exact id
  · simp only [relBody, hrp, hwp]
    exact id
  · simp only [relBody, hsize]
    exact h.size

/-- A read that makes space goes on to wake the writers. -/
theorem watched_readBody (h : Watched N s) (hp : (s.task t).pc = .readBody) :
    Watched N (readBody s t k) := by
  have ht : owes (s.task t).pc = false := by rw [hp]; rfl
  simp only [readBody]
  split_ifs with heq hk
  · exact h.stay rfl rfl rfl rfl rfl ht
  · exact h.stay rfl rfl rfl rfl rfl ht
  · obtain ⟨hmw, hmr⟩ := not_waits
      (m := { s.task t with pc := .readUp, retval := readCount s.dev (s.task t).count }) rfl
    obtain ⟨htw, htr⟩ := not_wakes ht
    refine ⟨?_, ?_, h.size⟩
    · exact h.writers.move (fun _ _ hu => hu) (fun hw => absurd hw hmw)
        (fun hs => absurd (writers.waits_of_sleeps _ hs) hmw) (fun _ _ _ => Or.inr (Or.inl rfl))
        (fun hw => absurd hw htw)
    · exact h.readers.pass (fun _ _ hu => hu) hmr htr fun hempty => absurd hempty heq

/-- A write that makes bytes goes on to wake the readers. -/
theorem watched_writeBody (h : Watched N s) (hp : (s.task t).pc = .writeBody) :
    Watched N (writeBody s t k) := by
  have ht : owes (s.task t).pc = false := by rw [hp]; rfl
  simp only [writeBody]
  split_ifs with heq hk
  · exact h.stay rfl rfl rfl rfl rfl ht
  · exact h.pass (t := t) rfl rfl ht (fun _ _ hu => hu) (fun _ _ hu => hu) id id h.size
  · obtain ⟨hmw, hmr⟩ := not_waits
      (m := { s.task t with pc := .writeUp, retval := writeCount s.dev (s.task t).count }) rfl
    obtain ⟨htw, htr⟩ := not_wakes ht
    refine ⟨?_, ?_, h.size⟩
    · exact h.writers.pass (fun _ _ hu => hu) hmw htw fun hspace => absurd hspace heq
    · exact h.readers.move (fun _ _ hu => hu) (fun hw => absurd hw hmr)
        (fun hs => absurd (readers.waits_of_sleeps _ hs) hmr) (fun _ _ _ => Or.inr (Or.inl rfl))
        (fun hw => absurd hw htr)

/-! ### Sleeping and waking -/

section Queue

variable {recheck sleep up wake : Pc} {blocked : Prop} {q : List Task} {f : Task → TaskState}

/-- `prepare_to_wait`. -/
theorem watch_prepare (h : Watch (side recheck sleep up wake) blocked q f) (hne : recheck ≠ sleep)
    (ht : ¬ (side recheck sleep up wake).wakes (f t)) :
    Watch (side recheck sleep up wake) blocked (Sys.enqueue t q)
      (Function.update f t { f t with pc := recheck, interruptible := true }) :=
  h.move (fun u hu => (mem_enqueue_iff u hu).mpr) (fun _ => mem_enqueue) (fun hs => absurd hs.1 hne)
    (fun _ _ hb => Or.inl hb) (fun hw => absurd hw ht)

/-- A task that is blocked at its second test goes to sleep. -/
theorem watch_sleep (h : Watch (side recheck sleep up wake) blocked q f)
    (ht : (f t).pc = recheck) (hb : blocked) :
    Watch (side recheck sleep up wake) blocked q (Function.update f t { f t with pc := sleep }) := by
  refine h.move (fun _ _ hu => hu) (fun hw => ?_) (fun _ => hb) (fun _ _ _ => Or.inl hb)
    (fun _ => Or.inl hb)
  exact h.queued t ⟨Or.inl ht, hw.2⟩

/-- The semaphore is up, and the wake-up comes next. -/
theorem watch_up (h : Watch (side recheck sleep up wake) blocked q f) (hrecheck : wake ≠ recheck)
    (hsleep : wake ≠ sleep) :
    Watch (side recheck sleep up wake) blocked q (Function.update f t { f t with pc := wake }) := by
  refine h.move (fun _ _ hu => hu) (fun hw => ?_) (fun hs => absurd hs.1 hsleep)
    (fun _ _ hb => Or.inl hb) (fun _ => Or.inr (Or.inr rfl))
  rcases hw.1 with heq | heq
  · exact absurd heq hrecheck
  · exact absurd heq hsleep

/-- The wake-up of the queue, after which the task returns. -/
theorem watch_wake {blocked' : Prop} {q' : List Task}
    (h : Watch (side recheck sleep up wake) blocked q s.task) (hm : m.interruptible = false) :
    Watch (side recheck sleep up wake) blocked' q' (Function.update (s.wake q) t m) := by
  refine watch_of_woken fun u hu => ?_
  obtain ⟨hpc, hi⟩ := hu
  by_cases hut : u = t
  · rw [hut, Function.update_self, hm] at hi
    cases hi
  · rw [Function.update_of_ne hut] at hpc hi
    unfold Sys.wake at hpc hi
    split_ifs at hpc hi with hc
    · exact hc ⟨h.queued u ⟨hpc, hi⟩, hi⟩

/-- What another queue sees of a wake-up. -/
theorem watch_other (h : Watch (side recheck sleep up wake) blocked q s.task) (q' : List Task) :
    Watch (side recheck sleep up wake) blocked q (s.wake q') := by
  have hi : ∀ u, (s.wake q' u).interruptible = true → (s.task u).interruptible = true := by
    intro u hu
    unfold Sys.wake at hu
    split_ifs at hu
    exact hu
  have hsignal : ∀ u, (s.wake q' u).signal = (s.task u).signal := by
    intro u
    unfold Sys.wake
    split_ifs <;> rfl
  refine h.mono (fun u hu => ?_) (fun u hu => ?_) (fun u hu => ?_)
  · obtain ⟨hpc, hw⟩ := hu
    exact ⟨wake_pc (s := s) q' ▸ hpc, hi u hw⟩
  · obtain ⟨hpc, hw, hsig⟩ := hu
    exact ⟨wake_pc (s := s) q' ▸ hpc, hi u hw, hsignal u ▸ hsig⟩
  · unfold side at hu ⊢
    simpa using hu

end Queue

/-! ### Every step -/

/-- A second test that finds the task blocked, or not. -/
theorem watched_recheck (h : Watched N s) {pc : Pc}
    (hp : (s.task t).pc = .readRecheck ∧ (queued pc = false ∨ pc = .readSleep ∧ s.dev.rp = s.dev.wp) ∨
      (s.task t).pc = .writeRecheck ∧
        (queued pc = false ∨ pc = .writeSleep ∧ spacefree s.dev = 0)) :
    Watched N (s.goto t pc) := by
  have ht : owes (s.task t).pc = false := by rcases hp with ⟨hp, -⟩ | ⟨hp, -⟩ <;> rw [hp] <;> rfl
  obtain ⟨htw, htr⟩ := not_wakes ht
  rcases hp with ⟨hp, hq | ⟨rfl, hb⟩⟩ | ⟨hp, hq | ⟨rfl, hb⟩⟩
  · exact h.stay rfl rfl rfl rfl hq ht
  · refine ⟨h.writers.pass (fun _ _ hu => hu) ?_ htw id, watch_sleep h.readers hp hb, h.size⟩
    rintro ⟨hw | hw, -⟩ <;> cases hw
  · exact h.stay rfl rfl rfl rfl hq ht
  · refine ⟨watch_sleep h.writers hp hb, h.readers.pass (fun _ _ hu => hu) ?_ htr id, h.size⟩
    rintro ⟨hw | hw, -⟩ <;> cases hw

theorem watched_go (h : Watched N s) (hok : OpenOk N s (.go t k)) (hstep : go N s t k = some s') :
    Watched N s' := by
  cases hp : (s.task t).pc <;> simp only [go, hp] at hstep
  case out => cases hstep
  case openDown | readDown | writeDown =>
    rcases downInterruptible_some hstep with rfl | rfl
    · exact h.stay rfl rfl rfl rfl rfl (by rw [hp]; rfl)
    · exact h.stay rfl rfl rfl rfl rfl (by rw [hp]; rfl)
  case relDown | pollDown =>
    obtain rfl := down_some hstep
    exact h.stay rfl rfl rfl rfl rfl (by rw [hp]; rfl)
  case openBody =>
    obtain rfl := Option.some.inj hstep
    exact watched_openBody h hok hp
  case relBody =>
    obtain rfl := Option.some.inj hstep
    exact watched_relBody h hp
  case readBody =>
    obtain rfl := Option.some.inj hstep
    exact watched_readBody h hp
  case writeBody =>
    obtain rfl := Option.some.inj hstep
    exact watched_writeBody h hp
  case readUpEmpty | writeUpFull =>
    obtain rfl := Option.some.inj hstep
    split_ifs
    · exact h.stay rfl rfl rfl rfl rfl (by rw [hp]; rfl)
    · exact h.stay rfl rfl rfl rfl rfl (by rw [hp]; rfl)
  case readTest =>
    obtain rfl := Option.some.inj hstep
    exact h.stay rfl rfl rfl rfl (by split_ifs <;> rfl) (by rw [hp]; rfl)
  case readSleep | writeSleep =>
    split_ifs at hstep
    obtain rfl := Option.some.inj hstep
    exact h.stay rfl rfl rfl rfl rfl (by rw [hp]; rfl)
  case readPrepare =>
    obtain rfl := Option.some.inj hstep
    obtain ⟨htw, htr⟩ := not_wakes (m := s.task t) (by rw [hp]; rfl)
    refine ⟨h.writers.pass (fun _ _ hu => hu) ?_ htw id, watch_prepare h.readers (by decide) htr,
      h.size⟩
    rintro ⟨hw | hw, -⟩ <;> cases hw
  case writePrepare =>
    obtain rfl := Option.some.inj hstep
    obtain ⟨htw, htr⟩ := not_wakes (m := s.task t) (by rw [hp]; rfl)
    refine ⟨watch_prepare h.writers (by decide) htw, h.readers.pass (fun _ _ hu => hu) ?_ htr id,
      h.size⟩
    rintro ⟨hw | hw, -⟩ <;> cases hw
  case readRecheck =>
    obtain rfl := Option.some.inj hstep
    refine watched_recheck h (Or.inl ⟨hp, ?_⟩)
    split_ifs with hne
    · exact Or.inl rfl
    · exact Or.inl rfl
    · exact Or.inr ⟨rfl, not_not.mp hne⟩
  case writeRecheck =>
    obtain rfl := Option.some.inj hstep
    refine watched_recheck h (Or.inr ⟨hp, ?_⟩)
    split_ifs with heq
    · exact Or.inr ⟨rfl, heq⟩
    · exact Or.inl rfl
  case readFinish | readFinishSignal =>
    obtain rfl := Option.some.inj hstep
    exact h.pass rfl rfl (by rw [hp]; rfl) (fun u hu => (mem_erase_iff u hu).mpr)
      (fun _ _ hu => hu) id id h.size
  case writeFinish =>
    obtain rfl := Option.some.inj hstep
    split_ifs
    · exact h.pass rfl rfl (by rw [hp]; rfl) (fun _ _ hu => hu)
        (fun u hu => (mem_erase_iff u hu).mpr) id id h.size
    · exact h.pass rfl rfl (by rw [hp]; rfl) (fun _ _ hu => hu)
        (fun u hu => (mem_erase_iff u hu).mpr) id id h.size
  case readUp =>
    obtain rfl := Option.some.inj hstep
    refine ⟨watch_up h.writers (by decide) (by decide), h.readers.pass (fun _ _ hu => hu) ?_ ?_ id,
      h.size⟩
    · rintro ⟨hw | hw, -⟩ <;> cases hw
    · rintro (hw | hw) <;> rw [hp] at hw <;> cases hw
  case writeUp =>
    obtain rfl := Option.some.inj hstep
    refine ⟨h.writers.pass (fun _ _ hu => hu) ?_ ?_ id, watch_up h.readers (by decide) (by decide),
      h.size⟩
    · rintro ⟨hw | hw, -⟩ <;> cases hw
    · rintro (hw | hw) <;> rw [hp] at hw <;> cases hw
  case readWake =>
    obtain rfl := Option.some.inj hstep
    refine ⟨watch_wake h.writers rfl, (watch_other h.readers s.outq).pass (fun _ _ hu => hu) ?_ ?_ id,
      h.size⟩
    · rintro ⟨hw | hw, -⟩ <;> cases hw
    · rintro (hw | hw) <;> rw [wake_pc, hp] at hw <;> cases hw
  case writeWake =>
    obtain rfl := Option.some.inj hstep
    refine ⟨(watch_other h.writers s.inq).pass (fun _ _ hu => hu) ?_ ?_ id, watch_wake h.readers rfl,
      h.size⟩
    · rintro ⟨hw | hw, -⟩ <;> cases hw
    · rintro (hw | hw) <;> rw [wake_pc, hp] at hw <;> cases hw
  all_goals
    obtain rfl := Option.some.inj hstep
    exact h.stay rfl rfl rfl rfl rfl (by rw [hp]; rfl)

/-- A Unix signal sets a task running. -/
theorem watched_signal (h : Watched N s) :
    Watched N (s.set t { s.task t with signal := true, interruptible := false }) := by
  have hpc : ∀ u, (Function.update s.task t
      { s.task t with signal := true, interruptible := false } u).pc = (s.task u).pc := by
    intro u
    by_cases hut : u = t
    · simp [hut]
    · simp [hut]
  have hstate : ∀ u, (Function.update s.task t
      { s.task t with signal := true, interruptible := false } u).interruptible = true →
      Function.update s.task t { s.task t with signal := true, interruptible := false } u =
        s.task u := by
    intro u hu
    by_cases hut : u = t
    · simp [hut] at hu
    · rw [Function.update_of_ne hut]
  refine ⟨h.writers.mono (fun u hu => ?_) (fun u hu => ?_) (fun u hu => ?_),
    h.readers.mono (fun u hu => ?_) (fun u hu => ?_) (fun u hu => ?_), h.size⟩
  · exact hstate u hu.2 ▸ hu
  · exact hstate u hu.2.1 ▸ hu
  · exact hu.imp (hpc u).trans (hpc u).trans
  · exact hstate u hu.2 ▸ hu
  · exact hstate u hu.2.1 ▸ hu
  · exact hu.imp (hpc u).trans (hpc u).trans

/-- **A step keeps the watch.** -/
theorem watched_step (h : Watched N s) (hok : OpenOk N s a) (hstep : step N s a = some s') :
    Watched N s' := by
  cases a with
  | go t k => exact watched_go h hok hstep
  | unixSignal t =>
    obtain rfl := Option.some.inj hstep
    exact watched_signal h
  | _ =>
    simp only [step] at hstep
    split_ifs at hstep with hc
    obtain rfl := Option.some.inj hstep
    exact h.stay rfl rfl rfl rfl rfl (by rw [hc.1]; rfl)

/-! ### Nobody is stuck -/

/-- A task between `down` and the wake-up of its call. -/
def busy : Pc → Bool
  | .openBody | .openUp | .openUpFail | .relBody | .relUp
  | .readBody | .readUpEmpty | .readUpFault | .readUp | .readWake
  | .writeBody | .writeUpFull | .writeUpFault | .writeUp | .writeWake
  | .pollBody | .pollUp => true
  | _ => false

/-- A writer is asleep on `outq`. -/
def WriterAsleep (s : Sys) (t : Task) : Prop := t ∈ s.outq ∧ writers.sleeps (s.task t)

/-- A reader is asleep on `inq`. -/
def ReaderAsleep (s : Sys) (t : Task) : Prop := t ∈ s.inq ∧ readers.sleeps (s.task t)

/-- **No stuck pipe**: while nobody is between `down` and his wake-up, no writer is asleep who has
space, no reader who has bytes, and not both a reader and a writer. -/
def NotStuck (s : Sys) : Prop :=
  (∀ t, busy (s.task t).pc = false) →
    (∀ t, WriterAsleep s t → ¬ 0 < spacefree s.dev) ∧
    (∀ t, ReaderAsleep s t → ¬ s.dev.rp ≠ s.dev.wp) ∧
    ¬ ((∃ t, WriterAsleep s t) ∧ ∃ t, ReaderAsleep s t)

theorem Watched.notStuck (hN : 2 ≤ N) (h : Watched N s) : NotStuck s := by
  intro hbusy
  have hquiet : ∀ u, owes (s.task u).pc = false := by
    intro u
    have := hbusy u
    cases hp : (s.task u).pc <;> simp_all [busy, owes]
  have hwriters : ∀ t, WriterAsleep s t → spacefree s.dev = 0 := by
    rintro t ⟨-, ht⟩
    rcases h.writers.watched t ht with hb | ⟨u, hu⟩
    · exact hb
    · exact absurd hu (not_wakes (hquiet u)).1
  have hreaders : ∀ t, ReaderAsleep s t → s.dev.rp = s.dev.wp := by
    rintro t ⟨-, ht⟩
    rcases h.readers.watched t ht with hb | ⟨u, hu⟩
    · exact hb
    · exact absurd hu (not_wakes (hquiet u)).2
  refine ⟨fun t ht => by rw [hwriters t ht]; exact lt_irrefl 0, fun t ht hne => hne (hreaders t ht), ?_⟩
  rintro ⟨⟨t, ht⟩, u, hu⟩
  -- a ring that is full and empty has one byte
  have hfull := hwriters t ht
  have hempty := hreaders u hu
  have hsize := h.size
  rw [spacefree, if_pos hempty] at hfull
  omega

/-- **No stuck pipe** in the runs all of whose steps are `OpenOk`. -/
theorem not_stuck (hN : 2 ≤ N) (mem : ℤ → UInt8) {acts : List Act}
    (h : Meets (step N) (OpenOk N) (start mem) acts) :
    Always (step N) NotStuck (start mem) acts :=
  (always_of_meets (fun _ _ _ hs hok hstep => watched_step hs hok hstep) (watched_start mem)
    h).mono fun _ hs => hs.notStuck hN

/-- The condition that can be tested: nobody sleeps on `outq` when a file is opened. -/
def NobodySleeps (s : Sys) : Act → Prop
  | .go t _ => (s.task t).pc = .openBody → ∀ u ∈ s.outq, ¬ writers.sleeps (s.task u)
  | _ => True

instance (s : Sys) : (a : Act) → Decidable (NobodySleeps s a)
  | .go _ _ => inferInstanceAs (Decidable (_ → ∀ u ∈ s.outq, ¬ writers.sleeps (s.task u)))
  | .callOpen .. | .callRelease .. | .callRead .. | .callWrite .. | .callPoll .. | .unixSignal _ =>
    inferInstanceAs (Decidable True)

theorem openOk_of_nobodySleeps (s : Sys) (a : Act) (h : NobodySleeps s a) : OpenOk N s a := by
  cases a with
  | go t k =>
    intro hp _ u hu hsleeps
    exact absurd hsleeps (h hp u hu)
  | _ => trivial

/-- The kernel finds a buffer at the address 64. -/
def kernel64 : Kernel := ⟨64, fun _ => 7, none⟩

/-- A number of steps of a task. -/
def steps (t : Task) (n : ℕ) : List Act := List.replicate n (.go t kernel64)

/-- A file is opened for reading and writing. -/
def opens (t : Task) (h : Handle) : List Act := .callOpen t h ⟨true, true, false⟩ :: steps t 3

/-- The task writes a byte to the file 0, in so many steps. -/
def writesByte (t : Task) (n : ℕ) : List Act := .callWrite t 0 (fun _ => 65) 1 :: steps t n

/-- The task 0 fills a ring of two bytes and goes to sleep in a second write; the task 1 reads the
byte and wakes it. -/
theorem not_stuck_handover : Always (step 2) NotStuck (start fun _ => 0)
    (opens 0 0 ++ writesByte 0 4 ++ writesByte 0 5 ++ .callRead 1 0 1 :: steps 1 4 ++ steps 0 6) :=
  not_stuck (by decide) _
    ((by decide +kernel : Meets (step 2) NobodySleeps (start fun _ => 0)
      (opens 0 0 ++ writesByte 0 4 ++ writesByte 0 5 ++ .callRead 1 0 1 :: steps 1 4 ++
        steps 0 6)).mono openOk_of_nobodySleeps)

/-- The task 0 sleeps in its second write, and a second file is opened: there is space, and nobody
is left to wake the task. -/
theorem stuck : ¬ Always (step 2) NotStuck (start fun _ => 0)
    (opens 0 0 ++ writesByte 0 4 ++ writesByte 0 5 ++ opens 1 1) := by
  intro h
  have hrun : (run (step 2) (start fun _ => 0)
      (opens 0 0 ++ writesByte 0 4 ++ writesByte 0 5 ++ opens 1 1)).map
      (fun s => (spacefree s.dev, s.outq, decide (writers.sleeps (s.task 0)),
        (s.task 0).pc, (s.task 1).pc)) = some (1, [0], true, .writeSleep, .out) := by
    decide +kernel
  have hothers : ∀ n, (run (step 2) (start fun _ => 0)
      (opens 0 0 ++ writesByte 0 4 ++ writesByte 0 5 ++ opens 1 1)).map
      (fun s => (s.task (n + 2)).pc) = some .out := fun n => rfl
  obtain ⟨s, hs, hval⟩ := Option.map_eq_some_iff.mp hrun
  simp only [Prod.mk.injEq, decide_eq_true_eq] at hval
  obtain ⟨hspace, hqueue, hsleeps, hzero, hone⟩ := hval
  have hbusy : ∀ t, busy (s.task t).pc = false := by
    intro t
    match t with
    | 0 => rw [hzero]; rfl
    | 1 => rw [hone]; rfl
    | n + 2 =>
      have hn := hothers n
      rw [hs] at hn
      have hout : (s.task (n + 2)).pc = .out := Option.some.inj hn
      rw [hout]
      rfl
  have hmem : 0 ∈ s.outq := by simp [hqueue]
  exact ((h.last hs) hbusy).1 0 ⟨hmem, hsleeps⟩ (by omega)

end LinuxHomework.Pipe.Wakeup
