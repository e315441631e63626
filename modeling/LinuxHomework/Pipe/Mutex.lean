import LinuxHomework.Lib.Counting
import LinuxHomework.Pipe.Handles

/-! # The semaphore of the pipe device

Every call that takes the semaphore gives it back before it returns, also on the ways out through
`scull_getwritespace`, after a fault, and after a signal. To say so the run is recorded: `held` is
the number of `down`s of a task less the number of its `up`s, read off what its steps do to the
semaphore.

* `semaphore_discipline`: the semaphore is 0 or 1, one task holds it at most, no task that is out of
  its call does, and only the holder calls `up` and changes the pointers and the counters. -/

namespace LinuxHomework.Pipe.Mutex

open LinuxHomework.Lib.Runs LinuxHomework.Lib.Counting LinuxHomework.Pipe.Device
open LinuxHomework.Pipe.System LinuxHomework.Pipe.Handles

/-! ### The record of `down` and `up` -/

/-- The task that takes the step. -/
def actor : Act → Task
  | .callOpen t .. | .callRelease t _ | .callRead t .. | .callWrite t .. | .callPoll t _
  | .go t _ | .unixSignal t => t

/-- The system, and for every task how many more `down`s than `up`s it has made. -/
structure Recorded where
  sys : Sys
  held : Task → ℤ

/-- Nothing has been done to the semaphore. -/
def recordedStart (mem : ℤ → UInt8) : Recorded := ⟨start mem, fun _ => 0⟩

/-- A step that lowers the semaphore is a `down`, one that raises it is an `up`. -/
def recordedStep (N : ℤ) (g : Recorded) (a : Act) : Option Recorded :=
  (step N g.sys a).map fun s =>
    ⟨s, Function.update g.held (actor a) (g.held (actor a) + g.sys.sem - s.sem)⟩

/-- **The discipline**, in a state. -/
structure Disciplined (g : Recorded) : Prop where
  sem : g.sys.sem = 0 ∨ g.sys.sem = 1
  held : ∀ t, g.held t = 0 ∨ g.held t = 1
  alone : ∀ t u, g.held t = 1 → g.held u = 1 → t = u
  taken : (∃ t, g.held t = 1) ↔ g.sys.sem = 0
  returned : ∀ t, (g.sys.task t).pc = .out → g.held t = 0

/-- The pointers and the counters of the device. -/
def shared (dev : ScullPipe) : ℤ × ℤ × ℤ × ℤ × ℤ :=
  (dev.rp, dev.wp, dev.buffer, dev.nreaders, dev.nwriters)

/-- **The discipline**, in a step: who calls `up` or changes the device holds the semaphore. -/
def Guarded (N : ℤ) (g : Recorded) (a : Act) : Prop :=
  ∀ g', recordedStep N g a = some g' →
    (g.sys.sem < g'.sys.sem → g.held (actor a) = 1) ∧
    (shared g'.sys.dev ≠ shared g.sys.dev → g.held (actor a) = 1)

/-! ### The places between `down` and `up` -/

/-- A task at this place has the semaphore. -/
def holds : Pc → Bool
  | .openBody | .openUp | .openUpFail | .relBody | .relUp
  | .readBody | .readUpEmpty | .readUpFault | .readUp
  | .writeBody | .writeUpFull | .writeUpFault | .writeUp
  | .pollBody | .pollUp => true
  | _ => false

/-- One for a holder. -/
def weight (pc : Pc) : ℕ := if holds pc then 1 else 0

/-- The places of the tasks. -/
def pcs (task : Task → TaskState) : Task → Pc := fun t => (task t).pc

variable {N : ℤ} {s s' : Sys} {t : Task} {k : Kernel} {a : Act} {pc : Pc}

@[simp] theorem pcs_update (f : Task → TaskState) (t : Task) (m : TaskState) :
    pcs (Function.update f t m) = Function.update (pcs f) t m.pc := by
  funext u
  by_cases hu : u = t
  · simp [pcs, hu]
  · simp [pcs, hu]

@[simp] theorem pcs_wake (q : List Task) : pcs (s.wake q) = pcs s.task := by
  funext u
  simp [pcs]

/-- One task moves, and the semaphore moves with it. -/
structure Balanced (s : Sys) (t : Task) (s' : Sys) (pc : Pc) : Prop where
  pcs : pcs s'.task = Function.update (pcs s.task) t pc
  sem : s'.sem + weight pc = s.sem + weight (s.task t).pc

/-- A step that leaves the semaphore. -/
theorem Balanced.stay {m : TaskState} (htask : s'.task = Function.update s.task t m)
    (hsem : s'.sem = s.sem) (hpc : holds m.pc = holds (s.task t).pc) : Balanced s t s' m.pc := by
  constructor
  · rw [htask, pcs_update]
  · rw [hsem, weight, weight, hpc]

/-- `up`. -/
theorem Balanced.up {m : TaskState} (htask : s'.task = Function.update s.task t m)
    (hsem : s'.sem = s.sem + 1) (hpc : holds (s.task t).pc = true) (hm : holds m.pc = false) :
    Balanced s t s' m.pc := by
  constructor
  · rw [htask, pcs_update]
  · rw [hsem, weight, weight, hpc, hm]
    rfl

/-- A wake-up, after which the task returns. -/
theorem Balanced.wake {m : TaskState} {q : List Task}
    (htask : s'.task = Function.update (s.wake q) t m) (hsem : s'.sem = s.sem)
    (hpc : holds m.pc = holds (s.task t).pc) : Balanced s t s' m.pc := by
  constructor
  · rw [htask, pcs_update, pcs_wake]
  · rw [hsem, weight, weight, hpc]

theorem Balanced.down {next : Pc} (h : s.down t next = some s')
    (hpc : holds (s.task t).pc = false) (hnext : holds next = true) : Balanced s t s' next := by
  unfold Sys.down at h
  split_ifs at h with hsem
  obtain rfl := Option.some.inj h
  constructor
  · exact pcs_update _ _ _
  · rw [weight, weight, hpc, hnext]
    show s.sem - 1 + 1 = s.sem + 0
    omega

theorem Balanced.downInterruptible {next : Pc} {fail : Sys} {m : TaskState}
    (h : s.downInterruptible t next fail = some s') (hpc : holds (s.task t).pc = false)
    (hnext : holds next = true) (htask : fail.task = Function.update s.task t m)
    (hsem : fail.sem = s.sem) (hm : holds m.pc = false) : ∃ pc, Balanced s t s' pc := by
  unfold Sys.downInterruptible at h
  split_ifs at h with hpos
  · refine ⟨next, Balanced.down ?_ hpc hnext⟩
    rw [Sys.down, if_pos hpos]
    exact h
  · obtain rfl := Option.some.inj h
    exact ⟨m.pc, .stay htask hsem (hm.trans hpc.symm)⟩

/-- **Every step is balanced**: the semaphore is lower by one as long as the task holds it. -/
theorem go_balanced (h : go N s t k = some s') : ∃ pc, Balanced s t s' pc := by
  cases hp : (s.task t).pc <;> simp only [go, hp] at h
  case out => cases h
  case openDown | readDown | writeDown =>
    exact Balanced.downInterruptible h (by rw [hp]; rfl) rfl rfl rfl rfl
  case relDown | pollDown => exact ⟨_, .down h (by rw [hp]; rfl) rfl⟩
  case openBody =>
    obtain rfl := Option.some.inj h
    simp only [openBody]
    split_ifs
    · exact ⟨_, .stay rfl rfl (by rw [hp]; rfl)⟩
    · exact ⟨_, .stay rfl rfl (by rw [hp]; rfl)⟩
  case readBody =>
    obtain rfl := Option.some.inj h
    simp only [readBody]
    split_ifs
    · exact ⟨_, .stay rfl rfl (by rw [hp]; rfl)⟩
    · exact ⟨_, .stay rfl rfl (by rw [hp]; rfl)⟩
    · exact ⟨_, .stay rfl rfl (by rw [hp]; rfl)⟩
  case writeBody =>
    obtain rfl := Option.some.inj h
    simp only [writeBody]
    split_ifs
    · exact ⟨_, .stay rfl rfl (by rw [hp]; rfl)⟩
    · exact ⟨_, .stay rfl rfl (by rw [hp]; rfl)⟩
    · exact ⟨_, .stay rfl rfl (by rw [hp]; rfl)⟩
  case openUp | openUpFail | relUp | readUpFault | readUp | writeUpFault | writeUp | pollUp =>
    obtain rfl := Option.some.inj h
    exact ⟨_, .up rfl rfl (by rw [hp]; rfl) rfl⟩
  case readUpEmpty | writeUpFull =>
    obtain rfl := Option.some.inj h
    split_ifs
    · exact ⟨_, .up rfl rfl (by rw [hp]; rfl) rfl⟩
    · exact ⟨_, .up rfl rfl (by rw [hp]; rfl) rfl⟩
  case readTest | readRecheck | writeRecheck =>
    obtain rfl := Option.some.inj h
    exact ⟨_, .stay rfl rfl (by rw [hp]; split_ifs <;> rfl)⟩
  case readSleep | writeSleep =>
    split_ifs at h
    obtain rfl := Option.some.inj h
    exact ⟨_, .stay rfl rfl (by rw [hp]; rfl)⟩
  case writeFinish =>
    obtain rfl := Option.some.inj h
    split_ifs
    · exact ⟨_, .stay rfl rfl (by rw [hp]; rfl)⟩
    · exact ⟨_, .stay rfl rfl (by rw [hp]; rfl)⟩
  case readWake | writeWake =>
    obtain rfl := Option.some.inj h
    exact ⟨_, .wake rfl rfl (by rw [hp]; rfl)⟩
  all_goals
    obtain rfl := Option.some.inj h
    exact ⟨_, .stay rfl rfl (by rw [hp]; rfl)⟩

theorem step_balanced (h : step N s a = some s') : ∃ pc, Balanced s (actor a) s' pc := by
  cases a with
  | go t k => exact go_balanced h
  | unixSignal t =>
    obtain rfl := Option.some.inj h
    exact ⟨_, .stay rfl rfl rfl⟩
  | _ =>
    simp only [step] at h
    split_ifs at h with hc
    obtain rfl := Option.some.inj h
    exact ⟨_, .stay rfl rfl (by rw [actor, hc.1]; rfl)⟩

/-- Who changes the device is in a critical section. -/
theorem holds_of_changed (h : step N s a = some s') (hdev : s'.dev ≠ s.dev) :
    holds (s.task (actor a)).pc = true := by
  rcases step_cases h with ⟨hsame, -⟩ |
    ⟨t, k, rfl, ⟨hp, -⟩ | ⟨hp, -⟩ | ⟨hp, -⟩ | ⟨hp, -⟩⟩
  · exact absurd hsame.dev hdev
  all_goals
    rw [actor, hp]
    rfl

/-! ### Whole runs -/

/-- **The invariant**: the record says where the task is, and one task at most holds the
semaphore. -/
structure Owned (g : Recorded) : Prop where
  held : ∀ t, g.held t = weight (g.sys.task t).pc
  sem : ∃ n, Census (fun pc => holds pc = true) (pcs g.sys.task) n ∧ g.sys.sem + n = 1

theorem owned_start (mem : ℤ → UInt8) : Owned (recordedStart mem) :=
  ⟨fun _ => rfl, 0, census_zero fun _ => by simp [pcs, recordedStart, start, holds], rfl⟩

variable {g g' : Recorded}

theorem held_eq_one (h : Owned g) : g.held t = 1 ↔ holds (g.sys.task t).pc = true := by
  rw [h.held, weight]
  split_ifs with hc <;> simp [hc]

/-- Two holders would be one too many. -/
theorem Owned.alone (h : Owned g) {u : Task} (ht : holds (g.sys.task t).pc = true)
    (hu : holds (g.sys.task u).pc = true) : t = u := by
  obtain ⟨n, ⟨G, hG, rfl⟩, hsem⟩ := h.sem
  have hcard : G.card ≤ 1 := by omega
  exact Finset.card_le_one.mp hcard t ((hG t).mpr ht) u ((hG u).mpr hu)

theorem Owned.disciplined (h : Owned g) : Disciplined g := by
  obtain ⟨n, hcensus, hsem⟩ := h.sem
  constructor
  · omega
  · intro t
    rw [h.held, weight]
    split_ifs <;> simp
  · intro t u ht hu
    exact h.alone ((held_eq_one h).mp ht) ((held_eq_one h).mp hu)
  · have hpos := hcensus.pos_iff
    simp only [held_eq_one h]
    constructor
    · intro hex
      have := hpos.mpr hex
      omega
    · intro hzero
      exact hpos.mp (by omega)
  · intro t ht
    rw [h.held, ht]
    rfl

theorem owned_step (h : Owned g) (hstep : recordedStep N g a = some g') :
    Owned g' ∧ (g.sys.sem < g'.sys.sem → g.held (actor a) = 1) := by
  obtain ⟨s', hs, rfl⟩ := Option.map_eq_some_iff.mp hstep
  obtain ⟨pc, hpcs, hbalance⟩ := step_balanced hs
  have hpc : ∀ u, (s'.task u).pc = Function.update (pcs g.sys.task) (actor a) pc u :=
    fun u => congrFun hpcs u
  obtain ⟨n, hcensus, hsem⟩ := h.sem
  refine ⟨⟨fun u => ?_, ?_⟩, fun hup => ?_⟩
  · change Function.update g.held (actor a) (g.held (actor a) + g.sys.sem - s'.sem) u =
      weight (s'.task u).pc
    rw [hpc u]
    by_cases hu : u = actor a
    · rw [hu, Function.update_self, Function.update_self, h.held]
      omega
    · rw [Function.update_of_ne hu, Function.update_of_ne hu]
      exact h.held u
  · obtain ⟨m, hm, hcount⟩ := hcensus.move (actor a) pc
    change m + weight (g.sys.task (actor a)).pc = n + weight pc at hcount
    exact ⟨m, hpcs ▸ hm, show s'.sem + m = 1 by omega⟩
  · rw [h.held]
    change g.sys.sem < s'.sem at hup
    have : weight (g.sys.task (actor a)).pc ≤ 1 := by
      unfold weight
      split_ifs <;> omega
    omega

theorem Owned.guarded (h : Owned g) (a : Act) : Guarded N g a := by
  intro g' hstep
  refine ⟨(owned_step h hstep).2, fun hne => ?_⟩
  obtain ⟨s', hs, rfl⟩ := Option.map_eq_some_iff.mp hstep
  exact (held_eq_one h).mpr (holds_of_changed hs fun hdev => hne (congrArg shared hdev))

/-- **The semaphore discipline**, in every run and every step of it. -/
theorem semaphore_discipline (N : ℤ) (mem : ℤ → UInt8) (acts : List Act) :
    Always (recordedStep N) Disciplined (recordedStart mem) acts ∧
      Meets (recordedStep N) (Guarded N) (recordedStart mem) acts := by
  have hrun : Always (recordedStep N) Owned (recordedStart mem) acts :=
    always_of_step (fun _ _ _ h hstep => (owned_step h hstep).1) (owned_start mem) acts
  constructor
  · exact hrun.mono fun _ h => h.disciplined
  · intro pre a hpre g hg _
    exact (hrun pre (List.prefix_append pre [a] |>.trans hpre) g hg).guarded a

end LinuxHomework.Pipe.Mutex
