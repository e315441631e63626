import LinuxHomework.Lib.Potential
import LinuxHomework.Pipe.Mutex
import LinuxHomework.Pipe.Wakeup

/-! # The calls come to rest

Let the tasks that are inside the calls go on, in any order, without a new call or a Unix signal. A
reader or writer may go round its loop many times, but only if it was woken, or if the ring has
changed since it last looked; both are the doing of a call that has then done its work, and comes
back for neither.

So the load of a task is what its call can still do to others: change the ring, and wake them. Its
rank is the number of steps to the next such place, or to where it has to wait, as long as the ring
stays as it is.

* `go_turn`: each step takes a load from its task, or lowers its rank.
* `calls_rest`: the steps are no more than a bound in the number of tasks, and in the end everybody
  has returned or sleeps, with the semaphore free.
* `rest_waits`: in the runs without a lost wake-up, only readers of an empty ring sleep then, or
  only writers of a full one. -/

namespace LinuxHomework.Pipe.Progress

open LinuxHomework.Lib.Counting LinuxHomework.Lib.Potential LinuxHomework.Lib.Runs
open LinuxHomework.Lib.Sleepers LinuxHomework.Pipe.Device
open LinuxHomework.Pipe.System LinuxHomework.Pipe.Handles LinuxHomework.Pipe.Mutex
open LinuxHomework.Pipe.Wakeup

/-! ### Loads and ranks -/

/-- What a call can still do: 2 before its critical section is done, 1 before its wake-up. -/
def load : Pc → ℕ
  | .openDown | .openBody | .relDown | .relBody
  | .readDown | .readBody | .readUpEmpty | .readTest | .readPrepare | .readRecheck | .readSleep
  | .readFinish | .readFinishSignal
  | .writeDown | .writeBody | .writeUpFull | .writePrepare | .writeRecheck | .writeSleep | .writeFinish
  | .pollDown | .pollBody => 2
  | .readUp | .readWake | .writeUp | .writeWake => 1
  | .out | .openUp | .openUpFail | .relUp | .readUpFault | .writeUpFault | .pollUp => 0

/-- The rank of a reader at a ring that is not empty: it is on its way to the copy. -/
def rankReading : Pc → ℕ
  | .readDown => 1
  | .readFinish | .readTest => 2
  | .readRecheck | .readUpEmpty => 3
  | .readPrepare => 4
  | .readSleep => 5
  | _ => 0

/-- The rank of a reader at an empty ring: it is on its way to sleep, or to return after a
signal. -/
def rankEmpty (k : TaskState) : ℕ :=
  match k.pc with
  | .readSleep => if k.interruptible ∧ ¬ k.signal then 0 else 3
  | .readRecheck => if k.interruptible ∨ k.signal then 1 else 4
  | .readPrepare => 2
  | .readTest => 3
  | .readUpEmpty => 4
  | .readBody => 5
  | .readDown => 6
  | .readFinish => 7
  | _ => 0

/-- The rank of a writer at a ring that is not full. -/
def rankWriting : Pc → ℕ
  | .writeDown => 1
  | .writeFinish => 2
  | .writeRecheck | .writeSleep => 3
  | .writePrepare => 4
  | .writeUpFull => 5
  | _ => 0

/-- The rank of a writer at a full ring. -/
def rankFull (k : TaskState) : ℕ :=
  match k.pc with
  | .writeSleep => if k.signal then 1 else if k.interruptible then 0 else 8
  | .writeRecheck => if k.signal then 2 else if k.interruptible then 1 else 9
  | .writePrepare => 3
  | .writeUpFull => 4
  | .writeBody => 5
  | .writeDown => 6
  | .writeFinish => if k.signal then 0 else 7
  | _ => 0

/-- The rank of a task that is not in a loop. -/
def rankStraight : Pc → ℕ
  | .openDown | .openUp | .openUpFail | .relDown | .relUp | .readUpFault | .readUp
  | .writeUpFault | .writeUp | .pollDown | .pollUp => 1
  | _ => 0

/-- **The rank of a task**, with the ring as it is. -/
def rank (dev : ScullPipe) (k : TaskState) : ℕ :=
  rankStraight k.pc + (if dev.rp = dev.wp then rankEmpty k else rankReading k.pc) +
    if spacefree dev = 0 then rankFull k else rankWriting k.pc

variable {N : ℤ} {s s' : Sys} {t : Task} {k : Kernel} {m : TaskState} {pc : Pc} {G : Finset Task}

theorem load_le (pc : Pc) : load pc ≤ 2 := by
  cases pc <;> decide

theorem rank_le (dev : ScullPipe) (k : TaskState) : rank dev k ≤ 9 := by
  unfold rank rankEmpty rankFull
  cases k.pc <;> simp only [rankStraight, rankReading, rankWriting] <;> split_ifs <;> omega

/-! ### One step -/

/-- **What a step does to its task**: it takes a load from it, and nobody else moves, or it lowers
its rank, and nothing else changes that ranks depend on. -/
inductive Turn (s : Sys) (t : Task) (s' : Sys) : Prop
  | lighter (pc : Pc) (hpcs : pcs s'.task = Function.update (pcs s.task) t pc)
    (hload : load pc < load (s.task t).pc)
  | closer (m : TaskState) (htask : s'.task = Function.update s.task t m) (hdev : s'.dev = s.dev)
    (hload : load m.pc = load (s.task t).pc) (hrank : rank s.dev m < rank s.dev (s.task t))

/-- The task moves, with less to do. -/
theorem Turn.of_load (pc : Pc) (htask : pcs s'.task = Function.update (pcs s.task) t m.pc)
    (hm : m.pc = pc) (hload : load pc < load (s.task t).pc) : Turn s t s' :=
  .lighter pc (hm ▸ htask) hload

theorem turn_downInterruptible {next : Pc} {fail : Sys} (h : s.downInterruptible t next fail = some s')
    (hload : load next = load (s.task t).pc)
    (hrank : rank s.dev { s.task t with pc := next } < rank s.dev (s.task t))
    (htask : fail.task = Function.update s.task t m) (hm : m.pc = .out)
    (hfail : 0 < load (s.task t).pc) : Turn s t s' := by
  rcases downInterruptible_some h with rfl | rfl
  · exact .closer _ rfl rfl hload hrank
  · exact .of_load .out (by rw [htask, pcs_update]) hm hfail

theorem turn_openBody (hp : (s.task t).pc = .openBody) : Turn s t (openBody N s t k) := by
  simp only [openBody]
  split_ifs
  · exact .of_load .openUpFail (pcs_update _ _ _) rfl (by rw [hp]; decide)
  · exact .of_load .openUp (pcs_update _ _ _) rfl (by rw [hp]; decide)

theorem turn_readBody (hp : (s.task t).pc = .readBody) : Turn s t (readBody s t k) := by
  simp only [readBody]
  split_ifs with hempty
  · refine .closer _ rfl rfl (by rw [hp]; rfl) ?_
    simp only [rank, rankStraight, rankEmpty, rankFull, rankWriting, hp, if_pos hempty]
    omega
  · exact .of_load .readUpFault (pcs_update _ _ _) rfl (by rw [hp]; decide)
  · exact .of_load .readUp (pcs_update _ _ _) rfl (by rw [hp]; decide)

theorem turn_writeBody (hp : (s.task t).pc = .writeBody) : Turn s t (writeBody s t k) := by
  simp only [writeBody]
  split_ifs with hfull
  · refine .closer _ rfl rfl (by rw [hp]; rfl) ?_
    simp only [rank, rankStraight, rankEmpty, rankReading, rankFull, hp, if_pos hfull]
    omega
  · exact .of_load .writeUpFault (pcs_update _ _ _) rfl (by rw [hp]; decide)
  · exact .of_load .writeUp (pcs_update _ _ _) rfl (by rw [hp]; decide)

/-- A wake-up, after which the task returns. -/
theorem turn_wake {q : List Task} (htask : s'.task = Function.update (s.wake q) t m) (hm : m.pc = .out)
    (hload : 0 < load (s.task t).pc) : Turn s t s' :=
  .of_load .out (by rw [htask, pcs_update, pcs_wake]) hm hload

/-- The loop of a reader. -/
theorem turn_readLoop (hp : (s.task t).pc = .readUpEmpty ∨ (s.task t).pc = .readTest ∨
    (s.task t).pc = .readPrepare ∨ (s.task t).pc = .readRecheck ∨ (s.task t).pc = .readSleep ∨
    (s.task t).pc = .readFinish ∨ (s.task t).pc = .readFinishSignal) (h : go N s t k = some s') :
    Turn s t s' := by
  rcases hp with hp | hp | hp | hp | hp | hp | hp <;> simp only [go, hp] at h
  · obtain rfl := Option.some.inj h
    split_ifs
    · exact .of_load .out (pcs_update _ _ _) rfl (by rw [hp]; decide)
    · refine .closer _ rfl rfl (by rw [hp]; rfl) ?_
      simp only [rank, rankStraight, rankEmpty, rankReading, rankFull, rankWriting, hp]
      split_ifs <;> omega
  · -- the test is made without the semaphore, but the ring does not change in between
    obtain rfl := Option.some.inj h
    split_ifs
    all_goals
      refine .closer _ rfl rfl (by rw [hp]; rfl) ?_
      simp only [rank, rankStraight, rankEmpty, rankReading, rankFull, rankWriting, hp]
      split_ifs <;> omega
  · obtain rfl := Option.some.inj h
    refine .closer _ rfl rfl (by rw [hp]; rfl) ?_
    simp only [rank, rankStraight, rankEmpty, rankReading, rankFull, rankWriting, hp]
    split_ifs <;> simp_all
  · obtain rfl := Option.some.inj h
    split_ifs
    all_goals
      refine .closer _ rfl rfl (by rw [hp]; rfl) ?_
      simp only [rank, rankStraight, rankEmpty, rankReading, rankFull, rankWriting, hp]
      split_ifs <;> simp_all
  · split_ifs at h with hsleep
    obtain rfl := Option.some.inj h
    refine .closer _ rfl rfl (by rw [hp]; rfl) ?_
    simp only [rank, rankStraight, rankEmpty, rankReading, rankFull, rankWriting, hp, if_neg hsleep]
    split_ifs <;> omega
  · obtain rfl := Option.some.inj h
    refine .closer _ rfl rfl (by rw [hp]; rfl) ?_
    simp only [rank, rankStraight, rankEmpty, rankReading, rankFull, rankWriting, hp]
    split_ifs <;> omega
  · obtain rfl := Option.some.inj h
    exact .of_load .out (pcs_update _ _ _) rfl (by rw [hp]; decide)

/-- The loop of a writer. -/
theorem turn_writeLoop (hp : (s.task t).pc = .writeUpFull ∨ (s.task t).pc = .writePrepare ∨
    (s.task t).pc = .writeRecheck ∨ (s.task t).pc = .writeSleep ∨ (s.task t).pc = .writeFinish)
    (h : go N s t k = some s') : Turn s t s' := by
  rcases hp with hp | hp | hp | hp | hp <;> simp only [go, hp] at h
  · obtain rfl := Option.some.inj h
    split_ifs
    · exact .of_load .out (pcs_update _ _ _) rfl (by rw [hp]; decide)
    · refine .closer _ rfl rfl (by rw [hp]; rfl) ?_
      simp only [rank, rankStraight, rankEmpty, rankReading, rankFull, rankWriting, hp]
      split_ifs <;> omega
  · obtain rfl := Option.some.inj h
    refine .closer _ rfl rfl (by rw [hp]; rfl) ?_
    simp only [rank, rankStraight, rankEmpty, rankReading, rankFull, rankWriting, hp]
    split_ifs <;> omega
  · obtain rfl := Option.some.inj h
    split_ifs
    all_goals
      refine .closer _ rfl rfl (by rw [hp]; rfl) ?_
      simp only [rank, rankStraight, rankEmpty, rankReading, rankFull, rankWriting, hp]
      split_ifs <;> omega
  · split_ifs at h with hsleep
    obtain rfl := Option.some.inj h
    refine .closer _ rfl rfl (by rw [hp]; rfl) ?_
    simp only [rank, rankStraight, rankEmpty, rankReading, rankFull, rankWriting, hp]
    split_ifs <;> simp_all
  · obtain rfl := Option.some.inj h
    split_ifs with hsignal
    · exact .of_load .out (pcs_update _ _ _) rfl (by rw [hp]; decide)
    · refine .closer _ rfl rfl (by rw [hp]; rfl) ?_
      simp only [rank, rankStraight, rankEmpty, rankReading, rankFull, rankWriting, hp]
      split_ifs <;> omega

theorem go_turn (h : go N s t k = some s') : Turn s t s' := by
  cases hp : (s.task t).pc
  case readUpEmpty | readTest | readPrepare | readRecheck | readSleep | readFinish | readFinishSignal =>
    exact turn_readLoop (by simp [hp]) h
  case writeUpFull | writePrepare | writeRecheck | writeSleep | writeFinish =>
    exact turn_writeLoop (by simp [hp]) h
  all_goals simp only [go, hp] at h
  case out => cases h
  case openDown | readDown | writeDown =>
    refine turn_downInterruptible h (by rw [hp]; rfl) ?_ rfl rfl (by rw [hp]; decide)
    simp only [rank, rankStraight, rankEmpty, rankReading, rankFull, rankWriting, hp]
    split_ifs <;> omega
  case relDown | pollDown =>
    obtain rfl := down_some h
    refine .closer _ rfl rfl (by rw [hp]; rfl) ?_
    simp only [rank, rankStraight, rankEmpty, rankReading, rankFull, rankWriting, hp]
    split_ifs <;> omega
  case openBody =>
    obtain rfl := Option.some.inj h
    exact turn_openBody hp
  case readBody =>
    obtain rfl := Option.some.inj h
    exact turn_readBody hp
  case writeBody =>
    obtain rfl := Option.some.inj h
    exact turn_writeBody hp
  case relBody =>
    obtain rfl := Option.some.inj h
    exact .of_load .relUp (pcs_update _ _ _) rfl (by rw [hp]; decide)
  case pollBody =>
    obtain rfl := Option.some.inj h
    exact .of_load .pollUp (pcs_update _ _ _) rfl (by rw [hp]; decide)
  case readWake | writeWake =>
    obtain rfl := Option.some.inj h
    exact turn_wake rfl rfl (by rw [hp]; decide)
  case openUp | openUpFail | relUp | readUpFault | readUp | writeUpFault | writeUp | pollUp =>
    obtain rfl := Option.some.inj h
    refine .closer _ rfl rfl (by rw [hp]; rfl) ?_
    simp only [rank, rankStraight, rankEmpty, rankReading, rankFull, rankWriting, hp]
    split_ifs <;> omega

/-! ### The steps are bounded -/

/-- The tasks go on. -/
def turn (N : ℤ) (s : Sys) (a : Task × Kernel) : Option Sys := go N s a.1 a.2

/-- The tasks that are inside a call are among those of `G`. -/
def Active (s : Sys) (G : Finset Task) : Prop := ∀ t, (s.task t).pc ≠ .out → t ∈ G

/-- **The potential** of the tasks of `G`. -/
def calls (G : Finset Task) (s : Sys) : ℕ :=
  potential 9 (fun k => load k.pc) (rank s.dev) G s.task

theorem mem_of_go (hG : Active s G) (h : go N s t k = some s') : t ∈ G := by
  refine hG t fun hp => ?_
  simp only [go, hp] at h
  cases h

theorem active_go (hG : Active s G) (h : go N s t k = some s') : Active s' G := by
  obtain ⟨pc, hpcs, -⟩ := go_balanced h
  intro u hu
  have hpc : (s'.task u).pc = Function.update (pcs s.task) t pc u := congrFun hpcs u
  by_cases hut : u = t
  · exact hut ▸ mem_of_go hG h
  · rw [hpc, Function.update_of_ne hut] at hu
    exact hG u hu

/-- **A step lowers the potential.** -/
theorem calls_lt (hG : Active s G) (h : go N s t k = some s') : calls G s' < calls G s := by
  have ht := mem_of_go hG h
  cases go_turn h with
  | lighter pc hpcs hload =>
    have hpc : ∀ u, (s'.task u).pc = Function.update (pcs s.task) t pc u := fun u => congrFun hpcs u
    have hlower : load (s'.task t).pc < load (s.task t).pc := by
      rw [hpc, Function.update_self]
      exact hload
    refine potential_lt_of_load (rank_le s'.dev) ht hlower fun u _ => ?_
    by_cases hu : u = t
    · rw [hu]
      exact hlower.le
    · rw [hpc, Function.update_of_ne hu]
      exact le_rfl
  | closer m htask hdev hload hrank =>
    unfold calls
    rw [hdev, htask]
    refine potential_lt_of_rank ht (by rwa [Function.update_self]) (fun u _ => ?_) fun u _ => ?_
    · by_cases hu : u = t
      · rw [hu, Function.update_self, hload]
      · rw [Function.update_of_ne hu]
    · by_cases hu : u = t
      · rw [hu, Function.update_self]
        exact hrank.le
      · rw [Function.update_of_ne hu]

/-- **The steps are bounded**, from any state, by the number of the tasks that are inside a call. -/
theorem length_le {turns : List (Task × Kernel)} (hG : Active s G)
    (hrun : run (turn N) s turns = some s') :
    turns.length ≤ (9 * G.card + 1) * (2 * G.card) + 9 * G.card :=
  (length_le_of_decreasing (fun _ _ _ hG h => active_go hG h) (fun _ _ _ hG h => calls_lt hG h) hG
    hrun).trans (potential_le (fun k => load_le k.pc) (rank_le s.dev))

/-! ### At rest -/

/-- No task can go on. -/
def AtRest (N : ℤ) (s : Sys) : Prop := ∀ a, turn N s a = none

/-- **Nobody is on his way**: the semaphore is free, and each task has returned or sleeps. -/
structure Rested (s : Sys) : Prop where
  sem : s.sem = 1
  tasks : ∀ t, (s.task t).pc = .out ∨ readers.sleeps (s.task t) ∨ writers.sleeps (s.task t)

/-- **The invariant**: the tasks that are inside a call are finitely many, and at most one of them
holds the semaphore. -/
structure Counted (s : Sys) (n : ℕ) : Prop where
  inside : Census (fun pc => pc ≠ .out) (pcs s.task) n
  sem : ∃ m, Census (fun pc => holds pc = true) (pcs s.task) m ∧ s.sem + m = 1

theorem counted_start (mem : ℤ → UInt8) : Counted (start mem) 0 :=
  ⟨census_zero fun _ h => h rfl, 0, census_zero fun _ => by simp [pcs, start, holds], rfl⟩

theorem counted_step {n : ℕ} {a : Act} (h : Counted s n) (hstep : step N s a = some s') :
    ∃ n', Counted s' n' := by
  obtain ⟨pc, hpcs, hbalance⟩ := step_balanced hstep
  obtain ⟨n', hinside, -⟩ := h.inside.move (actor a) pc
  obtain ⟨m, hm, hsem⟩ := h.sem
  obtain ⟨m', hm', hcount⟩ := hm.move (actor a) pc
  refine ⟨n', hpcs ▸ hinside, m', hpcs ▸ hm', ?_⟩
  change m' + weight (s.task (actor a)).pc = m + weight pc at hcount
  omega

/-- Who holds the semaphore can go on, and who still has to wake others. -/
theorem go_ne_none (h : holds (s.task t).pc = true ∨ owes (s.task t).pc = true) (k : Kernel) :
    go N s t k ≠ none := by
  cases hp : (s.task t).pc <;> simp_all [holds, owes, go]

/-- With the semaphore free, nobody stops but a sleeper. -/
theorem sleeps_of_go (hsem : s.sem = 1) (h : go N s t k = none) : (s.task t).pc = .out ∨
    readers.sleeps (s.task t) ∨ writers.sleeps (s.task t) := by
  cases hp : (s.task t).pc
  case out => exact Or.inl rfl
  case readSleep =>
    simp only [go, hp] at h
    split_ifs at h with hsleep
    exact Or.inr (Or.inl ⟨hp, hsleep.1, by simpa using hsleep.2⟩)
  case writeSleep =>
    simp only [go, hp] at h
    split_ifs at h with hsleep
    exact Or.inr (Or.inr ⟨hp, hsleep.1, by simpa using hsleep.2⟩)
  all_goals simp [go, hp, Sys.downInterruptible, Sys.down, hsem] at h

theorem Counted.rested {n : ℕ} (h : Counted s n) (hrest : AtRest N s) : Rested s := by
  obtain ⟨m, hm, hsem⟩ := h.sem
  have hnone : ¬ 0 < m := by
    intro hpos
    obtain ⟨t, ht⟩ := hm.pos_iff.mp hpos
    exact go_ne_none (Or.inl ht) kernel64 (hrest (t, kernel64))
  have hfree : s.sem = 1 := by omega
  exact ⟨hfree, fun t => sleeps_of_go hfree (hrest (t, kernel64))⟩

/-- Some steps of the tasks are steps of the system. -/
theorem exists_counted {n : ℕ} (h : Counted s n) {turns : List (Task × Kernel)}
    (hrun : run (turn N) s turns = some s') : ∃ n', Counted s' n' := by
  have hrun := (always_of_step (I := fun s => ∃ n, Counted s n)
    (fun s a s' h hs => h.elim fun _ h => counted_step (a := .go a.1 a.2) h hs) ⟨n, h⟩ turns).last hrun
  exact hrun

/-- **The calls come to rest**, in every run: `n` tasks that are inside a call make no more steps
than the bound, in any order, before each has returned or sleeps and the semaphore is free; and this
is where they come to if they go on. -/
theorem calls_rest (N : ℤ) (mem : ℤ → UInt8) (acts : List Act) :
    Always (step N) (fun s => ∃ n, Census (fun pc => pc ≠ .out) (pcs s.task) n ∧
      (∀ turns s', run (turn N) s turns = some s' →
        turns.length ≤ (9 * n + 1) * (2 * n) + 9 * n ∧ (AtRest N s' → Rested s')) ∧
      ∃ s', Reaches (turn N) s s' ∧ AtRest N s' ∧ Rested s') (start mem) acts := by
  have hrun : Always (step N) (fun s => ∃ n, Counted s n) (start mem) acts :=
    always_of_step (fun _ _ _ h hs => h.elim fun _ h => counted_step h hs) ⟨0, counted_start mem⟩ acts
  refine hrun.mono fun s ⟨n, h⟩ => ⟨n, h.inside, fun turns s' hturns => ⟨?_, fun hrest => ?_⟩, ?_⟩
  · obtain ⟨G, hG, rfl⟩ := h.inside
    exact length_le (fun t ht => (hG t).mpr ht) hturns
  · obtain ⟨n', h'⟩ := exists_counted h hturns
    exact h'.rested hrest
  · obtain ⟨G, hG, -⟩ := h.inside
    have hactive : Active s G := fun t ht => (hG t).mpr ht
    obtain ⟨s', ⟨turns, hturns⟩, hrest⟩ :=
      exists_resting (fun _ _ _ hG h => active_go (N := N) hG h) (fun _ _ _ hG h => calls_lt hG h)
        hactive
    obtain ⟨n', h'⟩ := exists_counted h hturns
    exact ⟨s', ⟨turns, hturns⟩, hrest, h'.rested hrest⟩

/-! ### Who waits -/

/-- **Who sleeps is right to wait**: for bytes at an empty ring, for space at a full one; nobody
waits for the other. -/
structure Waits (s : Sys) : Prop where
  tasks : ∀ t, (s.task t).pc = .out ∨ s.dev.rp = s.dev.wp ∧ readers.sleeps (s.task t) ∨
    spacefree s.dev = 0 ∧ writers.sleeps (s.task t)
  oneSided : ¬ ((∃ t, readers.sleeps (s.task t)) ∧ ∃ t, writers.sleeps (s.task t))

theorem waits_of_watched (hN : 2 ≤ N) (h : Watched N s) (hrested : Rested s) (hrest : AtRest N s) :
    Waits s := by
  have hquiet : ∀ u, owes (s.task u).pc = false := fun u => by
    by_contra hu
    exact go_ne_none (Or.inr ((Bool.not_eq_false _).mp hu)) kernel64 (hrest (u, kernel64))
  have hempty : ∀ t, readers.sleeps (s.task t) → s.dev.rp = s.dev.wp := fun t ht => by
    rcases h.readers.watched t ht with hb | ⟨u, hu⟩
    · exact hb
    · exact absurd hu (not_wakes (hquiet u)).2
  have hfull : ∀ t, writers.sleeps (s.task t) → spacefree s.dev = 0 := fun t ht => by
    rcases h.writers.watched t ht with hb | ⟨u, hu⟩
    · exact hb
    · exact absurd hu (not_wakes (hquiet u)).1
  refine ⟨fun t => (hrested.tasks t).imp_right fun ht => ht.imp (fun ht => ⟨hempty t ht, ht⟩)
    fun ht => ⟨hfull t ht, ht⟩, ?_⟩
  rintro ⟨⟨t, ht⟩, u, hu⟩
  -- a ring that is full and empty has one byte
  have hzero := hfull u hu
  have hsize := h.size
  rw [spacefree, if_pos (hempty t ht)] at hzero
  omega

/-- **No deadlock**: in the runs in which no `open` takes a wake-up away, the calls are at rest only
where all that have not returned wait for bytes, or all for space. -/
theorem rest_waits (hN : 2 ≤ N) (mem : ℤ → UInt8) {acts : List Act}
    (h : Meets (step N) (OpenOk N) (start mem) acts) :
    Always (step N) (fun s => AtRest N s → Waits s) (start mem) acts := by
  have hcounted : Always (step N) (fun s => ∃ n, Counted s n) (start mem) acts :=
    always_of_step (fun _ _ _ h hs => h.elim fun _ h => counted_step h hs) ⟨0, counted_start mem⟩ acts
  have hwatched : Always (step N) (Watched N) (start mem) acts :=
    always_of_meets (fun _ _ _ hs hok hstep => watched_step hs hok hstep) (watched_start mem) h
  intro pre hpre s hs hrest
  obtain ⟨n, hn⟩ := hcounted pre hpre s hs
  exact waits_of_watched hN (hwatched pre hpre s hs) (hn.rested hrest) hrest

/-- The task 0 fills a ring of two bytes, and sleeps in its second write. -/
theorem rest_waits_full : Always (step 2) (fun s => AtRest 2 s → Waits s) (start fun _ => 0)
    (opens 0 0 ++ writesByte 0 4 ++ writesByte 0 5) :=
  rest_waits (by decide) _
    ((by decide +kernel : Meets (step 2) NobodySleeps (start fun _ => 0)
      (opens 0 0 ++ writesByte 0 4 ++ writesByte 0 5)).mono openOk_of_nobodySleeps)

end LinuxHomework.Pipe.Progress
