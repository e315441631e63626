import LinuxHomework.Lib.Runs
import LinuxHomework.Lib.Counting
import LinuxHomework.Event.Nodes

/-! # Waits and signals step by step

Any number of tasks are inside `sys_myevent_wait` and `sys_myevent_signal` on one open event, and
every access to the shared event is a step of its own: `Pc` names the places between two of them.
The reads made only to print a value have no effect and are left out.

A task in `TASK_INTERRUPTIBLE` (`interruptible`) that calls `schedule()` sleeps until somebody sets
it running again: `wake_up`, or a pending Unix signal (`Act.unixSignal`). `wake_up` goes through the
queue and stops at the first exclusive waiter it could wake, which `autoremove_wake_function` takes
off the queue.

* `no_over_grant`: the value stays non-negative and no more waits return than there were units, in
  the runs in which every decrement finds the units its test has seen, no increment overflows, and
  no sleep is ended by a Unix signal (`GrantOk`).
* `no_lost_wakeup`: no task sleeps on a positive value, in the runs in which no increment is made
  while a task is on its way to sleep (`WakeOk`). -/

namespace LinuxHomework.Event.Interleave

open LinuxHomework.Lib.Runs LinuxHomework.Lib.Counting LinuxHomework.Lib.CInt
open LinuxHomework.Event.Nodes (Task)

/-! ### The system -/

/-- Where a task is in the two calls: before the step named. -/
inductive Pc
  | out
  | waitTest
  | waitDec
  | waitSetState
  | waitEnqueue
  | waitSchedule
  | waitAsleep
  | waitFinish
  | sigTest
  | sigInc
  | sigWake
deriving DecidableEq

/-- The place of a task, and whether its state is `TASK_INTERRUPTIBLE`. -/
structure TaskState where
  pc : Pc
  interruptible : Bool
deriving DecidableEq

/-- The event, the tasks, and how many waits have returned and signals have been made. -/
structure Sys where
  value : ℤ
  queue : List Task
  task : Task → TaskState
  returned : ℕ
  signals : ℕ

inductive Act
  | callWait (t : Task)
  | callSignal (t : Task)
  | go (t : Task)
  | unixSignal (t : Task)

/-- The event is open with the value `v`, and nobody is in a call. -/
def start (v : ℤ) : Sys := ⟨v, [], fun _ => ⟨.out, false⟩, 0, 0⟩

/-- The state of a task after a step. -/
def Sys.set (s : Sys) (t : Task) (k : TaskState) : Sys :=
  { s with task := Function.update s.task t k }

/-- `wake_up(&tmp->p)`. -/
def Sys.wakeUp (s : Sys) : Sys :=
  match s.queue.find? fun w => (s.task w).interruptible with
  | none => s
  | some w => { s.set w ⟨(s.task w).pc, false⟩ with queue := s.queue.erase w }

/-- The next step of a task that is inside a call. -/
def go (s : Sys) (t : Task) : Option Sys :=
  let set pc := s.set t ⟨pc, (s.task t).interruptible⟩
  match (s.task t).pc with
  | .out => none
  | .waitTest => some (set (if s.value > 0 then .waitDec else .waitSetState))
  | .waitDec =>
    some { set .out with value := wrap32 (s.value - 1), returned := s.returned + 1 }
  | .waitSetState => some (s.set t ⟨.waitEnqueue, true⟩)
  | .waitEnqueue => some { set .waitSchedule with queue := s.queue ++ [t] }
  | .waitSchedule =>
    some (set (if (s.task t).interruptible then .waitAsleep else .waitFinish))
  | .waitAsleep => if (s.task t).interruptible then none else some (set .waitFinish)
  | .waitFinish =>
    some { s.set t ⟨.out, false⟩ with queue := s.queue.erase t, returned := s.returned + 1 }
  | .sigTest => some (set (if s.queue = [] then .sigInc else .sigWake))
  | .sigInc => some { set .out with value := wrap32 (s.value + 1) }
  | .sigWake => some (s.wakeUp.set t ⟨.out, (s.task t).interruptible⟩)

def step (s : Sys) : Act → Option Sys
  | .callWait t =>
    if (s.task t).pc = .out then some (s.set t ⟨.waitTest, (s.task t).interruptible⟩) else none
  | .callSignal t =>
    if (s.task t).pc = .out then
      some { s.set t ⟨.sigTest, (s.task t).interruptible⟩ with signals := s.signals + 1 }
    else none
  | .go t => go s t
  | .unixSignal t =>
    if (s.task t).interruptible then some (s.set t ⟨(s.task t).pc, false⟩) else none

/-! ### No wait returns without a unit -/

/-- A task that has a unit to come: a signal under way, or a waiter that was woken and has not
returned yet. -/
def Owes (k : TaskState) : Prop :=
  k.pc = .sigTest ∨ k.pc = .sigInc ∨ k.pc = .sigWake ∨
    (k.pc = .waitSchedule ∨ k.pc = .waitAsleep ∨ k.pc = .waitFinish) ∧ k.interruptible = false

instance : DecidablePred Owes := fun k => by unfold Owes; infer_instance

/-- The place of a task agrees with its state. -/
structure Placed (k : TaskState) : Prop where
  sleep : k.interruptible = true → k.pc = .waitEnqueue ∨ k.pc = .waitSchedule ∨ k.pc = .waitAsleep
  enqueue : k.pc = .waitEnqueue → k.interruptible = true

/-- The places of the tasks on the queue. -/
def Queued (k : TaskState) : Prop := k.pc = .waitSchedule ∨ k.pc = .waitAsleep ∨ k.pc = .waitFinish

/-- **The invariant**, `d` units being set aside: the value, the waits that have returned and the
units to come are covered by the initial value and the signals made. -/
structure Grant (v d : ℤ) (s : Sys) : Prop where
  nonneg : 0 ≤ s.value
  lt : s.value < 2 ^ 31
  tally : ∃ n, Census Owes s.task n ∧ s.value + s.returned + n + d ≤ v + s.signals
  queued : ∀ t ∈ s.queue, Queued (s.task t)
  nodup : s.queue.Nodup
  placed : ∀ t, Placed (s.task t)

/-- A task that is not on its way to sleep is running. -/
theorem Placed.awake {k : TaskState} (h : Placed k)
    (hpc : k.pc ≠ .waitEnqueue ∧ k.pc ≠ .waitSchedule ∧ k.pc ≠ .waitAsleep) :
    k.interruptible = false := by
  obtain ⟨h₁, h₂, h₃⟩ := hpc
  by_contra hno
  rcases h.sleep (by simpa using hno) with heq | heq | heq
  · exact h₁ heq
  · exact h₂ heq
  · exact h₃ heq

theorem placed_awake {pc : Pc} (hpc : pc ≠ .waitEnqueue) : Placed ⟨pc, false⟩ :=
  ⟨fun h => absurd h Bool.false_ne_true, fun h => absurd h hpc⟩

theorem Grant.off_queue {v d : ℤ} {s : Sys} (h : Grant v d s) {t : Task}
    (hq : ¬ Queued (s.task t)) : t ∉ s.queue := fun hu => hq (h.queued t hu)

theorem grant_start {v : ℤ} (hv : 0 ≤ v) (hlt : v < 2 ^ 31) : Grant v 0 (start v) :=
  ⟨hv, hlt, ⟨0, census_zero fun t => by simp [start, Owes], by simp [start]⟩,
    fun t ht => by simp [start] at ht, List.nodup_nil, fun t => ⟨by simp [start], by simp [start]⟩⟩

/-- **One task moves** and the shared fields change with it. -/
theorem Grant.move {v d d' : ℤ} {s s' : Sys} (h : Grant v d s) {t : Task} {k : TaskState}
    (htask : s'.task = Function.update s.task t k) (hv : 0 ≤ s'.value) (hlt : s'.value < 2 ^ 31)
    (hnd : s'.queue.Nodup) (hqueue : ∀ u ∈ s'.queue, u ∈ s.queue ∨ u = t)
    (hk : t ∈ s'.queue → Queued k) (hplaced : Placed k)
    (htally : s'.value + s'.returned + (if Owes k then 1 else 0) + d' + s.signals ≤
      s.value + s.returned + (if Owes (s.task t) then 1 else 0) + d + s'.signals) :
    Grant v d' s' := by
  obtain ⟨-, -, ⟨n, hn, hsum⟩, hq, -, hp⟩ := h
  obtain ⟨m, hm, hmn⟩ := hn.move t k
  refine ⟨hv, hlt, ⟨m, htask ▸ hm, ?_⟩, fun u hu => ?_, hnd, fun u => ?_⟩
  · have : (m : ℤ) + (if Owes (s.task t) then 1 else 0) = n + if Owes k then 1 else 0 := by
      exact_mod_cast hmn
    omega
  · rw [htask]
    by_cases hut : u = t
    · rw [hut, Function.update_self]
      exact hk (hut ▸ hu)
    · rw [Function.update_of_ne hut]
      exact hq u ((hqueue u hu).resolve_right hut)
  · rw [htask]
    by_cases hut : u = t
    · rw [hut, Function.update_self]
      exact hplaced
    · rw [Function.update_of_ne hut]
      exact hp u

/-- A wake-up gives one unit away. -/
theorem Grant.wakeUp {v d : ℤ} {s : Sys} (h : Grant v d s) : Grant v (d - 1) s.wakeUp := by
  unfold Sys.wakeUp
  split
  · obtain ⟨hv, hlt, ⟨n, hn, hsum⟩, hq, hnd, hp⟩ := h
    exact ⟨hv, hlt, ⟨n, hn, by omega⟩, hq, hnd, hp⟩
  · next w hw =>
    have hi : (s.task w).interruptible = true := by simpa using List.find?_some hw
    have hwq := h.queued w (List.mem_of_find?_eq_some hw)
    refine h.move rfl h.nonneg h.lt (h.nodup.erase w)
      (fun u hu => Or.inl (List.mem_of_mem_erase hu)) (fun _ => hwq)
      ⟨fun h' => absurd h' (by simp), fun h' => ?_⟩ ?_
    · rcases hwq with hw | hw | hw <;> simp [hw] at h'
    · have hno : ¬ Owes (s.task w) := by
        rcases hwq with hw | hw | hw <;> simp [Owes, hi, hw]
      have hyes : Owes ⟨(s.task w).pc, false⟩ := Or.inr (Or.inr (Or.inr ⟨hwq, rfl⟩))
      simp only [Sys.set, hno, hyes, if_true, if_false]
      omega

/-- A wake-up moves only tasks on the queue. -/
theorem wakeUp_task {s : Sys} {t : Task} (ht : t ∉ s.queue) : s.wakeUp.task t = s.task t := by
  unfold Sys.wakeUp
  split
  · rfl
  · next w hw =>
    have htw : t ≠ w := fun h => ht (h ▸ List.mem_of_find?_eq_some hw)
    simp [Sys.set, htw]

/-- What a step must not do: decrement a value that is no longer positive, increment the greatest
`int`, or end a sleep by a Unix signal. -/
def GrantOk (s : Sys) : Act → Prop
  | .go t => ((s.task t).pc = .waitDec → 0 < s.value) ∧
      ((s.task t).pc = .sigInc → s.value < 2 ^ 31 - 1)
  | .unixSignal _ => False
  | _ => True

instance : ∀ s act, Decidable (GrantOk s act)
  | _, .callWait _ => isTrue trivial
  | _, .callSignal _ => isTrue trivial
  | _, .go _ => instDecidableAnd
  | _, .unixSignal _ => isFalse id

/-- A step that leaves the value and the queue alone, and moves a task that is not on the queue. -/
theorem Grant.local {v : ℤ} {s : Sys} (h : Grant v 0 s) {t : Task} {k : TaskState}
    (hq : Queued (s.task t) → Queued k) (hk : Placed k) (ho : Owes k → Owes (s.task t)) :
    Grant v 0 (s.set t k) := by
  refine h.move rfl h.nonneg h.lt h.nodup (fun u hu => Or.inl hu)
    (fun hu => hq (h.queued t hu)) hk ?_
  have : (if Owes k then (1 : ℤ) else 0) ≤ if Owes (s.task t) then 1 else 0 := by
    by_cases hok : Owes k
    · simp [hok, ho hok]
    · split_ifs <;> simp
  simp only [Sys.set]
  omega

/-- The value changes by what the task takes or brings, and nothing is done to the queue. -/
theorem Grant.value {v : ℤ} {s : Sys} (h : Grant v 0 s) {t : Task} {k : TaskState} {w : ℤ} {r : ℕ}
    (hq : ¬ Queued (s.task t)) (hk : Placed k) (hw : 0 ≤ w ∧ w < 2 ^ 31)
    (htally : w + r + (if Owes k then 1 else 0) ≤
      s.value + s.returned + if Owes (s.task t) then 1 else 0) :
    Grant v 0 { s.set t k with value := w, returned := r } :=
  h.move rfl hw.1 hw.2 h.nodup (fun _ hu => Or.inl hu) (fun hu => absurd hu (h.off_queue hq)) hk
    (by simp only [Sys.set]; omega)

theorem grant_go {v : ℤ} {s s' : Sys} {t : Task} (h : Grant v 0 s) (hok : GrantOk s (.go t))
    (hstep : go s t = some s') : Grant v 0 s' := by
  obtain ⟨hdec, hinc⟩ := hok
  have hlt := h.lt
  have hnn := h.nonneg
  cases hpc : (s.task t).pc with
  | out => simp [go, hpc] at hstep
  | waitTest =>
    have hi := (h.placed t).awake (by simp [hpc])
    simp only [go, hpc, hi, Option.some.injEq] at hstep
    subst hstep
    refine h.local (by simp [Queued, hpc]) (placed_awake (by split_ifs <;> simp)) ?_
    split_ifs <;> simp [Owes]
  | waitDec =>
    have hi := (h.placed t).awake (by simp [hpc])
    have hpos := hdec hpc
    have hval : wrap32 (s.value - 1) = s.value - 1 := wrap32_of_lt (by omega) (by omega)
    simp only [go, hpc, hi, hval, Option.some.injEq] at hstep
    subst hstep
    refine h.value (by simp [Queued, hpc]) (placed_awake (by simp)) ⟨by omega, by omega⟩ ?_
    simp [Owes, hpc]
  | waitSetState =>
    simp only [go, hpc, Option.some.injEq] at hstep
    subst hstep
    exact h.local (by simp [Queued, hpc]) ⟨by simp, by simp⟩ (by simp [Owes])
  | waitEnqueue =>
    have hi := (h.placed t).enqueue hpc
    simp only [go, hpc, hi, Option.some.injEq] at hstep
    subst hstep
    have htq := h.off_queue (show ¬ Queued (s.task t) by simp [Queued, hpc])
    refine h.move rfl hnn hlt ?_ (fun u hu => by simpa using hu) (fun _ => Or.inl rfl)
      ⟨by simp, by simp⟩ ?_
    · exact List.nodup_append.mpr ⟨h.nodup, by simp, fun u hu w hw huw => by
        rw [List.mem_singleton.mp hw] at huw
        exact htq (huw ▸ hu)⟩
    · simp [Owes, hpc, Sys.set]
  | waitSchedule =>
    cases hi : (s.task t).interruptible with
    | true =>
      simp only [go, hpc, hi, if_true, Option.some.injEq] at hstep
      subst hstep
      exact h.local (by simp [Queued]) ⟨by simp, by simp⟩ (by simp [Owes])
    | false =>
      simp only [go, hpc, hi, Bool.false_eq_true, if_false, Option.some.injEq] at hstep
      subst hstep
      exact h.local (by simp [Queued]) (placed_awake (by simp)) (by simp [Owes, hpc, hi])
  | waitAsleep =>
    cases hi : (s.task t).interruptible with
    | true => simp [go, hpc, hi] at hstep
    | false =>
      simp only [go, hpc, hi, Bool.false_eq_true, if_false, Option.some.injEq] at hstep
      subst hstep
      exact h.local (by simp [Queued]) (placed_awake (by simp)) (by simp [Owes, hpc, hi])
  | waitFinish =>
    have hi := (h.placed t).awake (by simp [hpc])
    simp only [go, hpc, Option.some.injEq] at hstep
    subst hstep
    refine h.move rfl hnn hlt (h.nodup.erase t) (fun u hu => Or.inl (List.mem_of_mem_erase hu))
      (fun hu => absurd hu (List.Nodup.not_mem_erase h.nodup)) (placed_awake (by simp)) ?_
    simp [Owes, hpc, hi, Sys.set]
    omega
  | sigTest =>
    have hi := (h.placed t).awake (by simp [hpc])
    simp only [go, hpc, hi, Option.some.injEq] at hstep
    subst hstep
    exact h.local (by simp [Queued, hpc]) (placed_awake (by split_ifs <;> simp))
      (by simp [Owes, hpc])
  | sigInc =>
    have hi := (h.placed t).awake (by simp [hpc])
    have hmax := hinc hpc
    have hval : wrap32 (s.value + 1) = s.value + 1 := wrap32_of_lt (by omega) (by omega)
    simp only [go, hpc, hi, hval, Option.some.injEq] at hstep
    subst hstep
    refine h.value (by simp [Queued, hpc]) (placed_awake (by simp)) ⟨by omega, by omega⟩ ?_
    simp [Owes, hpc, Sys.set]
    omega
  | sigWake =>
    have hi := (h.placed t).awake (by simp [hpc])
    simp only [go, hpc, hi, Option.some.injEq] at hstep
    subst hstep
    have hq : ¬ Queued (s.task t) := by simp [Queued, hpc]
    -- the unit the signal owed goes to the waiter that was woken
    have htask := wakeUp_task (h.off_queue hq)
    have hw := h.wakeUp
    refine hw.move rfl hw.nonneg hw.lt hw.nodup (fun u hu => Or.inl hu)
      (fun hu => absurd hu (hw.off_queue (htask ▸ hq))) (placed_awake (by simp)) ?_
    simp [Owes, hpc, htask, Sys.set]

theorem grant_step {v : ℤ} {s s' : Sys} {act : Act} (h : Grant v 0 s) (hok : GrantOk s act)
    (hstep : step s act = some s') : Grant v 0 s' := by
  cases act with
  | go t => exact grant_go h hok hstep
  | unixSignal t => exact absurd hok id
  | callWait t =>
    by_cases hpc : (s.task t).pc = .out
    · have hi := (h.placed t).awake (by simp [hpc])
      simp only [step, hpc, hi, if_true, Option.some.injEq] at hstep
      subst hstep
      exact h.local (by simp [Queued, hpc]) (placed_awake (by simp)) (by simp [Owes])
    · simp [step, hpc] at hstep
  | callSignal t =>
    by_cases hpc : (s.task t).pc = .out
    · have hi := (h.placed t).awake (by simp [hpc])
      simp only [step, hpc, hi, if_true, Option.some.injEq] at hstep
      subst hstep
      have hq : ¬ Queued (s.task t) := by simp [Queued, hpc]
      refine h.move rfl h.nonneg h.lt h.nodup (fun u hu => Or.inl hu)
        (fun hu => absurd hu (h.off_queue hq)) (placed_awake (by simp)) ?_
      simp [Owes, hpc, Sys.set]
      omega
    · simp [step, hpc] at hstep

/-- No over-grant: the value is not negative, and no more waits have returned than there were
units. -/
def NoOverGrant (v : ℤ) (s : Sys) : Prop := 0 ≤ s.value ∧ s.returned ≤ v + s.signals

/-- A task that found no unit and has not been woken since. -/
def Waits (k : TaskState) : Prop := k.pc = .waitSetState ∨ k.interruptible = true

/-- What a step must not do: make the value positive while a task waits, or decrement the least
`int`. -/
def WakeOk (s : Sys) : Act → Prop
  | .go t => ((s.task t).pc = .sigInc → 0 ≤ s.value → ∀ u, ¬ Waits (s.task u)) ∧
      ((s.task t).pc = .waitDec → -2 ^ 31 < s.value)
  | _ => True

/-- **The invariant**: while a task waits there is no unit. -/
structure Wake (s : Sys) : Prop where
  least : -2 ^ 31 ≤ s.value
  idle : ∀ u, Waits (s.task u) → s.value ≤ 0

theorem wake_start {v : ℤ} (hv : 0 ≤ v) : Wake (start v) :=
  ⟨show -2 ^ 31 ≤ v by omega, fun u hu => by simp [start, Waits] at hu⟩

/-- One task moves while the value stays: it waits only if it did before, or if there is no
unit. -/
theorem Wake.move {s s' : Sys} (h : Wake s) {t : Task} {k : TaskState}
    (htask : s'.task = Function.update s.task t k) (hv : s'.value = s.value)
    (hk : Waits k → Waits (s.task t) ∨ s.value ≤ 0) : Wake s' := by
  refine ⟨hv ▸ h.least, fun u hu => ?_⟩
  rw [htask] at hu
  rw [hv]
  by_cases hut : u = t
  · rw [hut, Function.update_self] at hu
    exact (hk hu).elim (h.idle t) id
  · rw [Function.update_of_ne hut] at hu
    exact h.idle u hu

theorem Wake.wakeUp {s : Sys} (h : Wake s) : Wake s.wakeUp := by
  unfold Sys.wakeUp
  split
  · exact h
  · exact h.move rfl rfl fun hk => Or.inl (Or.inl (hk.resolve_right (by simp)))

@[simp] theorem wakeUp_value (s : Sys) : s.wakeUp.value = s.value := by
  unfold Sys.wakeUp
  split <;> rfl

/-- Nobody waits after a task has moved who did not wait before. -/
theorem waits_update {f : Task → TaskState} {t u : Task} {k : TaskState}
    (hk : Waits k → Waits (f t)) (hu : Waits (Function.update f t k u)) : Waits (f u) := by
  by_cases hut : u = t
  · rw [hut, Function.update_self] at hu
    exact hut ▸ hk hu
  · rwa [Function.update_of_ne hut] at hu

theorem wake_go {s s' : Sys} {t : Task} (h : Wake s) (hok : WakeOk s (.go t))
    (hstep : go s t = some s') : Wake s' := by
  obtain ⟨hinc, hdec⟩ := hok
  -- a step to a place other than `waitSetState` that leaves the task's state
  have hplain : ∀ pc : Pc, pc ≠ .waitSetState → Waits ⟨pc, (s.task t).interruptible⟩ →
      Waits (s.task t) ∨ s.value ≤ 0 := fun pc hpc hk => Or.inl (Or.inr (hk.resolve_left hpc))
  have hout : Waits ⟨.out, (s.task t).interruptible⟩ → Waits (s.task t) :=
    fun hk => Or.inr (hk.resolve_left (by simp))
  cases hpc : (s.task t).pc with
  | out => simp [go, hpc] at hstep
  | waitTest =>
    simp only [go, hpc, Option.some.injEq] at hstep
    subst hstep
    refine h.move rfl rfl fun hk => ?_
    by_cases hv : s.value > 0
    · rw [if_pos hv] at hk
      exact hplain _ (by simp) hk
    · exact Or.inr (by omega)
  | waitDec =>
    have hlow := hdec hpc
    simp only [go, hpc, Option.some.injEq] at hstep
    subst hstep
    refine ⟨least_wrap32 _, fun u hu => ?_⟩
    have hv := h.idle u (waits_update hout hu)
    have hval : wrap32 (s.value - 1) = s.value - 1 := wrap32_of_lt (by omega) (by omega)
    show wrap32 (s.value - 1) ≤ 0
    omega
  | waitSetState =>
    simp only [go, hpc, Option.some.injEq] at hstep
    subst hstep
    exact h.move rfl rfl fun _ => Or.inl (Or.inl hpc)
  | waitEnqueue =>
    simp only [go, hpc, Option.some.injEq] at hstep
    subst hstep
    exact h.move rfl rfl (hplain _ (by simp))
  | waitSchedule =>
    simp only [go, hpc, Option.some.injEq] at hstep
    subst hstep
    exact h.move rfl rfl (hplain _ (by split_ifs <;> simp))
  | waitAsleep =>
    by_cases hi : (s.task t).interruptible = true
    · simp [go, hpc, hi] at hstep
    · simp only [go, hpc, if_neg hi, Option.some.injEq] at hstep
      subst hstep
      exact h.move rfl rfl (hplain .waitFinish (by simp))
  | waitFinish =>
    simp only [go, hpc, Option.some.injEq] at hstep
    subst hstep
    exact h.move rfl rfl fun hk => absurd hk (by simp [Waits])
  | sigTest =>
    simp only [go, hpc, Option.some.injEq] at hstep
    subst hstep
    exact h.move rfl rfl (hplain _ (by split_ifs <;> simp))
  | sigInc =>
    simp only [go, hpc, Option.some.injEq] at hstep
    subst hstep
    refine ⟨least_wrap32 _, fun u hu => ?_⟩
    -- the value is negative: nobody may wait at an increment from zero on
    have hneg : s.value < 0 := by
      by_contra hv
      exact hinc hpc (by omega) u (waits_update hout hu)
    have hval : wrap32 (s.value + 1) = s.value + 1 :=
      wrap32_of_lt (by have := h.least; omega) (by omega)
    show wrap32 (s.value + 1) ≤ 0
    omega
  | sigWake =>
    simp only [go, hpc, Option.some.injEq] at hstep
    subst hstep
    refine h.wakeUp.move rfl rfl fun hk => Or.inr ?_
    rw [wakeUp_value]
    exact h.idle t (Or.inr (hk.resolve_left (by simp)))

theorem wake_step {s s' : Sys} {act : Act} (h : Wake s) (hok : WakeOk s act)
    (hstep : step s act = some s') : Wake s' := by
  cases act with
  | go t => exact wake_go h hok hstep
  | callWait t =>
    by_cases hpc : (s.task t).pc = .out
    · simp only [step, hpc, if_true, Option.some.injEq] at hstep
      subst hstep
      exact h.move rfl rfl fun hk => Or.inl (Or.inr (hk.resolve_left (by simp)))
    · simp [step, hpc] at hstep
  | callSignal t =>
    by_cases hpc : (s.task t).pc = .out
    · simp only [step, hpc, if_true, Option.some.injEq] at hstep
      subst hstep
      exact h.move rfl rfl fun hk => Or.inl (Or.inr (hk.resolve_left (by simp)))
    · simp [step, hpc] at hstep
  | unixSignal t =>
    by_cases hi : (s.task t).interruptible = true
    · simp only [step, hi, if_true, Option.some.injEq] at hstep
      subst hstep
      exact h.move rfl rfl fun hk => Or.inl (Or.inl (hk.resolve_right (by simp)))
    · simp [step, hi] at hstep

/-- A task is asleep on the queue. -/
def Asleep (s : Sys) (t : Task) : Prop :=
  t ∈ s.queue ∧ (s.task t).pc = .waitAsleep ∧ (s.task t).interruptible = true

/-- A task is inside `sys_myevent_signal`. -/
def Signals (s : Sys) (t : Task) : Prop :=
  (s.task t).pc = .sigTest ∨ (s.task t).pc = .sigInc ∨ (s.task t).pc = .sigWake

/-- No lost wake-up: while the value is positive and no signal is in progress, nobody is asleep. -/
def NoLostWakeup (s : Sys) : Prop := 0 < s.value → (∀ u, ¬ Signals s u) → ∀ t, ¬ Asleep s t

/-- **No lost wake-up** in the runs all of whose steps are `WakeOk`. -/
theorem no_lost_wakeup {v : ℤ} (hv : 0 ≤ v) {acts : List Act} (h : Meets step WakeOk (start v) acts) :
    Always step NoLostWakeup (start v) acts := by
  refine (always_of_meets (fun s act s' => wake_step) (wake_start hv) h).mono fun s hs => ?_
  rintro hpos - t ⟨-, -, hi⟩
  have := hs.idle t (Or.inr hi)
  omega

/-- The step increments nothing, and does not decrement the least `int`. -/
def NoInc (s : Sys) : Act → Prop
  | .go t => (s.task t).pc ≠ .sigInc ∧ ((s.task t).pc = .waitDec → -2 ^ 31 < s.value)
  | _ => True

instance : ∀ s act, Decidable (NoInc s act)
  | _, .callWait _ => isTrue trivial
  | _, .callSignal _ => isTrue trivial
  | _, .go _ => instDecidableAnd
  | _, .unixSignal _ => isTrue trivial

theorem wakeOk_of_noInc (s : Sys) (act : Act) (h : NoInc s act) : WakeOk s act := by
  cases act with
  | go t => exact ⟨fun hinc => absurd hinc h.1, h.2⟩
  | callWait t => trivial
  | callSignal t => trivial
  | unixSignal t => trivial

/-- A signal finds nobody and counts. Its unit is taken, and the second task sleeps until another
signal wakes it. -/
theorem no_lost_wakeup_handover : Always step NoLostWakeup (start 0)
    [.callSignal 2, .go 2, .go 2, .callWait 0, .go 0, .go 0, .callWait 1, .go 1, .go 1, .go 1, .go 1,
      .callSignal 2, .go 2, .go 2, .go 1, .go 1] := by
  refine no_lost_wakeup (by decide) (meets_cons.mpr fun s hs => ⟨trivial, ?_⟩)
  obtain rfl := Option.some.inj hs
  refine meets_cons.mpr fun s hs => ⟨⟨fun hinc => absurd hinc (by decide), nofun⟩, ?_⟩
  obtain rfl := Option.some.inj hs
  refine meets_cons.mpr fun s hs => ⟨⟨fun _ _ u hu => ?_, nofun⟩, ?_⟩
  · by_cases h2 : u = 2 <;> simp [h2, Sys.set, start, Waits] at hu
  · obtain rfl := Option.some.inj hs
    exact Meets.mono (C := NoInc) wakeOk_of_noInc (by decide)

/-- A signal finds the queue empty and counts, while the task that found no unit has not put itself
on the queue yet: it goes to sleep on a positive value. -/
theorem lost_wakeup : ¬ Always step NoLostWakeup (start 0)
    [.callWait 0, .go 0, .callSignal 1, .go 1, .go 1, .go 0, .go 0, .go 0] := by
  intro h
  have hone : 0 < wrap32 1 := by decide
  have hlast := fun s => h _ (List.prefix_refl _) s
  simp [step, go, start, Sys.set, NoLostWakeup, Asleep, Signals, Function.update_apply] at hlast
  -- what is left is to see that no task is inside a signal
  obtain ⟨u, hu⟩ := hlast hone
  by_cases h0 : u = 0
  · simp [h0] at hu
  · by_cases h1 : u = 1 <;> simp [h0, h1] at hu

end LinuxHomework.Event.Interleave
