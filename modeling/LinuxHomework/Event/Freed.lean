import LinuxHomework.Event.Contents

/-! # Nobody uses a freed event

Tasks call `sys_myevent_open`, `sys_myevent_wait`, `sys_myevent_signal` and `sys_myevent_close`,
each call running without interruption up to `schedule()`. A call of `sys_myevent_wait` that gave up
the processor is kept in `suspended` with the pointer it will use when it goes on: `printk` reads
the value of that node, after `finish_wait`. The pointer is `stale` once the node has been freed,
also if the memory has been handed out again since.

* `no_use_after_free`: no step touches a freed node in the runs in which no close hits the last
  event or an event that some call of `sys_myevent_wait` still has to go on with.
* `use_after_free`: a close wakes a waiter, and the waiter reads the freed node. -/

namespace LinuxHomework.Event.Freed

open LinuxHomework.Lib.Chain LinuxHomework.Lib.Runs LinuxHomework.Event.Nodes
open LinuxHomework.Event.EventList LinuxHomework.Event.Contents

/-! ### The system -/

/-- A call of `sys_myevent_wait` that is in `schedule()`, or woken and about to go on. -/
structure Suspended where
  task : Task
  node : Addr
  eventNum : ℤ
  woken : Bool
  stale : Bool
deriving DecidableEq

structure Sys where
  ev : Events
  suspended : List Suspended

def start : Sys := ⟨Events.init, []⟩

/-- A task calls, or goes on after it was woken. -/
inductive Act
  | sysOpen (t : Task) (eventNum value : ℤ) (kmalloc : Option (Addr × Myevent))
  | wait (t : Task) (eventNum : ℤ)
  | signal (t : Task) (eventNum : ℤ)
  | close (t : Task) (eventNum : ℤ)
  | back (t : Task)

namespace Sys

variable (s : Sys)

/-- The task is not inside a call. -/
def Running (t : Task) : Prop := ∀ w ∈ s.suspended, w.task ≠ t

instance (t : Task) : Decidable (s.Running t) := List.decidableBAll _ _

/-- The calls after a wake-up of the tasks `woken`. -/
def wake (woken : List Task) : List Suspended :=
  s.suspended.map fun w => if w.task ∈ woken then { w with woken := true } else w

end Sys

/-- The node that `sys_myevent_close(n)` frees. -/
def freedBy (s : Sys) (n : ℤ) : Option Addr :=
  match scheventNum s.ev n with
  | .ok (found, _) => found
  | .error _ => none

/-- The pointers to the node at `r` are of no use any more. -/
def spoil (r : Option Addr) (ws : List Suspended) : List Suspended :=
  ws.map fun w => if some w.node = r then { w with stale := true } else w

/-- One step. Nothing follows a step that went wrong. -/
def step : Except Fault Sys → Act → Option (Except Fault Sys)
  | .error _, _ => none
  | .ok s, .sysOpen t n v k =>
    if s.Running t ∧ (Call.sysOpen n v k).Possible s.ev then
      some ((sysMyeventOpen s.ev n v k).map fun r => { s with ev := r.2 })
    else none
  | .ok s, .wait t n =>
    if s.Running t then
      some ((sysMyeventWait s.ev t n).map fun r =>
        match r.1 with
        | .inl _ => { s with ev := r.2 }
        | .inr a => ⟨r.2, ⟨t, a, n, false, false⟩ :: s.suspended⟩)
    else none
  | .ok s, .signal t n =>
    if s.Running t then
      some ((sysMyeventSignal s.ev n).map fun r => ⟨r.2.2, s.wake r.2.1⟩)
    else none
  | .ok s, .close t n =>
    if s.Running t then
      some ((sysMyeventClose s.ev n).map fun r => ⟨r.2.2, spoil (freedBy s n) (s.wake r.2.1)⟩)
    else none
  | .ok s, .back t =>
    match s.suspended.find? fun w => w.task == t && w.woken with
    | none => none
    | some w =>
      if w.stale then some (.error .freed)
      else
        some ((sysMyeventWaitBack s.ev t w.node w.eventNum).map fun r =>
          ⟨r.2, s.suspended.erase w⟩)

/-- **No step has touched a freed node.** -/
def NoUse (x : Except Fault Sys) : Prop := x ≠ .error .freed

/-- What a step must not do: close the event that `lpmyevent_end` points to, or one that a suspended
call will go on with. -/
def CloseOk : Except Fault Sys → Act → Prop
  | .ok s, .close _ n => ∀ r ∈ freedBy s n, s.ev.lpmyeventEnd ≠ some r ∧
      ∀ w ∈ s.suspended, w.node ≠ r
  | _, _ => True

instance : (x : Except Fault Sys) → (a : Act) → Decidable (CloseOk x a)
  | .ok s, .close _ n =>
    inferInstanceAs (Decidable (∀ r ∈ freedBy s n, _ ∧ ∀ w ∈ s.suspended, w.node ≠ r))
  | .ok _, .sysOpen .. | .ok _, .wait .. | .ok _, .signal .. | .ok _, .back .. =>
    inferInstanceAs (Decidable True)
  | .error _, a => isTrue (by cases a <;> trivial)

/-! ### The invariant -/

/-- **The invariant**: the list is in order, and every suspended call has a node of it. -/
structure Inv (s : Sys) (l : List Addr) : Prop where
  wf : WfList s.ev l
  node : ∀ w ∈ s.suspended, w.node ∈ l ∧ w.stale = false

/-- The state after a step: in order, or left behind by a null pointer. -/
def Good (x : Except Fault Sys) : Prop := x = .error .null ∨ ∃ s l, x = .ok s ∧ Inv s l

variable {s : Sys} {l l' : List Addr} {ev : Events} {t : Task} {n : ℤ} {a : Act}
  {x x' : Except Fault Sys}

theorem good_ok (h : Inv s l) : Good (.ok s) := Or.inr ⟨s, l, rfl, h⟩

theorem good_noUse (h : Good x) : NoUse x := by
  rcases h with rfl | ⟨s, l, rfl, -⟩
  · exact fun h => by cases h
  · exact fun h => by cases h

/-- A wake-up leaves the pointers as they are. -/
theorem wake_node (h : ∀ w ∈ s.suspended, w.node ∈ l ∧ w.stale = false) (woken : List Task) :
    ∀ w ∈ s.wake woken, w.node ∈ l ∧ w.stale = false := by
  intro w hw
  obtain ⟨u, hu, rfl⟩ := List.mem_map.mp hw
  split_ifs
  · exact h u hu
  · exact h u hu

theorem good_open (h : Inv s l) {v : ℤ} {k : Option (Addr × Myevent)}
    (hk : (Call.sysOpen n v k).Possible s.ev) :
    Good ((sysMyeventOpen s.ev n v k).map fun r => { s with ev := r.2 }) := by
  by_cases hn : n = 0
  · subst hn
    rcases k with _ | ⟨a, raw⟩
    · exact Or.inl rfl
    · obtain ⟨number, ev, he, hwf⟩ := open_new_spec h.wf v raw hk
      rw [he]
      exact good_ok ⟨hwf, fun w hw => ⟨List.mem_append_left _ (h.node w hw).1, (h.node w hw).2⟩⟩
  · obtain ⟨number, he⟩ := open_found_spec h.wf hn v k
    rw [he]
    exact good_ok h

theorem good_wait (h : Inv s l) :
    Good ((sysMyeventWait s.ev t n).map fun r =>
      match r.1 with
      | .inl _ => { s with ev := r.2 }
      | .inr a => ⟨r.2, ⟨t, a, n, false, false⟩ :: s.suspended⟩) := by
  obtain ⟨⟨_ | a, prev⟩, hr, -⟩ := scheventNum_spec h.wf.chain n
  · rw [wait_none_eq hr]
    exact good_ok h
  · obtain ⟨hal, hnum⟩ := find_some h.wf hr
    obtain ⟨e, he, -⟩ := num_eq_some.mp hnum
    by_cases hv : 0 < e.value
    · rw [wait_take_eq hr he hv]
      exact good_ok ⟨h.wf.congr (nx_store_same he rfl) rfl rfl, h.node⟩
    · rw [wait_sleep_eq hr he hv]
      refine good_ok (l := l) ⟨h.wf.congr (nx_store_same he rfl) rfl rfl, fun w hw => ?_⟩
      rcases List.mem_cons.mp hw with rfl | hw
      · exact ⟨hal, rfl⟩
      · exact h.node w hw

theorem good_signal (h : Inv s l) :
    Good ((sysMyeventSignal s.ev n).map fun r => ⟨r.2.2, s.wake r.2.1⟩) := by
  obtain ⟨r, woken, ev, he, hwf⟩ := signal_spec h.wf n
  rw [he]
  exact good_ok ⟨hwf, wake_node h.node woken⟩

/-- **A close** of an event that nobody goes on with, and that is not the last. -/
theorem good_close (h : Inv s l) (hok : CloseOk (.ok s) (.close t n)) :
    Good ((sysMyeventClose s.ev n).map fun r => ⟨r.2.2, spoil (freedBy s n) (s.wake r.2.1)⟩) := by
  obtain ⟨⟨_ | r, prev⟩, hr, -⟩ := scheventNum_spec h.wf.chain n
  · have hfreed : freedBy s n = none := by simp [freedBy, hr]
    rw [close_none_eq hr, hfreed]
    refine good_ok (l := l) ⟨h.wf, fun w hw => ?_⟩
    obtain ⟨u, hu, rfl⟩ := List.mem_map.mp hw
    rw [if_neg (by simp)]
    exact wake_node h.node [] u hu
  · have hfreed : freedBy s n = some r := by simp [freedBy, hr]
    obtain ⟨hend, hnobody⟩ := hok r (by rw [hfreed]; rfl)
    obtain ⟨woken, ev, he, hwf⟩ := close_spec h.wf ⟨prev, hr⟩ hend
    rw [he, hfreed]
    refine good_ok (l := l.erase r) ⟨hwf, fun w hw => ?_⟩
    obtain ⟨u, hu, rfl⟩ := List.mem_map.mp hw
    have hur : u.node ≠ r := by
      obtain ⟨v, hv, rfl⟩ := List.mem_map.mp hu
      split_ifs
      · exact hnobody v hv
      · exact hnobody v hv
    obtain ⟨hul, hustale⟩ := wake_node h.node woken u hu
    rw [if_neg (by simpa using hur)]
    exact ⟨(List.mem_erase_of_ne hur).mpr hul, hustale⟩

theorem good_back (h : Inv s l) (hstep : step (.ok s) (.back t) = some x') : Good x' := by
  simp only [step] at hstep
  cases hfind : s.suspended.find? fun w => w.task == t && w.woken with
  | none => simp [hfind] at hstep
  | some w =>
    obtain ⟨hwl, hstale⟩ := h.node w (List.mem_of_find?_eq_some hfind)
    obtain ⟨e, he⟩ := Linked.lookup h.wf.chain hwl
    simp only [hfind, hstale] at hstep
    simp only [Bool.false_eq_true, if_false, sysMyeventWaitBack, deref_some he, Option.some.injEq,
      bind, Except.bind, pure, Except.pure, Except.map] at hstep
    subst hstep
    exact good_ok (l := l) ⟨h.wf.congr (nx_store_same he rfl) rfl rfl,
      fun w hw => h.node w (List.mem_of_mem_erase hw)⟩

theorem good_step (h : Good x) (hok : CloseOk x a) (hstep : step x a = some x') : Good x' := by
  rcases h with rfl | ⟨s, l, rfl, hinv⟩
  · cases hstep
  · cases a with
    | back t => exact good_back hinv hstep
    | sysOpen t n v k =>
      simp only [step] at hstep
      split_ifs at hstep with hc
      exact Option.some.inj hstep ▸ good_open hinv hc.2
    | wait t n =>
      simp only [step] at hstep
      split_ifs at hstep
      exact Option.some.inj hstep ▸ good_wait hinv
    | signal t n =>
      simp only [step] at hstep
      split_ifs at hstep
      exact Option.some.inj hstep ▸ good_signal hinv
    | close t n =>
      simp only [step] at hstep
      split_ifs at hstep
      exact Option.some.inj hstep ▸ good_close hinv hok

/-- **No use of a freed event** in the runs all of whose closes are `CloseOk`. -/
theorem no_use_after_free {acts : List Act} (h : Meets step CloseOk (.ok start) acts) :
    Always step NoUse (.ok start) acts :=
  (always_of_meets (fun _ _ _ hx hok hstep => good_step hx hok hstep)
    (good_ok (l := []) ⟨wfList_init, by simp [start]⟩) h).mono fun _ hx => good_noUse hx

/-- Two events, the numbers 2 and 4. -/
def twoEvents : List Act :=
  [.sysOpen 0 0 0 (some (8, ⟨0, 0, [], none⟩)), .sysOpen 0 0 0 (some (16, ⟨0, 0, [], none⟩))]

/-- A waiter is signalled and goes on before its event is closed. -/
theorem no_use_after_free_signalled : Always step NoUse (.ok start)
    (twoEvents ++ [.wait 1 2, .signal 0 2, .back 1, .close 0 2]) :=
  no_use_after_free (by decide +kernel)

/-- The fault of a run. -/
def fault : Except Fault Sys → Option Fault
  | .ok _ => none
  | .error f => some f

/-- The close wakes the waiter and frees the node; the waiter goes on and reads it. -/
theorem use_after_free : ¬ Always step NoUse (.ok start)
    (twoEvents ++ [.wait 1 2, .close 0 2, .back 1]) := by
  intro h
  have hrun : (run step (.ok start) (twoEvents ++ [.wait 1 2, .close 0 2, .back 1])).map fault =
      some (some .freed) := by decide +kernel
  obtain ⟨x, hx, hfault⟩ := Option.map_eq_some_iff.mp hrun
  refine h.last hx ?_
  cases x with
  | ok s => cases hfault
  | error f => exact congrArg Except.error (Option.some.inj hfault)

end LinuxHomework.Event.Freed
