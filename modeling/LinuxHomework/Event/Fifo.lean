import LinuxHomework.Lib.Semaphore
import LinuxHomework.Event.EventList

/-! # The event as a counting semaphore

Tasks call `sys_myevent_wait` and `sys_myevent_signal`, each call running without interruption up to
`schedule()`; a sleeping task goes on only after `wake_up` has woken it (`Act.back`).

The record `hist` is kept by the numbers that the calls are given and by what comes back from them:
which waits returned and which went to sleep, which signals were made, and which sleepers were
woken. The event of a number is the first node of the list that has it (`eventOf`). By its record
every event is a counting semaphore in the sense of `Lib.Semaphore`: its units are `value`, its
queue is the wait queue. `Did` says once what a step does, and `Inv` is the relation between the
nodes, the sleeping tasks and the specification; `fifo_semaphore` collects what follows for every
state of every run in which no signal stores a unit that does not fit an `int` (`CountOk`). -/

namespace LinuxHomework.Event.Fifo

open LinuxHomework.Lib.Chain LinuxHomework.Lib.Runs LinuxHomework.Lib.Semaphore
open LinuxHomework.Lib.CInt LinuxHomework.Event.Nodes LinuxHomework.Event.EventList

/-! ### The system -/

/-- Where a task is: outside the calls, in `schedule()` on the queue of the node `a`, or woken
there and about to go on. -/
inductive Status
  | running
  | asleep (a : Addr) (eventNum : ℤ)
  | woken (a : Addr) (eventNum : ℤ)
deriving DecidableEq

/-- The events, the tasks, what the last call of each task returned, and what has come of the calls
with each number so far. -/
structure Sys where
  ev : Events
  task : Task → Status
  ret : Task → ℤ
  hist : ℤ → Hist Task

/-- A task calls, or goes on after it was woken. -/
inductive Act
  | wait (t : Task) (eventNum : ℤ)
  | signal (t : Task) (eventNum : ℤ)
  | back (t : Task)

/-- `wake_up` makes a sleeping task runnable. -/
def wake (task : Task → Status) (t : Task) : Task → Status :=
  match task t with
  | .asleep a n => Function.update task t (.woken a n)
  | _ => task

namespace Sys

variable (s : Sys)

/-- A task is woken: its wait is granted. -/
def wakeUp (w : Task) : Sys :=
  match s.task w with
  | .asleep _ n =>
    { s with task := wake s.task w, hist := Function.update s.hist n ((s.hist n).woke w) }
  | _ => s

/-- A wait with the number `n` came back at once. -/
def returned (t : Task) (n r : ℤ) (ev : Events) : Sys :=
  { s with ev, ret := Function.update s.ret t r, hist := Function.update s.hist n (s.hist n).took }

/-- A wait with the number `n` sleeps on the node `a`. -/
def slept (t : Task) (n : ℤ) (a : Addr) (ev : Events) : Sys :=
  { s with
    ev, task := Function.update s.task t (.asleep a n)
    hist := Function.update s.hist n ((s.hist n).slept t) }

/-- A signal with the number `n` came back. -/
def signalled (t : Task) (n r : ℤ) (ev : Events) : Sys :=
  { s with ev, ret := Function.update s.ret t r, hist := Function.update s.hist n (s.hist n).signalled }

end Sys

def step (s : Sys) : Act → Option Sys
  | .wait t n =>
    if s.task t = .running then
      match sysMyeventWait s.ev t n with
      | .ok (.inl r, ev) => some (s.returned t n r ev)
      | .ok (.inr a, ev) => some (s.slept t n a ev)
      | .error _ => none
    else none
  | .signal t n =>
    if s.task t = .running then
      match sysMyeventSignal s.ev n with
      | .ok (r, woken, ev) => some (woken.foldl Sys.wakeUp (s.signalled t n r ev))
      | .error _ => none
    else none
  | .back t =>
    match s.task t with
    | .woken a n =>
      match sysMyeventWaitBack s.ev t a n with
      | .ok (r, ev) =>
        some { s with
          ev, task := Function.update s.task t .running, ret := Function.update s.ret t r }
      | .error _ => none
    | _ => none

/-! ### The event of a number -/

/-- **The event of a number**: the first node of the list that has it. -/
def eventOf (l : List Addr) (s : Events) (n : ℤ) : Option Addr := l.find? fun a => s.num a = some n

section EventOf
variable {l : List Addr} {s s' : Events} {n m : ℤ} {a : Addr}

theorem mem_of_eventOf (h : eventOf l s n = some a) : a ∈ l := List.mem_of_find?_eq_some h

theorem num_of_eventOf (h : eventOf l s n = some a) : s.num a = some n := by
  simpa using List.find?_some h

/-- A node is the event of one number. -/
theorem eventOf_inj (hn : eventOf l s n = some a) (hm : eventOf l s m = some a) : n = m :=
  Option.some.inj ((num_of_eventOf hn).symm.trans (num_of_eventOf hm))

theorem eventOf_congr (h : s'.num = s.num) : eventOf l s' n = eventOf l s n := by
  unfold eventOf
  rw [h]

/-- **The search finds the event.** -/
theorem scheventNum_eventOf (h : WfList s l) (n : ℤ) :
    ∃ prev, scheventNum s n = .ok (eventOf l s n, prev) := by
  obtain ⟨r, hr, hf⟩ := scheventNum_spec h.chain n
  cases hf with
  | no hno =>
    have hnone : eventOf l s n = none := List.find?_eq_none.mpr fun b hb => by simpa using hno b hb
    exact ⟨_, by rw [hr, hnone]⟩
  | @yes l₁ l₂ a hl hno ha =>
    have hsome : eventOf l s n = some a := by
      refine List.find?_eq_some_iff_append.mpr ⟨by simpa using ha, l₁, l₂, hl, fun b hb => ?_⟩
      simpa using hno b hb
    exact ⟨_, by rw [hr, hsome]⟩

/-- Writing a node without changing its number changes no number. -/
theorem num_store {e e' : Myevent} (ha : s.mem.lookup a = some e) (hnum : e'.eventNum = e.eventNum) :
    (s.store a e').num = s.num := by
  funext b
  unfold Events.num
  by_cases hb : b = a
  · rw [hb, lookup_store, ha, Option.map_some, Option.map_some, hnum]
  · rw [lookup_store_ne hb]

end EventOf

/-! ### What a step does -/

/-- **What a step does**, on a list in order. -/
inductive Did (l : List Addr) (s : Sys) : Act → Sys → Prop
  | waitNothing {t : Task} {n : ℤ} (ht : s.task t = .running) (hn : eventOf l s.ev n = none) :
      Did l s (.wait t n) (s.returned t n 0 s.ev)
  | took {t : Task} {n : ℤ} {a : Addr} {e : Myevent} (ht : s.task t = .running)
      (hn : eventOf l s.ev n = some a) (ha : s.ev.mem.lookup a = some e) (hv : 0 < e.value) :
      Did l s (.wait t n) (s.returned t n n (s.ev.store a { e with value := wrap32 (e.value - 1) }))
  | slept {t : Task} {n : ℤ} {a : Addr} {e : Myevent} (ht : s.task t = .running)
      (hn : eventOf l s.ev n = some a) (ha : s.ev.mem.lookup a = some e) (hv : ¬ 0 < e.value) :
      Did l s (.wait t n) (s.slept t n a (s.ev.store a { e with p := e.p ++ [t] }))
  | signalNothing {t : Task} {n : ℤ} (ht : s.task t = .running) (hn : eventOf l s.ev n = none) :
      Did l s (.signal t n) (s.signalled t n 0 s.ev)
  | added {t : Task} {n : ℤ} {a : Addr} {e : Myevent} (ht : s.task t = .running)
      (hn : eventOf l s.ev n = some a) (ha : s.ev.mem.lookup a = some e) (hp : e.p = []) :
      Did l s (.signal t n)
        (s.signalled t n n (s.ev.store a { e with value := wrap32 (e.value + 1) }))
  | handed {t : Task} {n : ℤ} {a : Addr} {e : Myevent} {w : Task} {rest : List Task}
      (ht : s.task t = .running) (hn : eventOf l s.ev n = some a) (ha : s.ev.mem.lookup a = some e)
      (hp : e.p = w :: rest) :
      Did l s (.signal t n) ((s.signalled t n n (s.ev.store a { e with p := rest })).wakeUp w)
  | back {t : Task} {n : ℤ} {a : Addr} {e : Myevent} (ht : s.task t = .woken a n)
      (ha : s.ev.mem.lookup a = some e) :
      Did l s (.back t) { s with
        ev := s.ev.store a { e with p := e.p.erase t }
        task := Function.update s.task t .running, ret := Function.update s.ret t n }

section Did
variable {l : List Addr} {s s' : Sys} (h : WfList s.ev l) {t : Task} {a : Addr} {e : Myevent}
include h

/-- On a list in order a running task can call, and what the call does is in `Did`. -/
theorem step_wait (ht : s.task t = .running) (n : ℤ) :
    ∃ s', step s (.wait t n) = some s' ∧ Did l s (.wait t n) s' := by
  obtain ⟨prev, hr⟩ := scheventNum_eventOf h n
  cases hn : eventOf l s.ev n with
  | none =>
    rw [hn] at hr
    refine ⟨_, ?_, .waitNothing ht hn⟩
    simp only [step, ht, if_true, wait_none_eq hr]
  | some a =>
    rw [hn] at hr
    obtain ⟨e, he, -⟩ := num_eq_some.mp (num_of_eventOf hn)
    by_cases hv : 0 < e.value
    · refine ⟨_, ?_, .took ht hn he hv⟩
      simp only [step, ht, if_true, wait_take_eq hr he hv]
    · refine ⟨_, ?_, .slept ht hn he hv⟩
      simp only [step, ht, if_true, wait_sleep_eq hr he hv]

theorem step_signal (ht : s.task t = .running) (n : ℤ) :
    ∃ s', step s (.signal t n) = some s' ∧ Did l s (.signal t n) s' := by
  obtain ⟨prev, hr⟩ := scheventNum_eventOf h n
  cases hn : eventOf l s.ev n with
  | none =>
    rw [hn] at hr
    refine ⟨_, ?_, .signalNothing ht hn⟩
    simp only [step, ht, if_true, signal_none_eq hr, List.foldl_nil]
  | some a =>
    rw [hn] at hr
    obtain ⟨e, he, -⟩ := num_eq_some.mp (num_of_eventOf hn)
    cases hp : e.p with
    | nil =>
      refine ⟨_, ?_, .added ht hn he hp⟩
      simp only [step, ht, if_true, signal_add_eq hr he hp, List.foldl_nil]
    | cons w rest =>
      refine ⟨_, ?_, .handed ht hn he hp⟩
      simp only [step, ht, if_true, signal_wake_eq hr he hp, List.foldl_cons, List.foldl_nil]

omit h in
theorem step_back {n : ℤ} (ht : s.task t = .woken a n) (ha : s.ev.mem.lookup a = some e) :
    ∃ s', step s (.back t) = some s' ∧ Did l s (.back t) s' := by
  refine ⟨_, ?_, .back ht ha⟩
  simp [step, ht, sysMyeventWaitBack, deref_some ha, bind, Except.bind, pure, Except.pure]

/-- **The inversion of a step**. -/
theorem step_did {act : Act} (hstep : step s act = some s') : Did l s act s' := by
  cases act with
  | wait t n =>
    have ht : s.task t = .running := by
      by_contra ht
      simp [step, ht] at hstep
    obtain ⟨s'', hs, hd⟩ := step_wait h ht n
    exact Option.some.inj (hs.symm.trans hstep) ▸ hd
  | signal t n =>
    have ht : s.task t = .running := by
      by_contra ht
      simp [step, ht] at hstep
    obtain ⟨s'', hs, hd⟩ := step_signal h ht n
    exact Option.some.inj (hs.symm.trans hstep) ▸ hd
  | back t =>
    cases ht : s.task t with
    | running => simp [step, ht] at hstep
    | asleep a n => simp [step, ht] at hstep
    | woken a n =>
      cases ha : s.ev.mem.lookup a with
      | none =>
        simp [step, ht, sysMyeventWaitBack, Events.deref, ha, bind, Except.bind] at hstep
      | some e =>
        obtain ⟨s'', hs, hd⟩ := step_back ht ha
        exact Option.some.inj (hs.symm.trans hstep) ▸ hd

end Did

/-! ### The invariant -/

/-- **The invariant**: the list is in order, every event is a semaphore that agrees with its record,
and the queue of every node holds exactly the tasks that sleep on it. -/
structure Inv (l : List Addr) (s : Sys) : Prop where
  wf : WfList s.ev l
  value : ∀ a ∈ l, ∀ e, s.ev.mem.lookup a = some e → 0 ≤ e.value ∧ e.value < 2 ^ 31
  ok : ∀ n a, eventOf l s.ev n = some a → ∀ e, s.ev.mem.lookup a = some e →
    Sem.Ok (⟨e.value.toNat, e.p, s.hist n⟩ : Sem Task)
  nodup : ∀ a ∈ l, ∀ e, s.ev.mem.lookup a = some e → e.p.Nodup
  queue : ∀ a ∈ l, ∀ e, s.ev.mem.lookup a = some e → ∀ t, t ∈ e.p ↔ ∃ n, s.task t = .asleep a n
  named : ∀ t a n, s.task t = .asleep a n ∨ s.task t = .woken a n → eventOf l s.ev n = some a

section Step
variable {l : List Addr} {s s' : Sys} (h : Inv l s) {t w : Task} {n : ℤ} {a : Addr} {e e' : Myevent}
  {rest : List Task}
include h

/-- **Writing one event** keeps the invariant, if what is written agrees with the new record and
queue, and the tasks and records of the other events are left alone. -/
theorem Inv.store (hn : eventOf l s.ev n = some a) (ha : s.ev.mem.lookup a = some e)
    (hev : s'.ev = s.ev.store a e') (hnext : e'.next = e.next) (hnum : e'.eventNum = e.eventNum)
    (hval : 0 ≤ e'.value ∧ e'.value < 2 ^ 31)
    (hok : Sem.Ok (⟨e'.value.toNat, e'.p, s'.hist n⟩ : Sem Task)) (hnd : e'.p.Nodup)
    (hq : ∀ t, t ∈ e'.p ↔ ∃ m, s'.task t = .asleep a m) (hhist : ∀ m, m ≠ n → s'.hist m = s.hist m)
    (htask : ∀ b, b ≠ a → ∀ t m, s'.task t = .asleep b m ↔ s.task t = .asleep b m)
    (hnamed : ∀ t b m, s'.task t = .asleep b m ∨ s'.task t = .woken b m →
      eventOf l s.ev m = some b) : Inv l s' := by
  have hevents (m : ℤ) : eventOf l s'.ev m = eventOf l s.ev m := by
    rw [hev]
    exact eventOf_congr (num_store ha hnum)
  have hself : s'.ev.mem.lookup a = some e' := by rw [hev, lookup_store]
  have hother {b : Addr} (hba : b ≠ a) : s'.ev.mem.lookup b = s.ev.mem.lookup b := by
    rw [hev, lookup_store_ne hba]
  have key {P : Addr → Myevent → Prop} (hPa : P a e')
      (hPb : ∀ b ∈ l, b ≠ a → ∀ e, s.ev.mem.lookup b = some e → P b e) :
      ∀ b ∈ l, ∀ e, s'.ev.mem.lookup b = some e → P b e := by
    intro b hbl eb heb
    by_cases hba : b = a
    · subst hba
      exact Option.some.inj (hself.symm.trans heb) ▸ hPa
    · exact hPb b hbl hba eb ((hother hba).symm.trans heb)
  refine ⟨?_, key hval fun b hbl _ => h.value b hbl, fun m b hm eb heb => ?_,
    key hnd fun b hbl _ => h.nodup b hbl, key hq fun b hbl hba eb heb u => ?_, fun u b m hu => ?_⟩
  · rw [hev]
    exact h.wf.congr (nx_store_same ha hnext) rfl rfl
  · rw [hevents] at hm
    by_cases hmn : m = n
    · subst hmn
      obtain rfl := Option.some.inj (hn.symm.trans hm)
      obtain rfl := Option.some.inj (hself.symm.trans heb)
      exact hok
    · have hba : b ≠ a := fun hba => hmn (eventOf_inj (hba ▸ hm) hn)
      rw [hhist m hmn]
      exact h.ok m b hm eb ((hother hba).symm.trans heb)
  · rw [h.queue b hbl eb heb u]
    exact exists_congr fun m => (htask b hba u m).symm
  · rw [hevents]
    exact hnamed u b m hu

/-- A call with a number that no event has. -/
theorem Inv.nothing (hn : eventOf l s.ev n = none) (hev : s'.ev = s.ev) (htask : s'.task = s.task)
    (hhist : ∀ m, m ≠ n → s'.hist m = s.hist m) : Inv l s' := by
  obtain ⟨wf, value, ok, nodup, queue, named⟩ := h
  rw [← hev] at wf value ok nodup queue named hn
  rw [← htask] at queue named
  refine ⟨wf, value, fun m b hm => ?_, nodup, queue, named⟩
  rw [hhist m fun hmn => by rw [hmn, hn] at hm; cases hm]
  exact ok m b hm

theorem Inv.balance (hn : eventOf l s.ev n = some a) (ha : s.ev.mem.lookup a = some e) :
    e.value + (s.hist n).granted = ((s.hist n).initial + (s.hist n).signals : ℕ) := by
  have hbal : e.value.toNat + (s.hist n).granted = (s.hist n).initial + (s.hist n).signals :=
    (h.ok n a hn e ha).balance
  have := (h.value a (mem_of_eventOf hn) e ha).1
  omega

theorem Inv.notMem_of_awake (ht : ∀ b m, s.task t ≠ .asleep b m) (hal : a ∈ l)
    (ha : s.ev.mem.lookup a = some e) : t ∉ e.p := fun hmem => by
  obtain ⟨m, hm⟩ := (h.queue a hal e ha t).mp hmem
  exact ht a m hm

theorem inv_took (hn : eventOf l s.ev n = some a) (ha : s.ev.mem.lookup a = some e)
    (hv : 0 < e.value) :
    Inv l (s.returned t n n (s.ev.store a { e with value := wrap32 (e.value - 1) })) := by
  have hal := mem_of_eventOf hn
  have hlt := (h.value a hal e ha).2
  have hval : wrap32 (e.value - 1) = e.value - 1 := wrap32_of_lt (by omega) (by omega)
  refine h.store hn ha rfl rfl rfl ?_ ?_ (h.nodup a hal e ha) (h.queue a hal e ha)
    (fun m hm => Function.update_of_ne hm _ _) (fun _ _ _ _ => Iff.rfl) h.named
  · show 0 ≤ wrap32 (e.value - 1) ∧ wrap32 (e.value - 1) < 2 ^ 31
    omega
  · have happ := (h.ok n a hn e ha).apply (.p 0)
    have hu : 0 < e.value.toNat := by omega
    rw [Sem.apply, if_pos hu] at happ
    have hnat : (e.value - 1).toNat = e.value.toNat - 1 := by omega
    simpa [Sys.returned, hval, hnat] using happ

theorem inv_slept (ht : s.task t = .running) (hn : eventOf l s.ev n = some a)
    (ha : s.ev.mem.lookup a = some e) (hv : ¬ 0 < e.value) :
    Inv l (s.slept t n a (s.ev.store a { e with p := e.p ++ [t] })) := by
  have hal := mem_of_eventOf hn
  have htp : t ∉ e.p := h.notMem_of_awake (by simp [ht]) hal ha
  refine h.store hn ha rfl rfl rfl (h.value a hal e ha) ?_ ?_ (fun u => ?_)
    (fun m hm => Function.update_of_ne hm _ _) (fun b hba u m => ?_) (fun u b m hu => ?_)
  · have happ := (h.ok n a hn e ha).apply (.p t)
    have hu : ¬ 0 < e.value.toNat := by omega
    rw [Sem.apply, if_neg hu] at happ
    simpa [Sys.slept] using happ
  · refine List.nodup_append.mpr ⟨h.nodup a hal e ha, by simp, fun u hu v hv huv => ?_⟩
    rw [List.mem_singleton.mp hv] at huv
    exact htp (huv ▸ hu)
  · by_cases hut : u = t
    · simp [Sys.slept, hut]
    · simp [Sys.slept, hut, h.queue a hal e ha u]
  · by_cases hut : u = t
    · simp [Sys.slept, hut, ht, Ne.symm hba]
    · simp [Sys.slept, hut]
  · by_cases hut : u = t
    · simp only [Sys.slept, hut, Function.update_self, Status.asleep.injEq, reduceCtorEq,
        or_false] at hu
      rw [← hu.1, ← hu.2]
      exact hn
    · exact h.named u b m (by simpa [Sys.slept, hut] using hu)

theorem inv_added (hn : eventOf l s.ev n = some a) (ha : s.ev.mem.lookup a = some e)
    (hp : e.p = []) (hlt : e.value < 2 ^ 31 - 1) :
    Inv l (s.signalled t n n (s.ev.store a { e with value := wrap32 (e.value + 1) })) := by
  have hal := mem_of_eventOf hn
  have hnn := (h.value a hal e ha).1
  have hval : wrap32 (e.value + 1) = e.value + 1 := wrap32_of_lt (by omega) (by omega)
  refine h.store hn ha rfl rfl rfl ?_ ?_ (h.nodup a hal e ha) (h.queue a hal e ha)
    (fun m hm => Function.update_of_ne hm _ _) (fun _ _ _ _ => Iff.rfl) h.named
  · show 0 ≤ wrap32 (e.value + 1) ∧ wrap32 (e.value + 1) < 2 ^ 31
    omega
  · have happ := (h.ok n a hn e ha).apply .v
    simp only [Sem.apply, hp] at happ
    have hnat : (e.value + 1).toNat = e.value.toNat + 1 := by omega
    simpa [Sys.signalled, hval, hnat, hp] using happ

/-- The first of the queue sleeps on this node, with this number. -/
theorem Inv.first_asleep (hn : eventOf l s.ev n = some a) (ha : s.ev.mem.lookup a = some e)
    (hp : e.p = w :: rest) : s.task w = .asleep a n := by
  obtain ⟨m, hw⟩ := (h.queue a (mem_of_eventOf hn) e ha w).mp (by simp [hp])
  rw [hw, eventOf_inj (h.named w a m (.inl hw)) hn]

omit h in
/-- What is left after a sleeping task is woken. -/
theorem wakeUp_eq (hw : s.task w = .asleep a n) : s.wakeUp w = { s with
    task := Function.update s.task w (.woken a n)
    hist := Function.update s.hist n ((s.hist n).woke w) } := by
  simp only [Sys.wakeUp, hw, wake]

theorem inv_handed (hn : eventOf l s.ev n = some a) (ha : s.ev.mem.lookup a = some e)
    (hp : e.p = w :: rest) :
    Inv l ((s.signalled t n n (s.ev.store a { e with p := rest })).wakeUp w) := by
  have hal := mem_of_eventOf hn
  obtain ⟨hwr, hnd⟩ := List.nodup_cons.mp (hp ▸ h.nodup a hal e ha)
  have hw := h.first_asleep hn ha hp
  rw [wakeUp_eq (s := s.signalled t n n _) hw]
  refine h.store hn ha rfl rfl rfl (h.value a hal e ha) ?_ hnd (fun u => ?_)
    (fun m hm => ?_) (fun b hba u k => ?_) (fun u b k hu => ?_)
  · have happ := (h.ok n a hn e ha).apply .v
    simp only [Sem.apply, hp] at happ
    simpa [Sys.signalled] using happ
  · by_cases huw : u = w
    · simpa [huw] using hwr
    · have := h.queue a hal e ha u
      rw [hp] at this
      simpa [Sys.signalled, huw] using this
  · simp [Sys.signalled, Function.update_of_ne hm]
  · by_cases huw : u = w
    · simp [huw, hw, Ne.symm hba]
    · simp [Sys.signalled, huw]
  · by_cases huw : u = w
    · simp only [huw, Function.update_self, Status.woken.injEq, reduceCtorEq, false_or] at hu
      rw [← hu.1, ← hu.2]
      exact hn
    · exact h.named u b k (by simpa [Sys.signalled, huw] using hu)

theorem inv_back (ht : s.task t = .woken a n) (ha : s.ev.mem.lookup a = some e) :
    Inv l { s with
      ev := s.ev.store a { e with p := e.p.erase t }
      task := Function.update s.task t .running, ret := Function.update s.ret t n } := by
  have hn := h.named t a n (.inr ht)
  have hal := mem_of_eventOf hn
  have htp : t ∉ e.p := h.notMem_of_awake (by simp [ht]) hal ha
  -- `wake_up` has already taken the task off the queue
  rw [List.erase_of_not_mem htp]
  refine h.store hn ha rfl rfl rfl (h.value a hal e ha) (h.ok n a hn e ha) (h.nodup a hal e ha)
    (fun u => ?_) (fun _ _ => rfl) (fun b _ u m => ?_) (fun u b m hu => ?_)
  · by_cases hut : u = t
    · simpa [hut] using htp
    · simp [hut, h.queue a hal e ha u]
  · by_cases hut : u = t
    · simp [hut, ht]
    · simp [hut]
  · by_cases hut : u = t
    · simp [hut] at hu
    · exact h.named u b m (by simpa [hut] using hu)

end Step

/-! ### Every step -/

/-- The counts stay below `2 ^ 31`: a signal that finds nobody waiting can store its unit. -/
def CountOk (l : List Addr) (s : Sys) : Act → Prop
  | .signal _ n => ∀ a ∈ eventOf l s.ev n, ∀ e ∈ s.ev.mem.lookup a, e.p = [] → e.value < 2 ^ 31 - 1
  | _ => True

instance (l : List Addr) (s : Sys) : ∀ act, Decidable (CountOk l s act)
  | .signal _ _ => inferInstanceAs (Decidable (∀ a ∈ _, ∀ e ∈ _, _))
  | .wait _ _ => inferInstanceAs (Decidable True)
  | .back _ => inferInstanceAs (Decidable True)

section Each
variable {l : List Addr} {s s' : Sys} {t w : Task} {n : ℤ} {a b : Addr} {e : Myevent} {act : Act}
  {rest : List Task}

/-- **Every step keeps the invariant**, as long as the counts stay below `2 ^ 31`. -/
theorem inv_step (h : Inv l s) (hok : CountOk l s act) (hstep : step s act = some s') : Inv l s' := by
  have hd := step_did h.wf hstep
  clear hstep
  cases hd with
  | waitNothing _ hn => exact h.nothing hn rfl rfl fun m hm => Function.update_of_ne hm _ _
  | took _ hn ha hv => exact inv_took h hn ha hv
  | slept ht hn ha hv => exact inv_slept h ht hn ha hv
  | signalNothing _ hn => exact h.nothing hn rfl rfl fun m hm => Function.update_of_ne hm _ _
  | added _ hn ha hp => exact inv_added h hn ha hp (hok _ hn _ ha hp)
  | handed _ hn ha hp => exact inv_handed h hn ha hp
  | back ht ha => exact inv_back h ht ha

/-- The event that a call names. -/
def Act.Names (l : List Addr) (s : Sys) (a : Addr) : Act → Prop
  | .wait _ n | .signal _ n => eventOf l s.ev n = some a
  | .back _ => False

theorem ev_wakeUp (s : Sys) (w : Task) : (s.wakeUp w).ev = s.ev := by
  unfold Sys.wakeUp
  split <;> rfl

theorem ret_wakeUp (s : Sys) (w : Task) : (s.wakeUp w).ret = s.ret := by
  unfold Sys.wakeUp
  split <;> rfl

theorem initial_wakeUp (s : Sys) (w : Task) (m : ℤ) :
    ((s.wakeUp w).hist m).initial = (s.hist m).initial := by
  unfold Sys.wakeUp
  split
  · next k hk =>
    by_cases hm : m = k
    · simp [hm, Hist.woke]
    · simp [hm]
  · rfl

/-- A step leaves the events alone that it does not name. -/
theorem lookup_of_not_names (h : Inv l s) (hstep : step s act = some s') (hb : ¬ act.Names l s b) :
    s'.ev.mem.lookup b = s.ev.mem.lookup b := by
  have hd := step_did h.wf hstep
  clear hstep
  cases hd with
  | waitNothing | signalNothing => rfl
  | took _ hn => exact lookup_store_ne fun hba => hb (hba ▸ hn)
  | slept _ hn => exact lookup_store_ne fun hba => hb (hba ▸ hn)
  | added _ hn => exact lookup_store_ne fun hba => hb (hba ▸ hn)
  | handed _ hn =>
    rw [ev_wakeUp]
    exact lookup_store_ne fun hba => hb (hba ▸ hn)
  | @back t n a e ht ha =>
    by_cases hba : b = a
    · have htp : t ∉ e.p :=
        h.notMem_of_awake (by simp [ht]) (mem_of_eventOf (h.named t a n (.inr ht))) ha
      show (s.ev.store a _).mem.lookup b = _
      rw [hba, lookup_store, List.erase_of_not_mem htp, ha]
    · exact lookup_store_ne hba

/-- A step changes no number and no initial value. -/
theorem kept_step (h : WfList s.ev l) (hstep : step s act = some s') :
    s'.ev.num = s.ev.num ∧ ∀ m, (s'.hist m).initial = (s.hist m).initial := by
  have hd := step_did h hstep
  clear hstep
  have hupd (n m : ℤ) (x : Hist Task) (hx : x.initial = (s.hist n).initial) :
      (Function.update s.hist n x m).initial = (s.hist m).initial := by
    by_cases hm : m = n
    · rw [hm, Function.update_self, hx]
    · rw [Function.update_of_ne hm]
  cases hd with
  | waitNothing | signalNothing => exact ⟨rfl, fun m => hupd _ m _ rfl⟩
  | took _ _ ha => exact ⟨num_store ha rfl, fun m => hupd _ m _ rfl⟩
  | slept _ _ ha => exact ⟨num_store ha rfl, fun m => hupd _ m _ rfl⟩
  | added _ _ ha => exact ⟨num_store ha rfl, fun m => hupd _ m _ rfl⟩
  | handed _ _ ha =>
    refine ⟨?_, fun m => (initial_wakeUp _ _ m).trans (hupd _ m _ rfl)⟩
    rw [ev_wakeUp]
    exact num_store ha rfl
  | back _ ha => exact ⟨num_store ha rfl, fun _ => rfl⟩

/-- **A signal that finds waiters** grants the first of them, and nobody else. -/
theorem signal_wakes (h : Inv l s) (hstep : step s (.signal t n) = some s')
    (hn : eventOf l s.ev n = some a) (ha : s.ev.mem.lookup a = some e) (hp : e.p = w :: rest) :
    s'.ev.mem.lookup a = some { e with p := rest } ∧ s.task w = .asleep a n ∧
      s'.task = Function.update s.task w (.woken a n) ∧
      s'.hist = Function.update s.hist n ((s.hist n).signalled.woke w) := by
  have hw := h.first_asleep hn ha hp
  obtain ⟨prev, hr⟩ := scheventNum_eventOf h.wf n
  rw [hn] at hr
  have ht : s.task t = .running := by
    by_contra ht
    simp [step, ht] at hstep
  simp only [step, ht, if_true, signal_wake_eq hr ha hp, List.foldl_cons, List.foldl_nil,
    Option.some.injEq] at hstep
  subst hstep
  rw [wakeUp_eq (s := s.signalled t n n _) hw]
  refine ⟨lookup_store, hw, rfl, ?_⟩
  simp [Sys.signalled]

/-- **What a call returns**: the number of its event, or 0 if there is none. -/
def Act.Answered (l : List Addr) (s s' : Sys) : Act → Prop
  | .wait t n => s'.task t = .running → s'.ret t = if (eventOf l s.ev n).isSome then n else 0
  | .signal t n => s'.ret t = if (eventOf l s.ev n).isSome then n else 0
  | .back t => ∀ a n, s.task t = .woken a n → s'.ret t = n

theorem step_answered (h : WfList s.ev l) (hstep : step s act = some s') : act.Answered l s s' := by
  have hd := step_did h hstep
  clear hstep
  cases hd with
  | waitNothing _ hn => exact fun _ => by simp [Sys.returned, hn]
  | took _ hn => exact fun _ => by simp [Sys.returned, hn]
  | slept => exact fun ht => by simp [Sys.slept] at ht
  | signalNothing _ hn => simp [Act.Answered, Sys.signalled, hn]
  | added _ hn => simp [Act.Answered, Sys.signalled, hn]
  | handed _ hn => simp [Act.Answered, Sys.signalled, ret_wakeUp, hn]
  | back ht =>
    intro b m hm
    obtain ⟨-, rfl⟩ := Status.woken.inj (ht.symm.trans hm)
    exact Function.update_self ..

end Each

/-! ### Runs -/

/-- The start: a list in order, no event with a negative value, nobody waiting. -/
structure Ready (l : List Addr) (s : Sys) : Prop where
  wf : WfList s.ev l
  event : ∀ a ∈ l, ∀ e, s.ev.mem.lookup a = some e → 0 ≤ e.value ∧ e.value < 2 ^ 31 ∧ e.p = []
  hist : ∀ n a, eventOf l s.ev n = some a → ∀ e, s.ev.mem.lookup a = some e →
    s.hist n = { initial := e.value.toNat }
  task : ∀ t, s.task t = .running

/-- What a state `s` reached from `s₀` satisfies. -/
structure Conforms (l : List Addr) (s₀ s : Sys) : Prop where
  /-- The events are those of the start. -/
  names : eventOf l s.ev = eventOf l s₀.ev
  /-- Every event is a counting semaphore with its initial value, served in order of arrival. -/
  event : ∀ n a, eventOf l s₀.ev n = some a → ∀ e₀, s₀.ev.mem.lookup a = some e₀ →
    ∃ e, s.ev.mem.lookup a = some e ∧ 0 ≤ e.value ∧
      e.value + (s.hist n).granted = e₀.value + (s.hist n).signals ∧ (e.p ≠ [] → e.value = 0) ∧
      (s.hist n).queued = (s.hist n).woken ++ e.p
  /-- A node that is the event of no number is as it was. -/
  others : ∀ a ∈ l, (∀ n, eventOf l s₀.ev n ≠ some a) → s.ev.mem.lookup a = s₀.ev.mem.lookup a
  /-- A signal that finds waiters grants the first of the queue, and nobody else. -/
  signal : ∀ t n a e w rest s', step s (.signal t n) = some s' → eventOf l s.ev n = some a →
    s.ev.mem.lookup a = some e → e.p = w :: rest →
    s'.ev.mem.lookup a = some { e with p := rest } ∧ s.task w = .asleep a n ∧
      s'.task = Function.update s.task w (.woken a n) ∧
      s'.hist = Function.update s.hist n ((s.hist n).signalled.woke w)
  /-- A step leaves every event alone that it does not name, and returns the number of the one it
  names. -/
  frame : ∀ act s' b, step s act = some s' → ¬ act.Names l s b →
    s'.ev.mem.lookup b = s.ev.mem.lookup b
  returns : ∀ act s', step s act = some s' → act.Answered l s s'
  /-- No call of a running task, and no return of a woken one, goes wrong. -/
  enabled : ∀ t, (s.task t = .running → ∀ n, (step s (.wait t n)).isSome ∧
    (step s (.signal t n)).isSome) ∧ ∀ a n, s.task t = .woken a n → (step s (.back t)).isSome

theorem Ready.inv {l : List Addr} {s : Sys} (h : Ready l s) : Inv l s := by
  refine ⟨h.wf, fun a hal e he => ⟨(h.event a hal e he).1, (h.event a hal e he).2.1⟩,
    fun n a hn e he => ?_, fun a hal e he => ?_, fun a hal e he t => ?_, fun t a n ht => ?_⟩
  · rw [(h.event a (mem_of_eventOf hn) e he).2.2, h.hist n a hn e he]
    exact Sem.ok_init _
  · rw [(h.event a hal e he).2.2]
    exact List.nodup_nil
  · simp [(h.event a hal e he).2.2, h.task t]
  · simp [h.task t] at ht

/-- What the run keeps from the start `s₀`. -/
structure Since (l : List Addr) (s₀ s : Sys) : Prop where
  num : s.ev.num = s₀.ev.num
  initial : ∀ n, (s.hist n).initial = (s₀.hist n).initial
  others : ∀ a ∈ l, (∀ n, eventOf l s₀.ev n ≠ some a) → s.ev.mem.lookup a = s₀.ev.mem.lookup a

theorem since_step {l : List Addr} {s₀ s s' : Sys} {act : Act} (h : Inv l s) (hs : Since l s₀ s)
    (hstep : step s act = some s') : Since l s₀ s' := by
  obtain ⟨hnum, hinitial⟩ := kept_step h.wf hstep
  refine ⟨hnum.trans hs.num, fun n => (hinitial n).trans (hs.initial n), fun a hal ha => ?_⟩
  refine (lookup_of_not_names h hstep fun hnames => ?_).trans (hs.others a hal ha)
  cases act with
  | wait t n | signal t n => exact ha n (by rwa [← eventOf_congr hs.num])
  | back t => exact hnames

/-- **The modified event is a FIFO counting semaphore**, in every state of every run of waits and
signals whose counts stay below `2 ^ 31`. -/
theorem fifo_semaphore {l : List Addr} {s₀ s : Sys} {acts : List Act} (h₀ : Ready l s₀)
    (hb : Meets step (CountOk l) s₀ acts) (hrun : run step s₀ acts = some s) : Conforms l s₀ s := by
  obtain ⟨h, hsince⟩ : Inv l s ∧ Since l s₀ s :=
    (always_of_meets (I := fun s => Inv l s ∧ Since l s₀ s)
      (fun s a s' hI hC hstep => ⟨inv_step hI.1 hC hstep, since_step hI.1 hI.2 hstep⟩)
      ⟨h₀.inv, rfl, fun _ => rfl, fun _ _ _ => rfl⟩ hb).last hrun
  have hnames : eventOf l s.ev = eventOf l s₀.ev := funext fun n => eventOf_congr hsince.num
  refine ⟨hnames, fun n a hn e₀ he₀ => ?_, hsince.others, fun t n a e w rest s' => signal_wakes h,
    fun act s' b => lookup_of_not_names h, fun act s' => step_answered h.wf,
    fun t => ⟨fun ht n => ⟨?_, ?_⟩, fun a n ht => ?_⟩⟩
  · obtain ⟨e, he⟩ := Linked.lookup h.wf.chain (mem_of_eventOf hn)
    have hn' : eventOf l s.ev n = some a := by rw [hnames, hn]
    have hok := h.ok n a hn' e he
    have hnn := (h.value a (mem_of_eventOf hn) e he).1
    have hbal := h.balance hn' he
    have hnn₀ := (h₀.event a (mem_of_eventOf hn) e₀ he₀).1
    have hinitial : (s.hist n).initial = e₀.value.toNat := by
      rw [hsince.initial n, h₀.hist n a hn e₀ he₀]
    refine ⟨e, he, hnn, by omega, fun hp => ?_, hok.fifo⟩
    have hz : e.value.toNat = 0 := hok.idle hp
    omega
  · obtain ⟨s', hs', -⟩ := step_wait h.wf ht n
    rw [hs']
    rfl
  · obtain ⟨s', hs', -⟩ := step_signal h.wf ht n
    rw [hs']
    rfl
  · obtain ⟨e, he⟩ := Linked.lookup h.wf.chain (mem_of_eventOf (h.named t a n (.inr ht)))
    obtain ⟨s', hs', -⟩ := step_back (l := l) ht he
    rw [hs']
    rfl

/-- Two events, with one unit and with none. -/
def twoEvents : Sys where
  ev := { (Events.init.store 8 ⟨2, 1, [], some 16⟩).store 16 ⟨4, 0, [], none⟩ with
    lpmyeventHead := some 8, lpmyeventEnd := some 16 }
  task := fun _ => .running
  ret := fun _ => 0
  hist := fun n => { initial := if n = 2 then 1 else 0 }

theorem twoEvents_ready : Ready [8, 16] twoEvents := by
  have hlookup : ∀ a ∈ [8, 16], ∀ e, twoEvents.ev.mem.lookup a = some e →
      a = 8 ∧ e = ⟨2, 1, [], some 16⟩ ∨ a = 16 ∧ e = ⟨4, 0, [], none⟩ := by
    intro a ha e he
    rcases List.mem_cons.mp ha with rfl | ha
    · exact .inl ⟨rfl, (Option.some.inj he).symm⟩
    · obtain rfl := List.mem_singleton.mp ha
      exact .inr ⟨rfl, (Option.some.inj he).symm⟩
  refine ⟨⟨⟨rfl, _, rfl, rfl, _, rfl, rfl⟩, rfl⟩, fun a ha e he => ?_, fun n a hn e he => ?_,
    fun _ => rfl⟩
  · obtain ⟨-, rfl⟩ | ⟨-, rfl⟩ := hlookup a ha e he
    · exact ⟨by decide, by decide, rfl⟩
    · exact ⟨by decide, by decide, rfl⟩
  · have hnum := num_of_eventOf hn
    obtain ⟨rfl, rfl⟩ | ⟨rfl, rfl⟩ := hlookup a (mem_of_eventOf hn) e he
    · obtain rfl : (2 : ℤ) = n := Option.some.inj hnum
      rfl
    · obtain rfl : (4 : ℤ) = n := Option.some.inj hnum
      rfl

/-- Two tasks wait for the one unit of the first event, and a third signals it until it has one
again; the task that was woken goes on, and waits for the second event. -/
theorem fifo_semaphore_twoEvents :
    ∃ s, run step twoEvents
        [.wait 1 2, .wait 2 2, .signal 3 2, .signal 3 2, .back 2, .wait 2 4] = some s ∧
      Conforms [8, 16] twoEvents s := by
  have hsome : (run step twoEvents
      [.wait 1 2, .wait 2 2, .signal 3 2, .signal 3 2, .back 2, .wait 2 4]).isSome := by decide
  obtain ⟨s, hs⟩ := Option.isSome_iff_exists.mp hsome
  exact ⟨s, hs, fifo_semaphore twoEvents_ready (by decide) hs⟩

end LinuxHomework.Event.Fifo
