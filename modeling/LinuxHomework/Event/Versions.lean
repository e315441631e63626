import LinuxHomework.Event.Contents
import LinuxHomework.Event.Fifo
import LinuxHomework.Event.Original

/-! # Tasks on either version of the event calls

A `Version` is the open, wait and signal of the original `6/kernel/myevent.c` or of the modified
one, events being opened with value 0. Tasks make these calls, each call running without
interruption up to `schedule()`; a sleeping task goes on only after it has been woken.

* `exec`, `step`: what a call answers, and the state after it.
* `Inv`: the list is in order, and the queue of a node holds exactly the tasks that sleep on it. The
  lemmas `Inv.sleep`, `Inv.wake`, `Inv.back` and `Inv.open` serve both versions.
* `original_step`: the original calls keep the invariant. -/

namespace LinuxHomework.Event.Versions

open LinuxHomework.Lib.Chain LinuxHomework.Lib.Runs
open LinuxHomework.Event.Nodes LinuxHomework.Event.EventList LinuxHomework.Event.Contents
open LinuxHomework.Event.Fifo (Status)

/-! ### The system -/

/-- The calls of a version. -/
structure Version where
  sysOpen : Events → ℤ → Option (Addr × Myevent) → Except Fault (ℤ × Events)
  sysWait : Events → Task → ℤ → Except Fault ((ℤ ⊕ Addr) × Events)
  sysWaitBack : Events → Task → Addr → ℤ → Except Fault (ℤ × Events)
  sysSignal : Events → ℤ → Except Fault (ℤ × List Task × Events)

/-- `6/kernel/myevent.c`. -/
def original : Version :=
  ⟨Original.sysMyeventOpen, Original.sysMyeventWait, Original.sysMyeventWaitBack,
    Original.sysMyeventSignal⟩

/-- `6/kernel/modified/myevent.c`, with value 0. -/
def modified : Version :=
  ⟨fun s n k => sysMyeventOpen s n 0 k, sysMyeventWait, sysMyeventWaitBack, sysMyeventSignal⟩

/-- The events, and where the tasks are. -/
structure Sys where
  ev : Events
  task : Task → Status

def start : Sys := ⟨Events.init, fun _ => .running⟩

/-- A task calls, or goes on after it was woken. `κ` is the type of `kmalloc`'s answers. -/
inductive Act (κ : Type)
  | sysOpen (t : Task) (eventNum : ℤ) (kmalloc : κ)
  | wait (t : Task) (eventNum : ℤ)
  | signal (t : Task) (eventNum : ℤ)
  | back (t : Task)

/-- `kmalloc` fails, or hands out memory at an address, with what it contained before. -/
abbrev Answer := Option (Addr × Myevent)

namespace Act

/-- The same action with another answer of `kmalloc`. -/
def map {κ κ' : Type} (f : κ → κ') : Act κ → Act κ'
  | sysOpen t n k => sysOpen t n (f k)
  | wait t n => wait t n
  | signal t n => signal t n
  | back t => back t

/-- The task is outside the calls, or woken and about to go on. -/
def Ready {κ : Type} (task : Task → Status) : Act κ → Prop
  | sysOpen t _ _ | wait t _ | signal t _ => task t = .running
  | back t => ∃ a n, task t = .woken a n

/-- The allocator hands out only memory that is not in use. -/
def Possible (s : Events) : Act Answer → Prop
  | sysOpen _ _ (some (a, _)) => a ∉ s.mem
  | _ => True

instance (s : Events) : (c : Act Answer) → Decidable (c.Possible s)
  | sysOpen _ _ (some (a, _)) => inferInstanceAs (Decidable (a ∉ s.mem))
  | sysOpen _ _ none | wait .. | signal .. | back _ => inferInstanceAs (Decidable True)

end Act

/-- What the outside sees of an action: the value returned and the tasks woken, or that the caller
is blocked. -/
inductive Reply
  | returned (v : ℤ) (woken : List Task)
  | blocked

/-- The tasks after `wake_up` of `woken`. -/
def wakeAll (task : Task → Status) (woken : List Task) : Task → Status := fun t =>
  if t ∈ woken then Fifo.wake task t t else task t

/-- An action, if the task can take it. -/
def exec (V : Version) (s : Sys) : Act Answer → Option (Except Fault (Reply × Sys))
  | .sysOpen t n k =>
    if s.task t = .running then
      some ((V.sysOpen s.ev n k).map fun r => (.returned r.1 [], { s with ev := r.2 }))
    else none
  | .wait t n =>
    if s.task t = .running then
      some ((V.sysWait s.ev t n).map fun r =>
        match r.1 with
        | .inl v => (.returned v [], { s with ev := r.2 })
        | .inr a => (.blocked, ⟨r.2, Function.update s.task t (.asleep a n)⟩))
    else none
  | .signal t n =>
    if s.task t = .running then
      some ((V.sysSignal s.ev n).map fun r =>
        (.returned r.1 r.2.1, ⟨r.2.2, wakeAll s.task r.2.1⟩))
    else none
  | .back t =>
    match s.task t with
    | .woken a n =>
      some ((V.sysWaitBack s.ev t a n).map fun r =>
        (.returned r.1 [], ⟨r.2, Function.update s.task t .running⟩))
    | _ => none

/-- One step of a version. Nothing follows a call that went wrong. -/
def step (V : Version) (x : Except Fault Sys) (c : Act Answer) : Option (Except Fault Sys) :=
  match x with
  | .error _ => none
  | .ok s => if c.Possible s.ev then (exec V s c).map fun r => r.map Prod.snd else none

/-! ### What an action answers -/

section Exec
variable {V : Version} {s s' s₁ : Sys} {t : Task} {n v : ℤ} {a : Addr} {ev : Events}

theorem exec_open {k : Answer} (ht : s.task t = .running)
    (h : V.sysOpen s.ev n k = .ok (v, ev)) :
    exec V s (.sysOpen t n k) = some (.ok (.returned v [], { s with ev })) := by
  simp only [exec, ht, if_true, h]
  rfl

theorem exec_wait_returned (ht : s.task t = .running)
    (h : V.sysWait s.ev t n = .ok (.inl v, ev)) :
    exec V s (.wait t n) = some (.ok (.returned v [], { s with ev })) := by
  simp only [exec, ht, if_true, h]
  rfl

theorem exec_wait_blocked (ht : s.task t = .running)
    (h : V.sysWait s.ev t n = .ok (.inr a, ev)) :
    exec V s (.wait t n) =
      some (.ok (.blocked, ⟨ev, Function.update s.task t (.asleep a n)⟩)) := by
  simp only [exec, ht, if_true, h]
  rfl

theorem exec_signal {woken : List Task} (ht : s.task t = .running)
    (h : V.sysSignal s.ev n = .ok (v, woken, ev)) :
    exec V s (.signal t n) = some (.ok (.returned v woken, ⟨ev, wakeAll s.task woken⟩)) := by
  simp only [exec, ht, if_true, h]
  rfl

theorem exec_back (ht : s.task t = .woken a n)
    (h : V.sysWaitBack s.ev t a n = .ok (v, ev)) :
    exec V s (.back t) =
      some (.ok (.returned v [], ⟨ev, Function.update s.task t .running⟩)) := by
  simp only [exec, ht, h]
  rfl

/-- An action can be taken exactly when its task is ready for it. -/
theorem exec_isSome {c : Act Answer} : (exec V s c).isSome ↔ c.Ready s.task := by
  cases c with
  | sysOpen t n k => simp [exec, Act.Ready]
  | wait t n => simp [exec, Act.Ready]
  | signal t n => simp [exec, Act.Ready]
  | back t => cases ht : s.task t <;> simp [exec, Act.Ready, ht]

theorem step_ok {c : Act Answer} {r : Reply} (h : exec V s c = some (.ok (r, s₁)))
    (hstep : step V (.ok s) c = some (.ok s')) : s' = s₁ := by
  simp only [step] at hstep
  split_ifs at hstep
  rw [h] at hstep
  exact (Except.ok.inj (Option.some.inj hstep)).symm

end Exec

/-! ### The invariant -/

/-- **The invariant**: the list is in order, every queue holds exactly the tasks that sleep on its
node, and nobody is inside a call with a node that is not on the list. -/
structure Inv (s : Sys) (l : List Addr) : Prop where
  wf : WfList s.ev l
  nodup : ∀ a ∈ l, ∀ e, s.ev.mem.lookup a = some e → e.p.Nodup
  queue : ∀ a ∈ l, ∀ e, s.ev.mem.lookup a = some e → ∀ t, t ∈ e.p ↔ ∃ n, s.task t = .asleep a n
  node : ∀ t a n, s.task t = .asleep a n ∨ s.task t = .woken a n → a ∈ l

variable {s s' : Sys} {l : List Addr} {a b : Addr} {e e' : Myevent} {t : Task} {n v number : ℤ}

theorem inv_start : Inv start [] where
  wf := wfList_init
  nodup := by simp
  queue := by simp
  node := by simp [start]

theorem wakeAll_nil (task : Task → Status) : wakeAll task [] = task := by
  funext t
  simp [wakeAll]

/-- Who is asleep after a wake-up. -/
theorem wakeAll_asleep {task : Task → Status} {woken : List Task} :
    wakeAll task woken t = .asleep a n ↔ t ∉ woken ∧ task t = .asleep a n := by
  unfold wakeAll Fifo.wake
  by_cases ht : t ∈ woken
  · cases htask : task t <;> simp [ht, htask]
  · simp [ht]

/-- A wake-up leads no task to another node. -/
theorem wakeAll_node {task : Task → Status} {woken : List Task}
    (h : wakeAll task woken t = .asleep a n ∨ wakeAll task woken t = .woken a n) :
    task t = .asleep a n ∨ task t = .woken a n := by
  unfold wakeAll Fifo.wake at h
  by_cases ht : t ∈ woken
  · cases htask : task t <;> simp_all
  · simpa [ht] using h

section Moves
variable (h : Inv s l)
include h

/-- **Writing one node** keeps the invariant, if its new queue holds the tasks that sleep there. -/
theorem Inv.store {task : Task → Status} (ha : s.ev.mem.lookup a = some e)
    (hnext : e'.next = e.next) (hnd : e'.p.Nodup) (hq : ∀ t, t ∈ e'.p ↔ ∃ n, task t = .asleep a n)
    (hother : ∀ b, b ≠ a → ∀ t n, task t = .asleep b n ↔ s.task t = .asleep b n)
    (hnode : ∀ t b n, task t = .asleep b n ∨ task t = .woken b n → b ∈ l) :
    Inv ⟨s.ev.store a e', task⟩ l := by
  refine ⟨h.wf.congr (nx_store_same ha hnext) rfl rfl, fun b hb eb heb => ?_,
    fun b hb eb heb t => ?_, hnode⟩
  · by_cases hba : b = a
    · subst hba
      obtain rfl : e' = eb := Option.some.inj (lookup_store.symm.trans heb)
      exact hnd
    · exact h.nodup b hb eb ((lookup_store_ne hba).symm.trans heb)
  · by_cases hba : b = a
    · subst hba
      obtain rfl : e' = eb := Option.some.inj (lookup_store.symm.trans heb)
      exact hq t
    · rw [h.queue b hb eb ((lookup_store_ne hba).symm.trans heb) t]
      exact exists_congr fun n => (hother b hba t n).symm

theorem Inv.notMem (ht : ∀ m, s.task t ≠ .asleep a m) (hal : a ∈ l)
    (ha : s.ev.mem.lookup a = some e) : t ∉ e.p := fun hmem => by
  obtain ⟨m, hm⟩ := (h.queue a hal e ha t).mp hmem
  exact ht m hm

/-- A task goes to sleep on a node, at either end of its queue. -/
theorem Inv.sleep (hal : a ∈ l) (ha : s.ev.mem.lookup a = some e) (hnext : e'.next = e.next)
    (ht : s.task t = .running) (hp : e'.p.Perm (t :: e.p)) (n : ℤ) :
    Inv ⟨s.ev.store a e', Function.update s.task t (.asleep a n)⟩ l := by
  have htp : t ∉ e.p := h.notMem (by simp [ht]) hal ha
  refine h.store ha hnext ?_ (fun u => ?_) (fun b hba u m => ?_) (fun u b m hu => ?_)
  · exact hp.nodup_iff.mpr (List.nodup_cons.mpr ⟨htp, h.nodup a hal e ha⟩)
  · rw [hp.mem_iff, List.mem_cons, h.queue a hal e ha u]
    by_cases hut : u = t
    · simp [hut]
    · simp [hut]
  · by_cases hut : u = t
    · simp [hut, ht, Ne.symm hba]
    · simp [hut]
  · by_cases hut : u = t
    · subst hut
      rcases hu with hu | hu
      · simp only [Function.update_self, Status.asleep.injEq] at hu
        exact hu.1 ▸ hal
      · simp at hu
    · rw [Function.update_of_ne hut] at hu
      exact h.node u b m hu

/-- The tasks `woken` are taken off the queue of a node. -/
theorem Inv.wake {woken : List Task} (hal : a ∈ l) (ha : s.ev.mem.lookup a = some e)
    (hnext : e'.next = e.next) (hp : e.p.Perm (woken ++ e'.p)) :
    Inv ⟨s.ev.store a e', wakeAll s.task woken⟩ l := by
  obtain ⟨-, hnd, hdisj⟩ := List.nodup_append.mp (hp.nodup_iff.mp (h.nodup a hal e ha))
  have hwoken : ∀ u ∈ woken, ∃ m, s.task u = .asleep a m := fun u hu =>
    (h.queue a hal e ha u).mp (hp.mem_iff.mpr (List.mem_append_left _ hu))
  refine h.store ha hnext hnd (fun u => ?_) (fun b hba u m => ?_) (fun u b m hu => ?_)
  · have hmem := h.queue a hal e ha u
    rw [hp.mem_iff, List.mem_append] at hmem
    constructor
    · intro hu
      obtain ⟨m, hm⟩ := hmem.mp (Or.inr hu)
      exact ⟨m, wakeAll_asleep.mpr ⟨fun huw => hdisj u huw u hu rfl, hm⟩⟩
    · rintro ⟨m, hm⟩
      obtain ⟨hnot, hm⟩ := wakeAll_asleep.mp hm
      exact (hmem.mpr ⟨m, hm⟩).resolve_left hnot
  · rw [wakeAll_asleep]
    refine and_iff_right_of_imp fun hm huw => ?_
    obtain ⟨k, hk⟩ := hwoken u huw
    rw [hm] at hk
    exact hba (Status.asleep.inj hk).1
  · exact h.node u b m (wakeAll_node hu)

/-- A woken task goes on. -/
theorem Inv.back (ht : s.task t = .woken a n) (ha : s.ev.mem.lookup a = some e) :
    Inv ⟨s.ev.store a { e with p := e.p.erase t }, Function.update s.task t .running⟩ l := by
  have hal := h.node t a n (Or.inr ht)
  have htp : t ∉ e.p := h.notMem (by simp [ht]) hal ha
  -- `wake_up` has already taken the task off the queue
  rw [List.erase_of_not_mem htp]
  refine h.store ha rfl (h.nodup a hal e ha) (fun u => ?_) (fun b _ u m => ?_) (fun u b m hu => ?_)
  · by_cases hut : u = t
    · simpa [hut] using htp
    · simp [hut, h.queue a hal e ha u]
  · by_cases hut : u = t
    · simp [hut, ht]
    · simp [hut]
  · by_cases hut : u = t
    · simp [hut] at hu
    · rw [Function.update_of_ne hut] at hu
      exact h.node u b m hu

/-- A new event is opened. -/
theorem Inv.open {raw : Myevent} {ev : Events} (ha : a ∉ s.ev.mem)
    (he : sysMyeventOpen s.ev 0 v (some (a, raw)) = .ok (number, ev)) :
    Inv ⟨ev, s.task⟩ (l ++ [a]) := by
  obtain ⟨number', ev', he', hwf⟩ := open_new_spec h.wf v raw ha
  obtain ⟨rfl, rfl⟩ := Prod.mk.inj (Except.ok.inj (he.symm.trans he'))
  obtain ⟨hnew, hold, -⟩ := open_new_core h.wf ha he
  have hal : a ∉ l := fun hmem => by
    obtain ⟨x, hx⟩ := Linked.lookup h.wf.chain hmem
    exact ha (AList.lookup_isSome.mp (by rw [hx]; rfl))
  -- the queue of a node after the open
  have hqueue : ∀ b ∈ l ++ [a], ∀ x, ev.mem.lookup b = some x →
      (b = a ∧ x.p = []) ∨ b ∈ l ∧ ∃ y, s.ev.mem.lookup b = some y ∧ y.p = x.p := by
    intro b hb x hx
    have hcore := core_of_lookup hx
    by_cases hba : b = a
    · subst hba
      rw [hnew] at hcore
      simp only [Option.some.injEq, Prod.mk.injEq] at hcore
      exact Or.inl ⟨rfl, hcore.2.2.symm⟩
    · rw [hold b hba] at hcore
      obtain ⟨y, hy, heq⟩ := core_eq_some.mp hcore
      simp only [Prod.mk.injEq] at heq
      refine Or.inr ⟨?_, y, hy, heq.2.2⟩
      rcases List.mem_append.mp hb with hb | hb
      · exact hb
      · exact absurd (List.mem_singleton.mp hb) hba
  refine ⟨hwf, fun b hb x hx => ?_, fun b hb x hx t => ?_, fun t b n ht =>
    List.mem_append_left _ (h.node t b n ht)⟩
  · rcases hqueue b hb x hx with ⟨-, hp⟩ | ⟨hbl, y, hy, hp⟩
    · rw [hp]
      exact List.nodup_nil
    · rw [← hp]
      exact h.nodup b hbl y hy
  · rcases hqueue b hb x hx with ⟨rfl, hp⟩ | ⟨hbl, y, hy, hp⟩
    · rw [hp]
      refine iff_of_false (by simp) ?_
      rintro ⟨n, hn⟩
      exact hal (h.node t b n (Or.inl hn))
    · rw [← hp]
      exact h.queue b hbl y hy t

end Moves

/-! ### The original calls -/

/-- A step is taken by a task that is ready for it. -/
theorem step_ready {V : Version} {x : Except Fault Sys} {c : Act Answer}
    (hstep : step V (.ok s) c = some x) : c.Possible s.ev ∧ c.Ready s.task := by
  simp only [step] at hstep
  split_ifs at hstep with hposs
  obtain ⟨r, hexec, -⟩ := Option.map_eq_some_iff.mp hstep
  exact ⟨hposs, exec_isSome.mp (by rw [hexec]; rfl)⟩

/-- **Every original call** keeps the invariant. -/
theorem original_step {c : Act Answer} (h : Inv s l)
    (hstep : step original (.ok s) c = some (.ok s')) : ∃ l', Inv s' l' := by
  obtain ⟨hposs, ht⟩ := step_ready hstep
  cases c with
  | sysOpen t n k =>
    replace ht : s.task t = .running := ht
    by_cases hn : n = 0
    · subst hn
      rcases k with _ | ⟨a, raw⟩
      · simp [step, exec, original, Original.sysMyeventOpen, Except.map] at hstep
      · obtain ⟨number, ev, he, -⟩ := open_new_spec h.wf raw.value raw hposs
        have ho : original.sysOpen s.ev 0 (some (a, raw)) = .ok (number, ev) := by
          rw [← he]
          exact Original.open_eq s.ev 0 (some (a, raw))
        obtain rfl := step_ok (exec_open ht ho) hstep
        exact ⟨_, h.open hposs he⟩
    · obtain ⟨number, he⟩ := open_found_spec h.wf hn (k.elim 0 fun x => x.2.value) k
      have ho : original.sysOpen s.ev n k = .ok (number, s.ev) :=
        (Original.open_eq _ _ _).trans he
      obtain rfl := step_ok (exec_open ht ho) hstep
      exact ⟨l, h⟩
  | wait t n =>
    obtain ⟨⟨_ | a, prev⟩, hs, -⟩ := scheventNum_spec h.wf.chain n
    · obtain rfl := step_ok (exec_wait_returned ht (Original.wait_none_eq hs)) hstep
      exact ⟨l, h⟩
    · obtain ⟨hal, hnum⟩ := find_some h.wf hs
      obtain ⟨e, he, -⟩ := num_eq_some.mp hnum
      obtain rfl := step_ok (exec_wait_blocked ht (Original.wait_sleep_eq hs he)) hstep
      exact ⟨l, h.sleep hal he (by rfl) ht (.refl _) n⟩
  | signal t n =>
    obtain ⟨⟨_ | a, prev⟩, hs, -⟩ := scheventNum_spec h.wf.chain n
    · obtain rfl := step_ok (exec_signal ht (Original.signal_none_eq hs)) hstep
      rw [wakeAll_nil]
      exact ⟨l, h⟩
    · obtain ⟨hal, hnum⟩ := find_some h.wf hs
      obtain ⟨e, he, -⟩ := num_eq_some.mp hnum
      obtain rfl := step_ok (exec_signal ht (Original.signal_some_eq hs he)) hstep
      exact ⟨l, h.wake hal he rfl (by simp)⟩
  | back t =>
    obtain ⟨a, n, ht⟩ := ht
    obtain ⟨e, he⟩ := Linked.lookup h.wf.chain (h.node t a n (Or.inr ht))
    obtain rfl := step_ok (exec_back ht (Original.back_eq he)) hstep
    exact ⟨l, h.back ht he⟩

end LinuxHomework.Event.Versions
