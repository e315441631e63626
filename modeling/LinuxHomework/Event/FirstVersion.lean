import LinuxHomework.Event.Versions
import LinuxHomework.Lib.Counting

/-! # The first semaphore version, `6/kernel/snippt.c`

A wait that finds a unit takes it and returns 0, a wait that finds none sleeps as in the original
version, and a signal adds a unit and wakes everybody who sleeps. The runs are those of waits and
signals on one open event. The waits that have got through are counted, whether they took a unit or
were woken, and so are the signals.

* `conserved`: no more waits get through than there are units, and none of them returns 0, in the
  runs in which no wait finds a unit and no signal finds more than one sleeper (`Careful`).
* `careless`: a run that leaves these, before the value is too large for an `int`, comes to a state
  in which units are not conserved, if only the tasks that were woken go on.
* `doubled`: a signal lets a sleeper through, and then a second wait. -/

namespace LinuxHomework.Event.FirstVersion

open LinuxHomework.Lib.CInt LinuxHomework.Lib.Counting LinuxHomework.Lib.Runs
open LinuxHomework.Event.Nodes LinuxHomework.Event.Versions
open LinuxHomework.Event.Fifo (Status)

/-! ### The calls -/

/-- `sys_myevent_wait` up to `schedule()`: `some r` if it returns `r` at once, and otherwise the
node on whose queue the task now sleeps. -/
def sysMyeventWait (s : Events) (current : Task) (eventNum : ℤ) :
    Except Fault ((ℤ ⊕ Addr) × Events) := do
  let (tmp, _) ← scheventNum s eventNum
  match tmp with
  | none => return (.inl 0, s)
  | some a =>
    let e ← s.deref (some a)
    if e.value > 0 then
      return (.inl 0, s.store a { e with value := wrap32 (e.value - 1) })
    else
      return (.inr a, s.store a { e with p := current :: e.p })

/-- `sys_myevent_signal`: the number returned, the tasks woken, and the new state. `wake_up` takes
every waiter that is not exclusive off the queue. -/
def sysMyeventSignal (s : Events) (eventNum : ℤ) : Except Fault (ℤ × List Task × Events) := do
  let (tmp, _) ← scheventNum s eventNum
  match tmp with
  | none => return (0, [], s)
  | some a =>
    let e ← s.deref (some a)
    return (eventNum, e.p, s.store a { e with value := wrap32 (e.value + 1), p := [] })

/-! ### Runs on one event -/

/-- The events, the tasks, the number of signals, the number of waits that have got through, and
whether one of these has returned 0. -/
structure Sys where
  ev : Events
  task : Task → Status
  signals : ℕ
  through : ℕ
  zero : Bool

/-- The call of a task, or a task that was woken goes on. -/
inductive Act
  | wait (t : Task)
  | signal (t : Task)
  | back (t : Task)
deriving DecidableEq

/-- A wait gets through and returns `r`. -/
def Sys.pass (s : Sys) (r : ℤ) : Sys :=
  { s with through := s.through + 1, zero := s.zero || r = 0 }

/-- An action on the event `n`, if the task can take it. -/
def exec (n : ℤ) (s : Sys) : Act → Option (Except Fault Sys)
  | .wait t =>
    if s.task t = .running then
      some ((sysMyeventWait s.ev t n).map fun r =>
        match r.1 with
        | .inl v => { s with ev := r.2 }.pass v
        | .inr a => { s with ev := r.2, task := Function.update s.task t (.asleep a n) })
    else none
  | .signal t =>
    if s.task t = .running then
      some ((sysMyeventSignal s.ev n).map fun r =>
        { s with ev := r.2.2, task := wakeAll s.task r.2.1, signals := s.signals + 1 })
    else none
  | .back t =>
    match s.task t with
    | .woken a m =>
      some ((Original.sysMyeventWaitBack s.ev t a m).map fun r =>
        { s with ev := r.2, task := Function.update s.task t .running }.pass r.1)
    | _ => none

/-- One step. Nothing follows a call that went wrong. -/
def step (n : ℤ) : Except Fault Sys → Act → Option (Except Fault Sys)
  | .error _, _ => none
  | .ok s, c => exec n s c

/-- The only node is at `a`. -/
def single (a : Addr) (e : Myevent) : Events := ⟨AList.singleton a e, some a, some a⟩

/-- The event `n` has been opened with value `v`. -/
def start (a : Addr) (n v : ℤ) : Except Fault Sys :=
  .ok ⟨single a ⟨n, v, [], none⟩, fun _ => .running, 0, 0, false⟩

/-- **Units are conserved**: no more waits have got through than units were there, and none of them
has returned the value that means that there is no such event. -/
def Conserved (v : ℤ) (x : Except Fault Sys) : Prop :=
  ∃ s, x = .ok s ∧ (s.through : ℤ) ≤ v + s.signals ∧ s.zero = false

/-- What a step must not do: wait for a unit that is there, or signal when more than one task
sleeps. -/
def Careful (a : Addr) : Except Fault Sys → Act → Prop
  | .error _, _ => True
  | .ok s, .wait _ => ∀ e ∈ s.ev.mem.lookup a, e.value ≤ 0
  | .ok s, .signal _ => ∀ e ∈ s.ev.mem.lookup a, e.p.length ≤ 1
  | .ok _, .back _ => True

instance (a : Addr) : (x : Except Fault Sys) → (c : Act) → Decidable (Careful a x c)
  | .error _, _ | .ok _, .back _ => isTrue trivial
  | .ok s, .wait _ => inferInstanceAs (Decidable (∀ e ∈ s.ev.mem.lookup a, e.value ≤ 0))
  | .ok s, .signal _ => inferInstanceAs (Decidable (∀ e ∈ s.ev.mem.lookup a, e.p.length ≤ 1))

variable {a : Addr} {n m v value : ℤ} {p : List Task} {e e' : Myevent} {s s' : Sys} {t u : Task}
  {c : Act} {cs : List Act} {x x' : Except Fault Sys} {w : ℕ}

@[simp] theorem lookup_single : (single a e).mem.lookup a = some e := by
  unfold single
  rw [← AList.insert_empty, AList.lookup_insert]

@[simp] theorem store_single : (single a e).store a e' = single a e' := by
  simp only [single, Events.store]
  congr 1
  refine AList.ext ?_
  simp

theorem scheventNum_single (h : e.eventNum = n) : scheventNum (single a e) n = .ok (some a, none) := by
  have hkeys : (single a e).mem.keys.length = 1 := rfl
  have hhead : (single a e).lpmyeventHead = some a := rfl
  rw [scheventNum, hkeys, hhead, search, deref_some lookup_single]
  simp [bind, Except.bind, h, pure, Except.pure]

/-! ### The calls on the event -/

theorem wait_take (hv : 0 < value) :
    sysMyeventWait (single a ⟨n, value, p, none⟩) t n =
      .ok (.inl 0, single a ⟨n, wrap32 (value - 1), p, none⟩) := by
  unfold sysMyeventWait
  rw [scheventNum_single rfl]
  simp [bind, Except.bind, deref_some lookup_single, hv, pure, Except.pure]

theorem wait_sleep (hv : ¬ 0 < value) :
    sysMyeventWait (single a ⟨n, value, p, none⟩) t n =
      .ok (.inr a, single a ⟨n, value, t :: p, none⟩) := by
  unfold sysMyeventWait
  rw [scheventNum_single rfl]
  simp [bind, Except.bind, deref_some lookup_single, hv, pure, Except.pure]

theorem signal_eq :
    sysMyeventSignal (single a ⟨n, value, p, none⟩) n =
      .ok (n, p, single a ⟨n, wrap32 (value + 1), [], none⟩) := by
  unfold sysMyeventSignal
  rw [scheventNum_single rfl]
  simp [bind, Except.bind, deref_some lookup_single, pure, Except.pure]

theorem back_eq (ht : t ∉ p) :
    Original.sysMyeventWaitBack (single a ⟨n, value, p, none⟩) t a n =
      .ok (n, single a ⟨n, value, p, none⟩) := by
  rw [Original.back_eq lookup_single, store_single, List.erase_of_not_mem ht]

/-! ### The invariant -/

/-- A task that was woken and has not gone on yet. -/
def Woken (k : Status) : Prop := ∃ a n, k = .woken a n

/-- **The event of a run**: its value is `value`, and the tasks `p` sleep on it. -/
structure At (a : Addr) (n : ℤ) (s : Sys) (value : ℤ) (p : List Task) : Prop where
  ev : s.ev = single a ⟨n, value, p, none⟩
  nodup : p.Nodup
  asleep : ∀ t, t ∈ p ↔ s.task t = .asleep a n
  node : ∀ t b m, s.task t = .asleep b m ∨ s.task t = .woken b m → b = a ∧ m = n

/-- **The invariant** of a careful run: the waits that have got through and those that will are no
more than the signals; and, as long as the value fits an `int`, nobody sleeps while there are
units. -/
structure Inv (a : Addr) (n v : ℤ) (s : Sys) (value : ℤ) (p : List Task) : Prop where
  event : At a n s value p
  count : ∃ w, Census Woken s.task w ∧ s.through + w ≤ s.signals
  zero : s.zero = false
  units : v + s.signals < 2 ^ 31 → value = v + s.signals ∧ (p ≠ [] → v + s.signals ≤ 0)

instance : DecidablePred Woken := fun k =>
  match k with
  | .woken a n => isTrue ⟨a, n, rfl⟩
  | .running | .asleep .. => isFalse nofun

theorem At.notMem (h : At a n s value p) (ht : s.task t = .running ∨ s.task t = .woken a n) :
    t ∉ p := by
  intro hmem
  have := (h.asleep t).mp hmem
  rcases ht with ht | ht <;> rw [ht] at this <;> cases this

/-- A wait that sleeps. -/
theorem At.wait (h : At a n s value p) (ht : s.task t = .running) (hv : value ≤ 0) :
    ∃ s', exec n s (.wait t) = some (.ok s') ∧ At a n s' value (t :: p) ∧
      s'.task = Function.update s.task t (.asleep a n) ∧ s'.signals = s.signals ∧
      s'.through = s.through ∧ s'.zero = s.zero := by
  refine ⟨{ s with
    ev := single a ⟨n, value, t :: p, none⟩, task := Function.update s.task t (.asleep a n) },
    ?_, ⟨rfl, ?_, fun u => ?_, fun u b m hu => ?_⟩, rfl, rfl, rfl, rfl⟩
  · rw [exec, if_pos ht, h.ev, wait_sleep (by omega)]
    rfl
  · exact List.nodup_cons.mpr ⟨h.notMem (Or.inl ht), h.nodup⟩
  · rw [List.mem_cons, h.asleep u]
    by_cases hut : u = t
    · simp [hut]
    · simp [hut]
  · by_cases hut : u = t
    · simp only [hut, Function.update_self, Status.asleep.injEq, reduceCtorEq, or_false] at hu
      exact ⟨hu.1.symm, hu.2.symm⟩
    · exact h.node u b m (by simpa [hut] using hu)

/-- A wait that finds a unit returns 0. -/
theorem At.take (h : At a n s value p) (ht : s.task t = .running) (hv : 0 < value) :
    ∃ s', exec n s (.wait t) = some (.ok s') ∧ s'.zero = true := by
  refine ⟨{ s with ev := single a ⟨n, wrap32 (value - 1), p, none⟩ }.pass 0, ?_, ?_⟩
  · rw [exec, if_pos ht, h.ev, wait_take hv]
    rfl
  · simp [Sys.pass]

/-- A signal wakes everybody. -/
theorem At.signal (h : At a n s value p) (ht : s.task t = .running) :
    ∃ s', exec n s (.signal t) = some (.ok s') ∧ At a n s' (wrap32 (value + 1)) [] ∧
      s'.task = wakeAll s.task p ∧ s'.signals = s.signals + 1 ∧ s'.through = s.through ∧
      s'.zero = s.zero := by
  refine ⟨{ s with
    ev := single a ⟨n, wrap32 (value + 1), [], none⟩, task := wakeAll s.task p,
    signals := s.signals + 1 }, ?_, ⟨rfl, List.nodup_nil, fun u => ?_, fun u b m hu => ?_⟩,
    rfl, rfl, rfl, rfl⟩
  · rw [exec, if_pos ht, h.ev, signal_eq]
    rfl
  · refine iff_of_false (by simp) fun hu => ?_
    obtain ⟨hnot, hasleep⟩ := wakeAll_asleep.mp hu
    exact hnot ((h.asleep u).mpr hasleep)
  · exact h.node u b m (wakeAll_node hu)

/-- A task that was woken goes on. -/
theorem At.back (h : At a n s value p) (ht : s.task t = .woken a n) (hn : n ≠ 0) :
    ∃ s', exec n s (.back t) = some (.ok s') ∧ At a n s' value p ∧
      s'.task = Function.update s.task t .running ∧ s'.signals = s.signals ∧
      s'.through = s.through + 1 ∧ s'.zero = s.zero := by
  refine ⟨{ s with
    ev := single a ⟨n, value, p, none⟩, task := Function.update s.task t .running }.pass n, ?_,
    ⟨rfl, h.nodup, fun u => ?_, fun u b m hu => ?_⟩, rfl, rfl, rfl, by simp [Sys.pass, hn]⟩
  · simp only [exec, ht]
    rw [h.ev, back_eq (h.notMem (Or.inr ht))]
    rfl
  · rw [h.asleep u]
    by_cases hut : u = t
    · simp [Sys.pass, hut, ht]
    · simp [Sys.pass, hut]
  · by_cases hut : u = t
    · simp [Sys.pass, hut] at hu
    · exact h.node u b m (by simpa [Sys.pass, hut] using hu)

/-- The wake-up of a single sleeper. -/
theorem wakeAll_single {task : Task → Status} (ht : task t = .asleep a n) :
    wakeAll task [t] = Function.update task t (.woken a n) := by
  funext u
  by_cases hut : u = t
  · simp [wakeAll, Fifo.wake, hut, ht]
  · simp [wakeAll, hut]

/-- A sleeper is woken by a wake-up. -/
theorem wakeAll_woken {task : Task → Status} (ht : task t = .asleep a n) (hmem : t ∈ p) :
    wakeAll task p t = .woken a n := by
  simp [wakeAll, hmem, Fifo.wake, ht]

/-! ### Careful runs -/

/-- The invariant holds in a state of the run. -/
def Kept (a : Addr) (n v : ℤ) (x : Except Fault Sys) : Prop :=
  ∃ s value p, x = .ok s ∧ Inv a n v s value p

theorem kept_start (a : Addr) (n v : ℤ) : Kept a n v (start a n v) := by
  refine ⟨_, v, [], rfl, ⟨rfl, List.nodup_nil, ?_, ?_⟩, ⟨0, census_zero ?_, le_rfl⟩, rfl, ?_⟩
  · simp
  · simp
  · rintro t ⟨b, m, ht⟩
    cases ht
  · simp

theorem Inv.bound (hv : 0 ≤ v) (h : Inv a n v s value p) : Conserved v (.ok s) := by
  obtain ⟨w, -, hle⟩ := h.count
  exact ⟨s, rfl, by omega, h.zero⟩

theorem Inv.lookup (h : Inv a n v s value p) :
    s.ev.mem.lookup a = some ⟨n, value, p, none⟩ := by rw [h.event.ev, lookup_single]

/-- A careful wait. -/
theorem Inv.wait (h : Inv a n v s value p) (ht : s.task t = .running) (hv : value ≤ 0) :
    ∃ s', exec n s (.wait t) = some (.ok s') ∧ Inv a n v s' value (t :: p) := by
  obtain ⟨s', hs', hat, htask, hsig, hthr, hz⟩ := h.event.wait ht hv
  obtain ⟨w, hw, hle⟩ := h.count
  refine ⟨s', hs', hat, ⟨w, ?_, by omega⟩, hz.trans h.zero, fun hfit => ?_⟩
  · rw [htask]
    exact hw.stay (iff_of_false nofun (by rw [ht]; nofun))
  · rw [hsig] at hfit ⊢
    obtain ⟨heq, -⟩ := h.units hfit
    exact ⟨heq, fun _ => by omega⟩

/-- A careful signal. -/
theorem Inv.signal (h : Inv a n v s value p) (hv : 0 ≤ v) (ht : s.task t = .running)
    (hp : p.length ≤ 1) :
    ∃ s', exec n s (.signal t) = some (.ok s') ∧ Inv a n v s' (wrap32 (value + 1)) [] := by
  obtain ⟨s', hs', hat, htask, hsig, hthr, hz⟩ := h.event.signal ht
  obtain ⟨w, hw, hle⟩ := h.count
  refine ⟨s', hs', hat, ?_, hz.trans h.zero, fun hfit => ⟨?_, fun hne => absurd rfl hne⟩⟩
  · rw [htask, hsig, hthr]
    rcases p with _ | ⟨u, _ | ⟨_, _⟩⟩
    · rw [wakeAll_nil]
      exact ⟨w, hw, by omega⟩
    · have hu : s.task u = .asleep a n := (h.event.asleep u).mp (List.mem_singleton_self u)
      rw [wakeAll_single hu]
      exact ⟨w + 1, hw.enter (by rw [hu]; nofun) ⟨a, n, rfl⟩, by omega⟩
    · simp at hp
  · rw [hsig] at hfit ⊢
    push_cast at hfit ⊢
    obtain ⟨heq, -⟩ := h.units (by omega)
    rw [wrap32_of_lt (by omega) (by omega)]
    omega

/-- A task that was woken goes on. -/
theorem Inv.back (h : Inv a n v s value p) (ht : s.task t = .woken a n) (hn : n ≠ 0) :
    ∃ s', exec n s (.back t) = some (.ok s') ∧ Inv a n v s' value p := by
  obtain ⟨s', hs', hat, htask, hsig, hthr, hz⟩ := h.event.back ht hn
  obtain ⟨w, hw, hle⟩ := h.count
  obtain ⟨k, rfl, hk⟩ := hw.leave (t := t) (k := .running) ⟨_, _, ht⟩ nofun
  refine ⟨s', hs', hat, ⟨k, by rw [htask]; exact hk, by omega⟩, hz.trans h.zero, ?_⟩
  rw [hsig]
  exact h.units

/-- **A careful step** keeps the invariant. -/
theorem kept_step (hv : 0 ≤ v) (hn : n ≠ 0) (h : Kept a n v x) (hc : Careful a x c)
    (hstep : step n x c = some x') : Kept a n v x' := by
  obtain ⟨s, value, p, rfl, hinv⟩ := h
  have hlook := hinv.lookup
  cases c with
  | wait t =>
    by_cases ht : s.task t = .running
    · obtain ⟨s', hs', hinv'⟩ := hinv.wait ht (hc _ hlook)
      exact ⟨s', _, _, (Option.some.inj (hs'.symm.trans hstep)).symm, hinv'⟩
    · simp [step, exec, ht] at hstep
  | signal t =>
    by_cases ht : s.task t = .running
    · obtain ⟨s', hs', hinv'⟩ := hinv.signal hv ht (hc _ hlook)
      exact ⟨s', _, _, (Option.some.inj (hs'.symm.trans hstep)).symm, hinv'⟩
    · simp [step, exec, ht] at hstep
  | back t =>
    cases ht : s.task t with
    | woken b m =>
      obtain ⟨rfl, rfl⟩ := hinv.event.node t b m (Or.inr ht)
      obtain ⟨s', hs', hinv'⟩ := hinv.back ht hn
      exact ⟨s', _, _, (Option.some.inj (hs'.symm.trans hstep)).symm, hinv'⟩
    | _ => simp [step, exec, ht] at hstep

theorem always_kept (hv : 0 ≤ v) (hn : n ≠ 0) (h : Meets (step n) (Careful a) (start a n v) cs) :
    Always (step n) (Kept a n v) (start a n v) cs :=
  always_of_meets (fun _ _ _ hx hc hs => kept_step hv hn hx hc hs) (kept_start a n v) h

/-- **Units are conserved** in careful runs. -/
theorem conserved (hv : 0 ≤ v) (hn : n ≠ 0)
    (h : Meets (step n) (Careful a) (start a n v) cs) :
    Always (step n) (Conserved v) (start a n v) cs := by
  refine (always_kept hv hn h).mono fun x hx => ?_
  obtain ⟨s, value, p, rfl, hinv⟩ := hx
  exact hinv.bound hv

/-! ### The other runs -/

/-- **A step that is not careful**: the wait returns 0, or two of the tasks woken go on. -/
theorem careless (hv : 0 ≤ v) (hn : n ≠ 0) (h : Meets (step n) (Careful a) (start a n v) cs)
    (hrun : run (step n) (start a n v) cs = some (.ok s)) (hfit : v + s.signals < 2 ^ 31)
    (hstep : step n (.ok s) c = some x') (hc : ¬ Careful a (.ok s) c) :
    ∃ woken : List Task, ¬ Always (step n) (Conserved v) (start a n v)
      (cs ++ c :: woken.map Act.back) := by
  obtain ⟨s₀, value, p, hs₀, hinv⟩ := (always_kept hv hn h).last hrun
  obtain rfl := Except.ok.inj hs₀
  have hlook := hinv.lookup
  obtain ⟨hvalue, hnobody⟩ := hinv.units hfit
  obtain ⟨w, -, hle⟩ := hinv.count
  have hlast : ∀ {bs : List Act} {r : Sys}, run (step n) (.ok s) (c :: bs) = some (.ok r) →
      ¬ Conserved v (.ok r) → ¬ Always (step n) (Conserved v) (start a n v) (cs ++ c :: bs) := by
    intro bs r hr hbad hall
    refine hbad (hall.last ?_)
    rw [run_append, hrun]
    exact hr
  cases c with
  | wait t =>
    by_cases ht : s.task t = .running
    · have hpos : 0 < value := by
        by_contra hle
        exact hc fun e he => by
          rw [hlook] at he
          obtain rfl := Option.some.inj he
          exact not_lt.mp hle
      obtain ⟨r, hr, hzero⟩ := hinv.event.take ht hpos
      refine ⟨[], hlast (r := r) ?_ ?_⟩
      · rw [run_cons, step, hr]
        rfl
      · rintro ⟨r', hr', -, hz⟩
        obtain rfl := Except.ok.inj hr'
        rw [hzero] at hz
        cases hz
    · simp [step, exec, ht] at hstep
  | signal t =>
    by_cases ht : s.task t = .running
    · obtain ⟨t₁, t₂, rest, rfl⟩ : ∃ t₁ t₂ rest, p = t₁ :: t₂ :: rest := by
        rcases p with _ | ⟨t₁, _ | ⟨t₂, rest⟩⟩
        · exact absurd (fun e he => by rw [hlook] at he; obtain rfl := Option.some.inj he; simp) hc
        · exact absurd (fun e he => by rw [hlook] at he; obtain rfl := Option.some.inj he; simp) hc
        · exact ⟨t₁, t₂, rest, rfl⟩
      have hnone := hnobody (by simp)
      have hne : t₂ ≠ t₁ := by
        rintro rfl
        exact absurd hinv.event.nodup (by simp)
      have hsleep₁ := (hinv.event.asleep t₁).mp (by simp)
      have hsleep₂ := (hinv.event.asleep t₂).mp (by simp)
      obtain ⟨r, hr, hat, htask, hsig, hthr, -⟩ := hinv.event.signal ht
      obtain ⟨r₁, hr₁, hat₁, htask₁, hsig₁, hthr₁, -⟩ := hat.back (t := t₁)
        (by rw [htask]; exact wakeAll_woken hsleep₁ (by simp)) hn
      obtain ⟨r₂, hr₂, hat₂, htask₂, hsig₂, hthr₂, -⟩ := hat₁.back (t := t₂)
        (by rw [htask₁, Function.update_of_ne hne, htask]; exact wakeAll_woken hsleep₂ (by simp)) hn
      refine ⟨[t₁, t₂], hlast (r := r₂) ?_ ?_⟩
      · rw [run_cons, step, hr]
        simp [step, hr₁, hr₂]
      · rintro ⟨r', hr', hbound, -⟩
        obtain rfl := Except.ok.inj hr'
        omega
    · simp [step, exec, ht] at hstep
  | back t => exact absurd trivial hc

/-- Task 1 waits and sleeps, the signal of task 2 wakes it, and it goes on. -/
theorem conserved_handover : Always (step 2) (Conserved 0) (start 8 2 0)
    [.wait 1, .signal 2, .back 1] :=
  conserved (a := 8) (by decide) (by decide) (by decide +kernel)

/-- The signals, the waits that got through, and whether one of them returned 0. -/
def counts (x : Except Fault Sys) : Option (ℕ × ℕ × Bool) :=
  match x with
  | .ok s => some (s.signals, s.through, s.zero)
  | .error _ => none

/-- The signal that lets task 1 through lets task 3 through as well, and task 3 gets 0. -/
theorem doubled : ¬ Always (step 2) (Conserved 0) (start 8 2 0)
    [.wait 1, .signal 2, .back 1, .wait 3] := by
  intro h
  have hrun : (run (step 2) (start 8 2 0) [.wait 1, .signal 2, .back 1, .wait 3]).map counts =
      some (some (1, 2, true)) := by decide +kernel
  obtain ⟨x, hx, hcounts⟩ := Option.map_eq_some_iff.mp hrun
  obtain ⟨s, rfl, hle, -⟩ := h.last hx
  simp only [counts, Option.some.injEq, Prod.mk.injEq] at hcounts
  omega

end LinuxHomework.Event.FirstVersion
