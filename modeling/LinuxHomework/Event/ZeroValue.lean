import LinuxHomework.Event.Versions

/-! # Events opened with value 0, in both versions

The comment in `sys_myevent_open` of the modified version says that with value 0 an event works as
before. `Pair` runs both versions on the same opens, waits, signals and returns, each with its own
answers of `kmalloc`, and logs what either does at each call: the value returned and the tasks
woken, or that the caller is blocked.

* `Sim`: the two systems have the same events in the same order, with the same tasks on their
  queues, and every task is at the same place.
* `alike_iff`: the logs agree throughout a run exactly when no signal finds two waiters, and no wait
  finds a value, left behind by a signal without waiters.
* `alike_broken`: one signal, two waiters. -/

namespace LinuxHomework.Event.ZeroValue

open LinuxHomework.Lib.Chain LinuxHomework.Lib.CInt LinuxHomework.Lib.Runs
open LinuxHomework.Event.Nodes LinuxHomework.Event.EventList LinuxHomework.Event.Contents
open LinuxHomework.Event.Versions
open LinuxHomework.Event.Fifo (Status)

/-! ### Both versions -/

/-- What either allocator answers: both fail, or both hand out memory. -/
abbrev Answers := Option ((Addr × Myevent) × (Addr × Myevent))

/-- What the outside sees of a call: nothing, if the task cannot make it, a fault, or a reply. -/
abbrev Seen := Option (Except Fault Reply)

/-- Both versions, and what has been seen of either at each call. -/
structure Pair where
  original : Except Fault Sys
  modified : Except Fault Sys
  log : List (Seen × Seen)

def start : Pair := ⟨.ok Versions.start, .ok Versions.start, []⟩

/-- What is seen of an action. -/
def seen (r : Option (Except Fault (Reply × Sys))) : Seen := r.map fun r => r.map Prod.fst

/-- The state after an action. -/
def after (r : Option (Except Fault (Reply × Sys))) (x : Except Fault Sys) : Except Fault Sys :=
  r.elim x fun r => r.map Prod.snd

/-- One action in both versions, if it can be taken in one. -/
def step (x : Pair) (c : Act Answers) : Option Pair :=
  let c₁ := c.map fun k => k.map Prod.fst
  let c₂ := c.map fun k => k.map Prod.snd
  match x.original, x.modified with
  | .ok s, .ok s' =>
    if c₁.Possible s.ev ∧ c₂.Possible s'.ev then
      match exec original s c₁, exec modified s' c₂ with
      | none, none => none
      | r, r' => some ⟨after r (.ok s), after r' (.ok s'), x.log ++ [(seen r, seen r')]⟩
    else none
  | _, _ => none

/-- The same value is returned and the same tasks are woken, or the caller is blocked. -/
def SameReply : Reply → Reply → Prop
  | .returned v woken, .returned v' woken' => v = v' ∧ ∀ t, t ∈ woken ↔ t ∈ woken'
  | .blocked, .blocked => True
  | _, _ => False

def SameSeen : Seen → Seen → Prop
  | some (.ok r), some (.ok r') => SameReply r r'
  | some (.error f), some (.error f') => f = f'
  | none, none => True
  | _, _ => False

/-- **Both versions have behaved alike** at every call so far. -/
def Alike (x : Pair) : Prop := ∀ q ∈ x.log, SameSeen q.1 q.2

/-- The event a call of the modified version names. -/
def Named (x : Pair) (n : ℤ) (e : Myevent) : Prop :=
  ∃ s a prev, x.modified = .ok s ∧ scheventNum s.ev n = .ok (some a, prev) ∧
    s.ev.mem.lookup a = some e

/-- What a call must not find: a wait a value, and a signal two waiters. -/
def Plain (x : Pair) : Act Answers → Prop
  | .wait _ n => ∀ e, Named x n e → e.value ≤ 0
  | .signal _ n => ∀ e, Named x n e → e.p.length ≤ 1
  | _ => True

/-! ### The simulation -/

/-- The same place, `l` being the pairs of nodes that stand for one event. -/
inductive SamePlace (l : List (Addr × Addr)) : Status → Status → Prop
  | running : SamePlace l .running .running
  | asleep {p : Addr × Addr} (hp : p ∈ l) (n : ℤ) : SamePlace l (.asleep p.1 n) (.asleep p.2 n)
  | woken {p : Addr × Addr} (hp : p ∈ l) (n : ℤ) : SamePlace l (.woken p.1 n) (.woken p.2 n)

/-- **The simulation**: the same events in the same order, and every task at the same place. -/
structure Sim (s s' : Sys) (l : List (Addr × Addr)) : Prop where
  original : Inv s (l.map Prod.fst)
  modified : Inv s' (l.map Prod.snd)
  number : ∀ p ∈ l, s.ev.num p.1 = s'.ev.num p.2
  task : ∀ t, SamePlace l (s.task t) (s'.task t)

variable {s s' : Sys} {l : List (Addr × Addr)} {p q : Addr × Addr} {t : Task} {n : ℤ}
  {e e' : Myevent} {x x' : Pair} {c : Act Answers}

theorem sim_start : Sim Versions.start Versions.start [] :=
  ⟨inv_start, inv_start, by simp, fun _ => .running⟩

theorem SamePlace.mono {l' : List (Addr × Addr)} {u u' : Status} (hl : ∀ p ∈ l, p ∈ l')
    (h : SamePlace l u u') : SamePlace l' u u' := by
  cases h with
  | running => exact .running
  | asleep hp n => exact .asleep (hl _ hp) n
  | woken hp n => exact .woken (hl _ hp) n

theorem SamePlace.split {u u' : Status} (h : SamePlace l u u') :
    (u = .running ∧ u' = .running) ∨
      (∃ p ∈ l, ∃ n, u = .asleep p.1 n ∧ u' = .asleep p.2 n) ∨
        ∃ p ∈ l, ∃ n, u = .woken p.1 n ∧ u' = .woken p.2 n := by
  cases h with
  | running => exact Or.inl ⟨rfl, rfl⟩
  | asleep hp n => exact Or.inr (Or.inl ⟨_, hp, n, rfl, rfl⟩)
  | woken hp n => exact Or.inr (Or.inr ⟨_, hp, n, rfl, rfl⟩)

theorem SamePlace.running_iff {u u' : Status} (h : SamePlace l u u') :
    u = .running ↔ u' = .running := by
  rcases h.split with ⟨rfl, rfl⟩ | ⟨p, -, n, rfl, rfl⟩ | ⟨p, -, n, rfl, rfl⟩ <;> simp

section Sim
variable (h : Sim s s' l)
include h

/-- A node of the original list stands for one event only. -/
theorem Sim.fst_inj (hp : p ∈ l) (hq : q ∈ l) (heq : p.1 = q.1) : p = q :=
  List.inj_on_of_nodup_map h.original.wf.chain.nodup hp hq heq

theorem Sim.snd_inj (hp : p ∈ l) (hq : q ∈ l) (heq : p.2 = q.2) : p = q :=
  List.inj_on_of_nodup_map h.modified.wf.chain.nodup hp hq heq

/-- The same tasks sleep on both nodes of an event. -/
theorem Sim.asleep_iff (hp : p ∈ l) (t : Task) :
    (∃ n, s.task t = .asleep p.1 n) ↔ ∃ n, s'.task t = .asleep p.2 n := by
  rcases (h.task t).split with ⟨hu, hu'⟩ | ⟨q, hq, m, hu, hu'⟩ | ⟨q, hq, m, hu, hu'⟩
  · simp [hu, hu']
  · have hqp : q.1 = p.1 ↔ q.2 = p.2 := by
      constructor
      · intro heq
        rw [h.fst_inj hq hp heq]
      · intro heq
        rw [h.snd_inj hq hp heq]
    simp [hu, hu', hqp]
  · simp [hu, hu']

/-- The queues of both nodes of an event hold the same tasks. -/
theorem Sim.queue_perm (hp : p ∈ l) (he : s.ev.mem.lookup p.1 = some e)
    (he' : s'.ev.mem.lookup p.2 = some e') : e.p.Perm e'.p := by
  have hp₁ : p.1 ∈ l.map Prod.fst := List.mem_map_of_mem hp
  have hp₂ : p.2 ∈ l.map Prod.snd := List.mem_map_of_mem hp
  refine (List.perm_ext_iff_of_nodup (h.original.nodup _ hp₁ e he)
    (h.modified.nodup _ hp₂ e' he')).mpr fun t => ?_
  rw [h.original.queue _ hp₁ e he t, h.modified.queue _ hp₂ e' he' t]
  exact h.asleep_iff hp t

/-- **A search** finds the same event in both lists. -/
theorem Sim.search (n : ℤ) :
    ((∃ prev, scheventNum s.ev n = .ok (none, prev)) ∧
      ∃ prev, scheventNum s'.ev n = .ok (none, prev)) ∨
    ∃ p e e', p ∈ l ∧ s.ev.mem.lookup p.1 = some e ∧ s'.ev.mem.lookup p.2 = some e' ∧
      e.p.Perm e'.p ∧ (∃ prev, scheventNum s.ev n = .ok (some p.1, prev)) ∧
        ∃ prev, scheventNum s'.ev n = .ok (some p.2, prev) := by
  obtain ⟨prev, hs⟩ := scheventNum_find h.original.wf n
  obtain ⟨prev', hs'⟩ := scheventNum_find h.modified.wf n
  have hsame : l.find? ((fun a => s.ev.num a == some n) ∘ Prod.fst) =
      l.find? ((fun a => s'.ev.num a == some n) ∘ Prod.snd) :=
    List.find?_congr fun p hp => by simp [h.number p hp]
  rw [List.find?_map] at hs hs'
  rw [hsame] at hs
  cases hfind : l.find? ((fun a => s'.ev.num a == some n) ∘ Prod.snd) with
  | none =>
    rw [hfind] at hs hs'
    exact Or.inl ⟨⟨prev, hs⟩, ⟨prev', hs'⟩⟩
  | some p =>
    rw [hfind] at hs hs'
    have hp := List.mem_of_find?_eq_some hfind
    obtain ⟨e, he⟩ := Linked.lookup h.original.wf.chain (List.mem_map_of_mem hp)
    obtain ⟨e', he'⟩ := Linked.lookup h.modified.wf.chain (List.mem_map_of_mem hp)
    exact Or.inr ⟨p, e, e', hp, he, he', h.queue_perm hp he he', ⟨prev, hs⟩, ⟨prev', hs'⟩⟩

/-- The tasks that a wake-up finds on both nodes of an event move to the same place. -/
theorem Sim.wake_task {woken woken' : List Task} (hw : ∀ t, t ∈ woken ↔ t ∈ woken') (t : Task) :
    SamePlace l (wakeAll s.task woken t) (wakeAll s'.task woken' t) := by
  have htask := h.task t
  unfold wakeAll Fifo.wake
  by_cases ht : t ∈ woken
  · rw [if_pos ht, if_pos ((hw t).mp ht)]
    rcases htask.split with ⟨hu, hu'⟩ | ⟨q, hq, m, hu, hu'⟩ | ⟨q, hq, m, hu, hu'⟩
    · simpa [hu, hu'] using SamePlace.running
    · simpa [hu, hu'] using SamePlace.woken hq m
    · simpa [hu, hu'] using SamePlace.woken hq m
  · rw [if_neg ht, if_neg fun ht' => ht ((hw t).mpr ht')]
    exact htask

/-- One task moves to the same place. -/
theorem Sim.update_task {u u' : Status} (t : Task) (hu : SamePlace l u u') (v : Task) :
    SamePlace l (Function.update s.task t u v) (Function.update s'.task t u' v) := by
  by_cases hvt : v = t
  · simpa [hvt] using hu
  · simpa [hvt] using h.task v

/-- A write that leaves the numbers alone on both sides. -/
theorem Sim.number_store (hp : p ∈ l) (he : s.ev.mem.lookup p.1 = some e)
    (he' : s'.ev.mem.lookup p.2 = some e') {x x' : Myevent} (hx : x.eventNum = e.eventNum)
    (hx' : x'.eventNum = e'.eventNum) :
    ∀ q ∈ l, (s.ev.store p.1 x).num q.1 = (s'.ev.store p.2 x').num q.2 := by
  have hnum := h.number p hp
  simp only [Events.num, he, he', Option.map_some] at hnum
  intro q hq
  by_cases hqp : q = p
  · subst hqp
    simp only [Events.num, lookup_store, Option.map_some, hx, hx']
    exact hnum
  · have h₁ : q.1 ≠ p.1 := fun heq => hqp (h.fst_inj hq hp heq)
    have h₂ : q.2 ≠ p.2 := fun heq => hqp (h.snd_inj hq hp heq)
    have hqn := h.number q hq
    simp only [Events.num] at hqn
    simp only [Events.num, lookup_store_ne h₁, lookup_store_ne h₂, hqn]

/-! ### The calls -/

/-- **An open** appends an event on both sides, under the same number. -/
theorem Sim.open {a a' : Addr} (raw raw' : Myevent) (ha : a ∉ s.ev.mem) (ha' : a' ∉ s'.ev.mem) :
    ∃ number ev ev', Versions.original.sysOpen s.ev 0 (some (a, raw)) = .ok (number, ev) ∧
      Versions.modified.sysOpen s'.ev 0 (some (a', raw')) = .ok (number, ev') ∧
      Sim { s with ev } { s' with ev := ev' } (l ++ [(a, a')]) := by
  obtain ⟨number, ev, ho, hwf⟩ := open_new_spec h.original.wf raw.value raw ha
  obtain ⟨number', ev', ho', hwf'⟩ := open_new_spec h.modified.wf 0 raw' ha'
  obtain ⟨hnew, hold, hnumber⟩ := open_new_core h.original.wf ha ho
  obtain ⟨hnew', hold', hnumber'⟩ := open_new_core h.modified.wf ha' ho'
  have hsame : number = number' := by
    rcases List.eq_nil_or_concat l with rfl | ⟨m, p, rfl⟩
    · rcases hnumber with ⟨-, rfl⟩ | ⟨b, e, hb, -⟩
      · rcases hnumber' with ⟨-, rfl⟩ | ⟨b, e, hb, -⟩
        · rfl
        · simp at hb
      · simp at hb
    · rw [List.concat_eq_append] at h hnumber hnumber'
      obtain ⟨b, e, -, hend, he, rfl⟩ := hnumber.resolve_left (by simp)
      obtain ⟨b', e', -, hend', he', rfl⟩ := hnumber'.resolve_left (by simp)
      -- the last nodes of both lists stand for one event
      have hp : p.1 = b := by
        have hlast := h.original.wf.last
        rw [hend, List.map_append, List.map_singleton, List.getLast?_concat] at hlast
        exact Option.some.inj hlast
      have hp' : p.2 = b' := by
        have hlast := h.modified.wf.last
        rw [hend', List.map_append, List.map_singleton, List.getLast?_concat] at hlast
        exact Option.some.inj hlast
      have hnum := h.number p (by simp)
      rw [hp, hp', Events.num, Events.num, he, he'] at hnum
      simp only [Option.map_some, Option.some.injEq] at hnum
      rw [hnum]
  subst hsame
  have hmem : ∀ q ∈ l, q.1 ≠ a ∧ q.2 ≠ a' := by
    intro q hq
    obtain ⟨e, he⟩ := Linked.lookup h.original.wf.chain (List.mem_map_of_mem hq)
    obtain ⟨e', he'⟩ := Linked.lookup h.modified.wf.chain (List.mem_map_of_mem hq)
    refine ⟨fun heq => ha ?_, fun heq => ha' ?_⟩
    · exact AList.lookup_isSome.mp (by rw [← heq, he]; rfl)
    · exact AList.lookup_isSome.mp (by rw [← heq, he']; rfl)
  refine ⟨number, ev, ev', ?_, ho', ?_, ?_, fun q hq => ?_, fun t => ?_⟩
  · rw [← ho]
    exact Original.open_eq s.ev 0 (some (a, raw))
  · rw [List.map_append]
    exact h.original.open ha ho
  · rw [List.map_append]
    exact h.modified.open ha' ho'
  · simp only [num_eq_core]
    rcases List.mem_append.mp hq with hq | hq
    · rw [hold _ (hmem q hq).1, hold' _ (hmem q hq).2, ← num_eq_core, ← num_eq_core]
      exact h.number q hq
    · rw [List.mem_singleton.mp hq, hnew, hnew']
      rfl
  · exact (h.task t).mono fun p hp => List.mem_append_left _ hp

/-- A task goes to sleep on both nodes of an event. -/
theorem Sim.sleep (hp : p ∈ l) (he : s.ev.mem.lookup p.1 = some e)
    (he' : s'.ev.mem.lookup p.2 = some e') (ht : s.task t = .running) (n : ℤ) :
    Sim ⟨s.ev.store p.1 { e with p := t :: e.p }, Function.update s.task t (.asleep p.1 n)⟩
      ⟨s'.ev.store p.2 { e' with p := e'.p ++ [t] }, Function.update s'.task t (.asleep p.2 n)⟩
      l where
  original := h.original.sleep (List.mem_map_of_mem hp) he (by rfl) ht (.refl _) n
  modified := h.modified.sleep (List.mem_map_of_mem hp) he' (by rfl)
    ((h.task t).running_iff.mp ht) List.perm_append_comm n
  number := h.number_store hp he he' rfl rfl
  task := h.update_task t (.asleep hp n)

/-- A signal that finds at most one waiter wakes the same tasks on both sides. -/
theorem Sim.wake {x : Myevent} {woken : List Task} (hp : p ∈ l)
    (he : s.ev.mem.lookup p.1 = some e) (he' : s'.ev.mem.lookup p.2 = some e')
    (hnext : x.next = e'.next) (hnum : x.eventNum = e'.eventNum) (hw : e.p.Perm woken)
    (hw' : e'.p.Perm (woken ++ x.p)) :
    Sim ⟨s.ev.store p.1 { e with p := [] }, wakeAll s.task e.p⟩
      ⟨s'.ev.store p.2 x, wakeAll s'.task woken⟩ l where
  original := h.original.wake (List.mem_map_of_mem hp) he (by rfl) (by simp)
  modified := h.modified.wake (List.mem_map_of_mem hp) he' hnext hw'
  number := h.number_store hp he he' rfl hnum
  task := h.wake_task fun t => hw.mem_iff

/-- A woken task goes on. -/
theorem Sim.back (hp : p ∈ l) (he : s.ev.mem.lookup p.1 = some e)
    (he' : s'.ev.mem.lookup p.2 = some e') (ht : s.task t = .woken p.1 n)
    (ht' : s'.task t = .woken p.2 n) :
    Sim ⟨s.ev.store p.1 { e with p := e.p.erase t }, Function.update s.task t .running⟩
      ⟨s'.ev.store p.2 { e' with p := e'.p.erase t }, Function.update s'.task t .running⟩ l where
  original := h.original.back ht he
  modified := h.modified.back ht' he'
  number := h.number_store hp he he' rfl rfl
  task := h.update_task t .running

/-- The same actions can be taken in both versions. -/
theorem Sim.ready_iff (c : Act Answers) : c.Ready s.task ↔ c.Ready s'.task := by
  cases c with
  | sysOpen t n k => exact (h.task t).running_iff
  | wait t n => exact (h.task t).running_iff
  | signal t n => exact (h.task t).running_iff
  | back t =>
    rcases (h.task t).split with ⟨hu, hu'⟩ | ⟨q, hq, m, hu, hu'⟩ | ⟨q, hq, m, hu, hu'⟩
    · simp [Act.Ready, hu, hu']
    · simp [Act.Ready, hu, hu']
    · simp [Act.Ready, hu, hu']

end Sim

/-! ### Runs -/

/-- The systems simulate each other, or have both gone wrong. -/
def Held (x : Pair) : Prop :=
  (∃ s s' l, x.original = .ok s ∧ x.modified = .ok s' ∧ Sim s s' l) ∨ ∃ f, x.original = .error f

theorem alike_snoc {y y' : Except Fault Sys} {log : List (Seen × Seen)} {r r' : Seen}
    (hlog : ∀ q ∈ log, SameSeen q.1 q.2) : Alike ⟨y, y', log ++ [(r, r')]⟩ ↔ SameSeen r r' := by
  constructor
  · intro h
    exact h (r, r') (by simp)
  · intro h q hq
    rcases List.mem_append.mp hq with hq | hq
    · exact hlog q hq
    · rw [List.mem_singleton.mp hq]
      exact h

section Steps
variable {log : List (Seen × Seen)} (h : Sim s s' l) (hlog : ∀ q ∈ log, SameSeen q.1 q.2)

theorem ready_map {κ κ' : Type} (f : κ → κ') (c : Act κ) (task : Task → Status) :
    (c.map f).Ready task ↔ c.Ready task := by
  cases c <;> exact Iff.rfl

include h in
/-- A step is taken by a task that is ready for it on both sides. -/
theorem step_ready (hstep : step ⟨.ok s, .ok s', log⟩ c = some x') :
    (c.map fun k => k.map Prod.fst).Possible s.ev ∧
      (c.map fun k => k.map Prod.snd).Possible s'.ev ∧ c.Ready s.task := by
  simp only [step] at hstep
  split_ifs at hstep with hposs
  refine ⟨hposs.1, hposs.2, ?_⟩
  by_contra hready
  have h₁ : exec original s (c.map fun k => k.map Prod.fst) = none := by
    rw [← Option.not_isSome_iff_eq_none, exec_isSome, ready_map]
    exact hready
  have h₂ : exec modified s' (c.map fun k => k.map Prod.snd) = none := by
    rw [← Option.not_isSome_iff_eq_none, exec_isSome, ready_map, ← h.ready_iff]
    exact hready
  rw [h₁, h₂] at hstep
  cases hstep

/-- What a step does, in terms of what both versions do. -/
theorem step_eq {r r' : Except Fault (Reply × Sys)}
    (h₁ : exec original s (c.map fun k => k.map Prod.fst) = some r)
    (h₂ : exec modified s' (c.map fun k => k.map Prod.snd) = some r')
    (hstep : step ⟨.ok s, .ok s', log⟩ c = some x') :
    x' = ⟨r.map Prod.snd, r'.map Prod.snd,
      log ++ [(some (r.map Prod.fst), some (r'.map Prod.fst))]⟩ := by
  simp only [step, h₁, h₂] at hstep
  split_ifs at hstep
  exact (Option.some.inj hstep).symm

/-- The event a call names is determined by the search. -/
theorem named_iff {y : Except Fault Sys} {a : Addr} {prev : Option Addr} {P : Myevent → Prop}
    (hs : scheventNum s'.ev n = .ok (some a, prev)) (he : s'.ev.mem.lookup a = some e) :
    (∀ e, Named ⟨y, .ok s', log⟩ n e → P e) ↔ P e := by
  constructor
  · intro hall
    exact hall e ⟨s', a, prev, rfl, hs, he⟩
  · rintro hP e' ⟨s₁, b, prev', hs₁, hb, he'⟩
    obtain rfl := Except.ok.inj hs₁
    obtain rfl : a = b := by simpa using (Prod.mk.inj (Except.ok.inj (hs.symm.trans hb))).1
    rw [he] at he'
    exact Option.some.inj he' ▸ hP

theorem not_named {y : Except Fault Sys} {prev : Option Addr} {P : Myevent → Prop}
    (hs : scheventNum s'.ev n = .ok (none, prev)) : ∀ e, Named ⟨y, .ok s', log⟩ n e → P e := by
  rintro e ⟨s₁, b, prev', hs₁, hb, -⟩
  obtain rfl := Except.ok.inj hs₁
  cases hs.symm.trans hb

include h hlog

/-- **An open** is answered alike. -/
theorem open_alike {k : Answers} (hstep : step ⟨.ok s, .ok s', log⟩ (.sysOpen t n k) = some x') :
    Alike x' ∧ Held x' := by
  obtain ⟨hposs, hposs', ht⟩ := step_ready h hstep
  replace ht : s.task t = .running := ht
  have ht' := (h.task t).running_iff.mp ht
  by_cases hn : n = 0
  · subst hn
    rcases k with _ | ⟨⟨a, raw⟩, ⟨a', raw'⟩⟩
    · have h₁ : exec original s (.sysOpen t 0 none) = some (.error .null) := by
        simp only [exec, ht, if_true]
        rfl
      have h₂ : exec modified s' (.sysOpen t 0 none) = some (.error .null) := by
        simp only [exec, ht', if_true]
        rfl
      obtain rfl := step_eq h₁ h₂ hstep
      exact ⟨(alike_snoc hlog).mpr rfl, Or.inr ⟨_, rfl⟩⟩
    · obtain ⟨number, ev, ev', ho, ho', hsim⟩ := h.open raw raw' hposs hposs'
      obtain rfl := step_eq (exec_open ht ho) (exec_open ht' ho') hstep
      exact ⟨(alike_snoc hlog).mpr ⟨rfl, by simp⟩, Or.inl ⟨_, _, _, rfl, rfl, hsim⟩⟩
  · have hfound : ∃ v, original.sysOpen s.ev n (k.map Prod.fst) = .ok (v, s.ev) ∧
        modified.sysOpen s'.ev n (k.map Prod.snd) = .ok (v, s'.ev) := by
      rcases h.search n with ⟨⟨prev, hs⟩, prev', hs'⟩ | ⟨p, e, e', -, -, -, -, ⟨prev, hs⟩, prev', hs'⟩
      · exact ⟨0, (Original.open_eq _ _ _).trans (open_found_eq hn _ hs), open_found_eq hn _ hs'⟩
      · exact ⟨n, (Original.open_eq _ _ _).trans (open_found_eq hn _ hs), open_found_eq hn _ hs'⟩
    obtain ⟨v, ho, ho'⟩ := hfound
    obtain rfl := step_eq (exec_open ht ho) (exec_open ht' ho') hstep
    exact ⟨(alike_snoc hlog).mpr ⟨rfl, by simp⟩, Or.inl ⟨_, _, _, rfl, rfl, h⟩⟩

/-- **A wait** is answered alike unless it finds a value. -/
theorem wait_alike (hstep : step ⟨.ok s, .ok s', log⟩ (.wait t n) = some x') :
    (Alike x' ↔ Plain ⟨.ok s, .ok s', log⟩ (.wait t n)) ∧ (Alike x' → Held x') := by
  obtain ⟨-, -, ht⟩ := step_ready h hstep
  replace ht : s.task t = .running := ht
  have ht' := (h.task t).running_iff.mp ht
  rcases h.search n with
    ⟨⟨prev, hs⟩, prev', hs'⟩ | ⟨p, e, e', hp, he, he', hperm, ⟨prev, hs⟩, prev', hs'⟩
  · obtain rfl := step_eq (exec_wait_returned ht (Original.wait_none_eq hs))
      (exec_wait_returned ht' (wait_none_eq hs')) hstep
    refine ⟨iff_of_true ((alike_snoc hlog).mpr ⟨rfl, by simp⟩) (not_named hs'), fun _ => ?_⟩
    exact Or.inl ⟨_, _, _, rfl, rfl, h⟩
  · rw [Plain, named_iff hs' he']
    by_cases hv : 0 < e'.value
    · obtain rfl := step_eq (exec_wait_blocked ht (Original.wait_sleep_eq hs he))
        (exec_wait_returned ht' (wait_take_eq hs' he' hv)) hstep
      rw [alike_snoc hlog]
      exact ⟨iff_of_false id (by omega), fun hfalse => hfalse.elim⟩
    · obtain rfl := step_eq (exec_wait_blocked ht (Original.wait_sleep_eq hs he))
        (exec_wait_blocked ht' (wait_sleep_eq hs' he' hv)) hstep
      rw [alike_snoc hlog]
      refine ⟨iff_of_true trivial (by omega), fun _ => ?_⟩
      exact Or.inl ⟨_, _, _, rfl, rfl, h.sleep hp he he' ht n⟩

/-- **A signal** is answered alike unless it finds two waiters. -/
theorem signal_alike (hstep : step ⟨.ok s, .ok s', log⟩ (.signal t n) = some x') :
    (Alike x' ↔ Plain ⟨.ok s, .ok s', log⟩ (.signal t n)) ∧ (Alike x' → Held x') := by
  obtain ⟨-, -, ht⟩ := step_ready h hstep
  replace ht : s.task t = .running := ht
  have ht' := (h.task t).running_iff.mp ht
  rcases h.search n with
    ⟨⟨prev, hs⟩, prev', hs'⟩ | ⟨p, e, e', hp, he, he', hperm, ⟨prev, hs⟩, prev', hs'⟩
  · obtain rfl := step_eq (exec_signal ht (Original.signal_none_eq hs))
      (exec_signal ht' (signal_none_eq hs')) hstep
    refine ⟨iff_of_true ((alike_snoc hlog).mpr ⟨rfl, by simp⟩) (not_named hs'), fun _ => ?_⟩
    refine Or.inl ⟨_, _, l, rfl, rfl, ?_⟩
    rw [wakeAll_nil, wakeAll_nil]
    exact h
  · rw [Plain, named_iff hs' he']
    cases hq : e'.p with
    | nil =>
      rw [hq] at hperm
      have hnil := hperm.eq_nil
      obtain rfl := step_eq (exec_signal ht (Original.signal_some_eq hs he))
        (exec_signal ht' (signal_add_eq hs' he' hq)) hstep
      rw [alike_snoc hlog]
      refine ⟨iff_of_true ⟨rfl, by simp [hnil]⟩ (by simp), fun _ => ?_⟩
      refine Or.inl ⟨_, _, l, rfl, rfl, h.wake hp he he' (by rfl) (by rfl) hperm ?_⟩
      exact .refl _
    | cons w rest =>
      obtain rfl := step_eq (exec_signal ht (Original.signal_some_eq hs he))
        (exec_signal ht' (signal_wake_eq hs' he' hq)) hstep
      rw [alike_snoc hlog]
      have hnd : (w :: rest).Nodup :=
        hq ▸ h.modified.nodup _ (List.mem_map_of_mem hp) e' he'
      -- the original wakes the whole queue, the modified version its first task
      have hiff : (∀ u, u ∈ e.p ↔ u ∈ [w]) ↔ rest = [] := by
        constructor
        · intro hall
          refine List.eq_nil_iff_forall_not_mem.mpr fun u hu => ?_
          have huw : u ∈ [w] := (hall u).mp (hperm.mem_iff.mpr (by simp [hq, hu]))
          rw [List.mem_singleton.mp huw] at hu
          exact (List.nodup_cons.mp hnd).1 hu
        · rintro rfl u
          rw [hperm.mem_iff, hq]
      have hlen : (w :: rest).length ≤ 1 ↔ rest = [] := by
        rw [List.length_cons, ← List.length_eq_zero_iff]
        omega
      rw [hlen, ← hiff]
      refine ⟨⟨fun hsame => hsame.2, fun hall => ⟨rfl, hall⟩⟩, fun hsame => ?_⟩
      obtain rfl := hiff.mp hsame.2
      rw [hq] at hperm
      exact Or.inl ⟨_, _, l, rfl, rfl, h.wake hp he he' (by rfl) (by rfl) hperm
        (by rw [hq]; rfl)⟩

/-- **A return** from `schedule()` is answered alike. -/
theorem back_alike (hstep : step ⟨.ok s, .ok s', log⟩ (.back t) = some x') : Alike x' ∧ Held x' := by
  obtain ⟨-, -, a, n, ht⟩ := step_ready h hstep
  rcases (h.task t).split with ⟨hu, -⟩ | ⟨q, -, m, hu, -⟩ | ⟨p, hp, m, hu, hu'⟩
  · rw [hu] at ht
    cases ht
  · rw [hu] at ht
    cases ht
  · obtain ⟨e, he⟩ := Linked.lookup h.original.wf.chain (List.mem_map_of_mem hp)
    obtain ⟨e', he'⟩ := Linked.lookup h.modified.wf.chain (List.mem_map_of_mem hp)
    have hback : modified.sysWaitBack s'.ev t p.2 m =
        .ok (m, s'.ev.store p.2 { e' with p := e'.p.erase t }) := by
      show sysMyeventWaitBack s'.ev t p.2 m = _
      simp [sysMyeventWaitBack, deref_some he', bind, Except.bind, pure, Except.pure]
    obtain rfl := step_eq (exec_back hu (Original.back_eq he)) (exec_back hu' hback) hstep
    refine ⟨(alike_snoc hlog).mpr ⟨rfl, by simp⟩, ?_⟩
    exact Or.inl ⟨_, _, l, rfl, rfl, h.back hp he he' hu hu'⟩

end Steps

/-- **One call** is answered alike exactly when it is `Plain`, and then the simulation goes on. -/
theorem alike_step_iff (hx : Held x) (hlog : Alike x) (hstep : step x c = some x') :
    (Alike x' ↔ Plain x c) ∧ (Alike x' → Held x') := by
  obtain ⟨original, modified, log⟩ := x
  rcases hx with ⟨s, s', l, rfl, rfl, h⟩ | ⟨f, rfl⟩
  · cases c with
    | sysOpen t n k =>
      obtain ⟨halike, hheld⟩ := open_alike h hlog hstep
      exact ⟨iff_of_true halike trivial, fun _ => hheld⟩
    | wait t n => exact wait_alike h hlog hstep
    | signal t n => exact signal_alike h hlog hstep
    | back t =>
      obtain ⟨halike, hheld⟩ := back_alike h hlog hstep
      exact ⟨iff_of_true halike trivial, fun _ => hheld⟩
  · cases hstep

/-- **Events opened with value 0 behave as the original ones** in the runs in which no wait finds a
value and no signal finds two waiters, and in no others. -/
theorem alike_iff (cs : List (Act Answers)) :
    Always step Alike start cs ↔ Meets step Plain start cs :=
  always_iff_meets (I := Held)
    (fun _ _ _ hx hlog hstep halike => (alike_step_iff hx hlog hstep).2 halike)
    (fun _ _ _ hx hlog hstep => (alike_step_iff hx hlog hstep).1)
    (Or.inl ⟨_, _, [], rfl, rfl, sim_start⟩) (by simp [Alike, start])

/-- Two tasks wait for an event, and a third one signals it. -/
def twoWaiters : List (Act Answers) :=
  [.sysOpen 0 0 (some ((8, ⟨0, 0, [], none⟩), (16, ⟨0, 0, [], none⟩))), .wait 1 2, .wait 2 2,
    .signal 0 2]

/-- The tasks woken by the last call, in either version. -/
def lastWoken (x : Pair) : Option (List Task × List Task) :=
  match x.log.getLast? with
  | some (some (.ok (.returned _ woken)), some (.ok (.returned _ woken'))) => some (woken, woken')
  | _ => none

/-- The original signal wakes both waiters, the modified one only the first. -/
theorem alike_broken : ¬ Always step Alike start twoWaiters := by
  intro h
  have hrun : (run step start twoWaiters).map lastWoken = some (some ([2, 1], [1])) := by
    decide +kernel
  obtain ⟨x, hx, hwoken⟩ := Option.map_eq_some_iff.mp hrun
  have halike := h.last hx
  cases hlast : x.log.getLast? with
  | none => simp [lastWoken, hlast] at hwoken
  | some q =>
    have hsame := halike q (List.mem_of_getLast? hlast)
    obtain ⟨r, r'⟩ := q
    simp only [lastWoken, hlast] at hwoken
    split at hwoken
    · rename_i v woken v' woken' heq
      obtain ⟨rfl, rfl⟩ := Prod.mk.inj (Option.some.inj hwoken)
      obtain ⟨rfl, rfl⟩ := Prod.mk.inj (Option.some.inj heq)
      have hmem : (2 : Task) ∈ [1] := (hsame.2 2).mp (by simp)
      simp at hmem
    · cases hwoken

end LinuxHomework.Event.ZeroValue
