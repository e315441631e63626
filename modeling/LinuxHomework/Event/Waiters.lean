import LinuxHomework.Event.Versions

/-! # Who sleeps after an original event is closed

`sys_myevent_close` of `6/kernel/myevent.c` takes the node out of the list and then wakes by number,
with `sys_myevent_signal`. The search of that signal still finds the node only if it was the last
one, which the close does not take out of the links; otherwise it finds the next event with the same
number, if the numbers have wrapped around, and mostly none.

* `close_woken`: whom a close wakes.
* `frees_iff`: after a run of opens, waits and signals, a close frees the waiters of its event, and
  nobody else, exactly when the event is the last one or nobody waits.
* `frees_broken`: two events, and a task that waits for the first one. -/

namespace LinuxHomework.Event.Waiters

open LinuxHomework.Lib.Chain LinuxHomework.Lib.Runs
open LinuxHomework.Event.Nodes LinuxHomework.Event.EventList LinuxHomework.Event.Contents
open LinuxHomework.Event.Versions
open LinuxHomework.Event.Fifo (Status)

variable {l : List Addr} {n : ℤ} {r : Addr} {prev : Option Addr}

/-! ### A close -/

/-- The system after `sys_myevent_close(n)`, with the number returned. -/
def close (s : Sys) (n : ℤ) : Except Fault (ℤ × Sys) :=
  (Original.sysMyeventClose s.ev n).map fun x => (x.1, ⟨x.2.2, wakeAll s.task x.2.1⟩)

/-- No task is blocked on the node at `r` any more, and those blocked on other nodes still are. -/
def Frees (s s' : Sys) (r : Addr) : Prop :=
  (∀ t n, s'.task t ≠ .asleep r n) ∧
    ∀ t b n, b ≠ r → s.task t = .asleep b n → s'.task t = .asleep b n

/-- Nobody is blocked on the node at `a`. -/
def Idle (s : Sys) (a : Addr) : Prop := ∀ t n, s.task t ≠ .asleep a n

/-- The node at `b` is the first one behind the node at `r` with the number `n`. -/
def Behind (s : Events) (n : ℤ) (r b : Addr) : Prop :=
  ∃ e prev, s.mem.lookup r = some e ∧ search s n s.mem.keys.length e.next none = .ok (some b, prev)

/-- What a search behind the node at `r` finds. -/
theorem behind_iff {s : Events} {l₁ l₂ : List Addr} (h : WfList s (l₁ ++ r :: l₂)) (b : Addr) :
    Behind s n r b ↔ l₂.find? (fun a => s.num a == some n) = some b := by
  obtain ⟨-, q, hq, hlink⟩ := linked_cons.mp h.chain.tail_at
  obtain ⟨e, he, rfl⟩ := nx_eq_some.mp hq
  obtain ⟨res, hres, hfound⟩ := search_spec (n := n) [] hlink (Linked.length_le hlink) (by simp)
  rw [List.nil_append] at hfound
  have hres : search s n s.mem.keys.length e.next none = .ok res := hres
  rw [← found_eq_find hfound]
  constructor
  · rintro ⟨e', prev, he', hsearch⟩
    obtain rfl : e = e' := Option.some.inj (he.symm.trans he')
    rw [Except.ok.inj (hres.symm.trans hsearch)]
  · intro hb
    exact ⟨e, res.2, he, by rw [hres, ← hb]⟩

/-- **Whom a close wakes**: the waiters of the node itself if it is the last, and otherwise those
of the first event behind it with the same number. -/
theorem close_woken {s : Events} (h : WfList s l) (hs : scheventNum s n = .ok (some r, prev)) :
    ∃ woken s', Original.sysMyeventClose s n = .ok (n, woken, s') ∧
      ((s.lpmyeventEnd = some r ∧ ∃ e, s.mem.lookup r = some e ∧ woken = e.p) ∨
        s.lpmyeventEnd ≠ some r ∧
          ((woken = [] ∧ ∀ b, ¬ Behind s n r b) ∨
            ∃ b e, Behind s n r b ∧ b ∈ l ∧ b ≠ r ∧ s.mem.lookup b = some e ∧ woken = e.p)) := by
  obtain ⟨hrl, hnum⟩ := find_some h hs
  obtain ⟨e, he, -⟩ := num_eq_some.mp hnum
  have hfind : l.find? (fun a => s.num a == some n) = some r := by
    obtain ⟨prev', hs'⟩ := scheventNum_find h n
    exact (Prod.mk.inj (Except.ok.inj (hs'.symm.trans hs))).1
  by_cases hend : s.lpmyeventEnd = some r
  · -- the links are as before, so that the signal finds the node
    obtain ⟨⟨found, prev'⟩, hs', hf⟩ :=
      scheventNum_spec (s := { s with lpmyeventEnd := prev }) h.chain n
    obtain rfl : found = some r := (found_eq_find hf).trans hfind
    exact ⟨_, _, Original.close_some_eq hs (unlink_end_eq hend) (Original.signal_some_eq hs' he),
      Or.inl ⟨hend, e, he, rfl⟩⟩
  · obtain ⟨s₁, hu, hwf, hcore⟩ := unlink_spec h hs hend
    have hnum₁ : s₁.num = s.num := by
      funext b
      rw [num_eq_core, num_eq_core, hcore]
    obtain ⟨-, l₁, l₂, rfl, hno⟩ := List.find?_eq_some_iff_append.mp hfind
    have hnd := h.chain.nodup
    have hr₁ : r ∉ l₁ := fun hmem => (List.nodup_append.mp hnd).2.2 r hmem r (by simp) rfl
    have hr₂ : r ∉ l₂ := (List.nodup_cons.mp (List.nodup_append.mp hnd).2.1).1
    rw [List.erase_append_right _ hr₁, List.erase_cons_head] at hwf
    obtain ⟨prev', hs'⟩ := scheventNum_find hwf n
    have hno₁ : l₁.find? (fun a => s.num a == some n) = none :=
      List.find?_eq_none.mpr fun b hb => by simpa using hno b hb
    rw [hnum₁, List.find?_append, hno₁, Option.none_or] at hs'
    cases hbehind : l₂.find? fun a => s.num a == some n with
    | none =>
      rw [hbehind] at hs'
      refine ⟨_, _, Original.close_some_eq hs hu (Original.signal_none_eq hs'),
        Or.inr ⟨hend, Or.inl ⟨rfl, fun b hb => ?_⟩⟩⟩
      rw [behind_iff h, hbehind] at hb
      cases hb
    | some b =>
      rw [hbehind] at hs'
      have hb₂ : b ∈ l₂ := List.mem_of_find?_eq_some hbehind
      obtain ⟨eb, heb⟩ := Linked.lookup h.chain (a := b) (by simp [hb₂])
      obtain ⟨eb', heb', heq⟩ := core_eq_some.mp ((congrFun hcore b).trans (core_of_lookup heb))
      simp only [Prod.mk.injEq] at heq
      refine ⟨_, _, Original.close_some_eq hs hu (Original.signal_some_eq hs' heb'),
        Or.inr ⟨hend, Or.inr ⟨b, eb, (behind_iff h b).mpr hbehind, by simp [hb₂], ?_, heb, heq.2.2⟩⟩⟩
      rintro rfl
      exact hr₂ hb₂

/-! ### Closes after a run -/

/-- A wake-up frees the tasks blocked on the node at `r` if it wakes all of them and nobody else who
is asleep. -/
theorem frees_wakeAll_iff {s : Sys} {ev : Events} {woken : List Task} :
    Frees s ⟨ev, wakeAll s.task woken⟩ r ↔ (∀ t m, s.task t = .asleep r m → t ∈ woken) ∧
      ∀ t b m, b ≠ r → s.task t = .asleep b m → t ∉ woken := by
  unfold Frees
  refine and_congr (forall_congr' fun t => forall_congr' fun m => ?_)
    (forall_congr' fun t => forall_congr' fun b => forall_congr' fun m => imp_congr_right fun _ =>
      imp_congr_right fun ht => ?_)
  · rw [Ne, wakeAll_asleep, not_and']
    exact imp_congr_right fun _ => not_not
  · rw [wakeAll_asleep]
    exact and_iff_left ht

/-- **One close** frees the waiters of its event and nobody else exactly when the event is the last
one, or when nobody waits for it and for the next event with its number. -/
theorem close_frees_iff {s : Sys} (h : Inv s l) (hr : Releases s.ev n r) :
    ∃ s', close s n = .ok (n, s') ∧ (Frees s s' r ↔
      s.ev.lpmyeventEnd = some r ∨ (Idle s r ∧ ∀ b, Behind s.ev n r b → Idle s b)) := by
  obtain ⟨prev, hs⟩ := hr
  obtain ⟨hrl, -⟩ := find_some h.wf hs
  obtain ⟨woken, ev, hclose, hwoken⟩ := close_woken h.wf hs
  refine ⟨⟨ev, wakeAll s.task woken⟩, by rw [close, hclose]; rfl, ?_⟩
  rw [frees_wakeAll_iff]
  rcases hwoken with ⟨hend, e, he, rfl⟩ | ⟨hend, ⟨rfl, hnone⟩ | ⟨b, e, hb, hbl, hbr, he, rfl⟩⟩
  · refine iff_of_true ⟨fun t m ht => ?_, fun t b m hb ht hmem => ?_⟩ (Or.inl hend)
    · exact (h.queue r hrl e he t).mpr ⟨m, ht⟩
    · obtain ⟨k, hk⟩ := (h.queue r hrl e he t).mp hmem
      rw [ht] at hk
      exact hb (Status.asleep.inj hk).1
  · rw [or_iff_right hend]
    constructor
    · rintro ⟨hfree, -⟩
      exact ⟨fun t m ht => absurd (hfree t m ht) (by simp), fun b hb => absurd hb (hnone b)⟩
    · rintro ⟨hidle, -⟩
      exact ⟨fun t m ht => absurd ht (hidle t m), fun t b m _ _ => by simp⟩
  · rw [or_iff_right hend]
    have hmem := h.queue b hbl e he
    constructor
    · rintro ⟨hfree, hother⟩
      refine ⟨fun t m ht => ?_, fun c hc t m ht => ?_⟩
      · obtain ⟨k, hk⟩ := (hmem t).mp (hfree t m ht)
        rw [ht] at hk
        exact hbr (Status.asleep.inj hk).1.symm
      · obtain rfl : b = c := by
          obtain ⟨x, p, hx, hp⟩ := hb
          obtain ⟨y, q, hy, hq⟩ := hc
          obtain rfl : x = y := Option.some.inj (hx.symm.trans hy)
          exact Option.some.inj (Prod.mk.inj (Except.ok.inj (hp.symm.trans hq))).1
        exact hother t b m hbr ht ((hmem t).mpr ⟨m, ht⟩)
    · rintro ⟨hidle, hbehind⟩
      refine ⟨fun t m ht => absurd ht (hidle t m), fun t c m _ _ hte => ?_⟩
      obtain ⟨k, hk⟩ := (hmem t).mp hte
      exact hbehind b hb t k hk

/-- The queues are right throughout every run of opens, waits and signals. -/
theorem inv_run {acts : List (Act Answer)} {s : Sys}
    (hrun : run (step original) (.ok start) acts = some (.ok s)) : ∃ l, Inv s l := by
  have hstep : ∀ (x : Except Fault Sys) (c : Act Answer) (x' : Except Fault Sys),
      (∀ s, x = .ok s → ∃ l, Inv s l) → step original x c = some x' →
        ∀ s, x' = .ok s → ∃ l, Inv s l := by
    rintro x c x' hx hstep s' rfl
    cases x with
    | error f => cases hstep
    | ok s =>
      obtain ⟨l, hl⟩ := hx s rfl
      exact original_step hl hstep
  have hstart : ∀ s, (.ok start : Except Fault Sys) = .ok s → ∃ l, Inv s l := by
    rintro s hs
    obtain rfl := Except.ok.inj hs
    exact ⟨[], inv_start⟩
  exact (always_of_step hstep hstart acts).last hrun s rfl

/-- **Closing an original event** after any run of opens, waits and signals: it frees the tasks
blocked on the event and no others exactly when the event is the one `lpmyevent_end` points to, or
when nobody is blocked on it and on the next event with its number. -/
theorem frees_iff (acts : List (Act Answer)) (s : Sys) (n : ℤ) (r : Addr)
    (hrun : run (step original) (.ok start) acts = some (.ok s)) (hr : Releases s.ev n r) :
    ∃ s', close s n = .ok (n, s') ∧ (Frees s s' r ↔
      s.ev.lpmyeventEnd = some r ∨ (Idle s r ∧ ∀ b, Behind s.ev n r b → Idle s b)) := by
  obtain ⟨l, h⟩ := inv_run hrun
  exact close_frees_iff h hr

/-- Two events, the numbers 2 and 4, and a task that waits for the first one. -/
def waitFirst : List (Act Answer) :=
  [.sysOpen 0 0 (some (8, ⟨0, 0, [], none⟩)), .sysOpen 0 0 (some (16, ⟨0, 0, [], none⟩)), .wait 1 2]

/-- The node found under the number `n`, and where the task `t` is after `sys_myevent_close(n)`. -/
def afterClose (n : ℤ) (t : Task) : Except Fault Sys → Option (Option Addr × ℤ × Status)
  | .error _ => none
  | .ok s => do
    let (found, _) ← (scheventNum s.ev n).toOption
    let (v, s') ← (close s n).toOption
    return (found, v, s'.task t)

theorem waitFirst_close : ∃ s s', run (step original) (.ok start) waitFirst = some (.ok s) ∧
    Releases s.ev 2 8 ∧ close s 2 = .ok (2, s') ∧ s'.task 1 = .asleep 8 2 := by
  have hrun : (run (step original) (.ok start) waitFirst).map (afterClose 2 1) =
      some (some (some 8, 2, .asleep 8 2)) := by decide +kernel
  obtain ⟨x, hx, hafter⟩ := Option.map_eq_some_iff.mp hrun
  cases x with
  | error f => cases hafter
  | ok s =>
    cases hs : scheventNum s.ev 2 with
    | error f => simp [afterClose, hs, Except.toOption] at hafter
    | ok found =>
      cases hc : close s 2 with
      | error f => simp [afterClose, hs, hc, Except.toOption] at hafter
      | ok result =>
        obtain ⟨a, prev⟩ := found
        obtain ⟨v, s'⟩ := result
        simp only [afterClose, hs, hc, Except.toOption, Option.bind_eq_bind, Option.bind_some,
          Option.pure_def, Option.some.injEq, Prod.mk.injEq] at hafter
        obtain ⟨rfl, rfl, ht⟩ := hafter
        exact ⟨s, s', hx, ⟨prev, hs⟩, hc, ht⟩

/-- The condition for the waiter of the first of two events. -/
theorem frees_iff_waitFirst : ∃ s s', run (step original) (.ok start) waitFirst = some (.ok s) ∧
    close s 2 = .ok (2, s') ∧ (Frees s s' 8 ↔
      s.ev.lpmyeventEnd = some 8 ∨ (Idle s 8 ∧ ∀ b, Behind s.ev 2 8 b → Idle s b)) := by
  obtain ⟨s, -, hrun, hr, -⟩ := waitFirst_close
  obtain ⟨s', hclose, hiff⟩ := frees_iff waitFirst s 2 8 hrun hr
  exact ⟨s, s', hrun, hclose, hiff⟩

/-- The first of two events is closed: its waiter is blocked for ever, on the queue of a node that
has been freed. -/
theorem frees_broken : ¬ ∀ (acts : List (Act Answer)) (s : Sys) (n : ℤ) (r : Addr),
    run (step original) (.ok start) acts = some (.ok s) → Releases s.ev n r →
      ∃ s', close s n = .ok (n, s') ∧ Frees s s' r := by
  intro h
  obtain ⟨s, s', hrun, hr, hclose, ht⟩ := waitFirst_close
  obtain ⟨s₁, hs₁, hfree, -⟩ := h waitFirst s 2 8 hrun hr
  obtain rfl : s' = s₁ := (Prod.mk.inj (Except.ok.inj (hclose.symm.trans hs₁))).2
  exact hfree 1 2 ht

end LinuxHomework.Event.Waiters
