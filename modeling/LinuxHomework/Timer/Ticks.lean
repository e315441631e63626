import LinuxHomework.Timer.Elapsed
import Mathlib.Data.List.Range

/-! # Clocks that count ticks, `3/mygettimeofday.c` and `3/clock.c`

A child sets a timer that expires every microsecond, installs its handler and sleeps; the parent
installs a handler of its own and sleeps. The handler of the child counts, and in `mygettimeofday.c`
sends the parent a signal for each second that it has counted. A signal that comes while one is
pending is lost, and a signal that comes before the handler is installed kills the process. The
processes and the timer go on in any order; an overflow ends the run.

* `Good.step`: what every step of such a program keeps.
* `passed_always`: the counters of `mygettimeofday.c`, which makes a second of 100000 ticks.
* `mainSec_iff`, `handled_iff`: which runs lose no signal to the parent, and none to the child.
* `clock_always`: the time that `clock.c` shows is its start and the ticks handled, with the carry
  at a million. -/

namespace LinuxHomework.Timer.Ticks

open LinuxHomework.Lib.Runs
open LinuxHomework.Timer.Elapsed (signed signed_eq)

/-! ### The processes -/

/-- Where the child is: before `setitimer`, before `signal`, in its loop, or killed. -/
inductive Child
  | forked
  | timed
  | looping
  | killed
deriving DecidableEq

/-- Where the parent is: before `signal`, in its loop, or killed. -/
inductive Parent
  | started
  | looping
  | killed
deriving DecidableEq

/-- The two processes. `ticking` and `waiting` say whether a signal is pending for the child and for
the parent; `expired`, `handled` and `sent` are the expirations of the timer, the calls of `handle`
and those of `kill` so far. -/
structure Sys (α : Type) where
  child : Child
  ticking : Bool
  vars : α
  parent : Parent
  waiting : Bool
  mainSec : ℤ
  expired : ℕ
  handled : ℕ
  sent : ℕ

/-- The child goes on, its timer expires, it gets a signal; the parent goes on, it gets a signal. -/
inductive Act
  | childMain
  | expire
  | childSignal
  | parentMain
  | parentSignal
deriving DecidableEq

/-- A handler: the variables of the child, and whether it calls `kill(getppid(), SIGALRM)`. -/
abbrev Handle (α : Type) := α → Option (α × Bool)

/-- `kill(getppid(), SIGALRM)`. The signal does not reach the parent any more once that was
killed. -/
def Sys.kill {α : Type} (s : Sys α) : Sys α :=
  { s with waiting := s.waiting || s.parent != .killed, sent := s.sent + 1 }

def step {α : Type} (handle : Handle α) (s : Sys α) : Act → Option (Sys α)
  | .childMain =>
    match s.child with
    | .forked => some { s with child := .timed }
    | .timed => some { s with child := .looping }
    | _ => none
  | .expire =>
    match s.child with
    | .forked | .killed => none
    | _ => some { s with ticking := true, expired := s.expired + 1 }
  | .childSignal =>
    if s.ticking then
      match s.child with
      | .looping => (handle s.vars).map fun r =>
        let s := { s with ticking := false, vars := r.1, handled := s.handled + 1 }
        if r.2 then s.kill else s
      | _ => some { s with ticking := false, child := .killed }
    else none
  | .parentMain =>
    match s.parent with
    | .started => some { s with parent := .looping }
    | _ => none
  | .parentSignal =>
    if s.waiting then
      match s.parent with
      | .looping => (signed 32 (s.mainSec + 1)).map fun mainSec =>
        { s with waiting := false, mainSec }
      | _ => some { s with waiting := false, parent := .killed }
    else none

/-- The two processes behind `fork`. -/
def start {α : Type} (vars : α) : Sys α := ⟨.forked, false, vars, .started, false, 0, 0, 0, 0⟩

variable {α : Type} {handle : Handle α} {s s' : Sys α} {v v' : α} {a : Act} {as : List Act} {n k : ℕ}
  {b : Bool}

/-- **What a step can do.** -/
inductive Did (handle : Handle α) (s : Sys α) : Act → Sys α → Prop
  | setitimer (h : s.child = .forked) : Did handle s .childMain { s with child := .timed }
  | childInstall (h : s.child = .timed) : Did handle s .childMain { s with child := .looping }
  | expire (h : s.child = .timed ∨ s.child = .looping) :
    Did handle s .expire { s with ticking := true, expired := s.expired + 1 }
  | count (v' : α) (ht : s.ticking = true) (h : s.child = .looping)
      (hv : handle s.vars = some (v', false)) :
    Did handle s .childSignal { s with ticking := false, vars := v', handled := s.handled + 1 }
  | second (v' : α) (ht : s.ticking = true) (h : s.child = .looping)
      (hv : handle s.vars = some (v', true)) :
    Did handle s .childSignal
      { s with ticking := false, vars := v', handled := s.handled + 1 }.kill
  | childKilled (ht : s.ticking = true) (h : s.child ≠ .looping) :
    Did handle s .childSignal { s with ticking := false, child := .killed }
  | parentInstall (h : s.parent = .started) : Did handle s .parentMain { s with parent := .looping }
  | parentCount (hw : s.waiting = true) (h : s.parent = .looping) :
    Did handle s .parentSignal { s with waiting := false, mainSec := s.mainSec + 1 }
  | parentKilled (hw : s.waiting = true) (h : s.parent ≠ .looping) :
    Did handle s .parentSignal { s with waiting := false, parent := .killed }

theorem step_did (hstep : step handle s a = some s') : Did handle s a s' := by
  cases a with
  | childMain =>
    unfold step at hstep
    cases hc : s.child with
    | forked =>
      rw [hc] at hstep
      obtain rfl := Option.some.inj hstep
      exact .setitimer hc
    | timed =>
      rw [hc] at hstep
      obtain rfl := Option.some.inj hstep
      exact .childInstall hc
    | looping => simp [hc] at hstep
    | killed => simp [hc] at hstep
  | expire =>
    unfold step at hstep
    cases hc : s.child with
    | forked => simp [hc] at hstep
    | timed =>
      simp only [hc, Option.some.injEq] at hstep
      rw [← hstep, ← hc]
      exact .expire (Or.inl hc)
    | looping =>
      simp only [hc, Option.some.injEq] at hstep
      rw [← hstep, ← hc]
      exact .expire (Or.inr hc)
    | killed => simp [hc] at hstep
  | childSignal =>
    obtain ⟨ht, hstep⟩ := Option.ite_none_right_eq_some.mp hstep
    by_cases hc : s.child = .looping
    · rw [hc] at hstep
      obtain ⟨⟨v', b⟩, hv, rfl⟩ := Option.map_eq_some_iff.mp hstep
      cases b with
      | false => simpa [hc] using Did.count v' ht hc hv
      | true => simpa [hc] using Did.second v' ht hc hv
    · have hkilled : some { s with ticking := false, child := .killed } = some s' := by
        rw [← hstep]
        cases hs : s.child <;> simp_all
      rw [← Option.some.inj hkilled]
      exact .childKilled ht hc
  | parentMain =>
    unfold step at hstep
    cases hp : s.parent with
    | started =>
      rw [hp] at hstep
      obtain rfl := Option.some.inj hstep
      exact .parentInstall hp
    | looping => simp [hp] at hstep
    | killed => simp [hp] at hstep
  | parentSignal =>
    obtain ⟨hw, hstep⟩ := Option.ite_none_right_eq_some.mp hstep
    by_cases hp : s.parent = .looping
    · rw [hp] at hstep
      obtain ⟨mainSec, hsec, rfl⟩ := Option.map_eq_some_iff.mp hstep
      obtain rfl := signed_eq hsec
      simpa [hp] using Did.parentCount hw hp
    · have hkilled : some { s with waiting := false, parent := .killed } = some s' := by
        rw [← hstep]
        cases hs : s.parent <;> simp_all
      rw [← Option.some.inj hkilled]
      exact .parentKilled hw hp

/-- **What a handler keeps** of its variables, after `n` calls of which `k` have sent a signal. -/
structure Keeps (handle : Handle α) (I : ℕ → ℕ → α → Prop) (v : α) : Prop where
  start : I 0 0 v
  handle : ∀ n k v v' b, I n k v → handle v = some (v', b) → I (n + 1) (k + b.toNat) v'

/-- **What the signals keep**, lost or not. -/
structure Good (I : ℕ → ℕ → α → Prop) (s : Sys α) : Prop where
  vars : I s.handled s.sent s.vars
  ticks : s.handled + s.ticking.toNat ≤ s.expired
  seconds : s.mainSec + s.waiting.toNat ≤ s.sent
  nonneg : 0 ≤ s.mainSec
  early : s.child = .forked → s.ticking = false
  parent : s.parent ≠ .looping → s.mainSec = 0
  gone : s.parent = .killed → s.waiting = false

variable {I : ℕ → ℕ → α → Prop}

theorem good_start (h : Keeps handle I v) : Good I (start v) :=
  ⟨h.start, le_rfl, le_rfl, le_rfl, fun _ => rfl, fun _ => rfl, fun _ => rfl⟩

/-- **One step.** -/
theorem Good.step (hkeeps : Keeps handle I v) (h : Good I s) (hstep : step handle s a = some s') :
    Good I s' := by
  obtain ⟨hvars, hticks, hseconds, hnonneg, hearly, hparent, hgone⟩ := h
  cases step_did hstep with
  | setitimer hc => exact ⟨hvars, hticks, hseconds, hnonneg, nofun, hparent, hgone⟩
  | childInstall hc => exact ⟨hvars, hticks, hseconds, hnonneg, nofun, hparent, hgone⟩
  | expire hc =>
    refine ⟨hvars, ?_, hseconds, hnonneg, fun hf => ?_, hparent, hgone⟩
    · have : s.handled ≤ s.expired := (Nat.le_add_right ..).trans hticks
      exact Nat.succ_le_succ this
    · rcases hc with hc | hc <;> exact absurd (hc.symm.trans hf) nofun
  | count v' ht hc hv =>
    rw [ht] at hticks
    exact ⟨hkeeps.handle _ _ _ _ _ hvars hv, hticks, hseconds, hnonneg, fun _ => rfl, hparent, hgone⟩
  | second v' ht hc hv =>
    rw [ht] at hticks
    refine ⟨hkeeps.handle _ _ _ _ _ hvars hv, hticks, ?_, hnonneg, fun _ => rfl, hparent, fun hp => ?_⟩
    · have hle := Bool.toNat_le (s.waiting || s.parent != .killed)
      show s.mainSec + ((s.waiting || s.parent != .killed).toNat : ℕ) ≤ (s.sent + 1 : ℕ)
      omega
    · have hp : s.parent = .killed := hp
      show (s.waiting || s.parent != .killed) = false
      rw [hgone hp, hp]
      rfl
  | childKilled ht hc =>
    exact ⟨hvars, (Nat.le_add_right ..).trans hticks, hseconds, hnonneg, fun _ => rfl, hparent, hgone⟩
  | parentInstall hp =>
    exact ⟨hvars, hticks, hseconds, hnonneg, hearly, fun h => absurd rfl h, nofun⟩
  | parentCount hw hp =>
    rw [hw] at hseconds
    refine ⟨hvars, hticks, ?_, ?_, hearly, fun h => absurd hp h, fun _ => rfl⟩
    · show s.mainSec + 1 + ((false.toNat : ℕ) : ℤ) ≤ s.sent
      have : (true.toNat : ℕ) = 1 := rfl
      have : (false.toNat : ℕ) = 0 := rfl
      omega
    · show 0 ≤ s.mainSec + 1
      omega
  | parentKilled hw hp =>
    refine ⟨hvars, hticks, ?_, hnonneg, hearly, fun _ => hparent hp, fun _ => rfl⟩
    show s.mainSec + ((false.toNat : ℕ) : ℤ) ≤ s.sent
    have : (false.toNat : ℕ) = 0 := rfl
    omega

/-- **In every run** of such a program. -/
theorem good_always (hkeeps : Keeps handle I v) (as : List Act) :
    Always (step handle) (Good I) (start v) as :=
  always_of_step (fun _ _ _ h hstep => h.step hkeeps hstep) (good_start hkeeps) as

/-! ### Runs that lose no signal -/

/-- No signal to the parent is lost by this step: the parent is there and none is pending when
`kill` is called, and its handler is installed when the signal comes. -/
def SecondKept (handle : Handle α) (s : Sys α) : Act → Prop
  | .childSignal => s.child = .looping → (∃ v', handle s.vars = some (v', true)) →
    s.waiting = false ∧ s.parent ≠ .killed
  | .parentSignal => s.parent = .looping
  | _ => True

/-- No tick is lost by this step: none is pending when the timer expires, and the handler of the
child is installed when the signal comes. -/
def TickKept (s : Sys α) : Act → Prop
  | .expire => s.ticking = false
  | .childSignal => s.child = .looping
  | _ => True

/-- **Which runs lose no second**: in those, and in no others, the parent has counted all the
signals that were sent, up to one that is pending. -/
theorem mainSec_iff (hkeeps : Keeps handle I v) (as : List Act) :
    Always (step handle) (fun s => s.mainSec + s.waiting.toNat = s.sent) (start v) as ↔
      Meets (step handle) (SecondKept handle) (start v) as := by
  refine always_iff_meets (I := Good I) (fun s a s' h _ hstep _ => h.step hkeeps hstep)
    (fun s a s' h heq hstep => ?_) (good_start hkeeps) rfl
  have htrue : (true.toNat : ℕ) = 1 := rfl
  have hfalse : (false.toNat : ℕ) = 0 := rfl
  cases step_did hstep with
  | setitimer hc => exact ⟨fun _ => trivial, fun _ => heq⟩
  | childInstall hc => exact ⟨fun _ => trivial, fun _ => heq⟩
  | expire hc => exact ⟨fun _ => trivial, fun _ => heq⟩
  | count v' ht hc hv =>
    refine ⟨fun _ _ hsend => ?_, fun _ => heq⟩
    obtain ⟨w, hw⟩ := hsend
    rw [hv] at hw
    cases hw
  | second v' ht hc hv =>
    have hpending : s.mainSec + ((s.waiting || s.parent != .killed).toNat : ℕ) = (s.sent + 1 : ℕ) ↔
        s.waiting = false ∧ s.parent ≠ .killed := by
      cases hw : s.waiting with
      | true =>
        rw [hw] at heq
        simp only [Bool.true_or, Bool.true_eq_false, false_and, iff_false]
        omega
      | false =>
        rw [hw] at heq
        by_cases hp : s.parent = .killed
        · simp only [hp, bne_self_eq_false, Bool.or_false, ne_eq, not_true_eq_false, and_false,
            iff_false]
          omega
        · have hne : (s.parent != .killed) = true := by simpa using hp
          simp only [hne, Bool.false_or, ne_eq, hp, not_false_eq_true, and_true, iff_true]
          omega
    exact hpending.trans ⟨fun h _ _ => h, fun h => h hc ⟨v', hv⟩⟩
  | childKilled ht hc => exact ⟨fun _ hl => absurd hl hc, fun _ => heq⟩
  | parentInstall hp => exact ⟨fun _ => trivial, fun _ => heq⟩
  | parentCount hw hp =>
    refine ⟨fun _ => hp, fun _ => ?_⟩
    show s.mainSec + 1 + ((false.toNat : ℕ) : ℤ) = s.sent
    rw [hw] at heq
    omega
  | parentKilled hw hp =>
    refine ⟨fun hlost => ?_, fun hl => absurd hl hp⟩
    have hlost : s.mainSec + ((false.toNat : ℕ) : ℤ) = s.sent := hlost
    rw [hw] at heq
    omega

/-- **Which runs lose no tick.** -/
theorem handled_iff (hkeeps : Keeps handle I v) (as : List Act) :
    Always (step handle) (fun s => s.handled + s.ticking.toNat = s.expired) (start v) as ↔
      Meets (step handle) TickKept (start v) as := by
  refine always_iff_meets (I := Good I) (fun s a s' h _ hstep _ => h.step hkeeps hstep)
    (fun s a s' h heq hstep => ?_) (good_start hkeeps) rfl
  have htrue : true.toNat = 1 := rfl
  have hfalse : false.toNat = 0 := rfl
  cases step_did hstep with
  | setitimer hc => exact ⟨fun _ => trivial, fun _ => heq⟩
  | childInstall hc => exact ⟨fun _ => trivial, fun _ => heq⟩
  | expire hc =>
    show s.handled + true.toNat = s.expired + 1 ↔ s.ticking = false
    cases ht : s.ticking with
    | true =>
      rw [ht] at heq
      simp only [Bool.true_eq_false, iff_false]
      omega
    | false =>
      rw [ht] at heq
      simp only [iff_true]
      omega
  | count v' ht hc hv =>
    refine ⟨fun _ => hc, fun _ => ?_⟩
    rw [ht] at heq
    exact heq
  | second v' ht hc hv =>
    refine ⟨fun _ => hc, fun _ => ?_⟩
    rw [ht] at heq
    exact heq
  | childKilled ht hc =>
    refine ⟨fun hlost => ?_, fun hl => absurd hl hc⟩
    have hlost : s.handled + false.toNat = s.expired := hlost
    rw [ht] at heq
    omega
  | parentInstall hp => exact ⟨fun _ => trivial, fun _ => heq⟩
  | parentCount hw hp => exact ⟨fun _ => trivial, fun _ => heq⟩
  | parentKilled hw hp => exact ⟨fun _ => trivial, fun _ => heq⟩

/-! ### `3/mygettimeofday.c` -/

/-- The variables of the child, and what it has printed. -/
structure Passed where
  passedSec : ℤ
  count : ℤ
  passedUsec : ℤ
  printed : List ℤ

/-- **`handle`**. -/
def handlePassed : Handle Passed := fun v => do
  let count ← signed 32 (v.count + 1)
  if count = 100000 then
    let passedSec ← signed 32 (v.passedSec + 1)
    return (⟨passedSec, 0, 0, v.printed ++ [passedSec]⟩, true)
  else
    let passedUsec ← signed 32 (v.passedUsec + 1)
    return ({ v with count, passedUsec }, false)

/-- **A second of 100000 ticks.** -/
structure PassedGood (n k : ℕ) (v : Passed) : Prop where
  sec : v.passedSec = n / 100000
  count : v.count = n % 100000
  usec : v.passedUsec = n % 100000
  sent : k = n / 100000
  printed : v.printed = (List.range k).map fun i : ℕ => (i : ℤ) + 1

/-- The variables at the start of the program. -/
def passedStart : Passed := ⟨0, 0, 0, []⟩

theorem keeps_passed : Keeps handlePassed PassedGood passedStart := by
  refine ⟨⟨rfl, rfl, rfl, rfl, rfl⟩, fun n k v v' b h hv => ?_⟩
  obtain ⟨hsec, hcount, husec, hsent, hprinted⟩ := h
  obtain ⟨count, hc, hv⟩ := Option.bind_eq_some_iff.mp hv
  obtain rfl := signed_eq hc
  split_ifs at hv with heq
  · obtain ⟨passedSec, hp, hv⟩ := Option.bind_eq_some_iff.mp hv
    obtain rfl := signed_eq hp
    obtain ⟨rfl, rfl⟩ := Prod.mk.inj (Option.some.inj hv)
    have hdiv : n % 100000 = 99999 := by omega
    have hk : k + 1 = (n + 1) / 100000 := by omega
    refine ⟨?_, ?_, ?_, hk, ?_⟩
    · show v.passedSec + 1 = _
      omega
    · show (0 : ℤ) = _
      omega
    · show (0 : ℤ) = _
      omega
    · show v.printed ++ [v.passedSec + 1] = (List.range (k + 1)).map _
      rw [List.range_succ, List.map_append, hprinted, hsec, hsent]
      simp
  · obtain ⟨passedUsec, hp, hv⟩ := Option.bind_eq_some_iff.mp hv
    obtain rfl := signed_eq hp
    obtain ⟨rfl, rfl⟩ := Prod.mk.inj (Option.some.inj hv)
    refine ⟨?_, ?_, ?_, ?_, hprinted⟩
    · show v.passedSec = _
      omega
    · show v.count + 1 = _
      omega
    · show v.passedUsec + 1 = _
      omega
    · show k = _
      omega

/-- **The counters of `mygettimeofday.c`** in every run: the ticks handled, in seconds of 100000
ticks, are never more than the timer's, and the seconds of the parent are never more than those of
the child. They are the same throughout a run, up to a pending signal, if and only if no signal is
lost in it. -/
theorem passed_always (as : List Act) :
    Always (step handlePassed) (fun s => (0 ≤ s.vars.passedUsec ∧ s.vars.passedUsec < 100000) ∧
      s.vars.passedSec * 100000 + s.vars.passedUsec = s.handled ∧ s.handled ≤ s.expired ∧
      s.vars.printed = (List.range s.sent).map (fun i : ℕ => (i : ℤ) + 1) ∧ s.vars.passedSec = s.sent ∧
      0 ≤ s.mainSec ∧ s.mainSec ≤ s.vars.passedSec) (start passedStart) as ∧
    (Always (step handlePassed) (fun s => s.mainSec + s.waiting.toNat = s.vars.passedSec)
        (start passedStart) as ↔
          Meets (step handlePassed) (SecondKept handlePassed) (start passedStart) as) ∧
    (Always (step handlePassed) (fun s =>
        s.vars.passedSec * 100000 + s.vars.passedUsec + s.ticking.toNat = s.expired)
        (start passedStart) as ↔ Meets (step handlePassed) TickKept (start passedStart) as) := by
  have hgood := good_always keeps_passed as
  have hsent : ∀ s, Good PassedGood s → s.vars.passedSec = s.sent := by
    intro s h
    have := h.vars.sec
    have := h.vars.sent
    omega
  have hhandled : ∀ s, Good PassedGood s →
      s.vars.passedSec * 100000 + s.vars.passedUsec = s.handled := by
    intro s h
    have := h.vars.sec
    have := h.vars.usec
    omega
  refine ⟨hgood.mono fun s h => ⟨?_, hhandled s h, ?_, h.vars.printed, hsent s h, h.nonneg, ?_⟩, ?_, ?_⟩
  · have := h.vars.usec
    omega
  · exact (Nat.le_add_right ..).trans h.ticks
  · have := h.seconds
    have := hsent s h
    omega
  · rw [← mainSec_iff keeps_passed]
    exact always_congr hgood fun s h => by rw [hsent s h]
  · rw [← handled_iff keeps_passed]
    refine always_congr hgood fun s h => ?_
    rw [hhandled s h]
    exact_mod_cast Iff.rfl

/-! ### `3/clock.c` -/

/-- The time of the child, and the times it has shown. -/
structure Clock where
  tvSec : ℤ
  tvUsec : ℤ
  shown : List (ℤ × ℤ)

/-- **`handle`** of `clock.c`. How `localtime` splits the seconds is left out. -/
def handleClock : Handle Clock := fun v =>
  if v.tvUsec = 999999 then do
    let tvSec ← signed 64 (v.tvSec + 1)
    return (⟨tvSec, 0, v.shown ++ [(tvSec, 0)]⟩, false)
  else do
    let tvUsec ← signed 64 (v.tvUsec + 1)
    return ({ v with tvUsec, shown := v.shown ++ [(v.tvSec, tvUsec)] }, false)

/-- A time in seconds and microseconds. -/
def timeval (usec : ℤ) : ℤ × ℤ := (usec / 1000000, usec % 1000000)

/-- **The time** is the one that the program began with and a microsecond for each call. -/
structure ClockGood (began : ℤ) (n k : ℕ) (v : Clock) : Prop where
  time : (v.tvSec, v.tvUsec) = timeval (began + n)
  shown : v.shown = (List.range n).map fun i : ℕ => timeval (began + i + 1)
  sent : k = 0

theorem keeps_clock (sec : ℤ) {usec : ℤ} (h : 0 ≤ usec) (h' : usec < 1000000) :
    Keeps handleClock (ClockGood (sec * 1000000 + usec)) ⟨sec, usec, []⟩ := by
  refine ⟨⟨?_, rfl, rfl⟩, fun n k v v' b hgood hv => ?_⟩
  · unfold timeval
    refine Prod.ext ?_ ?_
    · show sec = _
      omega
    · show usec = _
      omega
  · obtain ⟨htime, hshown, hsent⟩ := hgood
    obtain ⟨hs, hu⟩ := Prod.mk.inj htime
    -- both branches show the time that is a microsecond later
    have hnext : ∀ s u, (s, u) = timeval (sec * 1000000 + usec + n + 1) → k + false.toNat = 0 →
        ClockGood (sec * 1000000 + usec) (n + 1) (k + false.toNat)
          ⟨s, u, v.shown ++ [(s, u)]⟩ := by
      intro s u hsu hk
      refine ⟨?_, ?_, hk⟩
      · rw [hsu]
        push_cast
        rw [add_assoc (sec * 1000000 + usec)]
      · rw [List.range_succ, List.map_append, hshown, hsu]
        rfl
    unfold handleClock at hv
    split_ifs at hv with hcarry
    · obtain ⟨tvSec, hp, hv⟩ := Option.bind_eq_some_iff.mp hv
      obtain rfl := signed_eq hp
      obtain ⟨rfl, rfl⟩ := Prod.mk.inj (Option.some.inj hv)
      refine hnext _ _ (Prod.ext ?_ ?_) hsent
      · show v.tvSec + 1 = _ / 1000000
        omega
      · show 0 = _ % 1000000
        omega
    · obtain ⟨tvUsec, hp, hv⟩ := Option.bind_eq_some_iff.mp hv
      obtain rfl := signed_eq hp
      obtain ⟨rfl, rfl⟩ := Prod.mk.inj (Option.some.inj hv)
      refine hnext _ _ (Prod.ext ?_ ?_) hsent
      · show v.tvSec = _ / 1000000
        omega
      · show v.tvUsec + 1 = _ % 1000000
        omega

/-- **The time that `clock.c` shows**, in every run: it began with a time of `gettimeofday`, and
each tick handled is a microsecond; each time that was shown is the next one. Nothing is sent to the
parent. -/
theorem clock_always (sec : ℤ) {usec : ℤ} (h : 0 ≤ usec) (h' : usec < 1000000) (as : List Act) :
    Always (step handleClock) (fun s =>
      (s.vars.tvSec, s.vars.tvUsec) = timeval (sec * 1000000 + usec + s.handled) ∧
      s.vars.shown = (List.range s.handled).map (fun i : ℕ => timeval (sec * 1000000 + usec + i + 1)) ∧
      s.handled ≤ s.expired ∧ s.sent = 0 ∧ s.mainSec = 0) (start ⟨sec, usec, []⟩) as ∧
    (Always (step handleClock) (fun s =>
        (s.vars.tvSec, s.vars.tvUsec) = timeval (sec * 1000000 + usec + s.expired - s.ticking.toNat))
        (start ⟨sec, usec, []⟩) as ↔ Meets (step handleClock) TickKept (start ⟨sec, usec, []⟩) as) := by
  have hgood := good_always (keeps_clock sec h h') as
  refine ⟨hgood.mono fun s hs => ⟨hs.vars.time, hs.vars.shown, ?_, hs.vars.sent, ?_⟩, ?_⟩
  · exact (Nat.le_add_right ..).trans hs.ticks
  · have := hs.vars.sent
    have := hs.seconds
    have := hs.nonneg
    omega
  · rw [← handled_iff (keeps_clock sec h h')]
    refine always_congr hgood fun s hs => ?_
    rw [hs.vars.time]
    unfold timeval
    constructor
    · intro heq
      obtain ⟨hsec, husec⟩ := Prod.mk.inj heq
      omega
    · intro heq
      have : (s.handled : ℤ) = s.expired - s.ticking.toNat := by omega
      rw [this, add_sub_assoc]

/-- A microsecond before a full second, the timer expires twice. -/
theorem clock_always_carry : ∃ s, run (step handleClock) (start ⟨7, 999999, []⟩)
    [.childMain, .childMain, .expire, .childSignal, .expire, .childSignal] = some s ∧
      s.vars.shown = [(8, 0), (8, 1)] := by
  have hle : (0 : ℤ) ≤ 999999 := by decide
  have hlt : (999999 : ℤ) < 1000000 := by decide
  have hrun : run (step handleClock) (start ⟨7, 999999, []⟩)
    [.childMain, .childMain, .expire, .childSignal, .expire, .childSignal] = some _ := rfl
  exact ⟨_, hrun, ((clock_always 7 hle hlt _).1.last hrun).2.1⟩

end LinuxHomework.Timer.Ticks
