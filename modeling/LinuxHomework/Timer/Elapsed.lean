import LinuxHomework.Timer.Interrupts

/-! # The times that a process reports, `3/mytimer.c`

The parent and its two children each set three interval timers to 9 s 999999 us, count the
expirations in the handlers, ten seconds for each, and at the end ask for the time that is left and
print the sum. The clock of a timer counts the microseconds since it was set. Time passes, signals
are handled and `main` goes on in any order; an arithmetic overflow, which C gives no meaning, ends
the run.

* `Good.step`: the seconds are ten for each signal handled, and what `getitimer` has stored is the
  time that was left.
* `report_iff`: the microseconds printed are always between 0 and 999999, and the time printed is
  the time elapsed at the `getitimer` call exactly if the seconds counted for the signals handled
  are the periods that had passed; if all expirations have been handled, exactly if there was none.
* `report_late`: a report that is one microsecond too large, and one that is ten seconds too
  large. -/

namespace LinuxHomework.Timer.Elapsed

open LinuxHomework.Lib.Runs
open LinuxHomework.Timer.Interrupts (Which)

/-! ### The timers -/

/-- The first value and the interval of each timer, in microseconds: 9 s 999999 us. -/
def period : ℕ := 9 * 10 ^ 6 + 999999

/-- The time left when `clock` microseconds have elapsed. A timer that expires starts again. -/
def left (clock : ℕ) : ℕ := period - clock % period

/-- A timer of the kernel and the variables of the process for it: the time since it was set,
whether its signal is pending, `count`, `secs`, and the `it_value` that `getitimer` has stored,
which at first is the value it was set to. `handled` are the signals handled so far, and `asked` is
the time at the last `getitimer` call. -/
structure Itimer where
  clock : ℕ
  pending : Bool
  count : ℤ
  secs : ℤ
  tvSec : ℤ
  tvUsec : ℤ
  handled : ℕ
  asked : ℕ

/-- The value of a signed expression of `bits` bits, if it does not overflow. -/
def signed (bits : ℕ) (x : ℤ) : Option ℤ :=
  if -2 ^ (bits - 1) ≤ x ∧ x < 2 ^ (bits - 1) then some x else none

/-- `d` microseconds pass. However often the timer expires, there is one pending signal. -/
def Itimer.pass (t : Itimer) (d : ℕ) : Itimer :=
  { t with
    clock := t.clock + d
    pending := t.pending || t.clock / period < (t.clock + d) / period }

/-- `getitimer`. -/
def Itimer.getitimer (t : Itimer) : Itimer :=
  { t with
    tvSec := (left t.clock / 10 ^ 6 : ℕ)
    tvUsec := (left t.clock % 10 ^ 6 : ℕ)
    asked := t.clock }

/-- A line that a handler prints. -/
structure Timeout where
  name : String
  count : ℤ
deriving DecidableEq

/-- A line that `main` prints; `clock` is the time elapsed at the `getitimer` call, and `handled`
are the signals handled when the seconds are read. -/
structure Report where
  name : String
  unit : String
  sec : ℤ
  usec : ℤ
  clock : ℕ
  handled : ℕ
deriving DecidableEq

/-- A handler that prints `name`. -/
def psig (name : String) (t : Itimer) : Option (Itimer × Timeout) := do
  let count ← signed 32 (t.count + 1)
  let secs ← signed 64 (t.secs + 10)
  return ({ t with pending := false, count, secs, handled := t.handled + 1 }, ⟨name, count⟩)

/-- The `printf` of `main`. -/
def Itimer.printf (t : Itimer) (name unit : String) : Option Report := do
  let secs ← signed 64 (t.secs + 9)
  return ⟨name, unit, secs - t.tvSec, 999999 - t.tvUsec, t.asked, t.handled⟩

/-! ### The processes -/

inductive Process
  | parent | child1 | child2
deriving DecidableEq

def psigReal := psig "Parent real timer"

def psigVirtual := psig "Parent real timer"

def psigProf := psig "Parent real timer"

def c1sigReal := psig "Child[1]real timer"

def c1sigVirtual := psig "Child[1]virtual timer"

def c1sigProf := psig "Child[1]prof timer"

def c2sigReal := psig "Child[2]real timer"

def c2sigVirtual := psig "Child[2]virtual timer"

-- adds the seconds before it prints, which nobody can see: no signal comes in between
def c2sigProf := psig "Child[2]prof timer"

/-- The handler that a process installs. -/
def handler : Process → Which → Itimer → Option (Itimer × Timeout)
  | .parent, .real => psigReal
  | .parent, .virt => psigVirtual
  | .parent, .prof => psigProf
  | .child1, .real => c1sigReal
  | .child1, .virt => c1sigVirtual
  | .child1, .prof => c1sigProf
  | .child2, .real => c2sigReal
  | .child2, .virt => c2sigVirtual
  | .child2, .prof => c2sigProf

/-- What a process prints before the seconds and after them. -/
def texts : Process → Which → String × String
  | .parent, .real => ("Parent Real Time", "Sec")
  | .parent, .virt => ("Parent virtual time", "sec")
  | .parent, .prof => ("Parent Prof Time", "Sec")
  | .child1, .real => ("Child[1] Real Time", "Sec")
  | .child1, .virt => ("Child[1] Virtual Time", "Sec")
  | .child1, .prof => ("Child[1] Prof Time", "Sec")
  | .child2, .real => ("Child[2] Real Time", "Sec")
  | .child2, .virt => ("child[2] virtual time", "sec")
  | .child2, .prof => ("Child[2] Prof Time", "Sec")

/-- The calls of `main` after the computation. -/
inductive Call
  | getitimer (w : Which)
  | printf (w : Which)
deriving DecidableEq

def mainCalls : List Call :=
  [.getitimer .real, .printf .real, .getitimer .virt, .printf .virt, .getitimer .prof, .printf .prof]

/-- A process: its timers, the calls left to make, and what it has printed. -/
structure Sys where
  timer : Which → Itimer
  calls : List Call
  timeouts : List Timeout
  reports : List Report

/-- Time passes for a timer, a pending signal is handled, or `main` makes its next call. -/
inductive Act
  | pass (w : Which) (d : ℕ)
  | signal (w : Which)
  | main
deriving DecidableEq

def step (p : Process) (s : Sys) : Act → Option Sys
  | .pass w d => some { s with timer := Function.update s.timer w ((s.timer w).pass d) }
  | .signal w =>
    if (s.timer w).pending then
      (handler p w (s.timer w)).map fun r =>
        { s with timer := Function.update s.timer w r.1, timeouts := s.timeouts ++ [r.2] }
    else none
  | .main =>
    match s.calls with
    | [] => none
    | .getitimer w :: calls =>
      some { s with
        timer := Function.update s.timer w (s.timer w).getitimer
        calls := calls }
    | .printf w :: calls =>
      ((s.timer w).printf (texts p w).1 (texts p w).2).map fun r =>
        { s with calls := calls, reports := s.reports ++ [r] }

/-- The timers have been set. A child goes on with the counts that its parent has at the `fork`. -/
def start (count : Which → ℤ) : Sys :=
  ⟨fun w => ⟨0, false, count w, 0, 9, 999999, 0, 0⟩, mainCalls, [], []⟩

/-- The expirations up to a time. -/
def expired (clock : ℕ) : ℕ := clock / period

/-- The time printed is the time elapsed. -/
def Report.Exact (r : Report) : Prop := r.sec * 10 ^ 6 + r.usec = r.clock

variable {p : Process} {s s' : Sys} {t : Itimer} {r : Report} {w : Which} {a : Act}
  {name unit : String} {bits d clock : ℕ} {x y : ℤ}

/-! ### A timer -/

/-- The time that has elapsed is that of the expirations, and of the period under way. -/
theorem clock_eq (clock : ℕ) : clock + left clock = period * expired clock + period := by
  have hlt := Nat.mod_lt clock (show 0 < period by decide)
  have hdiv := Nat.div_add_mod clock period
  unfold left expired
  omega

theorem signed_eq (h : signed bits x = some y) : y = x := by
  unfold signed at h
  split_ifs at h
  exact (Option.some.inj h).symm

/-- **The variables of a timer** say what they should. -/
structure Itimer.Good (t : Itimer) : Prop where
  secs : t.secs = 10 * t.handled
  tvSec : t.tvSec = (left t.asked / 10 ^ 6 : ℕ)
  tvUsec : t.tvUsec = (left t.asked % 10 ^ 6 : ℕ)

/-- The microseconds are in their range, and the time is that of the signals handled and of the
period under way. -/
structure Report.Good (r : Report) : Prop where
  nonneg : 0 ≤ r.usec
  le : r.usec ≤ 999999
  time : r.sec * 10 ^ 6 + r.usec = 10 ^ 7 * r.handled + period - left r.clock

theorem Itimer.Good.pass (h : t.Good) (d : ℕ) : (t.pass d).Good := ⟨h.secs, h.tvSec, h.tvUsec⟩

theorem Itimer.Good.getitimer (h : t.Good) : t.getitimer.Good := ⟨h.secs, rfl, rfl⟩

theorem Itimer.Good.psig {z : Itimer × Timeout} (h : t.Good) (hz : psig name t = some z) :
    z.1.Good := by
  obtain ⟨count, -, hz⟩ := Option.bind_eq_some_iff.mp hz
  obtain ⟨secs, hsecs, hz⟩ := Option.bind_eq_some_iff.mp hz
  rw [← Option.some.inj hz]
  refine ⟨?_, h.tvSec, h.tvUsec⟩
  have := signed_eq hsecs
  have := h.secs
  push_cast
  omega

theorem Itimer.Good.printf (h : t.Good) (hr : t.printf name unit = some r) : r.Good := by
  obtain ⟨secs, hsecs, hr⟩ := Option.bind_eq_some_iff.mp hr
  have hsecs := signed_eq hsecs
  have hold := h.secs
  have hsec := h.tvSec
  have husec := h.tvUsec
  have hperiod : (period : ℤ) = 9999999 := rfl
  rw [← Option.some.inj hr]
  refine ⟨?_, ?_, ?_⟩
  · show 0 ≤ 999999 - t.tvUsec
    omega
  · show 999999 - t.tvUsec ≤ 999999
    omega
  · show (secs - t.tvSec) * 10 ^ 6 + (999999 - t.tvUsec) =
      10 ^ 7 * t.handled + period - left t.asked
    omega

/-! ### A process -/

theorem handler_eq (p : Process) (w : Which) : ∃ name, handler p w = psig name := by
  cases p <;> cases w <;> exact ⟨_, rfl⟩

/-- The timers and the reports are good. -/
structure Good (s : Sys) : Prop where
  timer : ∀ w, (s.timer w).Good
  report : ∀ r ∈ s.reports, r.Good

theorem good_update (h : Good s) (ht : t.Good) (w v : Which) :
    (Function.update s.timer w t v).Good := by
  by_cases hv : v = w
  · rw [hv, Function.update_self]
    exact ht
  · rw [Function.update_of_ne hv]
    exact h.timer v

theorem good_start (count : Which → ℤ) : Good (start count) :=
  ⟨fun _ => ⟨rfl, by simp [start, left, period], by simp [start, left, period]⟩, nofun⟩

/-- **One step** keeps the timers and the reports good. -/
theorem Good.step (h : Good s) (hstep : step p s a = some s') : Good s' := by
  cases a with
  | pass w d =>
    rw [← Option.some.inj hstep]
    exact ⟨good_update h ((h.timer w).pass d) w, h.report⟩
  | signal w =>
    obtain ⟨-, hstep⟩ := Option.ite_none_right_eq_some.mp hstep
    obtain ⟨r, hr, rfl⟩ := Option.map_eq_some_iff.mp hstep
    obtain ⟨name, hname⟩ := handler_eq p w
    rw [hname] at hr
    exact ⟨good_update h ((h.timer w).psig hr) w, h.report⟩
  | main =>
    unfold Elapsed.step at hstep
    rcases hcalls : s.calls with _ | ⟨_ | w, calls⟩
    · simp [hcalls] at hstep
    · simp only [hcalls, Option.some.injEq] at hstep
      rw [← hstep]
      exact ⟨good_update h (h.timer _).getitimer _, h.report⟩
    · simp only [hcalls] at hstep
      obtain ⟨r, hr, rfl⟩ := Option.map_eq_some_iff.mp hstep
      refine ⟨h.timer, fun q hq => ?_⟩
      rcases List.mem_append.mp hq with hq | hq
      · exact h.report q hq
      · rw [List.mem_singleton.mp hq]
        exact (h.timer w).printf hr

/-- A report is exact if the seconds counted are the periods that have passed. -/
theorem Report.Good.exact_iff (h : r.Good) :
    r.Exact ↔ 10 ^ 7 * r.handled = period * expired r.clock := by
  have htime := h.time
  have hclock := clock_eq r.clock
  unfold Report.Exact
  omega

/-- **When a report is right.** -/
theorem report_iff (p : Process) (count : Which → ℤ) (as : List Act) :
    Always (step p) (fun s => ∀ r ∈ s.reports, (0 ≤ r.usec ∧ r.usec ≤ 999999) ∧
      (r.Exact ↔ 10 ^ 7 * r.handled = period * expired r.clock) ∧
      (expired r.clock ≤ r.handled → (r.Exact ↔ r.handled = 0))) (start count) as := by
  refine (always_of_step (fun _ _ _ h => h.step) (good_start count) as).mono fun s h r hr => ?_
  have hgood := h.report r hr
  have hiff := hgood.exact_iff
  have hperiod : period = 9999999 := rfl
  refine ⟨⟨hgood.nonneg, hgood.le⟩, hiff, fun hle => ?_⟩
  rw [hiff, hperiod]
  omega

/-- An expiration is handled before the `getitimer` call for the real timer, and one of the virtual
timer between the call and the `printf`. -/
def lateRun : List Act :=
  [.pass .real 9999999, .signal .real, .main, .main, .pass .virt 9999998, .main, .pass .virt 1,
    .signal .virt, .main]

/-- **Reports that are too late**, by a microsecond, and by ten seconds. -/
theorem report_late : ∃ s, run (step .child1) (start fun _ => 0) lateRun = some s ∧
    s.reports = [⟨"Child[1] Real Time", "Sec", 10, 0, 9999999, 1⟩,
      ⟨"Child[1] Virtual Time", "Sec", 19, 999998, 9999998, 1⟩] ∧
    ∀ r ∈ s.reports, ¬ r.Exact := by
  have hrun : (run (step .child1) (start fun _ => 0) lateRun).map Sys.reports =
      some [⟨"Child[1] Real Time", "Sec", 10, 0, 9999999, 1⟩,
        ⟨"Child[1] Virtual Time", "Sec", 19, 999998, 9999998, 1⟩] := by decide +kernel
  obtain ⟨s, hs, hreports⟩ := Option.map_eq_some_iff.mp hrun
  refine ⟨s, hs, hreports, ?_⟩
  rw [hreports]
  intro r hr
  simp only [List.mem_cons, List.not_mem_nil, or_false] at hr
  rcases hr with rfl | rfl
  · norm_num [Report.Exact]
  · norm_num [Report.Exact]

end LinuxHomework.Timer.Elapsed
