import Mathlib.Tactic

/-! # Counting semaphores with a queue

The specification of a counting semaphore that serves its waiters in the order they came: `p t` is
a request of `t`, granted at once while there are units and queued otherwise; `v` hands a unit to
the first waiter, and stores it if nobody waits. Besides its state a semaphore carries its history
`Hist`. `Sem.Ok` relates the two, and every operation keeps it. -/

namespace LinuxHomework.Lib.Semaphore

variable {τ : Type*}

/-- What has happened on a semaphore: its initial units, the number of requests granted and of
signals, the requests that were queued and those woken, in order of time. -/
structure Hist (τ : Type*) where
  initial : ℕ
  granted : ℕ := 0
  signals : ℕ := 0
  queued : List τ := []
  woken : List τ := []

namespace Hist

variable (h : Hist τ) (t : τ)

/-- A request was granted at once. -/
def took : Hist τ := { h with granted := h.granted + 1 }

/-- A request was queued. -/
def slept : Hist τ := { h with queued := h.queued ++ [t] }

/-- A signal was made. -/
def signalled : Hist τ := { h with signals := h.signals + 1 }

/-- The queued request of `t` was granted. -/
def woke : Hist τ := { h with granted := h.granted + 1, woken := h.woken ++ [t] }

end Hist

/-- A semaphore and its history. -/
structure Sem (τ : Type*) where
  units : ℕ
  waiting : List τ
  hist : Hist τ

/-- The operations. -/
inductive Op (τ : Type*)
  | p (t : τ)
  | v

/-- **The specification.** -/
def Sem.apply (s : Sem τ) : Op τ → Sem τ
  | .p t =>
    if 0 < s.units then { s with units := s.units - 1, hist := s.hist.took }
    else { s with waiting := s.waiting ++ [t], hist := s.hist.slept t }
  | .v =>
    match s.waiting with
    | [] => { s with units := s.units + 1, hist := s.hist.signalled }
    | t :: rest => { s with waiting := rest, hist := s.hist.signalled.woke t }

/-- The semaphore and its history agree: units are neither made nor lost, nobody waits while there
are units, and those woken are the first of those queued. -/
structure Sem.Ok (s : Sem τ) : Prop where
  balance : s.units + s.hist.granted = s.hist.initial + s.hist.signals
  idle : s.waiting ≠ [] → s.units = 0
  fifo : s.hist.queued = s.hist.woken ++ s.waiting

theorem Sem.ok_init (n : ℕ) : Sem.Ok (⟨n, [], { initial := n }⟩ : Sem τ) :=
  ⟨rfl, fun h => absurd rfl h, rfl⟩

theorem Sem.Ok.apply {s : Sem τ} (h : s.Ok) (o : Op τ) : (s.apply o).Ok := by
  obtain ⟨hb, hi, hf⟩ := h
  cases o with
  | p t =>
    by_cases hu : 0 < s.units
    · rw [Sem.apply, if_pos hu]
      refine ⟨?_, fun hw => ?_, hf⟩
      · show s.units - 1 + (s.hist.granted + 1) = s.hist.initial + s.hist.signals
        omega
      · exact absurd (hi hw) (by omega)
    · rw [Sem.apply, if_neg hu]
      refine ⟨hb, fun _ => by simpa using hu, ?_⟩
      show s.hist.queued ++ [t] = s.hist.woken ++ (s.waiting ++ [t])
      rw [hf, List.append_assoc]
  | v =>
    cases hw : s.waiting with
    | nil =>
      simp only [Sem.apply, hw]
      refine ⟨?_, fun h => absurd rfl h, by rw [← hw]; exact hf⟩
      show s.units + 1 + s.hist.granted = s.hist.initial + (s.hist.signals + 1)
      omega
    | cons t rest =>
      simp only [Sem.apply, hw]
      have hu : s.units = 0 := hi (by simp [hw])
      refine ⟨?_, fun _ => hu, ?_⟩
      · show s.units + (s.hist.granted + 1) = s.hist.initial + (s.hist.signals + 1)
        omega
      · show s.hist.queued = s.hist.woken ++ [t] ++ rest
        rw [hf, hw, List.append_assoc, List.singleton_append]

end LinuxHomework.Lib.Semaphore
