import LinuxHomework.Lib.CInt
import LinuxHomework.Lib.Runs

/-! # Counting interrupts, `3/inter_moniter.c`

Three interval timers, each with a handler that reads the number of interrupts into `cur_intr`,
prints by how much it exceeds the handler's own old value, and stores it as the new one. The
handlers share `cur_intr`, and a handler may be preempted between any two of these steps by the
handler of another signal, which runs to its end first: the handlers under way form a stack.

* `step_owed`: what a handler has yet to print, `owed`, is as it was after every step, except that a
  read of a larger count adds the difference for those who have printed and not yet stored.
* `conserved_iff`: the differences printed by each handler sum up to its old value less the initial
  count in the runs in which no such read is made (`Steady`), and in no other run that lets every
  handler return.
* `lost`: a run that loses interrupts. -/

namespace LinuxHomework.Timer.Interrupts

open LinuxHomework.Lib.CInt LinuxHomework.Lib.Runs

/-! ### Reading the count -/

/-- The lines that `fgets` reads into a buffer of `size` bytes, up to the end of the file. The
second argument is what has been read of the line. -/
def fgets (size : ℕ) : List Char → List Char → List (List Char)
  | line, [] => if line = [] then [] else [line]
  | line, c :: text =>
    if c = '\n' ∨ line.length + 2 = size then (line ++ [c]) :: fgets size [] text
    else fgets size (line ++ [c]) text

/-- `atoi`: white space, a sign, digits; the value as a `long`, at the ends of the range if it is
too large, then as an `int`. -/
def atoi (s : List Char) : ℤ :=
  let s := s.dropWhile fun c => c = ' ' ∨ '\t'.toNat ≤ c.toNat ∧ c.toNat ≤ '\r'.toNat
  let neg := s.head? = some '-'
  let digits := if neg ∨ s.head? = some '+' then s.tail else s
  let v : ℤ := (digits.takeWhile Char.isDigit).foldl (fun v c => 10 * v + (c.toNat - '0'.toNat)) 0
  wrap32 (max (-2 ^ 63) (min (2 ^ 63 - 1) (if neg then -v else v)))

/-- `read_intr` on a text of `/proc/stat`. -/
def readIntr (stat : List Char) : ℤ :=
  match (fgets 2048 [] stat).find? fun buf => buf.take 4 = ['i', 'n', 't', 'r'] with
  | some intr => atoi (intr.drop (4 + 1))
  | none => -1

/-! ### The handlers -/

/-- The timers. -/
inductive Which
  | real | virt | prof
deriving DecidableEq

/-- What a handler does next: set `cur_intr`, print, or store its old value. -/
inductive Stage
  | read | print | store
deriving DecidableEq

/-- A line that a handler prints. -/
structure Printed where
  name : String
  diff : ℤ
  cur : ℤ
  old : ℤ
deriving DecidableEq

/-- The process: the text of `/proc/stat`, the globals, the handlers under way, the one that runs
first, what each handler has printed, and the message with which the process has ended. -/
structure Monitor where
  stat : List Char
  curIntr : ℤ
  oldIntr : Which → ℤ
  stack : List (Which × Stage)
  printed : Which → List Printed
  exited : Option String

/-- The next step of the handler of `h`, which is the one that runs; `rest` are those it has
preempted. -/
def sigh (h : Which) (name msg : String) (s : Monitor) (rest : List (Which × Stage)) :
    Stage → Monitor
  | .read => { s with curIntr := readIntr s.stat, stack := (h, .print) :: rest }
  | .print =>
    if s.curIntr = -1 then { s with exited := some msg }
    else { s with
      printed := Function.update s.printed h
        (s.printed h ++ [⟨name, s.curIntr - s.oldIntr h, s.curIntr, s.oldIntr h⟩])
      stack := (h, .store) :: rest }
  | .store => { s with oldIntr := Function.update s.oldIntr h s.curIntr, stack := rest }

def sighReal := sigh .real "Real Timer" "real"

def sighVirt := sigh .virt "Virtual Timer" "virt"

def sighProf := sigh .prof "Prof Timer" "prof"

/-- The index of a timer in `handles` and `itvs`. -/
def mapTimer : Which → Fin 3
  | .real => 0
  | .virt => 1
  | .prof => 2

/-- The handler installed for the signal of a timer. -/
def handles (h : Which) : Monitor → List (Which × Stage) → Stage → Monitor :=
  ![sighReal, sighVirt, sighProf] (mapTimer h)

/-- The number of interrupts grows, a timer expires, or the handler that runs makes a step. -/
inductive Act
  | irq (stat : List Char)
  | signal (h : Which)
  | go
deriving DecidableEq

/-- One step. A signal is blocked while its own handler is under way. -/
def step (s : Monitor) : Act → Option Monitor
  | .irq stat =>
    if s.exited = none ∧ readIntr s.stat ≤ readIntr stat then some { s with stat := stat } else none
  | .signal h =>
    if s.exited = none ∧ h ∉ s.stack.map Prod.fst then some { s with stack := (h, .read) :: s.stack }
    else none
  | .go =>
    if s.exited = none then
      match s.stack with
      | [] => none
      | (h, stage) :: rest => some (handles h s rest stage)
    else none

/-- `main`, when the handlers are in place. -/
def main (stat : List Char) : Monitor :=
  ⟨stat, readIntr stat, fun _ => readIntr stat, [], fun _ => [], none⟩

/-- The sum of the differences that the handler of `h` has printed. -/
def total (s : Monitor) (h : Which) : ℤ := ((s.printed h).map Printed.diff).sum

/-- **Interrupts are conserved**: unless a handler is between its print and its store, the
differences that it has printed sum up to its old value less the initial count `n`; and none is
negative. -/
def Conserved (n : ℤ) (s : Monitor) : Prop :=
  ∀ h, ((h, .store) ∉ s.stack → total s h = s.oldIntr h - n) ∧ ∀ r ∈ s.printed h, 0 ≤ r.diff

/-- A count is not read while a handler that was preempted between its print and its store waits, or
it is the one that was read before. -/
def Steady (s : Monitor) (a : Act) : Prop :=
  a = .go → s.stack.head?.map Prod.snd = some .read → (∃ x ∈ s.stack, x.2 = .store) →
    readIntr s.stat = s.curIntr

instance (s : Monitor) (a : Act) : Decidable (Steady s a) :=
  inferInstanceAs (Decidable (_ → _))

variable {n : ℤ} {s s' : Monitor} {a : Act} {as : List Act} {g h : Which} {stage : Stage}
  {rest : List (Which × Stage)} {name msg : String} {stat : List Char}

/-! ### One step -/

theorem handles_eq (h : Which) : ∃ name msg, handles h = sigh h name msg := by
  cases h with
  | real => exact ⟨_, _, rfl⟩
  | virt => exact ⟨_, _, rfl⟩
  | prof => exact ⟨_, _, rfl⟩

/-- All that a step can do. -/
theorem step_cases (hstep : step s a = some s') :
    (∃ stat, a = .irq stat ∧ readIntr s.stat ≤ readIntr stat ∧ s' = { s with stat := stat }) ∨
    (∃ h, a = .signal h ∧ h ∉ s.stack.map Prod.fst ∧
      s' = { s with stack := (h, .read) :: s.stack }) ∨
    (∃ h stage rest name msg, a = .go ∧ s.stack = (h, stage) :: rest ∧
      s' = sigh h name msg s rest stage) := by
  cases a with
  | irq stat =>
    simp only [step, Option.ite_none_right_eq_some, Option.some.injEq] at hstep
    exact Or.inl ⟨stat, rfl, hstep.1.2, hstep.2.symm⟩
  | signal h =>
    simp only [step, Option.ite_none_right_eq_some, Option.some.injEq] at hstep
    exact Or.inr (Or.inl ⟨h, rfl, hstep.1.2, hstep.2.symm⟩)
  | go =>
    simp only [step, Option.ite_none_right_eq_some] at hstep
    obtain ⟨-, hstep⟩ := hstep
    rcases hstack : s.stack with _ | ⟨⟨h, stage⟩, rest⟩
    · simp [hstack] at hstep
    · obtain ⟨name, msg, heq⟩ := handles_eq h
      rw [hstack] at hstep
      rw [← Option.some.inj hstep, heq]
      exact Or.inr (Or.inr ⟨h, stage, rest, name, msg, rfl, rfl, rfl⟩)

/-- What the handler of `g` has yet to print, if it has printed and not yet stored, of what it is
about to store. -/
def owed (n : ℤ) (s : Monitor) (g : Which) : ℤ :=
  (if (g, .store) ∈ s.stack then s.curIntr else s.oldIntr g) - n - total s g

/-- What a step adds to it. -/
def gain (s : Monitor) (a : Act) (g : Which) : ℤ :=
  match a, s.stack with
  | .go, (_, .read) :: rest => if (g, .store) ∈ rest then readIntr s.stat - s.curIntr else 0
  | _, _ => 0

/-- The handlers under way are of different timers; and the values read only grow. -/
structure Inv (s : Monitor) : Prop where
  nodup : (s.stack.map Prod.fst).Nodup
  old : ∀ h, s.oldIntr h ≤ s.curIntr
  cur : s.curIntr ≤ readIntr s.stat
  diff : ∀ h, ∀ r ∈ s.printed h, 0 ≤ r.diff

theorem Inv.notMem (hinv : Inv s) (hstack : s.stack = (h, stage) :: rest) (st : Stage) :
    (h, st) ∉ rest := by
  have hnodup := hinv.nodup
  rw [hstack, List.map_cons, List.nodup_cons] at hnodup
  exact fun hmem => hnodup.1 (List.mem_map.mpr ⟨_, hmem, rfl⟩)

/-- The handler prints. -/
theorem sigh_print (hcur : s.curIntr ≠ -1) :
    sigh h name msg s rest .print = { s with
      printed := Function.update s.printed h
        (s.printed h ++ [⟨name, s.curIntr - s.oldIntr h, s.curIntr, s.oldIntr h⟩])
      stack := (h, .store) :: rest } := by
  rw [sigh, if_neg hcur]

theorem Inv.sigh (hinv : Inv s) (hstack : s.stack = (h, stage) :: rest) :
    Inv (sigh h name msg s rest stage) := by
  have hnodup := hinv.nodup
  rw [hstack] at hnodup
  cases stage with
  | read => exact ⟨hnodup, fun g => (hinv.old g).trans hinv.cur, le_rfl, hinv.diff⟩
  | print =>
    by_cases hcur : s.curIntr = -1
    · rw [Interrupts.sigh, if_pos hcur]
      exact ⟨hinv.nodup, hinv.old, hinv.cur, hinv.diff⟩
    · rw [sigh_print hcur]
      refine ⟨hnodup, hinv.old, hinv.cur, fun g r hr => ?_⟩
      by_cases hg : g = h
      · subst hg
        have hold := hinv.old g
        simp only [Function.update_self, List.mem_append, List.mem_singleton] at hr
        rcases hr with hr | rfl
        · exact hinv.diff g r hr
        · simpa using hold
      · simp only [Function.update_of_ne hg] at hr
        exact hinv.diff g r hr
  | store =>
    refine ⟨(List.nodup_cons.mp hnodup).2, fun g => ?_, hinv.cur, hinv.diff⟩
    by_cases hg : g = h
    · simp [Interrupts.sigh, hg]
    · simpa [Interrupts.sigh, hg] using hinv.old g

theorem Inv.step (hinv : Inv s) (hstep : step s a = some s') : Inv s' := by
  rcases step_cases hstep with ⟨stat, -, hle, rfl⟩ | ⟨h, -, hnot, rfl⟩ |
    ⟨h, stage, rest, name, msg, -, hstack, rfl⟩
  · exact ⟨hinv.nodup, hinv.old, hinv.cur.trans hle, hinv.diff⟩
  · exact ⟨List.nodup_cons.mpr ⟨hnot, hinv.nodup⟩, hinv.old, hinv.cur, hinv.diff⟩
  · exact hinv.sigh hstack

theorem inv_main (stat : List Char) : Inv (main stat) :=
  ⟨List.nodup_nil, fun _ => le_rfl, le_rfl, nofun⟩

/-- The step of a handler. -/
theorem owed_sigh (hinv : Inv s) (hstack : s.stack = (h, stage) :: rest) (g : Which) :
    owed n (sigh h name msg s rest stage) g = owed n s g + gain s .go g := by
  have hnot := hinv.notMem hstack .store
  cases stage with
  | read =>
    unfold owed gain
    rw [hstack]
    by_cases hg : (g, .store) ∈ rest
    · simp [sigh, total, hg]
      omega
    · simp [sigh, total, hg]
  | print =>
    have hgain : gain s .go g = 0 := by simp [gain, hstack]
    rw [hgain, add_zero]
    by_cases hcur : s.curIntr = -1
    · rw [sigh, if_pos hcur]
      rfl
    · rw [sigh_print hcur]
      unfold owed
      rw [hstack]
      by_cases hg : g = h
      · subst hg
        simp [total, hnot]
        omega
      · simp [total, hg]
  | store =>
    have hgain : gain s .go g = 0 := by simp [gain, hstack]
    rw [hgain, add_zero]
    unfold owed
    rw [hstack]
    by_cases hg : g = h
    · subst hg
      simp [sigh, total, hnot]
    · simp [sigh, total, hg]

/-- **What a handler has yet to print** changes by a read only. -/
theorem step_owed (hinv : Inv s) (hstep : step s a = some s') (g : Which) :
    owed n s' g = owed n s g + gain s a g := by
  rcases step_cases hstep with ⟨stat, rfl, -, rfl⟩ | ⟨h, rfl, -, rfl⟩ |
    ⟨h, stage, rest, name, msg, rfl, hstack, rfl⟩
  · simp [owed, gain, total]
  · simp [owed, gain, total]
  · exact owed_sigh hinv hstack g

/-! ### Runs -/

theorem gain_nonneg (hinv : Inv s) (a : Act) (g : Which) : 0 ≤ gain s a g := by
  have hle := hinv.cur
  unfold gain
  split
  · split_ifs <;> omega
  · exact le_rfl

/-- A steady step adds nothing. -/
theorem gain_eq_zero (h : Steady s a) (g : Which) : gain s a g = 0 := by
  unfold gain
  split
  · next k rest hstack =>
    split_ifs with hg
    · have hread := h rfl (by simp [hstack]) ⟨(g, .store), by simp [hstack, hg], rfl⟩
      omega
    · rfl
  · rfl

/-- A step that is not steady adds something. -/
theorem exists_gain (hinv : Inv s) (h : ¬ Steady s a) : ∃ g, 0 < gain s a g := by
  have hle := hinv.cur
  simp only [Steady, not_forall] at h
  obtain ⟨rfl, hhead, ⟨⟨g, _⟩, hmem, rfl⟩, hne⟩ := h
  refine ⟨g, ?_⟩
  rcases hstack : s.stack with _ | ⟨⟨k, stage⟩, rest⟩
  · simp [hstack] at hhead
  · simp only [hstack, List.head?_cons, Option.map_some, Option.some.injEq] at hhead
    subst hhead
    have hg : (g, Stage.store) ∈ rest := by simpa [hstack] using hmem
    simp only [gain, hstack, hg, if_true]
    omega

theorem owed_main (stat : List Char) (g : Which) : owed (readIntr stat) (main stat) g = 0 := by
  simp [owed, main, total]

theorem conserved_of_owed (hinv : Inv s) (h : ∀ g, owed n s g = 0) : Conserved n s := by
  refine fun g => ⟨fun hg => ?_, hinv.diff g⟩
  have := h g
  simp only [owed, hg, if_false] at this
  omega

/-- **When interrupts are conserved**: throughout the runs whose steps are all steady, and at the
end of a run that lets every handler return only if they were. -/
theorem conserved_iff (stat : List Char) (as : List Act) :
    (Meets step Steady (main stat) as →
      Always step (Conserved (readIntr stat)) (main stat) as) ∧
    (∀ s, run step (main stat) as = some s → s.stack = [] →
      (Conserved (readIntr stat) s ↔ Meets step Steady (main stat) as)) := by
  have hkept : Meets step Steady (main stat) as →
      Always step (Conserved (readIntr stat)) (main stat) as := by
    intro h
    refine (always_of_meets (I := fun s => Inv s ∧ ∀ g, owed (readIntr stat) s g = 0) ?_
      ⟨inv_main stat, owed_main stat⟩ h).mono fun s hs => conserved_of_owed hs.1 hs.2
    rintro s a s' ⟨hinv, howed⟩ hsteady hstep
    refine ⟨hinv.step hstep, fun g => ?_⟩
    rw [step_owed hinv hstep, howed g, gain_eq_zero hsteady g, add_zero]
  refine ⟨hkept, fun s hrun hstack => ⟨fun hs => ?_, fun h => (hkept h).last hrun⟩⟩
  refine meets_of_run_le (I := Inv) (f := owed (readIntr stat)) (fun _ _ _ => Inv.step) ?_ ?_
    (inv_main stat) hrun ?_
  · intro t a t' hinv hstep g
    rw [step_owed hinv hstep g]
    exact le_add_of_nonneg_right (gain_nonneg hinv a g)
  · intro t a t' hinv hstep hnot
    obtain ⟨g, hg⟩ := exists_gain hinv hnot
    refine Pi.lt_def.mpr ⟨fun k => ?_, g, ?_⟩
    · rw [step_owed hinv hstep k]
      exact le_add_of_nonneg_right (gain_nonneg hinv a k)
    · rw [step_owed hinv hstep g]
      exact lt_add_of_pos_right _ hg
  · intro g
    have hg := (hs g).1 (by simp [hstack])
    rw [owed_main]
    simp only [owed, hstack, List.not_mem_nil, if_false]
    omega

/-- The line of `/proc/stat` after `k` interrupts. -/
def statLine (k : List Char) : List Char := ['i', 'n', 't', 'r', ' '] ++ k ++ [' ', '7', '\n']

/-- The handler of the profiling timer runs before that of the real timer stores, and no interrupt
comes in between. -/
def nested : List Act :=
  [.irq (statLine ['5']), .signal .real, .go, .go, .signal .prof, .go, .go, .go, .go]

theorem conserved_iff_nested :
    Always step (Conserved (readIntr (statLine ['3']))) (main (statLine ['3'])) nested :=
  (conserved_iff (statLine ['3']) nested).1 (by decide +kernel)

/-- The same with an interrupt before the second read. -/
def losing : List Act :=
  [.irq (statLine ['5']), .signal .real, .go, .go, .irq (statLine ['9']), .signal .prof, .go, .go,
    .go, .go]

/-- **A run that loses interrupts.** -/
theorem lost : ∃ s, run step (main (statLine ['3'])) losing = some s ∧ s.stack = [] ∧
    total s .real = 2 ∧ s.oldIntr .real = readIntr (statLine ['3']) + 6 ∧
    ¬ Conserved (readIntr (statLine ['3'])) s := by
  have hrun : (run step (main (statLine ['3'])) losing).map (fun s =>
      (s.stack, total s .real, s.oldIntr .real)) = some ([], 2, 9) := by decide +kernel
  have hstart : readIntr (statLine ['3']) = 3 := by decide +kernel
  obtain ⟨s, hs, heq⟩ := Option.map_eq_some_iff.mp hrun
  obtain ⟨hstack, htotal, hold⟩ : s.stack = [] ∧ total s .real = 2 ∧ s.oldIntr .real = 9 := by
    simpa using heq
  refine ⟨s, hs, hstack, htotal, by omega, fun h => ?_⟩
  have := (h .real).1 (by simp [hstack])
  omega

end LinuxHomework.Timer.Interrupts
