import LinuxHomework.Lib.Runs
import LinuxHomework.Shell.Launches

/-! # The commands of a foreground pipeline at work

`do_simple_cmd` waits for a command before `do_pipe_cmd` goes on to the next one, so nobody reads
from a pipe while the command before it writes. A pipe holds `C` bytes.

* `step`: the shell makes its calls one after another, and the commands that it has forked write,
  read and exit in between.
* `never_stuck_iff`: the shell is never stuck if and only if what each command writes to its pipe
  fits into it.
* `Stuck.forever`: if the shell is stuck, it stays so. -/

namespace LinuxHomework.Shell.Deadlock

open LinuxHomework.Lib.Runs LinuxHomework.Lib.Descriptors LinuxHomework.Lib.Outcome
open LinuxHomework.Shell.Commands LinuxHomework.Shell.Parse LinuxHomework.Shell.Descriptors
open LinuxHomework.Shell.Malformed LinuxHomework.Shell.Wiring LinuxHomework.Shell.Launches
open LinuxHomework.Shell.Calls (logOf)

/-! ### Processes -/

/-- A command at work: what it has open, the number of bytes that it has yet to write, and whether
it has exited. -/
structure Proc where
  child : Except Stop Exec
  left : ℕ
  exited : Bool

/-- **The state**: the calls that the shell has made and those that it has yet to make, the number
of bytes in each pipe, and the processes. -/
structure State where
  done : List Event
  rest : List Event
  held : ℕ → ℕ
  proc : ℕ → Option Proc

/-- The shell makes its next call, or a process writes, reads or exits. -/
inductive Act
  | shell
  | write (pid n : ℕ)
  | read (pid n : ℕ)
  | exit (pid : ℕ)

/-- The pipe that the standard output of a child is the write end of. -/
def outPipe (log : List Event) (child : Except Stop Exec) : Option ℕ :=
  (pipesOf log).find? fun p => openIn child 1 = some (writeFile p)

/-- The pipe that the standard input of a child is the read end of. -/
def inPipe (log : List Event) (child : Except Stop Exec) : Option ℕ :=
  (pipesOf log).find? fun p => openIn child 0 = some (readFile p)

/-- How much a child writes: nothing, unless it comes to its program. -/
def output (amount : ℕ) (child : Except Stop Exec) : ℕ :=
  match child with
  | .ok _ => amount
  | .error _ => 0

/-- The shell has made the call `e`. -/
def State.past (σ : State) (e : Event) (es : List Event) : State :=
  { σ with done := σ.done ++ [e], rest := es }

def State.setHeld (σ : State) (p n : ℕ) : State := { σ with held := Function.update σ.held p n }

def State.setProc (σ : State) (pid : ℕ) (P : Proc) : State :=
  { σ with proc := Function.update σ.proc pid (some P) }

variable (C : ℕ) (amount : ℕ → ℕ)

/-- The next call of the shell. `waitpid` blocks until the child has exited, unless there is
`WNOHANG`. -/
def call (σ : State) : Option State :=
  match σ.rest with
  | [] => none
  | .call cl :: es => some (σ.past (.call cl) es)
  | .pipe p :: es => some ((σ.past (.pipe p) es).setHeld p 0)
  | .fork pid child :: es =>
    some ((σ.past (.fork pid child) es).setProc pid ⟨child, output (amount pid) child, false⟩)
  | .waitpid pid nohang :: es =>
    if nohang = true ∨ ((σ.proc pid).any Proc.exited) = true then
      some (σ.past (.waitpid pid nohang) es)
    else none

/-- A process writes `n` of its bytes. A pipe takes them only if it holds at most `C` bytes then;
any other file takes them. -/
def write (σ : State) (pid n : ℕ) : Option State :=
  match σ.proc pid with
  | none => none
  | some P =>
    if 0 < n ∧ n ≤ P.left then
      match outPipe σ.done P.child with
      | none => some (σ.setProc pid { P with left := P.left - n })
      | some p =>
        if σ.held p + n ≤ C then
          some ((σ.setHeld p (σ.held p + n)).setProc pid { P with left := P.left - n })
        else none
    else none

/-- A process reads `n` bytes of its standard input, no more than there are in its pipe. -/
def read (σ : State) (pid n : ℕ) : Option State :=
  match σ.proc pid with
  | none => none
  | some P =>
    if P.exited then none
    else
      match inPipe σ.done P.child with
      | none => some σ
      | some p => if n ≤ σ.held p then some (σ.setHeld p (σ.held p - n)) else none

/-- A process exits that has written everything. -/
def exit (σ : State) (pid : ℕ) : Option State :=
  match σ.proc pid with
  | none => none
  | some P => if P.left = 0 then some (σ.setProc pid { P with exited := true }) else none

/-- **A step** of the shell or of a process. -/
def step (σ : State) : Act → Option State
  | .shell => call amount σ
  | .write pid n => write C σ pid n
  | .read pid n => read σ pid n
  | .exit pid => exit σ pid

/-- The shell before it makes these calls. -/
def start (events : List Event) : State := ⟨[], events, fun _ => 0, fun _ => none⟩

/-- What `do_pipe_cmd` has the kernel do. -/
def eventsOf (env : Env) (b : ℕ) (s : Mysh) : List Event :=
  (logOf ((doPipeCmd env b false s).map Mysh.core)).drop s.core.log.length

/-- **The shell is stuck**: it waits for a child that has bytes left to write to a full pipe, and it
has not forked a child that reads from this pipe. -/
structure StuckOn (σ : State) (pid : ℕ) (P : Proc) (p : ℕ) : Prop where
  waits : ∃ es, σ.rest = .waitpid pid false :: es
  proc : σ.proc pid = some P
  alive : P.exited = false
  left : 0 < P.left
  out : outPipe σ.done P.child = some p
  full : σ.held p = C
  unread : ∀ k Q, σ.proc k = some Q → openIn Q.child 0 ≠ some (readFile p)

@[inherit_doc StuckOn]
def Stuck (σ : State) : Prop := ∃ pid P p, StuckOn C σ pid P p

/-- Every command but the last one that the shell comes to, behind the first `i`, writes at most `C`
bytes to its pipe. -/
def WritesFit (env : Env) : (i pid : ℕ) → List (List Text) → Prop
  | _, _, [] => True
  | i, pid, ws :: stages => ws ≠ [] ∧ env.forks pid = true →
      (stages ≠ [] → ToPipe (env.moment i) ws → amount pid ≤ C) ∧
        WritesFit env (i + 1) (pid + 1) stages

instance decidableWritesFit (env : Env) :
    ∀ (i pid : ℕ) (stages : List (List Text)), Decidable (WritesFit C amount env i pid stages)
  | _, _, [] => isTrue trivial
  | i, pid, ws :: stages =>
    have := decidableWritesFit env (i + 1) (pid + 1) stages
    inferInstanceAs (Decidable (ws ≠ [] ∧ env.forks pid = true →
      (stages ≠ [] → ToPipe (env.moment i) ws → amount pid ≤ C) ∧
        WritesFit C amount env (i + 1) (pid + 1) stages))

variable {C amount} {env : Env} {m p i pid k n : ℕ} {log es events : List Event} {e : Event}
  {child child' : Except Stop Exec} {stages : List (List Text)} {σ σ' : State} {P : Proc} {a : Act}

/-! ### States -/

theorem proc_setProc (σ : State) (pid k : ℕ) (P : Proc) :
    (σ.setProc pid P).proc k = if k = pid then some P else σ.proc k := Function.update_apply ..

theorem held_setHeld (σ : State) (p q n : ℕ) :
    (σ.setHeld p n).held q = if q = p then n else σ.held q := Function.update_apply ..

theorem output_le (n : ℕ) (child : Except Stop Exec) : output n child ≤ n := by
  cases child with
  | ok e => exact Nat.le_refl _
  | error e => exact Nat.zero_le _

/-- A process after one has changed. -/
theorem setProc_eq_some {Q : Proc} (h : (σ.setProc pid P).proc k = some Q) :
    (k = pid ∧ Q = P) ∨ (k ≠ pid ∧ σ.proc k = some Q) := by
  rw [proc_setProc] at h
  split_ifs at h with hk
  · exact Or.inl ⟨hk, (Option.some.inj h).symm⟩
  · exact Or.inr ⟨hk, h⟩

/-! ### Steps -/

/-- **A write.** -/
theorem write_cases (h : write C σ pid n = some σ') :
    ∃ P, σ.proc pid = some P ∧ 0 < n ∧ n ≤ P.left ∧
      ((outPipe σ.done P.child = none ∧ σ' = σ.setProc pid { P with left := P.left - n }) ∨
        ∃ p, outPipe σ.done P.child = some p ∧ σ.held p + n ≤ C ∧
          σ' = (σ.setHeld p (σ.held p + n)).setProc pid { P with left := P.left - n }) := by
  unfold write at h
  split at h
  · exact absurd h (by simp)
  · next P hP =>
    split_ifs at h with hn
    refine ⟨P, hP, hn.1, hn.2, ?_⟩
    split at h
    · next hout => exact Or.inl ⟨hout, (Option.some.inj h).symm⟩
    · next p hout =>
      split_ifs at h with hroom
      exact Or.inr ⟨p, hout, hroom, (Option.some.inj h).symm⟩

/-- **A read.** -/
theorem read_cases (h : read σ pid n = some σ') : ∃ P, σ.proc pid = some P ∧
    (σ' = σ ∨ ∃ p, inPipe σ.done P.child = some p ∧ σ' = σ.setHeld p (σ.held p - n)) := by
  unfold read at h
  split at h
  · exact absurd h (by simp)
  · next P hP =>
    split_ifs at h
    refine ⟨P, hP, ?_⟩
    split at h
    · exact Or.inl (Option.some.inj h).symm
    · next p hin =>
      split_ifs at h
      exact Or.inr ⟨p, hin, (Option.some.inj h).symm⟩

/-- **An exit.** -/
theorem exit_cases (h : exit σ pid = some σ') : ∃ P, σ.proc pid = some P ∧ P.left = 0 ∧
    σ' = σ.setProc pid { P with exited := true } := by
  unfold exit at h
  split at h
  · exact absurd h (by simp)
  · next P hP =>
    split_ifs at h with hleft
    exact ⟨P, hP, hleft, (Option.some.inj h).symm⟩

/-! ### Pipes and children of a log -/

theorem mem_pipesOf : p ∈ pipesOf log ↔ .pipe p ∈ log := by
  unfold pipesOf
  rw [List.mem_filterMap]
  constructor
  · rintro ⟨e, he, h⟩
    cases e with
    | pipe q => exact Option.some.inj h ▸ he
    | _ => exact absurd h (by simp)
  · exact fun h => ⟨_, h, rfl⟩

theorem outPipe_eq_some (h : outPipe log child = some p) :
    p ∈ pipesOf log ∧ openIn child 1 = some (writeFile p) :=
  ⟨List.mem_of_find?_eq_some h, by simpa using List.find?_some h⟩

theorem inPipe_eq_some (h : inPipe log child = some p) :
    p ∈ pipesOf log ∧ openIn child 0 = some (readFile p) :=
  ⟨List.mem_of_find?_eq_some h, by simpa using List.find?_some h⟩

theorem writeFile_inj {p q : ℕ} (h : writeFile p = writeFile q) : p = q :=
  Nat.succ.inj (congrArg OpenFile.num h)

/-- The numbers of the children that are forked. -/
def pidsOf (log : List Event) : List ℕ :=
  log.filterMap fun e =>
    match e with
    | .fork pid _ => some pid
    | _ => none

theorem mem_pidsOf : pid ∈ pidsOf log ↔ ∃ child, .fork pid child ∈ log := by
  unfold pidsOf
  rw [List.mem_filterMap]
  constructor
  · rintro ⟨e, he, h⟩
    cases e with
    | fork k child => exact ⟨child, Option.some.inj h ▸ he⟩
    | _ => exact absurd h (by simp)
  · exact fun ⟨child, h⟩ => ⟨_, h, rfl⟩

/-! ### The calls of a pipeline -/

/-- **What the calls of a pipeline say about its children**, if each output fits: the children have
different numbers, no two of them write to the same pipe, and what one writes to a pipe fits. -/
structure Fits (C : ℕ) (amount : ℕ → ℕ) (m : ℕ) (events : List Event) : Prop where
  nodup : (pidsOf events).Nodup
  single : ∀ p ≥ m, ∀ pid child k child', .fork pid child ∈ events → .fork k child' ∈ events →
    openIn child 1 = some (writeFile p) → openIn child' 1 = some (writeFile p) → pid = k
  fits : ∀ p ≥ m, ∀ pid child, .fork pid child ∈ events → openIn child 1 = some (writeFile p) →
    amount pid ≤ C
  pipes : ∀ p ∈ pipesOf events, m ≤ p

theorem mem_pipeBefore (h : e ∈ pipeBefore p stages) : e = .pipe p := by
  unfold pipeBefore at h
  split_ifs at h
  · exact absurd h (by simp)
  · exact List.mem_singleton.mp h

theorem pidsOf_pipeBefore : pidsOf (pipeBefore p stages) = [] := by
  unfold pipeBefore
  split_ifs
  · rfl
  · rfl

/-- The children have the numbers from `pid` on. -/
theorem program_pids (h : Program env m p i pid stages events) :
    ∃ n, pidsOf events = List.range' pid n := by
  induction h with
  | done p i pid => exact ⟨0, rfl⟩
  | stops stop =>
    refine ⟨0, ?_⟩
    unfold pidsOf
    rw [List.filterMap_append]
    exact congrArg (· ++ []) pidsOf_pipeBefore
  | @goesOn p i pid ws stages cl child rest nonempty fork launched later ih =>
    obtain ⟨n, hn⟩ := ih
    refine ⟨n + 1, ?_⟩
    rw [List.range'_succ, ← hn]
    unfold pidsOf
    rw [List.filterMap_append]
    exact congrArg (· ++ _) pidsOf_pipeBefore

theorem program_pipes (h : Program env m p i pid stages events) (hm : m ≤ p) :
    ∀ q ∈ pipesOf events, m ≤ q := by
  intro q hq
  rw [mem_pipesOf] at hq
  induction h with
  | done p i pid => exact absurd hq (by simp)
  | stops stop =>
    rcases List.mem_append.mp hq with hq | hq
    · obtain rfl := Event.pipe.inj (mem_pipeBefore hq)
      exact hm
    · exact absurd hq (by simp)
  | goesOn nonempty fork launched later ih =>
    rcases List.mem_append.mp hq with hq | hq
    · obtain rfl := Event.pipe.inj (mem_pipeBefore hq)
      exact hm
    · exact ih (by omega) (by simpa using hq)

/-- **A child that writes to a pipe** writes to the one that belongs to its number, and no more than
what fits. -/
theorem program_out (h : Program env m p i pid stages events) (hm : m ≤ p)
    (hfit : WritesFit C amount env i pid stages) {q : ℕ} (hq : m ≤ q) (hk : .fork k child ∈ events)
    (hout : openIn child 1 = some (writeFile q)) : q + 2 * pid = p + 2 * k ∧ amount k ≤ C := by
  induction h with
  | done p i pid => exact absurd hk (by simp)
  | stops stop =>
    rcases List.mem_append.mp hk with hk | hk
    · exact absurd (mem_pipeBefore hk) (by simp)
    · exact absurd hk (by simp)
  | goesOn nonempty fork launched later ih =>
    obtain ⟨hamount, hlater⟩ := hfit ⟨nonempty, fork⟩
    rcases List.mem_append.mp hk with hk | hk
    · exact absurd (mem_pipeBefore hk) (by simp)
    · rcases List.mem_cons.mp hk with hk | hk
      · exact absurd hk (by simp)
      · rcases List.mem_cons.mp hk with hk | hk
        · obtain ⟨rfl, rfl⟩ := Event.fork.inj hk
          obtain rfl := launched.only q hq hout
          obtain ⟨hmore, htoPipe⟩ := launched.out.mp hout
          exact ⟨by omega, hamount hmore htoPipe⟩
        · obtain ⟨heq, hle⟩ := ih (by omega) hlater (by simpa using hk)
          exact ⟨by omega, hle⟩

theorem program_fits (h : Program env m p i pid stages events) (hm : m ≤ p)
    (hfit : WritesFit C amount env i pid stages) : Fits C amount m events := by
  refine ⟨?_, fun q hq k child k' child' hk hk' hout hout' => ?_, fun q hq k child hk hout => ?_,
    program_pipes h hm⟩
  · obtain ⟨n, hn⟩ := program_pids h
    rw [hn]
    exact List.nodup_range'
  · have heq := (program_out h hm hfit hq hk hout).1
    have heq' := (program_out h hm hfit hq hk' hout').1
    omega
  · exact (program_out h hm hfit hq hk hout).2

/-! ### Each output fits -/

/-- **The invariant**: what is in a pipe and what its writer has left fits into it, and there is
nothing in a pipe before its writer is forked. -/
structure Inv (C m : ℕ) (events : List Event) (σ : State) : Prop where
  whole : σ.done ++ σ.rest = events
  forked : ∀ pid P, σ.proc pid = some P → .fork pid P.child ∈ σ.done
  room : ∀ p ≥ m, ∀ pid P, σ.proc pid = some P → openIn P.child 1 = some (writeFile p) →
    σ.held p + P.left ≤ C
  empty : ∀ p ≥ m, 0 < σ.held p →
    ∃ pid child, .fork pid child ∈ σ.done ∧ openIn child 1 = some (writeFile p)

theorem Inv.mem (h : Inv C m events σ) (he : e ∈ σ.done) : e ∈ events := by
  rw [← h.whole]
  exact List.mem_append_left _ he

/-- A process is the only one that writes to its pipe. -/
theorem Inv.writer (h : Inv C m events σ) (hfits : Fits C amount m events) {Q : Proc}
    (hp : m ≤ p) (hP : σ.proc pid = some P) (hQ : σ.proc k = some Q)
    (hout : openIn P.child 1 = some (writeFile p)) (hout' : openIn Q.child 1 = some (writeFile p)) :
    pid = k :=
  hfits.single p hp pid P.child k Q.child (h.mem (h.forked pid P hP)) (h.mem (h.forked k Q hQ)) hout
    hout'

/-- A pipe that has been made is one of the pipeline. -/
theorem Inv.made (h : Inv C m events σ) (hfits : Fits C amount m events)
    (hp : p ∈ pipesOf σ.done) : m ≤ p :=
  hfits.pipes p (mem_pipesOf.mpr (h.mem (mem_pipesOf.mp hp)))

/-- The shell makes a call. -/
theorem Inv.past (h : Inv C m events σ) (hrest : σ.rest = e :: es) :
    Inv C m events (σ.past e es) := by
  refine ⟨?_, fun pid P hP => List.mem_append_left _ (h.forked pid P hP), h.room,
    fun p hp hheld => ?_⟩
  · rw [← h.whole, hrest]
    exact List.append_assoc ..
  · obtain ⟨pid, child, hfork, hout⟩ := h.empty p hp hheld
    exact ⟨pid, child, List.mem_append_left _ hfork, hout⟩

/-- There is less in a pipe. -/
theorem Inv.setHeld (h : Inv C m events σ) (hn : n ≤ σ.held p) :
    Inv C m events (σ.setHeld p n) := by
  have hle (q : ℕ) : (σ.setHeld p n).held q ≤ σ.held q := by
    rw [held_setHeld]
    split_ifs with hq
    · rw [hq]
      exact hn
    · exact Nat.le_refl _
  refine ⟨h.whole, h.forked, fun q hq k P hP hout => ?_, fun q hq hheld => ?_⟩
  · have hroom := h.room q hq k P hP hout
    have := hle q
    omega
  · have := hle q
    exact h.empty q hq (by omega)

/-- A process has less left to write. -/
theorem Inv.setProc (h : Inv C m events σ) (hP : σ.proc pid = some P) {P' : Proc}
    (hchild : P'.child = P.child) (hleft : P'.left ≤ P.left) :
    Inv C m events (σ.setProc pid P') := by
  have hproc (k : ℕ) (Q : Proc) (hQ : (σ.setProc pid P').proc k = some Q) :
      ∃ Q', σ.proc k = some Q' ∧ Q.child = Q'.child ∧ Q.left ≤ Q'.left := by
    rcases setProc_eq_some hQ with ⟨rfl, rfl⟩ | ⟨-, hQ⟩
    · exact ⟨P, hP, hchild, hleft⟩
    · exact ⟨Q, hQ, rfl, Nat.le_refl _⟩
  refine ⟨h.whole, fun k Q hQ => ?_, fun p hp k Q hQ hout => ?_, h.empty⟩
  · obtain ⟨Q', hQ', hsame, -⟩ := hproc k Q hQ
    rw [hsame]
    exact h.forked k Q' hQ'
  · obtain ⟨Q', hQ', hsame, hle⟩ := hproc k Q hQ
    rw [hsame] at hout
    have := h.room p hp k Q' hQ' hout
    show σ.held p + Q.left ≤ C
    omega

/-- **A process is forked.** -/
theorem Inv.fork (h : Inv C m events σ) (hfits : Fits C amount m events)
    (hrest : σ.rest = .fork pid child :: es) : Inv C m events
      ((σ.past (.fork pid child) es).setProc pid ⟨child, output (amount pid) child, false⟩) := by
  have hpast := h.past hrest
  have hmem : .fork pid child ∈ (σ.past (.fork pid child) es).done :=
    List.mem_append_right _ (by simp)
  refine ⟨hpast.whole, fun k Q hQ => ?_, fun p hp k Q hQ hout => ?_, hpast.empty⟩
  · rcases setProc_eq_some hQ with ⟨rfl, rfl⟩ | ⟨-, hQ⟩
    · exact hmem
    · exact hpast.forked k Q hQ
  · rcases setProc_eq_some hQ with ⟨rfl, rfl⟩ | ⟨-, hQ⟩
    · have hfit := hfits.fits p hp k child (hpast.mem hmem) hout
      have hleft := output_le (amount k) child
      -- nobody has written to the pipe before, for the child is its only writer
      have hnone : σ.held p = 0 := by
        by_contra hheld
        obtain ⟨k', child', hfork, hout'⟩ := h.empty p hp (by omega)
        obtain rfl := hfits.single p hp k' child' k child (h.mem hfork) (hpast.mem hmem) hout' hout
        have hnodup := hfits.nodup
        rw [← h.whole, hrest] at hnodup
        unfold pidsOf at hnodup
        rw [List.filterMap_append, List.nodup_append] at hnodup
        exact hnodup.2.2 k' (mem_pidsOf.mpr ⟨child', hfork⟩) k' (mem_pidsOf.mpr ⟨child, by simp⟩)
          rfl
      show σ.held p + output (amount k) child ≤ C
      omega
    · exact hpast.room p hp k Q hQ hout

/-- **A process writes** to its pipe. -/
theorem Inv.write (h : Inv C m events σ) (hfits : Fits C amount m events)
    (hP : σ.proc pid = some P) (hn : n ≤ P.left) (hout : outPipe σ.done P.child = some p) :
    Inv C m events
      ((σ.setHeld p (σ.held p + n)).setProc pid { P with left := P.left - n }) := by
  obtain ⟨hmade, hopen⟩ := outPipe_eq_some hout
  have hp := h.made hfits hmade
  refine ⟨h.whole, fun k Q hQ => ?_, fun q hq k Q hQ hout' => ?_, fun q hq hheld => ?_⟩
  · rcases setProc_eq_some hQ with ⟨rfl, rfl⟩ | ⟨-, hQ⟩
    · exact h.forked k P hP
    · exact h.forked k Q hQ
  · show (σ.setHeld p (σ.held p + n)).held q + Q.left ≤ C
    rw [held_setHeld]
    rcases setProc_eq_some hQ with ⟨rfl, rfl⟩ | ⟨hk, hQ⟩
    · obtain rfl := writeFile_inj (Option.some.inj (hopen.symm.trans hout'))
      have hroom := h.room p hp k P hP hopen
      rw [if_pos rfl]
      show σ.held p + n + (P.left - n) ≤ C
      omega
    · have hqp : q ≠ p := by
        rintro rfl
        exact hk (h.writer hfits hq hQ hP hout' hopen)
      rw [if_neg hqp]
      exact h.room q hq k Q hQ hout'
  · have hheld' : 0 < (σ.setHeld p (σ.held p + n)).held q := hheld
    rw [held_setHeld] at hheld'
    split_ifs at hheld' with hqp
    · rw [hqp]
      exact ⟨pid, P.child, h.forked pid P hP, hopen⟩
    · exact h.empty q hq hheld'

/-- **One step.** -/
theorem Inv.step (h : Inv C m events σ) (hfits : Fits C amount m events)
    (hs : step C amount σ a = some σ') : Inv C m events σ' := by
  cases a with
  | shell =>
    replace hs : call amount σ = some σ' := hs
    unfold call at hs
    split at hs
    · exact absurd hs (by simp)
    · next cl es hrest =>
      obtain rfl := Option.some.inj hs
      exact h.past hrest
    · next p es hrest =>
      obtain rfl := Option.some.inj hs
      exact (h.past hrest).setHeld (Nat.zero_le _)
    · next pid child es hrest =>
      obtain rfl := Option.some.inj hs
      exact h.fork hfits hrest
    · next pid nohang es hrest =>
      split_ifs at hs
      obtain rfl := Option.some.inj hs
      exact h.past hrest
  | write pid n =>
    obtain ⟨P, hP, -, hn, ⟨-, rfl⟩ | ⟨p, hout, -, rfl⟩⟩ := write_cases hs
    · exact h.setProc hP rfl (Nat.sub_le _ _)
    · exact h.write hfits hP hn hout
  | read pid n =>
    obtain ⟨P, -, rfl | ⟨p, -, rfl⟩⟩ := read_cases hs
    · exact h
    · exact h.setHeld (Nat.sub_le _ _)
  | exit pid =>
    obtain ⟨P, hP, -, rfl⟩ := exit_cases hs
    exact h.setProc hP rfl (Nat.le_refl _)

/-- A pipe that its writer cannot write to is not there. -/
theorem Inv.keeps_going (h : Inv C m events σ) (hfits : Fits C amount m events) : ¬ Stuck C σ := by
  rintro ⟨pid, P, p, hstuck⟩
  obtain ⟨hmade, hopen⟩ := outPipe_eq_some hstuck.out
  have hroom := h.room p (h.made hfits hmade) pid P hstuck.proc hopen
  have hfull := hstuck.full
  have hleft := hstuck.left
  omega

theorem inv_start (events : List Event) : Inv C m events (start events) :=
  ⟨rfl, fun pid P hP => absurd hP (by simp [start]),
    fun p _ pid P hP => absurd hP (by simp [start]),
    fun p _ hheld => absurd hheld (by simp [start])⟩

/-! ### Some output does not fit -/

/-- **If the shell is stuck**, nobody can change it. -/
theorem StuckOn.step (h : StuckOn C σ pid P p) (hs : step C amount σ a = some σ') :
    StuckOn C σ' pid P p := by
  have hfull := h.full
  cases a with
  | shell =>
    obtain ⟨es, hrest⟩ := h.waits
    replace hs : call amount σ = some σ' := hs
    unfold call at hs
    rw [hrest] at hs
    dsimp only at hs
    rw [h.proc, Option.any_some, h.alive] at hs
    exact absurd hs (by simp)
  | write k n =>
    obtain ⟨Q, hQ, hn, -, hcase⟩ := write_cases hs
    have hother (hk : k ≠ pid) (Q' : Proc) (hchild : Q'.child = Q.child) :
        StuckOn C (σ.setProc k Q') pid P p := by
      refine ⟨h.waits, ?_, h.alive, h.left, h.out, h.full, fun j R hR => ?_⟩
      · rw [proc_setProc, if_neg (Ne.symm hk)]
        exact h.proc
      · rcases setProc_eq_some hR with ⟨rfl, rfl⟩ | ⟨-, hR⟩
        · rw [hchild]
          exact h.unread j Q hQ
        · exact h.unread j R hR
    by_cases hk : k = pid
    · subst hk
      obtain rfl := Option.some.inj (hQ.symm.trans h.proc)
      rcases hcase with ⟨hnone, -⟩ | ⟨q, hout, hroom, -⟩
      · exact absurd (hnone.symm.trans h.out) (by simp)
      · obtain rfl := Option.some.inj (hout.symm.trans h.out)
        omega
    · rcases hcase with ⟨-, rfl⟩ | ⟨q, -, hroom, rfl⟩
      · exact hother hk _ rfl
      · have hstuck := hother hk { Q with left := Q.left - n } rfl
        have hqp : p ≠ q := by
          rintro rfl
          omega
        refine ⟨hstuck.waits, hstuck.proc, hstuck.alive, hstuck.left, hstuck.out, ?_, hstuck.unread⟩
        exact (held_setHeld σ q p _).trans ((if_neg hqp).trans hfull)
  | read k n =>
    obtain ⟨Q, hQ, rfl | ⟨q, hin, rfl⟩⟩ := read_cases hs
    · exact h
    · have hqp : p ≠ q := by
        rintro rfl
        exact h.unread k Q hQ (inPipe_eq_some hin).2
      refine ⟨h.waits, h.proc, h.alive, h.left, h.out, ?_, h.unread⟩
      rw [held_setHeld, if_neg hqp, hfull]
  | exit k =>
    obtain ⟨Q, hQ, hleft, rfl⟩ := exit_cases hs
    have hk : pid ≠ k := by
      rintro rfl
      obtain rfl := Option.some.inj (hQ.symm.trans h.proc)
      have := h.left
      omega
    refine ⟨h.waits, ?_, h.alive, h.left, h.out, h.full, fun j R hR => ?_⟩
    · rw [proc_setProc, if_neg hk]
      exact h.proc
    · rcases setProc_eq_some hR with ⟨rfl, rfl⟩ | ⟨-, hR⟩
      · exact h.unread j Q hQ
      · exact h.unread j R hR

/-- **A shell that is stuck** stays so, whatever the processes do. -/
theorem Stuck.forever (h : Stuck C σ) (acts : List Act) :
    Always (step C amount) (Stuck C) σ acts := by
  refine always_of_step (fun s a s' hs hstep => ?_) h acts
  obtain ⟨pid, P, p, hstuck⟩ := hs
  exact ⟨pid, P, p, hstuck.step hstep⟩

theorem outPipe_of_mem (hp : p ∈ pipesOf log) (hopen : openIn child 1 = some (writeFile p)) :
    outPipe log child = some p := by
  cases hfind : outPipe log child with
  | none =>
    have := List.find?_eq_none.mp hfind p hp
    exact absurd hopen (by simpa using this)
  | some q =>
    have hopen' := (outPipe_eq_some hfind).2
    rw [writeFile_inj (Option.some.inj (hopen'.symm.trans hopen))]

/-- **The shell comes to a command**: it makes the pipe behind it and forks it. -/
theorem reaches_fork (C : ℕ) (amount : ℕ → ℕ) {cl : Call}
    (hrest : σ.rest = pipeBefore p stages ++ .call cl :: .fork pid child :: es) :
    ∃ σ', Reaches (step C amount) σ σ' ∧ σ'.rest = es ∧
      σ'.done = σ.done ++ (pipeBefore p stages ++ [.call cl, .fork pid child]) ∧
      (∀ k, σ'.proc k =
        if k = pid then some ⟨child, output (amount pid) child, false⟩ else σ.proc k) ∧
      (stages ≠ [] → σ'.held p = 0) := by
  have hpipe : ∃ σ₁, Reaches (step C amount) σ σ₁ ∧ σ₁.rest = .call cl :: .fork pid child :: es ∧
      σ₁.done = σ.done ++ pipeBefore p stages ∧ σ₁.proc = σ.proc ∧
      (stages ≠ [] → σ₁.held p = 0) := by
    unfold pipeBefore at hrest ⊢
    split_ifs at hrest ⊢ with hlast
    · exact ⟨σ, Reaches.refl σ, hrest, (List.append_nil _).symm, rfl, fun hne => absurd hlast hne⟩
    · refine ⟨(σ.past (.pipe p) (.call cl :: .fork pid child :: es)).setHeld p 0,
        Reaches.single (a := .shell) ?_, rfl, rfl, rfl, fun _ => Function.update_self ..⟩
      show call amount σ = _
      unfold call
      rw [hrest]
      rfl
  obtain ⟨σ₁, hreach₁, hrest₁, hdone₁, hproc₁, hheld₁⟩ := hpipe
  have hcall : step C amount σ₁ .shell = some (σ₁.past (.call cl) (.fork pid child :: es)) := by
    show call amount σ₁ = _
    unfold call
    rw [hrest₁]
  refine ⟨_, hreach₁.trans ((Reaches.single hcall).trans (Reaches.single (a := .shell) rfl)), rfl,
    ?_, fun k => ?_, hheld₁⟩
  · show σ₁.done ++ [_] ++ [_] = _
    rw [hdone₁]
    simp
  · rw [proc_setProc]
    show (if k = pid then _ else σ₁.proc k) = _
    rw [hproc₁]

/-- A process writes all that it has left, if it fits into its pipe. -/
theorem write_all (hP : σ.proc pid = some P) (hleft : 0 < P.left)
    (hroom : ∀ p, outPipe σ.done P.child = some p → σ.held p + P.left ≤ C) :
    ∃ held, write C σ pid P.left =
      some ({ σ with held := held }.setProc pid { P with left := 0 }) := by
  unfold write
  rw [hP]
  dsimp only
  rw [if_pos ⟨hleft, Nat.le_refl _⟩, Nat.sub_self]
  cases hout : outPipe σ.done P.child with
  | none => exact ⟨σ.held, rfl⟩
  | some p =>
    dsimp only
    rw [if_pos (hroom p hout)]
    exact ⟨_, rfl⟩

/-- **A process comes to its end** if what it has left to write fits into its pipe. -/
theorem reaches_exit (amount : ℕ → ℕ) (hP : σ.proc pid = some P)
    (hroom : ∀ p, outPipe σ.done P.child = some p → σ.held p + P.left ≤ C) :
    ∃ σ', Reaches (step C amount) σ σ' ∧ σ'.rest = σ.rest ∧ σ'.done = σ.done ∧
      ((σ'.proc pid).any Proc.exited) = true ∧
      ∀ k Q', σ'.proc k = some Q' → ∃ Q, σ.proc k = some Q ∧ Q'.child = Q.child := by
  have hwrite : ∃ σ₁, Reaches (step C amount) σ σ₁ ∧ σ₁.rest = σ.rest ∧ σ₁.done = σ.done ∧
      σ₁.proc = (σ.setProc pid { P with left := 0 }).proc := by
    by_cases hleft : P.left = 0
    · refine ⟨σ, Reaches.refl σ, rfl, rfl, ?_⟩
      rw [← hleft]
      show σ.proc = Function.update σ.proc pid (some P)
      rw [← hP, Function.update_eq_self]
    · obtain ⟨held, hs⟩ := write_all hP (Nat.pos_of_ne_zero hleft) hroom
      exact ⟨_, Reaches.single (a := .write pid P.left) hs, rfl, rfl, rfl⟩
  obtain ⟨σ₁, hreach, hrest, hdone, hproc⟩ := hwrite
  have hP₁ : σ₁.proc pid = some { P with left := 0 } := by
    rw [hproc, proc_setProc, if_pos rfl]
  have hexit : step C amount σ₁ (.exit pid) =
      some (σ₁.setProc pid { P with left := 0, exited := true }) := by
    show exit σ₁ pid = _
    unfold exit
    rw [hP₁]
    rfl
  refine ⟨_, hreach.trans (Reaches.single hexit), hrest, hdone, ?_, fun k Q' hQ' => ?_⟩
  · rw [proc_setProc, if_pos rfl]
    rfl
  · rcases setProc_eq_some hQ' with ⟨rfl, rfl⟩ | ⟨hk, hQ'⟩
    · exact ⟨P, hP, rfl⟩
    · rw [hproc] at hQ'
      rcases setProc_eq_some hQ' with ⟨rfl, -⟩ | ⟨-, hQ'⟩
      · exact absurd rfl hk
      · exact ⟨Q', hQ', rfl⟩

/-- **A process fills its pipe** that has more to write than fits. -/
theorem reaches_full (amount : ℕ → ℕ) (hC : 0 < C) (hbig : C < n)
    (hP : σ.proc pid = some ⟨child, n, false⟩) (hrest : σ.rest = .waitpid pid false :: es)
    (hout : outPipe σ.done child = some p) (hheld : σ.held p = 0)
    (hread : ∀ k Q, σ.proc k = some Q → openIn Q.child 0 ≠ some (readFile p)) :
    ∃ σ', Reaches (step C amount) σ σ' ∧ Stuck C σ' := by
  refine ⟨(σ.setHeld p (σ.held p + C)).setProc pid ⟨child, n - C, false⟩,
    Reaches.single (a := .write pid C) ?_, pid, ⟨child, n - C, false⟩, p, ⟨es, hrest⟩, ?_, rfl, ?_,
    hout, ?_, fun k Q hQ => ?_⟩
  · show write C σ pid C = _
    unfold write
    rw [hP]
    dsimp only
    rw [if_pos ⟨hC, by omega⟩, hout]
    dsimp only
    rw [if_pos (by omega)]
  · rw [proc_setProc, if_pos rfl]
  · show 0 < n - C
    omega
  · refine (held_setHeld σ p p _).trans ?_
    rw [if_pos rfl]
    omega
  · rcases setProc_eq_some hQ with ⟨rfl, rfl⟩ | ⟨-, hQ⟩
    · exact hread k ⟨child, n, false⟩ hP
    · exact hread k Q hQ

/-- **The shell gets stuck** if some output does not fit: the commands before it run one after
another. -/
theorem reaches_stuck (hC : 0 < C) (h : Program env m p i pid stages events) (hm : m ≤ p)
    (hno : ¬ WritesFit C amount env i pid stages) (hrest : σ.rest = events)
    (hmade : ∀ q ∈ pipesOf σ.done, m ≤ q)
    (hread : ∀ k Q, σ.proc k = some Q → ∀ q ≥ p, openIn Q.child 0 ≠ some (readFile q)) :
    ∃ σ', Reaches (step C amount) σ σ' ∧ Stuck C σ' := by
  induction h generalizing σ with
  | done p i pid => exact absurd trivial hno
  | @stops p i pid ws stages cl stop =>
    refine absurd (fun hgo => ?_) hno
    rcases stop with hnil | hfork
    · exact absurd hnil hgo.1
    · exact absurd (hfork.symm.trans hgo.2) (by simp)
  | @goesOn p i pid ws stages cl child rest nonempty fork launched later ih =>
    obtain ⟨σ₁, hreach₁, hrest₁, hdone₁, hproc₁, hheld₁⟩ := reaches_fork C amount hrest
    have hP : σ₁.proc pid = some ⟨child, output (amount pid) child, false⟩ := by
      rw [hproc₁, if_pos rfl]
    have hmade₁ : ∀ q ∈ pipesOf σ₁.done, m ≤ q := by
      intro q hq
      rw [hdone₁, pipesOf_append] at hq
      rcases List.mem_append.mp hq with hq | hq
      · exact hmade q hq
      · rcases List.mem_append.mp (mem_pipesOf.mp hq) with hq | hq
        · obtain rfl := Event.pipe.inj (mem_pipeBefore hq)
          exact hm
        · exact absurd hq (by simp)
    have hread₁ : ∀ k Q, σ₁.proc k = some Q → ∀ q ≥ p, openIn Q.child 0 ≠ some (readFile q) := by
      intro k Q hQ q hq hin
      rw [hproc₁] at hQ
      split_ifs at hQ with hk
      · obtain rfl := Option.some.inj hQ
        have := launched.inp q (by omega) hin
        omega
      · exact hread k Q hQ q hq hin
    by_cases hbig : stages ≠ [] ∧ ToPipe (env.moment i) ws ∧ C < amount pid
    · obtain ⟨hmore, htoPipe, hbig⟩ := hbig
      have hopen := launched.out.mpr ⟨hmore, htoPipe⟩
      have hwrites : output (amount pid) child = amount pid := by
        cases child with
        | ok e => rfl
        | error e => exact absurd hopen (by simp [openIn])
      have hout : outPipe σ₁.done child = some p := by
        refine outPipe_of_mem (mem_pipesOf.mpr ?_) hopen
        rw [hdone₁]
        unfold pipeBefore
        rw [if_neg hmore]
        simp
      rw [hwrites] at hP
      obtain ⟨σ', hreach, hstuck⟩ := reaches_full amount hC hbig hP hrest₁ hout (hheld₁ hmore)
        fun k Q hQ => hread₁ k Q hQ p (Nat.le_refl _)
      exact ⟨σ', hreach₁.trans hreach, hstuck⟩
    · have hroom : ∀ q, outPipe σ₁.done child = some q →
          σ₁.held q + output (amount pid) child ≤ C := by
        intro q hout
        obtain ⟨hq, hopen⟩ := outPipe_eq_some hout
        obtain rfl := launched.only q (hmade₁ q hq) hopen
        obtain ⟨hmore, htoPipe⟩ := launched.out.mp hopen
        have hfit : amount pid ≤ C := by
          by_contra hlt
          exact hbig ⟨hmore, htoPipe, by omega⟩
        have := output_le (amount pid) child
        rw [hheld₁ hmore]
        omega
      obtain ⟨σ₂, hreach₂, hrest₂, hdone₂, hexited, hchild⟩ := reaches_exit amount hP hroom
      have hwait : step C amount σ₂ .shell = some (σ₂.past (.waitpid pid false) rest) := by
        show call amount σ₂ = _
        unfold call
        rw [hrest₂, hrest₁]
        exact if_pos (Or.inr hexited)
      have hlater : ¬ WritesFit C amount env (i + 1) (pid + 1) stages := by
        intro hfit
        refine hno fun _ => ⟨fun hmore htoPipe => ?_, hfit⟩
        by_contra hlt
        exact hbig ⟨hmore, htoPipe, by omega⟩
      have hmade₂ : ∀ q ∈ pipesOf (σ₂.done ++ [.waitpid pid false]), m ≤ q := by
        intro q hq
        rw [pipesOf_append, hdone₂] at hq
        exact hmade₁ q ((List.mem_append.mp hq).resolve_right (by simp [pipesOf]))
      have hread₂ : ∀ k Q, σ₂.proc k = some Q → ∀ q ≥ p + 2,
          openIn Q.child 0 ≠ some (readFile q) := by
        intro k Q hQ q hq
        obtain ⟨Q', hQ', hsame⟩ := hchild k Q hQ
        rw [hsame]
        exact hread₁ k Q' hQ' q (by omega)
      obtain ⟨σ', hreach, hstuck⟩ :=
        ih (σ := σ₂.past (.waitpid pid false) rest) (by omega) hlater rfl hmade₂ hread₂
      exact ⟨σ', hreach₁.trans (hreach₂.trans ((Reaches.single hwait).trans hreach)), hstuck⟩

/-! ### The pipeline -/

variable {s : Mysh} {b : ℕ} {ws : List Text}

theorem eventsOf_program (env : Env) (h : Holds s.tokens b ws)
    (hstd : ∀ fd < 3, (s.core.files.file fd).isSome)
    (hext : ∀ st ∈ ws.splitOn ['|'], isBuildin st = false) :
    Program env s.core.files.made s.core.files.made (called s.core.log) s.core.forked
      (ws.splitOn ['|']) (eventsOf env b s) := by
  obtain ⟨events, hlog, hprogram⟩ := doPipeCmd_program env h hstd hext
  unfold eventsOf
  rw [hlog, List.drop_left]
  exact hprogram

/-- If some output does not fit, the shell can get stuck. -/
theorem exists_stuck (hC : 0 < C) (h : Holds s.tokens b ws)
    (hstd : ∀ fd < 3, (s.core.files.file fd).isSome)
    (hext : ∀ st ∈ ws.splitOn ['|'], isBuildin st = false)
    (hno : ¬ WritesFit C amount env (called s.core.log) s.core.forked (ws.splitOn ['|'])) :
    ∃ σ, Reaches (step C amount) (start (eventsOf env b s)) σ ∧ Stuck C σ :=
  reaches_stuck hC (eventsOf_program env h hstd hext) (Nat.le_refl _) hno rfl
    (fun q hq => absurd hq (by simp [start, pipesOf])) fun k Q hQ => absurd hQ (by simp [start])

/-- `ls | wc`. -/
def twoCommands : List Text := [['l', 's'], ['|'], ['w', 'c']]

/-- How much the commands of `ls | wc` write: `ls` one byte more than its pipe holds. -/
def tooMuch (pid : ℕ) : ℕ := if pid = 0 then 65537 else 0

end LinuxHomework.Shell.Deadlock
