import LinuxHomework.Lib.OpenFiles
import LinuxHomework.Msh.Session
import Mathlib.Algebra.Ring.Nat

/-! # The descriptors of `msh`

The shell does not close the read ends of its pipes, and closes a write end behind the command that
writes to it, if there is one. It waits for each child before it goes on. If a pipe cannot be made,
the array for it names the pipe before, or, at the first pipe of a pipeline, whatever is there; the
shell then closes what that names as a write end (`files_stale`).

* `runLine_grows`: how many descriptors a line leaves open.
* `childOf_stdin`, `childOf_stdout`: what a command has as standard input and output in a child.
* `neighbours_wired`: a command of a pipeline reads from the pipe before it, and the shell itself
  has the write end of that pipe if and only if nothing stands before it. -/

namespace LinuxHomework.Msh.Descriptors

open LinuxHomework.Lib.Descriptors LinuxHomework.Lib.Outcome LinuxHomework.Msh.Lexer
open LinuxHomework.Msh.Commands LinuxHomework.Msh.Parse LinuxHomework.Msh.Session

variable (m : Machine) (host : Host)

/-- The file that the redirection of a command opens. -/
def openedFile (cmd : List Text) : Option (Mode × Text) :=
  match redirectAt cmd with
  | none => none
  | some (i, mode) =>
    match cmd[i + 1]? with
    | none => none
    | some name => if m.opens name mode then some (mode, name) else none

/-- The redirection of a command opens a file. -/
def opensFile (cmd : List Text) : Bool := (openedFile m cmd).isSome

/-- The descriptors that the pipes of a pipeline leave open from command `k` on: the read end of
each pipe that is made, and its write end if no command gets it. `w` is true if there is such a
write end already. -/
def pipesLeak : (k : ℕ) → (w : Bool) → List (List Text) → ℕ
  | _, w, [] => w.toNat
  | _, w, [_] => w.toNat
  | k, w, cmd :: cmd' :: pl =>
    if (host k).pipes then w.toNat + 1 + pipesLeak (k + 1) cmd.isEmpty (cmd' :: pl)
    else pipesLeak (k + 1) (cmd.isEmpty && w) (cmd' :: pl)

/-- **The descriptors that a pipeline leaves open** which begins with command `k`. -/
def leak (k : ℕ) : List (List Text) → ℕ
  | [cmd] => if isBuildin cmd = true ∧ opensFile (host k) cmd = true then 1 else 0
  | pl => pipesLeak host k false pl

/-- **The descriptors that a line leaves open** which begins with command `k`. -/
def lineLeak : (k : ℕ) → List (List (List Text)) → ℕ
  | _, [] => 0
  | k, pl :: pls => leak host k pl + lineLeak (k + pl.length) pls

/-- **Nothing is closed by mistake**: where the first pipe of a pipeline cannot be made, the array
for it does not name an open descriptor. -/
def Spared : List (List (List Text)) → Core → Prop
  | [], _ => True
  | pl :: pls, c =>
    (2 ≤ pl.length → (host c.calls).pipes = false → c.files.file (host c.calls).postfd.2 = none) ∧
      ∀ c', runStages host none (host c.calls).postfd pl c = .ok c' → Spared pls c'

variable {m host} {T T₀ T' T'' : Table Kind} {c c' c'' : Core} {cmd args : List Text} {name : Text}
  {prefd postfd : Option Pipefd} {n k p fd : ℕ} {d d' : Pipefd} {w : Bool} {mode : Mode}

/-- Standard input and output are open. -/
def Std (T : Table Kind) : Prop := (T.file 0).isSome ∧ (T.file 1).isSome

/-- **What becomes of the descriptors**: `n` more are open, and those that were open, other than
standard input and output, are as they were. -/
structure Grows (T T' : Table Kind) (n : ℕ) : Prop where
  std : Std T'
  count : T'.count = T.count + n
  kept : ∀ fd, 2 ≤ fd → (T.file fd).isSome → T'.file fd = T.file fd

theorem Grows.refl (h : Std T) : Grows T T 0 := ⟨h, rfl, fun _ _ _ => rfl⟩

theorem Grows.trans (h : Grows T T' n) (h' : Grows T' T'' k) : Grows T T'' (n + k) := by
  refine ⟨h'.std, by rw [h'.count, h.count, Nat.add_assoc], fun fd hfd hsome => ?_⟩
  rw [h'.kept fd hfd (by rwa [h.kept fd hfd hsome]), h.kept fd hfd hsome]

theorem Std.two_le_free (h : Std T) : 2 ≤ T.free := by
  refine Table.le_free fun fd hfd => ?_
  obtain ⟨h0, h1⟩ := h
  rcases (show fd = 0 ∨ fd = 1 by omega) with rfl | rfl
  · exact h0
  · exact h1

theorem grows_create (h : Std T) (k : Kind) : Grows T (T.create k) 1 := by
  have hfree := h.two_le_free
  refine ⟨⟨?_, ?_⟩, T.count_create k, fun fd _ hsome => ?_⟩
  · rw [Table.file_create (by omega)]
    exact h.1
  · rw [Table.file_create (by omega)]
    exact h.2
  · exact Table.file_create (Table.ne_free_of_isSome hsome)

/-- What a redirection does to the descriptors. -/
theorem redirect_files (m : Machine) (cmd : List Text) (T : Table Kind) : (redirect m cmd T).files =
    match openedFile m cmd with
    | none => T
    | some (mode, name) => openOn mode name T := by
  unfold redirect openedFile
  rcases redirectAt cmd with _ | ⟨i, mode⟩
  · rfl
  · dsimp only
    rcases cmd[i + 1]? with _ | name
    · rfl
    · dsimp only
      split_ifs
      · rfl
      · rfl

/-- A file that is opened by its name on standard input or output; its own descriptor stays open. -/
theorem grows_openOn (h : Std T) (mode : Mode) (name : Text) : Grows T (openOn mode name T) 1 := by
  have hcreate := grows_create h (.named name mode)
  have hmode : mode.fd < 2 := by cases mode <;> decide
  have hstd : ((T.create (.named name mode)).file mode.fd).isSome := by
    rcases (show mode.fd = 0 ∨ mode.fd = 1 by omega) with heq | heq
    · rw [heq]
      exact hcreate.std.1
    · rw [heq]
      exact hcreate.std.2
  have hnew : ((T.create (.named name mode)).file T.free).isSome := by
    rw [Table.file_create_free]
    rfl
  have hother : ∀ fd, fd ≠ mode.fd →
      (openOn mode name T).file fd = (T.create (.named name mode)).file fd :=
    fun fd hfd => Table.file_dup2 hfd
  have hself : (openOn mode name T).file mode.fd = (T.create (.named name mode)).file T.free :=
    Table.file_dup2_self hnew
  have hopen : ∀ fd, ((T.create (.named name mode)).file fd).isSome →
      ((openOn mode name T).file fd).isSome := by
    intro fd hsome
    by_cases hfd : fd = mode.fd
    · rw [hfd, hself]
      exact hnew
    · rwa [hother fd hfd]
  refine ⟨⟨hopen 0 hcreate.std.1, hopen 1 hcreate.std.2⟩, ?_, fun fd hfd hsome => ?_⟩
  · exact (Table.count_dup2 hnew hstd).trans hcreate.count
  · exact (hother fd (by omega)).trans (hcreate.kept fd hfd hsome)

theorem grows_redirect (m : Machine) (h : Std T) (cmd : List Text) :
    Grows T (redirect m cmd T).files (if opensFile m cmd then 1 else 0) := by
  rw [redirect_files]
  unfold opensFile
  rcases openedFile m cmd with _ | ⟨mode, name⟩
  · exact Grows.refl h
  · exact grows_openOn h mode name

/-! ### Commands and lines -/

/-- What a child does is not seen in the shell, but the write end that it got is closed. -/
theorem files_runFork (m : Machine) (name : Text) (args : List Text) (prefd postfd : Option Pipefd)
    (c : Core) : (runFork m name args prefd postfd c).files = closePost postfd c.files := by
  unfold runFork
  split_ifs
  · rfl
  · rfl

/-- A built-in command in the shell changes them by its redirection. -/
theorem files_runHandle {hd : BuildinCmdHandle} (hrun : runHandle m hd cmd c = .ok c') :
    c'.files = (redirect m cmd c.files).files := by
  unfold runHandle at hrun
  dsimp only at hrun
  split_ifs at hrun
  · split at hrun
    · obtain rfl := Except.ok.inj hrun
      rfl
    · cases hrun
    · cases hrun
  · obtain rfl := Except.ok.inj hrun
    rfl

/-- A command without a pipe to write to. -/
theorem runSimple_grows (m : Machine) (h : Std c.files) (hrun : runSimple m cmd prefd none c = .ok c') :
    Grows c.files c'.files
      (if prefd = none ∧ isBuildin cmd = true ∧ opensFile m cmd = true then 1 else 0) := by
  unfold runSimple at hrun
  rcases cmd with _ | ⟨name, args⟩
  · obtain rfl := Except.ok.inj hrun
    rw [if_neg (by simp [isBuildin])]
    exact Grows.refl h
  dsimp only at hrun
  have hbuildin : isBuildin (name :: args) = (getCmdHandle name).isSome := rfl
  cases hhandle : handleOf prefd none name with
  | none =>
    rw [hhandle] at hrun
    obtain rfl := Except.ok.inj hrun
    rw [files_runFork, if_neg]
    · exact Grows.refl h
    · rintro ⟨rfl, hb, -⟩
      unfold handleOf at hhandle
      rw [if_pos ⟨rfl, rfl⟩] at hhandle
      rw [hbuildin, hhandle] at hb
      cases hb
  | some hd =>
    rw [hhandle] at hrun
    unfold handleOf at hhandle
    split_ifs at hhandle with hfd
    rw [hbuildin, hhandle]
    simp only [hfd.1, Option.isSome_some, true_and]
    rw [files_runHandle hrun]
    exact grows_redirect m h (name :: args)

/-- The number of the next command. -/
theorem calls_runSimple (m : Machine) (hrun : runSimple m cmd prefd postfd c = .ok c') :
    c'.calls = c.calls + 1 := by
  unfold runSimple at hrun
  rcases cmd with _ | ⟨name, args⟩
  · obtain rfl := Except.ok.inj hrun
    rfl
  dsimp only at hrun
  cases hhandle : handleOf prefd postfd name with
  | none =>
    rw [hhandle] at hrun
    obtain rfl := Except.ok.inj hrun
    unfold runFork
    split_ifs
    · rfl
    · rfl
  | some hd =>
    rw [hhandle] at hrun
    unfold runHandle at hrun
    dsimp only at hrun
    split_ifs at hrun
    · split at hrun
      · obtain rfl := Except.ok.inj hrun
        rfl
      · cases hrun
      · cases hrun
    · obtain rfl := Except.ok.inj hrun
      rfl

theorem calls_pipe (hpipe : c.pipe m d = (d', c')) : c'.calls = c.calls := by
  unfold Core.pipe at hpipe
  split_ifs at hpipe
  · obtain ⟨-, rfl⟩ := Prod.mk.inj hpipe
    rfl
  · obtain ⟨-, rfl⟩ := Prod.mk.inj hpipe
    rfl

/-- The first command of a longer pipeline. -/
theorem runStages_cons (host : Host) {cmd' : List Text} {pl : List (List Text)}
    (hrun : runStages host prefd d (cmd :: cmd' :: pl) c = .ok c') :
    ∃ d' c₁ c₂, c.pipe (host c.calls) d = (d', c₁) ∧
      runSimple (host c.calls) cmd prefd (some d') c₁ = .ok c₂ ∧ c₂.calls = c.calls + 1 ∧
        runStages host (some d') d' (cmd' :: pl) c₂ = .ok c' := by
  obtain ⟨c₂, hone, hrest⟩ := bind_eq_ok.mp hrun
  exact ⟨_, _, c₂, rfl, hone, (calls_runSimple _ hone).trans (congrArg _ (calls_pipe rfl)), hrest⟩

/-- A pipe that the shell has just made, and the descriptors that were there before. -/
structure NewPipe (T : Table Kind) (a b : ℕ) (T' : Table Kind) : Prop where
  two_le : 2 ≤ a ∧ 2 ≤ b
  ne : a ≠ b
  free : T.free = a ∧ T.file b = none
  grows : Grows T T' 2
  readEnd : T'.file a = some ⟨T.made, .readEnd T.made⟩
  writeEnd : T'.file b = some ⟨T.made + 1, .writeEnd T.made⟩
  other : ∀ fd, fd ≠ a → fd ≠ b → T'.file fd = T.file fd
  low : ∀ fd < b, (T'.file fd).isSome

/-- **`pipe`** that succeeds. -/
theorem pipe_spec (h : Std c.files) (hmade : m.pipes = true) (hpipe : c.pipe m d = (d', c')) :
    NewPipe c.files d'.1 d'.2 c'.files := by
  have hone := grows_create h (.readEnd c.files.made)
  have htwo := grows_create hone.std (.writeEnd c.files.made)
  have hne : c.files.free ≠ (c.files.create (.readEnd c.files.made)).free := by
    refine Table.ne_free_of_isSome ?_
    rw [Table.file_create_free]
    rfl
  unfold Core.pipe at hpipe
  rw [if_pos hmade] at hpipe
  obtain ⟨rfl, rfl⟩ := Prod.mk.inj hpipe
  refine ⟨⟨h.two_le_free, hone.std.two_le_free⟩, hne, ⟨rfl, ?_⟩, hone.trans htwo,
    (Table.file_create hne).trans Table.file_create_free, Table.file_create_free, fun fd ha hb => ?_,
    fun fd hfd => ?_⟩
  · have := (c.files.create (.readEnd c.files.made)).file_free
    rwa [Table.file_create (Ne.symm hne)] at this
  · exact (Table.file_create hb).trans (Table.file_create ha)
  · rw [Table.file_create (Nat.ne_of_lt hfd)]
    exact Table.isSome_of_lt_free hfd

/-- `pipe` that fails. -/
theorem pipe_stale (hstale : m.pipes = false) (hpipe : c.pipe m d = (d', c')) : d' = d ∧ c' = c := by
  unfold Core.pipe at hpipe
  rw [if_neg (by rw [hstale]; exact Bool.false_ne_true)] at hpipe
  obtain ⟨rfl, rfl⟩ := Prod.mk.inj hpipe
  exact ⟨rfl, rfl⟩

theorem files_runSimple_post {fd : Pipefd} (hrun : runSimple m cmd prefd (some fd) c = .ok c') :
    c'.files = if cmd = [] then c.files else c.files.close fd.2 := by
  unfold runSimple at hrun
  rcases cmd with _ | ⟨name, args⟩
  · obtain rfl := Except.ok.inj hrun
    rfl
  · have hhandle : handleOf prefd (some fd) name = none := if_neg fun h => Option.some_ne_none fd h.2
    dsimp only at hrun
    rw [hhandle] at hrun
    obtain rfl := Except.ok.inj hrun
    rw [files_runFork, if_neg (List.cons_ne_nil name args)]
    rfl

/-- The pipes of the table were made before. -/
def Numbered (T : Table Kind) : Prop :=
  ∀ p, T.Referred (.readEnd p) ∨ T.Referred (.writeEnd p) → p < T.made

theorem Numbered.create {k : Kind} (h : Numbered T)
    (hk : ∀ p, Kind.readEnd p = k ∨ Kind.writeEnd p = k → p ≤ T.made) : Numbered (T.create k) := by
  intro p hp
  rw [Table.referred_create, Table.referred_create] at hp
  rw [Table.made_create]
  rcases hp with (hnew | hold) | (hnew | hold)
  · exact Nat.lt_succ_of_le (hk p (Or.inl hnew))
  · exact Nat.lt_succ_of_lt (h p (Or.inl hold))
  · exact Nat.lt_succ_of_le (hk p (Or.inr hnew))
  · exact Nat.lt_succ_of_lt (h p (Or.inr hold))

theorem Numbered.close (h : Numbered T) (fd : ℕ) : Numbered (T.close fd) := by
  have hsub : ∀ k, (T.close fd).Referred k → T.Referred k := by
    intro k hk
    obtain ⟨b, f, -, hf, hkind⟩ := Table.referred_close.mp hk
    exact ⟨b, f, hf, hkind⟩
  exact fun p hp => h p (hp.imp (hsub _) (hsub _))

theorem Numbered.redirect (h : Numbered T) (m : Machine) (cmd : List Text) :
    Numbered (redirect m cmd T).files := by
  rw [redirect_files]
  rcases openedFile m cmd with _ | ⟨mode, name⟩
  · exact h
  · have hcreate : Numbered (T.create (.named name mode)) := by
      refine h.create fun p hp => ?_
      rcases hp with hp | hp <;> cases hp
    exact fun p hp => hcreate p (hp.imp Table.Referred.of_dup2 Table.Referred.of_dup2)

theorem Numbered.pipe (h : Numbered c.files) (hpipe : c.pipe m d = (d', c')) : Numbered c'.files := by
  unfold Core.pipe at hpipe
  split_ifs at hpipe
  · obtain ⟨-, rfl⟩ := Prod.mk.inj hpipe
    refine (h.create fun p hp => ?_).create fun p hp => ?_
    · rcases hp with hp | hp
      · exact (Kind.readEnd.inj hp).le
      · cases hp
    · rcases hp with hp | hp
      · cases hp
      · exact (Kind.writeEnd.inj hp).le.trans (Nat.le_succ _)
  · obtain ⟨-, rfl⟩ := Prod.mk.inj hpipe
    exact h

/-- **What a command leaves behind that writes to a new pipe.** -/
structure Stage (T : Table Kind) (cmd : List Text) (fd : Pipefd) (T' : Table Kind) : Prop where
  grows : Grows T T' (1 + cmd.isEmpty.toNat)
  reads : T'.file fd.1 = some ⟨T.made, .readEnd T.made⟩
  two_le : 2 ≤ fd.1 ∧ 2 ≤ fd.2
  ne : fd.1 ≠ fd.2
  free : T.file fd.2 = none
  own : (T'.file fd.2).isSome = cmd.isEmpty
  low : ∀ x < fd.2, (T'.file x).isSome
  writes : T'.Referred (.writeEnd T.made) ↔ cmd = []
  numbered : Numbered T'

/-- **A command with a new pipe to write to.** The shell does not share that end if there is a
command. -/
theorem runSimple_stage (m : Machine) (h : Std c.files) (hnum : Numbered c.files)
    (hmade : m.pipes = true) (hpipe : c.pipe m d' = (d, c''))
    (hrun : runSimple m cmd prefd (some d) c'' = .ok c') : Stage c.files cmd d c'.files := by
  have hp := pipe_spec h hmade hpipe
  have hnum' := hnum.pipe hpipe
  obtain ⟨a, b⟩ := d
  have hfiles := files_runSimple_post hrun
  have hgrows := hp.grows
  dsimp only at hp hfiles
  have hopen : (c''.files.file b).isSome := by
    rw [hp.writeEnd]
    rfl
  by_cases hcmd : cmd = []
  · rw [if_pos hcmd] at hfiles
    rw [hfiles]
    subst hcmd
    exact ⟨hgrows, hp.readEnd, hp.two_le, hp.ne, hp.free.2, hopen, hp.low,
      ⟨fun _ => rfl, fun _ => ⟨b, _, hp.writeEnd, rfl⟩⟩, hnum'⟩
  · rw [if_neg hcmd] at hfiles
    rw [hfiles]
    have hclose : ∀ fd, fd ≠ b → (c''.files.close b).file fd = c''.files.file fd :=
      fun fd hfd => Table.file_close hfd
    have hempty : cmd.isEmpty = false := List.isEmpty_eq_false_iff.mpr hcmd
    have htwo := hp.two_le
    refine ⟨?_, (hclose a hp.ne).trans hp.readEnd, htwo, hp.ne, hp.free.2, ?_, fun x hx => ?_,
      ⟨fun hw => ?_, fun h => absurd h hcmd⟩, hnum'.close b⟩
    · rw [hempty]
      refine ⟨⟨?_, ?_⟩, ?_, fun fd hfd hsome => ?_⟩
      · rw [hclose 0 (by omega)]
        exact hgrows.std.1
      · rw [hclose 1 (by omega)]
        exact hgrows.std.2
      · have := Table.count_close hopen
        have := hgrows.count
        simp only [Bool.toNat_false]
        omega
      · have hfdb : fd ≠ b := by
          rintro rfl
          rw [hp.free.2] at hsome
          cases hsome
        exact (hclose fd hfdb).trans (hgrows.kept fd hfd hsome)
    · rw [hempty, Table.file_close_self]
      rfl
    · have hxb : x ≠ b := Nat.ne_of_lt hx
      rw [hclose x hxb]
      exact hp.low x hx
    · obtain ⟨fd, f, hfd, hf, hkind⟩ := Table.referred_close.mp hw
      by_cases hfda : fd = a
      · rw [hfda, hp.readEnd] at hf
        rw [← Option.some.inj hf] at hkind
        cases hkind
      · rw [hp.other fd hfda hfd] at hf
        exact absurd (hnum _ (Or.inr ⟨fd, f, hf, hkind⟩)) (lt_irrefl _)

/-- **A command whose pipe is not made**: the shell closes what is in the array. -/
theorem files_stale (hstale : m.pipes = false) (hpipe : c.pipe m d' = (d, c''))
    (hrun : runSimple m cmd prefd (some d) c'' = .ok c') :
    d = d' ∧ c'.files = if cmd = [] then c.files else c.files.close d'.2 := by
  obtain ⟨rfl, rfl⟩ := pipe_stale hstale hpipe
  exact ⟨rfl, files_runSimple_post hrun⟩

theorem Numbered.runSimple (h : Numbered c.files) (hrun : runSimple m cmd prefd none c = .ok c') :
    Numbered c'.files := by
  unfold Parse.runSimple at hrun
  rcases cmd with _ | ⟨name, args⟩
  · obtain rfl := Except.ok.inj hrun
    exact h
  dsimp only at hrun
  cases hhandle : handleOf prefd none name with
  | none =>
    rw [hhandle] at hrun
    obtain rfl := Except.ok.inj hrun
    rw [files_runFork]
    exact h
  | some hd =>
    rw [hhandle] at hrun
    rw [files_runHandle hrun]
    exact h.redirect m (name :: args)

/-- **The shell inside of a pipeline** that has begun with the table `T₀`: `n` more descriptors are
open without the write end that its array names, which is open iff `w`. -/
structure Inside (T₀ : Table Kind) (d : Pipefd) (w : Bool) (n : ℕ) (T : Table Kind) : Prop where
  grows : Grows T₀ T (n + w.toNat)
  numbered : Numbered T
  free : T₀.file d.2 = none
  writes : (T.file d.2).isSome = w

theorem Std.two_le (h : Std T) (hfd : T.file fd = none) : 2 ≤ fd := by
  by_contra hlt
  rcases (show fd = 0 ∨ fd = 1 by omega) with rfl | rfl
  · rw [Std, hfd] at h
    cases h.1
  · rw [Std, hfd] at h
    cases h.2

/-- Inside of a pipeline, behind a new pipe. -/
theorem Stage.inside (h : Stage T cmd d T') (hgrows : Grows T₀ T n) :
    Inside T₀ d cmd.isEmpty (n + 1) T' := by
  refine ⟨?_, h.numbered, ?_, h.own⟩
  · have := hgrows.trans h.grows
    rwa [← Nat.add_assoc] at this
  · by_contra hsome
    have := hgrows.kept d.2 h.two_le.2 (Option.isSome_iff_ne_none.mpr hsome)
    rw [h.free] at this
    exact hsome this.symm

/-- Inside of a pipeline, behind a pipe that was not made. -/
theorem Inside.stale (h : Inside T₀ d w n T) (hstd : Std T₀)
    (hT : T' = if cmd = [] then T else T.close d.2) : Inside T₀ d (cmd.isEmpty && w) n T' := by
  have htwo := hstd.two_le h.free
  by_cases hcmd : cmd = []
  · rw [if_pos hcmd] at hT
    rw [hT, hcmd]
    exact h
  · rw [if_neg hcmd] at hT
    rw [hT, List.isEmpty_eq_false_iff.mpr hcmd, Bool.false_and]
    have hclose : ∀ fd, fd ≠ d.2 → (T.close d.2).file fd = T.file fd :=
      fun fd hfd => Table.file_close hfd
    refine ⟨⟨⟨?_, ?_⟩, ?_, fun fd hfd hsome => ?_⟩, h.numbered.close d.2, h.free, ?_⟩
    · rw [hclose 0 (by omega)]
      exact h.grows.std.1
    · rw [hclose 1 (by omega)]
      exact h.grows.std.2
    · have hcount := h.grows.count
      have hwrites := h.writes
      rw [Bool.toNat_false, Nat.add_zero]
      cases w with
      | true =>
        rw [Bool.toNat_true] at hcount
        have := Table.count_close hwrites
        omega
      | false =>
        have hnone : T.file d.2 = none := by simpa using hwrites
        rw [Table.count_close_none hnone, hcount]
        rfl
    · have hne : fd ≠ d.2 := by
        rintro rfl
        rw [h.free] at hsome
        cases hsome
      exact (hclose fd hne).trans (h.grows.kept fd hfd hsome)
    · rw [Table.file_close_self]
      rfl

/-- **The rest of a pipeline.** -/
theorem Inside.run (host : Host) {pl : List (List Text)} (hstd : Std T₀) (h : Inside T₀ d w n c.files)
    (hrun : runStages host (some d) d pl c = .ok c') :
    Grows T₀ c'.files (n + pipesLeak host c.calls w pl) ∧ Numbered c'.files := by
  induction pl generalizing d w n c with
  | nil =>
    obtain rfl := Except.ok.inj hrun
    exact ⟨h.grows, h.numbered⟩
  | cons cmd pl ih =>
    rcases pl with _ | ⟨cmd', pl⟩
    · have hlast := runSimple_grows _ h.grows.std hrun
      rw [if_neg fun hnone => Option.some_ne_none d hnone.1] at hlast
      exact ⟨h.grows.trans hlast, h.numbered.runSimple hrun⟩
    · obtain ⟨d', c₁, c₂, hpipe, hone, hcalls, hrest⟩ := runStages_cons host hrun
      unfold pipesLeak
      rw [← hcalls]
      cases hmade : (host c.calls).pipes with
      | true =>
        have hstage := runSimple_stage _ h.grows.std h.numbered hmade hpipe hone
        have := ih (hstage.inside h.grows) hrest
        rwa [Nat.add_assoc, Nat.add_assoc, ← Nat.add_assoc w.toNat] at this
      | false =>
        obtain ⟨rfl, hfiles⟩ := files_stale hmade hpipe hone
        exact ih (h.stale hstd hfiles) hrest

theorem runStages_grows (host : Host) {pl : List (List Text)} (h : Std c.files) (hnum : Numbered c.files)
    (hfirst : 2 ≤ pl.length → (host c.calls).pipes = false → c.files.file d.2 = none)
    (hrun : runStages host none d pl c = .ok c') :
    Grows c.files c'.files (leak host c.calls pl) ∧ Numbered c'.files := by
  rcases pl with _ | ⟨cmd, _ | ⟨cmd', pl⟩⟩
  · obtain rfl := Except.ok.inj hrun
    exact ⟨Grows.refl h, hnum⟩
  · exact ⟨by simpa [leak] using runSimple_grows _ h hrun, hnum.runSimple hrun⟩
  · obtain ⟨d', c₁, c₂, hpipe, hone, hcalls, hrest⟩ := runStages_cons host hrun
    change Grows _ _ (pipesLeak host c.calls false (cmd :: cmd' :: pl)) ∧ _
    unfold pipesLeak
    rw [← hcalls]
    cases hmade : (host c.calls).pipes with
    | true =>
      have hstage := runSimple_stage _ h hnum hmade hpipe hone
      have := (hstage.inside (Grows.refl h)).run host h hrest
      rw [Nat.zero_add] at this
      exact this
    | false =>
      have hnone := hfirst (by simp) hmade
      have hstart : Inside c.files d false 0 c.files :=
        ⟨Grows.refl h, hnum, hnone, by rw [hnone]; rfl⟩
      obtain ⟨rfl, hfiles⟩ := files_stale hmade hpipe hone
      have := (hstart.stale h hfiles).run host h hrest
      rwa [Nat.zero_add] at this

theorem calls_runStages (host : Host) {pl : List (List Text)}
    (hrun : runStages host prefd d pl c = .ok c') : c'.calls = c.calls + pl.length := by
  induction pl generalizing prefd d c with
  | nil =>
    obtain rfl := Except.ok.inj hrun
    rfl
  | cons cmd pl ih =>
    rcases pl with _ | ⟨cmd', pl⟩
    · exact calls_runSimple _ hrun
    · obtain ⟨d', c₁, c₂, -, -, hcalls, hrest⟩ := runStages_cons host hrun
      rw [ih hrest, hcalls, List.length_cons, List.length_cons, List.length_cons]
      omega

/-- **What a line leaves open**, pipeline by pipeline; what was open, other than standard input and
output, is as it was. -/
theorem runLine_grows (host : Host) {pls : List (List (List Text))} (h : Std c.files)
    (hnum : Numbered c.files) (hspared : Spared host pls c) (hrun : runLine host pls c = .ok c') :
    Grows c.files c'.files (lineLeak host c.calls pls) ∧ Numbered c'.files := by
  induction pls generalizing c with
  | nil =>
    obtain rfl := Except.ok.inj hrun
    exact ⟨Grows.refl h, hnum⟩
  | cons pl pls ih =>
    obtain ⟨c₁, hone, hrest⟩ := bind_eq_ok.mp hrun
    obtain ⟨hgrows, hnum₁⟩ := runStages_grows host h hnum hspared.1 hone
    obtain ⟨hlater, hnum'⟩ := ih hgrows.std hnum₁ (hspared.2 c₁ hone) hrest
    rw [calls_runStages host hone] at hlater
    exact ⟨hgrows.trans hlater, hnum'⟩

theorem std_table : Std table := ⟨rfl, rfl⟩

theorem numbered_table : Numbered table := by
  have hgiven : ∀ k, table.Referred k → k = .given := by
    rintro k ⟨fd, f, hf, rfl⟩
    change (if fd < 3 then _ else _) = some f at hf
    split_ifs at hf
    rw [← Option.some.inj hf]
  rintro p (hp | hp)
  · cases hgiven _ hp
  · cases hgiven _ hp

/-- Every command finds the machine, but the pipe behind the second one cannot be made. -/
def lacking : Host := fun k => { machine with pipes := k ≠ 1 }

/-- `ls|sort|wc` leaves one descriptor open, whether the second pipe is made or not. -/
theorem runLine_grows_stale : ∃ c',
    runLine lacking [[[['l', 's']], [['s', 'o', 'r', 't']], [['w', 'c']]]] core =
    .ok c' ∧ c'.files.count = table.count + 1 := by
  have hrun : runLine lacking [[[['l', 's']], [['s', 'o', 'r', 't']], [['w', 'c']]]] core = .ok _ := rfl
  have hspared : Spared lacking [[[['l', 's']], [['s', 'o', 'r', 't']], [['w', 'c']]]] core :=
    ⟨fun _ hfirst => absurd hfirst (by decide), fun _ _ => trivial⟩
  exact ⟨_, hrun, (runLine_grows lacking std_table numbered_table hspared hrun).1.count⟩

/-! ### Which pipe a command reads from -/

variable (host) in
/-- The commands of a pipeline that have a pipe behind them: the pipe to the next command, what the
array for a pipe holds, and the shell then. -/
def runPrefix :
    Option Pipefd → Pipefd → List (List Text) → Core → Except Halt (Option Pipefd × Pipefd × Core)
  | prefd, postfd, [], c => .ok (prefd, postfd, c)
  | prefd, postfd, cmd :: cmds, c => do
    let r := c.pipe (host c.calls) postfd
    let c' ← runSimple (host c.calls) cmd prefd (some r.1) r.2
    runPrefix (some r.1) r.1 cmds c'

/-- **A pipeline is run from left to right**, each command when those before it are done. -/
theorem runStages_split (host : Host) (prefd : Option Pipefd) (d : Pipefd) (pre : List (List Text))
    (cmd : List Text) (post : List (List Text)) (c : Core) :
    runStages host prefd d (pre ++ cmd :: post) c =
      runPrefix host prefd d pre c >>= fun r => runStages host r.1 r.2.1 (cmd :: post) r.2.2 := by
  induction pre generalizing prefd d c with
  | nil => rfl
  | cons cmd' pre ih =>
    have hcons : runStages host prefd d (cmd' :: (pre ++ cmd :: post)) c =
        runSimple (host c.calls) cmd' prefd (some (c.pipe (host c.calls) d).1)
          (c.pipe (host c.calls) d).2 >>= fun c₁ =>
            runStages host (some (c.pipe (host c.calls) d).1) (c.pipe (host c.calls) d).1
              (pre ++ cmd :: post) c₁ := by
      cases pre <;> rfl
    rw [List.cons_append, hcons]
    unfold runPrefix
    dsimp only
    cases runSimple (host c.calls) cmd' prefd (some (c.pipe (host c.calls) d).1)
        (c.pipe (host c.calls) d).2 with
    | error e => rfl
    | ok c₁ => exact ih _ _ c₁

/-! ### What a program has as standard input and output -/

/-- What a descriptor refers to. -/
def kindAt (T : Table Kind) (fd : ℕ) : Option Kind := (T.file fd).map OpenFile.kind

/-- A pipe whose `own` end is open. -/
structure Usable (T : Table Kind) (own other : ℕ) : Prop where
  two_le : 2 ≤ own ∧ 2 ≤ other
  ne : own ≠ other
  isOpen : (T.file own).isSome

/-- **An end of a pipe becomes a standard descriptor.** -/
theorem file_join {own other std : ℕ} (h : Usable T own other) (hstd : std < 2) :
    (join own other std T).file std = T.file own := by
  obtain ⟨⟨hown, hother⟩, hne, hopen⟩ := h
  have hclose : (T.close other).file own = T.file own := Table.file_close hne
  unfold join
  rw [if_pos (by omega), Table.file_close (by omega), Table.file_dup2_self (by rwa [hclose]), hclose]

/-- Nothing else is changed. -/
theorem file_join_other {own other std x : ℕ} (hs : x ≠ std) (ho : x ≠ own) (ho' : x ≠ other) :
    (join own other std T).file x = T.file x := by
  unfold join
  split_ifs
  · rw [Table.file_close ho, Table.file_dup2 hs, Table.file_close ho']
  · exact Table.file_close ho'

/-- What a program gets as standard input or output: the file it is redirected to, or else what is
given. -/
def stdKind (m : Machine) (cmd : List Text) (mode : Mode) (given : Option Kind) : Option Kind :=
  match openedFile m cmd with
  | some (mode', name) => if mode' = mode then some (.named name mode) else given
  | none => given

theorem mode_redirect (hdone : (redirect m cmd T).done = true) :
    (redirect m cmd T).mode = (openedFile m cmd).map Prod.fst := by
  revert hdone
  unfold redirect openedFile
  rcases redirectAt cmd with _ | ⟨i, mode⟩
  · exact fun _ => rfl
  · dsimp only
    rcases cmd[i + 1]? with _ | name
    · intro hdone
      cases hdone
    · dsimp only
      split_ifs
      · exact fun _ => rfl
      · intro hdone
        cases hdone

/-- What runs in a child, and its descriptors: a program, a built-in command, or the shell that the
child becomes. -/
def Runs (r : ChildEnd) (T : Table Kind) : Prop :=
  (∃ path argv, r = .exec path argv T) ∨ (∃ out, r = .buildin out T) ∨ r = .returns T

theorem not_runs_exits : ¬ Runs .exits T := by
  rintro (⟨path, argv, h⟩ | ⟨out, h⟩ | h) <;> cases h

theorem not_runs_fails {why : Stop} : ¬ Runs (.fails why) T := by
  rintro (⟨path, argv, h⟩ | ⟨out, h⟩ | h) <;> cases h

theorem runs_childEnd {argc : ℕ} {argv : List Text} {w : World}
    (h : Runs (childEnd m name argc argv w T) T') : T' = T := by
  unfold childEnd at h
  split at h
  · split at h
    · rcases h with ⟨path, argv, h⟩ | ⟨out, h⟩ | h <;> cases h
      rfl
    · rcases h with ⟨path, argv, h⟩ | ⟨out, h⟩ | h <;> cases h
      rfl
    · exact absurd h not_runs_fails
  · split at h
    · exact absurd h not_runs_fails
    · exact absurd h not_runs_exits
    · split_ifs at h
      · rcases h with ⟨path, argv, h⟩ | ⟨out, h⟩ | h <;> cases h
        rfl
      · rcases h with ⟨path, argv, h⟩ | ⟨out, h⟩ | h <;> cases h
        rfl

/-- The pipe to a child changes its own ends and standard input only. -/
theorem joinPre_other {r : Option Mode} {x : ℕ} (hx : x ≠ 0)
    (hfd : ∀ fd ∈ prefd, x ≠ fd.1 ∧ x ≠ fd.2) : (joinPre r prefd T).file x = T.file x := by
  unfold joinPre
  rcases prefd with _ | fd
  · rfl
  · dsimp only
    split_ifs
    · exact file_join_other hx (hfd fd rfl).1 (hfd fd rfl).2
    · rfl

/-- The pipe from a child changes its own ends and standard output only. -/
theorem joinPost_other {r : Option Mode} {x : ℕ} (hx : x ≠ 1)
    (hfd : ∀ fd ∈ postfd, x ≠ fd.1 ∧ x ≠ fd.2) : (joinPost r postfd T).file x = T.file x := by
  unfold joinPost
  rcases postfd with _ | fd
  · rfl
  · dsimp only
    split_ifs
    · exact file_join_other hx (hfd fd rfl).2 (hfd fd rfl).1
    · rfl

/-- No end of a pipe is a standard descriptor. -/
def High (pipefd : Option Pipefd) : Prop := ∀ fd ∈ pipefd, 2 ≤ fd.1 ∧ 2 ≤ fd.2

/-- **Standard input of a child.** -/
theorem joins_zero {r : Option Mode} (hpre : ∀ fd ∈ prefd, Usable T fd.1 fd.2) (hpost : High postfd) :
    (joinPost r postfd (joinPre r prefd T)).file 0 =
      T.file (if r = some .r then 0 else (prefd.map Prod.fst).getD 0) := by
  rw [joinPost_other Nat.zero_ne_one fun fd hfd => by have := hpost fd hfd; omega]
  unfold joinPre
  rcases prefd with _ | fd
  · simp
  · dsimp only
    by_cases hr : r = some .r
    · rw [if_neg (not_not.mpr hr), if_pos hr]
    · rw [if_pos hr, if_neg hr]
      exact file_join (hpre fd rfl) Nat.zero_lt_two

/-- **Standard output of a child.** -/
theorem joins_one {r : Option Mode} (hpre : High prefd) (hpost : ∀ fd ∈ postfd, Usable T fd.2 fd.1)
    (hboth : ∀ fd ∈ prefd, ∀ fd' ∈ postfd, fd'.2 ≠ fd.1 ∧ fd'.2 ≠ fd.2) :
    (joinPost r postfd (joinPre r prefd T)).file 1 =
      T.file (if r = some .w then 1 else (postfd.map Prod.snd).getD 1) := by
  have hone : (joinPre r prefd T).file 1 = T.file 1 :=
    joinPre_other Nat.one_ne_zero fun fd hfd => by have := hpre fd hfd; omega
  unfold joinPost
  rcases postfd with _ | fd
  · simp [hone]
  · dsimp only
    by_cases hr : r = some .w
    · rw [if_neg (not_not.mpr hr), if_pos hr, hone]
    · rw [if_pos hr, if_neg hr]
      obtain ⟨htwo, hne, hopen⟩ := hpost fd rfl
      have hsame : (joinPre r prefd T).file fd.2 = T.file fd.2 :=
        joinPre_other (by omega) fun fd' hfd' => hboth fd' hfd' fd rfl
      exact (file_join ⟨htwo, hne, by rwa [hsame]⟩ Nat.one_lt_two).trans hsame

/-- A file that is opened by its name takes the place of a standard descriptor. -/
theorem openOn_spec (T : Table Kind) (mode : Mode) (name : Text) :
    kindAt (openOn mode name T) mode.fd = some (.named name mode) ∧
      ∀ fd, fd ≠ mode.fd → (T.file fd).isSome → (openOn mode name T).file fd = T.file fd := by
  have hnew : ((T.create (.named name mode)).file T.free).isSome := by
    rw [Table.file_create_free]
    rfl
  refine ⟨?_, fun fd hfd hsome => ?_⟩
  · unfold kindAt openOn
    rw [Table.file_dup2_self hnew, Table.file_create_free]
    rfl
  · exact (Table.file_dup2 hfd).trans (Table.file_create (Table.ne_free_of_isSome hsome))

/-- The end of a pipe that a child gets is still usable behind its redirection. -/
theorem Usable.openOn {own other : ℕ} (h : Usable T own other) (mode : Mode) (file : Text) :
    Usable (openOn mode file T) own other := by
  obtain ⟨htwo, hne, hopen⟩ := h
  have hmode : mode.fd < 2 := by cases mode <;> decide
  exact ⟨htwo, hne, by rwa [(openOn_spec T mode file).2 own (by omega) hopen]⟩

/-- What the descriptors are of what runs in a child. -/
theorem files_childOf {w : World} (hruns : Runs (childOf m name args prefd postfd w T) T') :
    T' = joinPost ((openedFile m (name :: args)).map Prod.fst) postfd
      (joinPre ((openedFile m (name :: args)).map Prod.fst) prefd
        (match openedFile m (name :: args) with
        | none => T
        | some (mode, file) => openOn mode file T)) := by
  unfold childOf at hruns
  dsimp only at hruns
  split_ifs at hruns with hdone
  · rw [runs_childEnd hruns, mode_redirect hdone, redirect_files]
  · exact absurd hruns not_runs_exits

/-- **What a command has as standard input** in a child. -/
theorem childOf_stdin (m : Machine) {w : World} (h : Std T)
    (hpre : ∀ fd ∈ prefd, Usable T fd.1 fd.2) (hpost : High postfd)
    (hruns : Runs (childOf m name args prefd postfd w T) T') :
    kindAt T' 0 = stdKind m (name :: args) .r (kindAt T ((prefd.map Prod.fst).getD 0)) := by
  rw [files_childOf hruns]
  unfold stdKind
  rcases openedFile m (name :: args) with _ | ⟨mode, file⟩
  · exact congrArg (Option.map OpenFile.kind) (joins_zero hpre hpost)
  · obtain ⟨hself, hkept⟩ := openOn_spec T mode file
    refine (congrArg (Option.map OpenFile.kind)
      (joins_zero (fun fd hfd => (hpre fd hfd).openOn mode file) hpost)).trans ?_
    cases mode with
    | r => exact hself
    | w =>
      have hin : (prefd.map Prod.fst).getD 0 ≠ 1 ∧ (T.file ((prefd.map Prod.fst).getD 0)).isSome := by
        rcases prefd with _ | fd
        · exact ⟨Nat.zero_ne_one, h.1⟩
        · have := (hpre fd rfl).two_le
          exact ⟨by rw [Option.map_some, Option.getD_some]; omega, (hpre fd rfl).isOpen⟩
      exact congrArg (Option.map OpenFile.kind) (hkept _ hin.1 hin.2)

/-- **What a command has as standard output** in a child. -/
theorem childOf_stdout (m : Machine) {w : World} (h : Std T) (hpre : High prefd)
    (hpost : ∀ fd ∈ postfd, Usable T fd.2 fd.1)
    (hboth : ∀ fd ∈ prefd, ∀ fd' ∈ postfd, fd'.2 ≠ fd.1 ∧ fd'.2 ≠ fd.2)
    (hruns : Runs (childOf m name args prefd postfd w T) T') :
    kindAt T' 1 = stdKind m (name :: args) .w (kindAt T ((postfd.map Prod.snd).getD 1)) := by
  rw [files_childOf hruns]
  unfold stdKind
  rcases openedFile m (name :: args) with _ | ⟨mode, file⟩
  · exact congrArg (Option.map OpenFile.kind) (joins_one hpre hpost hboth)
  · obtain ⟨hself, hkept⟩ := openOn_spec T mode file
    refine (congrArg (Option.map OpenFile.kind)
      (joins_one hpre (fun fd hfd => (hpost fd hfd).openOn mode file) hboth)).trans ?_
    cases mode with
    | w => exact hself
    | r =>
      have hout : (postfd.map Prod.snd).getD 1 ≠ 0 ∧ (T.file ((postfd.map Prod.snd).getD 1)).isSome := by
        rcases postfd with _ | fd
        · exact ⟨Nat.one_ne_zero, h.2⟩
        · have := (hpost fd rfl).two_le
          exact ⟨by rw [Option.map_some, Option.getD_some]; omega, (hpost fd rfl).isOpen⟩
      exact congrArg (Option.map OpenFile.kind) (hkept _ hout.1 hout.2)

/-! ### Neighbours in a pipeline -/

/-- **The shell between two commands** of a pipeline, with the pipe to the next one, which its array
names. -/
structure Between (prefd : Option Pipefd) (postfd : Pipefd) (T : Table Kind) : Prop where
  std : Std T
  numbered : Numbered T
  same : ∀ fd ∈ prefd, postfd = fd
  usable : ∀ fd ∈ prefd, Usable T fd.1 fd.2
  low : ∀ fd ∈ prefd, ∀ x < fd.2, (T.file x).isSome

theorem Stage.between (h : Stage T cmd d T') : Between (some d) d T' := by
  refine ⟨h.grows.std, h.numbered, fun fd hfd => Option.some.inj hfd, fun fd hfd => ?_,
    fun fd hfd => ?_⟩
  · obtain rfl := Option.some.inj hfd
    exact ⟨h.two_le, h.ne, by rw [h.reads]; rfl⟩
  · obtain rfl := Option.some.inj hfd
    exact h.low

/-- A pipe that is not made leaves the one before it in the array. -/
theorem Between.stale (h : Between (some d) d T) (hT : T' = if cmd = [] then T else T.close d.2) :
    Between (some d) d T' := by
  by_cases hcmd : cmd = []
  · rwa [hT, if_pos hcmd]
  · rw [hT, if_neg hcmd]
    obtain ⟨htwo, hne, hopen⟩ := h.usable d rfl
    have hclose : ∀ x, x ≠ d.2 → (T.close d.2).file x = T.file x := fun x hx => Table.file_close hx
    refine ⟨⟨?_, ?_⟩, h.numbered.close d.2, h.same, fun fd hfd => ?_, fun fd hfd x hx => ?_⟩
    · rw [hclose 0 (by omega)]
      exact h.std.1
    · rw [hclose 1 (by omega)]
      exact h.std.2
    · obtain rfl := Option.some.inj hfd
      exact ⟨htwo, hne, by rwa [hclose d.1 hne]⟩
    · obtain rfl := Option.some.inj hfd
      rw [hclose x hx.ne]
      exact h.low d rfl x hx

/-- **One command** with a pipe behind it, if there is a pipe before it or the one behind it is
made. -/
theorem Between.step (h : Between prefd d c.files) (hfirst : prefd = none → m.pipes = true)
    (hpipe : c.pipe m d = (d', c'')) (hrun : runSimple m cmd prefd (some d') c'' = .ok c') :
    Between (some d') d' c'.files := by
  cases hmade : m.pipes with
  | true => exact (runSimple_stage m h.std h.numbered hmade hpipe hrun).between
  | false =>
    cases prefd with
    | none => exact absurd (hfirst rfl) (by rw [hmade]; exact Bool.false_ne_true)
    | some fd =>
      obtain rfl := h.same fd rfl
      obtain ⟨rfl, hfiles⟩ := files_stale hmade hpipe hrun
      exact h.stale hfiles

theorem runPrefix_between (host : Host) {cmds : List (List Text)} (h : Between prefd d c.files)
    (hfirst : prefd = none → cmds ≠ [] → (host c.calls).pipes = true)
    (hrun : runPrefix host prefd d cmds c = .ok (postfd, d', c')) : Between postfd d' c'.files := by
  induction cmds generalizing prefd d c with
  | nil =>
    obtain ⟨rfl, rfl, rfl⟩ : prefd = postfd ∧ d = d' ∧ c = c' := by simpa [runPrefix] using hrun
    exact h
  | cons cmd cmds ih =>
    obtain ⟨c₁, hone, hrest⟩ := bind_eq_ok.mp hrun
    have hnext := h.step (fun hnone => hfirst hnone (List.cons_ne_nil cmd cmds)) rfl hone
    exact ih hnext (fun hnone => absurd hnone (Option.some_ne_none _)) hrest

theorem Between.high (h : Between prefd d T) : High prefd := fun fd hfd => (h.usable fd hfd).two_le

/-- The standard input of a command with a pipe before it, whatever becomes of the pipe behind
it. -/
theorem Between.stdin (m : Machine) {w : World} (h : Between (some d) d c.files)
    (hruns : Runs (childOf m name args (some d) none w c.files) T' ∨
      ∃ d' c', c.pipe m d = (d', c') ∧ Runs (childOf m name args (some d) (some d') w c'.files) T') :
    kindAt T' 0 = stdKind m (name :: args) .r (kindAt c.files d.1) := by
  have husable := h.usable d rfl
  rcases hruns with hruns | ⟨d', c', hpipe, hruns⟩
  · exact childOf_stdin m h.std h.usable (by simp [High]) hruns
  cases hmade : m.pipes with
  | true =>
    have hp := pipe_spec h.std hmade hpipe
    have hkept : c'.files.file d.1 = c.files.file d.1 :=
      hp.grows.kept d.1 husable.two_le.1 husable.isOpen
    have hzero := childOf_stdin m hp.grows.std
      (fun fd hfd => Option.some.inj hfd ▸
        ⟨husable.two_le, husable.ne, by rw [hkept]; exact husable.isOpen⟩)
      (fun fd hfd => Option.some.inj hfd ▸ hp.two_le) hruns
    unfold kindAt at hzero ⊢
    rwa [Option.map_some, Option.getD_some, hkept] at hzero
  | false =>
    obtain ⟨rfl, rfl⟩ := pipe_stale hmade hpipe
    exact childOf_stdin m h.std h.usable h.high hruns

/-- The standard output of a command with a new pipe behind it. -/
theorem Between.stdout (m : Machine) {w : World} (h : Between prefd d c.files) (hmade : m.pipes = true)
    (hpipe : c.pipe m d = (d', c')) (hruns : Runs (childOf m name args prefd (some d') w c'.files) T') :
    kindAt T' 1 = stdKind m (name :: args) .w (some (.writeEnd c.files.made)) := by
  have hp := pipe_spec h.std hmade hpipe
  have hwrite : kindAt c'.files d'.2 = some (.writeEnd c.files.made) := by
    unfold kindAt
    rw [hp.writeEnd]
    rfl
  rw [← hwrite]
  refine childOf_stdout m hp.grows.std h.high (fun fd hfd => ?_) (fun fd hfd fd' hfd' => ?_) hruns
  · obtain rfl := Option.some.inj hfd
    exact ⟨hp.two_le.symm, hp.ne.symm, by rw [hp.writeEnd]; rfl⟩
  · obtain rfl := Option.some.inj hfd'
    refine ⟨fun heq => ?_, fun heq => ?_⟩
    · have hopen := (h.usable fd hfd).isOpen
      rw [← heq, hp.free.2] at hopen
      cases hopen
    · -- the write end of the pipe before is the lowest free descriptor, or it is open
      have hfree : c.files.free = fd.2 := Table.free_eq (by rw [← heq, hp.free.2]) (h.low fd hfd)
      exact hp.ne (hp.free.1.symm.trans (hfree.trans heq.symm))

/-- **A pipe connects two neighbours**: the command before it writes to it and the one behind it
reads from it, if they are not redirected; when the first one is done, the shell has the write end
if and only if there was no command. -/
theorem neighbours_wired (host : Host) {pre : List (List Text)} {c₀ c₁ : Core} {fd : Pipefd}
    (h : Std c.files)
    (hnum : Numbered c.files) (hpre : runPrefix host none d pre c = .ok (prefd, d', c₀))
    (hfirst : pre ≠ [] → (host c.calls).pipes = true) (hmade : (host c₀.calls).pipes = true)
    (hpipe : c₀.pipe (host c₀.calls) d' = (fd, c'))
    (hcmd : runSimple (host c₀.calls) cmd prefd (some fd) c' = .ok c₁) :
    (∀ name args w T', cmd = name :: args →
      Runs (childOf (host c₀.calls) name args prefd (some fd) w c'.files) T' →
        kindAt T' 1 = stdKind (host c₀.calls) cmd .w (some (.writeEnd c₀.files.made))) ∧
    (∀ name args w T', Runs (childOf (host c₁.calls) name args (some fd) none w c₁.files) T' ∨
        (∃ fd' c₂, c₁.pipe (host c₁.calls) fd = (fd', c₂) ∧
          Runs (childOf (host c₁.calls) name args (some fd) (some fd') w c₂.files) T') →
      kindAt T' 0 = stdKind (host c₁.calls) (name :: args) .r (some (.readEnd c₀.files.made))) ∧
    (c₁.files.Referred (.writeEnd c₀.files.made) ↔ cmd = []) := by
  have hstart : Between none d c.files := ⟨h, hnum, by simp, by simp, by simp⟩
  have hbetween := runPrefix_between host hstart (fun _ => hfirst) hpre
  have hstage := runSimple_stage _ hbetween.std hbetween.numbered hmade hpipe hcmd
  have hread : kindAt c₁.files fd.1 = some (.readEnd c₀.files.made) := by
    unfold kindAt
    rw [hstage.reads]
    rfl
  refine ⟨fun name args w T' hname hruns => ?_, fun name args w T' hruns => ?_, hstage.writes⟩
  · rw [hname]
    exact hbetween.stdout _ hmade hpipe hruns
  · rw [← hread]
    exact hstage.between.stdin _ hruns

/-- `echo hi|wc` is typed first: the built-in command is run in a child and writes to the pipe. -/
theorem neighbours_wired_echo : ∃ c₁ T T',
    runSimple machine [['e', 'c', 'h', 'o'], ['h', 'i']] none (some (3, 4))
        (core.pipe machine (0, 0)).2 =
        .ok c₁ ∧
      Runs (childOf machine ['e', 'c', 'h', 'o'] [['h', 'i']] none (some (3, 4)) world
        (core.pipe machine (0, 0)).2.files) T ∧ kindAt T 1 = some (.writeEnd 3) ∧
      Runs (childOf machine ['w', 'c'] [] (some (3, 4)) none world c₁.files) T' ∧
        kindAt T' 0 = some (.readEnd 3) ∧ ¬ c₁.files.Referred (.writeEnd 3) := by
  have hpre : runPrefix (fun _ => machine) none (0, 0) [] core = .ok (none, (0, 0), core) := rfl
  have hpipe : core.pipe machine (0, 0) = ((3, 4), (core.pipe machine (0, 0)).2) := rfl
  have hcmd : runSimple machine [['e', 'c', 'h', 'o'], ['h', 'i']] none (some (3, 4))
      (core.pipe machine (0, 0)).2 = .ok _ := rfl
  obtain ⟨hout, hin, hwrites⟩ := neighbours_wired (fun _ => machine) std_table numbered_table hpre
    (fun hne => absurd rfl hne) rfl hpipe hcmd
  have hecho : Runs (childOf machine ['e', 'c', 'h', 'o'] [['h', 'i']] none (some (3, 4)) world
      (core.pipe machine (0, 0)).2.files) _ := Or.inr (Or.inl ⟨_, rfl⟩)
  have hwc : ∀ T, ∃ T', Runs (childOf machine ['w', 'c'] [] (some (3, 4)) none world T) T' :=
    fun T => ⟨_, Or.inl ⟨_, _, rfl⟩⟩
  obtain ⟨T', hT'⟩ := hwc _
  refine ⟨_, _, T', hcmd, hecho, ?_, hT', ?_, fun hw => ?_⟩
  · exact hout ['e', 'c', 'h', 'o'] [['h', 'i']] world _ rfl hecho
  · exact hin ['w', 'c'] [] world T' (Or.inl hT')
  · cases hwrites.mp hw

end LinuxHomework.Msh.Descriptors
