import LinuxHomework.Shell.Wiring

/-! # What a foreground pipeline has the kernel do

A pipeline of external commands, with redirections, in the foreground: for each command but the last
one a pipe is made, then a child is forked and waited for. The shell stops at an empty command, and
where `fork` fails.

* `file_redirect`: which of the standard descriptors the redirections replace.
* `launched`: the standard input and output of a child.
* `runStages_program`: the calls, by induction along the pipeline.
* `doPipeCmd_program`: the calls of `do_pipe_cmd`. -/

namespace LinuxHomework.Shell.Launches

open LinuxHomework.Lib.Descriptors LinuxHomework.Lib.Outcome LinuxHomework.Shell.Commands
open LinuxHomework.Shell.Parse LinuxHomework.Shell.Descriptors LinuxHomework.Shell.Malformed
open LinuxHomework.Shell.Wiring
open LinuxHomework.Shell.Calls (logOf logOf_ok logOf_error)

/-! ### The calls -/

/-- What a child has open when it executes its program, if it comes to that. -/
def openIn (child : Except Stop Exec) (fd : ℕ) : Option (OpenFile Kind) :=
  match child with
  | .ok e => e.files.file fd
  | .error _ => none

variable (now : Moment)

/-- The child of a command that is not the last one writes to its pipe: it comes to its program, and
its standard output is not redirected. -/
structure ToPipe (ws : List Text) : Prop where
  fine : Fine now ws
  whole : dangling ws = false
  program : argvOf ws ≠ []
  out : ∀ o ∈ operandsOf ws, o.2 ≠ .w

instance (ws : List Text) : Decidable (ToPipe now ws) :=
  decidable_of_iff (Fine now ws ∧ dangling ws = false ∧ argvOf ws ≠ [] ∧
      ∀ o ∈ operandsOf ws, o.2 ≠ .w)
    ⟨fun ⟨h₁, h₂, h₃, h₄⟩ => ⟨h₁, h₂, h₃, h₄⟩, fun ⟨h₁, h₂, h₃, h₄⟩ => ⟨h₁, h₂, h₃, h₄⟩⟩

/-- The standard input and output of the child of a command, with respect to the pipes from `m` on.
The pipe behind the command has the number `p`, if there are `more` commands. -/
structure Launched (m p : ℕ) (more : Prop) (ws : List Text) (child : Except Stop Exec) : Prop where
  out : openIn child 1 = some (writeFile p) ↔ more ∧ ToPipe now ws
  only : ∀ p', m ≤ p' → openIn child 1 = some (writeFile p') → p' = p
  inp : ∀ p', m ≤ p' → openIn child 0 = some (readFile p') → p' < p

variable (env : Env)

/-- The pipe behind a command. -/
def pipeBefore (p : ℕ) (stages : List (List Text)) : List Event :=
  if stages = [] then [] else [.pipe p]

/-- **The calls for the commands of a pipeline**, behind the first `i`, if the next pipe has the
number `p` and the next child the number `pid`. -/
inductive Program (m : ℕ) : (p i pid : ℕ) → List (List Text) → List Event → Prop
  | done (p i pid : ℕ) : Program m p i pid [] []
  | stops {p i pid : ℕ} {ws : List Text} {stages : List (List Text)} {cl : Call}
      (stop : ws = [] ∨ env.forks pid = false) :
      Program m p i pid (ws :: stages) (pipeBefore p stages ++ [.call cl])
  | goesOn {p i pid : ℕ} {ws : List Text} {stages : List (List Text)} {cl : Call}
      {child : Except Stop Exec} {rest : List Event} (nonempty : ws ≠ [])
      (fork : env.forks pid = true) (launched : Launched (env.moment i) m p (stages ≠ []) ws child)
      (later : Program m (p + 2) (i + 1) (pid + 1) stages rest) :
      Program m p i pid (ws :: stages)
        (pipeBefore p stages ++ .call cl :: .fork pid child :: .waitpid pid false :: rest)

variable {now} {env} {B : Files} {T T' : Table Kind} {ws argv : List Text} {prefd postfd : Option Pipefd}
  {c : Core} {stages : List (List Text)} {m p fd : ℕ} {more : Prop} {mode : Mode} {name : Text}

/-! ### Redirections -/

/-- A file that was opened by its name. -/
def IsNamed (f : Option (OpenFile Kind)) : Prop := ∃ n name mode, f = some ⟨n, .named name mode⟩

/-- **The redirections** replace the standard descriptors for which there is one, and no others. -/
theorem file_redirect (hstd : ∀ b < 2, (T.file b).isSome) (h : redirect now ws T = .ok (argv, T'))
    (fd : ℕ) : ((∃ o ∈ operandsOf ws, descriptor o.2 = fd) → IsNamed (T'.file fd)) ∧
      ((∀ o ∈ operandsOf ws, descriptor o.2 ≠ fd) → T'.file fd = T.file fd) := by
  induction ws, T using redirect.induct generalizing argv with
  | case1 T =>
    obtain ⟨-, rfl⟩ := Prod.mk.inj (Except.ok.inj h)
    refine ⟨?_, fun _ => rfl⟩
    rintro ⟨o, ho, -⟩
    exact absurd ho (by simp [operandsOf])
  | case2 t T fd' mode hr =>
    rw [redirect_lone hr] at h
    exact absurd h (by simp)
  | case3 t T fd' mode hr name ts ih =>
    rw [redirect_redirection hr] at h
    obtain ⟨T₁, hopen, h⟩ := bind_eq_ok.mp h
    have hlt := redirection_lt hr
    obtain ⟨hself, -, hsame⟩ := file_reopen (fun b hb => hstd b (by omega)) hopen
    have hnamed : IsNamed (T₁.file fd') := ⟨_, _, _, hself⟩
    have hstd₁ : ∀ b < 2, (T₁.file b).isSome := by
      intro b hb
      by_cases heq : b = fd'
      · rw [heq, hself]
        rfl
      · rw [hsame b heq]
        exact hstd b hb
    obtain ⟨hin, hout⟩ := ih T₁ hstd₁ h
    rw [operandsOf_redirection hr, redirection_eq hr] at *
    rw [List.forall_mem_cons]
    constructor
    · rintro ⟨o, ho, hfd⟩
      by_cases hlater : ∃ o ∈ operandsOf ts, descriptor o.2 = fd
      · exact hin hlater
      · have hhead : descriptor mode = fd := by
          rcases List.mem_cons.mp ho with rfl | ho
          · exact hfd
          · exact absurd ⟨o, ho, hfd⟩ hlater
        rw [hout fun o ho hfd => hlater ⟨o, ho, hfd⟩, ← hhead]
        exact hnamed
    · rintro ⟨hne, hrest⟩
      rw [hout hrest, hsame fd (Ne.symm hne)]
  | case4 t ts T hr ih =>
    rw [redirect_word hr] at h
    obtain ⟨u, -, h⟩ := bind_eq_ok.mp h
    obtain ⟨r, hr', h⟩ := bind_eq_ok.mp h
    obtain ⟨-, rfl⟩ := Prod.mk.inj (Except.ok.inj h)
    rw [operandsOf_word hr]
    exact ih hstd hr'

/-! ### A child -/

/-- A child that comes to its program. -/
theorem childOf_eq_ok {e : Exec} (h : childOf now ws prefd postfd T = .ok e) :
    Fine now ws ∧ dangling ws = false ∧ argvOf ws ≠ [] ∧
      redirect now ws (childTable prefd postfd T) = .ok (argvOf ws, e.files) := by
  unfold childOf at h
  obtain ⟨⟨argv, T'⟩, hr, h⟩ := bind_eq_ok.mp h
  have hfine : Fine now ws := by
    by_contra hfine
    rcases redirect_unfit (T := childTable prefd postfd T) hfine with herr | herr
    · exact absurd (herr.symm.trans hr) (by simp)
    · exact absurd (herr.symm.trans hr) (by simp)
  have hwhole : dangling ws = false := by
    by_contra hd
    exact absurd ((redirect_dangling hfine (by simpa using hd)).symm.trans hr) (by simp)
  obtain ⟨T₁, hT₁⟩ := redirect_fine (T := childTable prefd postfd T) hfine hwhole
  obtain ⟨rfl, rfl⟩ := Prod.mk.inj (Except.ok.inj (hT₁.symm.trans hr))
  cases hargv : argvOf ws with
  | nil =>
    rw [hargv] at h
    exact absurd h (by simp)
  | cons t ts =>
    rw [hargv] at h hT₁
    obtain rfl := Except.ok.inj h
    exact ⟨hfine, hwhole, by simp, hT₁⟩

theorem childOf_toPipe (h : ToPipe now ws) : ∃ e, childOf now ws prefd postfd T = .ok e := by
  obtain ⟨T', hT'⟩ := redirect_fine (T := childTable prefd postfd T) h.fine h.whole
  unfold childOf
  rw [hT', ok_bind]
  cases hargv : argvOf ws with
  | nil => exact absurd hargv h.program
  | cons t ts => exact ⟨_, rfl⟩

theorem std_childTable {inp out : Option (OpenFile Kind)} (hstd : ∀ fd < 3, (B fd).isSome)
    (hF : (childTable prefd postfd T).file = wire B inp out) :
    ∀ fd < 2, ((childTable prefd postfd T).file fd).isSome := by
  intro fd hfd
  have hB := hstd fd (by omega)
  rw [hF]
  unfold wire
  split_ifs with h0 h1
  · exact h0.2
  · exact h1.2
  · exact hB

/-- A standard descriptor of a child that is not redirected. -/
theorem openIn_kept {inp out f : Option (OpenFile Kind)} (hstd : ∀ fd < 3, (B fd).isSome)
    (hF : (childTable prefd postfd T).file = wire B inp out) (hf : ¬ IsNamed f) (hne : f ≠ none)
    (h : openIn (childOf now ws prefd postfd T) fd = f) :
    (∀ o ∈ operandsOf ws, descriptor o.2 ≠ fd) ∧ Fine now ws ∧ dangling ws = false ∧ argvOf ws ≠ [] ∧
      wire B inp out fd = f := by
  cases hchild : childOf now ws prefd postfd T with
  | error e =>
    rw [hchild] at h
    exact absurd h.symm hne
  | ok e =>
    rw [hchild] at h
    obtain ⟨hfine, hwhole, hprogram, hr⟩ := childOf_eq_ok hchild
    obtain ⟨hnamed, hkept⟩ := file_redirect (std_childTable hstd hF) hr fd
    have hnone : ∀ o ∈ operandsOf ws, descriptor o.2 ≠ fd := by
      intro o ho hfd
      exact hf (h ▸ hnamed ⟨o, ho, hfd⟩)
    refine ⟨hnone, hfine, hwhole, hprogram, ?_⟩
    rw [← hF, ← hkept hnone]
    exact h

/-- **The standard input and output of a child.** -/
theorem launched {inp out : Option (OpenFile Kind)} (hstd : ∀ fd < 3, (B fd).isSome)
    (hB : ∀ fd f, B fd = some f → f.num < m) (hmp : m ≤ p)
    (hF : (childTable prefd postfd T).file = wire B inp out) (hinp : ∀ f ∈ inp, f.num < p)
    (hmore : more → out = some (writeFile p)) (hlast : ¬ more → out = none) :
    Launched now m p more ws (childOf now ws prefd postfd T) := by
  have hwrite (q : ℕ) : ¬ IsNamed (some (writeFile q)) := by
    rintro ⟨n, name, mode, h⟩
    exact absurd (Option.some.inj h) (by simp [writeFile])
  have hread (q : ℕ) : ¬ IsNamed (some (readFile q)) := by
    rintro ⟨n, name, mode, h⟩
    exact absurd (Option.some.inj h) (by simp [readFile])
  -- what the standard output is, if it is the end of a pipe made since
  have hend (q : ℕ) (hq : m ≤ q)
      (h : openIn (childOf now ws prefd postfd T) 1 = some (writeFile q)) :
      more ∧ q = p ∧ ToPipe now ws := by
    obtain ⟨hnone, hfine, hwhole, hprogram, hwire⟩ := openIn_kept hstd hF (hwrite q) (by simp) h
    have htoPipe : ToPipe now ws := by
      refine ⟨hfine, hwhole, hprogram, fun o ho hw => hnone o ho ?_⟩
      rw [hw]
      rfl
    rcases wire_eq_some hwire with ⟨h0, -⟩ | ⟨-, hout⟩ | hbase
    · omega
    · by_cases hm : more
      · rw [hmore hm] at hout
        have hnum : p + 1 = q + 1 := congrArg OpenFile.num (Option.some.inj hout)
        exact ⟨hm, by omega, htoPipe⟩
      · rw [hlast hm] at hout
        exact absurd hout (by simp)
    · have hnum : q + 1 < m := hB 1 _ hbase
      omega
  refine ⟨⟨fun h => ?_, fun ⟨hm, htoPipe⟩ => ?_⟩, fun q hq h => (hend q hq h).2.1, fun q hq h => ?_⟩
  · obtain ⟨hm, -, htoPipe⟩ := hend p hmp h
    exact ⟨hm, htoPipe⟩
  · obtain ⟨e, he⟩ := childOf_toPipe htoPipe
    obtain ⟨-, -, -, hr⟩ := childOf_eq_ok he
    have hkept : e.files.file 1 = (childTable prefd postfd T).file 1 := by
      refine (file_redirect (std_childTable hstd hF) hr 1).2 fun o ho hfd => htoPipe.out o ho ?_
      cases hmode : o.2 with
      | r =>
        rw [hmode] at hfd
        exact absurd hfd (by decide)
      | w => rfl
    rw [he]
    show e.files.file 1 = _
    rw [hkept, hF, hmore hm]
    rfl
  · obtain ⟨-, -, -, -, hwire⟩ := openIn_kept hstd hF (hread q) (by simp) h
    rcases wire_eq_some hwire with ⟨-, hin⟩ | ⟨h1, -⟩ | hbase
    · exact hinp _ hin
    · omega
    · have hnum : q < m := hB 0 _ hbase
      omega

/-! ### Along the pipeline -/

/-- **An external command that is not forked** stops the shell. -/
theorem runStage_stops (prefd postfd : Option Pipefd) (bg : Bool) (hb : isBuildin ws = false)
    (h : ws = [] ∨ env.forks c.forked = false) : ∃ why, runStage env ws prefd postfd bg c =
      .error ⟨why, c.log ++ [.call ⟨ws, prefd.isSome, postfd.isSome, bg⟩]⟩ := by
  unfold runStage
  cases ws with
  | nil => exact ⟨.crash, rfl⟩
  | cons cmd ws =>
    have hfork : env.forks c.forked = false := by
      rcases h with hnil | hfork
      · exact absurd hnil (by simp)
      · exact hfork
    unfold isBuildin at hb
    rw [List.head?_cons, Option.bind_some] at hb
    cases hget : getCmdHandle cmd with
    | some hd => exact absurd hb (by simp [hget])
    | none =>
      refine ⟨.failed, ?_⟩
      simp only [hget, Core.forked_add, hfork, Bool.false_eq_true, if_false, Core.log_add]

/-- The read end that the shell has is older than a new pipe. -/
theorem inp_old (h : Between B prefd c.files) :
    (∀ f ∈ prefd.bind fun q => c.files.file q.1, f.num < c.files.made) ∧
      ∀ f ∈ prefd.bind fun q => c.pipe.2.files.file q.1, f.num < c.files.made := by
  have hsame : (prefd.bind fun q => c.pipe.2.files.file q.1) =
      prefd.bind fun q => c.files.file q.1 := by
    refine Option.bind_congr fun q hq => ?_
    obtain ⟨h₁, h₂⟩ := h.apart q hq
    exact (file_pipe c).2.2.2.2 q.1 h₁ h₂
  rw [hsame]
  have hold : ∀ f ∈ prefd.bind fun q => c.files.file q.1, f.num < c.files.made := by
    intro f hf
    obtain ⟨q, -, hq⟩ := Option.bind_eq_some_iff.mp hf
    exact c.files.old q.1 f hq
  exact ⟨hold, hold⟩

/-- **What the shell does for the commands of a pipeline**, from any of them on. -/
theorem runStages_program (hstd : ∀ fd < 3, (B fd).isSome)
    (hB : ∀ fd f, B fd = some f → f.num < m) (hm : m ≤ c.files.made)
    (hext : ∀ ws ∈ stages, isBuildin ws = false) (h : Between B prefd c.files) :
    ∃ events, logOf (runStages env false prefd stages c) = c.log ++ events ∧
      Program env m c.files.made (called c.log) c.forked stages events := by
  induction stages generalizing prefd c with
  | nil => exact ⟨[], by simp [runStages], .done _ _ _⟩
  | cons ws stages ih =>
    have hws := hext ws (by simp)
    obtain ⟨hold, hold'⟩ := inp_old h
    by_cases hlast : stages = []
    · subst hlast
      rw [show runStages env false prefd [ws] c = runStage env ws prefd none false c from rfl]
      by_cases hstop : ws = [] ∨ env.forks c.forked = false
      · obtain ⟨why, hrun⟩ := runStage_stops prefd none false hws hstop
        refine ⟨[.call ⟨ws, prefd.isSome, false, false⟩], ?_, .stops hstop⟩
        rw [hrun]
        rfl
      · push Not at hstop
        have hfork : env.forks c.forked = true := by simpa using hstop.2
        refine ⟨[.call ⟨ws, prefd.isSome, false, false⟩,
          .fork c.forked (childOf (env.moment (called c.log)) ws prefd none c.files),
          .waitpid c.forked false], ?_, .goesOn hstop.1 hfork ?_ (.done _ _ _)⟩
        · rw [runStage_external prefd none false hstop.1 hws hfork]
          rfl
        · exact launched hstd hB hm (joined (ends_none hstd h)) hold (fun hne => absurd rfl hne)
            fun _ => rfl
    · have hbefore : pipeBefore c.files.made stages = [.pipe c.files.made] := if_neg hlast
      rw [runStages_cons hlast]
      by_cases hstop : ws = [] ∨ env.forks c.forked = false
      · obtain ⟨why, hrun⟩ := runStage_stops (c := c.pipe.2) prefd (some c.pipe.1) false hws hstop
        refine ⟨pipeBefore c.files.made stages ++ [.call ⟨ws, prefd.isSome, true, false⟩], ?_,
          .stops hstop⟩
        rw [hrun, error_bind, logOf_error, hbefore]
        show c.log ++ [_] ++ [_] = _
        rw [List.append_assoc]
        rfl
      · push Not at hstop
        have hfork : env.forks c.forked = true := by simpa using hstop.2
        obtain ⟨events, hlog, hprogram⟩ := ih
          (c := ⟨closeParent prefd (some c.pipe.1) c.pipe.2.files, c.forked + 1,
            c.pipe.2.log ++ [.call ⟨ws, prefd.isSome, true, false⟩, .fork c.forked
              (childOf (env.moment (called c.pipe.2.log)) ws prefd (some c.pipe.1) c.pipe.2.files),
              .waitpid c.forked false]⟩)
          (by rw [made_closeParent]; show m ≤ c.files.made + 2; omega)
          (fun st hst => hext st (by simp [hst])) h.next.1
        rw [made_closeParent] at hprogram
        simp only [called_append, called_call, called_fork, called_waitpid, called_nil,
          Core.called_pipe, Nat.zero_add] at hprogram
        refine ⟨pipeBefore c.files.made stages ++ .call ⟨ws, prefd.isSome, true, false⟩ ::
          .fork c.forked
            (childOf (env.moment (called c.log)) ws prefd (some c.pipe.1) c.pipe.2.files) ::
          .waitpid c.forked false :: events, ?_, .goesOn hstop.1 hfork ?_ hprogram⟩
        · rw [runStage_external (c := c.pipe.2) prefd (some c.pipe.1) false hstop.1 hws hfork,
            ok_bind, hbefore]
          refine hlog.trans ?_
          show c.log ++ [_] ++ _ ++ events = _
          simp
        · refine launched hstd hB hm (joined (ends_pipe hstd h)) hold' (fun _ => ?_)
            fun hno => absurd hlast hno
          rw [Option.bind_some, file_pipe_write]
          rfl

/-- **What `do_pipe_cmd` has the kernel do** for a pipeline of external commands in the
foreground. -/
theorem doPipeCmd_program (env : Env) {s : Mysh} {b : ℕ} (h : Holds s.tokens b ws)
    (hstd : ∀ fd < 3, (s.core.files.file fd).isSome)
    (hext : ∀ st ∈ ws.splitOn ['|'], isBuildin st = false) :
    ∃ events, logOf ((doPipeCmd env b false s).map Mysh.core) = s.core.log ++ events ∧
      Program env s.core.files.made s.core.files.made (called s.core.log) s.core.forked
        (ws.splitOn ['|']) events := by
  obtain ⟨τ, -, heq⟩ := doPipeCmd_eq env false h
  have hcore : (doPipeCmd env b false s).map Mysh.core =
      runStages env false none (ws.splitOn ['|']) s.core := by
    rw [heq]
    cases runStages env false none (ws.splitOn ['|']) s.core with
    | ok c => rfl
    | error e => rfl
  rw [hcore]
  exact runStages_program hstd s.core.files.old (Nat.le_refl _) hext ⟨fun _ _ => rfl, by simp⟩

end LinuxHomework.Shell.Launches
