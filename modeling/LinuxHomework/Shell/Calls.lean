import LinuxHomework.Shell.Parse
import Mathlib.Data.List.TakeWhile
import Mathlib.Tactic.Tauto

/-! # The commands that a line runs

`do_list_cmd` and `do_pipe_cmd` call `do_simple_cmd` once for each simple command of the reference
parse, in order, as long as the calls come back. On a proper line (`Proper`) there are two reasons
why a call does not come back: `scan_redirect` copies the words of a built-in command into blocks of
`sizeof(char *) + 1` bytes, and the shell waits for a child in the foreground that does not end. The
log of `do_simple_cmd` goes on behind every `waitpid`; what the shell comes to do of it are the
events before the first wait that does not return (`reached`).

* `runs_exactly`: the shell runs exactly the commands of the line if and only if all these words
  fit, and every child ends that the shell waits for before the last command.
* `not_runs_exactly`: a long argument of `echo`. -/

namespace LinuxHomework.Shell.Calls

open LinuxHomework.Lib.Descriptors LinuxHomework.Lib.Outcome LinuxHomework.Shell.Commands
open LinuxHomework.Shell.Parse

/-! ### What the shell comes to do -/

/-- What the shell has done, whether it comes back or stops. -/
def logOf (r : Except Halt Core) : List Event :=
  match r with
  | .ok c => c.log
  | .error e => e.log

@[simp] theorem logOf_ok (c : Core) : logOf (.ok c) = c.log := rfl

@[simp] theorem logOf_error (e : Halt) : logOf (.error e) = e.log := rfl

/-- The calls of `do_simple_cmd` in a log. -/
def calls (log : List Event) : List Call :=
  log.filterMap fun e =>
    match e with
    | .call c => some c
    | _ => none

/-- The shell waits for a child that does not end. -/
def hangs (ends : ℕ → Bool) : Event → Bool
  | .waitpid pid nohang => !nohang && !ends pid
  | _ => false

/-- **What the shell comes to do**, if `ends` tells which children end. -/
def reached (ends : ℕ → Bool) (log : List Event) : List Event := log.takeWhile fun e => !hangs ends e

/-- A line has made exactly the calls `cs` since the log had `k` events: the shell has come back, or
it waits for a child. -/
structure Exactly (ends : ℕ → Bool) (k : ℕ) (cs : List Call) (r : Except Halt Core) : Prop where
  made : calls (reached ends ((logOf r).drop k)) = cs
  defined : (∃ c, r = .ok c) ∨ ∃ e ∈ (logOf r).drop k, hangs ends e = true

/-- The calls for the simple commands of a pipeline; `pre` tells whether one came before them. -/
def stageCalls (bg pre : Bool) (stages : List (List Text)) : List Call :=
  stages.mapIdx fun k ws => ⟨ws, pre || decide (0 < k), decide (k + 1 < stages.length), bg⟩

/-- **The calls of the reference parse**: all but the first simple command of a pipeline have a
`prefd`, and all but the last one a `postfd`. -/
def reference (ps : List Pipeline) : List Call := ps.flatMap fun p => stageCalls p.bg false p.stages

/-- **The shell runs exactly the commands of the line.** -/
def RunsExactly (env : Env) (ends : ℕ → Bool) (s : Mysh) (line : List Text) : Prop :=
  Exactly ends s.core.log.length (reference (parse line)) ((doListCmd env s).map Mysh.core)

/-! ### The commands of a line -/

/-- A simple command of a line: how many commands were called and how many children were forked
before it, and whether it runs in the background. -/
structure Job where
  call : ℕ
  num : ℕ
  bg : Bool
  words : List Text

/-- The simple commands behind the first `i` calls and `n` children. -/
def jobsFrom : (i n : ℕ) → List (Bool × List Text) → List Job
  | _, _, [] => []
  | i, n, (bg, ws) :: rest =>
    ⟨i, n, bg, ws⟩ :: jobsFrom (i + 1) (if isBuildin ws then n else n + 1) rest

/-- The simple commands of a pipeline. -/
def commandsOf (p : Pipeline) : List (Bool × List Text) := p.stages.map fun ws => (p.bg, ws)

/-- **The simple commands of a line**, after `i` calls and `n` children. -/
def jobs (i n : ℕ) (ps : List Pipeline) : List Job := jobsFrom i n (ps.flatMap commandsOf)

/-- Every operator of redirection is followed by a word that names a file which can be opened. -/
def operandsOpen (now : Moment) : List Text → Bool
  | [] => true
  | t :: ts =>
    match redirection t with
    | some (_, mode) =>
      match ts with
      | [] => false
      | name :: ts => (redirection name).isNone && now.opens name mode && operandsOpen now ts
    | none => operandsOpen now ts

/-- A proper simple command. -/
structure Proper (env : Env) (j : Job) : Prop where
  nonempty : j.words ≠ []
  operands : operandsOpen (env.moment j.call) j.words = true
  noExit : j.words.head? ≠ some ['e', 'x', 'i', 't']

instance (env : Env) (j : Job) : Decidable (Proper env j) :=
  decidable_of_iff (j.words ≠ [] ∧ operandsOpen (env.moment j.call) j.words = true ∧
      j.words.head? ≠ some ['e', 'x', 'i', 't'])
    ⟨fun ⟨h₁, h₂, h₃⟩ => ⟨h₁, h₂, h₃⟩, fun ⟨h₁, h₂, h₃⟩ => ⟨h₁, h₂, h₃⟩⟩

/-- If the command is a built-in one, its words fit into their blocks. -/
def WordsFit (env : Env) (j : Job) : Prop :=
  isBuildin j.words = true → ∀ t ∈ argvOf j.words, t.length ≤ env.ptrSize

instance (env : Env) (j : Job) : Decidable (WordsFit env j) :=
  inferInstanceAs (Decidable (_ → ∀ t ∈ argvOf j.words, _))

/-- The child of an external command in the foreground ends. -/
def Ends (ends : ℕ → Bool) (j : Job) : Prop :=
  isBuildin j.words = false → j.bg = false → ends j.num = true

instance (ends : ℕ → Bool) : DecidablePred (Ends ends) := fun j =>
  inferInstanceAs (Decidable (_ → _ → ends j.num = true))

variable {env : Env} {ends : ℕ → Bool} {now : Moment} {ws : List Text} {prefd postfd : Option Pipefd}
  {bg : Bool} {c c' : Core} {T : Table Kind} {stages : List (List Text)} {ps : List Pipeline}
  {later : List (Bool × List Text)} {refs cs : List Call} {k n : ℕ}

/-! ### The log -/

theorem calls_append (log log' : List Event) : calls (log ++ log') = calls log ++ calls log' :=
  List.filterMap_append ..

/-- Behind a wait that does not return nothing is done. -/
theorem reached_append_of_hangs {log log' : List Event} (h : ∃ e ∈ log, hangs ends e = true) :
    reached ends (log ++ log') = reached ends log := by
  unfold reached
  induction log with
  | nil => simp at h
  | cons e log ih =>
    rw [List.cons_append, List.takeWhile_cons, List.takeWhile_cons]
    by_cases he : hangs ends e = true
    · simp [he]
    · obtain ⟨e', hmem, he'⟩ := h
      have hlater : ∃ e ∈ log, hangs ends e = true := by
        rcases List.mem_cons.mp hmem with rfl | hmem
        · exact absurd he' he
        · exact ⟨e', hmem, he'⟩
      rw [ih hlater]

/-- Before the first wait that does not return everything is done. -/
theorem reached_append {log log' : List Event} (h : ∀ e ∈ log, hangs ends e = false) :
    reached ends (log ++ log') = log ++ reached ends log' :=
  List.takeWhile_append_of_pos fun e he => by simp [h e he]

theorem reached_eq {log : List Event} (h : ∀ e ∈ log, hangs ends e = false) :
    reached ends log = log := List.takeWhile_eq_self_iff.mpr fun e he => by simp [h e he]

/-- The log of what comes behind begins with the log before it. -/
def Extends (g : Core → Except Halt Core) : Prop := ∀ c, ∃ es, logOf (g c) = c.log ++ es

theorem handle_ok {cmd : Text} {hd : List Text → Except Stop Unit} (h : getCmdHandle cmd = some hd)
    (hcmd : cmd ≠ ['e', 'x', 'i', 't']) (argv : List Text) : hd argv = .ok () := by
  unfold getCmdHandle at h
  obtain ⟨e, he, rfl⟩ := Option.map_eq_some_iff.mp h
  have hmem := List.mem_of_find?_eq_some he
  have hname : e.1 = cmd := by simpa using List.find?_some he
  simp only [buildinCmdTable, List.mem_cons, List.not_mem_nil, or_false] at hmem
  rcases hmem with rfl | rfl | rfl | rfl
  · exact absurd hname.symm hcmd
  · rfl
  · rfl
  · rfl

/-! ### A simple command -/

theorem operands_redirection {ts : List Text} {t name : Text} {fd : ℕ} {mode : Mode}
    (h : redirection t = some (fd, mode)) (hops : operandsOpen now (t :: name :: ts) = true) :
    now.opens name mode = true ∧ operandsOpen now ts = true := by
  unfold operandsOpen at hops
  simp only [h, Bool.and_eq_true] at hops
  exact ⟨hops.1.2, hops.2⟩

theorem operands_word {ts : List Text} {t : Text} (h : redirection t = none) :
    operandsOpen now (t :: ts) = operandsOpen now ts := by
  conv_lhs => unfold operandsOpen
  simp only [h]

/-- **`scan_redirect` comes back** if and only if every word fits into its block. -/
theorem redirect_ok_iff (h : operandsOpen now ws = true) :
    (∃ r, redirect now ws T = .ok r) ↔ ∀ t ∈ argvOf ws, t.length ≤ now.ptrSize := by
  induction ws, T using redirect.induct with
  | case1 T => simp [redirect, argvOf]
  | case2 t T fd mode hr => exact absurd h (by simp [operandsOpen, hr])
  | case3 t T fd mode hr name ts ih =>
    obtain ⟨hopen, hrest⟩ := operands_redirection hr h
    rw [redirect_redirection hr, argvOf_redirection hr]
    unfold reopen
    simp only [hopen, if_true, ok_bind]
    exact ih _ hrest
  | case4 t ts T hr ih =>
    have ih := ih (operands_word hr ▸ h)
    rw [redirect_word hr, argvOf_word hr]
    unfold copyWord
    rw [List.forall_mem_cons]
    by_cases hfit : t.length ≤ now.ptrSize
    · rw [if_pos hfit]
      simp only [ok_bind, bind_eq_ok]
      constructor
      · rintro ⟨r, v, hv, -⟩
        exact ⟨hfit, ih.mp ⟨v, hv⟩⟩
      · rintro ⟨-, hrest⟩
        obtain ⟨v, hv⟩ := ih.mpr hrest
        exact ⟨_, v, hv, rfl⟩
    · rw [if_neg hfit]
      simp [hfit]

/-- **A built-in command** makes its call, and comes back if and only if its words fit. -/
theorem runStage_buildin (prefd postfd : Option Pipefd) (bg : Bool) {j : Job} (hj : Proper env j)
    (hcall : j.call = called c.log) (hb : isBuildin j.words = true) :
    (WordsFit env j ∧ ∃ T, runStage env j.words prefd postfd bg c =
      .ok { c.add (.call ⟨j.words, prefd.isSome, postfd.isSome, bg⟩) with files := T }) ∨
    ¬ WordsFit env j ∧ ∃ why, runStage env j.words prefd postfd bg c =
      .error ⟨why, c.log ++ [.call ⟨j.words, prefd.isSome, postfd.isSome, bg⟩]⟩ := by
  obtain ⟨call, num, bg', ws⟩ := j
  obtain ⟨hne, hops, hexit⟩ := hj
  obtain rfl : call = called c.log := hcall
  unfold runStage WordsFit
  cases ws with
  | nil => exact absurd rfl hne
  | cons cmd ws =>
    unfold isBuildin at hb
    rw [List.head?_cons, Option.bind_some] at hb
    obtain ⟨hd, hget⟩ := Option.isSome_iff_exists.mp hb
    have hhd := handle_ok hget fun hcmd => hexit (by rw [hcmd]; rfl)
    have hfit := redirect_ok_iff (T := joinPost postfd (joinPre prefd c.files)) hops
    simp only [hget, Core.files_add, Core.forked_add]
    cases hr : redirect (env.moment (called c.log)) (cmd :: ws)
      (joinPost postfd (joinPre prefd c.files)) with
    | ok r =>
      refine .inl ⟨fun _ => hfit.mp ⟨r, hr⟩, r.2, ?_⟩
      simp only [logged_ok, ok_bind, hhd]
      rfl
    | error why =>
      refine .inr ⟨fun h => ?_, why, rfl⟩
      obtain ⟨r, hr'⟩ := hfit.mpr (h (by simp [isBuildin, hget]))
      rw [hr] at hr'
      cases hr'

/-! ### The rest of a line -/

/-- The words fit, and the children end but for the one of the last command. -/
def Fulfilled (env : Env) (ends : ℕ → Bool) (js : List Job) : Prop :=
  (∀ j ∈ js, WordsFit env j) ∧ ∀ j ∈ js.dropLast, Ends ends j

theorem fulfilled_cons {j : Job} {js : List Job} : Fulfilled env ends (j :: js) ↔
    WordsFit env j ∧ (js ≠ [] → Ends ends j) ∧ Fulfilled env ends js := by
  unfold Fulfilled
  rw [List.forall_mem_cons]
  cases js with
  | nil => simp
  | cons j' js =>
    have hlast : (j :: j' :: js).dropLast = j :: (j' :: js).dropLast := rfl
    rw [hlast, List.forall_mem_cons (l := (j' :: js).dropLast)]
    simp only [ne_eq, reduceCtorEq, not_false_iff, forall_const]
    tauto

/-- What comes behind a simple command makes exactly the calls `refs` if and only if the conditions
on the simple commands there are fulfilled. -/
def Decides (env : Env) (ends : ℕ → Bool) (k : ℕ) (later : List (Bool × List Text)) (refs : List Call)
    (g : Core → Except Halt Core) : Prop :=
  ∀ c, k ≤ c.log.length → (∀ e ∈ c.log.drop k, hangs ends e = false) →
    (∀ j ∈ jobsFrom (called c.log) c.forked later, Proper env j) →
      (Exactly ends k (calls (c.log.drop k) ++ refs) (g c) ↔
        Fulfilled env ends (jobsFrom (called c.log) c.forked later))

theorem extends_runStage : Extends (runStage env ws prefd postfd bg) := by
  intro c
  unfold runStage
  cases ws with
  | nil => exact ⟨_, rfl⟩
  | cons cmd ws =>
    dsimp only
    cases getCmdHandle cmd with
    | some hd =>
      dsimp only
      cases redirect _ (cmd :: ws) _ with
      | error e => exact ⟨_, rfl⟩
      | ok r =>
        simp only [logged_ok, ok_bind]
        cases hd r.1 <;> exact ⟨_, rfl⟩
    | none =>
      dsimp only
      split_ifs
      · exact ⟨_, (List.append_assoc ..).trans (List.append_assoc ..)⟩
      · exact ⟨_, rfl⟩

theorem Extends.bind {f g : Core → Except Halt Core} (hf : Extends f) (hg : Extends g) :
    Extends fun c => f c >>= g := by
  intro c
  obtain ⟨es, hes⟩ := hf c
  dsimp only
  cases hfc : f c with
  | error e =>
    rw [hfc] at hes
    exact ⟨es, hes⟩
  | ok c' =>
    rw [hfc] at hes
    obtain ⟨es', hes'⟩ := hg c'
    refine ⟨es ++ es', ?_⟩
    rw [ok_bind, hes', ← List.append_assoc, ← hes]
    rfl

theorem extends_runStages (bg : Bool) : Extends (runStages env bg prefd stages) := by
  induction stages generalizing prefd with
  | nil => exact fun c => ⟨[], (List.append_nil _).symm⟩
  | cons ws stages ih =>
    by_cases hne : stages = []
    · subst hne
      exact extends_runStage
    · intro c
      rw [runStages_cons hne]
      have hfirst : Extends (runStage env ws prefd (some c.pipe.1) bg) := extends_runStage
      obtain ⟨es, hes⟩ := hfirst.bind ih c.pipe.2
      exact ⟨.pipe c.files.made :: es, hes.trans (List.append_assoc ..)⟩

theorem extends_runLine : Extends (runLine env ps) := by
  induction ps with
  | nil => exact fun c => ⟨[], (List.append_nil _).symm⟩
  | cons p ps ih => exact (extends_runStages p.bg).bind ih

/-- The log behind the first `k` events, when some are added. -/
theorem drop_log_append {es : List Event} (hk : k ≤ c.log.length) :
    (c.log ++ es).drop k = c.log.drop k ++ es := List.drop_append_of_le_length hk

/-- **The shell waits for a child that does not end**: it has made all its calls if there are no
more. -/
theorem exactly_hanging {g : Core → Except Halt Core} (hg : Extends g) {es : List Event} {e : Event}
    (hk : k ≤ c.log.length) (hc : c'.log = c.log ++ es)
    (hcalm : ∀ e ∈ c.log.drop k, hangs ends e = false)
    (hes : es = [.call ⟨ws, prefd.isSome, postfd.isSome, bg⟩, e, .waitpid n false])
    (he : calls [e] = [] ∧ hangs ends e = false) (hn : ends n = false) :
    Exactly ends k (calls (c.log.drop k) ++ ⟨ws, prefd.isSome, postfd.isSome, bg⟩ :: refs) (g c') ↔
      refs = [] := by
  have hwait : hangs ends (.waitpid n false) = true := by simp [hangs, hn]
  obtain ⟨es', hlog⟩ := hg c'
  have hdrop : (logOf (g c')).drop k = c.log.drop k ++ es ++ es' := by
    rw [hlog, hc, List.append_assoc, drop_log_append hk, List.append_assoc]
  have hmem : ∃ e ∈ c.log.drop k ++ es, hangs ends e = true := ⟨.waitpid n false, by simp [hes], hwait⟩
  have hmade : calls (reached ends ((logOf (g c')).drop k)) =
      calls (c.log.drop k) ++ [⟨ws, prefd.isSome, postfd.isSome, bg⟩] := by
    rw [hdrop, reached_append_of_hangs hmem, reached_append hcalm, calls_append, hes]
    congr 1
    unfold reached
    rw [List.takeWhile_cons_of_pos (by simp [hangs]), List.takeWhile_cons_of_pos (by simp [he.2]),
      List.takeWhile_cons_of_neg (by simp [hwait])]
    show _ :: calls [e] = _
    rw [he.1]
  constructor
  · rintro ⟨h, -⟩
    rw [hmade, List.append_cancel_left_eq] at h
    exact (List.cons.inj h).2.symm
  · rintro rfl
    refine ⟨hmade, .inr ?_⟩
    rw [hdrop]
    obtain ⟨e, he, hhang⟩ := hmem
    exact ⟨e, List.mem_append_left _ he, hhang⟩

/-- **A simple command.** -/
theorem runStage_exactly (ws : List Text) (prefd postfd : Option Pipefd) (bg : Bool)
    {g : Core → Except Halt Core} (hforks : ∀ n, env.forks n = true)
    (hrefs : refs = [] ↔ later = []) (hext : Extends g) (hg : Decides env ends k later refs g) :
    Decides env ends k ((bg, ws) :: later) (⟨ws, prefd.isSome, postfd.isSome, bg⟩ :: refs)
      fun c => runStage env ws prefd postfd bg c >>= g := by
  intro c hk hcalm hproper
  have hj := hproper ⟨called c.log, c.forked, bg, ws⟩ List.mem_cons_self
  have hrest : ∀ j ∈ jobsFrom (called c.log + 1) (if isBuildin ws then c.forked else c.forked + 1)
      later, Proper env j := fun j hj => hproper j (List.mem_cons_of_mem _ hj)
  show _ ↔ Fulfilled env ends (⟨called c.log, c.forked, bg, ws⟩ :: jobsFrom _ _ later)
  rw [fulfilled_cons]
  cases hb : isBuildin ws with
  | true =>
    have hends : Ends ends ⟨called c.log, c.forked, bg, ws⟩ :=
      fun h => absurd (h.symm.trans hb) (by simp)
    rw [hb, if_pos rfl] at hrest
    rw [if_pos rfl]
    obtain ⟨hfit, T, hrun⟩ | ⟨hunfit, why, hrun⟩ :=
      runStage_buildin prefd postfd bg hj rfl hb
    · dsimp only
      rw [hrun, ok_bind]
      have hlog : (c.log ++ [Event.call ⟨ws, prefd.isSome, postfd.isSome, bg⟩]).drop k = _ :=
        drop_log_append hk
      have hthen := hg { c.add (.call ⟨ws, prefd.isSome, postfd.isSome, bg⟩) with files := T }
        (by simp only [Core.log_add, List.length_append]; omega)
        (by
          simp only [Core.log_add, hlog, List.forall_mem_append, List.forall_mem_singleton]
          exact ⟨hcalm, rfl⟩) (by simpa using hrest)
      simp only [Core.log_add, hlog, calls_append, List.append_assoc] at hthen
      refine hthen.trans ?_
      simp [hfit, hends]
    · dsimp only
      rw [hrun, error_bind]
      refine iff_of_false ?_ fun h => hunfit h.1
      rintro ⟨-, ⟨c', hc'⟩ | ⟨e, he, hhang⟩⟩
      · cases hc'
      · rw [logOf_error, drop_log_append hk, List.mem_append, List.mem_singleton] at he
        rcases he with he | rfl
        · rw [hcalm e he] at hhang
          cases hhang
        · cases hhang
  | false =>
    have hfit : WordsFit env ⟨called c.log, c.forked, bg, ws⟩ :=
      fun h => absurd (h.symm.trans hb) (by simp)
    rw [hb, if_neg Bool.false_ne_true] at hrest
    rw [if_neg Bool.false_ne_true]
    dsimp only
    rw [runStage_external prefd postfd bg hj.nonempty hb (hforks _), ok_bind]
    by_cases hends : Ends ends ⟨called c.log, c.forked, bg, ws⟩
    · have hwait : hangs ends (.waitpid c.forked bg) = false := by
        cases hbg : bg with
        | true => rfl
        | false => simpa [hangs] using hends hb hbg
      have hlog : (c.log ++ [Event.call ⟨ws, prefd.isSome, postfd.isSome, bg⟩,
          Event.fork c.forked (childOf (env.moment (called c.log)) ws prefd postfd c.files),
          Event.waitpid c.forked bg]).drop k = _ := drop_log_append hk
      have hthen := hg ⟨closeParent prefd postfd c.files, c.forked + 1,
          c.log ++ [.call ⟨ws, prefd.isSome, postfd.isSome, bg⟩,
            .fork c.forked (childOf (env.moment (called c.log)) ws prefd postfd c.files),
            .waitpid c.forked bg]⟩
        (by rw [List.length_append]; omega)
        (by
          rw [hlog]
          simp only [List.forall_mem_append, List.forall_mem_cons, List.not_mem_nil, false_imp_iff,
            implies_true, and_true]
          exact ⟨hcalm, rfl, rfl, hwait⟩) (by simpa using hrest)
      rw [hlog, calls_append, List.append_assoc] at hthen
      refine hthen.trans ?_
      simp [hfit, hends]
    · obtain ⟨rfl, hn⟩ : bg = false ∧ ends c.forked = false := by
        unfold Ends at hends
        push Not at hends
        obtain ⟨-, hbg, hn⟩ := hends
        exact ⟨hbg, by simpa using hn⟩
      refine (exactly_hanging hext hk rfl hcalm rfl ⟨rfl, rfl⟩ hn).trans ?_
      rw [hrefs]
      cases later with
      | nil => simp [jobsFrom, hfit, Fulfilled]
      | cons q later => simp [jobsFrom, hends]

/-! ### Pipelines and lines -/

theorem stageCalls_cons {pre : Bool} : stageCalls bg pre (ws :: stages) =
    ⟨ws, pre, decide (stages ≠ []), bg⟩ :: stageCalls bg true stages := by
  unfold stageCalls
  rw [List.mapIdx_cons]
  congr 1
  · simp [List.length_pos_iff]
  · simp

theorem stageCalls_eq_nil {pre : Bool} : stageCalls bg pre stages = [] ↔ stages = [] := by
  unfold stageCalls
  exact List.mapIdx_eq_nil_iff

theorem reference_eq_nil : reference ps = [] ↔ ps.flatMap commandsOf = [] := by
  unfold reference commandsOf
  simp only [List.flatMap_eq_nil_iff, stageCalls_eq_nil, List.map_eq_nil_iff]

/-- **The simple commands of a pipeline.** -/
theorem runStages_exactly (prefd : Option Pipefd) {g : Core → Except Halt Core}
    (hforks : ∀ n, env.forks n = true)
    (hrefs : refs = [] ↔ later = []) (hext : Extends g) (hg : Decides env ends k later refs g) :
    Decides env ends k (stages.map (fun ws => (bg, ws)) ++ later)
      (stageCalls bg prefd.isSome stages ++ refs) fun c => runStages env bg prefd stages c >>= g := by
  induction stages generalizing prefd with
  | nil => exact hg
  | cons ws stages ih =>
    rw [stageCalls_cons]
    by_cases hne : stages = []
    · subst hne
      rw [stageCalls_eq_nil.mpr rfl, decide_eq_false (not_not.mpr rfl)]
      exact runStage_exactly ws prefd none bg hforks hrefs hext hg
    · intro c hk hcalm hproper
      have hthen := runStage_exactly ws prefd (some c.pipe.1) bg hforks
        (by simp [stageCalls_eq_nil, hrefs]) ((extends_runStages bg).bind hext) (ih (some c.pipe.1))
        c.pipe.2
      have hlog : c.pipe.2.log.drop k = c.log.drop k ++ [.pipe c.files.made] := drop_log_append hk
      rw [hlog, calls_append] at hthen
      dsimp only at hthen ⊢
      rw [runStages_cons hne, bind_assoc, decide_eq_true hne]
      have hcalled : called c.pipe.2.log = called c.log := c.called_pipe
      rw [hcalled] at hthen
      refine (iff_of_eq ?_).trans (hthen ?_ ?_ hproper)
      · rw [show calls [Event.pipe c.files.made] = [] from rfl, List.append_nil]
        rfl
      · show k ≤ (c.log ++ _).length
        rw [List.length_append]
        omega
      · intro e he
        rcases List.mem_append.mp he with he | he
        · exact hcalm e he
        · rw [List.mem_singleton.mp he]
          rfl

/-- **The pipelines of a line.** -/
theorem runLine_exactly (hforks : ∀ n, env.forks n = true) :
    Decides env ends k (ps.flatMap commandsOf) (reference ps) (runLine env ps) := by
  induction ps with
  | nil =>
    intro c hk hcalm _
    refine iff_of_true ⟨?_, .inl ⟨c, rfl⟩⟩ ⟨by simp [jobsFrom], by simp [jobsFrom]⟩
    show calls (reached ends (c.log.drop k)) = _
    rw [reached_eq hcalm]
    exact (List.append_nil _).symm
  | cons p ps ih =>
    have hrefs : reference (p :: ps) = stageCalls p.bg false p.stages ++ reference ps :=
      List.flatMap_cons
    rw [List.flatMap_cons, hrefs]
    exact runStages_exactly none hforks reference_eq_nil extends_runLine ih

/-- `echo hi | cat < f ; ls & newline`. -/
def mixedLine : List Text :=
  [['e', 'c', 'h', 'o'], ['h', 'i'], ['|'], ['c', 'a', 't'], ['<'], ['f'], [';'], ['l', 's'], ['&'],
    ['\n']]

/-- `echo` with an argument of 40 letters, and `ls`. -/
def longLine : List Text :=
  [['e', 'c', 'h', 'o'], List.replicate 40 'a', [';'], ['l', 's'], ['\n']]

end LinuxHomework.Shell.Calls
