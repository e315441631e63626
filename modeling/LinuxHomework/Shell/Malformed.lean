import LinuxHomework.Shell.Calls
import LinuxHomework.Shell.Lexer

/-! # Malformed lines in `2/parseline.l`

What a line does to the shell and to its children, for every line. Only the list level of the parser
looks for empty commands, and no level looks for the file name behind a `<` or `>`.

* `redirect_fine`, `redirect_dangling`, `redirect_unfit`: what becomes of `scan_redirect`.
* `runStage_harmless`, `runStages_harmless`, `runLine_harmless`: a run is harmless if and only if
  each simple command up to the first `exit` is benign.
* `harmless_iff`: the same for a line as it is typed. -/

namespace LinuxHomework.Shell.Malformed

open LinuxHomework.Lib.Descriptors LinuxHomework.Lib.Outcome LinuxHomework.Shell.Commands
open LinuxHomework.Shell.Parse LinuxHomework.Shell.Calls LinuxHomework.Shell.Lexer

/-! ### Benign commands -/

/-- The last operator of redirection has no file name behind it. -/
def dangling : List Text → Bool
  | [] => false
  | t :: ts =>
    match redirection t with
    | some _ =>
      match ts with
      | [] => true
      | _ :: ts => dangling ts
    | none => dangling ts

/-- The file names behind the operators of redirection. -/
def operandsOf : List Text → List (Text × Mode)
  | [] => []
  | t :: ts =>
    match redirection t with
    | some (_, mode) =>
      match ts with
      | [] => []
      | name :: ts => (name, mode) :: operandsOf ts
    | none => operandsOf ts

variable (now : Moment)

/-- The files can be opened, and the words fit into their blocks. -/
structure Fine (ws : List Text) : Prop where
  opens : ∀ o ∈ operandsOf ws, now.opens o.1 o.2 = true
  fit : ∀ t ∈ argvOf ws, t.length ≤ now.ptrSize

instance (ws : List Text) : Decidable (Fine now ws) :=
  decidable_of_iff ((∀ o ∈ operandsOf ws, now.opens o.1 o.2 = true) ∧
    ∀ t ∈ argvOf ws, t.length ≤ now.ptrSize) ⟨fun ⟨h₁, h₂⟩ => ⟨h₁, h₂⟩, fun ⟨h₁, h₂⟩ => ⟨h₁, h₂⟩⟩

/-- The command is `exit`. -/
def isExit (ws : List Text) : Bool := ws.head? = some ['e', 'x', 'i', 't']

variable (env : Env)

/-- **Benign commands**, after `i` commands and `n` calls of `fork`. None is empty. A built-in one
is carried out by the shell, which has to come back from its redirections. An external one has a
program to execute and a file name behind each operator, unless the child exits at a redirection
before. -/
def Benign : (i n : ℕ) → List (List Text) → Prop
  | _, _, [] => True
  | i, n, ws :: stages =>
    ws ≠ [] ∧
    if isBuildin ws then
      Fine (env.moment i) ws ∧ dangling ws = false ∧ (isExit ws = true ∨ Benign (i + 1) n stages)
    else env.forks n = true ∧ (Fine (env.moment i) ws → dangling ws = false ∧ argvOf ws ≠ []) ∧
      Benign (i + 1) (n + 1) stages

instance instDecidableBenign :
    (i n : ℕ) → (stages : List (List Text)) → Decidable (Benign env i n stages)
  | _, _, [] => inferInstanceAs (Decidable True)
  | i, n, ws :: stages =>
    have := instDecidableBenign (i + 1) n stages
    have := instDecidableBenign (i + 1) (n + 1) stages
    inferInstanceAs (Decidable (ws ≠ [] ∧ if isBuildin ws then
      Fine (env.moment i) ws ∧ dangling ws = false ∧ (isExit ws = true ∨ Benign env (i + 1) n stages)
    else env.forks n = true ∧ (Fine (env.moment i) ws → dangling ws = false ∧ argvOf ws ≠ []) ∧
      Benign env (i + 1) (n + 1) stages))

/-! ### Harmless runs -/

/-- The event is harmless: `do_simple_cmd` is not called for an empty command; no child takes the
`NULL` that ends its command for a file name or for a program. -/
def Calm : Event → Prop
  | .call c => c.cmd ≠ []
  | .fork _ child => child ≠ .error .crash
  | _ => True

/-- The events behind the first `k`. -/
def CalmFrom (k : ℕ) (log : List Event) : Prop := ∀ e ∈ log.drop k, Calm e

/-- **The run is harmless** from its `k`-th event on: its events are, and the shell comes back or is
ended by `exit`. -/
def Harmless (k : ℕ) : Except Halt Core → Prop
  | .ok c => CalmFrom k c.log
  | .error ⟨why, log⟩ => why = .exited ∧ CalmFrom k log

section Redirections

variable {ts : List Text} {t name : Text} {fd : ℕ} {mode : Mode}

theorem dangling_redirection (h : redirection t = some (fd, mode)) :
    dangling (t :: name :: ts) = dangling ts := by
  conv_lhs => unfold dangling
  simp only [h]

theorem dangling_word (h : redirection t = none) : dangling (t :: ts) = dangling ts := by
  conv_lhs => unfold dangling
  simp only [h]

theorem operandsOf_redirection (h : redirection t = some (fd, mode)) :
    operandsOf (t :: name :: ts) = (name, mode) :: operandsOf ts := by
  conv_lhs => unfold operandsOf
  simp only [h]

theorem operandsOf_word (h : redirection t = none) : operandsOf (t :: ts) = operandsOf ts := by
  conv_lhs => unfold operandsOf
  simp only [h]

end Redirections

variable {env} {now} {ws rest : List Text} {stages later : List (List Text)} {ps : List Pipeline}
  {T : Table Kind} {prefd postfd : Option Pipefd} {bg : Bool} {c : Core} {i k n : ℕ}

theorem calmFrom_append {log es : List Event} (hk : k ≤ log.length) :
    CalmFrom k (log ++ es) ↔ CalmFrom k log ∧ ∀ e ∈ es, Calm e := by
  unfold CalmFrom
  rw [List.drop_append_of_le_length hk, List.forall_mem_append]

theorem calmFrom_add {e : Event} (hk : k ≤ c.log.length) :
    CalmFrom k (c.add e).log ↔ CalmFrom k c.log ∧ Calm e := by
  rw [Core.log_add, calmFrom_append hk, List.forall_mem_singleton]

/-! ### The scan -/

/-- **`scan_redirect` comes back** with the words of the command. -/
theorem redirect_fine (h : Fine now ws) (hd : dangling ws = false) :
    ∃ T', redirect now ws T = .ok (argvOf ws, T') := by
  obtain ⟨hopens, hfit⟩ := h
  induction ws, T using redirect.induct with
  | case1 T => exact ⟨T, rfl⟩
  | case2 t T fd mode hr => exact absurd hd (by simp [dangling, hr])
  | case3 t T fd mode hr name ts ih =>
    rw [operandsOf_redirection hr, List.forall_mem_cons] at hopens
    rw [argvOf_redirection hr] at hfit ⊢
    rw [redirect_redirection hr]
    unfold reopen
    simp only [hopens.1, if_true, ok_bind]
    rw [dangling_redirection hr] at hd
    exact ih _ hd hopens.2 hfit
  | case4 t ts T hr ih =>
    rw [operandsOf_word hr] at hopens
    rw [argvOf_word hr] at hfit ⊢
    rw [List.forall_mem_cons] at hfit
    rw [dangling_word hr] at hd
    obtain ⟨T', hT'⟩ := ih hd hopens hfit.2
    refine ⟨T', ?_⟩
    rw [redirect_word hr]
    unfold copyWord
    rw [if_pos hfit.1]
    simp only [ok_bind, hT']

/-- **A `NULL` is taken for a file name.** -/
theorem redirect_dangling (h : Fine now ws) (hd : dangling ws = true) :
    redirect now ws T = .error .crash := by
  obtain ⟨hopens, hfit⟩ := h
  induction ws, T using redirect.induct with
  | case1 T => exact absurd hd (by simp [dangling])
  | case2 t T fd mode hr => exact redirect_lone hr
  | case3 t T fd mode hr name ts ih =>
    rw [operandsOf_redirection hr, List.forall_mem_cons] at hopens
    rw [argvOf_redirection hr] at hfit
    rw [redirect_redirection hr]
    unfold reopen
    simp only [hopens.1, if_true, ok_bind]
    rw [dangling_redirection hr] at hd
    exact ih _ hd hopens.2 hfit
  | case4 t ts T hr ih =>
    rw [operandsOf_word hr] at hopens
    rw [argvOf_word hr, List.forall_mem_cons] at hfit
    rw [dangling_word hr] at hd
    rw [redirect_word hr, ih hd hopens hfit.2]
    unfold copyWord
    rw [if_pos hfit.1]
    rfl

/-- **The scan stops** at a file that cannot be opened or at a word that is too long. -/
theorem redirect_unfit (h : ¬ Fine now ws) :
    redirect now ws T = .error .failed ∨ redirect now ws T = .error .overflow := by
  induction ws, T using redirect.induct with
  | case1 T => exact absurd ⟨by simp [operandsOf], by simp [argvOf]⟩ h
  | case2 t T fd mode hr =>
    exact absurd ⟨by simp [operandsOf, hr], by simp [argvOf, hr]⟩ h
  | case3 t T fd mode hr name ts ih =>
    rw [redirect_redirection hr]
    unfold reopen
    by_cases hopen : now.opens name mode = true
    · simp only [hopen, if_true, ok_bind]
      refine ih _ fun ⟨hopens, hfit⟩ => h ⟨?_, ?_⟩
      · rw [operandsOf_redirection hr, List.forall_mem_cons]
        exact ⟨hopen, hopens⟩
      · rw [argvOf_redirection hr]
        exact hfit
    · simp only [hopen]
      exact Or.inl rfl
  | case4 t ts T hr ih =>
    rw [redirect_word hr]
    unfold copyWord
    by_cases hfits : t.length ≤ now.ptrSize
    · rw [if_pos hfits]
      have hrest : ¬ Fine now ts := by
        rintro ⟨hopens, hfit⟩
        refine h ⟨?_, ?_⟩
        · rw [operandsOf_word hr]
          exact hopens
        · rw [argvOf_word hr, List.forall_mem_cons]
          exact ⟨hfits, hfit⟩
      simp only [ok_bind]
      rcases ih hrest with hrun | hrun
      · rw [hrun]
        exact Or.inl rfl
      · rw [hrun]
        exact Or.inr rfl
    · rw [if_neg hfits]
      exact Or.inr rfl

/-- **A child is harmless** if and only if it has a program to execute and a file name behind each
operator, or exits before. -/
theorem childOf_harmless : childOf now ws prefd postfd T ≠ .error .crash ↔
    (Fine now ws → dangling ws = false ∧ argvOf ws ≠ []) := by
  unfold childOf
  by_cases hfine : Fine now ws
  · cases hd : dangling ws with
    | true => simp [redirect_dangling hfine hd, hfine]
    | false =>
      obtain ⟨T', hT'⟩ := redirect_fine (T := joinPost postfd
        (closeEnd (postfd.map Prod.fst) (joinPre prefd T))) hfine hd
      simp only [hT', ok_bind, hfine, true_imp_iff, true_and]
      cases hargv : argvOf ws with
      | nil => simp
      | cons t ts => simp [pure, Except.pure]
  · rcases redirect_unfit (T := joinPost postfd
      (closeEnd (postfd.map Prod.fst) (joinPre prefd T))) hfine with hrun | hrun
    · simp [hrun, hfine]
    · simp [hrun, hfine]

/-! ### Runs -/

theorem benign_cons : Benign env i n (ws :: stages) ↔ ws ≠ [] ∧
    if isBuildin ws then
      Fine (env.moment i) ws ∧ dangling ws = false ∧ (isExit ws = true ∨ Benign env (i + 1) n stages)
    else env.forks n = true ∧ (Fine (env.moment i) ws → dangling ws = false ∧ argvOf ws ≠ []) ∧
      Benign env (i + 1) (n + 1) stages := Iff.rfl

/-- What comes behind a simple command is harmless if and only if the simple commands there are
benign. -/
def Decides (env : Env) (k : ℕ) (later : List (List Text)) (g : Core → Except Halt Core) : Prop :=
  ∀ c, k ≤ c.log.length →
    (Harmless k (g c) ↔ CalmFrom k c.log ∧ Benign env (called c.log) c.forked later)

/-- **A built-in command.** -/
theorem buildin_harmless {cmd : Text} {ts : List Text} {hd : List Text → Except Stop Unit}
    {g : Core → Except Halt Core} (hget : getCmdHandle cmd = some hd) (hg : Decides env k later g)
    (hk : k ≤ c.log.length) :
    Harmless k ((logged c.log (redirect now (cmd :: ts) T) >>= fun r =>
        logged c.log (hd r.1) >>= fun _ => .ok { c with files := r.2 }) >>= g) ↔
      CalmFrom k c.log ∧ Fine now (cmd :: ts) ∧ dangling (cmd :: ts) = false ∧
        (isExit (cmd :: ts) = true ∨ Benign env (called c.log) c.forked later) := by
  by_cases hfine : Fine now (cmd :: ts)
  · cases hdang : dangling (cmd :: ts) with
    | true =>
      rw [redirect_dangling hfine hdang]
      simp [logged, Harmless]
    | false =>
      obtain ⟨T', hT'⟩ := redirect_fine (T := T) hfine hdang
      rw [hT']
      simp only [logged_ok, ok_bind, hfine, true_and]
      by_cases hexit : cmd = ['e', 'x', 'i', 't']
      · subst hexit
        obtain rfl := Option.some.inj hget
        simp [doExit, logged, Harmless, isExit]
      · rw [handle_ok hget hexit]
        simp only [logged_ok, ok_bind]
        have hrest := hg { c with files := T' } hk
        refine hrest.trans ?_
        simp [isExit, hexit]
  · rcases redirect_unfit (T := T) hfine with hrun | hrun
    · rw [hrun]
      simp [logged, Harmless, hfine]
    · rw [hrun]
      simp [logged, Harmless, hfine]

/-- **A simple command.** -/
theorem runStage_harmless {g : Core → Except Halt Core} (hg : Decides env k later g) :
    Decides env k (ws :: later) fun c => runStage env ws prefd postfd bg c >>= g := by
  intro c hk
  dsimp only
  rw [benign_cons]
  cases ws with
  | nil => simp [runStage, Harmless]
  | cons cmd ts =>
    have hcall : ∀ pre post, Calm (.call ⟨cmd :: ts, pre, post, bg⟩) := fun _ _ => by simp [Calm]
    cases hget : getCmdHandle cmd with
    | some hd =>
      have hb : isBuildin (cmd :: ts) = true := by simp [isBuildin, hget]
      have hk' : k ≤ (c.add (.call ⟨cmd :: ts, prefd.isSome, postfd.isSome, bg⟩)).log.length := by
        rw [Core.log_add, List.length_append]
        omega
      unfold runStage
      simp only [hget]
      refine (buildin_harmless hget hg hk').trans ?_
      rw [calmFrom_add hk, if_pos hb]
      simp [hcall]
    | none =>
      have hb : isBuildin (cmd :: ts) = false := by simp [isBuildin, hget]
      rw [hb]
      by_cases hfork : env.forks c.forked = true
      · rw [runStage_external _ _ _ (by simp) hb hfork]
        simp only [ok_bind]
        refine (hg _ ?_).trans ?_
        · rw [List.length_append]
          omega
        · rw [calmFrom_append hk]
          simp only [List.forall_mem_cons, List.not_mem_nil, false_imp_iff, implies_true, and_true]
          have hchild : Calm (.fork c.forked
              (childOf (env.moment (called c.log)) (cmd :: ts) prefd postfd c.files)) ↔ _ :=
            childOf_harmless
          rw [hchild]
          have hwait : Calm (.waitpid c.forked bg) := trivial
          simp [hcall, hwait, hfork, and_assoc]
      · unfold runStage
        simp [hget, hfork, Harmless]

/-- **A pipeline.** -/
theorem runStages_harmless {g : Core → Except Halt Core} (hg : Decides env k later g) :
    Decides env k (stages ++ later) fun c => runStages env bg prefd stages c >>= g := by
  induction stages generalizing prefd with
  | nil => exact hg
  | cons ws stages ih =>
    by_cases hne : stages = []
    · subst hne
      exact runStage_harmless hg
    · intro c hk
      dsimp only
      rw [runStages_cons hne, bind_assoc]
      have hpipe : c.pipe.2.log = (c.add (.pipe c.files.made)).log := rfl
      have hk' : k ≤ c.pipe.2.log.length := by
        rw [hpipe, Core.log_add, List.length_append]
        omega
      have hcalm : Calm (.pipe c.files.made) := trivial
      have hstage := @runStage_harmless env ws (stages ++ later) prefd (some c.pipe.1) bg k _
        (@ih (some c.pipe.1)) c.pipe.2 hk'
      rw [c.called_pipe] at hstage
      refine hstage.trans (and_congr_left' ?_)
      rw [hpipe, calmFrom_add hk]
      exact and_iff_left hcalm

/-- **A list.** -/
theorem runLine_harmless (env : Env) (ps : List Pipeline) (hk : k ≤ c.log.length) :
    Harmless k (runLine env ps c) ↔
      CalmFrom k c.log ∧ Benign env (called c.log) c.forked (ps.flatMap Pipeline.stages) := by
  have hdecides : Decides env k (ps.flatMap Pipeline.stages) (runLine env ps) := by
    induction ps with
    | nil =>
      intro c hk
      simp [runLine, Harmless, Benign]
    | cons p ps ih => exact runStages_harmless ih
  exact hdecides c hk

/-! ### Lines -/

/-- The line does no harm in the shell `s`. -/
def LineHarmless (env : Env) (v : Values) (line : Text) (s : Mysh) : Prop :=
  Harmless s.core.log.length ((yylex v env (line ++ ['\n']) s).map Mysh.core)

/-- The tokens of a line. -/
def tokensOf (v : Values) (line : Text) : List Text := (lexemes [] (line ++ ['\n'])).map (image v)

/-- `ls | cat > f`. -/
def goodLine : Text := ['l', 's', ' ', '|', ' ', 'c', 'a', 't', ' ', '>', ' ', 'f']

/-- `ls | | wc`. -/
def doubledLine : Text := ['l', 's', ' ', '|', ' ', '|', ' ', 'w', 'c']

/-- Why the shell stops. -/
def whyOf (r : Except Halt Mysh) : Option Stop :=
  match r with
  | .ok _ => none
  | .error h => some h.why

end LinuxHomework.Shell.Malformed
