import LinuxHomework.Lib.Outcome
import LinuxHomework.Lib.Split
import LinuxHomework.Shell.Commands
import Mathlib.Tactic.SplitIfs

/-! # What a line means

The reference parse of a line and its execution, told without the array.

* `parse_unparse`: the reference parse is the inverse of printing.
* `doSimpleCmd_eq`, `doPipeCmd_eq`, `doListCmd_eq`: the in-place code comes to the same. It cuts the
  line where the reference parse does, hands each simple command its own words and leaves the
  entries behind them alone. -/

namespace LinuxHomework.Shell.Parse

open LinuxHomework.Lib.Descriptors LinuxHomework.Lib.Outcome LinuxHomework.Lib.Split
open LinuxHomework.Shell.Commands

/-! ### The reference parse -/

/-- A pipeline: its simple commands, and whether it runs in the background. -/
structure Pipeline where
  stages : List (List Text)
  bg : Bool
deriving DecidableEq

/-- A token that ends a pipeline. -/
def isEnd (t : Text) : Bool := t = [';'] ∨ t = ['\n'] ∨ t = ['&']

/-- **The reference parse**: the line is cut behind every `;`, `&` and newline; what is not empty is
a pipeline, which is cut at every `|`. -/
def parse (line : List Text) : List Pipeline :=
  ((pieces isEnd line).filter fun q => q.1 ≠ []).map fun q => ⟨q.1.splitOn ['|'], q.2 = ['&']⟩

/-- The tokens of a pipeline, and what ends it. -/
def unparse (p : Pipeline) : List Text × Text :=
  ([['|']].intercalate p.stages, if p.bg then ['&'] else [';'])

/-- **The reference parse is the inverse of printing**, for pipelines that are not empty. -/
theorem parse_unparse {ps : List Pipeline} (h : ∀ p ∈ ps, p.stages ≠ [] ∧ p.stages ≠ [[]] ∧
    ∀ ws ∈ p.stages, ∀ t ∈ ws, t ≠ ['|'] ∧ isEnd t = false) : parse (glue (ps.map unparse)) = ps := by
  have hpieces : pieces isEnd (glue (ps.map unparse)) = ps.map unparse := by
    refine pieces_glue fun q hq => ?_
    obtain ⟨p, hp, rfl⟩ := List.mem_map.mp hq
    refine ⟨?_, fun t ht => ?_⟩
    · show isEnd (if p.bg then ['&'] else [';']) = true
      split
      · decide
      · decide
    · rcases mem_intercalate ht with rfl | ⟨l, hl, ht⟩
      · decide
      · exact ((h p hp).2.2 l hl t ht).2
  unfold parse
  rw [hpieces, List.filter_eq_self.mpr, List.map_map]
  · refine (List.map_congr_left fun p hp => ?_).trans (List.map_id ps)
    obtain ⟨hne, -, hclean⟩ := h p hp
    have hstages : ([['|']].intercalate p.stages).splitOn ['|'] = p.stages :=
      List.splitOn_intercalate _ (fun l hl hbar => (hclean l hl _ hbar).1 rfl) hne
    have hbg : decide ((if p.bg then ['&'] else [';']) = ['&']) = p.bg := by
      cases p.bg with
      | false => decide
      | true => decide
    show Pipeline.mk (([['|']].intercalate p.stages).splitOn ['|']) _ = p
    rw [hstages]
    exact congrArg _ hbg
  · intro q hq
    obtain ⟨p, hp, rfl⟩ := List.mem_map.mp hq
    obtain ⟨hne, hsome, hclean⟩ := h p hp
    refine decide_eq_true fun hnil => hsome ?_
    have hstages := List.splitOn_intercalate ['|'] (fun l hl hbar => (hclean l hl _ hbar).1 rfl) hne
    rw [← hstages, show [['|']].intercalate p.stages = [] from hnil]
    rfl

/-- The descriptor that an operator of redirection reopens, and the mode. -/
def redirection (t : Text) : Option (ℕ × Mode) :=
  if t = ['<'] then some (0, .r) else if t = ['>'] then some (1, .w) else none

/-- The descriptor that a redirection in a mode reopens. -/
def descriptor : Mode → ℕ
  | .r => 0
  | .w => 1

/-- The words of a simple command that are neither an operator of redirection nor its operand. -/
def argvOf : List Text → List Text
  | [] => []
  | t :: ts =>
    match redirection t with
    | some _ =>
      match ts with
      | [] => []
      | _ :: ts => argvOf ts
    | none => t :: argvOf ts

/-! ### Execution without the array -/

variable (now : Moment)

/-- `scan_redirect` of the words of a simple command. -/
def redirect : List Text → Table Kind → Except Stop (List Text × Table Kind)
  | [], T => .ok ([], T)
  | t :: ts, T =>
    match redirection t with
    | some (fd, mode) =>
      match ts with
      | [] => .error .crash
      | name :: ts => do redirect ts (← reopen now fd mode (some name) T)
    | none => do
      let t ← copyWord now t
      let (argv, T) ← redirect ts T
      return (t :: argv, T)

variable {now} {ts : List Text} {t name : Text} {fd : ℕ} {mode : Mode} {T : Table Kind}

theorem redirection_eq (h : redirection t = some (fd, mode)) : fd = descriptor mode := by
  unfold redirection at h
  split_ifs at h
  · obtain ⟨rfl, rfl⟩ := Prod.mk.inj (Option.some.inj h)
    rfl
  · obtain ⟨rfl, rfl⟩ := Prod.mk.inj (Option.some.inj h)
    rfl

theorem redirect_redirection (h : redirection t = some (fd, mode)) :
    redirect now (t :: name :: ts) T = reopen now fd mode (some name) T >>= redirect now ts := by
  conv_lhs => unfold redirect
  simp only [h]

theorem redirect_lone (h : redirection t = some (fd, mode)) :
    redirect now [t] T = .error .crash := by
  unfold redirect
  simp only [h]

theorem redirect_word (h : redirection t = none) : redirect now (t :: ts) T =
    copyWord now t >>= fun t => redirect now ts T >>= fun r => .ok (t :: r.1, r.2) := by
  conv_lhs => unfold redirect
  simp only [h]
  rfl

theorem argvOf_redirection (h : redirection t = some (fd, mode)) :
    argvOf (t :: name :: ts) = argvOf ts := by
  conv_lhs => unfold argvOf
  simp only [h]

theorem argvOf_word (h : redirection t = none) : argvOf (t :: ts) = t :: argvOf ts := by
  conv_lhs => unfold argvOf
  simp only [h]

variable (now)

/-- The child for a simple command. -/
def childOf (ws : List Text) (prefd postfd : Option Pipefd) (T : Table Kind) :
    Except Stop Exec := do
  let (argv, T) ← redirect now ws (joinPost postfd (closeEnd (postfd.map Prod.fst) (joinPre prefd T)))
  match argv with
  | [] => .error .crash
  | argv => return ⟨argv, T⟩

variable (env : Env)

/-- A simple command. -/
def runStage (ws : List Text) (prefd postfd : Option Pipefd) (bg : Bool) (c : Core) :
    Except Halt Core := do
  let now := env.moment (called c.log)
  let c := c.add (.call ⟨ws, prefd.isSome, postfd.isSome, bg⟩)
  match ws with
  | [] => .error ⟨.crash, c.log⟩
  | cmd :: _ =>
    match getCmdHandle cmd with
    | some hd =>
      let (argv, T) ← logged c.log (redirect now ws (joinPost postfd (joinPre prefd c.files)))
      let _ ← logged c.log (hd argv)
      return { c with files := T }
    | none =>
      if env.forks c.forked then
        let c := c.add (.fork c.forked (childOf now ws prefd postfd c.files))
        let c := c.add (.waitpid c.forked bg)
        return { c with files := closeParent prefd postfd c.files, forked := c.forked + 1 }
      else .error ⟨.failed, c.log⟩

/-- The simple commands of a pipeline, from the one with the given `prefd` on. -/
def runStages (bg : Bool) : Option Pipefd → List (List Text) → Core → Except Halt Core
  | _, [], c => .ok c
  | prefd, [ws], c => runStage env ws prefd none bg c
  | prefd, ws :: stages, c => do
    let (postfd, c) := c.pipe
    let c ← runStage env ws prefd (some postfd) bg c
    runStages bg (some postfd) stages c

/-- The pipelines of a line. -/
def runLine : List Pipeline → Core → Except Halt Core
  | [], c => .ok c
  | p :: ps, c => do runLine ps (← runStages env p.bg none p.stages c)

/-- The simple command is a built-in one. -/
def isBuildin (ws : List Text) : Bool := (ws.head?.bind getCmdHandle).isSome

variable {env} {ws : List Text} {prefd postfd : Option Pipefd} {bg : Bool} {c c' : Core}

/-- **What a simple command does** that comes back. -/
theorem runStage_cases (h : runStage env ws prefd postfd bg c = .ok c') :
    (isBuildin ws = true ∧ ∃ argv T,
      redirect (env.moment (called c.log)) ws (joinPost postfd (joinPre prefd c.files)) =
        .ok (argv, T) ∧
        c' = { c.add (.call ⟨ws, prefd.isSome, postfd.isSome, bg⟩) with files := T }) ∨
    (isBuildin ws = false ∧ c' = ⟨closeParent prefd postfd c.files, c.forked + 1,
      c.log ++ [.call ⟨ws, prefd.isSome, postfd.isSome, bg⟩,
        .fork c.forked (childOf (env.moment (called c.log)) ws prefd postfd c.files),
        .waitpid c.forked bg]⟩) := by
  unfold runStage at h
  cases ws with
  | nil => exact absurd h (by simp)
  | cons cmd ws =>
    dsimp only at h
    unfold isBuildin
    rw [List.head?_cons, Option.bind_some]
    cases hget : getCmdHandle cmd with
    | some hd =>
      rw [hget] at h
      obtain ⟨⟨argv, T⟩, hr, h⟩ := bind_eq_ok.mp h
      obtain ⟨-, -, h⟩ := bind_eq_ok.mp h
      exact Or.inl ⟨rfl, argv, T, logged_eq_ok.mp hr, (Except.ok.inj h).symm⟩
    | none =>
      rw [hget] at h
      dsimp only at h
      split_ifs at h
      obtain rfl := Except.ok.inj h
      refine Or.inr ⟨rfl, ?_⟩
      simp [Core.add]

/-- **An external command.** -/
theorem runStage_external (prefd postfd : Option Pipefd) (bg : Bool) (hne : ws ≠ [])
    (hb : isBuildin ws = false) (hfork : env.forks c.forked = true) :
    runStage env ws prefd postfd bg c =
      .ok ⟨closeParent prefd postfd c.files, c.forked + 1,
        c.log ++ [.call ⟨ws, prefd.isSome, postfd.isSome, bg⟩,
          .fork c.forked (childOf (env.moment (called c.log)) ws prefd postfd c.files),
          .waitpid c.forked bg]⟩ := by
  unfold runStage
  cases ws with
  | nil => exact absurd rfl hne
  | cons cmd ws =>
    unfold isBuildin at hb
    rw [List.head?_cons, Option.bind_some] at hb
    cases hget : getCmdHandle cmd with
    | some hd => exact absurd hb (by simp [hget])
    | none =>
      simp only [hget, Core.forked_add, hfork, if_true]
      simp [Core.add, pure, Except.pure]

variable (env)

/-! ### The array -/

/-- The array holds the words from entry `b` on, and `NULL` behind them. -/
def Holds (tokens : ℕ → Option Text) : ℕ → List Text → Prop
  | b, [] => b < TOKENSZ ∧ tokens b = none
  | b, t :: ws => tokens b = some t ∧ Holds tokens (b + 1) ws

variable {env now} {tokens tokens' : ℕ → Option Text} {b i : ℕ} {c ws : List Text} {t : Text}

theorem Holds.lt (h : Holds tokens b ws) : b + ws.length < TOKENSZ := by
  induction ws generalizing b with
  | nil => exact h.1
  | cons t ws ih =>
    have := ih h.2
    simp only [List.length_cons]
    omega

theorem Holds.congr (h : Holds tokens b ws)
    (heq : ∀ x, b ≤ x → x ≤ b + ws.length → tokens' x = tokens x) : Holds tokens' b ws := by
  induction ws generalizing b with
  | nil => exact ⟨h.1, (heq b (Nat.le_refl _) (by simp)).trans h.2⟩
  | cons t ws ih =>
    refine ⟨(heq b (Nat.le_refl _) (by omega)).trans h.1, ih h.2 fun x hx hx' => heq x (by omega) ?_⟩
    simp only [List.length_cons]
    omega

theorem Holds.drop (h : Holds tokens b (c ++ ws)) : Holds tokens (b + c.length) ws := by
  induction c generalizing b with
  | nil => exact h
  | cons t c ih =>
    have := ih h.2
    rw [show b + 1 + c.length = b + (t :: c).length by simp only [List.length_cons]; omega] at this
    exact this

theorem clear_self : clear tokens i i = none := Function.update_self ..

theorem clear_of_ne {x : ℕ} (h : x ≠ i) : clear tokens i x = tokens x := Function.update_of_ne h ..

/-- A separator that becomes `NULL` ends the words before it. -/
theorem Holds.cut (h : Holds tokens b (c ++ t :: ws)) : Holds (clear tokens (b + c.length)) b c := by
  have hlt := h.lt
  simp only [List.length_append, List.length_cons] at hlt
  induction c generalizing b with
  | nil => exact ⟨by omega, clear_self⟩
  | cons u c ih =>
    simp only [List.length_cons] at hlt
    refine ⟨?_, ?_⟩
    · rw [clear_of_ne (by simp)]
      exact h.1
    · have := ih h.2 (by omega)
      rw [show b + 1 + c.length = b + (u :: c).length by simp only [List.length_cons]; omega] at this
      exact this

theorem Holds.slice (h : Holds tokens b ws) : slice tokens (TOKENSZ - b) b = ws := by
  induction ws generalizing b with
  | nil =>
    obtain ⟨n, hn⟩ : ∃ n, TOKENSZ - b = n + 1 := ⟨TOKENSZ - b - 1, by have := h.1; omega⟩
    rw [hn, Commands.slice, h.2]
  | cons t ws ih =>
    have hlt := h.lt
    simp only [List.length_cons] at hlt
    rw [show TOKENSZ - b = TOKENSZ - (b + 1) + 1 by omega, Commands.slice, h.1]
    exact congrArg _ (ih h.2)

theorem entry_of_lt (h : i < TOKENSZ) : entry tokens i = .ok (tokens i) := if_pos h

/-- The entry that is read next. -/
theorem Holds.entry (h : Holds tokens b ws) : entry tokens b = .ok ws.head? := by
  rw [entry_of_lt (by have := h.lt; omega)]
  cases ws with
  | nil => exact congrArg _ h.2
  | cons t ws => exact congrArg _ h.1

/-! ### Redirection in place -/

variable {n j fd : ℕ} {mode : Mode} {newcmd : List Text} {T : Table Kind}

theorem scanLoop_end (ht : entry tokens i = .ok none) :
    scanLoop now (n + 1) i newcmd tokens T = .ok (newcmd, tokens, T) := by
  unfold scanLoop
  rw [ht]
  rfl

theorem scanLoop_redirection (ht : entry tokens i = .ok (some t))
    (hr : redirection t = some (fd, mode)) : scanLoop now (n + 1) i newcmd tokens T =
      (entry tokens (i + 1) >>= fun operand => reopen now fd mode operand T) >>=
        scanLoop now n (i + 2) newcmd (clear (clear tokens i) (i + 1)) := by
  unfold scanLoop
  rw [ht]
  unfold redirection at hr
  by_cases hin : t = ['<']
  · rw [if_pos hin] at hr
    obtain ⟨rfl, rfl⟩ := Prod.mk.inj (Option.some.inj hr)
    simp only [ok_bind, if_pos hin, bind_assoc]
  · rw [if_neg hin] at hr
    by_cases hout : t = ['>']
    · rw [if_pos hout] at hr
      obtain ⟨rfl, rfl⟩ := Prod.mk.inj (Option.some.inj hr)
      simp only [ok_bind, if_neg hin, if_pos hout, bind_assoc]
    · rw [if_neg hout] at hr
      exact absurd hr (by simp)

theorem scanLoop_word (ht : entry tokens i = .ok (some t)) (hr : redirection t = none) :
    scanLoop now (n + 1) i newcmd tokens T =
      copyWord now t >>= fun t => scanLoop now n (i + 1) (newcmd ++ [t]) (clear tokens i) T := by
  have hin : t ≠ ['<'] := by
    rintro rfl
    exact absurd hr (by decide)
  have hout : t ≠ ['>'] := by
    rintro rfl
    exact absurd hr (by decide)
  conv_lhs => unfold scanLoop
  rw [ht]
  simp only [ok_bind, if_neg hin, if_neg hout]

/-- **`scan_redirect` in place.** The entries behind the words stay as they are. -/
theorem scanLoop_eq (newcmd : List Text) (T : Table Kind) (h : Holds tokens i ws)
    (hn : ws.length < n) :
    ∃ τ, (∀ x, i + ws.length ≤ x → τ x = tokens x) ∧ scanLoop now n i newcmd tokens T =
      (redirect now ws T).map fun r => (newcmd ++ r.1, τ, r.2) := by
  induction n generalizing i ws newcmd tokens T with
  | zero => omega
  | succ n ih =>
    cases ws with
    | nil =>
      refine ⟨tokens, fun _ _ => rfl, ?_⟩
      have hentry := h.entry
      rw [scanLoop_end hentry]
      simp [redirect, Except.map]
    | cons t ws =>
      have hentry := h.entry
      simp only [List.length_cons] at hn
      cases hr : redirection t with
      | none =>
        rw [scanLoop_word hentry hr]
        unfold redirect
        simp only [hr, map_bind]
        have hrest : Holds (clear tokens i) (i + 1) ws :=
          h.2.congr fun x hx _ => clear_of_ne (by omega)
        obtain ⟨τ, hτ, heq⟩ := ih (newcmd ++ [t]) T hrest (by omega)
        refine ⟨τ, fun x hx => ?_, ?_⟩
        · simp only [List.length_cons] at hx
          rw [hτ x (by omega), clear_of_ne (by omega)]
        · unfold copyWord
          by_cases hfit : t.length ≤ now.ptrSize
          · rw [if_pos hfit]
            simp only [ok_bind]
            refine heq.trans ?_
            cases redirect now ws T with
            | error e => rfl
            | ok r => simp [Except.map, pure, Except.pure]
          · rw [if_neg hfit]
            rfl
      | some r =>
        obtain ⟨fd, mode⟩ := r
        rw [scanLoop_redirection hentry hr, h.2.entry]
        unfold redirect
        simp only [hr, ok_bind]
        cases ws with
        | nil => exact ⟨tokens, fun _ _ => rfl, rfl⟩
        | cons name ws =>
          simp only [List.length_cons] at hn
          simp only [List.head?_cons, map_bind]
          cases hopen : reopen now fd mode (some name) T with
          | error e => exact ⟨tokens, fun _ _ => rfl, rfl⟩
          | ok T' =>
            have hrest : Holds (clear (clear tokens i) (i + 1)) (i + 2) ws :=
              h.2.2.congr fun x hx _ => by rw [clear_of_ne (by omega), clear_of_ne (by omega)]
            obtain ⟨τ, hτ, heq⟩ := ih newcmd T' hrest (by omega)
            refine ⟨τ, fun x hx => ?_, heq⟩
            simp only [List.length_cons] at hx
            rw [hτ x (by omega), clear_of_ne (by omega), clear_of_ne (by omega)]

theorem scanRedirect_eq (now : Moment) (T : Table Kind) (h : Holds tokens b ws) :
    ∃ τ, (∀ x, b + ws.length ≤ x → τ x = tokens x) ∧
      scanRedirect now b tokens T = (redirect now ws T).map fun r => (r.1, τ, r.2) := by
  have := h.lt
  exact scanLoop_eq [] T h (by omega)

/-! ### Simple commands in place -/

variable {s : Mysh} {prefd postfd : Option Pipefd} {bg : Bool}

theorem child_eq (h : Holds tokens b ws) :
    child now b prefd postfd tokens T = childOf now ws prefd postfd T := by
  unfold child childOf
  obtain ⟨τ, -, heq⟩ :=
    scanRedirect_eq now (joinPost postfd (closeEnd (postfd.map Prod.fst) (joinPre prefd T))) h
  dsimp only
  rw [heq]
  cases redirect now ws (joinPost postfd (closeEnd (postfd.map Prod.fst) (joinPre prefd T))) with
  | error e => rfl
  | ok r => rfl

/-- **A simple command in place** is one told without the array. -/
theorem doSimpleCmd_eq (env : Env) (prefd postfd : Option Pipefd) (bg : Bool)
    (h : Holds s.tokens b ws) :
    ∃ τ, (∀ x, b + ws.length ≤ x → τ x = s.tokens x) ∧ doSimpleCmd env b prefd postfd bg s =
      (runStage env ws prefd postfd bg s.core).map fun c => { s with tokens := τ, core := c } := by
  unfold doSimpleCmd runStage
  dsimp only
  rw [h.entry, h.slice]
  cases ws with
  | nil => exact ⟨s.tokens, fun _ _ => rfl, rfl⟩
  | cons cmd ws =>
    simp only [List.head?_cons, logged_ok, ok_bind]
    cases getCmdHandle cmd with
    | some hd =>
      obtain ⟨τ, hτ, heq⟩ :=
        scanRedirect_eq (env.moment (called s.core.log))
          (joinPost postfd (joinPre prefd s.core.files)) h
      refine ⟨τ, hτ, ?_⟩
      simp only [Core.files_add, Core.forked_add, heq, map_bind]
      cases redirect (env.moment (called s.core.log)) (cmd :: ws) _ with
      | error e => rfl
      | ok r =>
        simp only [Except.map, logged_ok, ok_bind]
        cases hd r.1 with
        | error e => rfl
        | ok _ => rfl
    | none =>
      refine ⟨s.tokens, fun _ _ => rfl, ?_⟩
      rw [child_eq h]
      dsimp only
      split_ifs
      · rfl
      · rfl

/-! ### Pipelines in place -/

theorem runStages_cons {stages : List (List Text)} (hne : stages ≠ []) (C : Core) :
    runStages env bg prefd (ws :: stages) C =
      runStage env ws prefd (some C.pipe.1) bg C.pipe.2 >>=
        runStages env bg (some C.pipe.1) stages := by
  cases stages with
  | nil => exact absurd rfl hne
  | cons st stages => rfl

theorem pipeLoop_end (ht : entry s.tokens (b + i) = .ok none) :
    pipeLoop env b bg (n + 1) i j prefd s = doSimpleCmd env (b + j) prefd none bg s := by
  unfold pipeLoop
  rw [ht]
  rfl

theorem pipeLoop_bar (ht : entry s.tokens (b + i) = .ok (some ['|'])) :
    pipeLoop env b bg (n + 1) i j prefd s =
      doSimpleCmd env (b + j) prefd (some s.core.pipe.1) bg
        { s with tokens := clear s.tokens (b + i), core := s.core.pipe.2 } >>=
          pipeLoop env b bg n (i + 1) (i + 1) (some s.core.pipe.1) := by
  conv_lhs => unfold pipeLoop
  rw [ht]
  rfl

theorem pipeLoop_word (ht : entry s.tokens (b + i) = .ok (some t)) (hbar : t ≠ ['|']) :
    pipeLoop env b bg (n + 1) i j prefd s = pipeLoop env b bg n (i + 1) j prefd s := by
  conv_lhs => unfold pipeLoop
  rw [ht]
  simp only [logged_ok, ok_bind, if_neg hbar]

/-- **`do_pipe_cmd` in place**, when the words `c` of the present command are read. -/
theorem pipeLoop_eq (prefd : Option Pipefd) (h : Holds s.tokens (b + j) (c ++ ws))
    (hc : ['|'] ∉ c) (hn : ws.length < n) :
    ∃ τ, (∀ x, b + j + (c ++ ws).length ≤ x → τ x = s.tokens x) ∧
      pipeLoop env b bg n (j + c.length) j prefd s =
        (runStages env bg prefd ((c ++ ws).splitOn ['|']) s.core).map fun C =>
          { s with tokens := τ, core := C } := by
  induction ws generalizing c n j prefd s with
  | nil =>
    obtain ⟨n, rfl⟩ : ∃ m, n = m + 1 := ⟨n - 1, by omega⟩
    have hentry := h.drop.entry
    rw [Nat.add_assoc] at hentry
    rw [List.append_nil] at h ⊢
    rw [pipeLoop_end hentry, List.splitOn_eq_singleton hc]
    exact doSimpleCmd_eq env prefd none bg h
  | cons t ws ih =>
    obtain ⟨n, rfl⟩ : ∃ m, n = m + 1 := ⟨n - 1, by omega⟩
    simp only [List.length_cons] at hn
    have hentry := h.drop.entry
    rw [Nat.add_assoc] at hentry
    by_cases hbar : t = ['|']
    · subst hbar
      have hne : ws.splitOn ['|'] ≠ [] := List.splitOn_ne_nil _ _
      rw [pipeLoop_bar hentry, List.splitOn_append_cons_self_of_not_mem hc, runStages_cons hne]
      have hcut := h.cut
      rw [Nat.add_assoc] at hcut
      obtain ⟨τ, hτ, heq⟩ := doSimpleCmd_eq env prefd (some s.core.pipe.1) bg
        (s := { s with tokens := clear s.tokens (b + (j + c.length)), core := s.core.pipe.2 }) hcut
      simp only [heq, map_bind]
      cases runStage env c prefd (some s.core.pipe.1) bg s.core.pipe.2 with
      | error e => exact ⟨s.tokens, fun _ _ => rfl, rfl⟩
      | ok C =>
        -- the entries behind the separator are the ones of `s`
        have hsame : ∀ x, b + (j + c.length) < x → τ x = s.tokens x := fun x hx => by
          rw [hτ x (by omega)]
          exact clear_of_ne (by omega)
        have hrest : Holds τ (b + (j + c.length + 1)) ([] ++ ws) := by
          have hnext : Holds s.tokens (b + j + c.length + 1) ws := h.drop.2
          rw [show b + j + c.length + 1 = b + (j + c.length + 1) by omega] at hnext
          exact hnext.congr fun x hx _ => hsame x (by omega)
        obtain ⟨τ', hτ', heq'⟩ := ih (s := { s with tokens := τ, core := C }) (n := n)
          (some s.core.pipe.1) hrest (by simp) (by omega)
        refine ⟨τ', fun x hx => ?_, heq'⟩
        simp only [List.length_append, List.length_cons] at hx
        rw [hτ' x (by simp only [List.nil_append]; omega)]
        exact hsame x (by omega)
    · have hc' : ['|'] ∉ c ++ [t] := by
        simp only [List.mem_append, List.mem_singleton, not_or]
        exact ⟨hc, fun h => hbar h.symm⟩
      have := ih (c := c ++ [t]) (n := n) prefd (by simpa using h) hc' (by omega)
      rw [pipeLoop_word hentry hbar]
      simpa [Nat.add_assoc] using this

theorem doPipeCmd_eq (env : Env) (bg : Bool) (h : Holds s.tokens b ws) :
    ∃ τ, (∀ x, b + ws.length ≤ x → τ x = s.tokens x) ∧ doPipeCmd env b bg s =
      (runStages env bg none (ws.splitOn ['|']) s.core).map fun C =>
        { s with tokens := τ, core := C } := by
  have := h.lt
  exact pipeLoop_eq (j := 0) (c := []) none h (by simp) (by omega)

/-! ### Lists in place -/

theorem parse_unended (hc : ∀ t ∈ c, isEnd t = false) : parse c = [] := by
  unfold parse
  rw [pieces_none hc]
  rfl

theorem parse_piece (hc : ∀ t ∈ c, isEnd t = false) (ht : isEnd t = true) : parse (c ++ t :: ws) =
    if c ≠ [] then ⟨c.splitOn ['|'], t = ['&']⟩ :: parse ws else parse ws := by
  unfold parse
  rw [pieces_append hc ht, List.filter_cons]
  by_cases hne : c = []
  · simp [hne]
  · simp [hne]

theorem listLoop_end (ht : entry s.tokens i = .ok none) :
    listLoop env (n + 1) i j s = .ok { s with tokCnt := 0 } := by
  unfold listLoop
  rw [ht]
  rfl

theorem listLoop_piece (ht : entry s.tokens i = .ok (some t)) (hend : isEnd t = true) :
    listLoop env (n + 1) i j s =
      (if j ≠ i then doPipeCmd env j (t = ['&']) { s with tokens := clear s.tokens i }
        else .ok { s with tokens := clear s.tokens i }) >>= listLoop env n (i + 1) (i + 1) := by
  conv_lhs => unfold listLoop
  rw [ht]
  simp only [logged_ok, ok_bind]
  by_cases hseq : t = [';'] ∨ t = ['\n']
  · have hamp : t ≠ ['&'] := by
      rintro rfl
      exact absurd hseq (by decide)
    rw [if_pos hseq, decide_eq_false hamp]
    split_ifs
    · rfl
    · rfl
  · have hamp : t = ['&'] := by
      unfold isEnd at hend
      simpa [← or_assoc, hseq] using hend
    rw [if_neg hseq, if_pos hamp, decide_eq_true hamp]
    split_ifs
    · rfl
    · rfl

theorem listLoop_word (ht : entry s.tokens i = .ok (some t)) (hend : isEnd t = false) :
    listLoop env (n + 1) i j s = listLoop env n (i + 1) j s := by
  conv_lhs => unfold listLoop
  rw [ht]
  unfold isEnd at hend
  have hno := of_decide_eq_false hend
  rw [← or_assoc, not_or] at hno
  simp only [logged_ok, ok_bind, if_neg hno.1, if_neg hno.2]

/-- **`do_list_cmd` in place**, when the words `c` of the present pipeline are read. -/
theorem listLoop_eq (h : Holds s.tokens j (c ++ ws)) (hc : ∀ t ∈ c, isEnd t = false)
    (hn : ws.length < n) : ∃ τ, listLoop env n (j + c.length) j s =
      (runLine env (parse (c ++ ws)) s.core).map fun C =>
        { s with tokens := τ, tokCnt := 0, core := C } := by
  induction ws generalizing c n j s with
  | nil =>
    obtain ⟨n, rfl⟩ : ∃ m, n = m + 1 := ⟨n - 1, by omega⟩
    rw [listLoop_end h.drop.entry, List.append_nil, parse_unended hc]
    exact ⟨s.tokens, rfl⟩
  | cons t ws ih =>
    obtain ⟨n, rfl⟩ : ∃ m, n = m + 1 := ⟨n - 1, by omega⟩
    simp only [List.length_cons] at hn
    have hentry := h.drop.entry
    by_cases hend : isEnd t = true
    · rw [listLoop_piece hentry hend, parse_piece hc hend]
      -- the entries behind the separator
      have hnext : ∀ τ : ℕ → Option Text, (∀ x, j + c.length < x → τ x = s.tokens x) →
          Holds τ (j + c.length + 1) ([] ++ ws) := by
        intro τ hτ
        have hrest : Holds s.tokens (j + c.length + 1) ws := h.drop.2
        exact hrest.congr fun x hx _ => hτ x (by omega)
      by_cases hne : c = []
      · subst hne
        rw [if_neg (by simp), if_neg (by simp)]
        exact ih (c := []) (s := { s with tokens := clear s.tokens (j + 0) })
          (hnext _ fun x hx => clear_of_ne (by simp at hx; omega)) (by simp) (by omega)
      · have hlen : 0 < c.length := List.length_pos_iff.mpr hne
        rw [if_pos (show j ≠ j + c.length by omega), if_pos hne]
        obtain ⟨τ, hτ, heq⟩ := doPipeCmd_eq env (t = ['&'])
          (s := { s with tokens := clear s.tokens (j + c.length) }) h.cut
        simp only [heq, runLine, map_bind]
        cases runStages env (t = ['&']) none (c.splitOn ['|']) s.core with
        | error e => exact ⟨s.tokens, rfl⟩
        | ok C =>
          refine ih (c := []) (n := n) (s := { s with tokens := τ, core := C })
            (hnext τ fun x hx => ?_) (by simp) (by omega)
          rw [hτ x (by omega)]
          exact clear_of_ne (by omega)
    · have hend : isEnd t = false := by simpa using hend
      have hc' : ∀ u ∈ c ++ [t], isEnd u = false := by
        intro u hu
        rcases List.mem_append.mp hu with hu | hu
        · exact hc u hu
        · rw [List.mem_singleton.mp hu]
          exact hend
      have := ih (c := c ++ [t]) (n := n) (by simpa using h) hc' (by omega)
      rw [listLoop_word hentry hend]
      simpa [Nat.add_assoc] using this

/-- **The in-place code runs the reference parse.** -/
theorem doListCmd_eq (env : Env) (h : Holds s.tokens 0 ws) : ∃ τ, doListCmd env s =
    (runLine env (parse ws) s.core).map fun C => { s with tokens := τ, tokCnt := 0, core := C } := by
  have := h.lt
  exact listLoop_eq (j := 0) (c := []) h (by simp) (by omega)

/-! ### A shell at a terminal -/

theorem holds_getElem (h : i + ws.length < TOKENSZ) (heq : ∀ x, tokens (i + x) = ws[x]?) :
    Holds tokens i ws := by
  induction ws generalizing i with
  | nil => exact ⟨by simpa using h, by simpa using heq 0⟩
  | cons t ws ih =>
    simp only [List.length_cons] at h
    refine ⟨by simpa using heq 0, ih (by omega) fun x => ?_⟩
    rw [show i + 1 + x = i + (x + 1) by omega, heq (x + 1)]
    rfl

/-- The descriptors 0, 1 and 2 of a shell at its start. -/
def terminal : Table Kind where
  file fd := if fd < 3 then some ⟨fd, .given⟩ else none
  top := 3
  made := 3
  closed fd h := if_neg (by omega)
  old fd f h := by
    split_ifs at h with hfd
    obtain rfl := Option.some.inj h
    exact hfd

/-- A shell with a line in its array. -/
def holding (ws : List Text) : Mysh :=
  ⟨fun i => ws[i]?, ws.length, fun _ => none, ⟨terminal, 0, []⟩⟩

theorem holds_holding (h : ws.length < TOKENSZ) : Holds (holding ws).tokens 0 ws :=
  holds_getElem (by omega) fun x => congrArg (fun i => ws[i]?) (Nat.zero_add x)

/-- Pointers of four bytes; every file can be opened, and every `fork` succeeds. -/
def i686 : Env := ⟨4, fun _ _ _ => true, fun _ => true⟩

end LinuxHomework.Shell.Parse
