import LinuxHomework.Shell.Descriptors
import LinuxHomework.Shell.Malformed
import Mathlib.Data.List.Forall2

/-! # How the children of a pipeline are wired

A pipeline of external commands makes a pipe between each command and the next one. Each child takes
the ends that it needs for its standard input and output and closes what else it has of the pipes;
the shell closes its own ends as it goes on.

* `joined`: what a child has open when it executes its program.
* `runStages_wired`: the induction along the pipeline.
* `wired_iff`: the children are wired as they should be if and only if no word is too long for the
  block that `scan_redirect` copies it to.
* `stageFiles_pipe`: no child has any other end of a pipe.
* `waits_open`: behind a built-in command the shell itself keeps the write end. -/

namespace LinuxHomework.Shell.Wiring

open LinuxHomework.Lib.Descriptors LinuxHomework.Lib.Outcome LinuxHomework.Shell.Commands
open LinuxHomework.Shell.Parse LinuxHomework.Shell.Descriptors LinuxHomework.Shell.Malformed

/-- What is open in a process. -/
abbrev Files := ℕ → Option (OpenFile Kind)

/-! ### The wiring -/

/-- The files `B`, with others in the place of standard input and output. -/
def wire (B : Files) (inp out : Option (OpenFile Kind)) : Files := fun fd =>
  if fd = 0 ∧ inp.isSome then inp else if fd = 1 ∧ out.isSome then out else B fd

/-- The ends of the pipe with the number `p`. -/
def readFile (p : ℕ) : OpenFile Kind := ⟨p, .readEnd p⟩

@[inherit_doc readFile]
def writeFile (p : ℕ) : OpenFile Kind := ⟨p + 1, .writeEnd p⟩

/-- What command `k` of `n` reads from, unless it is the first one, if the first pipe has the number
`m`. -/
def inputOf (m k : ℕ) : Option (OpenFile Kind) :=
  if k = 0 then none else some (readFile (m + 2 * (k - 1)))

/-- What command `k` of `n` writes to, unless it is the last one. -/
def outputOf (m n k : ℕ) : Option (OpenFile Kind) :=
  if k + 1 = n then none else some (writeFile (m + 2 * k))

/-- **What command `k` of `n` has open**: it reads from the pipe before it and writes to the one
behind it, and the other files are those of the shell. -/
def stageFiles (B : Files) (m n k : ℕ) : Files := wire B (inputOf m k) (outputOf m n k)

/-- The child executes the command with the given files. -/
def Execs (child : Except Stop Exec) (w : List Text × Files) : Prop :=
  ∃ e, child = .ok e ∧ e.argv = w.1 ∧ e.files.file = w.2

/-- The children that are forked. -/
def forksOf (log : List Event) : List (Except Stop Exec) :=
  log.filterMap fun e =>
    match e with
    | .fork _ child => some child
    | _ => none

/-- The pipes that are made. -/
def pipesOf (log : List Event) : List ℕ :=
  log.filterMap fun e =>
    match e with
    | .pipe num => some num
    | _ => none

/-- An external command without redirections. -/
structure Plain (ws : List Text) : Prop where
  nonempty : ws ≠ []
  external : isBuildin ws = false
  plain : ∀ t ∈ ws, redirection t = none

instance (ws : List Text) : Decidable (Plain ws) :=
  decidable_of_iff (ws ≠ [] ∧ isBuildin ws = false ∧ ∀ t ∈ ws, redirection t = none)
    ⟨fun ⟨h₁, h₂, h₃⟩ => ⟨h₁, h₂, h₃⟩, fun ⟨h₁, h₂, h₃⟩ => ⟨h₁, h₂, h₃⟩⟩

/-- **A pipeline is wired**: there is a pipe between each command and the next one, each child
executes its command with the ends that belong to it, and the shell has no end left. -/
structure Wired (stages : List (List Text)) (c c' : Core) : Prop where
  kept : c'.files.file = c.files.file
  run : ∃ new, c'.log = c.log ++ new ∧
    pipesOf new = (List.range (stages.length - 1)).map (fun j => c.files.made + 2 * j) ∧
    List.Forall₂ Execs (forksOf new)
      (stages.mapIdx fun k ws => (ws, stageFiles c.files.file c.files.made stages.length k))

variable {env : Env} {B : Files} {T : Table Kind} {ws : List Text} {prefd postfd : Option Pipefd}
  {bg : Bool} {c c' : Core} {stages : List (List Text)} {m n k fd : ℕ} {f : OpenFile Kind}

theorem wire_eq_some {inp out : Option (OpenFile Kind)} (h : wire B inp out fd = some f) :
    (fd = 0 ∧ inp = some f) ∨ (fd = 1 ∧ out = some f) ∨ B fd = some f := by
  unfold wire at h
  split_ifs at h with h0 h1
  · exact Or.inl ⟨h0.1, h⟩
  · exact Or.inr (Or.inl ⟨h1.1, h⟩)
  · exact Or.inr (Or.inr h)

/-- **No other end of a pipe** is open in a child: what it has open beyond the files of the shell is
its standard input, the read end before it, or its standard output, the write end behind it. -/
theorem stageFiles_pipe (hB : ∀ fd f, B fd = some f → f.num < m)
    (h : stageFiles B m n k fd = some f) (hm : m ≤ f.num) :
    (fd = 0 ∧ k ≠ 0 ∧ f = readFile (m + 2 * (k - 1))) ∨
      (fd = 1 ∧ k + 1 ≠ n ∧ f = writeFile (m + 2 * k)) := by
  rcases wire_eq_some h with ⟨h0, hin⟩ | ⟨h1, hout⟩ | hbase
  · unfold inputOf at hin
    split_ifs at hin with hk
    exact Or.inl ⟨h0, hk, (Option.some.inj hin).symm⟩
  · unfold outputOf at hout
    split_ifs at hout with hk
    exact Or.inr ⟨h1, hk, (Option.some.inj hout).symm⟩
  · have := hB fd f hbase
    omega

/-! ### A child -/

/-- A descriptor is put in the place of another one. -/
theorem file_join {a b : ℕ} (hopen : (T.file a).isSome) (fd : ℕ) :
    ((T.dup2 a b).close a).file fd =
      if fd = a then none else if fd = b then T.file a else T.file fd := by
  by_cases ha : fd = a
  · rw [if_pos ha, ha, Table.file_close_self]
  · rw [if_neg ha, Table.file_close ha]
    by_cases hb : fd = b
    · rw [if_pos hb, hb, Table.file_dup2_self hopen]
    · rw [if_neg hb, Table.file_dup2 hb]

/-- The shell has the files `B` and, besides them, ends of pipes on other descriptors. -/
structure Ends (B : Files) (prefd postfd : Option Pipefd) (T : Table Kind) : Prop where
  std : ∀ fd < 3, (B fd).isSome
  base : ∀ fd, (∀ p ∈ prefd, fd ≠ p.1) → (∀ q ∈ postfd, fd ≠ q.1 ∧ fd ≠ q.2) → T.file fd = B fd
  pre : ∀ p ∈ prefd, B p.1 = none ∧ (T.file p.1).isSome
  post : ∀ q ∈ postfd, B q.1 = none ∧ B q.2 = none ∧ (T.file q.2).isSome
  apart : ∀ p ∈ prefd, ∀ q ∈ postfd, p.1 ≠ q.1 ∧ p.1 ≠ q.2
  ends : ∀ q ∈ postfd, q.1 ≠ q.2

/-- A descriptor on which `B` has no file is no standard descriptor. -/
theorem Ends.le (h : Ends B prefd postfd T) (hfd : B fd = none) : 3 ≤ fd := by
  by_contra hlt
  have := h.std fd (by omega)
  rw [hfd] at this
  exact absurd this (by simp)

theorem file_joinPre (h : Ends B prefd postfd T) :
    (∀ fd, (∀ q ∈ postfd, fd ≠ q.1 ∧ fd ≠ q.2) →
      (joinPre prefd T).file fd = wire B (prefd.bind fun p => T.file p.1) none fd) ∧
    ∀ q ∈ postfd, (joinPre prefd T).file q.2 = T.file q.2 := by
  cases prefd with
  | none =>
    refine ⟨fun fd hfd => ?_, fun q hq => rfl⟩
    show T.file fd = _
    rw [h.base fd (by simp) hfd]
    simp [wire]
  | some p =>
    obtain ⟨hB, hopen⟩ := h.pre p rfl
    have hp := h.le hB
    have hjoin := file_join (b := 0) hopen
    refine ⟨fun fd hfd => (hjoin fd).trans ?_, fun q hq => (hjoin q.2).trans ?_⟩
    · unfold wire
      simp only [Option.bind_some, hopen, and_true]
      by_cases h0 : fd = 0
      · rw [if_neg (by omega), if_pos h0, if_pos h0]
      · by_cases hfp : fd = p.1
        · rw [if_pos hfp, if_neg h0, hfp, hB]
          simp
        · rw [if_neg hfp, if_neg h0, if_neg h0, h.base fd (by simpa using hfp) hfd]
          simp
    · have hq2 := h.le (h.post q hq).2.1
      have hne := (h.apart p rfl q hq).2
      rw [if_neg (Ne.symm hne), if_neg (by omega)]

/-- The descriptors of a child when its pipes are in place. -/
abbrev childTable (prefd postfd : Option Pipefd) (T : Table Kind) : Table Kind :=
  joinPost postfd (closeEnd (postfd.map Prod.fst) (joinPre prefd T))

/-- **What a child has open** when its pipes are in place. -/
theorem joined (h : Ends B prefd postfd T) : (childTable prefd postfd T).file =
      wire B (prefd.bind fun p => T.file p.1) (postfd.bind fun q => T.file q.2) := by
  obtain ⟨hbase, hwrite⟩ := file_joinPre h
  funext fd
  cases postfd with
  | none => exact hbase fd (by simp)
  | some q =>
    obtain ⟨hB₁, hB₂, hopen⟩ := h.post q rfl
    have hq₁ := h.le hB₁
    have hq₂ := h.le hB₂
    have hne := h.ends q rfl
    have hclosed : ((joinPre prefd T).close q.1).file q.2 = T.file q.2 := by
      rw [Table.file_close (Ne.symm hne), hwrite q rfl]
    have hjoin := file_join (T := (joinPre prefd T).close q.1) (a := q.2) (b := 1)
      (by rw [hclosed]; exact hopen) fd
    refine hjoin.trans ?_
    rw [hclosed]
    have hlow : ∀ out, 3 ≤ fd → wire B (prefd.bind fun p => T.file p.1) out fd = B fd := by
      intro out hfd
      unfold wire
      rw [if_neg (by omega), if_neg (by omega)]
    by_cases h2 : fd = q.2
    · rw [if_pos h2, hlow _ (by omega), h2, hB₂]
    · rw [if_neg h2]
      by_cases h1 : fd = 1
      · rw [if_pos h1]
        unfold wire
        rw [if_neg (by omega), if_pos ⟨h1, hopen⟩]
        rfl
      · rw [if_neg h1]
        by_cases hq : fd = q.1
        · rw [hlow _ (by omega), hq, Table.file_close_self, hB₁]
        · rw [Table.file_close hq, hbase fd fun q' hq' => by
            obtain rfl := Option.some.inj hq'; exact ⟨hq, h2⟩]
          unfold wire
          simp [h1]

theorem plain_words (h : ∀ t ∈ ws, redirection t = none) :
    argvOf ws = ws ∧ operandsOf ws = [] ∧ dangling ws = false := by
  induction ws with
  | nil => exact ⟨rfl, rfl, rfl⟩
  | cons t ws ih =>
    have ht := h t (by simp)
    obtain ⟨hargv, hops, hdang⟩ := ih fun u hu => h u (by simp [hu])
    rw [argvOf_word ht, operandsOf_word ht, dangling_word ht, hargv]
    exact ⟨rfl, hops, hdang⟩

/-- **A child executes its command** if and only if the words fit into their blocks. -/
theorem childOf_execs (now : Moment) (hws : Plain ws) {F : Files}
    (hF : (childTable prefd postfd T).file = F) :
    Execs (childOf now ws prefd postfd T) (ws, F) ↔ ∀ t ∈ ws, t.length ≤ now.ptrSize := by
  obtain ⟨hargv, hops, hdang⟩ := plain_words hws.plain
  have hfits : Fine now ws ↔ ∀ t ∈ ws, t.length ≤ now.ptrSize := by
    constructor
    · intro h t ht
      exact h.fit t (by rw [hargv]; exact ht)
    · intro h
      refine ⟨fun o ho => ?_, fun t ht => ?_⟩
      · rw [hops] at ho
        exact absurd ho (by simp)
      · rw [hargv] at ht
        exact h t ht
  rw [← hfits]
  unfold childOf Execs
  by_cases hfine : Fine now ws
  · obtain ⟨T', hT'⟩ := redirect_fine (T := childTable prefd postfd T) hfine hdang
    obtain rfl := redirect_plain hws.plain hT'
    rw [hT', hargv]
    cases ws with
    | nil => exact absurd rfl hws.nonempty
    | cons t ws => exact iff_of_true ⟨_, rfl, rfl, hF⟩ hfine
  · rcases redirect_unfit (T := childTable prefd postfd T) hfine with hr | hr
    · rw [hr]
      simp [hfine]
    · rw [hr]
      simp [hfine]

/-! ### Along the pipeline -/

theorem ends_none (hstd : ∀ fd < 3, (B fd).isSome) (h : Between B prefd c.files) :
    Ends B prefd none c.files where
  std := hstd
  base fd hpre _ := h.base fd hpre
  pre := h.free
  post q hq := absurd hq (by simp)
  apart p _ q hq := absurd hq (by simp)
  ends q hq := absurd hq (by simp)

theorem ends_pipe (hstd : ∀ fd < 3, (B fd).isSome) (h : Between B prefd c.files) :
    Ends B prefd (some c.pipe.1) c.pipe.2.files := by
  obtain ⟨hrw, hr, hw, hsome, hkeep⟩ := file_pipe c
  have hold := h.apart
  have hB : ∀ fd, c.files.file fd = none → (∀ p ∈ prefd, p.1 ≠ fd) → B fd = none := by
    intro fd hfd hne
    rw [← h.base fd fun p hp => (hne p hp).symm, hfd]
  refine ⟨hstd, fun fd hpre hpost => ?_, fun p hp => ?_, fun q hq => ?_, fun p hp q hq => ?_,
    fun q hq => ?_⟩
  · obtain ⟨h₁, h₂⟩ := hpost _ rfl
    rw [hkeep fd h₁ h₂, h.base fd hpre]
  · obtain ⟨h₁, h₂⟩ := hold p hp
    rw [hkeep p.1 h₁ h₂]
    exact h.free p hp
  · obtain rfl := Option.some.inj hq
    refine ⟨hB _ hr fun p hp => (hold p hp).1, hB _ hw fun p hp => (hold p hp).2, ?_⟩
    rw [file_pipe_write]
    rfl
  · obtain rfl := Option.some.inj hq
    exact hold p hp
  · obtain rfl := Option.some.inj hq
    exact hrw

@[simp] theorem made_closeParent : (closeParent prefd postfd T).made = T.made := by
  cases prefd with
  | none => cases postfd <;> rfl
  | some p => cases postfd <;> rfl

theorem forksOf_append (l l' : List Event) : forksOf (l ++ l') = forksOf l ++ forksOf l' :=
  List.filterMap_append ..

theorem pipesOf_append (l l' : List Event) : pipesOf (l ++ l') = pipesOf l ++ pipesOf l' :=
  List.filterMap_append ..

/-- **Along the pipeline**, from command `k` of `n` on. -/
theorem runStages_wired (bg : Bool) (hstd : ∀ fd < 3, (B fd).isSome) (hforks : ∀ i, env.forks i = true)
    (hplain : ∀ ws ∈ stages, Plain ws) (hne : stages ≠ []) (hn : k + stages.length = n)
    (h : Between B prefd c.files) (hmade : c.files.made = m + 2 * k)
    (hin : (prefd.bind fun p => c.files.file p.1) = inputOf m k) :
    ∃ c' new, runStages env bg prefd stages c = .ok c' ∧ c'.log = c.log ++ new ∧
      pipesOf new = (List.range' k (stages.length - 1)).map (fun j => m + 2 * j) ∧
      (List.Forall₂ Execs (forksOf new)
          (stages.mapIdx fun i ws => (ws, stageFiles B m n (k + i))) ↔
        ∀ ws ∈ stages, ∀ t ∈ ws, t.length ≤ env.ptrSize) := by
  induction stages generalizing prefd c k with
  | nil => exact absurd rfl hne
  | cons ws stages ih =>
    obtain ⟨hnil, hext, hws⟩ := hplain ws (by simp)
    by_cases hlast : stages = []
    · subst hlast
      refine ⟨_, _, runStage_external _ _ _ hnil hext (hforks _), rfl, rfl, ?_⟩
      have hF : (childTable prefd none c.files).file = stageFiles B m n k := by
        rw [joined (ends_none hstd h), hin]
        unfold stageFiles outputOf
        rw [if_pos (show k + 1 = n from hn)]
        rfl
      have hchild := childOf_execs (env.moment (called c.log)) ⟨hnil, hext, hws⟩ hF
      show List.Forall₂ Execs [childOf (env.moment (called c.log)) ws prefd none c.files]
        [(ws, stageFiles B m n (k + 0))] ↔ _
      rw [Nat.add_zero, List.forall₂_cons, hchild]
      simp
    · have hlen : 0 < stages.length := List.length_pos_iff.mpr hlast
      simp only [List.length_cons] at hn
      have hstage := runStage_external prefd (some c.pipe.1) bg (c := c.pipe.2) hnil hext
        (hforks _)
      obtain ⟨hbetween, hread⟩ := h.next
      have hpipe : c.pipe.2.files.made = c.files.made + 2 := rfl
      -- the shell with the read end of the new pipe, at the next command
      obtain ⟨c', new, hrun, hlog, hpipes, hexecs⟩ := ih (k := k + 1)
        (c := ⟨closeParent prefd (some c.pipe.1) c.pipe.2.files, _, _⟩)
        (fun st hst => hplain st (by simp [hst])) hlast (by omega) hbetween
        (by rw [made_closeParent, hpipe, hmade]; omega)
        (by
          rw [Option.bind_some, hread, file_pipe_read c (file_pipe c).1, hmade]
          unfold inputOf
          rw [if_neg (by omega), Nat.add_sub_cancel]
          rfl)
      refine ⟨c', [.pipe c.files.made, .call ⟨ws, prefd.isSome, true, bg⟩,
        .fork c.pipe.2.forked (childOf (env.moment (called c.pipe.2.log)) ws prefd (some c.pipe.1)
          c.pipe.2.files),
        .waitpid c.pipe.2.forked bg] ++ new, ?_, ?_, ?_, ?_⟩
      · rw [runStages_cons hlast, hstage]
        exact hrun
      · rw [hlog]
        show c.log ++ [_] ++ _ ++ new = _
        simp
      · rw [pipesOf_append, hpipes, show (ws :: stages).length - 1 = stages.length - 1 + 1 by
          rw [List.length_cons]; omega, List.range'_succ, List.map_cons, ← hmade]
        rfl
      · have hF : (childTable prefd (some c.pipe.1) c.pipe.2.files).file = stageFiles B m n k := by
          have hold : (prefd.bind fun p => c.pipe.2.files.file p.1) = inputOf m k := by
            rw [← hin]
            refine Option.bind_congr fun p hp => ?_
            obtain ⟨h₁, h₂⟩ := h.apart p hp
            exact (file_pipe c).2.2.2.2 p.1 h₁ h₂
          rw [joined (ends_pipe hstd h), hold, Option.bind_some, file_pipe_write, hmade]
          unfold stageFiles outputOf
          rw [if_neg (by omega)]
          rfl
        have hchild := childOf_execs (env.moment (called c.pipe.2.log)) ⟨hnil, hext, hws⟩ hF
        rw [Env.ptrSize_moment] at hchild
        rw [forksOf_append, List.mapIdx_cons, List.forall_mem_cons, ← hexecs, ← hchild]
        show List.Forall₂ Execs (_ :: forksOf new) _ ↔ _
        rw [List.forall₂_cons]
        simp only [Nat.add_zero, Nat.add_assoc, Nat.add_comm 1]

/-- **The children of a pipeline of external commands are wired** as they should be if and only if
no word is too long for the block of `sizeof(char *) + 1` bytes that `scan_redirect` copies it
to. -/
theorem wired_iff {s : Mysh} {b : ℕ} (h : Holds s.tokens b ws)
    (hplain : ∀ st ∈ ws.splitOn ['|'], Plain st)
    (hstd : ∀ fd < 3, (s.core.files.file fd).isSome) (hforks : ∀ i, env.forks i = true) :
    (∃ s', doPipeCmd env b bg s = .ok s' ∧ Wired (ws.splitOn ['|']) s.core s'.core) ↔
      ∀ st ∈ ws.splitOn ['|'], ∀ t ∈ st, t.length ≤ env.ptrSize := by
  obtain ⟨τ, -, heq⟩ := doPipeCmd_eq env bg h
  have hne : ws.splitOn ['|'] ≠ [] := List.splitOn_ne_nil _ _
  have hbetween : Between s.core.files.file none s.core.files := ⟨fun _ _ => rfl, by simp⟩
  obtain ⟨c', new, hrun, hlog, hpipes, hexecs⟩ := runStages_wired (k := 0) bg hstd hforks
    hplain hne (Nat.zero_add _) hbetween rfl rfl
  have hkept := files_external hbetween hne (fun st hst => (hplain st hst).external) hrun
  simp only [Nat.zero_add] at hexecs
  rw [heq, hrun, ← hexecs]
  rw [← List.range_eq_range'] at hpipes
  constructor
  · rintro ⟨s', hs', -, new', hlog', -, hexecs'⟩
    obtain rfl := Except.ok.inj hs'
    obtain rfl := List.append_cancel_left (hlog.symm.trans hlog')
    exact hexecs'
  · exact fun hex => ⟨_, rfl, hkept, new, hlog, hpipes, hex⟩

/-- `ls | cat | wc`. -/
def threeCommands : List Text := [['l', 's'], ['|'], ['c', 'a', 't'], ['|'], ['w', 'c']]

theorem wired_threeCommands : ∃ s', doPipeCmd i686 0 false (holding threeCommands) = .ok s' ∧
    Wired (threeCommands.splitOn ['|']) (holding threeCommands).core s'.core :=
  (wired_iff (holds_holding (by decide)) (by decide) (by decide) fun _ => rfl).mpr (by decide)

/-- `ls` with an argument of 40 letters. -/
def longCommand : List Text := [['l', 's'], List.replicate 40 'a']

/-- The child copies the argument to a block of five bytes. -/
theorem not_wired : (∀ st ∈ longCommand.splitOn ['|'], Plain st) ∧
    ¬ ∃ s', doPipeCmd i686 0 false (holding longCommand) = .ok s' ∧
      Wired (longCommand.splitOn ['|']) (holding longCommand).core s'.core := by
  refine ⟨by decide, ?_⟩
  rintro ⟨s', hs', -, new, hlog, -, hexecs⟩
  have hrun : (doPipeCmd i686 0 false (holding longCommand)).toOption.map (fun s =>
      (forksOf s.core.log).map fun child => child.toOption.isSome) = some [false] := by
    decide +kernel
  have hlog' : s'.core.log = new := hlog
  rw [hs'] at hrun
  have hforks : (forksOf new).map (fun child => child.toOption.isSome) = [false] := by
    rw [← hlog']
    exact Option.some.inj hrun
  obtain ⟨child, rest, ⟨e, he, -⟩, -, heq⟩ := List.forall₂_cons_right_iff.mp hexecs
  rw [heq, he] at hforks
  exact absurd hforks (by simp [Except.toOption])

/-! ### Behind a built-in command -/

/-- **A built-in command that writes to a pipe** leaves the shell with both ends of it. The write
end is its standard output from now on. -/
theorem buildin_pipe (hstd : ∀ fd < 3, (c.files.file fd).isSome)
    (hpre : ∀ p ∈ prefd, (c.files.file p.1).isSome) (hb : isBuildin ws = true)
    (hplain : ∀ t ∈ ws, redirection t = none)
    (hrun : runStage env ws prefd (some c.pipe.1) bg c.pipe.2 = .ok c') :
    c'.files.file 1 = some (writeFile c.files.made) ∧
      c'.files.file c.pipe.1.1 = some (readFile c.files.made) ∧ 3 ≤ c.pipe.1.1 := by
  obtain ⟨hrw, hr, hw, -⟩ := file_pipe c
  have hlow : ∀ fd, c.files.file fd = none → 3 ≤ fd := by
    intro fd hfd
    by_contra hlt
    have := hstd fd (by omega)
    rw [hfd] at this
    exact absurd this (by simp)
  have hr3 := hlow _ hr
  have hw3 := hlow _ hw
  obtain ⟨-, argv, T, hredir, rfl⟩ | ⟨hext, -⟩ := runStage_cases hrun
  · obtain rfl := redirect_plain hplain hredir
    -- the new ends are not the ones that `prefd` brings to the standard input
    have hjoinPre : ∀ fd, 3 ≤ fd → c.files.file fd = none →
        (joinPre prefd c.pipe.2.files).file fd = c.pipe.2.files.file fd := by
      intro fd hfd hnone
      cases prefd with
      | none => rfl
      | some p =>
        have hne : fd ≠ p.1 := by
          rintro rfl
          have := hpre p rfl
          rw [hnone] at this
          exact absurd this (by simp)
        show (((c.pipe.2.files).dup2 p.1 0).close p.1).file fd = _
        rw [Table.file_close hne, Table.file_dup2 (by omega)]
    have hwrite : (joinPre prefd c.pipe.2.files).file c.pipe.1.2 = some (writeFile c.files.made) :=
      (hjoinPre _ hw3 hw).trans (file_pipe_write c)
    have hjoin := file_join (T := joinPre prefd c.pipe.2.files) (a := c.pipe.1.2) (b := 1)
      (by rw [hwrite]; rfl)
    refine ⟨(hjoin 1).trans ?_, (hjoin c.pipe.1.1).trans ?_, hr3⟩
    · rw [if_neg (by omega), if_pos rfl, hwrite]
    · rw [if_neg hrw, if_neg (by omega), hjoinPre _ hr3 hr, file_pipe_read c hrw]
      rfl
  · exact absurd (hb.symm.trans hext) (by simp)

/-- **The shell waits for a child that reads from it**: the child of the command behind has the read
end as its standard input, and the shell keeps the write end. -/
theorem waits_open {st : List Text} (hstd : ∀ fd < 3, (c.files.file fd).isSome)
    (hpre : ∀ p ∈ prefd, (c.files.file p.1).isSome) (hb : isBuildin ws = true)
    (hplain : ∀ t ∈ ws, redirection t = none) (hst : Plain st)
    (hrun : runStages env bg prefd [ws, st] c = .ok c') :
    c'.files.file 1 = some (writeFile c.files.made) ∧ ∃ log pid child,
      c'.log = log ++ [.fork pid child, .waitpid pid bg] ∧
        ∀ e, child = .ok e → e.files.file 0 = some (readFile c.files.made) := by
  obtain ⟨c₁, hfirst, hrun⟩ := bind_eq_ok.mp hrun
  obtain ⟨hout, hin, h3⟩ := buildin_pipe hstd hpre hb hplain hfirst
  have hlast : runStage env st (some c.pipe.1) none bg c₁ = .ok c' := hrun
  obtain ⟨hbuildin, -⟩ | ⟨-, rfl⟩ := runStage_cases hlast
  · exact absurd (hbuildin.symm.trans hst.external) (by simp)
  · refine ⟨(Table.file_close (show 1 ≠ c.pipe.1.1 by omega)).trans hout, _, _, _,
      List.append_cons .., fun e he => ?_⟩
    obtain ⟨⟨argv, T⟩, hredir, he⟩ := bind_eq_ok.mp he
    obtain rfl := redirect_plain hst.plain hredir
    have hjoin := file_join (b := 0) (a := c.pipe.1.1) (T := c₁.files) (by rw [hin]; rfl) 0
    rw [if_neg (by omega), if_pos rfl, hin] at hjoin
    cases argv with
    | nil => exact absurd he (by simp)
    | cons t argv =>
      obtain rfl := Except.ok.inj he
      exact hjoin

/-- `echo hi | cat ; ls`: the shell waits for `cat`, whose standard input is the pipe numbered 3,
with the write end of this pipe as its own standard output. -/
example : (doListCmd i686 (holding [['e', 'c', 'h', 'o'], ['h', 'i'], ['|'], ['c', 'a', 't'], [';'],
    ['l', 's'], ['\n']])).toOption.map (fun s => (s.core.files.file 1,
      (forksOf s.core.log).map fun child => child.toOption.bind fun e => e.files.file 0)) =
    some (some (writeFile 3), [some (readFile 3), some ⟨0, .given⟩]) := by decide +kernel

end LinuxHomework.Shell.Wiring
