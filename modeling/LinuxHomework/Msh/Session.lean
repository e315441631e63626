import LinuxHomework.Msh.Expand
import LinuxHomework.Msh.Parse
import Mathlib.Data.Finset.Card
import Mathlib.Data.Finset.Filter
import Mathlib.Data.Finset.Range

/-! # Sessions of `msh`

`main` reads line after line into a static buffer, keeps it in the history, and runs the lexer on
it, whose actions collect the arguments and, at the newline, execute them and free them.

* `runAction`, `lexLine`, `mainLine`, `mainLoop`: the source.
* `lineArgs`, `executeLine`, `referenceLine`: the arguments of a line, all expanded before the first
  command is run, and its execution by the reference parse.
* `mainLine_alike`, `mainLoop_alike`: the shell does that, line after line, in any session. At each
  prompt there are no arguments and no open quote; what is not freed is one string for each built-in
  command that stood alone with a redirection. -/

namespace LinuxHomework.Msh.Session

open LinuxHomework.Lib.Blocks LinuxHomework.Lib.Descriptors LinuxHomework.Lib.Outcome
open LinuxHomework.Msh.Lexer
open LinuxHomework.Msh.Commands LinuxHomework.Msh.Parse LinuxHomework.Msh.Expand
open LinuxHomework.Lib.Split (cut_induction)

variable (m : Machine) (host : Host)

/-! ### The source -/

/-- The size of the buffer for a line. -/
def BUFSIZ : ℕ := 8192

/-- The number of lines that `stifle_history` keeps. -/
def HISTSZ : ℕ := 50

/-- `if(*line) add_history(line)`. -/
def World.addHistory (line : Text) (w : World) : World :=
  if line = [] then w
  else { w with history := (w.history ++ [line]).drop (w.history.length + 1 - HISTSZ) }

/-- A line is kept in the history. -/
def Core.remember (line : Text) (c : Core) : Core := { c with world := World.addHistory line c.world }

/-- What an action of the lexer does. -/
def runAction (s : Shell) : Action → Except Halt Shell
  | .arg xarg => halted s.core (addArg (host s.core.calls) xarg s)
  | .simpleArg arg => halted s.core (addSimpleArg arg s)
  | .line => do
    let s ← doListCmd host s
    halted s.core (resetArgs s)

/-- A line, which `strcpy` and `strcat` put into the buffer, and the lexer in its start condition.
The lexer is never jammed, since a rule for any other character is added to it. -/
def lexLine (s : Start × Shell) (line : Text) : Except Halt (Start × Shell) :=
  if line.length + 1 < BUFSIZ then
    match yylex s.1 (line ++ ['\n']) with
    | none => .error ⟨.crash, s.2.core⟩
    | some (actions, q) => (actions.foldlM (runAction host) s.2).map fun t => (q, t)
  else .error ⟨.overflow, s.2.core⟩

/-- **One round of `main`**. -/
def mainLine (s : Start × Shell) (line : Text) : Except Halt (Start × Shell) :=
  lexLine host (s.1, { s.2 with core := Core.remember line s.2.core }) line

/-- **`main`** with these lines. -/
def mainLoop (s : Start × Shell) (lines : List Text) : Except Halt (Start × Shell) :=
  lines.foldlM (mainLine host) s

/-! ### What a session means -/

/-- The argument that an action adds, if any. -/
def actionArg (w : World) : Action → List Text
  | .arg xarg =>
    let arg := expansion w.environ m.pid xarg
    if arg = [] then [] else [arg]
  | .simpleArg arg => [arg]
  | .line => []

/-- **The arguments of a line.** -/
def lineArgs (w : World) (line : Text) : List Text := (lineActions line).flatMap (actionArg m w)

/-- An action fits into the local arrays of `add_arg`. -/
def ActionFits (w : World) : Action → Prop
  | .arg xarg => Fits w.environ m.pid xarg
  | _ => True

instance (w : World) (a : Action) : Decidable (ActionFits m w a) := by
  cases a <;> (unfold ActionFits; infer_instance)

/-- **A line fits**: into the buffer, its words into theirs, and its arguments into the array. -/
def LineFits (w : World) (line : Text) : Prop :=
  line.length + 1 < BUFSIZ ∧ (∀ a ∈ lineActions line, ActionFits m w a) ∧
    (lineArgs m w line).length < ARGSZ

instance (w : World) (line : Text) : Decidable (LineFits m w line) := by
  unfold LineFits
  infer_instance

/-- The number of built-in commands that stand alone in a line, with a redirection. -/
def strays (pls : List (List (List Text))) : ℕ := (dropped 0 pls).length

/-- **What a line does**, and how many strings are not freed. -/
def executeLine (c : Core × ℕ) (line : Text) : Except Halt (Core × ℕ) :=
  let m := host c.1.calls
  if LineFits m c.1.world line then
    let pls := parse (lineArgs m c.1.world line)
    (runLine host pls c.1).map fun c' => (c', c.2 + strays pls)
  else .error ⟨.overflow, c.1⟩

/-- **A line is kept in the history, and executed.** -/
def referenceLine (c : Core × ℕ) (line : Text) : Except Halt (Core × ℕ) :=
  executeLine host (Core.remember line c.1, c.2) line

/-- The number of strings that are there. -/
def live (h : Heap Text) : ℕ := ((Finset.range h.made).filter fun p => (h.block p).isSome).card

/-! ### Collecting the arguments -/

variable {m host} {s t u : Shell} {ws us : List Text} {w : Text} {acts : List Action} {ds : List ℕ}
  {b i : ℕ} {w' : World}

/-- The shell at its prompt: there are no arguments. -/
structure Prompt (s : Shell) : Prop where
  argcnt : s.argcnt = 0
  argbuf : ∀ i, s.argbuf i = none

/-- A shell that has collected the arguments `ws`. -/
structure Collected (s : Shell) (ws : List Text) (t : Shell) : Prop where
  room : ws.length < ARGSZ
  argcnt : t.argcnt = ws.length
  core : t.core = s.core
  argbuf : ∀ i, t.argbuf i = if i < ws.length then some (s.heap.made + i) else none
  made : t.heap.made = s.heap.made + ws.length
  block : ∀ p, t.heap.block p = if p < s.heap.made then s.heap.block p else ws[p - s.heap.made]?

theorem collected_nil (h : Prompt s) : Collected s [] s := by
  refine ⟨by decide, h.argcnt, rfl, fun i => by simp [h.argbuf], rfl, fun p => ?_⟩
  split_ifs with hp
  · rfl
  · rw [s.heap.fresh p (by omega), List.getElem?_nil]

/-- **One more argument.** -/
theorem Collected.add (h : Collected s ws t) (hroom : ws.length + 1 < ARGSZ) :
    ∃ u, addSimpleArg w t = .ok u ∧ Collected s (ws ++ [w]) u := by
  unfold addSimpleArg
  rw [h.argcnt, if_pos hroom]
  refine ⟨_, rfl, ?_, ?_, h.core, fun i => ?_, ?_, fun p => ?_⟩
  · rwa [List.length_append]
  · rw [List.length_append]
    rfl
  · rw [List.length_append, List.length_singleton]
    change (Shell.store (Shell.store _ _ _) _ _).argbuf i = _
    by_cases hend : i = ws.length + 1
    · rw [hend, store_self, if_neg (by omega)]
    rw [store_of_ne _ _ hend]
    by_cases hi : i = ws.length
    · rw [hi, store_self, if_pos (by omega), ← h.made]
    · rw [store_of_ne _ _ hi, h.argbuf]
      exact if_congr (by omega) rfl rfl
  · rw [List.length_append, List.length_singleton, ← Nat.add_assoc, ← h.made]
    rfl
  · change (t.heap.malloc w).2.block p = _
    by_cases hp : p = t.heap.made
    · rw [hp, Heap.malloc_block_self, h.made, if_neg (by omega), Nat.add_sub_cancel_left,
        List.getElem?_concat_length]
    · rw [Heap.malloc_block hp, h.block]
      rw [h.made] at hp
      split_ifs with hlt
      · rfl
      · rcases Nat.lt_or_ge (p - s.heap.made) ws.length with hlt' | hge
        · rw [List.getElem?_append_left hlt']
        · rw [List.getElem?_eq_none hge, List.getElem?_eq_none]
          rw [List.length_append, List.length_singleton]
          omega

/-- The actions fit, behind the arguments `ws`. -/
def ActsFit (m : Machine) (w : World) (ws : List Text) (acts : List Action) : Prop :=
  (∀ a ∈ acts, ActionFits m w a) ∧ (ws ++ acts.flatMap (actionArg m w)).length < ARGSZ

theorem actsFit_cons {a : Action} : ActsFit m w' ws (a :: acts) ↔ ActsFit m w' ws [a] ∧
    ActsFit m w' (ws ++ [a].flatMap (actionArg m w')) acts := by
  unfold ActsFit
  rw [List.forall_mem_cons, List.flatMap_cons, List.flatMap_singleton, ← List.append_assoc]
  simp only [List.mem_singleton, forall_eq, List.length_append]
  constructor
  · rintro ⟨⟨ha, hrest⟩, hlen⟩
    exact ⟨⟨ha, by omega⟩, hrest, hlen⟩
  · rintro ⟨⟨ha, -⟩, hrest, hlen⟩
    exact ⟨⟨ha, hrest⟩, hlen⟩

/-- What comes of actions that add arguments behind `ws`. -/
def Collects (m : Machine) (s : Shell) (ws : List Text) (acts : List Action)
    (r : Except Halt Shell) : Prop :=
  ActsFit m s.core.world ws acts ∧
    (∃ u, r = .ok u ∧ Collected s (ws ++ acts.flatMap (actionArg m s.core.world)) u) ∨
  ¬ ActsFit m s.core.world ws acts ∧ r = .error ⟨.overflow, s.core⟩

/-- **An action that adds an argument.** -/
theorem Collected.action (host : Host) (h : Collected s ws t) {a : Action} (ha : a ≠ .line) :
    Collects (host s.core.calls) s ws [a] (runAction host t a) := by
  have hadd : ∀ w, (ws ++ [w]).length < ARGSZ ∧
        (∃ u, halted t.core (addSimpleArg w t) = .ok u ∧ Collected s (ws ++ [w]) u) ∨
      ¬ (ws ++ [w]).length < ARGSZ ∧ halted t.core (addSimpleArg w t) = .error ⟨.overflow, s.core⟩ := by
    intro w
    rw [List.length_append, List.length_singleton]
    by_cases hroom : ws.length + 1 < ARGSZ
    · obtain ⟨u, hu, hcol⟩ := h.add (w := w) hroom
      rw [hu]
      exact Or.inl ⟨hroom, u, rfl, hcol⟩
    · refine Or.inr ⟨hroom, ?_⟩
      unfold addSimpleArg
      rw [h.argcnt, if_neg hroom, h.core]
      rfl
  set m := host s.core.calls with hm
  unfold Collects ActsFit
  rw [List.flatMap_singleton]
  simp only [List.mem_singleton, forall_eq]
  cases a with
  | line => exact absurd rfl ha
  | simpleArg arg =>
    rw [and_iff_right (show ActionFits m s.core.world (.simpleArg arg) from trivial)]
    exact hadd arg
  | arg xarg =>
    have hrun : runAction host t (.arg xarg) = halted t.core (addArg m xarg t) := by
      rw [hm, ← h.core]
      rfl
    rw [hrun, addArg_eq m xarg t, h.core]
    by_cases hfits : Fits s.core.world.environ m.pid xarg
    · rw [if_pos hfits, and_iff_right (show ActionFits m s.core.world (.arg xarg) from hfits)]
      unfold actionArg
      by_cases hempty : expansion s.core.world.environ m.pid xarg = []
      · rw [if_pos hempty]
        simpa [hempty, h.room] using h
      · rw [if_neg hempty]
        simpa [hempty, h.core] using hadd (expansion s.core.world.environ m.pid xarg)
    · rw [if_neg hfits]
      exact Or.inr ⟨fun hboth => hfits hboth.1, rfl⟩

/-- **The arguments of a line are collected.** -/
theorem Collected.actions (host : Host) (h : Collected s ws t) (hacts : ∀ a ∈ acts, a ≠ .line) :
    Collects (host s.core.calls) s ws acts (acts.foldlM (runAction host) t) := by
  induction acts generalizing ws t with
  | nil =>
    refine Or.inl ⟨⟨by simp, by simpa using h.room⟩, t, rfl, by simpa using h⟩
  | cons a acts ih =>
    rw [List.foldlM_cons]
    rcases h.action host (hacts a List.mem_cons_self) with ⟨hfit, u, hu, hcol⟩ | ⟨hfit, hu⟩
    · rw [hu, ok_bind]
      have hlater := ih hcol fun b hb => hacts b (List.mem_cons_of_mem a hb)
      unfold Collects at hlater ⊢
      rw [List.append_assoc, ← List.flatMap_append, List.singleton_append] at hlater
      rw [actsFit_cons]
      simpa [hfit] using hlater
    · rw [hu, error_bind]
      exact Or.inr ⟨fun hboth => hfit (actsFit_cons.mp hboth).1, rfl⟩

/-! ### Executing and freeing them -/

theorem Collected.holds (h : Collected s ws t) : Holds t 0 ws := by
  have hfrom : ∀ pre us, ws = pre ++ us → Holds t pre.length us := by
    intro pre us hws
    have hroom := h.room
    induction us generalizing pre with
    | nil =>
      rw [hws, List.append_nil] at hroom
      refine ⟨hroom, ?_⟩
      rw [h.argbuf, hws, List.append_nil, if_neg (lt_irrefl _)]
    | cons w us ih =>
      have hlen : ws.length = pre.length + (us.length + 1) := by
        rw [hws, List.length_append, List.length_cons]
      refine ⟨by omega, ⟨s.heap.made + pre.length, ?_, ?_⟩, ?_⟩
      · rw [h.argbuf, if_pos (by omega)]
      · rw [h.block, if_neg (by omega), Nat.add_sub_cancel_left, hws,
          List.getElem?_append_right le_rfl, Nat.sub_self]
        rfl
      · have := ih (pre ++ [w]) (by simpa using hws)
        rwa [List.length_append, List.length_singleton] at this
  exact hfrom [] ws rfl

theorem Collected.owned (h : Collected s ws t) : Owned t := by
  have hsome : ∀ i p, t.argbuf i = some p → i < ws.length ∧ p = s.heap.made + i := by
    intro i p hp
    rw [h.argbuf] at hp
    split_ifs at hp with hi
    exact ⟨hi, (Option.some.inj hp).symm⟩
  refine ⟨h.argcnt ▸ h.room, fun i _ p hp => ?_, fun i _ k _ p hp hp' => ?_⟩
  · obtain ⟨hi, rfl⟩ := hsome i p hp
    rw [h.block, if_neg (by omega), Nat.add_sub_cancel_left, List.getElem?_eq_getElem hi]
    rfl
  · have := (hsome i p hp).2
    have := (hsome k p hp').2
    omega

/-- A heap that has got the strings `ws`, of which those at the places `ds` are still there. -/
structure Left (h : Heap Text) (ws : List Text) (ds : List ℕ) (h' : Heap Text) : Prop where
  made : h'.made = h.made + ws.length
  block : ∀ p, h'.block p =
    if p < h.made then h.block p else if p - h.made ∈ ds then ws[p - h.made]? else none

/-- **`reset_args`** behind the commands of a line. -/
theorem Collected.reset (h : Collected s ws t) (ds : List ℕ) (c : Core) :
    ∃ u, resetArgs (Shell.without t ds c) = .ok u ∧ Prompt u ∧ u.core = c ∧
      Left s.heap ws ds u.heap := by
  obtain ⟨u, hu, hreset⟩ := resetArgs_eq (h.owned.without ds c)
  have hsome : ∀ p, (∃ x < (Shell.without t ds c).argcnt, (Shell.without t ds c).argbuf x = some p) ↔
      s.heap.made ≤ p ∧ p - s.heap.made < ws.length ∧ p - s.heap.made ∉ ds := by
    intro p
    constructor
    · rintro ⟨x, -, hx⟩
      rw [without_argbuf, h.argbuf] at hx
      split_ifs at hx with hmem hlt
      obtain rfl := Option.some.inj hx
      rw [Nat.add_sub_cancel_left]
      exact ⟨by omega, hlt, hmem⟩
    · rintro ⟨hle, hlt, hmem⟩
      refine ⟨p - s.heap.made, ?_, ?_⟩
      · exact h.argcnt ▸ hlt
      · rw [without_argbuf, h.argbuf, if_neg hmem, if_pos hlt, Nat.add_sub_cancel' hle]
  refine ⟨u, hu, ⟨hreset.argcnt, fun x => ?_⟩, hreset.core, hreset.made.trans h.made, fun p => ?_⟩
  · rw [hreset.argbuf, without_argbuf, h.argbuf]
    split_ifs with hx hmem hlt
    · rfl
    · rfl
    · exact absurd (h.argcnt ▸ hlt) hx
    · rfl
  · by_cases hfreed : s.heap.made ≤ p ∧ p - s.heap.made < ws.length ∧ p - s.heap.made ∉ ds
    · rw [hreset.freed p ((hsome p).mpr hfreed), if_neg (by omega), if_neg hfreed.2.2]
    · rw [hreset.kept p fun hx => hfreed ((hsome p).mp hx)]
      change t.heap.block p = _
      rw [h.block]
      split_ifs with hlt hmem
      · rfl
      · rfl
      · exact List.getElem?_eq_none (by by_contra hlt'; exact hfreed ⟨by omega, by omega, hmem⟩)

/-! ### What is not freed -/

/-- **Each of them once**, and inside of the line. -/
theorem dropped_parse (ws : List Text) (b : ℕ) : (dropped b (parse ws)).Nodup ∧
    ∀ i ∈ dropped b (parse ws), b ≤ i ∧ i < b + ws.length := by
  have hone : ∀ (us : List Text) (b : ℕ),
      ∀ i ∈ ((stagesDrop none (us.splitOn ['|'])).map (b + ·)).toList, b ≤ i ∧ i < b + us.length := by
    intro us b i hi
    obtain ⟨k, hk, rfl⟩ := Option.map_eq_some_iff.mp (Option.mem_toList.mp hi)
    have := stagesDrop_lt hk
    rw [width_splitOn] at this
    omega
  induction ws using cut_induction [';'] generalizing b with
  | hfree us hus =>
    unfold parse
    rw [List.splitOn_eq_singleton hus]
    change (_ ++ []).Nodup ∧ ∀ i ∈ _ ++ [], _
    rw [List.append_nil]
    refine ⟨?_, hone us b⟩
    cases (stagesDrop none (us.splitOn ['|'])).map (b + ·) with
    | none => exact List.nodup_nil
    | some i => exact List.nodup_singleton i
  | hcut us rest hus ih =>
    have hparse : parse (us ++ [';'] :: rest) = us.splitOn ['|'] :: parse rest := by
      unfold parse
      rw [List.splitOn_append_cons_self_of_not_mem hus]
      rfl
    obtain ⟨hnodup, hrange⟩ := ih (b + us.length + 1)
    rw [hparse]
    unfold dropped
    rw [width_splitOn, List.length_append, List.length_cons]
    refine ⟨List.Nodup.append ?_ hnodup fun i hi hi' => ?_, fun i hi => ?_⟩
    · cases (stagesDrop none (us.splitOn ['|'])).map (b + ·) with
      | none => exact List.nodup_nil
      | some i => exact List.nodup_singleton i
    · have := hone us b i hi
      have := hrange i hi'
      omega
    · rcases List.mem_append.mp hi with hi | hi
      · have := hone us b i hi
        omega
      · have := hrange i hi
        omega

theorem Left.live_eq {h h' : Heap Text} (hleft : Left h ws ds h') (hnodup : ds.Nodup)
    (hds : ∀ i ∈ ds, i < ws.length) : live h' = live h + ds.length := by
  have hsplit : (Finset.range h'.made).filter (fun p => (h'.block p).isSome) =
      (Finset.range h.made).filter (fun p => (h.block p).isSome) ∪
        ds.toFinset.image (h.made + ·) := by
    ext p
    rw [Finset.mem_filter, Finset.mem_range, hleft.made, hleft.block, Finset.mem_union,
      Finset.mem_filter,
      Finset.mem_range, Finset.mem_image]
    simp only [List.mem_toFinset]
    constructor
    · rintro ⟨hlt, hsome⟩
      split_ifs at hsome with hold hmem
      · exact Or.inl ⟨hold, hsome⟩
      · exact Or.inr ⟨p - h.made, hmem, by omega⟩
      · cases hsome
    · rintro (⟨hlt, hsome⟩ | ⟨i, hi, rfl⟩)
      · exact ⟨by omega, by rwa [if_pos hlt]⟩
      · have := hds i hi
        rw [if_neg (by omega), Nat.add_sub_cancel_left, if_pos hi, List.getElem?_eq_getElem this]
        exact ⟨by omega, rfl⟩
  unfold live
  rw [hsplit, Finset.card_union_of_disjoint,
    Finset.card_image_of_injective _ fun i k hik => Nat.add_left_cancel hik,
    List.toFinset_card_of_nodup hnodup]
  rw [Finset.disjoint_left]
  intro p hp himage
  obtain ⟨hlt, -⟩ := Finset.mem_filter.mp hp
  obtain ⟨i, -, rfl⟩ := Finset.mem_image.mp himage
  have := Finset.mem_range.mp hlt
  omega

/-! ### Lines and sessions -/

/-- **The shell at a prompt** after what it has come to, with so many strings. -/
structure Ready (s : Start × Shell) (c : Core × ℕ) : Prop where
  start : s.1 = .initial
  prompt : Prompt s.2
  core : s.2.core = c.1
  live : live s.2.heap = c.2

theorem segments_ne_line (segs : List Text) (q : Start) : ∀ a ∈ segments q segs, a ≠ .line := by
  have hbare : ∀ seg, ∀ a ∈ bare seg, a ≠ .line := by
    intro seg a ha
    obtain ⟨piece, -, ha⟩ := List.mem_flatMap.mp ha
    unfold bareAction at ha
    split_ifs at ha
    · rw [List.mem_singleton.mp ha]
      simp
    · exact absurd ha List.not_mem_nil
    · rw [List.mem_singleton.mp ha]
      simp
  have hquoted : ∀ seg, ∀ a ∈ quoted seg, a ≠ .line := by
    intro seg a ha
    unfold quoted at ha
    split_ifs at ha
    · exact absurd ha List.not_mem_nil
    · rw [List.mem_singleton.mp ha]
      simp
  induction segs generalizing q with
  | nil => cases q <;> exact fun a ha => absurd ha List.not_mem_nil
  | cons seg segs ih =>
    intro a ha
    cases q with
    | initial =>
      rcases List.mem_append.mp ha with ha | ha
      · exact hbare seg a ha
      · exact ih .quote a ha
    | quote =>
      rcases List.mem_append.mp ha with ha | ha
      · exact hquoted seg a ha
      · exact ih .initial a ha

theorem lineArgs_eq (m : Machine) (w : World) (line : Text) :
    lineArgs m w line = (segments .initial (line.splitOn '"')).flatMap (actionArg m w) := by
  unfold lineArgs lineActions
  rw [List.flatMap_append, List.flatMap_singleton]
  exact List.append_nil _

theorem lineFits_iff (m : Machine) (w : World) (line : Text) : LineFits m w line ↔
    line.length + 1 < BUFSIZ ∧ ActsFit m w [] (segments .initial (line.splitOn '"')) := by
  unfold LineFits ActsFit
  rw [lineArgs_eq, List.nil_append]
  refine and_congr_right fun _ => and_congr_left fun _ => ?_
  unfold lineActions
  simp only [List.forall_mem_append, List.mem_singleton, forall_eq, and_iff_left_iff_imp]
  exact fun _ => trivial

/-- **The newline**: the commands of the collected arguments, which are freed then. -/
theorem Collected.line (host : Host) (h : Collected s ws t) : Alike
    (fun u c => Prompt u ∧ u.core = c ∧ live u.heap = live s.heap + strays (parse ws))
    (runAction host t .line) (runLine host (parse ws) s.core) := by
  have hrun : runAction host t .line = doListCmd host t >>= fun u => halted u.core (resetArgs u) := rfl
  rw [hrun, doListCmd_runLine host h.holds h.owned, h.core]
  cases runLine host (parse ws) s.core with
  | error e => rfl
  | ok c =>
    change Alike _ (halted _ (resetArgs (Shell.without t (dropped 0 (parse ws)) c))) _
    obtain ⟨u, hu, hprompt, hcore, hleft⟩ := h.reset (dropped 0 (parse ws)) c
    obtain ⟨hnodup, hrange⟩ := dropped_parse ws 0
    rw [hu]
    exact ⟨hprompt, hcore, hleft.live_eq hnodup fun i hi => by have := hrange i hi; omega⟩

/-- **A line**, whatever is typed. -/
theorem lexLine_alike (host : Host) {line : Text} (hline : '\n' ∉ line) {s : Start × Shell}
    {c : Core × ℕ}
    (h : Ready s c) : Alike Ready (lexLine host s line) (executeLine host c line) := by
  obtain ⟨q, s⟩ := s
  obtain ⟨hstart, hprompt, hcore, hlive⟩ := h
  obtain ⟨c, n⟩ := c
  dsimp only at hstart hprompt hcore hlive
  subst hstart hcore hlive
  unfold lexLine executeLine
  dsimp only
  by_cases hbuf : line.length + 1 < BUFSIZ
  · rw [if_pos hbuf, yylex_line hline]
    dsimp only
    unfold lineActions
    rw [List.foldlM_append]
    have hcollect := (collected_nil hprompt).actions host (segments_ne_line (line.splitOn '"') .initial)
    unfold Collects at hcollect
    rw [List.nil_append, ← lineArgs_eq] at hcollect
    rcases hcollect with ⟨hfits, t, ht, hcol⟩ | ⟨hfits, ht⟩
    · rw [if_pos ((lineFits_iff _ _ line).mpr ⟨hbuf, hfits⟩), ht, ok_bind]
      have hrun := hcol.line host
      rw [List.foldlM_cons]
      cases hact : runAction host t .line with
      | ok u =>
        rw [hact] at hrun
        obtain ⟨c, hc, hprompt', hcore', hlive'⟩ := hrun.ok_of
        rw [hc]
        exact ⟨rfl, hprompt', hcore', hlive'⟩
      | error e =>
        rw [hact] at hrun
        cases hc : runLine host (parse (lineArgs (host s.core.calls) s.core.world line)) s.core with
        | ok c =>
          rw [hc] at hrun
          exact hrun.elim
        | error e' =>
          rw [hc] at hrun
          exact hrun
    · rw [if_neg fun hall => hfits ((lineFits_iff _ _ line).mp hall).2, ht]
      rfl
  · rw [if_neg hbuf, if_neg fun hfits => hbuf hfits.1]
    rfl

theorem Ready.remember {s : Start × Shell} {c : Core × ℕ} (h : Ready s c) (line : Text) :
    Ready (s.1, { s.2 with core := Core.remember line s.2.core }) (Core.remember line c.1, c.2) :=
  ⟨h.start, ⟨h.prompt.argcnt, h.prompt.argbuf⟩, congrArg (Core.remember line) h.core, h.live⟩

theorem mainLine_alike (host : Host) {line : Text} (hline : '\n' ∉ line) {s : Start × Shell}
    {c : Core × ℕ}
    (h : Ready s c) : Alike Ready (mainLine host s line) (referenceLine host c line) :=
  lexLine_alike host hline (h.remember line)

/-- The shell at its start. -/
def start (w : World) (T : Table Kind) : Start × Shell :=
  (.initial, ⟨fun _ => none, 0, ⟨fun _ => none, 0, fun _ _ => rfl⟩, ⟨w, T, 0, 0, []⟩⟩)

theorem ready_start (w : World) (T : Table Kind) : Ready (start w T) (⟨w, T, 0, 0, []⟩, 0) :=
  ⟨rfl, ⟨rfl, fun _ => rfl⟩, rfl, rfl⟩

/-- `echo "a;b" > f` and `ls|wc`. -/
def typed : List Text :=
  [['e', 'c', 'h', 'o', ' ', '"', 'a', ';', 'b', '"', ' ', '>', ' ', 'f'], ['l', 's', '|', 'w', 'c']]

end LinuxHomework.Msh.Session
