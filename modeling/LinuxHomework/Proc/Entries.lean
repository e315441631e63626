import LinuxHomework.Lib.Runs
import Mathlib.Data.List.Basic
import Mathlib.Logic.Function.Basic

/-! # The entries of `pm1`, `pm11`, `pm2` and `pm3` under `/proc`

`init_module` makes a directory in the root and a file in the directory, whose functions are those
of the module; `cleanup_module` removes the two. If the file cannot be made, `init_module` removes
an entry of the root, which is not the directory it has made, and fails.

A new entry becomes the first one of its directory, and the first one with a name is found under it.

* `Names.initModule`, `Names.cleanupModule`: the source. The modules differ in their names.
* `entries_kept`: what is under `/proc` in every run of loading and unloading the four modules. A
  load that fails leaves its directory for good, and removes a foreign entry if there is one of the
  name. -/

namespace LinuxHomework.Proc.Entries

open LinuxHomework.Lib.Runs

abbrev Text := List Char

/-- The modules. -/
inductive Member
  | pm1
  | pm11
  | pm2
  | pm3
deriving DecidableEq

/-- The names in a module: of its directory, of its file, and of what `init_module` removes from the
root. -/
structure Names where
  pmdir : Text
  pmfile : Text
  removed : Text

/-- The names in `m1/pm1.c`. -/
def pm1 : Names :=
  ⟨['p', 'm', '1', 'd', 'i', 'r'], ['p', 'm', '1', 'f', 'i', 'l', 'e'],
    ['p', 'm', '1', 'f', 'i', 'l', 'e']⟩

/-- The names in `m1/m11/pm11.c`. -/
def pm11 : Names :=
  ⟨['p', 'm', '1', '1', 'd', 'i', 'r'], ['p', 'm', '1', '1', 'f', 'i', 'l', 'e'],
    ['p', 'm', '1', '1', 'f', 'i', 'l', 'e']⟩

/-- The names in `m2/pm2.c`. -/
def pm2 : Names :=
  ⟨['p', 'm', '2', 'd', 'i', 'r'], ['p', 'm', '2', 'f', 'i', 'l', 'e'],
    ['m', 'y', 'f', 'i', 'l', 'e']⟩

/-- The names in `m3/pm3.c`. -/
def pm3 : Names :=
  ⟨['p', 'm', '3', 'd', 'i', 'r'], ['p', 'm', '3', 'f', 'i', 'l', 'e'],
    ['p', 'm', '3', 'f', 'i', 'l', 'e']⟩

def names : Member → Names
  | .pm1 => pm1
  | .pm11 => pm11
  | .pm2 => pm2
  | .pm3 => pm3

/-- A `struct proc_dir_entry`: its number, its name, and the module whose `proc_read` and
`proc_write` are its functions. -/
structure Entry where
  num : ℕ
  name : Text
  functions : Option Member
deriving DecidableEq

/-- **What is under `/proc`**: the entries of the root, those of each directory, and the number of
the next entry. -/
structure Tree where
  root : List Entry
  sub : ℕ → List Entry
  made : ℕ
  fresh : ∀ d, made ≤ d → sub d = []

/-- The first entry with the name is taken out. -/
def removeFrom (name : Text) (l : List Entry) : List Entry := l.eraseP fun e => e.name = name

namespace Tree

variable (P : Tree)

/-- `proc_mkdir(name, NULL)`, where it succeeds: the directory, and what is there then. -/
def mkdir (name : Text) : ℕ × Tree :=
  (P.made, { P with
    root := ⟨P.made, name, none⟩ :: P.root
    made := P.made + 1
    fresh := fun d hd => P.fresh d (by omega) })

theorem lt_made_mkdir (name : Text) : P.made < (P.mkdir name).2.made := Nat.lt_succ_self _

/-- `create_proc_entry(name, 0666, dir)`, where it succeeds, in a directory that is there: the entry
gets its functions. -/
def createEntry (name : Text) (dir : ℕ) (m : Member) (hdir : dir < P.made) : Tree :=
  { P with
    sub := Function.update P.sub dir (⟨P.made, name, some m⟩ :: P.sub dir)
    made := P.made + 1
    fresh := fun d hd => by rw [Function.update_of_ne (by omega), P.fresh d (by omega)] }

/-- `remove_proc_entry(name, NULL)`. -/
def removeRoot (name : Text) : Tree := { P with root := removeFrom name P.root }

/-- `remove_proc_entry(name, dir)`. -/
def removeSub (name : Text) (dir : ℕ) : Tree :=
  { P with
    sub := Function.update P.sub dir (removeFrom name (P.sub dir))
    fresh := fun d hd => by
      by_cases h : d = dir
      · rw [h] at hd ⊢
        rw [Function.update_self, P.fresh dir hd]
        rfl
      · rw [Function.update_of_ne h, P.fresh d hd] }

end Tree

def ENOMEM : ℤ := 12

/-- Which of `proc_mkdir` and `create_proc_entry` succeed. -/
structure Answers where
  mkdir : Bool
  create : Bool
deriving DecidableEq

/-- `init_module`: the number it returns, `example_dir`, and what is under `/proc`. -/
def Names.initModule (n : Names) (m : Member) (k : Answers) (P : Tree) : ℤ × ℕ × Tree :=
  if ¬ k.mkdir then (-1, 0, P)
  else
    let Q := (P.mkdir n.pmdir).2
    if ¬ k.create then (-ENOMEM, P.made, Q.removeRoot n.removed)
    else (0, P.made, Q.createEntry n.pmfile P.made m (P.lt_made_mkdir n.pmdir))

/-- `cleanup_module`, where `dir` is `example_dir`. -/
def Names.cleanupModule (n : Names) (dir : ℕ) (P : Tree) : Tree :=
  (P.removeSub n.pmfile dir).removeRoot n.pmdir

/-- **`/proc` and the modules**: `exampleDir` is the directory of a module that is loaded. The loads
that have failed after they made their directory are kept in `failed`. -/
structure Sys where
  proc : Tree
  exampleDir : Member → Option ℕ
  failed : List Member

/-- A module is loaded or unloaded. -/
inductive Act
  | insmod (m : Member) (k : Answers)
  | rmmod (m : Member)
deriving DecidableEq

/-- One step; `none` if it cannot be taken. -/
def step (s : Sys) : Act → Option Sys
  | .insmod m k =>
    if s.exampleDir m = none then
      let (ret, dir, P) := (names m).initModule m k s.proc
      if ret < 0 then
        some { s with proc := P, failed := if k.mkdir then m :: s.failed else s.failed }
      else some { s with proc := P, exampleDir := Function.update s.exampleDir m (some dir) }
    else none
  | .rmmod m =>
    match s.exampleDir m with
    | none => none
    | some dir =>
      some { s with
        proc := (names m).cleanupModule dir s.proc
        exampleDir := Function.update s.exampleDir m none }

/-- None of the modules is loaded. -/
def start (P : Tree) : Sys := ⟨P, fun _ => none, []⟩

/-- The entries with a name, the newest first. -/
def named (x : Text) (l : List Entry) : List Entry := l.filter fun e => e.name = x

/-- The directory of a module, if it has one. -/
def own (m : Member) (dir : Option ℕ) : List Entry :=
  (dir.map fun d => ⟨d, (names m).pmdir, none⟩).toList

/-- The directory that a load of the module makes. -/
def newDir (s : Sys) (m : Member) : Entry := ⟨s.proc.made, (names m).pmdir, none⟩

/-- No entry has the functions of one of the modules. -/
def Foreign (P : Tree) : Prop :=
  (∀ e ∈ P.root, e.functions = none) ∧ ∀ d, ∀ e ∈ P.sub d, e.functions = none

/-- **What is under `/proc`**, where `P` was there before: for each module its directory if it is
loaded, the directories that its failed loads have left, empty, and the foreign entries of the same
name; of the foreign entries, those that the failed loads have removed are gone. -/
structure Kept (P : Tree) (s : Sys) : Prop where
  dirs : ∀ m, ∃ left : List Entry, left.length = s.failed.count m ∧
    (∀ e ∈ left, e.num < s.proc.made ∧ s.proc.sub e.num = []) ∧
    named (names m).pmdir s.proc.root =
      own m (s.exampleDir m) ++ (left ++ named (names m).pmdir P.root)
  files : ∀ m d, s.exampleDir m = some d → P.made ≤ d ∧ d < s.proc.made ∧
    ∃ f, s.proc.sub d = [⟨f, (names m).pmfile, some m⟩]
  removed : ∀ m, named (names m).removed s.proc.root =
    (named (names m).removed P.root).drop (s.failed.count m)
  others : ∀ x, (∀ m, x ≠ (names m).pmdir ∧ x ≠ (names m).removed) →
    named x s.proc.root = named x P.root
  subs : ∀ d, (∀ m, s.exampleDir m ≠ some d) → s.proc.sub d = P.sub d
  root : ∀ e ∈ s.proc.root, e.functions = none

/-- **Only the file of a module that is loaded has its functions.** -/
def NoneDangling (s : Sys) : Prop :=
  (∀ e ∈ s.proc.root, e.functions = none) ∧
    ∀ d, ∀ e ∈ s.proc.sub d, ∀ m, e.functions = some m → s.exampleDir m = some d

variable {P : Tree} {s s' : Sys} {m m' : Member} {x y : Text} {e : Entry} {l : List Entry} {k : Answers}

/-! ### Names -/

theorem pmdir_inj (h : (names m).pmdir = (names m').pmdir) : m = m' := by
  cases m <;> cases m' <;> first | rfl | exact absurd h (by decide)

theorem removed_inj (h : (names m).removed = (names m').removed) : m = m' := by
  cases m <;> cases m' <;> first | rfl | exact absurd h (by decide)

theorem pmdir_ne_removed : (names m).pmdir ≠ (names m').removed := by
  cases m <;> cases m' <;> decide

theorem named_cons : named x (e :: l) = if e.name = x then e :: named x l else named x l := by
  unfold named
  rw [List.filter_cons]
  simp only [decide_eq_true_eq]

theorem named_removeFrom_self : named x (removeFrom x l) = (named x l).tail := by
  induction l with
  | nil => rfl
  | cons e l ih =>
    by_cases he : e.name = x
    · rw [named_cons, if_pos he, List.tail_cons]
      unfold removeFrom
      rw [List.eraseP_cons_of_pos (by simpa using he)]
    · have hcons : removeFrom x (e :: l) = e :: removeFrom x l :=
        List.eraseP_cons_of_neg (by simpa using he)
      rw [hcons, named_cons, if_neg he, ih, named_cons, if_neg he]

theorem named_removeFrom (h : y ≠ x) : named y (removeFrom x l) = named y l := by
  induction l with
  | nil => rfl
  | cons e l ih =>
    by_cases he : e.name = x
    · unfold removeFrom
      rw [List.eraseP_cons_of_pos (by simpa using he), named_cons, if_neg]
      exact fun hy => h (hy.symm.trans he)
    · have hcons : removeFrom x (e :: l) = e :: removeFrom x l :=
        List.eraseP_cons_of_neg (by simpa using he)
      rw [hcons, named_cons, named_cons, ih]

theorem mem_removeFrom (h : e ∈ removeFrom x l) : e ∈ l := List.mem_of_mem_eraseP h

/-! ### Loading and unloading -/

theorem kept_start (hP : Foreign P) : Kept P (start P) where
  dirs m := ⟨[], rfl, fun e he => absurd he List.not_mem_nil, rfl⟩
  files m d h := by cases h
  removed m := rfl
  others x _ := rfl
  subs d _ := rfl
  root := hP.1

/-- Two modules that are loaded do not have the same directory. -/
theorem Kept.exampleDir_ne (h : Kept P s) (hne : m' ≠ m) {d : ℕ} (hm : s.exampleDir m = some d) :
    s.exampleDir m' ≠ some d := by
  intro hm'
  obtain ⟨-, -, f, hf⟩ := h.files m d hm
  obtain ⟨-, -, f', hf'⟩ := h.files m' d hm'
  obtain ⟨hentry, -⟩ := List.cons.inj (hf.symm.trans hf')
  exact hne (Option.some.inj (congrArg Entry.functions hentry)).symm

/-- What a new directory does to the entries with a name. -/
theorem named_newDir : named x (newDir s m :: s.proc.root) =
    if (names m).pmdir = x then newDir s m :: named x s.proc.root else named x s.proc.root :=
  named_cons

/-- **A load that cannot make its file.** -/
theorem kept_fail (h : Kept P s) (hm : s.exampleDir m = none) : Kept P { s with
    proc := (s.proc.mkdir (names m).pmdir).2.removeRoot (names m).removed
    failed := m :: s.failed } := by
  have hroot : ∀ x, x ≠ (names m).removed →
      named x (removeFrom (names m).removed (newDir s m :: s.proc.root)) =
        if (names m).pmdir = x then newDir s m :: named x s.proc.root else named x s.proc.root :=
    fun x hx => by rw [named_removeFrom hx, named_newDir]
  refine ⟨fun m' => ?_, fun m' d hd => ?_, fun m' => ?_, fun x hx => ?_, h.subs, fun e he => ?_⟩
  · obtain ⟨left, hlen, hleft, hnamed⟩ := h.dirs m'
    have hx := hroot (names m').pmdir pmdir_ne_removed
    have hleft' : ∀ e ∈ left, e.num < s.proc.made + 1 ∧ s.proc.sub e.num = [] :=
      fun e he => ⟨Nat.lt_succ_of_lt (hleft e he).1, (hleft e he).2⟩
    by_cases hmm : m' = m
    · subst hmm
      rw [if_pos rfl, hnamed, hm] at hx
      refine ⟨newDir s m' :: left, ?_, ?_, ?_⟩
      · rw [List.length_cons, hlen, List.count_cons_self]
      · exact List.forall_mem_cons.mpr ⟨⟨Nat.lt_succ_self _, s.proc.fresh _ le_rfl⟩, hleft'⟩
      · show _ = own m' (s.exampleDir m') ++ _
        rw [hm]
        exact hx
    · rw [if_neg fun heq => hmm (pmdir_inj heq).symm, hnamed] at hx
      exact ⟨left, hlen.trans (List.count_cons_of_ne (Ne.symm hmm)).symm, hleft', hx⟩
  · obtain ⟨hle, hlt, hf⟩ := h.files m' d hd
    exact ⟨hle, Nat.lt_succ_of_lt hlt, hf⟩
  · show named (names m').removed (removeFrom (names m).removed (newDir s m :: s.proc.root)) =
      (named (names m').removed P.root).drop ((m :: s.failed).count m')
    by_cases hmm : m' = m
    · subst hmm
      rw [named_removeFrom_self, named_newDir, if_neg pmdir_ne_removed, h.removed m', List.tail_drop,
        List.count_cons_self]
    · rw [hroot _ fun heq => hmm (removed_inj heq), if_neg pmdir_ne_removed, h.removed m',
        List.count_cons_of_ne (Ne.symm hmm)]
  · show named x (removeFrom (names m).removed (newDir s m :: s.proc.root)) = _
    rw [hroot x (hx m).2, if_neg (Ne.symm (hx m).1), h.others x hx]
  · rcases List.mem_cons.mp (mem_removeFrom he) with rfl | he
    · rfl
    · exact h.root e he

/-- **A load.** -/
theorem kept_load (h : Kept P s) (hP : P.made ≤ s.proc.made) (hm : s.exampleDir m = none) :
    Kept P { s with
      proc := (s.proc.mkdir (names m).pmdir).2.createEntry (names m).pmfile s.proc.made m
        (s.proc.lt_made_mkdir (names m).pmdir)
      exampleDir := Function.update s.exampleDir m (some s.proc.made) } := by
  have hnew : (s.proc.mkdir (names m).pmdir).2.sub s.proc.made = [] := s.proc.fresh _ le_rfl
  refine ⟨fun m' => ?_, fun m' d hd => ?_, fun m' => ?_, fun x hx => ?_, fun d hd => ?_, fun e he => ?_⟩
  · obtain ⟨left, hlen, hleft, hnamed⟩ := h.dirs m'
    refine ⟨left, hlen, fun e he => ⟨Nat.lt_succ_of_lt (Nat.lt_succ_of_lt (hleft e he).1), ?_⟩, ?_⟩
    · exact (Function.update_of_ne (hleft e he).1.ne ..).trans (hleft e he).2
    · show named (names m').pmdir (newDir s m :: s.proc.root) =
        own m' (Function.update s.exampleDir m (some s.proc.made) m') ++ _
      rw [named_newDir]
      by_cases hmm : m' = m
      · subst hmm
        rw [if_pos rfl, hnamed, hm, Function.update_self]
        rfl
      · rw [if_neg fun heq => hmm (pmdir_inj heq).symm, hnamed, Function.update_of_ne hmm]
  · change Function.update s.exampleDir m (some s.proc.made) m' = some d at hd
    by_cases hmm : m' = m
    · subst hmm
      rw [Function.update_self] at hd
      obtain rfl := Option.some.inj hd
      refine ⟨hP, Nat.lt_succ_of_lt (Nat.lt_succ_self _), s.proc.made + 1, ?_⟩
      refine (Function.update_self ..).trans ?_
      rw [hnew]
      rfl
    · rw [Function.update_of_ne hmm] at hd
      obtain ⟨hle, hlt, hf⟩ := h.files m' d hd
      refine ⟨hle, Nat.lt_succ_of_lt (Nat.lt_succ_of_lt hlt), ?_⟩
      obtain ⟨f, hf⟩ := hf
      exact ⟨f, (Function.update_of_ne hlt.ne ..).trans hf⟩
  · show named (names m').removed (newDir s m :: s.proc.root) = _
    rw [named_newDir, if_neg pmdir_ne_removed, h.removed m']
  · show named x (newDir s m :: s.proc.root) = _
    rw [named_newDir, if_neg (Ne.symm (hx m).1), h.others x hx]
  · have hold : ∀ m', s.exampleDir m' ≠ some d := by
      intro m' hm'
      refine hd m' ((Function.update_of_ne ?_ ..).trans hm')
      rintro rfl
      rw [hm] at hm'
      cases hm'
    have hne : d ≠ s.proc.made := by
      rintro rfl
      exact hd m (Function.update_self ..)
    exact (Function.update_of_ne hne ..).trans (h.subs d hold)
  · rcases List.mem_cons.mp he with rfl | he
    · rfl
    · exact h.root e he

/-- **An unload.** -/
theorem kept_unload (h : Kept P s) {dir : ℕ} (hm : s.exampleDir m = some dir) : Kept P { s with
    proc := (names m).cleanupModule dir s.proc
    exampleDir := Function.update s.exampleDir m none } := by
  obtain ⟨hPdir, -, file, hfile⟩ := h.files m dir hm
  have hsub : ((names m).cleanupModule dir s.proc).sub = Function.update s.proc.sub dir [] := by
    show Function.update s.proc.sub dir (removeFrom (names m).pmfile (s.proc.sub dir)) = _
    rw [hfile]
    unfold removeFrom
    rw [List.eraseP_cons_of_pos (by simp)]
  have hkept : ∀ m', m' ≠ m → Function.update s.exampleDir m none m' = s.exampleDir m' :=
    fun m' hmm => Function.update_of_ne hmm ..
  refine ⟨fun m' => ?_, fun m' d hd => ?_, fun m' => ?_, fun x hx => ?_, fun d hd => ?_, fun e he => ?_⟩
  · obtain ⟨left, hlen, hleft, hnamed⟩ := h.dirs m'
    refine ⟨left, hlen, fun e he => ⟨(hleft e he).1, ?_⟩, ?_⟩
    · rw [hsub]
      by_cases hed : e.num = dir
      · rw [hed, Function.update_self]
      · rw [Function.update_of_ne hed]
        exact (hleft e he).2
    · show named (names m').pmdir (removeFrom (names m).pmdir s.proc.root) =
        own m' (Function.update s.exampleDir m none m') ++ _
      by_cases hmm : m' = m
      · subst hmm
        rw [named_removeFrom_self, hnamed, hm, Function.update_self]
        rfl
      · rw [named_removeFrom fun heq => hmm (pmdir_inj heq), hnamed, hkept m' hmm]
  · change Function.update s.exampleDir m none m' = some d at hd
    have hmm : m' ≠ m := by
      rintro rfl
      rw [Function.update_self] at hd
      cases hd
    rw [hkept m' hmm] at hd
    obtain ⟨hle, hlt, f, hf⟩ := h.files m' d hd
    have hne : d ≠ dir := by
      rintro rfl
      exact h.exampleDir_ne hmm hm hd
    refine ⟨hle, hlt, f, ?_⟩
    rw [hsub, Function.update_of_ne hne, hf]
  · show named (names m').removed (removeFrom (names m).pmdir s.proc.root) = _
    rw [named_removeFrom pmdir_ne_removed.symm, h.removed m']
  · show named x (removeFrom (names m).pmdir s.proc.root) = _
    rw [named_removeFrom (hx m).1, h.others x hx]
  · rw [hsub]
    by_cases hne : d = dir
    · subst hne
      rw [Function.update_self, P.fresh d hPdir]
    · rw [Function.update_of_ne hne]
      refine h.subs d fun m' hm' => hd m' ((hkept m' ?_).trans hm')
      rintro rfl
      exact hne (Option.some.inj (hm'.symm.trans hm))
  · exact h.root e (mem_removeFrom he)

/-! ### Every step -/

theorem Kept.noneDangling (hP : Foreign P) (h : Kept P s) : NoneDangling s := by
  refine ⟨h.root, fun d e he m hm => ?_⟩
  by_cases hd : ∃ m', s.exampleDir m' = some d
  · obtain ⟨m', hm'⟩ := hd
    obtain ⟨-, -, f, hf⟩ := h.files m' d hm'
    rw [hf, List.mem_singleton] at he
    subst he
    rwa [← Option.some.inj hm]
  · rw [h.subs d fun m' hm' => hd ⟨m', hm'⟩] at he
    rw [hP.2 d e he] at hm
    cases hm

theorem kept_step {a : Act} (h : Kept P s ∧ P.made ≤ s.proc.made) (hs : step s a = some s') :
    Kept P s' ∧ P.made ≤ s'.proc.made := by
  obtain ⟨h, hP⟩ := h
  cases a with
  | insmod m k =>
    by_cases hm : s.exampleDir m = none
    swap
    · rw [show step s (.insmod m k) = none from if_neg hm] at hs
      cases hs
    replace hs := (if_pos hm).symm.trans hs
    rcases k with ⟨mkdir, create⟩
    cases mkdir with
    | false =>
      obtain rfl := Option.some.inj hs
      exact ⟨h, hP⟩
    | true =>
      cases create with
      | false =>
        obtain rfl := Option.some.inj hs
        exact ⟨kept_fail h hm, hP.trans (Nat.le_succ _)⟩
      | true =>
        obtain rfl := Option.some.inj hs
        exact ⟨kept_load h hP hm, hP.trans (Nat.le_add_right _ 2)⟩
  | rmmod m =>
    cases hm : s.exampleDir m with
    | none => simp [step, hm] at hs
    | some dir =>
      simp only [step, hm] at hs
      obtain rfl := Option.some.inj hs
      exact ⟨kept_unload h hm, hP⟩

/-- **What is under `/proc`**, in every run. -/
theorem entries_kept (hP : Foreign P) (acts : List Act) :
    Always step (fun s => Kept P s ∧ NoneDangling s) (start P) acts := by
  have hrun : Always step (fun s => Kept P s ∧ P.made ≤ s.proc.made) (start P) acts :=
    always_of_step (fun _ _ _ h hs => kept_step h hs) ⟨kept_start hP, le_rfl⟩ acts
  exact hrun.mono fun _ h => ⟨h.1, h.1.noneDangling hP⟩

/-- There is a file `myfile` already. -/
def foreign : Tree := ⟨[⟨0, ['m', 'y', 'f', 'i', 'l', 'e'], none⟩], fun _ => [], 1, fun _ _ => rfl⟩

/-- The first load of `pm2` cannot make its file; it is loaded again, and unloaded. -/
def loads : List Act := [.insmod .pm2 ⟨true, false⟩, .insmod .pm2 ⟨true, true⟩, .rmmod .pm2]

/-- The foreign file is gone, and a directory is left. -/
theorem entries_kept_loads : ∃ s, run step (start foreign) loads = some s ∧
    s.proc.root = [⟨1, pm2.pmdir, none⟩] ∧ NoneDangling s := by
  have hforeign : Foreign foreign := by
    refine ⟨fun e he => ?_, fun d e he => absurd he List.not_mem_nil⟩
    rw [List.mem_singleton.mp he]
  have hrun : run step (start foreign) loads = some _ := rfl
  exact ⟨_, hrun, by decide, ((entries_kept hforeign loads).last hrun).2⟩

end LinuxHomework.Proc.Entries
