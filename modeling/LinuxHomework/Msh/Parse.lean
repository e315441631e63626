import LinuxHomework.Lib.Outcome
import LinuxHomework.Lib.Split
import LinuxHomework.Msh.Commands

/-! # What a line of the shell means

The reference parse of a line and its execution, told without the array and without the heap.

* `parse`, `runSimple`, `runStages`, `runLine`: the line is cut at each `;`, what is between at each
  `|`, and of a simple command only the first redirection behind its name is looked at.
* `doSimpleCmd_eq`, `doPipeCmd_eq`, `doListCmd_runLine`: the in-place code comes to the same. All
  pointers are put back, except to the first redirection of a built-in command that runs in the
  shell itself (`dropped`). -/

namespace LinuxHomework.Msh.Parse

open LinuxHomework.Lib.Blocks LinuxHomework.Lib.Descriptors LinuxHomework.Lib.Outcome
open LinuxHomework.Lib.Split LinuxHomework.Msh.Lexer LinuxHomework.Msh.Commands

variable (m : Machine) (host : Host)

/-! ### The reference semantics -/

/-- The first redirection of some arguments, which are counted from `i` on. -/
def findRedirect : ℕ → List Text → Option (ℕ × Mode)
  | _, [] => none
  | i, t :: ts =>
    match redirection t with
    | some mode => some (i, mode)
    | none => findRedirect (i + 1) ts

/-- The first redirection behind the name of a command. -/
def redirectAt (cmd : List Text) : Option (ℕ × Mode) := findRedirect 1 (cmd.drop 1)

/-- A command whose redirection was looked at. -/
structure Redirected where
  done : Bool
  mode : Option Mode
  argv : List Text
  files : Table Kind

/-- **The redirection of a command.** What stands behind the first one is not looked at. -/
def redirect (cmd : List Text) (T : Table Kind) : Redirected :=
  match redirectAt cmd with
  | none => ⟨true, none, cmd, T⟩
  | some (i, mode) =>
    match cmd[i + 1]? with
    | none => ⟨false, some mode, cmd.take i, T⟩
    | some name =>
      if m.opens name mode then ⟨true, some mode, cmd.take i, openOn mode name T⟩
      else ⟨false, some mode, cmd.take i, T⟩

/-- What a child comes to behind its redirection and its pipes. -/
def childEnd (name : Text) (argc : ℕ) (argv : List Text) (w : World) (T : Table Kind) : ChildEnd :=
  match getCmdHandle name with
  | some hd =>
    match hd m argc argv w with
    | .ok (.next _ out) => .buildin out T
    | .ok .exit => .buildin [] T
    | .error e => .fails e
  | none =>
    match fileExist m w.environ name with
    | .error e => .fails e
    | .ok none => .exits
    | .ok (some path) => if m.execs path then .exec path argv T else .returns T

/-- A child, told without the array. -/
def childOf (name : Text) (args : List Text) (prefd postfd : Option Pipefd) (w : World)
    (T : Table Kind) : ChildEnd :=
  let r := redirect m (name :: args) T
  if r.done then
    childEnd m name (args.length + 1) r.argv w
      (joinPost r.mode postfd (joinPre r.mode prefd r.files))
  else .exits

/-- A built-in command in the shell itself. -/
def runHandle (hd : BuildinCmdHandle) (cmd : List Text) (c : Core) : Except Halt Core :=
  let r := redirect m cmd c.files
  let c := { c with files := r.files }
  if r.done then
    match hd m cmd.length r.argv c.world with
    | .ok (.next w out) => .ok { c.add (.print out) with world := w }
    | .ok .exit => .error ⟨.exited, c⟩
    | .error e => .error ⟨e, c⟩
  else .ok c

/-- A child, and what the parent does. -/
def runFork (name : Text) (args : List Text) (prefd postfd : Option Pipefd) (c : Core) : Core :=
  let c := if m.forks then
      { (c.add (.fork c.forked (childOf m name args prefd postfd c.world c.files))).add
          (.waitpid c.forked) with forked := c.forked + 1 }
    else c
  { c with files := closePost postfd c.files }

/-- The handle of a command that runs in the shell itself: a built-in command without pipes. -/
def handleOf (prefd postfd : Option Pipefd) (name : Text) : Option BuildinCmdHandle :=
  if prefd = none ∧ postfd = none then getCmdHandle name else none

/-- **A simple command.** -/
def runSimple (cmd : List Text) (prefd postfd : Option Pipefd) (c : Core) : Except Halt Core :=
  let c := c.begin ⟨cmd, prefd.isSome, postfd.isSome⟩
  match cmd with
  | [] => .ok c
  | name :: args =>
    match handleOf prefd postfd name with
    | some hd => runHandle m hd (name :: args) c
    | none => .ok (runFork m name args prefd postfd c)

/-- **A pipeline**, with the pipe to its first command, and what the array for a pipe holds. -/
def runStages : Option Pipefd → Pipefd → List (List Text) → Core → Except Halt Core
  | _, _, [], c => .ok c
  | prefd, _, [cmd], c => runSimple (host c.calls) cmd prefd none c
  | prefd, postfd, cmd :: cmd' :: stages, c => do
    let r := c.pipe (host c.calls) postfd
    let c' ← runSimple (host c.calls) cmd prefd (some r.1) r.2
    runStages (some r.1) r.1 (cmd' :: stages) c'

/-- **The reference parse**: pipelines, and their commands. -/
def parse (line : List Text) : List (List (List Text)) :=
  (line.splitOn [';']).map fun pl => pl.splitOn ['|']

/-- **A line.** -/
def runLine : List (List (List Text)) → Core → Except Halt Core
  | [], c => .ok c
  | pl :: pls, c => do
    let c ← runStages host none (host c.calls).postfd pl c
    runLine pls c

/-! ### Arguments that are not put back -/

/-- The command is built in. -/
def isBuildin (cmd : List Text) : Bool := (cmd.head?.bind getCmdHandle).isSome

/-- The argument whose pointer a command does not put back. -/
def drops (prefd postfd : Option Pipefd) (cmd : List Text) : Option ℕ :=
  if prefd = none ∧ postfd = none ∧ isBuildin cmd then (redirectAt cmd).map Prod.fst else none

/-- The same for a pipeline. -/
def stagesDrop (prefd : Option Pipefd) : List (List Text) → Option ℕ
  | [cmd] => drops prefd none cmd
  | _ => none

/-- The number of arguments of a pipeline, with its separators. -/
def width (pl : List (List Text)) : ℕ := ([['|']].intercalate pl).length

/-- The places of these arguments in a line that begins at `b`. -/
def dropped : ℕ → List (List (List Text)) → List ℕ
  | _, [] => []
  | b, pl :: pls => ((stagesDrop none pl).map (b + ·)).toList ++ dropped (b + width pl + 1) pls

/-! ### Arguments in the array -/

variable {m host} {s t : Shell} {b i j k n : ℕ} {ws cur : List Text} {w : Text} {c : Core}
  {prefd postfd : Option Pipefd}

/-- **The arguments from place `b` on.** -/
def Holds (s : Shell) : ℕ → List Text → Prop
  | b, [] => b < ARGSZ ∧ s.argbuf b = none
  | b, w :: ws => b < ARGSZ ∧ (∃ p, s.argbuf b = some p ∧ s.heap.block p = some w) ∧
      Holds s (b + 1) ws

/-- **Every pointer in the array owns its block.** -/
structure Owned (s : Shell) : Prop where
  bound : s.argcnt < ARGSZ
  live : ∀ i < s.argcnt, ∀ p, s.argbuf i = some p → (s.heap.block p).isSome
  once : ∀ i < s.argcnt, ∀ j < s.argcnt, ∀ p, s.argbuf i = some p → s.argbuf j = some p → i = j

/-- The second array has what the first one has, or `NULL`. -/
structure Within (s t : Shell) : Prop where
  argcnt : t.argcnt = s.argcnt
  heap : t.heap = s.heap
  sub : ∀ i, t.argbuf i = s.argbuf i ∨ t.argbuf i = none

theorem Within.refl (s : Shell) : Within s s := ⟨rfl, rfl, fun _ => Or.inl rfl⟩

theorem Owned.within (h : Owned s) (hw : Within s t) : Owned t := by
  have hsub : ∀ i p, t.argbuf i = some p → s.argbuf i = some p := by
    intro i p hp
    rcases hw.sub i with heq | hnone
    · rw [← heq, hp]
    · rw [hnone] at hp
      cases hp
  refine ⟨hw.argcnt ▸ h.bound, fun i hi p hp => ?_, fun i hi j hj p hp hp' => ?_⟩
  · rw [hw.heap]
    exact h.live i (hw.argcnt ▸ hi) p (hsub i p hp)
  · exact h.once i (hw.argcnt ▸ hi) j (hw.argcnt ▸ hj) p (hsub i p hp) (hsub j p hp')

@[simp] theorem store_argcnt (s : Shell) (i : ℕ) (p : Option ℕ) : (s.store i p).argcnt = s.argcnt := rfl

@[simp] theorem store_heap (s : Shell) (i : ℕ) (p : Option ℕ) : (s.store i p).heap = s.heap := rfl

@[simp] theorem store_core (s : Shell) (i : ℕ) (p : Option ℕ) : (s.store i p).core = s.core := rfl

@[simp] theorem store_self (s : Shell) (i : ℕ) (p : Option ℕ) : (s.store i p).argbuf i = p :=
  Function.update_self ..

theorem store_of_ne (s : Shell) (p : Option ℕ) (h : k ≠ i) : (s.store i p).argbuf k = s.argbuf k :=
  Function.update_of_ne h ..

theorem within_store (s : Shell) (i : ℕ) : Within s (s.store i none) := by
  refine ⟨rfl, rfl, fun k => ?_⟩
  by_cases h : k = i
  · exact Or.inr (by rw [h, store_self])
  · exact Or.inl (store_of_ne s none h)

theorem Holds.lt (h : Holds s b ws) : b + ws.length < ARGSZ := by
  induction ws generalizing b with
  | nil => exact h.1
  | cons w ws ih =>
    have := ih h.2.2
    rw [List.length_cons]
    omega

/-- Only the entries up to `NULL` and their blocks matter. -/
theorem Holds.congr (h : Holds s b ws) (hheap : t.heap = s.heap)
    (heq : ∀ x, b ≤ x → x ≤ b + ws.length → t.argbuf x = s.argbuf x) : Holds t b ws := by
  induction ws generalizing b with
  | nil => exact ⟨h.1, by rw [heq b le_rfl (by simp), h.2]⟩
  | cons w ws ih =>
    simp only [List.length_cons] at heq
    obtain ⟨hb, ⟨p, hp, hblock⟩, hrest⟩ := h
    refine ⟨hb, ⟨p, by rw [heq b le_rfl (by omega), hp], by rw [hheap, hblock]⟩, ?_⟩
    exact ih hrest fun x hx hx' => heq x (by omega) (by omega)

theorem Holds.drop (h : Holds s b (cur ++ ws)) : Holds s (b + cur.length) ws := by
  induction cur generalizing b with
  | nil => exact h
  | cons w cur ih =>
    have := ih h.2.2
    rwa [List.length_cons, Nat.add_comm cur.length, ← Nat.add_assoc]

/-- **The array is cut** at one of its entries. -/
theorem Holds.cut (h : Holds s b (cur ++ ws)) : Holds (s.store (b + cur.length) none) b cur := by
  induction cur generalizing b with
  | nil => exact ⟨by have := h.lt; simp at this; omega, by simp⟩
  | cons w cur ih =>
    obtain ⟨hb, ⟨p, hp, hblock⟩, hrest⟩ := h
    refine ⟨hb, ⟨p, ?_, hblock⟩, ?_⟩
    · rw [store_of_ne _ _ (by rw [List.length_cons]; omega), hp]
    · have := ih hrest
      rwa [List.length_cons, Nat.add_comm cur.length, ← Nat.add_assoc]

theorem Holds.getElem (h : Holds s b ws) (hk : k < ws.length) :
    ∃ p, s.argbuf (b + k) = some p ∧ s.heap.block p = some ws[k] := by
  induction ws generalizing b k with
  | nil => simp at hk
  | cons w ws ih =>
    cases k with
    | zero => exact h.2.1
    | succ k =>
      have := ih h.2.2 (by simpa using hk)
      rwa [Nat.add_assoc, Nat.add_comm 1] at this

theorem entry_of_lt (h : i < ARGSZ) : s.entry i = .ok (s.argbuf i) := if_pos h

theorem str_of_block {p : ℕ} (h : s.heap.block p = some w) : s.str p = .ok w := by
  unfold Shell.str
  rw [h]

theorem Holds.entry_end (h : Holds s b ws) : s.entry (b + ws.length) = .ok none := by
  have hnil : Holds s (b + ws.length) [] := Holds.drop (by rwa [List.append_nil])
  rw [entry_of_lt h.lt, hnil.2]

/-- What is read from the array. -/
theorem Holds.arg (h : Holds s b ws) (hk : k ≤ ws.length) : s.arg (b + k) = .ok ws[k]? := by
  have hlt := h.lt
  unfold Shell.arg
  rcases hk.lt_or_eq with hk | rfl
  · obtain ⟨p, hp, hblock⟩ := h.getElem hk
    rw [entry_of_lt (by omega), hp, List.getElem?_eq_getElem hk]
    simp only [ok_bind, str_of_block hblock]
    rfl
  · rw [h.entry_end, List.getElem?_eq_none le_rfl]
    rfl

theorem Holds.slice (h : Holds s b ws) (hn : ws.length < n) : s.slice n b = ws := by
  induction ws generalizing b n with
  | nil =>
    obtain ⟨n, rfl⟩ := Nat.exists_eq_succ_of_ne_zero (by omega : n ≠ 0)
    unfold Shell.slice
    rw [h.2]
    rfl
  | cons w ws ih =>
    obtain ⟨n, rfl⟩ := Nat.exists_eq_succ_of_ne_zero (by omega : n ≠ 0)
    obtain ⟨hb, ⟨p, hp, hblock⟩, hrest⟩ := h
    unfold Shell.slice
    rw [hp, Option.bind_some, hblock]
    exact congrArg _ (ih hrest (by simpa using hn))

/-! ### Freeing the arguments -/

/-- **The loop of `reset_args`** frees what the entries point to. -/
theorem resetLoop_eq (hbound : i + n ≤ ARGSZ)
    (hlive : ∀ x, i ≤ x → x < i + n → ∀ p, s.argbuf x = some p → (s.heap.block p).isSome)
    (honce : ∀ x, i ≤ x → x < i + n → ∀ y, i ≤ y → y < i + n → ∀ p, s.argbuf x = some p →
      s.argbuf y = some p → x = y) :
    ∃ t, resetLoop n i s = .ok t ∧ t.argcnt = s.argcnt ∧ t.core = s.core ∧
      (∀ x, t.argbuf x = if i ≤ x ∧ x < i + n then none else s.argbuf x) ∧
      t.heap.made = s.heap.made ∧ (∀ p, (∃ x, i ≤ x ∧ x < i + n ∧ s.argbuf x = some p) →
        t.heap.block p = none) ∧
      ∀ p, (¬ ∃ x, i ≤ x ∧ x < i + n ∧ s.argbuf x = some p) → t.heap.block p = s.heap.block p := by
  induction n generalizing i s with
  | zero =>
    refine ⟨s, rfl, rfl, rfl, fun x => ?_, rfl, fun p hp => ?_, fun p _ => rfl⟩
    · rw [if_neg (by omega)]
    · obtain ⟨x, hx, hx', -⟩ := hp
      omega
  | succ n ih =>
    unfold resetLoop
    rw [entry_of_lt (by omega)]
    cases hp : s.argbuf i with
    | none =>
      have hstore : ∀ x, (s.store i none).argbuf x = s.argbuf x := by
        intro x
        by_cases h : x = i
        · rw [h, store_self, hp]
        · exact store_of_ne s none h
      simp only [ok_bind]
      obtain ⟨t, ht, hcnt, hcore, hbuf, hmade, hfreed, hkept⟩ := ih (i := i + 1) (s := s.store i none)
        (by omega)
        (fun x hx hx' p hxp => hlive x (by omega) (by omega) p (by rwa [hstore] at hxp))
        (fun x hx hx' y hy hy' p hxp hyp => honce x (by omega) (by omega) y (by omega) (by omega) p
          (by rwa [hstore] at hxp) (by rwa [hstore] at hyp))
      simp only [hstore] at hbuf hfreed hkept
      refine ⟨t, ht, hcnt, hcore, fun x => ?_, hmade, fun p hx => hfreed p ?_, fun p hx => hkept p ?_⟩
      · rw [hbuf]
        by_cases h : x = i
        · rw [h, if_neg (by omega), if_pos (by omega), hp]
        · exact if_congr (by omega) rfl rfl
      · obtain ⟨x, hx, hx', hxp⟩ := hx
        refine ⟨x, Nat.lt_of_le_of_ne hx ?_, by omega, hxp⟩
        rintro rfl
        rw [hp] at hxp
        cases hxp
      · rintro ⟨x, hx', hx'', hxp⟩
        exact hx ⟨x, by omega, by omega, hxp⟩
    | some q =>
      obtain ⟨w, hw⟩ := Option.isSome_iff_exists.mp (hlive i le_rfl (by omega) q hp)
      obtain ⟨heap, hfree, hmade₁, hself, hother⟩ := Heap.free_block hw
      simp only [ok_bind, hfree]
      have hstore : ∀ x, i + 1 ≤ x → ({ s with heap := heap }.store i none).argbuf x = s.argbuf x :=
        fun x hx => store_of_ne _ none (by omega)
      have hne : ∀ x, i + 1 ≤ x → x < i + 1 + n → ∀ p, s.argbuf x = some p → p ≠ q := by
        rintro x hx hx' p hxp rfl
        have := honce i le_rfl (by omega) x (by omega) (by omega) p hp hxp
        omega
      obtain ⟨t, ht, hcnt, hcore, hbuf, hmade, hfreed, hkept⟩ :=
        ih (i := i + 1) (s := { s with heap := heap }.store i none) (by omega)
          (fun x hx hx' p hxp => by
            rw [hstore x hx] at hxp
            rw [store_heap, hother p (hne x hx hx' p hxp)]
            exact hlive x (by omega) (by omega) p hxp)
          (fun x hx hx' y hy hy' p hxp hyp => honce x (by omega) (by omega) y (by omega) (by omega) p
            (by rwa [hstore x hx] at hxp) (by rwa [hstore y hy] at hyp))
      refine ⟨t, ht, hcnt, hcore, fun x => ?_, hmade.trans hmade₁, fun p hx => ?_, fun p hx => ?_⟩
      · rw [hbuf]
        by_cases h : x = i
        · rw [h, if_neg (by omega), if_pos (by omega), store_self]
        · rw [store_of_ne _ none h]
          exact if_congr (by omega) rfl rfl
      · obtain ⟨x, hx, hx', hxp⟩ := hx
        by_cases h : x = i
        · subst h
          obtain rfl := Option.some.inj (hp.symm.trans hxp)
          rw [hkept q, store_heap, hself]
          rintro ⟨y, hy, hy', hyq⟩
          rw [hstore y hy] at hyq
          exact hne y hy hy' q hyq rfl
        · exact hfreed p ⟨x, by omega, by omega, by rwa [hstore x (by omega)]⟩
      · have hpq : p ≠ q := by
          rintro rfl
          exact hx ⟨i, le_rfl, by omega, hp⟩
        rw [hkept p, store_heap, hother p hpq]
        rintro ⟨y, hy, hy', hyp⟩
        rw [hstore y hy] at hyp
        exact hx ⟨y, by omega, by omega, hyp⟩

/-- What `reset_args` leaves. -/
structure Reset (s t : Shell) : Prop where
  argcnt : t.argcnt = 0
  core : t.core = s.core
  argbuf : ∀ x, t.argbuf x = if x < s.argcnt then none else s.argbuf x
  made : t.heap.made = s.heap.made
  freed : ∀ p, (∃ x < s.argcnt, s.argbuf x = some p) → t.heap.block p = none
  kept : ∀ p, (¬ ∃ x < s.argcnt, s.argbuf x = some p) → t.heap.block p = s.heap.block p

/-- **`reset_args`** frees the arguments, each of them once, and nothing else. -/
theorem resetArgs_eq (h : Owned s) : ∃ t, resetArgs s = .ok t ∧ Reset s t := by
  obtain ⟨t, ht, -, hcore, hbuf, hmade, hfreed, hkept⟩ := resetLoop_eq (n := s.argcnt) (i := 0)
    (by have := h.bound; omega) (fun x _ hx p hp => h.live x (by omega) p hp)
    (fun x _ hx y _ hy p hp hp' => h.once x (by omega) y (by omega) p hp hp')
  unfold resetArgs
  rw [ht]
  refine ⟨_, rfl, rfl, hcore, fun x => ?_, hmade, fun p hp => hfreed p ?_, fun p hp => hkept p ?_⟩
  · rw [hbuf]
    exact if_congr (by omega) rfl rfl
  · obtain ⟨x, hx, hxp⟩ := hp
    exact ⟨x, by omega, by omega, hxp⟩
  · rintro ⟨x, -, hx, hxp⟩
    exact hp ⟨x, by omega, hxp⟩

/-! ### Redirection in place -/

theorem redirectLoop_eq (h : Holds s b ws) (hi : i + n = ws.length) :
    redirectLoop s b n i = .ok (findRedirect i (ws.drop i)) := by
  induction n generalizing i with
  | zero =>
    rw [List.drop_eq_nil_of_le (by omega)]
    rfl
  | succ n ih =>
    have hlt : i < ws.length := by omega
    unfold redirectLoop
    rw [h.arg hlt.le, List.getElem?_eq_getElem hlt, List.drop_eq_getElem_cons hlt]
    unfold findRedirect
    simp only [ok_bind]
    cases redirection ws[i] with
    | none => exact ih (by omega)
    | some mode => rfl

theorem findRedirect_bounds {mode : Mode} (h : findRedirect i ws = some (k, mode)) :
    i ≤ k ∧ k < i + ws.length := by
  induction ws generalizing i with
  | nil => cases h
  | cons w ws ih =>
    unfold findRedirect at h
    rw [List.length_cons]
    split at h
    · obtain ⟨rfl, -⟩ := Prod.mk.inj (Option.some.inj h)
      omega
    · have := ih h
      omega

theorem redirectAt_bounds {mode : Mode} (h : redirectAt ws = some (k, mode)) :
    1 ≤ k ∧ k < ws.length := by
  have := findRedirect_bounds h
  rw [List.length_drop] at this
  omega

/-- A shell whose array lacks the entry `b + i`. -/
def dropAt (s : Shell) (b : ℕ) (o : Option ℕ) : Shell :=
  match o with
  | none => s
  | some i => s.store (b + i) none

@[simp] theorem dropAt_none (s : Shell) (b : ℕ) : dropAt s b none = s := rfl

theorem within_dropAt (s : Shell) (b : ℕ) (o : Option ℕ) : Within s (dropAt s b o) := by
  cases o with
  | none => exact Within.refl s
  | some i => exact within_store s (b + i)

@[simp] theorem dropAt_core (s : Shell) (b : ℕ) (o : Option ℕ) : (dropAt s b o).core = s.core := by
  cases o <;> rfl

/-- A shell whose argument `o` from place `b` on is not there any more, and what it has come to. -/
def Shell.after (s : Shell) (b : ℕ) (o : Option ℕ) (c : Core) : Shell := { dropAt s b o with core := c }

@[simp] theorem after_core (s : Shell) (b : ℕ) (o : Option ℕ) (c : Core) :
    (Shell.after s b o c).core = c :=
  rfl

/-- What a shell has come to before does not matter. -/
theorem after_with (s : Shell) (b : ℕ) (o : Option ℕ) (c : Core) :
    Shell.after { s with core := c } b o = Shell.after s b o := by
  funext c'
  cases o <;> rfl

theorem Owned.after (h : Owned s) (b : ℕ) (o : Option ℕ) (c : Core) : Owned (Shell.after s b o c) := by
  have := h.within (within_dropAt s b o)
  exact ⟨this.bound, this.live, this.once⟩

theorem arg_store (s : Shell) (p : Option ℕ) (h : k ≠ i) : (s.store i p).arg k = s.arg k := by
  unfold Shell.arg Shell.entry
  rw [store_of_ne s p h]
  rfl

/-- **The redirection in place.** -/
theorem predoForRedirect_eq (m : Machine) (h : Holds s b ws) (hne : ws ≠ []) :
    predoForRedirect m ws.length b s = .ok ((redirect m ws s.core.files).done,
      (redirect m ws s.core.files).mode, Shell.after s b ((redirectAt ws).map Prod.fst)
        { s.core with files := (redirect m ws s.core.files).files }) := by
  have hlen := List.length_pos_iff.mpr hne
  have hloop : redirectLoop s b (ws.length - 1) 1 = .ok (redirectAt ws) :=
    redirectLoop_eq h (by omega)
  unfold predoForRedirect redirect
  rw [hloop]
  cases hr : redirectAt ws with
  | none => rfl
  | some r =>
    obtain ⟨i, mode⟩ := r
    obtain ⟨-, hi⟩ := redirectAt_bounds hr
    have harg : (s.store (b + i) none).arg (b + i + 1) = .ok ws[i + 1]? := by
      rw [arg_store s none (by omega), Nat.add_assoc, h.arg (by omega)]
    simp only [ok_bind, harg]
    cases ws[i + 1]? with
    | none => rfl
    | some name =>
      dsimp only
      split_ifs
      · rfl
      · rfl

/-- What the array holds of a command whose redirection was looked at. -/
theorem Holds.redirected (m : Machine) (T : Table Kind) (h : Holds s b ws) (c : Core) :
    Holds (Shell.after s b ((redirectAt ws).map Prod.fst) c) b (redirect m ws T).argv := by
  suffices hdrop : Holds (dropAt s b ((redirectAt ws).map Prod.fst)) b (redirect m ws T).argv from
    hdrop.congr rfl fun _ _ _ => rfl
  unfold redirect
  cases hr : redirectAt ws with
  | none => exact h
  | some r =>
    obtain ⟨i, mode⟩ := r
    obtain ⟨-, hi⟩ := redirectAt_bounds hr
    have hcut : Holds (s.store (b + i) none) b (ws.take i) := by
      have hsplit : Holds s b (ws.take i ++ ws.drop i) := by rwa [List.take_append_drop]
      have := hsplit.cut
      rwa [List.length_take, Nat.min_eq_left hi.le] at this
    dsimp only [Option.map_some, dropAt]
    cases ws[i + 1]? with
    | none => exact hcut
    | some name =>
      dsimp only
      split_ifs
      · exact hcut
      · exact hcut

/-- The name of a command stays where it is. -/
theorem head?_argv (m : Machine) (T : Table Kind) (name : Text) (args : List Text) :
    ∃ rest, (redirect m (name :: args) T).argv = name :: rest := by
  unfold redirect
  cases hr : redirectAt (name :: args) with
  | none => exact ⟨args, rfl⟩
  | some r =>
    obtain ⟨i, mode⟩ := r
    obtain ⟨hpos, -⟩ := redirectAt_bounds hr
    obtain ⟨i, rfl⟩ := Nat.exists_eq_succ_of_ne_zero (by omega : i ≠ 0)
    refine ⟨args.take i, ?_⟩
    dsimp only
    cases (name :: args)[i.succ + 1]? with
    | none => rfl
    | some file =>
      dsimp only
      split_ifs
      · rfl
      · rfl

/-! ### Simple commands in place -/

/-- What `childRun` comes to. -/
theorem ended_childRun (m : Machine) {args : List Text} {name : Text} {argc : ℕ} {T : Table Kind}
    (h : Holds s b (name :: args)) (hown : Owned s) :
    ended (childRun m argc b T s) = childEnd m name argc (name :: args) s.core.world T := by
  have harg : s.arg b = .ok (some name) := h.arg (k := 0) (by simp)
  have hslice : s.slice ARGSZ b = name :: args := h.slice (by have := h.lt; omega)
  unfold childRun childEnd
  rw [harg, hslice]
  simp only [ok_bind]
  cases getCmdHandle name with
  | none =>
    dsimp only
    cases fileExist m s.core.world.environ name with
    | error e => rfl
    | ok found => cases found <;> rfl
  | some hd =>
    dsimp only
    cases hd m argc (name :: args) s.core.world with
    | error e => rfl
    | ok r =>
      cases r with
      | next w out => rfl
      | exit =>
        obtain ⟨t, ht, -⟩ := resetArgs_eq hown
        simp only [ok_bind, ht]
        rfl

/-- **The child.** -/
theorem child_eq (m : Machine) {args : List Text} {name : Text} (h : Holds s b (name :: args))
    (hown : Owned s) : child m (args.length + 1) b prefd postfd s =
      childOf m name args prefd postfd s.core.world s.core.files := by
  have hpredo := predoForRedirect_eq m h (List.cons_ne_nil name args)
  rw [List.length_cons] at hpredo
  unfold child childOf
  rw [hpredo]
  simp only [ok_bind]
  split_ifs with hdone
  · obtain ⟨rest, hrest⟩ := head?_argv m s.core.files name args
    have hr := h.redirected m s.core.files
      { s.core with files := (redirect m (name :: args) s.core.files).files }
    rw [hrest] at hr ⊢
    exact ended_childRun m hr (hown.after _ _ _)
  · rfl

/-- **A built-in command in the shell itself.** -/
theorem runBuildin_eq (m : Machine) (hd : BuildinCmdHandle) (h : Holds s b ws) (hne : ws ≠ [])
    (hown : Owned s) : runBuildin m hd ws.length b s =
      (runHandle m hd ws s.core).map (Shell.after s b ((redirectAt ws).map Prod.fst)) := by
  unfold runBuildin runHandle
  rw [predoForRedirect_eq m h hne]
  simp only [halted_ok, ok_bind]
  split_ifs
  · set c : Core := { s.core with files := (redirect m ws s.core.files).files }
    have hr := h.redirected m s.core.files c
    have hown' := hown.after b ((redirectAt ws).map Prod.fst) c
    rw [hr.slice (by have := hr.lt; omega), after_core]
    cases hd m ws.length (redirect m ws s.core.files).argv c.world with
    | error e => rfl
    | ok r =>
      cases r with
      | next w out => rfl
      | exit =>
        obtain ⟨t, ht, hreset⟩ := resetArgs_eq hown'
        simp only [halted_ok, ok_bind, ht, hreset.core, after_core]
        rfl
  · rfl

/-- **The parent and the child of a command.** -/
theorem runChild_eq (m : Machine) {args : List Text} {name : Text} (h : Holds s b (name :: args))
    (hown : Owned s) :
    runChild m (args.length + 1) b prefd postfd s = runFork m name args prefd postfd s.core := by
  unfold runChild runFork
  rw [child_eq m h hown]

theorem drops_of_handleOf_none {args : List Text} {name : Text}
    (h : handleOf prefd postfd name = none) : drops prefd postfd (name :: args) = none := by
  unfold handleOf at h
  unfold drops
  rw [if_neg]
  rintro ⟨rfl, rfl, hbuildin⟩
  rw [if_pos ⟨rfl, rfl⟩] at h
  rw [isBuildin, List.head?_cons, Option.bind_some, h] at hbuildin
  cases hbuildin

theorem drops_of_handleOf_some {args : List Text} {name : Text} {hd : BuildinCmdHandle}
    (h : handleOf prefd postfd name = some hd) :
    drops prefd postfd (name :: args) = (redirectAt (name :: args)).map Prod.fst := by
  unfold handleOf at h
  split_ifs at h with hfd
  unfold drops
  rw [if_pos]
  refine ⟨hfd.1, hfd.2, ?_⟩
  rw [isBuildin, List.head?_cons, Option.bind_some, h]
  rfl

/-- **A simple command in the array.** -/
theorem doSimpleCmd_eq (m : Machine) (h : Holds s b ws) (hown : Owned s) :
    doSimpleCmd m ws.length b prefd postfd s =
      (runSimple m ws prefd postfd s.core).map (Shell.after s b (drops prefd postfd ws)) := by
  have hslice : s.slice ARGSZ b = ws := h.slice (by have := h.lt; omega)
  unfold doSimpleCmd runSimple
  rw [hslice]
  set c : Core := s.core.begin ⟨ws, prefd.isSome, postfd.isSome⟩
  have h' : Holds { s with core := c } b ws := h.congr rfl fun _ _ _ => rfl
  have hown' : Owned { s with core := c } := ⟨hown.bound, hown.live, hown.once⟩
  cases ws with
  | nil =>
    have hdrops : drops prefd postfd [] = none := by
      unfold drops
      split_ifs <;> rfl
    rw [hdrops]
    rfl
  | cons name args =>
    have harg : Shell.arg { s with core := c } b = .ok (some name) := h'.arg (k := 0) (by simp)
    simp only [List.length_cons, Nat.add_one_ne_zero, if_false, harg, halted_ok, ok_bind]
    change (match handleOf prefd postfd name with
      | some hd => runBuildin m hd (args.length + 1) b { s with core := c }
      | none => return { s with
          core := runChild m (args.length + 1) b prefd postfd { s with core := c } }) = _
    cases hhandle : handleOf prefd postfd name with
    | none =>
      rw [drops_of_handleOf_none hhandle, runChild_eq m h' hown']
      rfl
    | some hd =>
      have hrun := runBuildin_eq m hd h' (List.cons_ne_nil name args) hown'
      rw [after_with] at hrun
      rw [drops_of_handleOf_some hhandle]
      exact hrun

/-! ### Pipelines in place -/

/-- Only the entries up to `NULL` and their blocks matter to `Holds`, not what was done. -/
theorem Holds.with (h : Holds s b ws) (c : Core) : Holds { s with core := c } b ws :=
  h.congr rfl fun _ _ _ => rfl

theorem Owned.with (h : Owned s) (c : Core) : Owned { s with core := c } := ⟨h.bound, h.live, h.once⟩

@[simp] theorem after_none (s : Shell) (b : ℕ) (c : Core) :
    Shell.after s b none c = { s with core := c } :=
  rfl

/-- A pointer that is put back. -/
theorem store_store {p : ℕ} (h : s.argbuf i = some p) (c : Core) :
    Shell.store { s.store i none with core := c } i (some p) = { s with core := c } := by
  unfold Shell.store
  dsimp only
  rw [Function.update_idem, ← h, Function.update_eq_self]

@[simp] theorem drops_some (fd : Pipefd) (postfd : Option Pipefd) (cmd : List Text) :
    drops (some fd) postfd cmd = none := if_neg fun h => Option.some_ne_none fd h.1

@[simp] theorem drops_post (prefd : Option Pipefd) (fd : Pipefd) (cmd : List Text) :
    drops prefd (some fd) cmd = none := if_neg fun h => Option.some_ne_none fd h.2.1

theorem stagesDrop_some (fd : Pipefd) (pl : List (List Text)) : stagesDrop (some fd) pl = none := by
  rcases pl with _ | ⟨cmd, _ | ⟨cmd', pl⟩⟩
  · rfl
  · exact drops_some fd none cmd
  · rfl

/-- **The loop of `do_pipe_cmd`**: what is read but not run yet is `cur`. -/
theorem pipeLoop_eq (host : Host) (prefd : Option Pipefd) (fd : Pipefd) {rest : List Text}
    (h : Holds s (b + j) (cur ++ rest)) (hown : Owned s) (hcur : ['|'] ∉ cur) (hn : rest.length < n) :
    pipeLoop host b n (j + cur.length) j prefd fd s =
      (runStages host prefd fd ((cur ++ rest).splitOn ['|']) s.core).map
        (Shell.after s (b + j) (stagesDrop prefd ((cur ++ rest).splitOn ['|']))) := by
  induction rest generalizing n j cur prefd fd s with
  | nil =>
    obtain ⟨n, rfl⟩ := Nat.exists_eq_succ_of_ne_zero (by omega : n ≠ 0)
    rw [List.append_nil] at h ⊢
    have hend := h.entry_end
    rw [Nat.add_assoc] at hend
    unfold pipeLoop
    rw [hend, List.splitOn_eq_singleton hcur, Nat.add_sub_cancel_left]
    exact doSimpleCmd_eq (host s.core.calls) h hown
  | cons w rest ih =>
    obtain ⟨n, rfl⟩ := Nat.exists_eq_succ_of_ne_zero (by omega : n ≠ 0)
    obtain ⟨p, hp, hblock⟩ := h.getElem (k := cur.length) (by simp)
    rw [List.getElem_append_right le_rfl] at hblock
    simp only [Nat.sub_self, List.getElem_cons_zero] at hblock
    have hlt := h.lt
    rw [List.length_append, List.length_cons] at hlt
    rw [Nat.add_assoc] at hp
    rw [List.length_cons] at hn
    unfold pipeLoop
    rw [entry_of_lt (by omega), hp]
    simp only [halted_ok, ok_bind, str_of_block hblock]
    split_ifs with hw
    · subst hw
      rw [List.splitOn_append_cons_self_of_not_mem hcur, Nat.add_sub_cancel_left]
      obtain ⟨stage, stages, hstages⟩ := List.exists_cons_of_ne_nil (List.splitOn_ne_nil ['|'] rest)
      set r := s.core.pipe (host s.core.calls) fd
      have hcut := h.cut.with r.2
      have hown' := (hown.within (within_store s (b + j + cur.length))).with r.2
      rw [Nat.add_assoc] at hcut hown'
      rw [doSimpleCmd_eq (host s.core.calls) hcut hown', hstages]
      unfold runStages
      dsimp only
      cases hrun : runSimple (host s.core.calls) cur prefd (some r.1) r.2 with
      | error e => rfl
      | ok c =>
        have hrest : Holds { s with core := c } (b + (j + cur.length + 1)) ([] ++ rest) := by
          have hbehind : Holds s (b + j + (cur ++ [['|']]).length) rest := Holds.drop (by simpa using h)
          simpa [Nat.add_assoc] using hbehind.with c
        have := ih (some r.1) r.1 hrest (hown.with c) (by simp)
          (Nat.lt_of_succ_lt_succ hn)
        rw [List.nil_append, List.length_nil, Nat.add_zero, stagesDrop_some, hstages] at this
        simp only [Except.map, ok_bind, drops_post, after_none, store_store hp, this]
        cases runStages host (some r.1) r.1 (stage :: stages) c with
        | error e => rfl
        | ok c' => rfl
    · have hnext : Holds s (b + j) ((cur ++ [w]) ++ rest) := by simpa using h
      have := ih prefd fd hnext hown (by simp [hcur, Ne.symm hw]) (Nat.lt_of_succ_lt_succ hn)
      rw [List.append_assoc, List.singleton_append, List.length_append, List.length_singleton] at this
      exact this

theorem stagesDrop_lt {pl : List (List Text)} (h : stagesDrop prefd pl = some k) : k < width pl := by
  rcases pl with _ | ⟨cmd, _ | ⟨cmd', pl⟩⟩
  · cases h
  · change drops prefd none cmd = some k at h
    unfold drops at h
    split_ifs at h
    obtain ⟨⟨i, mode⟩, hat, rfl⟩ := Option.map_eq_some_iff.mp h
    unfold width
    rw [List.intercalate_singleton]
    exact (redirectAt_bounds hat).2
  · cases h

/-- **`do_pipe_cmd`**. -/
theorem doPipeCmd_eq (host : Host) (h : Holds s b ws) (hown : Owned s) :
    doPipeCmd host b s =
      (runStages host none (host s.core.calls).postfd (ws.splitOn ['|']) s.core).map
        (Shell.after s b (stagesDrop none (ws.splitOn ['|']))) := by
  have hnil : Holds s (b + 0) ([] ++ ws) := h
  exact pipeLoop_eq host none _ hnil hown (by simp) (by have := h.lt; omega)

/-! ### Lists in place -/

/-- A shell whose arguments `ds` are not there any more, and what it has come to. -/
def Shell.without (s : Shell) (ds : List ℕ) (c : Core) : Shell :=
  { s with argbuf := fun i => if i ∈ ds then none else s.argbuf i, core := c }

theorem without_argbuf (s : Shell) (ds : List ℕ) (c : Core) (i : ℕ) :
    (Shell.without s ds c).argbuf i = if i ∈ ds then none else s.argbuf i := rfl

theorem dropAt_argbuf (s : Shell) (b : ℕ) (o : Option ℕ) (i : ℕ) :
    (dropAt s b o).argbuf i = if i ∈ (o.map (b + ·)).toList then none else s.argbuf i := by
  cases o with
  | none => simp
  | some k => simp [dropAt, Shell.store, Function.update_apply]

theorem after_eq_without (s : Shell) (b : ℕ) (o : Option ℕ) (c : Core) :
    Shell.after s b o c = Shell.without s ((o.map (b + ·)).toList) c :=
  have hw := within_dropAt s b o
  Shell.ext (funext (dropAt_argbuf s b o)) hw.argcnt hw.heap rfl

theorem without_without (s : Shell) (ds es : List ℕ) (c d : Core) :
    Shell.without (Shell.without s ds c) es d = Shell.without s (ds ++ es) d := by
  refine Shell.ext (funext fun i => ?_) rfl rfl rfl
  by_cases hi : i ∈ es
  · simp [without_argbuf, hi]
  · simp [without_argbuf, hi]

/-- An entry that is overwritten for the time of a pipeline is put back. -/
theorem store_without {p : ℕ} {ds : List ℕ} (h : s.argbuf i = some p) (hi : i ∉ ds) (c : Core) :
    Shell.store (Shell.without (s.store i none) ds c) i (some p) = Shell.without s ds c := by
  refine Shell.ext (funext fun k => ?_) rfl rfl rfl
  by_cases hk : k = i
  · subst hk
    rw [store_self, without_argbuf, if_neg hi, h]
  · rw [store_of_ne _ _ hk, without_argbuf, without_argbuf, store_of_ne _ _ hk]

theorem Owned.without (h : Owned s) (ds : List ℕ) (c : Core) : Owned (Shell.without s ds c) := by
  have hw : Within s (Shell.without s ds s.core) := by
    refine ⟨rfl, rfl, fun i => ?_⟩
    by_cases hi : i ∈ ds
    · exact Or.inr (if_pos hi)
    · exact Or.inl (if_neg hi)
  exact (h.within hw).with c

theorem Holds.without {ds : List ℕ} (h : Holds s b ws) (hds : ∀ i ∈ ds, i < b) (c : Core) :
    Holds (Shell.without s ds c) b ws :=
  h.congr rfl fun i hi _ => if_neg fun hmem => absurd (hds i hmem) (by omega)

theorem width_splitOn (ws : List Text) : width (ws.splitOn ['|']) = ws.length := by
  unfold width
  rw [List.intercalate_splitOn]

/-- **The loop of `do_list_cmd`**: what is read but not run yet is `cur`. -/
theorem listLoop_eq (host : Host) {rest : List Text} (h : Holds s j (cur ++ rest)) (hown : Owned s)
    (hcur : [';'] ∉ cur) (hn : rest.length < n) :
    listLoop host n (j + cur.length) j s = (runLine host (parse (cur ++ rest)) s.core).map
      (Shell.without s (dropped j (parse (cur ++ rest)))) := by
  induction rest generalizing n j cur s with
  | nil =>
    obtain ⟨n, rfl⟩ := Nat.exists_eq_succ_of_ne_zero (by omega : n ≠ 0)
    rw [List.append_nil] at h ⊢
    unfold listLoop parse
    rw [h.entry_end, List.splitOn_eq_singleton hcur]
    simp only [halted_ok, ok_bind, List.map_cons, List.map_nil]
    unfold runLine
    rw [doPipeCmd_eq host h hown]
    cases runStages host none _ (cur.splitOn ['|']) s.core with
    | error e => rfl
    | ok c =>
      unfold dropped dropped
      rw [List.append_nil]
      exact congrArg _ (after_eq_without s j _ c)
  | cons w rest ih =>
    obtain ⟨n, rfl⟩ := Nat.exists_eq_succ_of_ne_zero (by omega : n ≠ 0)
    obtain ⟨p, hp, hblock⟩ := h.getElem (k := cur.length) (by simp)
    rw [List.getElem_append_right le_rfl] at hblock
    simp only [Nat.sub_self, List.getElem_cons_zero] at hblock
    have hlt := h.lt
    rw [List.length_append, List.length_cons] at hlt
    rw [List.length_cons] at hn
    unfold listLoop
    rw [entry_of_lt (by omega), hp]
    simp only [halted_ok, ok_bind, str_of_block hblock]
    split_ifs with hw
    · subst hw
      unfold parse
      rw [List.splitOn_append_cons_self_of_not_mem hcur, List.map_cons]
      have hcut := h.cut
      have hown' := hown.within (within_store s (j + cur.length))
      rw [doPipeCmd_eq host hcut hown']
      unfold runLine dropped
      rw [width_splitOn, store_core]
      set ds := ((stagesDrop none (cur.splitOn ['|'])).map (j + ·)).toList with hds
      have hlt' : ∀ i ∈ ds, i < j + cur.length := by
        intro i hi
        rw [hds] at hi
        obtain ⟨k, hk, rfl⟩ := Option.map_eq_some_iff.mp (Option.mem_toList.mp hi)
        have := stagesDrop_lt hk
        rw [width_splitOn] at this
        omega
      cases hrun : runStages host none (host s.core.calls).postfd (cur.splitOn ['|']) s.core with
      | error e => rfl
      | ok c =>
        have hrest : Holds (Shell.without s ds c) (j + cur.length + 1) ([] ++ rest) := by
          have hbehind : Holds s (j + (cur ++ [[';']]).length) rest := Holds.drop (by simpa using h)
          rw [List.length_append, List.length_singleton, ← Nat.add_assoc] at hbehind
          exact hbehind.without (fun i hi => (hlt' i hi).trans (Nat.lt_succ_self _)) c
        have := ih hrest (hown.without ds c) (by simp) (Nat.lt_of_succ_lt_succ hn)
        rw [List.nil_append, List.length_nil, Nat.add_zero] at this
        have hback : Shell.store (Shell.after (s.store (j + cur.length) none) j
            (stagesDrop none (cur.splitOn ['|'])) c) (j + cur.length) (some p) =
            Shell.without s ds c := by
          rw [after_eq_without]
          exact store_without hp (fun hi => lt_irrefl _ (hlt' _ hi)) c
        change (Except.ok (Shell.after _ j _ c) >>= _) = Except.map _ (Except.ok c >>= _)
        rw [ok_bind, ok_bind, hback, this]
        exact congrArg (Except.map · (runLine host (parse rest) c))
          (funext fun d => without_without s ds _ c d)
    · have hnext : Holds s j ((cur ++ [w]) ++ rest) := by simpa using h
      have := ih hnext hown (by simp [hcur, Ne.symm hw]) (Nat.lt_of_succ_lt_succ hn)
      rw [List.append_assoc, List.singleton_append, List.length_append, List.length_singleton] at this
      exact this

/-- **`do_list_cmd`** executes the reference parse of its line, and puts the pointers back. -/
theorem doListCmd_runLine (host : Host) (h : Holds s 0 ws) (hown : Owned s) :
    doListCmd host s =
      (runLine host (parse ws) s.core).map (Shell.without s (dropped 0 (parse ws))) := by
  have hnil : Holds s 0 ([] ++ ws) := h
  exact listLoop_eq host hnil hown (by simp) (by have := h.lt; omega)

/-- A machine on which every call succeeds. -/
def machine : Machine :=
  ⟨42, fun _ _ => true, fun _ => true, fun _ => true, true, true, fun _ dir => some dir, [],
    fun _ => none, (0, 0)⟩

/-- `PATH=/bin:` is set. -/
def world : World :=
  ⟨fun name => if name = PATH then some ['/', 'b', 'i', 'n', ':'] else none, ['/'], ['/'], []⟩

/-- The three standard descriptors are open. -/
def table : Table Kind where
  file fd := if fd < 3 then some ⟨fd, .given⟩ else none
  top := 3
  made := 3
  closed fd hfd := if_neg (Nat.not_lt.mpr hfd)
  old fd f hf := by
    split_ifs at hf with hlt
    rw [← Option.some.inj hf]
    exact hlt

/-- Nothing has been done. -/
def core : Core := ⟨world, table, 0, 0, []⟩

/-- A shell with a line in its array. -/
def holding (ws : List Text) : Shell where
  argbuf i := if i < ws.length then some i else none
  argcnt := ws.length
  heap := ⟨fun p => ws[p]?, ws.length, fun _ hp => List.getElem?_eq_none hp⟩
  core := core

theorem owned_holding (h : ws.length < ARGSZ) : Owned (holding ws) := by
  have hentry : ∀ i p, (holding ws).argbuf i = some p → p = i ∧ i < ws.length := by
    intro i p hp
    change (if i < ws.length then some i else none) = some p at hp
    split_ifs at hp with hlt
    exact ⟨(Option.some.inj hp).symm, hlt⟩
  refine ⟨h, fun i _ p hp => ?_, fun i _ j _ p hp hp' => ?_⟩
  · obtain ⟨rfl, hlt⟩ := hentry i p hp
    simpa [holding] using hlt
  · exact (hentry i p hp).1.symm.trans (hentry j p hp').1

/-- `echo > f`. -/
def typedEcho : List Text := [['e', 'c', 'h', 'o'], ['>'], ['f']]

/-- The pointer to the `>` is not put back. -/
theorem doListCmd_runLine_echo : doListCmd (fun _ => machine) (holding typedEcho) =
    (runLine (fun _ => machine) [[typedEcho]] core).map (Shell.without (holding typedEcho) [1]) := by
  have h : Holds (holding typedEcho) 0 typedEcho :=
    ⟨by decide, ⟨0, rfl, rfl⟩, by decide, ⟨1, rfl, rfl⟩, by decide, ⟨2, rfl, rfl⟩, by decide, rfl⟩
  have hparse : parse typedEcho = [[typedEcho]] := by decide
  have hdropped : dropped 0 [[typedEcho]] = [1] := by decide
  have := doListCmd_runLine (fun _ => machine) h (owned_holding (by decide))
  rwa [hparse, hdropped] at this

end LinuxHomework.Msh.Parse
