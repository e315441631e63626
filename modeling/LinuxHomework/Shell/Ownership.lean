import LinuxHomework.Lib.Blocks
import LinuxHomework.Shell.Parse

/-! # The heap under `2/parseline.l`

The entries of `tokens` are pointers to strings in the heap, and so are those of the array that
`scan_redirect` returns, which is in the heap itself. Here every `malloc`, `calloc` and `free` of
the shell is carried out on blocks; whatever is done with a block that is not there stops the shell.

* `scanRedirect`, `doSimpleCmd`, `doPipeCmd`, `doListCmd`, `addToken`: the source.
* `Moves`: what the shell does to the blocks it has. It frees a string only together with the entry
  that owns it.
* `scanRedirect_alike`, `doListCmd_alike`: the shell with its heap does what the shell does whose
  entries are the strings themselves. -/

namespace LinuxHomework.Shell.Ownership

open LinuxHomework.Lib.Blocks LinuxHomework.Lib.Descriptors LinuxHomework.Lib.Outcome
open LinuxHomework.Shell.Commands

abbrev Ptr := ℕ

/-- A block: a string in `size` bytes, if it has been written, or an array of `size` pointers. -/
inductive Block
  | str (size : ℕ) (text : Option Text)
  | arr (size : ℕ) (entry : ℕ → Option Ptr)

/-- The heap and `tokens`. -/
structure Mem where
  heap : Heap Block
  tokens : ℕ → Option Ptr

/-- **The shell with its heap.** -/
structure Machine where
  mem : Mem
  tokCnt : ℕ
  core : Core

/-! ### Blocks and entries -/

/-- The string at a pointer. -/
def text (h : Heap Block) (p : Ptr) : Option Text :=
  match h.block p with
  | some (.str _ t) => t
  | _ => none

/-- What cannot be done stops the shell. -/
def must {α : Type} : Option α → Except Stop α
  | some v => .ok v
  | none => .error .crash

/-- Entry `i` of `tokens`. -/
def Mem.entry (m : Mem) (i : ℕ) : Except Stop (Option Ptr) :=
  if i < TOKENSZ then .ok (m.tokens i) else .error .crash

/-- The string of an entry that is given as a file name. -/
def Mem.name (m : Mem) : Option Ptr → Except Stop (Option Text)
  | none => .ok none
  | some p => do return some (← must (text m.heap p))

/-- `free(tokens[i]); tokens[i] = 0`. -/
def Mem.drop (m : Mem) (i : ℕ) : Except Stop Mem :=
  match m.tokens i with
  | none => .ok m
  | some p => do return ⟨← must (m.heap.free p), Function.update m.tokens i none⟩

/-- `strcpy(q, t)`. -/
def strcpy (q : Ptr) (t : Text) (h : Heap Block) : Except Stop (Heap Block) :=
  match h.block q with
  | some (.str size _) =>
    if t.length < size then must (h.write q (.str size (some t))) else .error .overflow
  | _ => .error .crash

/-- `newcmd[j] = q`. -/
def setEntry (newcmd : Ptr) (j : ℕ) (q : Option Ptr) (h : Heap Block) :
    Except Stop (Heap Block) :=
  match h.block newcmd with
  | some (.arr size entry) =>
    if j < size then must (h.write newcmd (.arr size (Function.update entry j q)))
    else .error .overflow
  | _ => .error .crash

/-- The strings of an array from entry `j` on, up to its `NULL`; `n` bounds the rounds. -/
def strings (h : Heap Block) (entry : ℕ → Option Ptr) : (n j : ℕ) → Except Stop (List Text)
  | 0, _ => .error .crash
  | n + 1, j =>
    match entry j with
    | none => .ok []
    | some q => do
      let t ← must (text h q)
      let ts ← strings h entry n (j + 1)
      return t :: ts

/-- The words that a command finds in its `argv`. -/
def readArgv (newcmd : Ptr) (h : Heap Block) : Except Stop (List Text) :=
  match h.block newcmd with
  | some (.arr size entry) => strings h entry size 0
  | _ => .error .crash

variable (now : Moment)

/-! ### Redirection -/

/-- `newcmd[j] = malloc(sizeof(oldcmd[i]) + 1); strcpy(newcmd[j], oldcmd[i])`. -/
def copyTo (newcmd : Ptr) (j : ℕ) (t : Text) (h : Heap Block) : Except Stop (Heap Block) := do
  let (q, h) := h.malloc (.str (now.ptrSize + 1) none)
  strcpy q t (← setEntry newcmd j (some q) h)

/-- The loop of `scan_redirect`; `n` bounds the rounds. -/
def scanLoop (newcmd : Ptr) : (n i j : ℕ) → Mem → Table Kind →
    Except Stop (ℕ × Mem × Table Kind)
  | 0, _, _, _, _ => .error .crash
  | n + 1, i, j, m, T => do
    match ← m.entry i with
    | none => return (j, m, T)
    | some p =>
      let t ← must (text m.heap p)
      if t = ['<'] then
        let T ← reopen now 0 .r (← m.name (← m.entry (i + 1))) T
        let m ← m.drop i
        let m ← m.drop (i + 1)
        scanLoop newcmd n (i + 2) j m T
      else if t = ['>'] then
        let T ← reopen now 1 .w (← m.name (← m.entry (i + 1))) T
        let m ← m.drop i
        let m ← m.drop (i + 1)
        scanLoop newcmd n (i + 2) j m T
      else
        let h ← copyTo now newcmd j t m.heap
        let m ← Mem.drop ⟨h, m.tokens⟩ i
        scanLoop newcmd n (i + 1) (j + 1) m T

/-- **`scan_redirect(tokens + b)`**. -/
def scanRedirect (b : ℕ) (m : Mem) (T : Table Kind) : Except Stop (Ptr × Mem × Table Kind) := do
  let (newcmd, h) := m.heap.malloc (.arr (TOKENSZ + 1) fun _ => none)
  let (j, m, T) ← scanLoop now newcmd (TOKENSZ + 1) b 0 ⟨h, m.tokens⟩ T
  let h ← setEntry newcmd (j + 1) none m.heap
  return (newcmd, ⟨h, m.tokens⟩, T)

/-! ### Commands -/

/-- The string that an entry owns. -/
def Mem.texts (m : Mem) (i : ℕ) : Option Text := (m.tokens i).bind (text m.heap)

/-- The child of `do_simple_cmd` up to its `execvp`, with a copy of the memory. -/
def child (b : ℕ) (prefd postfd : Option Pipefd) (m : Mem) (T : Table Kind) :
    Except Stop Exec := do
  let T := joinPost postfd (closeEnd (postfd.map Prod.fst) (joinPre prefd T))
  let (newcmd, m, T) ← scanRedirect now b m T
  match ← readArgv newcmd m.heap with
  | [] => .error .crash
  | argv => return ⟨argv, T⟩

variable (env : Env)

/-- **`do_simple_cmd(tokens + b, prefd, postfd, bg)`**. What `do_exit` frees before it exits is not
looked at any more. -/
def doSimpleCmd (b : ℕ) (prefd postfd : Option Pipefd) (bg : Bool) (s : Machine) :
    Except Halt Machine := do
  let core := s.core.add
    (.call ⟨slice s.mem.texts (TOKENSZ - b) b, prefd.isSome, postfd.isSome, bg⟩)
  match ← logged core.log (s.mem.entry b) with
  | none => .error ⟨.crash, core.log⟩
  | some p =>
    let cmd ← logged core.log (must (text s.mem.heap p))
    match getCmdHandle cmd with
    | some hd =>
      let T := joinPost postfd (joinPre prefd core.files)
      let (newcmd, mem, T) ← logged core.log (scanRedirect (env.moment (called s.core.log)) b s.mem T)
      let argv ← logged core.log (readArgv newcmd mem.heap)
      let _ ← logged core.log (hd argv)
      return { s with mem := mem, core := { core with files := T } }
    | none =>
      if env.forks core.forked then
        let core := core.add (.fork core.forked (child (env.moment (called s.core.log)) b prefd postfd
          s.mem core.files))
        let core := core.add (.waitpid core.forked bg)
        return { s with core := { core with
          files := closeParent prefd postfd core.files, forked := core.forked + 1 } }
      else .error ⟨.failed, core.log⟩

/-- The loop of `do_pipe_cmd` and the last call behind it; `n` bounds the rounds. -/
def pipeLoop (b : ℕ) (bg : Bool) : (n i j : ℕ) → Option Pipefd → Machine → Except Halt Machine
  | 0, _, _, _, s => .error ⟨.crash, s.core.log⟩
  | n + 1, i, j, prefd, s => do
    match ← logged s.core.log (s.mem.entry (b + i)) with
    | none => doSimpleCmd env (b + j) prefd none bg s
    | some p =>
      let t ← logged s.core.log (must (text s.mem.heap p))
      if t = ['|'] then
        let mem ← logged s.core.log (s.mem.drop (b + i))
        let (postfd, core) := s.core.pipe
        let s ← doSimpleCmd env (b + j) prefd (some postfd) bg { s with mem := mem, core := core }
        pipeLoop b bg n (i + 1) (i + 1) (some postfd) s
      else pipeLoop b bg n (i + 1) j prefd s

/-- **`do_pipe_cmd(tokens + b, bg)`**. -/
def doPipeCmd (b : ℕ) (bg : Bool) (s : Machine) : Except Halt Machine :=
  pipeLoop env b bg (TOKENSZ + 1) 0 0 none s

/-- The loop of `do_list_cmd`; `n` bounds the rounds. -/
def listLoop : (n i j : ℕ) → Machine → Except Halt Machine
  | 0, _, _, s => .error ⟨.crash, s.core.log⟩
  | n + 1, i, j, s => do
    match ← logged s.core.log (s.mem.entry i) with
    | none => return { s with tokCnt := 0 }
    | some p =>
      let t ← logged s.core.log (must (text s.mem.heap p))
      if t = [';'] ∨ t = ['\n'] then
        let mem ← logged s.core.log (s.mem.drop i)
        let s ← if j ≠ i then doPipeCmd env j false { s with mem := mem }
          else .ok { s with mem := mem }
        listLoop n (i + 1) (i + 1) s
      else if t = ['&'] then
        let mem ← logged s.core.log (s.mem.drop i)
        let s ← if j ≠ i then doPipeCmd env j true { s with mem := mem }
          else .ok { s with mem := mem }
        listLoop n (i + 1) (i + 1) s
      else listLoop n (i + 1) j s

/-- **`do_list_cmd()`**. -/
def doListCmd (s : Machine) : Except Halt Machine := listLoop env (TOKENSZ + 1) 0 0 s

/-- **`add_token`**. -/
def addToken (token : Text) (s : Machine) : Except Stop Machine :=
  if s.tokCnt ≤ TOKENSZ then
    if s.tokCnt + 1 < TOKENSZ then do
      let (p, h) := s.mem.heap.malloc (.str (token.length + 1) none)
      let h ← strcpy p token h
      return { s with
        mem := ⟨h, Function.update (Function.update s.mem.tokens s.tokCnt (some p))
          (s.tokCnt + 1) none⟩
        tokCnt := s.tokCnt + 1 }
    else .error .overflow
  else .error .failed

variable {now} {env} {m m' m'' m₀ : Mem} {b i j k n : ℕ} {p q newcmd : Ptr} {t : Text}
  {h' : Heap Block} {T : Table Kind} {qs : List (Ptr × Text)}

/-! ### Ownership -/

/-- **Ownership**: an entry that is not `NULL` owns a string, and no other entry owns it too. -/
structure Own (m : Mem) : Prop where
  live : ∀ x p, m.tokens x = some p → ∃ t, text m.heap p = some t
  inj : ∀ x y p, m.tokens x = some p → m.tokens y = some p → x = y

/-- **What the shell does** from entry `i` on: an entry stays as it is or becomes `NULL`, and then
its string has been freed; the other blocks stay as they are. -/
structure Moves (i : ℕ) (m m' : Mem) : Prop where
  made : m.heap.made ≤ m'.heap.made
  low : ∀ x < i, m'.tokens x = m.tokens x
  entry : ∀ x, m'.tokens x = m.tokens x ∨ m'.tokens x = none
  freed : ∀ x p, m.tokens x = some p → m'.tokens x = none → m'.heap.block p = none
  kept : ∀ p < m.heap.made, (∀ x, m.tokens x = some p → m'.tokens x = some p) →
    m'.heap.block p = m.heap.block p

theorem block_of_text (ht : text m.heap p = some t) :
    ∃ size, m.heap.block p = some (.str size (some t)) := by
  unfold text at ht
  split at ht
  · next size u hblock => exact ⟨size, by rw [hblock, ht]⟩
  · exact absurd ht (by simp)

theorem text_congr {h : Heap Block} (hp : h'.block p = h.block p) : text h' p = text h p := by
  unfold text
  rw [hp]

theorem Own.lt_made (hown : Own m) (hp : m.tokens j = some p) : p < m.heap.made := by
  obtain ⟨t, ht⟩ := hown.live j p hp
  obtain ⟨size, hblock⟩ := block_of_text ht
  exact Heap.lt_made hblock

theorem Own.texts (hown : Own m) (hp : m.tokens j = some p) :
    ∃ t, text m.heap p = some t ∧ m.texts j = some t := by
  obtain ⟨t, ht⟩ := hown.live j p hp
  refine ⟨t, ht, ?_⟩
  unfold Mem.texts
  rw [hp, Option.bind_some, ht]

theorem texts_none (hp : m.tokens j = none) : m.texts j = none := by
  unfold Mem.texts
  rw [hp, Option.bind_none]

theorem Moves.refl (i : ℕ) (m : Mem) : Moves i m m :=
  ⟨Nat.le_refl _, fun _ _ => rfl, fun _ => Or.inl rfl, fun _ _ hp hnone => absurd (hp.symm.trans hnone)
    (by simp), fun _ _ _ => rfl⟩

/-- An entry that is still there was there before. -/
theorem Moves.of_some (hm : Moves i m m') (hp : m'.tokens j = some p) : m.tokens j = some p := by
  rcases hm.entry j with heq | hnone
  · rw [← heq, hp]
  · rw [hnone] at hp
    exact absurd hp (by simp)

theorem Moves.of_none (hm : Moves i m m') (hp : m.tokens j = none) : m'.tokens j = none := by
  rcases hm.entry j with heq | hnone
  · rw [heq, hp]
  · exact hnone

theorem Moves.trans (hown : Own m) (hm : Moves i m m') (hm' : Moves i m' m'') : Moves i m m'' := by
  refine ⟨Nat.le_trans hm.made hm'.made, fun x hx => (hm'.low x hx).trans (hm.low x hx), fun x => ?_,
    fun x p hp hnone => ?_, fun p hp hall => ?_⟩
  · rcases hm'.entry x with heq | hnone
    · rw [heq]
      exact hm.entry x
    · exact Or.inr hnone
  · rcases hm.entry x with heq | hgone
    · exact hm'.freed x p (heq.trans hp) hnone
    · -- freed by the first step, and not owned in between
      rw [hm'.kept p (Nat.lt_of_lt_of_le (hown.lt_made hp) hm.made), hm.freed x p hp hgone]
      intro y hy
      have hyx := hown.inj y x p (hm.of_some hy) hp
      rw [hyx, hgone] at hy
      exact absurd hy (by simp)
  · rw [hm'.kept p (Nat.lt_of_lt_of_le hp hm.made) fun x hx => hall x (hm.of_some hx)]
    exact hm.kept p hp fun x hx => hm'.of_some (hall x hx)

theorem Moves.mono (hm : Moves i m m') (hk : k ≤ i) : Moves k m m' :=
  ⟨hm.made, fun x hx => hm.low x (by omega), hm.entry, hm.freed, hm.kept⟩

/-- An entry that is still there owns its string as before. -/
theorem Moves.block (hown : Own m) (hm : Moves i m m') (hp : m'.tokens j = some p) :
    m'.heap.block p = m.heap.block p := by
  have hold := hm.of_some hp
  refine hm.kept p (hown.lt_made hold) fun y hy => ?_
  rw [hown.inj y j p hy hold, hp]

theorem Moves.own (hown : Own m) (hm : Moves i m m') : Own m' := by
  refine ⟨fun x p hp => ?_, fun x y p hx hy => hown.inj x y p (hm.of_some hx) (hm.of_some hy)⟩
  obtain ⟨t, ht⟩ := hown.live x p (hm.of_some hp)
  exact ⟨t, (text_congr (hm.block hown hp)).trans ht⟩

theorem Moves.texts (hown : Own m) (hm : Moves i m m') (hp : m'.tokens j = some p) :
    m'.texts j = m.texts j := by
  unfold Mem.texts
  rw [hp, hm.of_some hp]
  exact text_congr (hm.block hown hp)

/-- A block made since is owned by no entry. -/
theorem Moves.unowned (hown : Own m) (hm : Moves i m m') (hq : m.heap.made ≤ q) (x : ℕ) :
    m'.tokens x ≠ some q := by
  intro hx
  exact Nat.not_lt_of_le hq (hown.lt_made (hm.of_some hx))

/-- What happens to blocks made since does not matter. -/
theorem Moves.heap (hown : Own m) (hm : Moves i m m') (hmade : m'.heap.made ≤ h'.made)
    (hkept : ∀ p < m.heap.made, h'.block p = m'.heap.block p) : Moves i m ⟨h', m'.tokens⟩ := by
  refine ⟨Nat.le_trans hm.made hmade, hm.low, hm.entry, fun x p hp hnone => ?_, fun p hp hall => ?_⟩
  · show h'.block p = none
    rw [hkept p (hown.lt_made hp)]
    exact hm.freed x p hp hnone
  · show h'.block p = m.heap.block p
    rw [hkept p hp]
    exact hm.kept p hp hall

theorem Moves.texts_heap (hown : Own m) (hm : Moves i m m')
    (hkept : ∀ p < m.heap.made, h'.block p = m'.heap.block p) :
    (Mem.mk h' m'.tokens).texts = m'.texts := by
  funext x
  unfold Mem.texts
  dsimp only
  cases hp : m'.tokens x with
  | none => rw [Option.bind_none, Option.bind_none]
  | some p =>
    rw [Option.bind_some, Option.bind_some]
    exact text_congr (hkept p (hown.lt_made (hm.of_some hp)))

/-- **An entry is freed.** -/
theorem drop_spec (hown : Own m) (i : ℕ) : ∃ m', m.drop i = .ok m' ∧ Moves i m m' ∧
    m'.tokens i = none ∧ m'.texts = clear m.texts i := by
  unfold Mem.drop
  cases hp : m.tokens i with
  | none =>
    refine ⟨m, rfl, Moves.refl i m, hp, ?_⟩
    unfold clear
    rw [← texts_none hp, Function.update_eq_self]
  | some p =>
    obtain ⟨t, ht⟩ := hown.live i p hp
    obtain ⟨size, hblock⟩ := block_of_text ht
    obtain ⟨h', hfree, hmade, hnone, hother⟩ := Heap.free_block hblock
    have hmoves : Moves i m ⟨h', Function.update m.tokens i none⟩ := by
      refine ⟨Nat.le_of_eq hmade.symm, fun x hx => Function.update_of_ne (by omega) .., fun x => ?_,
        fun x q hq hgone => ?_, fun q hq hall => hother q ?_⟩
      · by_cases hx : x = i
        · subst hx
          exact Or.inr (Function.update_self ..)
        · exact Or.inl (Function.update_of_ne hx ..)
      · by_cases hx : x = i
        · subst hx
          obtain rfl := Option.some.inj (hp.symm.trans hq)
          exact hnone
        · rw [show (Mem.mk h' (Function.update m.tokens i none)).tokens x = m.tokens x from
            Function.update_of_ne hx .., hq] at hgone
          exact absurd hgone (by simp)
      · rintro rfl
        have := hall i hp
        simp at this
    refine ⟨⟨h', Function.update m.tokens i none⟩, ?_, hmoves, Function.update_self .., ?_⟩
    · simp only [hfree, must, ok_bind]
      rfl
    · funext x
      by_cases hx : x = i
      · rw [hx, clear, Function.update_self]
        exact texts_none (Function.update_self ..)
      · rw [clear, Function.update_of_ne hx]
        cases hq : m.tokens x with
        | none =>
          rw [texts_none hq]
          exact texts_none (hmoves.of_none hq)
        | some q =>
          exact hmoves.texts hown ((Function.update_of_ne hx ..).trans hq)

/-! ### The array of words -/

/-- **`strcpy`** changes one block, if the string fits. -/
theorem strcpy_fits {h : Heap Block} {size : ℕ} {r : Option Text}
    (hq : h.block q = some (.str size r)) (hfit : t.length < size) : ∃ h', strcpy q t h = .ok h' ∧
      h'.made = h.made ∧ h'.block q = some (.str size (some t)) ∧
        ∀ p, p ≠ q → h'.block p = h.block p := by
  obtain ⟨h', hwrite, hspec⟩ := Heap.write_block (b := .str size (some t)) hq
  refine ⟨h', ?_, hspec⟩
  unfold strcpy
  simp only [hq]
  rw [if_pos hfit, hwrite]
  rfl

theorem strcpy_full {h : Heap Block} {size : ℕ} {r : Option Text}
    (hq : h.block q = some (.str size r)) (hfull : ¬ t.length < size) :
    strcpy q t h = .error .overflow := by
  unfold strcpy
  simp only [hq]
  exact if_neg hfull

/-- **An entry of an array** is set. -/
theorem setEntry_fits {h : Heap Block} {size : ℕ} {entry : ℕ → Option Ptr} (r : Option Ptr)
    (harr : h.block newcmd = some (.arr size entry)) (hj : j < size) :
    ∃ h', setEntry newcmd j r h = .ok h' ∧ h'.made = h.made ∧
      h'.block newcmd = some (.arr size (Function.update entry j r)) ∧
        ∀ p, p ≠ newcmd → h'.block p = h.block p := by
  obtain ⟨h', hwrite, hspec⟩ :=
    Heap.write_block (b := .arr size (Function.update entry j r)) harr
  refine ⟨h', ?_, hspec⟩
  unfold setEntry
  simp only [harr]
  rw [if_pos hj, hwrite]
  rfl

/-- **The array** that `scan_redirect` fills: each word in a block of its own. -/
structure Argv (now : Moment) (h : Heap Block) (newcmd : Ptr) (qs : List (Ptr × Text)) : Prop where
  array : h.block newcmd = some (.arr (TOKENSZ + 1) fun k => (qs[k]?).map Prod.fst)
  copy : ∀ q ∈ qs, h.block q.1 = some (.str (now.ptrSize + 1) (some q.2)) ∧
    q.2.length ≤ now.ptrSize
  nodup : (qs.map Prod.fst).Nodup

/-- `scan_redirect` after some words: the array and the copies are new. -/
structure Scan (now : Moment) (b : ℕ) (m₀ m : Mem) (newcmd : Ptr) (qs : List (Ptr × Text)) : Prop where
  moves : Moves b m₀ m
  argv : Argv now m.heap newcmd qs
  new : m₀.heap.made ≤ newcmd
  news : ∀ q ∈ qs, m₀.heap.made ≤ q.1

/-- The array stays when an entry is freed. -/
theorem Scan.drop (hown : Own m₀) (hs : Scan now b m₀ m newcmd qs) (hi : b ≤ i) :
    ∃ m', m.drop i = .ok m' ∧ Scan now b m₀ m' newcmd qs ∧ m'.texts = clear m.texts i := by
  obtain ⟨m', hdrop, hmoves, -, htexts⟩ := drop_spec (hs.moves.own hown) i
  have hsame : ∀ q, m₀.heap.made ≤ q → q < m.heap.made → m'.heap.block q = m.heap.block q := by
    intro q hq hlt
    exact hmoves.kept q hlt fun x hx => absurd hx (hs.moves.unowned hown hq x)
  refine ⟨m', hdrop, ⟨hs.moves.trans hown (hmoves.mono hi), ⟨?_, fun q hq => ?_, hs.argv.nodup⟩,
    hs.new, hs.news⟩, htexts⟩
  · rw [hsame newcmd hs.new (Heap.lt_made hs.argv.array)]
    exact hs.argv.array
  · rw [hsame q.1 (hs.news q hq) (Heap.lt_made (hs.argv.copy q hq).1)]
    exact hs.argv.copy q hq

/-- A block of `sizeof(char *) + 1` bytes is put into the array. -/
theorem Argv.setEntry (ha : Argv now m.heap newcmd qs) (hj : qs.length ≤ TOKENSZ) :
    ∃ h', setEntry newcmd qs.length (some m.heap.made)
        (m.heap.malloc (.str (now.ptrSize + 1) none)).2 = .ok h' ∧
      h'.made = m.heap.made + 1 ∧
      h'.block newcmd = some (.arr (TOKENSZ + 1)
        (Function.update (fun k => (qs[k]?).map Prod.fst) qs.length (some m.heap.made))) ∧
      h'.block m.heap.made = some (.str (now.ptrSize + 1) none) ∧
      ∀ q, q ≠ newcmd → q ≠ m.heap.made → h'.block q = m.heap.block q := by
  have hne : newcmd ≠ m.heap.made := Nat.ne_of_lt (Heap.lt_made ha.array)
  have harr := (Heap.malloc_block (b := .str (now.ptrSize + 1) none) hne).trans ha.array
  obtain ⟨h', hset, hmade, hself, hother⟩ :=
    setEntry_fits (j := qs.length) (some m.heap.made) harr (by omega)
  refine ⟨h', hset, hmade, hself, ?_, fun q hq hqm => ?_⟩
  · rw [hother _ hne.symm, Heap.malloc_block_self]
  · rw [hother q hq, Heap.malloc_block hqm]

/-- One more pointer. -/
theorem update_entries (qs : List (Ptr × Text)) (p : Ptr) (t : Text) :
    Function.update (fun k => (qs[k]?).map Prod.fst) qs.length (some p) =
      fun k => ((qs ++ [(p, t)])[k]?).map Prod.fst := by
  funext k
  by_cases hk : k = qs.length
  · rw [hk, Function.update_self, List.getElem?_concat_length]
    rfl
  · rw [Function.update_of_ne hk]
    rcases Nat.lt_or_gt_of_ne hk with hlt | hgt
    · rw [List.getElem?_append_left hlt]
    · rw [List.getElem?_eq_none (by omega), List.getElem?_eq_none (by simp; omega)]

/-- **A word is copied**, if it fits. -/
theorem Scan.copy (hown : Own m₀) (hs : Scan now b m₀ m newcmd qs) (hj : qs.length ≤ TOKENSZ)
    (hfit : t.length ≤ now.ptrSize) : ∃ h', copyTo now newcmd qs.length t m.heap = .ok h' ∧
      Scan now b m₀ ⟨h', m.tokens⟩ newcmd (qs ++ [(m.heap.made, t)]) ∧
      (Mem.mk h' m.tokens).texts = m.texts := by
  obtain ⟨h₁, hset, hmade₁, harr, hnew, hother₁⟩ := hs.argv.setEntry hj
  obtain ⟨h', hcopy, hmade, hself, hother⟩ := strcpy_fits (t := t) hnew (by omega)
  have hlt := Heap.lt_made hs.argv.array
  have hle := hs.moves.made
  have hsame : ∀ q, q ≠ newcmd → q ≠ m.heap.made → h'.block q = m.heap.block q := by
    intro q hq hqm
    rw [hother q hqm, hother₁ q hq hqm]
  have hold : ∀ p < m₀.heap.made, h'.block p = m.heap.block p := fun p hp =>
    hsame p (Nat.ne_of_lt (Nat.lt_of_lt_of_le hp hs.new)) (Nat.ne_of_lt (Nat.lt_of_lt_of_le hp hle))
  have hmoves : Moves b m₀ ⟨h', m.tokens⟩ :=
    hs.moves.heap hown (by rw [hmade, hmade₁]; omega) hold
  refine ⟨h', ?_, ⟨hmoves, ⟨?_, ?_, ?_⟩, hs.new, ?_⟩, ?_⟩
  · unfold copyTo
    dsimp only [Heap.fst_malloc]
    rw [hset]
    exact hcopy
  · rw [hother newcmd (Nat.ne_of_lt hlt), harr, update_entries]
  · intro q hq
    rcases List.mem_append.mp hq with hq | hq
    · have hcopy := hs.argv.copy q hq
      refine ⟨?_, hcopy.2⟩
      rw [hsame q.1 ?_ (Nat.ne_of_lt (Heap.lt_made hcopy.1)), hcopy.1]
      intro heq
      have harray := hs.argv.array
      rw [← heq, hcopy.1] at harray
      exact absurd harray (by simp)
    · rw [List.mem_singleton.mp hq]
      exact ⟨hself, hfit⟩
  · rw [List.map_append, List.nodup_append]
    refine ⟨hs.argv.nodup, by simp, fun p hp r hr => ?_⟩
    obtain ⟨q, hq, rfl⟩ := List.mem_map.mp hp
    obtain rfl : r = m.heap.made := by simpa using hr
    exact Nat.ne_of_lt (Heap.lt_made (hs.argv.copy q hq).1)
  · intro q hq
    rcases List.mem_append.mp hq with hq | hq
    · exact hs.news q hq
    · rw [List.mem_singleton.mp hq]
      exact hle
  · exact hs.moves.texts_heap hown hold

/-- A word that does not fit. -/
theorem Scan.overflow (hs : Scan now b m₀ m newcmd qs) (hj : qs.length ≤ TOKENSZ)
    (hfit : ¬ t.length ≤ now.ptrSize) :
    copyTo now newcmd qs.length t m.heap = .error .overflow := by
  obtain ⟨h₁, hset, -, -, hnew, -⟩ := hs.argv.setEntry hj
  unfold copyTo
  dsimp only [Heap.fst_malloc]
  rw [hset]
  exact strcpy_full hnew (by omega)

/-! ### Redirection -/

theorem entry_alike (m : Mem) (i : ℕ) :
    Alike (fun q r => i < TOKENSZ ∧ q = m.tokens i ∧ r = m.texts i) (m.entry i)
      (entry m.texts i) := by
  unfold Mem.entry entry
  by_cases hi : i < TOKENSZ
  · rw [if_pos hi, if_pos hi]
    exact ⟨hi, rfl, rfl⟩
  · rw [if_neg hi, if_neg hi]
    exact rfl

theorem name_eq (hown : Own m) (i : ℕ) : m.name (m.tokens i) = .ok (m.texts i) := by
  cases hp : m.tokens i with
  | none => rw [texts_none hp, Mem.name]
  | some p =>
    obtain ⟨t, ht, htexts⟩ := hown.texts hp
    rw [htexts]
    simp [Mem.name, ht, must, pure, Except.pure]

/-- What the two loops return. -/
def ScanAlike (now : Moment) (b : ℕ) (m₀ : Mem) (newcmd : Ptr) (r : ℕ × Mem × Table Kind)
    (r' : List Text × (ℕ → Option Text) × Table Kind) : Prop :=
  ∃ qs, Scan now b m₀ r.2.1 newcmd qs ∧ qs.length < TOKENSZ ∧ r.1 = qs.length ∧
    r'.1 = qs.map Prod.snd ∧ r'.2.1 = r.2.1.texts ∧ r'.2.2 = r.2.2

/-- **The loop of `scan_redirect`** with the heap. -/
theorem scanLoop_alike (hown : Own m₀) (hs : Scan now b m₀ m newcmd qs) (hb : b ≤ i)
    (hj : qs.length ≤ i) : Alike (ScanAlike now b m₀ newcmd)
      (scanLoop now newcmd n i qs.length m T)
      (Commands.scanLoop now n i (qs.map Prod.snd) m.texts T) := by
  induction n generalizing i m qs T with
  | zero => exact rfl
  | succ n ih =>
    have hown' := hs.moves.own hown
    unfold scanLoop Commands.scanLoop
    refine (entry_alike m i).bind ?_
    rintro q r ⟨hi, rfl, rfl⟩
    cases hp : m.tokens i with
    | none =>
      rw [texts_none hp]
      exact ⟨qs, hs, by omega, rfl, rfl, rfl, rfl⟩
    | some p =>
      obtain ⟨t, ht, htexts⟩ := hown'.texts hp
      simp only [htexts, ht, must, ok_bind]
      -- both operators: the file is opened, and two entries are freed
      have hredir : ∀ fd mode, Alike (ScanAlike now b m₀ newcmd)
          (m.entry (i + 1) >>= fun q => m.name q >>= fun operand => reopen now fd mode operand T >>=
            fun T => m.drop i >>= fun m => m.drop (i + 1) >>= fun m =>
              scanLoop now newcmd n (i + 2) qs.length m T)
          (entry m.texts (i + 1) >>= fun operand => reopen now fd mode operand T >>= fun T =>
            Commands.scanLoop now n (i + 2) (qs.map Prod.snd)
              (clear (clear m.texts i) (i + 1)) T) := by
        intro fd mode
        refine (entry_alike m (i + 1)).bind ?_
        rintro q r ⟨-, rfl, rfl⟩
        rw [name_eq hown', ok_bind]
        cases reopen now fd mode (m.texts (i + 1)) T with
        | error e => exact rfl
        | ok T' =>
          obtain ⟨m₁, hdrop₁, hs₁, htexts₁⟩ := hs.drop hown hb
          obtain ⟨m₂, hdrop₂, hs₂, htexts₂⟩ := hs₁.drop (i := i + 1) hown (by omega)
          simp only [ok_bind, hdrop₁, hdrop₂]
          rw [← htexts₁, ← htexts₂]
          exact ih hs₂ (by omega) (by omega)
      by_cases hin : t = ['<']
      · rw [if_pos hin, if_pos hin]
        exact hredir 0 .r
      · rw [if_neg hin, if_neg hin]
        by_cases hout : t = ['>']
        · rw [if_pos hout, if_pos hout]
          exact hredir 1 .w
        · rw [if_neg hout, if_neg hout]
          unfold copyWord
          by_cases hfit : t.length ≤ now.ptrSize
          · obtain ⟨h', hcopy, hs₁, htexts₁⟩ := hs.copy hown (by omega) hfit
            obtain ⟨m₂, hdrop₂, hs₂, htexts₂⟩ := hs₁.drop (i := i) hown hb
            rw [if_pos hfit, hcopy]
            simp only [ok_bind, hdrop₂]
            rw [← htexts₁, ← htexts₂]
            have := ih (T := T) hs₂ (i := i + 1) (by omega) (by simp; omega)
            simpa using this
          · rw [if_neg hfit, hs.overflow (by omega) hfit]
            exact rfl

/-- `newcmd[j+1] = 0` changes nothing, for `calloc` has cleared the array. -/
theorem Argv.terminate (ha : Argv now m.heap newcmd qs) (hj : qs.length < TOKENSZ) :
    ∃ h', Ownership.setEntry newcmd (qs.length + 1) none m.heap = .ok h' ∧
      h'.made = m.heap.made ∧ ∀ q, h'.block q = m.heap.block q := by
  have hsame : Function.update (fun k => (qs[k]?).map Prod.fst) (qs.length + 1) none =
      fun k => (qs[k]?).map Prod.fst := by
    refine Function.update_eq_self_iff.mpr ?_
    rw [List.getElem?_eq_none (by omega), Option.map_none]
  obtain ⟨h', hset, hmade, hself, hother⟩ :=
    setEntry_fits (j := qs.length + 1) none ha.array (by omega)
  refine ⟨h', hset, hmade, fun q => ?_⟩
  by_cases hq : q = newcmd
  · rw [hq, hself, hsame, ha.array]
  · exact hother q hq

/-- What `scan_redirect` returns: the array, which holds the words `qs`, and what it has made of the
memory and of the descriptors. -/
def RedirectAlike (now : Moment) (b : ℕ) (m : Mem) (r : Ptr × Mem × Table Kind)
    (r' : List Text × (ℕ → Option Text) × Table Kind) : Prop :=
  ∃ qs, Scan now b m r.2.1 r.1 qs ∧ qs.length < TOKENSZ ∧ r'.1 = qs.map Prod.snd ∧
    r'.2.1 = r.2.1.texts ∧ r'.2.2 = r.2.2

/-- **`scan_redirect`** with the heap. -/
theorem scanRedirect_alike (hown : Own m) (b : ℕ) (T : Table Kind) :
    Alike (RedirectAlike now b m) (scanRedirect now b m T)
      (Commands.scanRedirect now b m.texts T) := by
  have hold : ∀ p < m.heap.made,
      (m.heap.malloc (.arr (TOKENSZ + 1) fun _ => none)).2.block p = m.heap.block p := fun p hp =>
    Heap.malloc_block (Nat.ne_of_lt hp)
  have hmoves := (Moves.refl b m).heap hown (Nat.le_succ _) hold
  have htexts := (Moves.refl b m).texts_heap hown hold
  have hs : Scan now b m ⟨(m.heap.malloc (.arr (TOKENSZ + 1) fun _ => none)).2, m.tokens⟩
      m.heap.made [] :=
    ⟨hmoves, ⟨Heap.malloc_block_self, nofun, List.nodup_nil⟩, Nat.le_refl _, nofun⟩
  have hloop := scanLoop_alike (n := TOKENSZ + 1) (T := T) hown hs (Nat.le_refl b) (Nat.zero_le b)
  rw [htexts] at hloop
  unfold scanRedirect Commands.scanRedirect
  rw [← bind_pure (Commands.scanLoop now (TOKENSZ + 1) b [] m.texts T)]
  refine hloop.bind ?_
  rintro ⟨j, m', T'⟩ ⟨argv, τ, T''⟩ ⟨qs, hs', hlt, hj, hargv, hτ, hT⟩
  dsimp only at hs' hj hargv hτ hT
  subst hj hargv hτ hT
  obtain ⟨h', hset, hmade, hsame⟩ := hs'.argv.terminate hlt
  simp only [hset, ok_bind]
  refine ⟨qs, ⟨hs'.moves.heap hown (Nat.le_of_eq hmade.symm) fun p _ => hsame p, ⟨?_, ?_,
    hs'.argv.nodup⟩, hs'.new, hs'.news⟩, hlt, rfl, ?_, rfl⟩
  · exact (hsame m.heap.made).trans hs'.argv.array
  · exact fun q hq => ⟨(hsame q.1).trans (hs'.argv.copy q hq).1, (hs'.argv.copy q hq).2⟩
  · exact (hs'.moves.texts_heap hown fun p _ => hsame p).symm

/-- What a call of `scan_redirect` has done that comes back. -/
theorem scanRedirect_returned {r : Ptr × Mem × Table Kind} (hown : Own m)
    (h : scanRedirect now b m T = .ok r) : ∃ qs, Scan now b m r.2.1 r.1 qs := by
  have halike : Alike (RedirectAlike now b m) (scanRedirect now b m T)
      (Commands.scanRedirect now b m.texts T) := scanRedirect_alike hown b T
  rw [h] at halike
  obtain ⟨r', -, qs, hs, -⟩ := halike.ok_of
  exact ⟨qs, hs⟩

/-- **The words that a command finds** in the array. -/
theorem readArgv_eq {h : Heap Block} (ha : Argv now h newcmd qs) (hlt : qs.length < TOKENSZ) :
    readArgv newcmd h = .ok (qs.map Prod.snd) := by
  have hread : ∀ n j, qs.length - j < n →
      strings h (fun k => (qs[k]?).map Prod.fst) n j = .ok ((qs.drop j).map Prod.snd) := by
    intro n
    induction n with
    | zero => intro j hj; omega
    | succ n ih =>
      intro j hj
      unfold strings
      by_cases hlen : j < qs.length
      · have hcopy := ha.copy qs[j] (List.getElem_mem hlen)
        have htext : text h qs[j].1 = some qs[j].2 := by
          unfold text
          rw [hcopy.1]
        rw [List.getElem?_eq_getElem hlen, Option.map_some, List.drop_eq_getElem_cons hlen]
        simp only [htext, must, ok_bind, ih (j + 1) (by omega)]
        rfl
      · rw [List.getElem?_eq_none (by omega), List.drop_eq_nil_of_le (by omega)]
        rfl
  unfold readArgv
  simp only [ha.array]
  exact hread (TOKENSZ + 1) 0 (by omega)

/-! ### Commands -/

theorem alike_eq {ε α : Type} {r r' : Except ε α} (h : Alike Eq r r') : r = r' := by
  cases r with
  | ok v =>
    cases r' with
    | ok w => exact congrArg _ h
    | error e => exact h.elim
  | error e =>
    cases r' with
    | ok w => exact h.elim
    | error e' => exact congrArg _ h

theorem alike_logged {α β : Type} {Q : α → β → Prop} {r : Except Stop α} {r' : Except Stop β}
    (log : List Event) (h : Alike Q r r') : Alike Q (logged log r) (logged log r') := by
  cases r with
  | ok v =>
    cases r' with
    | ok w => exact h
    | error e => exact h.elim
  | error e =>
    cases r' with
    | ok w => exact h.elim
    | error e' => exact congrArg (Halt.mk · log) h

variable {prefd postfd : Option Pipefd} {bg : Bool} {s s' : Machine} {c : Mysh}

/-- A child finds the words of its command. -/
theorem child_eq (hown : Own m) : child now b prefd postfd m T =
    Commands.child now b prefd postfd m.texts T := by
  refine alike_eq ?_
  unfold child Commands.child
  refine (scanRedirect_alike hown b _).bind ?_
  rintro ⟨newcmd, m', T'⟩ ⟨argv, τ, T''⟩ ⟨qs, hs, hlt, hargv, hτ, hT⟩
  dsimp only at hs hargv hτ hT ⊢
  subst hargv hτ hT
  rw [readArgv_eq hs.argv hlt, ok_bind]
  cases qs with
  | nil => exact rfl
  | cons q qs => exact rfl

/-- **The shell with its heap and the one whose entries are the strings.** -/
structure Sim (s : Machine) (c : Mysh) : Prop where
  own : Own s.mem
  tokens : c.tokens = s.mem.texts
  tokCnt : c.tokCnt = s.tokCnt
  core : c.core = s.core

/-- The shell whose entries are the strings of this one. -/
def mysh (s : Machine) : Mysh := ⟨s.mem.texts, s.tokCnt, fun _ => none, s.core⟩

theorem sim_mysh (hown : Own s.mem) : Sim s (mysh s) := ⟨hown, rfl, rfl, rfl⟩

/-- **`do_simple_cmd`** with the heap. -/
theorem doSimpleCmd_alike (h : Sim s c) : Alike (fun s' c' => Sim s' c' ∧ Moves b s.mem s'.mem)
    (doSimpleCmd env b prefd postfd bg s) (Commands.doSimpleCmd env b prefd postfd bg c) := by
  obtain ⟨tokens, tokCnt, buf, core⟩ := c
  obtain ⟨hown, rfl, rfl, rfl⟩ := h
  unfold doSimpleCmd Commands.doSimpleCmd
  dsimp only
  refine (alike_logged _ (entry_alike s.mem b)).bind ?_
  rintro q r ⟨-, rfl, rfl⟩
  cases hp : s.mem.tokens b with
  | none =>
    rw [texts_none hp]
    exact rfl
  | some p =>
    obtain ⟨t, ht, htexts⟩ := hown.texts hp
    simp only [htexts, ht, must, logged_ok, ok_bind]
    cases getCmdHandle t with
    | some hd =>
      dsimp only
      refine (alike_logged _ (scanRedirect_alike hown b _)).bind ?_
      rintro ⟨newcmd, m', T'⟩ ⟨argv, τ, T''⟩ ⟨qs, hs, hlt, hargv, hτ, hT⟩
      dsimp only at hs hargv hτ hT ⊢
      subst hargv hτ hT
      rw [readArgv_eq hs.argv hlt]
      simp only [logged_ok, ok_bind]
      cases hd (qs.map Prod.snd) with
      | error e => exact rfl
      | ok v => exact ⟨⟨hs.moves.own hown, rfl, rfl, rfl⟩, hs.moves⟩
    | none =>
      dsimp only
      rw [child_eq hown]
      by_cases hfork : env.forks s.core.forked = true
      · simp only [Core.forked_add, hfork, if_true]
        exact ⟨⟨hown, rfl, rfl, rfl⟩, Moves.refl b s.mem⟩
      · simp only [Core.forked_add, hfork]
        exact rfl

/-- A separator is freed. -/
theorem Sim.drop (h : Sim s c) (i : ℕ) : ∃ m', s.mem.drop i = .ok m' ∧ Moves i s.mem m' ∧
    m'.tokens i = none ∧ ∀ core, Sim { s with mem := m', core := core }
      { c with tokens := clear c.tokens i, core := core } := by
  obtain ⟨m', hdrop, hmoves, hnone, htexts⟩ := drop_spec h.own i
  exact ⟨m', hdrop, hmoves, hnone, fun core =>
    ⟨hmoves.own h.own, (congrArg (clear · i) h.tokens).trans htexts.symm, h.tokCnt, rfl⟩⟩

/-- What two calls of the shell come to, if they change nothing before entry `i`. -/
def SimFrom (i : ℕ) (s : Machine) : Except Halt Machine → Except Halt Mysh → Prop :=
  Alike fun s' c' => Sim s' c' ∧ Moves i s.mem s'.mem

/-- One call after another. -/
theorem SimFrom.bind {r : Except Halt Machine} {r' : Except Halt Mysh}
    {f : Machine → Except Halt Machine} {g : Mysh → Except Halt Mysh} (hown : Own s.mem)
    (h : SimFrom i s r r') (hi : k ≤ i)
    (hf : ∀ s' c', Sim s' c' → Moves i s.mem s'.mem → SimFrom k s' (f s') (g c')) :
    SimFrom k s (r >>= f) (r' >>= g) := by
  refine Alike.bind h fun s' c' ⟨hsim, hmoves⟩ => ?_
  exact (hf s' c' hsim hmoves).mono fun s'' c'' ⟨hsim', hmoves'⟩ =>
    ⟨hsim', (hmoves.mono hi).trans hown hmoves'⟩

/-- What came before the calls. -/
theorem SimFrom.after {r : Except Halt Machine} {r' : Except Halt Mysh}
    (core : Core) (hown : Own s.mem) (hm : Moves i s.mem m')
    (h : SimFrom i { s with mem := m', core := core } r r') : SimFrom i s r r' :=
  h.mono fun _ _ ⟨hsim, hmoves⟩ => ⟨hsim, hm.trans hown hmoves⟩

/-- What a call that comes back has done. -/
theorem SimFrom.returned {r : Except Halt Machine} {r' : Except Halt Mysh} (h : SimFrom i s r r')
    (hr : r = .ok s') : Own s'.mem ∧ Moves i s.mem s'.mem := by
  rw [hr] at h
  obtain ⟨c', -, hsim, hmoves⟩ := Alike.ok_of h
  exact ⟨hsim.own, hmoves⟩

/-- **The loop of `do_pipe_cmd`** with the heap. -/
theorem pipeLoop_alike (h : Sim s c) (hj : j ≤ i) : SimFrom (b + j) s
    (pipeLoop env b bg n i j prefd s) (Commands.pipeLoop env b bg n i j prefd c) := by
  induction n generalizing i j prefd s c with
  | zero => exact congrArg (Halt.mk .crash ·.log) h.core.symm
  | succ n ih =>
    obtain ⟨tokens, tokCnt, buf, core⟩ := c
    obtain ⟨hown, rfl, rfl, rfl⟩ := id h
    unfold pipeLoop Commands.pipeLoop
    refine (alike_logged _ (entry_alike s.mem (b + i))).bind ?_
    rintro q r ⟨-, rfl, rfl⟩
    cases hp : s.mem.tokens (b + i) with
    | none =>
      rw [texts_none hp]
      exact doSimpleCmd_alike h
    | some p =>
      obtain ⟨t, ht, htexts⟩ := hown.texts hp
      simp only [htexts, ht, must, logged_ok, ok_bind]
      by_cases hbar : t = ['|']
      · obtain ⟨m', hdrop, hmoves, -, hsim⟩ := h.drop (b + i)
        rw [if_pos hbar, if_pos hbar, hdrop]
        simp only [logged_ok, ok_bind]
        refine SimFrom.after s.core.pipe.2 hown (hmoves.mono (by omega)) ?_
        refine SimFrom.bind (hmoves.own hown) (doSimpleCmd_alike (hsim s.core.pipe.2))
          (Nat.le_refl _) fun s' c' hs' _ => ?_
        exact (ih hs' (Nat.le_refl _)).mono fun _ _ h' => ⟨h'.1, h'.2.mono (by omega)⟩
      · rw [if_neg hbar, if_neg hbar]
        exact ih h (by omega)

theorem doPipeCmd_alike (env : Env) (b : ℕ) (bg : Bool) (h : Sim s c) :
    SimFrom b s (doPipeCmd env b bg s) (Commands.doPipeCmd env b bg c) :=
  pipeLoop_alike (j := 0) h (Nat.le_refl 0)

/-- **The loop of `do_list_cmd`** with the heap. -/
theorem listLoop_alike (h : Sim s c) (hj : j ≤ i) :
    SimFrom j s (listLoop env n i j s) (Commands.listLoop env n i j c) := by
  induction n generalizing i j s c with
  | zero => exact congrArg (Halt.mk .crash ·.log) h.core.symm
  | succ n ih =>
    obtain ⟨tokens, tokCnt, buf, core⟩ := c
    obtain ⟨hown, rfl, rfl, rfl⟩ := id h
    unfold listLoop Commands.listLoop
    refine (alike_logged _ (entry_alike s.mem i)).bind ?_
    rintro q r ⟨-, rfl, rfl⟩
    cases hp : s.mem.tokens i with
    | none =>
      rw [texts_none hp]
      exact ⟨⟨hown, rfl, rfl, rfl⟩, Moves.refl j s.mem⟩
    | some p =>
      obtain ⟨t, ht, htexts⟩ := hown.texts hp
      obtain ⟨m', hdrop, hmoves, -, hsim⟩ := h.drop i
      simp only [htexts, ht, must, logged_ok, ok_bind, hdrop]
      -- the separator is freed, and the pipeline before it is run if there is one
      have hpiece : ∀ bg, SimFrom j s
          (if j ≠ i then doPipeCmd env j bg { s with mem := m' } >>= listLoop env n (i + 1) (i + 1)
            else listLoop env n (i + 1) (i + 1) { s with mem := m' })
          (if j ≠ i then
            Commands.doPipeCmd env j bg ⟨clear s.mem.texts i, s.tokCnt, buf, s.core⟩ >>=
              Commands.listLoop env n (i + 1) (i + 1)
            else Commands.listLoop env n (i + 1) (i + 1)
              ⟨clear s.mem.texts i, s.tokCnt, buf, s.core⟩) := by
        intro bg
        have hrest : ∀ s' c', Sim s' c' → SimFrom j s' (listLoop env n (i + 1) (i + 1) s')
            (Commands.listLoop env n (i + 1) (i + 1) c') := fun s' c' hs' =>
          (ih hs' (Nat.le_refl _)).mono fun _ _ h' => ⟨h'.1, h'.2.mono (by omega)⟩
        refine SimFrom.after s.core hown (hmoves.mono hj) ?_
        by_cases hne : j ≠ i
        · rw [if_pos hne, if_pos hne]
          exact SimFrom.bind (hmoves.own hown) (doPipeCmd_alike env j bg (hsim s.core))
            (Nat.le_refl _) fun s' c' hs' _ => hrest s' c' hs'
        · rw [if_neg hne, if_neg hne]
          exact hrest _ _ (hsim s.core)
      by_cases hseq : t = [';'] ∨ t = ['\n']
      · rw [if_pos hseq, if_pos hseq]
        exact hpiece false
      · rw [if_neg hseq, if_neg hseq]
        by_cases hamp : t = ['&']
        · rw [if_pos hamp, if_pos hamp]
          exact hpiece true
        · rw [if_neg hamp, if_neg hamp]
          exact ih h (by omega)

/-- **`do_list_cmd`** with the heap: it does what it does without, and frees a string only together
with the entry that owns it. -/
theorem doListCmd_alike (env : Env) (h : Sim s c) :
    SimFrom 0 s (doListCmd env s) (Commands.doListCmd env c) :=
  listLoop_alike h (Nat.le_refl 0)

end LinuxHomework.Shell.Ownership
