import LinuxHomework.Shell.Calls
import LinuxHomework.Shell.Lexer
import LinuxHomework.Shell.Ownership

/-! # What a line leaves in the heap

`do_list_cmd` ends with a remark that by then the tokens are all freed. The separators are. The
words of an external command are freed in its child alone; those of a built-in command are freed,
but not the array that its handler reads, nor the copies in it.

* `addToken_added`, `Filled.addToken`: what `add_token` puts into the heap.
* `doSimpleCmd_leaked`, `pipeLoop_leaked`, `listLoop_leaked`: what a command leaves is not freed
  later.
* `frees_all_iff`: a line leaves nothing if and only if there is no command in it.
* `not_frees_all`: `ls`. -/

namespace LinuxHomework.Shell.Leaks

open LinuxHomework.Lib.Blocks LinuxHomework.Lib.Buffer LinuxHomework.Lib.Outcome
open LinuxHomework.Shell.Calls LinuxHomework.Shell.Commands LinuxHomework.Shell.Parse
open LinuxHomework.Shell.Lexer (holds_of_begins)
open LinuxHomework.Shell.Ownership

/-! ### Lines -/

/-- The tokens of a line. -/
def addTokens (line : List Text) (s : Machine) : Except Stop Machine :=
  line.foldlM (fun s t => addToken t s) s

variable (env : Env)

/-- A line is read and run. -/
def readLine (ws : List Text) (s : Machine) : Except Halt Machine := do
  let s ← logged s.core.log (addTokens (ws ++ [['\n']]) s)
  doListCmd env s

/-- The shell at its start. -/
def start (core : Core) : Machine := ⟨⟨⟨fun _ => none, 0, fun _ _ => rfl⟩, fun _ => none⟩, 0, core⟩

/-- The lines that the shell has read until now. -/
def session (lines : List (List Text)) (s : Machine) : Except Halt Machine :=
  lines.foldlM (fun s ws => readLine env ws s) s

/-- **A line leaves nothing**: `do_list_cmd` comes back, having done nothing with a block that was
freed before, and then no block is there that was made for the line, be it by `add_token` or by
`scan_redirect`. -/
def FreesAll (s : Machine) (ws : List Text) : Prop :=
  ∃ s', readLine env ws s = .ok s' ∧ ∀ p, s.mem.heap.made ≤ p → s'.mem.heap.block p = none

variable {env} {m m' : Mem} {s s' : Machine} {b e i j k n : ℕ} {p : Ptr} {t : Text}
  {ts us ws : List Text}

/-! ### The tokens of a line -/

/-- **The line is read up to here**: its tokens are the strings that have been made since `k`, and
each of them is owned by its entry. -/
structure Filled (k : ℕ) (s : Machine) (ts : List Text) : Prop where
  own : Own s.mem
  tokCnt : s.tokCnt = ts.length
  begins : Begins s.mem.texts ts
  fits : ts ≠ [] → ts.length < TOKENSZ ∧ s.mem.tokens ts.length = none
  made : k ≤ s.mem.heap.made
  new : ∀ x < ts.length, ∀ p, s.mem.tokens x = some p → k ≤ p
  owned : ∀ p, k ≤ p → (s.mem.heap.block p).isSome → ∃ x < ts.length, s.mem.tokens x = some p

theorem filled_nil (hown : Own s.mem) (hcnt : s.tokCnt = 0) : Filled s.mem.heap.made s [] := by
  refine ⟨hown, hcnt, begins_nil, fun h => absurd rfl h, Nat.le_refl _, nofun, fun p hp hsome => ?_⟩
  rw [s.mem.heap.fresh p hp] at hsome
  exact absurd hsome (by simp)

/-- The string of a new token. -/
theorem strcpy_malloc (h : Heap Block) (t : Text) : ∃ h',
    strcpy h.made t (h.malloc (.str (t.length + 1) none)).2 = .ok h' ∧ h'.made = h.made + 1 ∧
      h'.block h.made = some (.str (t.length + 1) (some t)) ∧
        ∀ q, q ≠ h.made → h'.block q = h.block q := by
  obtain ⟨h', hcopy, hmade, hself, hother⟩ :=
    strcpy_fits (Heap.malloc_block_self (h := h)) (Nat.lt_succ_self t.length)
  exact ⟨h', hcopy, hmade, hself, fun q hq => (hother q hq).trans (Heap.malloc_block hq)⟩

/-- **One token more**, in entry `n`: its string is new, and the other strings are as they were. -/
structure Added (t : Text) (n : ℕ) (m m' : Mem) : Prop where
  made : m'.heap.made = m.heap.made + 1
  new : m'.tokens n = some m.heap.made
  null : m'.tokens (n + 1) = none
  old : ∀ x, x ≠ n → x ≠ n + 1 → m'.tokens x = m.tokens x
  text : text m'.heap m.heap.made = some t
  block : ∀ q, q ≠ m.heap.made → m'.heap.block q = m.heap.block q

/-- **`add_token`**, if there is room for the token. -/
theorem addToken_added (hroom : s.tokCnt + 1 < TOKENSZ) (t : Text) :
    ∃ m', addToken t s = .ok ⟨m', s.tokCnt + 1, s.core⟩ ∧ Added t s.tokCnt s.mem m' := by
  obtain ⟨h', hcopy, hmade, hself, hother⟩ := strcpy_malloc s.mem.heap t
  refine ⟨⟨h', Function.update (Function.update s.mem.tokens s.tokCnt (some s.mem.heap.made))
    (s.tokCnt + 1) none⟩, ?_, ⟨hmade, ?_, Function.update_self .., fun x hx hx' => ?_, ?_, hother⟩⟩
  · unfold addToken
    rw [if_pos (by omega), if_pos hroom]
    dsimp only [Heap.fst_malloc]
    rw [hcopy]
    rfl
  · exact (Function.update_of_ne (by omega) ..).trans (Function.update_self ..)
  · exact (Function.update_of_ne hx' ..).trans (Function.update_of_ne hx ..)
  · unfold text
    rw [hself]

/-- An entry is the new one, or it was there before. -/
theorem Added.entry (h : Added t n m m') (hown : Own m) (hp : m'.tokens i = some p) :
    (i = n ∧ p = m.heap.made) ∨
      (i ≠ n ∧ m.tokens i = some p ∧ m'.heap.block p = m.heap.block p) := by
  by_cases hi : i = n
  · rw [hi, h.new] at hp
    exact Or.inl ⟨hi, (Option.some.inj hp).symm⟩
  · have hi' : i ≠ n + 1 := by
      rintro rfl
      rw [h.null] at hp
      exact absurd hp (by simp)
    rw [h.old i hi hi'] at hp
    exact Or.inr ⟨hi, hp, h.block p (Nat.ne_of_lt (hown.lt_made hp))⟩

theorem Added.own (h : Added t n m m') (hown : Own m) : Own m' := by
  constructor
  · intro x p hp
    rcases h.entry hown hp with ⟨-, rfl⟩ | ⟨-, hp, hblock⟩
    · exact ⟨t, h.text⟩
    · obtain ⟨u, hu⟩ := hown.live x p hp
      exact ⟨u, (text_congr hblock).trans hu⟩
  · intro x y p hx hy
    rcases h.entry hown hx with ⟨hxn, hpx⟩ | ⟨-, hx, -⟩
    · rcases h.entry hown hy with ⟨hyn, -⟩ | ⟨-, hy, -⟩
      · rw [hxn, hyn]
      · exact absurd hpx (Nat.ne_of_lt (hown.lt_made hy))
    · rcases h.entry hown hy with ⟨-, hpy⟩ | ⟨-, hy, -⟩
      · exact absurd hpy (Nat.ne_of_lt (hown.lt_made hx))
      · exact hown.inj x y p hx hy

theorem Added.begins (h : Added t ts.length m m') (hown : Own m) (hb : Begins m.texts ts) :
    Begins m'.texts (ts ++ [t]) := by
  intro x hx
  rw [List.length_append, List.length_singleton] at hx
  unfold Mem.texts
  by_cases hxl : x = ts.length
  · rw [hxl, h.new, Option.bind_some, h.text, List.getElem?_concat_length]
  · rw [List.getElem?_append_left (by omega), ← hb x (by omega), h.old x hxl (by omega)]
    unfold Mem.texts
    cases hp : m.tokens x with
    | none => rfl
    | some p => exact text_congr (h.block p (Nat.ne_of_lt (hown.lt_made hp)))

/-- **The line is read up to the next token.** -/
theorem Filled.addToken (h : Filled k s ts) (hroom : ts.length + 1 < TOKENSZ) (t : Text) :
    ∃ s', addToken t s = .ok s' ∧ Filled k s' (ts ++ [t]) := by
  rw [← h.tokCnt] at hroom
  obtain ⟨m', hadd, hadded⟩ := addToken_added hroom t
  rw [h.tokCnt] at hroom hadd hadded
  have hlen : (ts ++ [t]).length = ts.length + 1 := by simp
  refine ⟨_, hadd, ⟨hadded.own h.own, hlen.symm, hadded.begins h.own h.begins, fun _ => ?_, ?_,
    fun x hx p hp => ?_, fun p hp hsome => ?_⟩⟩
  · rw [hlen]
    exact ⟨hroom, hadded.null⟩
  · rw [hadded.made]
    exact Nat.le_succ_of_le h.made
  · rw [hlen] at hx
    rcases hadded.entry h.own hp with ⟨-, rfl⟩ | ⟨hxl, hp, -⟩
    · exact h.made
    · exact h.new x (by omega) p hp
  · by_cases hpm : p = s.mem.heap.made
    · exact ⟨ts.length, by omega, hpm ▸ hadded.new⟩
    · rw [hadded.block p hpm] at hsome
      obtain ⟨x, hx, hxp⟩ := h.owned p hp hsome
      exact ⟨x, by omega, (hadded.old x (by omega) (by omega)).trans hxp⟩

/-- There is no room for a token. -/
theorem addToken_full (hcnt : TOKENSZ ≤ s.tokCnt + 1) : addToken t s ≠ .ok s' := by
  unfold addToken
  split_ifs
  · omega
  · simp
  · simp

/-- **The tokens of a line**, all of them. -/
theorem Filled.addTokens (h : Filled k s ts) (hrun : addTokens us s = .ok s') :
    Filled k s' (ts ++ us) := by
  induction us generalizing s ts with
  | nil =>
    obtain rfl := Except.ok.inj hrun
    rw [List.append_nil]
    exact h
  | cons t us ih =>
    unfold Leaks.addTokens at hrun
    rw [List.foldlM_cons] at hrun
    obtain ⟨s₁, hadd, hrun⟩ := bind_eq_ok.mp hrun
    by_cases hroom : ts.length + 1 < TOKENSZ
    · obtain ⟨s₂, hadd', hnext⟩ := h.addToken hroom t
      obtain rfl := Except.ok.inj (hadd.symm.trans hadd')
      have := ih hnext hrun
      rwa [List.append_assoc] at this
    · exact absurd hadd (addToken_full (by rw [h.tokCnt]; omega))

/-- **A line is read** if there is room for its tokens. -/
theorem Filled.addTokens_ok (h : Filled k s ts) (hroom : ts.length + us.length < TOKENSZ) :
    ∃ s', Leaks.addTokens us s = .ok s' := by
  induction us generalizing s ts with
  | nil => exact ⟨s, rfl⟩
  | cons t us ih =>
    simp only [List.length_cons] at hroom
    obtain ⟨s₁, hadd, hnext⟩ := h.addToken (by omega) t
    obtain ⟨s', hrun⟩ := ih hnext (by simp only [List.length_append, List.length_singleton]; omega)
    refine ⟨s', ?_⟩
    unfold Leaks.addTokens
    rw [List.foldlM_cons, hadd]
    exact hrun

/-! ### What a command leaves -/

/-- **A block is lost**: it is not older than `k`, it is there, and no entry from `i` on owns it. -/
def Leaked (k i : ℕ) (m : Mem) : Prop :=
  ∃ p, k ≤ p ∧ (m.heap.block p).isSome ∧ ∀ x, m.tokens x = some p → x < i

theorem Leaked.mono (h : Leaked k i m) (hij : i ≤ j) : Leaked k j m := by
  obtain ⟨p, hp, hsome, hlow⟩ := h
  refine ⟨p, hp, hsome, fun x hx => ?_⟩
  have := hlow x hx
  omega

/-- **A lost block stays**, for the shell frees strings only together with the entries that own
them. -/
theorem Leaked.moves (h : Leaked k i m) (hm : Moves i m m') : Leaked k i m' := by
  obtain ⟨p, hp, hsome, hlow⟩ := h
  obtain ⟨block, hblock⟩ := Option.isSome_iff_exists.mp hsome
  refine ⟨p, hp, ?_, fun x hx => hlow x (hm.of_some hx)⟩
  rw [hm.kept p (Heap.lt_made hblock) fun x hx => (hm.low x (hlow x hx)).trans hx]
  exact hsome

/-- An entry that is passed. -/
theorem leaked_entry (hown : Own m) (hp : m.tokens b = some p) (hk : k ≤ p) : Leaked k (b + 1) m := by
  obtain ⟨t, ht⟩ := hown.live b p hp
  obtain ⟨size, hblock⟩ := block_of_text ht
  refine ⟨p, hk, by rw [hblock]; rfl, fun x hx => ?_⟩
  rw [hown.inj x b p hx hp]
  omega

variable {prefd postfd : Option Pipefd} {bg : Bool}

/-- An entry that is read. -/
theorem entry_eq_ok {q : Option Ptr} (h : m.entry i = .ok q) : m.tokens i = q := by
  unfold Mem.entry at h
  split_ifs at h
  exact Except.ok.inj h

/-- An entry that is freed. -/
theorem drop_returned (hown : Own m) (h : m.drop i = .ok m') : Moves i m m' ∧ m'.tokens i = none := by
  obtain ⟨m'', hdrop, hmoves, hnone, -⟩ := drop_spec hown i
  obtain rfl := Except.ok.inj (hdrop.symm.trans h)
  exact ⟨hmoves, hnone⟩

/-- **A simple command leaves a block**: a built-in one its array, an external one the string of its
name. -/
theorem doSimpleCmd_leaked (hown : Own s.mem) (hmade : k ≤ s.mem.heap.made)
    (hk : ∀ p, s.mem.tokens b = some p → k ≤ p)
    (h : Ownership.doSimpleCmd env b prefd postfd bg s = .ok s') :
    Leaked k (b + 1) s'.mem ∧ s.mem.tokens b ≠ none := by
  unfold Ownership.doSimpleCmd at h
  dsimp only at h
  obtain ⟨q, hentry, h⟩ := bind_eq_ok.mp h
  have hq := entry_eq_ok (logged_eq_ok.mp hentry)
  cases q with
  | none => exact absurd h (by simp)
  | some p =>
    refine ⟨?_, by rw [hq]; simp⟩
    dsimp only at h
    obtain ⟨cmd, -, h⟩ := bind_eq_ok.mp h
    cases hget : getCmdHandle cmd with
    | some hd =>
      rw [hget] at h
      obtain ⟨⟨newcmd, mem, T⟩, hscan, h⟩ := bind_eq_ok.mp h
      obtain ⟨argv, -, h⟩ := bind_eq_ok.mp h
      obtain ⟨-, -, h⟩ := bind_eq_ok.mp h
      obtain rfl := Except.ok.inj h
      obtain ⟨qs, hs⟩ := scanRedirect_returned hown (logged_eq_ok.mp hscan)
      refine ⟨newcmd, Nat.le_trans hmade hs.new, ?_, fun x hx => ?_⟩
      · show (mem.heap.block newcmd).isSome
        rw [hs.argv.array]
        rfl
      · exact absurd hx (hs.moves.unowned hown hs.new x)
    | none =>
      rw [hget] at h
      dsimp only at h
      split_ifs at h
      obtain rfl := Except.ok.inj h
      exact leaked_entry hown hq (hk p hq)

/-- **A pipeline leaves a block**, of its first command. The entry `e` is the one behind it. -/
theorem pipeLoop_leaked (hown : Own s.mem) (hmade : k ≤ s.mem.heap.made)
    (hk : ∀ p, s.mem.tokens b = some p → k ≤ p) (hend : s.mem.tokens e = none) (hle : b + i ≤ e)
    (h : Ownership.pipeLoop env b bg n i 0 prefd s = .ok s') : Leaked k e s'.mem := by
  induction n generalizing i s with
  | zero => exact absurd h (by simp [Ownership.pipeLoop])
  | succ n ih =>
    unfold Ownership.pipeLoop at h
    obtain ⟨q, hentry, h⟩ := bind_eq_ok.mp h
    have hq := entry_eq_ok (logged_eq_ok.mp hentry)
    cases q with
    | none =>
      -- the only command of the pipeline
      obtain ⟨hleak, hne⟩ := doSimpleCmd_leaked hown hmade hk h
      have hbe : b ≠ e := by
        rintro rfl
        exact hne hend
      exact hleak.mono (by omega)
    | some p =>
      have hie : b + i ≠ e := by
        rintro rfl
        rw [hend] at hq
        exact absurd hq (by simp)
      obtain ⟨t, -, h⟩ := bind_eq_ok.mp h
      by_cases hbar : t = ['|']
      · rw [if_pos hbar] at h
        obtain ⟨m', hdrop, h⟩ := bind_eq_ok.mp h
        obtain ⟨s₁, hrun, h⟩ := bind_eq_ok.mp h
        obtain ⟨hmoves, -⟩ := drop_returned hown (logged_eq_ok.mp hdrop)
        have hown' := hmoves.own hown
        obtain ⟨hleak, -⟩ := doSimpleCmd_leaked (b := b) hown' (Nat.le_trans hmade hmoves.made)
          (fun p hp => hk p (hmoves.of_some hp)) hrun
        obtain ⟨hown₁, -⟩ := SimFrom.returned
          (doSimpleCmd_alike (sim_mysh (s := ⟨m', s.tokCnt, s.core.pipe.2⟩) hown')) hrun
        obtain ⟨-, hmoves'⟩ := (pipeLoop_alike (sim_mysh hown₁) (Nat.le_refl (i + 1))).returned h
        exact ((hleak.mono (by omega)).moves hmoves').mono (by omega)
      · rw [if_neg hbar] at h
        exact ih hown hmade hk hend (by omega) h

/-- **A word in a line leaves a block.** It is the one of entry `j`, at which the present pipeline
begins. -/
theorem listLoop_leaked (hown : Own s.mem) (hmade : k ≤ s.mem.heap.made)
    (hp : s.mem.tokens j = some p) (hk : k ≤ p) (hji : j < i)
    (h : Ownership.listLoop env n i j s = .ok s') : ∃ e, Leaked k e s'.mem := by
  induction n generalizing i s with
  | zero => exact absurd h (by simp [Ownership.listLoop])
  | succ n ih =>
    unfold Ownership.listLoop at h
    obtain ⟨q, hentry, h⟩ := bind_eq_ok.mp h
    have hq := entry_eq_ok (logged_eq_ok.mp hentry)
    cases q with
    | none =>
      obtain rfl := Except.ok.inj h
      exact ⟨j + 1, leaked_entry hown hp hk⟩
    | some r =>
      obtain ⟨t, -, h⟩ := bind_eq_ok.mp h
      -- the pipeline is run, and then the rest of the line
      have hpiece : ∀ bg m' s₁, s.mem.drop i = .ok m' →
          Ownership.doPipeCmd env j bg { s with mem := m' } = .ok s₁ →
          Ownership.listLoop env n (i + 1) (i + 1) s₁ = .ok s' → ∃ e, Leaked k e s'.mem := by
        intro bg m' s₁ hdrop hrun hrest
        obtain ⟨hmoves, hnone⟩ := drop_returned hown hdrop
        have hown' := hmoves.own hown
        have hnew : ∀ q, m'.tokens j = some q → k ≤ q := fun q hq => by
          rw [← Option.some.inj (hp.symm.trans (hmoves.of_some hq))]
          exact hk
        have hleak := pipeLoop_leaked hown' (Nat.le_trans hmade hmoves.made) hnew hnone
          (by omega) hrun
        obtain ⟨hown₁, -⟩ := SimFrom.returned
          (doPipeCmd_alike env j bg (sim_mysh (s := { s with mem := m' }) hown')) hrun
        obtain ⟨-, hmoves'⟩ := (listLoop_alike (sim_mysh hown₁) (Nat.le_refl (i + 1))).returned hrest
        exact ⟨i + 1, (hleak.mono (by omega)).moves hmoves'⟩
      have hne : j ≠ i := Nat.ne_of_lt hji
      by_cases hseq : t = [';'] ∨ t = ['\n']
      · rw [if_pos hseq] at h
        obtain ⟨m', hdrop, h⟩ := bind_eq_ok.mp h
        rw [if_pos hne] at h
        obtain ⟨s₁, hrun, hrest⟩ := bind_eq_ok.mp h
        exact hpiece false m' s₁ (logged_eq_ok.mp hdrop) hrun hrest
      · rw [if_neg hseq] at h
        by_cases hamp : t = ['&']
        · rw [if_pos hamp] at h
          obtain ⟨m', hdrop, h⟩ := bind_eq_ok.mp h
          rw [if_pos hne] at h
          obtain ⟨s₁, hrun, hrest⟩ := bind_eq_ok.mp h
          exact hpiece true m' s₁ (logged_eq_ok.mp hdrop) hrun hrest
        · rw [if_neg hamp] at h
          exact ih hown hmade hp (by omega) h

/-! ### Separators -/

theorem must_eq_ok {α : Type} {r : Option α} {v : α} : must r = .ok v ↔ r = some v := by
  cases r with
  | none => simp [must]
  | some w => simp [must]

theorem made_drop (h : m.drop i = .ok m') : m'.heap.made = m.heap.made := by
  unfold Mem.drop at h
  cases hp : m.tokens i with
  | none =>
    rw [hp] at h
    obtain rfl := Except.ok.inj h
    rfl
  | some p =>
    rw [hp] at h
    obtain ⟨h', hfree, h⟩ := bind_eq_ok.mp h
    obtain rfl := Except.ok.inj h
    exact Heap.made_free (must_eq_ok.mp hfree)

/-- The entry that is read next. -/
theorem entry_of_holds (h : Holds m.texts i (t :: ts)) :
    ∃ p, m.entry i = .ok (some p) ∧ m.tokens i = some p ∧ text m.heap p = some t := by
  obtain ⟨p, hp, ht⟩ := Option.bind_eq_some_iff.mp h.1
  have hlt := h.lt
  exact ⟨p, by rw [Mem.entry, if_pos (by omega), hp], hp, ht⟩

/-- A separator that no command precedes is freed. -/
theorem listLoop_separator (h : Holds s.mem.texts i (t :: ts)) (hend : isEnd t = true)
    (hdrop : s.mem.drop i = .ok m') : Ownership.listLoop env (n + 1) i i s =
      Ownership.listLoop env n (i + 1) (i + 1) { s with mem := m' } := by
  obtain ⟨p, hentry, -, ht⟩ := entry_of_holds h
  conv_lhs => unfold Ownership.listLoop
  rw [hentry]
  simp only [logged_ok, ok_bind, ht, must, hdrop, ne_eq, not_true_eq_false, if_false]
  unfold isEnd at hend
  have hend := of_decide_eq_true hend
  rw [← or_assoc] at hend
  split_ifs with hseq hamp
  · rfl
  · rfl
  · exact absurd hend (not_or.mpr ⟨hseq, hamp⟩)

/-- A word is passed. -/
theorem listLoop_word (h : Holds s.mem.texts i (t :: ts)) (hend : isEnd t = false) :
    Ownership.listLoop env (n + 1) i i s = Ownership.listLoop env n (i + 1) i s := by
  obtain ⟨p, hentry, -, ht⟩ := entry_of_holds h
  conv_lhs => unfold Ownership.listLoop
  rw [hentry]
  simp only [logged_ok, ok_bind, ht, must]
  unfold isEnd at hend
  have hno := of_decide_eq_false hend
  rw [← or_assoc, not_or] at hno
  rw [if_neg hno.1, if_neg hno.2]

/-- The tokens behind a separator that is freed. -/
theorem holds_drop (hown : Own m) (h : Holds m.texts i (t :: ts)) (hdrop : m.drop i = .ok m') :
    Holds m'.texts (i + 1) ts := by
  obtain ⟨m'', hdrop', -, -, htexts⟩ := drop_spec hown i
  obtain rfl := Except.ok.inj (hdrop'.symm.trans hdrop)
  rw [htexts]
  exact h.2.congr fun x hx _ => clear_of_ne (by omega)

/-- **A line that leaves nothing has no command.** -/
theorem listLoop_commands (hown : Own s.mem) (hmade : k ≤ s.mem.heap.made)
    (h : Holds s.mem.texts i ts)
    (hnew : ∀ x < i + ts.length, ∀ p, s.mem.tokens x = some p → k ≤ p)
    (hrun : Ownership.listLoop env n i i s = .ok s') :
    (∀ t ∈ ts, isEnd t = true) ∨ ∃ e, Leaked k e s'.mem := by
  induction ts generalizing n i s with
  | nil => exact Or.inl nofun
  | cons t ts ih =>
    simp only [List.length_cons] at hnew
    obtain ⟨n, rfl⟩ : ∃ r, n = r + 1 := by
      cases n with
      | zero => exact absurd hrun (by simp [Ownership.listLoop])
      | succ n => exact ⟨n, rfl⟩
    obtain ⟨p, -, hp, -⟩ := entry_of_holds h
    by_cases hend : isEnd t = true
    · obtain ⟨m', hdrop, hmoves, -, -⟩ := drop_spec hown i
      rw [listLoop_separator h hend hdrop] at hrun
      rcases ih (hmoves.own hown) (Nat.le_trans hmade hmoves.made) (holds_drop hown h hdrop)
        (fun x hx q hq => hnew x (by omega) q (hmoves.of_some hq)) hrun with hall | hleak
      · exact Or.inl (List.forall_mem_cons.mpr ⟨hend, hall⟩)
      · exact Or.inr hleak
    · rw [listLoop_word h (by simpa using hend)] at hrun
      exact Or.inr (listLoop_leaked hown hmade hp (hnew i (by omega) p hp) (Nat.lt_succ_self i) hrun)

/-- **Separators are all freed.** -/
theorem listLoop_separators (env : Env) (hown : Own s.mem) (h : Holds s.mem.texts i ts)
    (hts : ∀ t ∈ ts, isEnd t = true) (hn : ts.length < n) :
    ∃ s', Ownership.listLoop env n i i s = .ok s' ∧ Moves i s.mem s'.mem ∧
      s'.mem.heap.made = s.mem.heap.made ∧
        ∀ x, i ≤ x → x < i + ts.length → s'.mem.tokens x = none := by
  induction ts generalizing n i s with
  | nil =>
    obtain ⟨n, rfl⟩ : ∃ r, n = r + 1 := ⟨n - 1, by omega⟩
    have hnull : s.mem.entry i = .ok none := by
      rw [Mem.entry, if_pos h.1]
      cases hp : s.mem.tokens i with
      | none => rfl
      | some p =>
        obtain ⟨t, -, ht⟩ := hown.texts hp
        exact absurd (ht.symm.trans h.2) (by simp)
    refine ⟨{ s with tokCnt := 0 }, ?_, Moves.refl i s.mem, rfl, fun x hx hlt => ?_⟩
    · unfold Ownership.listLoop
      rw [hnull]
      rfl
    · simp only [List.length_nil] at hlt
      omega
  | cons t ts ih =>
    simp only [List.length_cons] at hn
    obtain ⟨n, rfl⟩ : ∃ r, n = r + 1 := ⟨n - 1, by omega⟩
    obtain ⟨hend, hts⟩ := List.forall_mem_cons.mp hts
    obtain ⟨m', hdrop, hmoves, hnone, -⟩ := drop_spec hown i
    obtain ⟨s', hrun, hmoves', hmade, hgone⟩ := ih (s := { s with mem := m' }) (n := n)
      (hmoves.own hown) (holds_drop hown h hdrop) hts (by omega)
    refine ⟨s', (listLoop_separator h hend hdrop).trans hrun,
      hmoves.trans hown (hmoves'.mono (Nat.le_succ i)), hmade.trans (made_drop hdrop),
      fun x hx hlt => ?_⟩
    simp only [List.length_cons] at hlt
    by_cases hxi : x = i
    · rw [hxi]
      exact (hmoves'.low i (Nat.lt_succ_self i)).trans hnone
    · exact hgone x (by omega) (by omega)

/-! ### Lines -/

theorem Filled.holds (h : Filled k s ts) (hne : ts ≠ []) : Holds s.mem.texts 0 ts := by
  obtain ⟨hlt, hnull⟩ := h.fits hne
  exact holds_of_begins h.begins hlt (texts_none hnull)

/-- **Between two lines** every entry that is not `NULL` owns a string, and no token is there
yet. -/
structure Ready (s : Machine) : Prop where
  own : Own s.mem
  tokCnt : s.tokCnt = 0

/-- The tokens of a line that has been read. -/
theorem Ready.filled (h : Ready s) (hread : addTokens us s = .ok s') :
    Filled s.mem.heap.made s' us := (filled_nil h.own h.tokCnt).addTokens hread

theorem ready_start (core : Core) : Ready (start core) := ⟨⟨nofun, nofun⟩, rfl⟩

theorem Ready.line (h : Ready s) (hrun : readLine env ws s = .ok s') : Ready s' := by
  obtain ⟨s₁, hread, hlist⟩ := bind_eq_ok.mp hrun
  have hfilled := h.filled (logged_eq_ok.mp hread)
  have halike := doListCmd_alike env (sim_mysh hfilled.own)
  rw [hlist] at halike
  obtain ⟨c, hc, hsim, -⟩ := Alike.ok_of halike
  obtain ⟨τ, heq⟩ := doListCmd_eq env (s := mysh s₁) (hfilled.holds (by simp))
  rw [heq] at hc
  obtain ⟨C, -, rfl⟩ := map_eq_ok.mp hc
  exact ⟨hsim.own, hsim.tokCnt.symm⟩

theorem Ready.session {lines : List (List Text)} (h : Ready s)
    (hrun : session env lines s = .ok s') : Ready s' := by
  induction lines generalizing s with
  | nil =>
    obtain rfl := Except.ok.inj hrun
    exact h
  | cons ws lines ih =>
    unfold Leaks.session at hrun
    rw [List.foldlM_cons] at hrun
    obtain ⟨s₁, hline, hrun⟩ := bind_eq_ok.mp hrun
    exact ih (h.line hline) hrun

/-- **When a line leaves nothing**: if there is no command in it, and room for its separators. -/
theorem frees_all_iff {core : Core} {lines : List (List Text)}
    (hs : session env lines (start core) = .ok s) :
    FreesAll env s ws ↔ ws.length + 1 < TOKENSZ ∧ ∀ t ∈ ws, isEnd t = true := by
  have hready := (ready_start core).session hs
  constructor
  · rintro ⟨s', hrun, hfreed⟩
    obtain ⟨s₁, hread, hlist⟩ := bind_eq_ok.mp hrun
    have hfilled := hready.filled (logged_eq_ok.mp hread)
    have hlt := (hfilled.fits (by simp)).1
    simp only [List.length_append, List.length_singleton] at hlt
    rcases listLoop_commands hfilled.own hfilled.made (hfilled.holds (by simp))
      (fun x hx => hfilled.new x (by omega)) hlist with hall | ⟨e, p, hp, hsome, -⟩
    · exact ⟨hlt, fun t ht => hall t (List.mem_append_left _ ht)⟩
    · rw [hfreed p hp] at hsome
      exact absurd hsome (by simp)
  · rintro ⟨hlt, hall⟩
    have hroom : ([] : List Text).length + (ws ++ [['\n']]).length < TOKENSZ := by simpa using hlt
    obtain ⟨s₁, hread⟩ := (filled_nil hready.own hready.tokCnt).addTokens_ok hroom
    have hfilled := hready.filled hread
    have hends : ∀ t ∈ ws ++ [['\n']], isEnd t = true := by
      intro t ht
      rcases List.mem_append.mp ht with ht | ht
      · exact hall t ht
      · rw [List.mem_singleton.mp ht]
        decide
    obtain ⟨s', hlist, hmoves, hmade, hgone⟩ := listLoop_separators env (n := TOKENSZ + 1)
      hfilled.own (hfilled.holds (by simp)) hends (by simp; omega)
    refine ⟨s', ?_, fun p hp => ?_⟩
    · unfold readLine
      rw [hread]
      exact hlist
    · by_cases hnew : s'.mem.heap.made ≤ p
      · exact s'.mem.heap.fresh p hnew
      · by_cases hsome : (s₁.mem.heap.block p).isSome
        · obtain ⟨x, hx, hxp⟩ := hfilled.owned p hp hsome
          exact hmoves.freed x p hxp (hgone x (Nat.zero_le x) (by omega))
        · -- it was not there, and no entry owns it
          rw [hmoves.kept p (by omega) fun x hx => ?_]
          · exact Option.not_isSome_iff_eq_none.mp hsome
          · obtain ⟨t, ht⟩ := hfilled.own.live x p hx
            obtain ⟨size, hblock⟩ := block_of_text ht
            exact absurd (by rw [hblock]; rfl) hsome

/-- `ls`. -/
def listing : List Text := [['l', 's']]

/-- A line of separators, after `ls`. -/
theorem frees_all_separators : ∃ s, session i686 [listing] (start ⟨terminal, 0, []⟩) = .ok s ∧
    FreesAll i686 s [[';'], ['&']] := by
  have hrun : (session i686 [listing] (start ⟨terminal, 0, []⟩)).toOption.isSome := by decide +kernel
  obtain ⟨s, hs⟩ := Option.isSome_iff_exists.mp hrun
  have hs := toOption_eq_some.mp hs
  exact ⟨s, hs, (frees_all_iff hs).mpr ⟨by decide, by decide⟩⟩

/-- The word `ls` is still there when `do_list_cmd` is back. -/
theorem not_frees_all : (∀ j ∈ jobs 0 0 (parse (listing ++ [['\n']])), Proper i686 j) ∧
    ¬ FreesAll i686 (start ⟨terminal, 0, []⟩) listing := by
  refine ⟨by decide, ?_⟩
  rintro ⟨s', hrun, hfreed⟩
  have hthere : (readLine i686 listing (start ⟨terminal, 0, []⟩)).toOption.map
      (fun s => (s.mem.heap.block 0).isSome) = some true := by decide +kernel
  rw [hrun] at hthere
  have hgone := hfreed 0 (Nat.le_refl 0)
  simp [Except.toOption, hgone] at hthere

end LinuxHomework.Shell.Leaks
