import LinuxHomework.Shell.Descriptors
import LinuxHomework.Shell.Malformed
import LinuxHomework.Shell.Ownership

/-! # What `scan_redirect` returns

The words of a simple command are copied into blocks of `sizeof(oldcmd[i]) + 1` bytes, which is one
more than a pointer has and not one more than the word.

* `scanLoop_clears`, `redirect_files`: which entries are freed, and what the descriptors refer to.
* `splits_iff`: a command is split correctly if and only if each of its words is as long as a
  pointer at most.
* `not_splits`: `echo` with a word of five letters, on a machine with pointers of four bytes. -/

namespace LinuxHomework.Shell.Scan

open LinuxHomework.Lib.Blocks LinuxHomework.Lib.Descriptors LinuxHomework.Lib.Outcome
open LinuxHomework.Shell.Commands LinuxHomework.Shell.Parse LinuxHomework.Shell.Malformed
open LinuxHomework.Shell.Descriptors (file_reopen)
open LinuxHomework.Shell.Ownership

/-! ### The property -/

/-- The array holds the words up to its `NULL`, each in full in a block of its own that is not older
than `made`. -/
structure Returned (made : ℕ) (h : Heap Block) (size : ℕ) (entry : ℕ → Option Ptr)
    (argv : List Text) : Prop where
  fits : argv.length < size
  ends : entry argv.length = none
  copy : ∀ k t, argv[k]? = some t → ∃ q n, entry k = some q ∧ made ≤ q ∧
    h.block q = some (.str n (some t)) ∧ t.length < n
  apart : ∀ k l q, entry k = some q → entry l = some q → k = l

/-- The file named by the last redirection in a mode. -/
def lastFile (mode : Mode) (ws : List Text) : Option Text :=
  ((operandsOf ws).filter fun o => o.2 = mode).getLast?.map Prod.fst

/-- The descriptor of a mode refers to the file `name`, or to what it did before. -/
def Refers (mode : Mode) (name : Option Text) (T T' : Table Kind) : Prop :=
  match name with
  | some name => ∃ num, T'.file (descriptor mode) = some ⟨num, .named name mode⟩
  | none => T'.file (descriptor mode) = T.file (descriptor mode)

/-- **`scan_redirect` splits the command** `ws`, whose entries begin at `b`. -/
def Splits (now : Moment) (b : ℕ) (m : Mem) (T : Table Kind) (ws : List Text) : Prop :=
  ∃ newcmd m' T' size entry, Ownership.scanRedirect now b m T = .ok (newcmd, m', T') ∧
    m'.heap.block newcmd = some (.arr size entry) ∧
    Returned m.heap.made m'.heap size entry (argvOf ws) ∧
    (∀ mode, Refers mode (lastFile mode ws) T T') ∧
    ∀ x, b ≤ x → x < b + ws.length → m'.tokens x = none ∧
      ∃ p, m.tokens x = some p ∧ (m.heap.block p).isSome ∧ m'.heap.block p = none

variable {now : Moment} {m m' : Mem} {b i n x : ℕ} {T T' : Table Kind} {ws argv newcmd : List Text}
  {tokens τ : ℕ → Option Text} {t name : Text} {ts : List Text} {fd : ℕ} {mode : Mode}

/-! ### The entries -/

/-- **Every entry of the command becomes `NULL`**, and those before it stay. -/
theorem scanLoop_clears (h : Holds tokens i ws)
    (hrun : Commands.scanLoop now n i newcmd tokens T = .ok (argv, τ, T')) :
    (∀ x, i ≤ x → x < i + ws.length → τ x = none) ∧ ∀ x < i, τ x = tokens x := by
  induction n generalizing i ws newcmd tokens T with
  | zero => exact absurd hrun (by simp [Commands.scanLoop])
  | succ n ih =>
    cases ws with
    | nil =>
      rw [scanLoop_end h.entry] at hrun
      obtain ⟨-, rfl, -⟩ : newcmd = argv ∧ tokens = τ ∧ T = T' := by simpa using hrun
      refine ⟨fun x hx hlt => ?_, fun x _ => rfl⟩
      simp only [List.length_nil] at hlt
      omega
    | cons t ws =>
      have hentry := h.entry
      cases hr : redirection t with
      | none =>
        rw [scanLoop_word hentry hr] at hrun
        obtain ⟨u, -, hrun⟩ := bind_eq_ok.mp hrun
        have hrest : Holds (clear tokens i) (i + 1) ws :=
          h.2.congr fun x hx _ => clear_of_ne (by omega)
        obtain ⟨hgone, hlow⟩ := ih hrest hrun
        refine ⟨fun x hx hlt => ?_, fun x hx => ?_⟩
        · simp only [List.length_cons] at hlt
          by_cases hxi : x = i
          · rw [hlow x (by omega), hxi, clear_self]
          · exact hgone x (by omega) (by omega)
        · rw [hlow x (by omega), clear_of_ne (by omega)]
      | some r =>
        obtain ⟨fd, mode⟩ := r
        rw [scanLoop_redirection hentry hr, h.2.entry, ok_bind] at hrun
        cases ws with
        | nil => exact absurd hrun (by simp [reopen])
        | cons name ws =>
          obtain ⟨T₁, -, hrun⟩ := bind_eq_ok.mp hrun
          have hrest : Holds (clear (clear tokens i) (i + 1)) (i + 2) ws :=
            h.2.2.congr fun x hx _ => by rw [clear_of_ne (by omega), clear_of_ne (by omega)]
          obtain ⟨hgone, hlow⟩ := ih hrest hrun
          refine ⟨fun x hx hlt => ?_, fun x hx => ?_⟩
          · simp only [List.length_cons] at hlt
            by_cases hxi : x < i + 2
            · rw [hlow x hxi]
              by_cases hxi' : x = i + 1
              · rw [hxi', clear_self]
              · rw [clear_of_ne hxi', show x = i by omega, clear_self]
            · exact hgone x (by omega) (by omega)
          · rw [hlow x (by omega), clear_of_ne (by omega), clear_of_ne (by omega)]

/-! ### The descriptors -/

theorem lastFile_redirection {k : Mode} (h : redirection t = some (fd, k)) :
    lastFile mode (t :: name :: ts) =
      if k = mode then some ((lastFile mode ts).getD name) else lastFile mode ts := by
  unfold lastFile
  rw [operandsOf_redirection h, List.filter_cons]
  by_cases hk : k = mode
  · rw [if_pos (by simpa using hk), if_pos hk, List.getLast?_cons]
    cases ((operandsOf ts).filter fun o => o.2 = mode).getLast? with
    | none => rfl
    | some o => rfl
  · rw [if_neg (by simpa using hk), if_neg hk]

theorem lastFile_word (h : redirection t = none) : lastFile mode (t :: ts) = lastFile mode ts := by
  unfold lastFile
  rw [operandsOf_word h]

/-- **The descriptors 0 and 1** refer to the files that are named last. -/
theorem redirect_files (hstd : ∀ fd < 3, (T.file fd).isSome)
    (hrun : redirect now ws T = .ok (argv, T')) (mode : Mode) :
    Refers mode (lastFile mode ws) T T' := by
  induction ws, T using redirect.induct generalizing argv with
  | case1 T =>
    obtain ⟨-, rfl⟩ := Prod.mk.inj (Except.ok.inj hrun)
    rfl
  | case2 t T fd k hr =>
    rw [redirect_lone hr] at hrun
    exact absurd hrun (by simp)
  | case3 t T fd k hr name ts ih =>
    rw [redirect_redirection hr] at hrun
    obtain ⟨T₁, hopen, hrun⟩ := bind_eq_ok.mp hrun
    have hfd := redirection_eq hr
    have hlt : fd < 3 := by
      cases k with
      | r => rw [hfd]; decide
      | w => rw [hfd]; decide
    obtain ⟨hself, -, hother⟩ := file_reopen (fun b hb => hstd b (by omega)) hopen
    have hstd₁ : ∀ b < 3, (T₁.file b).isSome := by
      intro b hb
      by_cases hbfd : b = fd
      · rw [hbfd, hself]
        rfl
      · rw [hother b hbfd]
        exact hstd b hb
    have hrest := ih T₁ hstd₁ hrun
    rw [lastFile_redirection hr]
    cases hlast : lastFile mode ts with
    | some last =>
      rw [hlast] at hrest
      by_cases hk : k = mode
      · rw [if_pos hk]
        exact hrest
      · rw [if_neg hk]
        exact hrest
    | none =>
      rw [hlast] at hrest
      have hrest : T'.file (descriptor mode) = T₁.file (descriptor mode) := hrest
      by_cases hk : k = mode
      · subst hk
        rw [if_pos rfl]
        exact ⟨T.made, by rw [hrest, ← hfd, hself]; rfl⟩
      · rw [if_neg hk]
        show T'.file (descriptor mode) = T.file (descriptor mode)
        rw [hrest]
        refine hother _ ?_
        rw [hfd]
        cases k with
        | r => cases mode with
          | r => exact absurd rfl hk
          | w => decide
        | w => cases mode with
          | r => decide
          | w => exact absurd rfl hk
  | case4 t ts T hr ih =>
    rw [redirect_word hr] at hrun
    obtain ⟨u, -, hrun⟩ := bind_eq_ok.mp hrun
    obtain ⟨r, hr', hrun⟩ := bind_eq_ok.mp hrun
    obtain ⟨-, rfl⟩ := Prod.mk.inj (Except.ok.inj hrun)
    rw [lastFile_word hr]
    exact ih hstd hr'

/-! ### The array -/

theorem returned {h : Heap Block} {p : Ptr} {qs : List (Ptr × Text)} {made : ℕ}
    (ha : Argv now h p qs) (hnew : ∀ q ∈ qs, made ≤ q.1) (hlt : qs.length < TOKENSZ) :
    Returned made h (TOKENSZ + 1) (fun k => (qs[k]?).map Prod.fst) (qs.map Prod.snd) := by
  refine ⟨by rw [List.length_map]; omega, ?_, fun k t ht => ?_, fun k l q hk hl => ?_⟩
  · rw [List.length_map, List.getElem?_eq_none (Nat.le_refl _), Option.map_none]
  · rw [List.getElem?_map] at ht
    obtain ⟨q, hq, rfl⟩ := Option.map_eq_some_iff.mp ht
    have hmem := List.mem_of_getElem? hq
    obtain ⟨hcopy, hfit⟩ := ha.copy q hmem
    exact ⟨q.1, now.ptrSize + 1, by rw [hq, Option.map_some], hnew q hmem, hcopy, by omega⟩
  · rw [← List.getElem?_map] at hk hl
    have hlen := (List.getElem?_eq_some_iff.mp hk).1
    exact (List.getElem?_inj hlen ha.nodup).mp (hk.trans hl.symm)

/-- The entries of the command own their strings. -/
theorem holds_entry (h : Holds m.texts b ws) (hx : b ≤ x) (hlt : x < b + ws.length) :
    ∃ p, m.tokens x = some p := by
  induction ws generalizing b with
  | nil =>
    simp only [List.length_nil] at hlt
    omega
  | cons t ws ih =>
    simp only [List.length_cons] at hlt
    by_cases hxb : x = b
    · subst hxb
      obtain ⟨p, hp, -⟩ := Option.bind_eq_some_iff.mp h.1
      exact ⟨p, hp⟩
    · exact ih h.2 (by omega) (by omega)

/-- **When `scan_redirect` splits a command correctly.** -/
theorem splits_iff (h : Holds m.texts b ws) (hown : Own m) (hstd : ∀ fd < 3, (T.file fd).isSome)
    (hoperands : dangling ws = false) (hopens : ∀ o ∈ operandsOf ws, now.opens o.1 o.2 = true) :
    Splits now b m T ws ↔ ∀ t ∈ argvOf ws, t.length ≤ now.ptrSize := by
  have halike : Alike (RedirectAlike now b m) (Ownership.scanRedirect now b m T)
      (Commands.scanRedirect now b m.texts T) := scanRedirect_alike hown b T
  obtain ⟨τ, -, heq⟩ := scanRedirect_eq now T h
  constructor
  · rintro ⟨newcmd, m', T', size, entry, hrun, -⟩
    by_contra hno
    rw [hrun] at halike
    obtain ⟨r, hr, -⟩ := halike.ok_of
    rw [heq] at hr
    have hunfit : ¬ Fine now ws := fun hfine => hno hfine.fit
    rcases redirect_unfit (T := T) hunfit with herr | herr
    · rw [herr] at hr
      exact absurd hr (by simp [Except.map])
    · rw [herr] at hr
      exact absurd hr (by simp [Except.map])
  · intro hfit
    have hfine : Fine now ws := ⟨hopens, hfit⟩
    obtain ⟨T', hT'⟩ := redirect_fine (T := T) hfine hoperands
    have hlist : Commands.scanRedirect now b m.texts T = .ok (argvOf ws, τ, T') := by
      rw [heq, hT']
      rfl
    rw [hlist] at halike
    obtain ⟨⟨newcmd, m', T₁⟩, hrun, qs, hs, hlt, hargv, hτ, hT⟩ := halike.of_ok
    dsimp only at hs hargv hτ hT
    subst hτ hT
    refine ⟨newcmd, m', T', _, _, hrun, hs.argv.array, ?_, redirect_files hstd hT', ?_⟩
    · rw [hargv]
      exact returned hs.argv hs.news hlt
    · intro x hx hxlt
      obtain ⟨p, hp⟩ := holds_entry h hx hxlt
      have hnull : m'.texts x = none := (scanLoop_clears h hlist).1 x hx hxlt
      have hgone : m'.tokens x = none := by
        cases hq : m'.tokens x with
        | none => rfl
        | some q =>
          obtain ⟨t, -, ht⟩ := (hs.moves.own hown).texts hq
          rw [hnull] at ht
          exact absurd ht (by simp)
      obtain ⟨t, ht⟩ := hown.live x p hp
      obtain ⟨size, hblock⟩ := block_of_text ht
      exact ⟨hgone, p, hp, by rw [hblock]; rfl, hs.moves.freed x p hp hgone⟩

/-- The words of a command, each in a block of its own. -/
def placed (ws : List Text) : Mem where
  heap := {
    block := fun p => (ws[p]?).map fun t => .str (t.length + 1) (some t)
    made := ws.length
    fresh := fun p hp => by rw [List.getElem?_eq_none hp, Option.map_none] }
  tokens := fun i => if i < ws.length then some i else none

theorem own_placed (ws : List Text) : Own (placed ws) := by
  refine ⟨fun x p hp => ?_, fun x y p hx hy => ?_⟩
  · obtain ⟨hlt, hxp⟩ := Option.ite_none_right_eq_some.mp hp
    obtain rfl := Option.some.inj hxp
    refine ⟨ws[x], ?_⟩
    unfold text placed
    dsimp only
    rw [List.getElem?_eq_getElem hlt]
    rfl
  · obtain ⟨-, hxp⟩ := Option.ite_none_right_eq_some.mp hx
    obtain ⟨-, hyp⟩ := Option.ite_none_right_eq_some.mp hy
    exact (Option.some.inj hxp).trans (Option.some.inj hyp).symm

theorem holds_placed (h : ws.length < TOKENSZ) : Holds (placed ws).texts 0 ws := by
  refine holds_getElem (by omega) fun x => ?_
  rw [Nat.zero_add]
  unfold Mem.texts placed
  dsimp only
  by_cases hx : x < ws.length
  · rw [if_pos hx, Option.bind_some]
    unfold text
    dsimp only
    rw [List.getElem?_eq_getElem hx]
    rfl
  · rw [if_neg hx, Option.bind_none, List.getElem?_eq_none (by omega)]

/-- `echo hi < f > g`. -/
def shortCommand : List Text :=
  [['e', 'c', 'h', 'o'], ['h', 'i'], ['<'], ['f'], ['>'], ['g']]

theorem splits_short : Splits (i686.moment 0) 0 (placed shortCommand) terminal shortCommand :=
  (splits_iff (holds_placed (by decide)) (own_placed _) (by decide) (by decide) (by decide)).mpr
    (by decide)

/-- `echo hello`. -/
def longCommand : List Text := [['e', 'c', 'h', 'o'], ['h', 'e', 'l', 'l', 'o']]

/-- The copy of the second word overflows its block. -/
theorem not_splits : dangling longCommand = false ∧
    (∀ o ∈ operandsOf longCommand, (i686.moment 0).opens o.1 o.2 = true) ∧
    ¬ Splits (i686.moment 0) 0 (placed longCommand) terminal longCommand := by
  refine ⟨by decide, by decide, ?_⟩
  rintro ⟨newcmd, m', T', size, entry, hrun, -⟩
  have hstop : (Ownership.scanRedirect (i686.moment 0) 0 (placed longCommand) terminal).toOption.isSome =
      false := by decide +kernel
  rw [hrun] at hstop
  exact absurd hstop (by simp [Except.toOption])

end LinuxHomework.Shell.Scan
