import LinuxHomework.Lib.Outcome
import LinuxHomework.Msh.Commands

/-! # `add_arg` of `2/xyshell-read-only/study/msh/parsecmd.l`

A word is expanded into a local array, which is added to the arguments if something was put into it.
`$$` is the number of the process, a `$` at the end is a `$`, and behind any other `$` is the name
of a variable, which goes up to the next `$`.

* `nameLoop`, `addArgLoop`, `addArg`: the source.
* `expansion`: the same from the segments between the `$`.
* `addArg_eq`: the two agree, whatever the arrays held before; the code is inside of both of them
  iff the expansion and each name in the word fit. -/

namespace LinuxHomework.Msh.Expand

open LinuxHomework.Lib.Buffer LinuxHomework.Lib.Outcome LinuxHomework.Msh.Lexer
open LinuxHomework.Msh.Commands

variable (m : Machine)

/-- `strcpy(buf+k, text); k += strlen(text)`, or `sprintf` instead of `strcpy`. -/
def put (text : Text) (k : ℕ) (buf : ℕ → Option Char) : Except Stop ((ℕ → Option Char) × ℕ) :=
  if k + text.length < ARGSZ then .ok (paste buf k text, k + text.length) else .error .overflow

/-- `buf[k] = c; k++`. -/
def putChar (c : Char) (k : ℕ) (buf : ℕ → Option Char) : Except Stop ((ℕ → Option Char) × ℕ) :=
  if k < ARGSZ then .ok (Function.update buf k (some c), k + 1) else .error .overflow

/-- `buf[k] = 0`. -/
def stop (k : ℕ) (buf : ℕ → Option Char) : Except Stop ((ℕ → Option Char) × ℕ) :=
  if k < ARGSZ then .ok (Function.update buf k none, k) else .error .overflow

/-- The loop that copies a name into `xbuf`, and the byte behind it: what is left of `xarg`, and
`xbuf`. -/
def nameLoop : Text → (n : ℕ) → (ℕ → Option Char) → Except Stop (Text × (ℕ → Option Char))
  | [], n, xbuf => do
    let (xbuf, _) ← stop n xbuf
    return ([], xbuf)
  | c :: xarg, n, xbuf => do
    if c = '$' then
      let (xbuf, _) ← stop n xbuf
      return (c :: xarg, xbuf)
    else
      let (xbuf, n) ← putChar c n xbuf
      nameLoop xarg n xbuf

/-- The loop of `add_arg` over the rest of `xarg`, and the byte behind what was put into `buf`; `n`
bounds the rounds. -/
def addArgLoop (environ : Text → Option Text) :
    (n : ℕ) → Text → (k : ℕ) → (ℕ → Option Char) → Except Stop ((ℕ → Option Char) × ℕ)
  | 0, _, _, _ => .error .crash
  | _ + 1, [], k, buf => stop k buf
  | n + 1, c :: xarg, k, buf => do
    if c = '$' then
      match xarg with
      | [] =>
        let (buf, k) ← putChar '$' k buf
        stop k buf
      | d :: rest =>
        if d = '$' then
          let (buf, k) ← put (decimal m.pid) k buf
          addArgLoop environ n rest k buf
        else
          let (rest, xbuf) ← nameLoop (d :: rest) 0 m.stack
          match cString ARGSZ xbuf with
          | none => .error .crash
          | some name =>
            match environ name with
            | none => addArgLoop environ n rest k buf
            | some value =>
              let (buf, k) ← put value k buf
              addArgLoop environ n rest k buf
    else
      let (buf, k) ← putChar c k buf
      addArgLoop environ n xarg k buf

/-- **`add_arg`**. -/
def addArg (xarg : Text) (s : Shell) : Except Stop Shell := do
  let (buf, k) ← addArgLoop m s.core.world.environ (xarg.length + 1) xarg 0 m.stack
  if 0 < k then
    match cString ARGSZ buf with
    | none => .error .crash
    | some arg => addSimpleArg arg s
  else return s

/-! ### What a word stands for -/

/-- What the segments behind a first `$` stand for. An empty one is the second `$` of `$$`, and what
follows it stands for itself; at the end it is a `$`. -/
def values (environ : Text → Option Text) (pid : ℕ) : List Text → Text
  | [] => []
  | [[]] => ['$']
  | [] :: seg :: segs => decimal pid ++ (seg ++ values environ pid segs)
  | name :: segs => (environ name).getD [] ++ values environ pid segs

/-- **The expansion of a word.** -/
def expansion (environ : Text → Option Text) (pid : ℕ) (word : Text) : Text :=
  match word.splitOn '$' with
  | [] => []
  | seg :: segs => seg ++ values environ pid segs

/-- The names among the segments behind a first `$`. -/
def segNames : List Text → List Text
  | [] => []
  | [[]] => []
  | [] :: _ :: segs => segNames segs
  | name :: segs => name :: segNames segs

/-- **The names of variables in a word.** -/
def names (word : Text) : List Text := segNames (word.splitOn '$').tail

/-- **A word fits** into the local arrays. -/
def Fits (environ : Text → Option Text) (pid : ℕ) (word : Text) : Prop :=
  (expansion environ pid word).length < ARGSZ ∧ ∀ name ∈ names word, name.length < ARGSZ

instance (environ : Text → Option Text) (pid : ℕ) (word : Text) : Decidable (Fits environ pid word) := by
  unfold Fits
  infer_instance

variable {m} {environ : Text → Option Text} {pid n : ℕ} {c d : Char} {word rest text l name : Text}
  {buf xbuf : ℕ → Option Char}

/-! ### One round -/

@[simp] theorem expansion_nil : expansion environ pid [] = [] := rfl

@[simp] theorem names_nil : names [] = [] := rfl

theorem expansion_char (hc : c ≠ '$') :
    expansion environ pid (c :: word) = c :: expansion environ pid word := by
  obtain ⟨seg, segs, hseg⟩ := List.exists_cons_of_ne_nil (List.splitOn_ne_nil '$' word)
  unfold expansion
  rw [List.splitOn_cons_eq_if_modifyHead, if_neg (by simpa using hc), hseg]
  rfl

theorem names_char (hc : c ≠ '$') : names (c :: word) = names word := by
  unfold names
  rw [List.splitOn_cons_eq_if_modifyHead, if_neg (by simpa using hc), List.tail_modifyHead]

@[simp] theorem expansion_end : expansion environ pid ['$'] = ['$'] := rfl

@[simp] theorem names_end : names ['$'] = [] := rfl

/-- What stands behind a `$`. -/
theorem splitOn_dollar (word : Text) : ('$' :: word).splitOn '$' = [] :: word.splitOn '$' :=
  List.splitOn_append_cons_self_of_not_mem (List.not_mem_nil (a := '$')) word

theorem expansion_pid :
    expansion environ pid ('$' :: '$' :: word) = decimal pid ++ expansion environ pid word := by
  unfold expansion
  rw [splitOn_dollar, splitOn_dollar]
  obtain ⟨seg, segs, hseg⟩ := List.exists_cons_of_ne_nil (List.splitOn_ne_nil '$' word)
  rw [hseg]
  rfl

theorem names_pid : names ('$' :: '$' :: word) = names word := by
  unfold names
  rw [splitOn_dollar, splitOn_dollar]
  obtain ⟨seg, segs, hseg⟩ := List.exists_cons_of_ne_nil (List.splitOn_ne_nil '$' word)
  rw [hseg]
  rfl

/-- A name behind a `$`, and what comes behind it. -/
theorem splitOn_name (hname : '$' ∉ name) (hrest : ∀ c ∈ rest.head?, c = '$') :
    ∃ segs, (name ++ rest).splitOn '$' = name :: segs ∧
      (rest = [] ∧ segs = [] ∨ ∃ tail, rest = '$' :: tail ∧ segs = tail.splitOn '$') := by
  cases rest with
  | nil =>
    rw [List.append_nil, List.splitOn_eq_singleton hname]
    exact ⟨[], rfl, Or.inl ⟨rfl, rfl⟩⟩
  | cons c tail =>
    obtain rfl := hrest c rfl
    exact ⟨_, List.splitOn_append_cons_self_of_not_mem hname tail, Or.inr ⟨tail, rfl, rfl⟩⟩

theorem expansion_name (hname : '$' ∉ name) (hne : name ≠ []) (hrest : ∀ c ∈ rest.head?, c = '$') :
    expansion environ pid ('$' :: (name ++ rest)) =
      (environ name).getD [] ++ expansion environ pid rest := by
  obtain ⟨c, name, rfl⟩ := List.exists_cons_of_ne_nil hne
  obtain ⟨segs, hsplit, htail⟩ := splitOn_name hname hrest
  have hvalues : expansion environ pid rest = values environ pid segs := by
    rcases htail with ⟨rfl, rfl⟩ | ⟨tail, rfl, rfl⟩
    · rfl
    · unfold expansion
      rw [splitOn_dollar]
      rfl
  rw [hvalues]
  unfold expansion
  rw [splitOn_dollar, hsplit]
  rfl

theorem names_name (hname : '$' ∉ name) (hne : name ≠ []) (hrest : ∀ c ∈ rest.head?, c = '$') :
    names ('$' :: (name ++ rest)) = name :: names rest := by
  obtain ⟨c, name, rfl⟩ := List.exists_cons_of_ne_nil hne
  obtain ⟨segs, hsplit, htail⟩ := splitOn_name hname hrest
  have hnames : names rest = segNames segs := by
    unfold names
    rcases htail with ⟨rfl, rfl⟩ | ⟨tail, rfl, rfl⟩
    · rfl
    · rw [splitOn_dollar]
      rfl
  rw [hnames]
  unfold names
  rw [splitOn_dollar, hsplit]
  rfl

/-! ### The loops -/

variable {pre : Text}

theorem stop_eq (h : Begins buf l) (hlt : l.length < ARGSZ) :
    ∃ buf', stop l.length buf = .ok (buf', l.length) ∧ cString ARGSZ buf' = some l := by
  unfold stop
  rw [if_pos hlt]
  exact ⟨_, rfl, cString_eq h.stop (Function.update_self ..) hlt⟩

/-- **The name of a variable** is what `xbuf` holds. -/
theorem nameLoop_cases (hname : '$' ∉ name) (hrest : ∀ c ∈ rest.head?, c = '$') (h : Begins xbuf pre) :
    (∃ xbuf', nameLoop (name ++ rest) pre.length xbuf = .ok (rest, xbuf') ∧
      cString ARGSZ xbuf' = some (pre ++ name) ∧ (pre ++ name).length < ARGSZ) ∨
    (nameLoop (name ++ rest) pre.length xbuf = .error .overflow ∧ ARGSZ ≤ (pre ++ name).length) := by
  induction name generalizing pre xbuf with
  | nil =>
    rw [List.append_nil, List.nil_append]
    have hstop : nameLoop rest pre.length xbuf = (stop pre.length xbuf).map fun r => (rest, r.1) := by
      cases rest with
      | nil =>
        unfold nameLoop
        cases stop pre.length xbuf <;> rfl
      | cons c tail =>
        unfold nameLoop
        rw [if_pos (hrest c rfl)]
        cases stop pre.length xbuf <;> rfl
    rw [hstop]
    by_cases hlt : pre.length < ARGSZ
    · obtain ⟨xbuf', hrun, hstr⟩ := stop_eq h hlt
      rw [hrun]
      exact Or.inl ⟨xbuf', rfl, hstr, hlt⟩
    · unfold stop
      rw [if_neg hlt]
      exact Or.inr ⟨rfl, by omega⟩
  | cons c name ih =>
    rw [List.mem_cons, not_or] at hname
    rw [List.cons_append]
    unfold nameLoop putChar
    rw [if_neg (Ne.symm hname.1)]
    by_cases hlt : pre.length < ARGSZ
    · rw [if_pos hlt]
      have := ih hname.2 (h.store (a := c))
      rw [List.append_assoc, List.singleton_append, List.length_append, List.length_singleton] at this
      exact this
    · rw [if_neg hlt, List.length_append]
      exact Or.inr ⟨rfl, by omega⟩

/-- What a loop comes to that is to put `text` into the array, and that needs room for the names. -/
def Comes (r : Except Stop ((ℕ → Option Char) × ℕ)) (text : Text) (ns : List Text) : Prop :=
  (∃ buf', r = .ok (buf', text.length) ∧ cString ARGSZ buf' = some text ∧ text.length < ARGSZ ∧
    ∀ name ∈ ns, name.length < ARGSZ) ∨
  (r = .error .overflow ∧ (ARGSZ ≤ text.length ∨ ∃ name ∈ ns, ARGSZ ≤ name.length))

variable {r : Except Stop ((ℕ → Option Char) × ℕ)} {ns : List Text}
  {f : (ℕ → Option Char) × ℕ → Except Stop ((ℕ → Option Char) × ℕ)}

theorem comes_stop (h : Begins buf l) (hns : ns = []) : Comes (stop l.length buf) l ns := by
  subst hns
  by_cases hlt : l.length < ARGSZ
  · obtain ⟨buf', hrun, hstr⟩ := stop_eq h hlt
    exact Or.inl ⟨buf', hrun, hstr, hlt, by simp⟩
  · exact Or.inr ⟨if_neg hlt, Or.inl (by omega)⟩

theorem comes_putChar (h : Begins buf l)
    (hf : ∀ buf', Begins buf' (l ++ [c]) → Comes (f (buf', (l ++ [c]).length)) (l ++ c :: text) ns) :
    Comes (putChar c l.length buf >>= f) (l ++ c :: text) ns := by
  unfold putChar
  by_cases hlt : l.length < ARGSZ
  · have := hf _ h.store
    rw [List.length_append] at this
    rwa [if_pos hlt, ok_bind]
  · rw [if_neg hlt, error_bind]
    refine Or.inr ⟨rfl, Or.inl ?_⟩
    rw [List.length_append]
    omega

theorem comes_put {value : Text} (h : Begins buf l)
    (hf : ∀ buf', Begins buf' (l ++ value) →
      Comes (f (buf', (l ++ value).length)) (l ++ value ++ text) ns) :
    Comes (put value l.length buf >>= f) (l ++ (value ++ text)) ns := by
  rw [← List.append_assoc]
  unfold put
  by_cases hlt : l.length + value.length < ARGSZ
  · have := hf _ h.paste
    rw [List.length_append] at this
    rwa [if_pos hlt, ok_bind]
  · rw [if_neg hlt, error_bind]
    refine Or.inr ⟨rfl, Or.inl ?_⟩
    rw [List.length_append, List.length_append]
    omega

theorem Comes.cons (h : Comes r text ns) (hlt : name.length < ARGSZ) : Comes r text (name :: ns) := by
  rcases h with ⟨buf', hrun, hstr, hfit, hns⟩ | ⟨hrun, hfull | ⟨big, hbig, hle⟩⟩
  · exact Or.inl ⟨buf', hrun, hstr, hfit, List.forall_mem_cons.mpr ⟨hlt, hns⟩⟩
  · exact Or.inr ⟨hrun, Or.inl hfull⟩
  · exact Or.inr ⟨hrun, Or.inr ⟨big, List.mem_cons_of_mem name hbig, hle⟩⟩

/-- **The loop of `add_arg`** puts the expansion of the rest of the word behind what is there. -/
theorem addArgLoop_comes (m : Machine) (environ : Text → Option Text) (hn : word.length < n)
    (h : Begins buf l) : Comes (addArgLoop m environ n word l.length buf)
      (l ++ expansion environ m.pid word) (names word) := by
  induction n generalizing word l buf with
  | zero => omega
  | succ n ih =>
    rcases word with _ | ⟨c, word⟩
    · rw [expansion_nil, List.append_nil]
      exact comes_stop h rfl
    rw [List.length_cons] at hn
    unfold addArgLoop
    by_cases hc : c = '$'
    · subst hc
      rw [if_pos rfl]
      rcases word with _ | ⟨d, word⟩
      · exact comes_putChar h fun buf' hbuf => comes_stop hbuf rfl
      rw [List.length_cons] at hn
      dsimp only
      by_cases hd : d = '$'
      · subst hd
        rw [if_pos rfl, expansion_pid, names_pid]
        exact comes_put h fun buf' hbuf => ih (by omega) hbuf
      · rw [if_neg hd]
        -- the name goes up to the next `$`
        obtain ⟨name, rest, hsplit, hname, hne, hrest⟩ : ∃ name rest : Text, d :: word = name ++ rest ∧
            '$' ∉ name ∧ name ≠ [] ∧ ∀ c ∈ rest.head?, c = '$' := by
          refine ⟨(d :: word).takeWhile (· ≠ '$'), (d :: word).dropWhile (· ≠ '$'),
            List.takeWhile_append_dropWhile.symm, fun hmem => ?_, ?_, fun c hc => ?_⟩
          · simpa using List.mem_takeWhile_imp hmem
          · simp [hd]
          · have := List.head?_dropWhile_not (fun x => decide (x ≠ '$')) (d :: word)
            rw [Option.mem_def.mp hc] at this
            simpa using this
        have hlen : rest.length < n := by
          have := congrArg List.length hsplit
          have := List.length_pos_iff.mpr hne
          rw [List.length_append, List.length_cons] at *
          omega
        rw [hsplit, expansion_name hname hne hrest, names_name hname hne hrest]
        have hstack : Begins m.stack [] := begins_nil
        rcases nameLoop_cases hname hrest hstack with
          ⟨xbuf, hrun, hstr, hfit⟩ | ⟨hrun, hfull⟩
        · rw [List.nil_append] at hstr hfit
          rw [List.length_nil] at hrun
          simp only [hrun, ok_bind, hstr]
          refine Comes.cons ?_ hfit
          cases environ name with
          | none => exact ih hlen h
          | some value => exact comes_put h fun buf' hbuf => ih hlen hbuf
        · rw [List.nil_append] at hfull
          rw [List.length_nil] at hrun
          rw [hrun]
          exact Or.inr ⟨rfl, Or.inr ⟨name, List.mem_cons_self, hfull⟩⟩
    · rw [if_neg hc, expansion_char hc, names_char hc]
      refine comes_putChar h fun buf' hbuf => ?_
      have hlen : word.length < n := by omega
      have := ih hlen hbuf
      rwa [List.append_assoc, List.singleton_append] at this

/-- **`add_arg`** adds the expansion of the word if it fits and is not empty, whatever the local
arrays held before; if it does not fit, the code writes behind one of them. -/
theorem addArg_eq (m : Machine) (xarg : Text) (s : Shell) : addArg m xarg s =
    if Fits s.core.world.environ m.pid xarg then
      if expansion s.core.world.environ m.pid xarg = [] then .ok s
      else addSimpleArg (expansion s.core.world.environ m.pid xarg) s
    else .error .overflow := by
  have hstack : Begins m.stack [] := begins_nil
  have h := addArgLoop_comes m s.core.world.environ (Nat.lt_succ_self xarg.length) hstack
  rw [List.nil_append, List.length_nil] at h
  unfold addArg
  rcases h with ⟨buf, hrun, hstr, hfit⟩ | ⟨hrun, hfull⟩
  · have hfits : Fits s.core.world.environ m.pid xarg := hfit
    rw [if_pos hfits, hrun]
    simp only [ok_bind, hstr, List.length_pos_iff, ne_eq, ite_not]
    rfl
  · have hnot : ¬ Fits s.core.world.environ m.pid xarg := by
      rintro ⟨hlt, hns⟩
      rcases hfull with hfull | ⟨name, hmem, hfull⟩
      · omega
      · have := hns name hmem
        omega
    rw [if_neg hnot, hrun]
    rfl

end LinuxHomework.Msh.Expand
