import LinuxHomework.Shell.Calls

/-! # The descriptors of the shell

External commands run in children, and the shell closes its ends of the pipes again. A built-in
command runs in the shell itself: its pipes and redirections are put in the place of descriptors 0
and 1 there, and nothing puts the old open files back.

* `table_kept`: a line leaves the descriptors of the shell alone if and only if every built-in
  command stands alone in its pipeline and has no redirection.
* `not_table_kept`: `echo hi > f`. -/

namespace LinuxHomework.Shell.Descriptors

open LinuxHomework.Lib.Descriptors LinuxHomework.Lib.Outcome LinuxHomework.Shell.Commands
open LinuxHomework.Shell.Parse LinuxHomework.Shell.Calls

/-- Every built-in command of the pipeline stands alone in it, without redirection. -/
def Alone (p : Pipeline) : Prop := ∀ ws ∈ p.stages, isBuildin ws = true →
  p.stages.length = 1 ∧ ∀ t ∈ ws, redirection t = none

instance : DecidablePred Alone := fun p =>
  inferInstanceAs (Decidable (∀ ws ∈ p.stages, _ → _ ∧ ∀ t ∈ ws, _))

variable {env : Env} {now : Moment} {m a b fd : ℕ} {T T' T'' : Table Kind} {mode : Mode}
  {ws argv : List Text}
  {prefd postfd : Option Pipefd} {bg : Bool} {c c' : Core} {stages : List (List Text)}
  {ps : List Pipeline} {P Q : ℕ → Prop}

/-! ### What is open since the line began -/

/-- The standard descriptors are open; `m` open files were made when the line began. -/
structure Live (m : ℕ) (T : Table Kind) : Prop where
  std : ∀ fd < 3, (T.file fd).isSome
  made : m ≤ T.made

/-- The descriptor refers to an open file that was made since the line began. -/
def New (m : ℕ) (T : Table Kind) (fd : ℕ) : Prop := ∃ f, T.file fd = some f ∧ m ≤ f.num

/-- An end of a pipe. -/
def End (m : ℕ) (T : Table Kind) (fd : ℕ) : Prop := 3 ≤ fd ∧ New m T fd

/-- Standard input or output is no longer what it was. -/
def Altered (m : ℕ) (T : Table Kind) : Prop := New m T 0 ∨ New m T 1

/-- **A step** of the shell: among the ends of pipes only those with `P` may go, and a descriptor
that was altered stays altered. -/
structure Step (m : ℕ) (P : ℕ → Prop) (T T' : Table Kind) : Prop where
  live : Live m T'
  ends : ∀ fd, End m T fd → ¬ P fd → End m T' fd
  altered : Altered m T → Altered m T'

theorem Step.refl (h : Live m T) : Step m P T T := ⟨h, fun _ hfd _ => hfd, id⟩

theorem Step.trans (h : Step m P T T') (h' : Step m P T' T'') : Step m P T T'' :=
  ⟨h'.live, fun fd hfd hP => h'.ends fd (h.ends fd hfd hP) hP, fun ha => h'.altered (h.altered ha)⟩

theorem Step.mono (h : Step m P T T') (hPQ : ∀ fd, P fd → Q fd) : Step m Q T T' :=
  ⟨h.live, fun fd hfd hQ => h.ends fd hfd fun hP => hQ (hPQ fd hP), h.altered⟩

/-! ### The calls of the kernel -/

theorem New.congr (h : New m T fd) (heq : T'.file fd = T.file fd) : New m T' fd := by
  obtain ⟨f, hf, hm⟩ := h
  exact ⟨f, heq.trans hf, hm⟩

/-- An end of a pipe is closed. -/
theorem step_close (h : Live m T) (hfd : 3 ≤ fd) (hP : P fd) : Step m P T (T.close fd) := by
  have hlow : ∀ b < 3, (T.close fd).file b = T.file b := fun b hb => Table.file_close (by omega)
  refine ⟨⟨fun b hb => by rw [hlow b hb]; exact h.std b hb, h.made⟩, fun b hb hPb => ?_, ?_⟩
  · exact ⟨hb.1, hb.2.congr (Table.file_close fun heq => hPb (heq ▸ hP))⟩
  · rintro (h0 | h1)
    · exact Or.inl (h0.congr (hlow 0 (by omega)))
    · exact Or.inr (h1.congr (hlow 1 (by omega)))

/-- A standard descriptor `b` becomes new, nothing else changes. -/
theorem step_replace (h : Live m T) (hb : b < 2) (hmade : m ≤ T'.made) (hnew : New m T' b)
    (hrest : ∀ fd, fd ≠ b → T'.file fd = T.file fd) : Step m P T T' ∧ Altered m T' := by
  have haltered : Altered m T' := by
    rcases (show b = 0 ∨ b = 1 by omega) with rfl | rfl
    · exact Or.inl hnew
    · exact Or.inr hnew
  refine ⟨⟨⟨fun fd hfd => ?_, hmade⟩, fun fd hfd _ => ?_, fun _ => haltered⟩, haltered⟩
  · by_cases heq : fd = b
    · obtain ⟨f, hf, -⟩ := hnew
      rw [heq, hf]
      rfl
    · rw [hrest fd heq]
      exact h.std fd hfd
  · have h3 : 3 ≤ fd := hfd.1
    exact ⟨hfd.1, hfd.2.congr (hrest fd (by omega))⟩

theorem step_dup2 (h : Live m T) (ha : End m T a) (hb : b < 2) :
    Step m P T (T.dup2 a b) ∧ Altered m (T.dup2 a b) := by
  obtain ⟨-, f, hf, hm⟩ := ha
  refine step_replace h hb h.made ⟨f, ?_, hm⟩ fun fd hfd => Table.file_dup2 hfd
  rw [Table.file_dup2_self (by rw [hf]; rfl), hf]

/-- **A file is opened** by its name in the place of a standard descriptor. -/
theorem file_reopen {name : Text} (hstd : ∀ b < fd, (T.file b).isSome)
    (h : reopen now fd mode (some name) T = .ok T') :
    T'.file fd = some ⟨T.made, .named name mode⟩ ∧ T'.made = T.made + 1 ∧
      ∀ b, b ≠ fd → T'.file b = T.file b := by
  unfold reopen at h
  dsimp only at h
  split_ifs at h
  obtain rfl := Except.ok.inj h
  have hfree : (T.close fd).free = fd := by
    refine Table.free_eq Table.file_close_self fun b hb => ?_
    rw [Table.file_close (by omega)]
    exact hstd b hb
  have hself := Table.file_create_free (T := T.close fd) (k := Kind.named name mode)
  rw [hfree] at hself
  refine ⟨hself, rfl, fun b hb => ?_⟩
  rw [Table.file_create (by rw [hfree]; exact hb), Table.file_close hb]

theorem step_reopen {name : Text} (h : Live m T) (hfd : fd < 2)
    (hopen : reopen now fd mode (some name) T = .ok T') : Step m P T T' ∧ Altered m T' := by
  have hmade := h.made
  obtain ⟨hself, hnext, hother⟩ := file_reopen (fun b hb => h.std b (by omega)) hopen
  exact step_replace h hfd (by omega) ⟨_, hself, hmade⟩ hother

theorem redirection_lt {t : Text} (h : redirection t = some (fd, mode)) : fd < 2 := by
  unfold redirection at h
  split_ifs at h
  · obtain ⟨rfl, -⟩ := Prod.mk.inj (Option.some.inj h)
    omega
  · obtain ⟨rfl, -⟩ := Prod.mk.inj (Option.some.inj h)
    omega

/-- **Redirections** alter the standard descriptors. -/
theorem step_redirect (h : Live m T) (hrun : redirect now ws T = .ok (argv, T')) :
    Step m P T T' ∧ ((∃ t ∈ ws, redirection t ≠ none) → Altered m T') := by
  induction ws, T using redirect.induct generalizing argv with
  | case1 T =>
    obtain ⟨-, rfl⟩ := Prod.mk.inj (Except.ok.inj hrun)
    refine ⟨Step.refl h, ?_⟩
    rintro ⟨t, ht, -⟩
    exact absurd ht List.not_mem_nil
  | case2 t T fd mode hr =>
    rw [redirect_lone hr] at hrun
    exact absurd hrun (by simp)
  | case3 t T fd mode hr name ts ih =>
    rw [redirect_redirection hr] at hrun
    obtain ⟨T₁, hopen, hrun⟩ := bind_eq_ok.mp hrun
    obtain ⟨hstep, haltered⟩ := step_reopen (P := P) h (redirection_lt hr) hopen
    obtain ⟨hrest, -⟩ := ih T₁ hstep.live hrun
    exact ⟨hstep.trans hrest, fun _ => hrest.altered haltered⟩
  | case4 t ts T hr ih =>
    rw [redirect_word hr] at hrun
    obtain ⟨u, -, hrun⟩ := bind_eq_ok.mp hrun
    obtain ⟨r, hr', hrun⟩ := bind_eq_ok.mp hrun
    obtain ⟨-, rfl⟩ := Prod.mk.inj (Except.ok.inj hrun)
    obtain ⟨hstep, hredir⟩ := ih h hr'
    refine ⟨hstep, ?_⟩
    rintro ⟨v, hv, hne⟩
    rcases List.mem_cons.mp hv with rfl | hv
    · exact absurd hr hne
    · exact hredir ⟨v, hv, hne⟩

/-- Without redirections the table stays as it is. -/
theorem redirect_plain (hplain : ∀ t ∈ ws, redirection t = none)
    (hrun : redirect now ws T = .ok (argv, T')) : T' = T := by
  induction ws generalizing argv with
  | nil =>
    obtain ⟨-, rfl⟩ := Prod.mk.inj (Except.ok.inj hrun)
    rfl
  | cons t ts ih =>
    rw [redirect_word (hplain t (by simp))] at hrun
    obtain ⟨u, -, hrun⟩ := bind_eq_ok.mp hrun
    obtain ⟨r, hr, hrun⟩ := bind_eq_ok.mp hrun
    obtain ⟨-, rfl⟩ := Prod.mk.inj (Except.ok.inj hrun)
    exact ih (fun u hu => hplain u (by simp [hu])) hr

theorem step_create (h : Live m T) (k : Kind) :
    Step m P T (T.create k) ∧ End m (T.create k) T.free := by
  have hfree : 3 ≤ T.free := Table.le_free h.std
  have hmade := h.made
  have hkeep : ∀ fd, (T.file fd).isSome → (T.create k).file fd = T.file fd := by
    intro fd hfd
    refine Table.file_create fun heq => ?_
    rw [heq, T.file_free] at hfd
    exact absurd hfd (by simp)
  have hnew : ∀ fd, New m T fd → New m (T.create k) fd := by
    rintro fd ⟨f, hf, hm⟩
    exact New.congr ⟨f, hf, hm⟩ (hkeep fd (by rw [hf]; rfl))
  refine ⟨⟨⟨fun fd hfd => ?_, ?_⟩, fun fd hfd _ => ⟨hfd.1, hnew fd hfd.2⟩, ?_⟩, hfree,
    ⟨T.made, k⟩, Table.file_create_free, hmade⟩
  · rw [hkeep fd (h.std fd hfd)]
    exact h.std fd hfd
  · rw [Table.made_create]
    omega
  · rintro (h0 | h1)
    · exact Or.inl (hnew 0 h0)
    · exact Or.inr (hnew 1 h1)

theorem file_pipe_read (c : Core) (hne : c.pipe.1.1 ≠ c.pipe.1.2) : c.pipe.2.files.file c.pipe.1.1 =
    some ⟨c.files.made, .readEnd c.files.made⟩ :=
  (Table.file_create hne).trans Table.file_create_free

theorem file_pipe_write (c : Core) : c.pipe.2.files.file c.pipe.1.2 =
    some ⟨c.files.made + 1, .writeEnd c.files.made⟩ := Table.file_create_free

/-- **A new pipe**: its two descriptors were free, and no other one changes. -/
theorem file_pipe (c : Core) : c.pipe.1.1 ≠ c.pipe.1.2 ∧ c.files.file c.pipe.1.1 = none ∧
    c.files.file c.pipe.1.2 = none ∧ (c.pipe.2.files.file c.pipe.1.1).isSome ∧
      ∀ fd, fd ≠ c.pipe.1.1 → fd ≠ c.pipe.1.2 → c.pipe.2.files.file fd = c.files.file fd := by
  have hfree := (c.files.create (.readEnd c.files.made)).file_free
  have hne : c.pipe.1.1 ≠ c.pipe.1.2 := by
    intro heq
    rw [show (c.files.create _).free = c.pipe.1.2 from rfl, ← heq] at hfree
    rw [show c.pipe.1.1 = c.files.free from rfl, Table.file_create_free] at hfree
    exact absurd hfree (by simp)
  refine ⟨hne, c.files.file_free, ?_, ?_, fun fd hr hw => ?_⟩
  · exact (Table.file_create (Ne.symm hne)).symm.trans hfree
  · rw [file_pipe_read c hne]
    rfl
  · exact (Table.file_create hw).trans (Table.file_create hr)

/-- The descriptors of a new pipe are ends of it. -/
theorem step_pipe (h : Live m c.files) : Step m P c.files c.pipe.2.files ∧
    End m c.pipe.2.files c.pipe.1.1 ∧ End m c.pipe.2.files c.pipe.1.2 := by
  obtain ⟨hstep, hr⟩ := step_create (P := fun _ => False) h (.readEnd c.files.made)
  obtain ⟨hstep', hw⟩ := step_create (P := fun _ => False) hstep.live (.writeEnd c.files.made)
  exact ⟨(hstep.trans hstep').mono fun fd hfd => hfd.elim, hstep'.ends _ hr id, hw⟩

/-! ### Simple commands -/

/-- The ends of pipes that a simple command closes in the shell. -/
def Gone (prefd postfd : Option Pipefd) (fd : ℕ) : Prop :=
  (∃ p ∈ prefd, fd = p.1) ∨ ∃ q ∈ postfd, fd = q.2

theorem step_joinPre (h : Live m T) (hpre : ∀ p ∈ prefd, End m T p.1) :
    Step m (Gone prefd none) T (joinPre prefd T) ∧ (prefd ≠ none → Altered m (joinPre prefd T)) := by
  cases prefd with
  | none => exact ⟨Step.refl h, fun hne => absurd rfl hne⟩
  | some p =>
    have hend := hpre p rfl
    obtain ⟨hstep, haltered⟩ := step_dup2 (P := Gone (some p) none) (b := 0) h hend (by omega)
    have hclose := step_close (P := Gone (some p) none) hstep.live hend.1 (Or.inl ⟨p, rfl, rfl⟩)
    exact ⟨hstep.trans hclose, fun _ => hclose.altered haltered⟩

theorem step_joinPost (h : Live m T) (hpost : ∀ q ∈ postfd, End m T q.2) :
    Step m (Gone none postfd) T (joinPost postfd T) ∧
      (postfd ≠ none → Altered m (joinPost postfd T)) := by
  cases postfd with
  | none => exact ⟨Step.refl h, fun hne => absurd rfl hne⟩
  | some q =>
    have hend := hpost q rfl
    obtain ⟨hstep, haltered⟩ := step_dup2 (P := Gone none (some q)) (b := 1) h hend (by omega)
    have hclose := step_close (P := Gone none (some q)) hstep.live hend.1 (Or.inr ⟨q, rfl, rfl⟩)
    exact ⟨hstep.trans hclose, fun _ => hclose.altered haltered⟩

theorem step_closeEnd {e : Option ℕ} (h : Live m T) (he : ∀ fd ∈ e, 3 ≤ fd ∧ P fd) :
    Step m P T (closeEnd e T) := by
  cases e with
  | none => exact Step.refl h
  | some fd => exact step_close h (he fd rfl).1 (he fd rfl).2

theorem step_closeParent (h : Live m T) (hpre : ∀ p ∈ prefd, End m T p.1)
    (hpost : ∀ q ∈ postfd, End m T q.2) :
    Step m (Gone prefd postfd) T (closeParent prefd postfd T) := by
  have hwrite : Step m (Gone prefd postfd) T (closeEnd (postfd.map Prod.snd) T) := by
    refine step_closeEnd h fun fd hfd => ?_
    obtain ⟨q, hq, rfl⟩ := Option.map_eq_some_iff.mp hfd
    exact ⟨(hpost q hq).1, Or.inr ⟨q, hq, rfl⟩⟩
  refine hwrite.trans (step_closeEnd hwrite.live fun fd hfd => ?_)
  obtain ⟨p, hp, rfl⟩ := Option.map_eq_some_iff.mp hfd
  exact ⟨(hpre p hp).1, Or.inl ⟨p, hp, rfl⟩⟩

/-- **A simple command.** A built-in one with a pipe or a redirection alters the descriptors. -/
theorem step_runStage (h : Live m c.files) (hpre : ∀ p ∈ prefd, End m c.files p.1)
    (hpost : ∀ q ∈ postfd, End m c.files q.2 ∧ ∀ p ∈ prefd, q.2 ≠ p.1)
    (hrun : runStage env ws prefd postfd bg c = .ok c') :
    Step m (Gone prefd postfd) c.files c'.files ∧ (isBuildin ws = true →
      (prefd ≠ none ∨ postfd ≠ none ∨ ∃ t ∈ ws, redirection t ≠ none) → Altered m c'.files) := by
  rcases runStage_cases hrun with ⟨-, argv, T, hr, rfl⟩ | ⟨hext, rfl⟩
  · obtain ⟨hstep₁, ha₁⟩ := step_joinPre h hpre
    have hpost' : ∀ q ∈ postfd, End m (joinPre prefd c.files) q.2 := by
      intro q hq
      obtain ⟨hend, hne⟩ := hpost q hq
      refine hstep₁.ends q.2 hend ?_
      rintro (⟨p, hp, heq⟩ | ⟨q', hq', -⟩)
      · exact hne p hp heq
      · exact absurd hq' (by simp)
    obtain ⟨hstep₂, ha₂⟩ := step_joinPost hstep₁.live hpost'
    obtain ⟨hstep₃, ha₃⟩ := step_redirect (P := Gone prefd postfd) hstep₂.live hr
    have hjoin : Step m (Gone prefd postfd) c.files (joinPre prefd c.files) := by
      refine hstep₁.mono fun fd hfd => ?_
      rcases hfd with hp | ⟨q, hq, -⟩
      · exact Or.inl hp
      · exact absurd hq (by simp)
    have hjoin' : Step m (Gone prefd postfd) (joinPre prefd c.files)
        (joinPost postfd (joinPre prefd c.files)) := by
      refine hstep₂.mono fun fd hfd => ?_
      rcases hfd with ⟨p, hp, -⟩ | hq
      · exact absurd hp (by simp)
      · exact Or.inr hq
    refine ⟨(hjoin.trans hjoin').trans hstep₃, fun _ hcause => ?_⟩
    rcases hcause with hne | hne | hredir
    · exact hstep₃.altered (hstep₂.altered (ha₁ hne))
    · exact hstep₃.altered (ha₂ hne)
    · exact ha₃ hredir
  · refine ⟨step_closeParent h hpre fun q hq => (hpost q hq).1, fun hb => ?_⟩
    rw [hext] at hb
    exact absurd hb (by simp)

/-! ### Pipelines -/

/-- **A pipeline** alters the descriptors if a built-in command in it does not stand alone. -/
theorem step_runStages (h : Live m c.files) (hpre : ∀ p ∈ prefd, End m c.files p.1)
    (hrun : runStages env bg prefd stages c = .ok c') :
    Step m (fun _ => True) c.files c'.files ∧ ∀ ws ∈ stages, isBuildin ws = true →
      (prefd ≠ none ∨ stages.length ≠ 1 ∨ ∃ t ∈ ws, redirection t ≠ none) →
        Altered m c'.files := by
  induction stages generalizing prefd c with
  | nil =>
    obtain rfl := Except.ok.inj hrun
    exact ⟨Step.refl h, fun ws hws => absurd hws (by simp)⟩
  | cons ws stages ih =>
    by_cases hne : stages = []
    · subst hne
      obtain ⟨hstep, haltered⟩ := step_runStage h hpre (by simp) hrun
      refine ⟨hstep.mono fun _ _ => trivial, fun st hst hb hcause => ?_⟩
      obtain rfl := List.mem_singleton.mp hst
      refine haltered hb ?_
      rcases hcause with hp | hlen | hr
      · exact Or.inl hp
      · exact absurd rfl hlen
      · exact Or.inr (Or.inr hr)
    · rw [runStages_cons hne] at hrun
      obtain ⟨c₁, h₁, hrun⟩ := bind_eq_ok.mp hrun
      obtain ⟨hpipe, hr, hw⟩ := step_pipe (P := fun _ => False) h
      obtain ⟨hrw, hfreer, hfree, -⟩ := file_pipe c
      have hpre' : ∀ p ∈ prefd, End m c.pipe.2.files p.1 := fun p hp => hpipe.ends _ (hpre p hp) id
      -- the read end of the pipe before was open before the new pipe, so it is no end of it
      have hold : ∀ p ∈ prefd, c.pipe.1.2 ≠ p.1 ∧ c.pipe.1.1 ≠ p.1 := by
        intro p hp
        obtain ⟨-, f, hf, -⟩ := hpre p hp
        constructor
        · rintro heq
          rw [← heq, hfree] at hf
          exact absurd hf (by simp)
        · rintro heq
          rw [← heq, hfreer] at hf
          exact absurd hf (by simp)
      have hpost : ∀ q ∈ some c.pipe.1,
          End m c.pipe.2.files q.2 ∧ ∀ p ∈ prefd, q.2 ≠ p.1 := by
        intro q hq
        obtain rfl := Option.some.inj hq
        exact ⟨hw, fun p hp => (hold p hp).1⟩
      obtain ⟨hstep, haltered⟩ := step_runStage hpipe.live hpre' hpost h₁
      have hnext : ∀ p ∈ some c.pipe.1, End m c₁.files p.1 := by
        intro p hp
        obtain rfl := Option.some.inj hp
        refine hstep.ends _ hr ?_
        rintro (⟨p, hp, heq⟩ | ⟨q, hq, heq⟩)
        · exact (hold p hp).2 heq
        · obtain rfl := Option.some.inj hq
          exact hrw heq
      obtain ⟨hrest, hbuildin⟩ := ih hstep.live hnext hrun
      refine ⟨((hpipe.mono fun _ hf => hf.elim).trans (hstep.mono fun _ _ => trivial)).trans hrest,
        fun st hst hb hcause => ?_⟩
      rcases List.mem_cons.mp hst with rfl | hst
      · exact hrest.altered (haltered hb (Or.inr (Or.inl (by simp))))
      · exact hbuildin st hst hb (Or.inl (by simp))

/-! ### Pipelines of external commands -/

/-- Between two external commands of a pipeline the shell has just the read end of a pipe besides
the open files `B`. -/
structure Between (B : ℕ → Option (OpenFile Kind)) (prefd : Option Pipefd) (T : Table Kind) :
    Prop where
  base : ∀ fd, (∀ p ∈ prefd, fd ≠ p.1) → T.file fd = B fd
  free : ∀ p ∈ prefd, B p.1 = none ∧ (T.file p.1).isSome

theorem files_runStage (hext : isBuildin ws = false)
    (hrun : runStage env ws prefd postfd bg c = .ok c') :
    c'.files = closeParent prefd postfd c.files := by
  rcases runStage_cases hrun with ⟨hb, -⟩ | ⟨-, rfl⟩
  · rw [hext] at hb
    exact absurd hb (by simp)
  · rfl

/-- The read end that the shell holds is no end of a new pipe. -/
theorem Between.apart {B : ℕ → Option (OpenFile Kind)} (h : Between B prefd c.files) :
    ∀ p ∈ prefd, p.1 ≠ c.pipe.1.1 ∧ p.1 ≠ c.pipe.1.2 := by
  intro p hp
  obtain ⟨-, hr, hw, -⟩ := file_pipe c
  have hopen := (h.free p hp).2
  constructor
  · rintro heq
    rw [heq, hr] at hopen
    exact absurd hopen (by simp)
  · rintro heq
    rw [heq, hw] at hopen
    exact absurd hopen (by simp)

/-- **From one external command to the next** the shell takes the read end of the new pipe for the
one that it had. -/
theorem Between.next {B : ℕ → Option (OpenFile Kind)} (h : Between B prefd c.files) :
    Between B (some c.pipe.1) (closeParent prefd (some c.pipe.1) c.pipe.2.files) ∧
      (closeParent prefd (some c.pipe.1) c.pipe.2.files).file c.pipe.1.1 =
        c.pipe.2.files.file c.pipe.1.1 := by
  obtain ⟨hrw, hr, hw, hsome, hkeep⟩ := file_pipe c
  have hold := h.apart
  have hclosed : ∀ fd, fd ≠ c.pipe.1.1 → (∀ p ∈ prefd, fd ≠ p.1) →
      (c.pipe.2.files.close c.pipe.1.2).file fd = B fd := by
    intro fd hfd hfd'
    by_cases heq : fd = c.pipe.1.2
    · rw [heq, Table.file_close_self, ← h.base _ fun p hp => (hold p hp).2.symm, hw]
    · rw [Table.file_close heq, hkeep fd hfd heq, h.base fd hfd']
  have hread : (c.pipe.2.files.close c.pipe.1.2).file c.pipe.1.1 =
      c.pipe.2.files.file c.pipe.1.1 := Table.file_close hrw
  have hBr : B c.pipe.1.1 = none := by
    rw [← h.base _ fun p hp => (hold p hp).1.symm, hr]
  cases prefd with
  | none =>
    refine ⟨⟨fun fd hfd => hclosed fd (hfd _ rfl) (by simp), fun q hq => ?_⟩, hread⟩
    obtain rfl := Option.some.inj hq
    refine ⟨hBr, ?_⟩
    rw [← hread] at hsome
    exact hsome
  | some p =>
    have hfile : ∀ fd, (closeParent (some p) (some c.pipe.1) c.pipe.2.files).file fd =
        ((c.pipe.2.files.close c.pipe.1.2).close p.1).file fd := fun _ => rfl
    have hkept : (closeParent (some p) (some c.pipe.1) c.pipe.2.files).file c.pipe.1.1 =
        c.pipe.2.files.file c.pipe.1.1 := by
      rw [hfile, Table.file_close (hold p rfl).1.symm, hread]
    refine ⟨⟨fun fd hfd => ?_, fun q hq => ?_⟩, hkept⟩
    · rw [hfile]
      by_cases heq : fd = p.1
      · rw [heq, Table.file_close_self, (h.free p rfl).1]
      · rw [Table.file_close heq]
        refine hclosed fd (hfd _ rfl) fun q hq => ?_
        obtain rfl := Option.some.inj hq
        exact heq
    · obtain rfl := Option.some.inj hq
      refine ⟨hBr, ?_⟩
      rw [hkept]
      exact hsome

/-- Behind the last command of a pipeline the shell has just the open files `B`. -/
theorem Between.last {B : ℕ → Option (OpenFile Kind)} (h : Between B prefd c.files) :
    (closeParent prefd none c.files).file = B := by
  funext fd
  cases prefd with
  | none => exact h.base fd (by simp)
  | some p =>
    show (c.files.close p.1).file fd = B fd
    by_cases heq : fd = p.1
    · rw [heq, Table.file_close_self, (h.free p rfl).1]
    · rw [Table.file_close heq]
      refine h.base fd fun q hq => ?_
      obtain rfl := Option.some.inj hq
      exact heq

/-- **A pipeline of external commands** leaves the descriptors alone. -/
theorem files_external {B : ℕ → Option (OpenFile Kind)} (h : Between B prefd c.files)
    (hne : stages ≠ []) (hext : ∀ ws ∈ stages, isBuildin ws = false)
    (hrun : runStages env bg prefd stages c = .ok c') : c'.files.file = B := by
  induction stages generalizing prefd c with
  | nil => exact absurd rfl hne
  | cons ws stages ih =>
    have hws := hext ws (by simp)
    by_cases hlast : stages = []
    · subst hlast
      rw [files_runStage hws hrun]
      exact h.last
    · rw [runStages_cons hlast] at hrun
      obtain ⟨c₁, h₁, hrun⟩ := bind_eq_ok.mp hrun
      refine ih ?_ hlast (fun st hst => hext st (by simp [hst])) hrun
      rw [files_runStage hws h₁]
      exact h.next.1

/-! ### Lines -/

/-- A pipeline whose built-in commands stand alone leaves the descriptors alone. -/
theorem files_alone {p : Pipeline} (hne : p.stages ≠ []) (h : Alone p)
    (hrun : runStages env p.bg none p.stages c = .ok c') : c'.files.file = c.files.file := by
  by_cases hext : ∀ ws ∈ p.stages, isBuildin ws = false
  · exact files_external ⟨fun _ _ => rfl, by simp⟩ hne hext hrun
  · push Not at hext
    obtain ⟨ws, hws, hb⟩ := hext
    obtain ⟨hlen, hplain⟩ := h ws hws (by simpa using hb)
    obtain ⟨st, hst⟩ := List.length_eq_one_iff.mp hlen
    rw [hst] at hws hrun
    obtain rfl := List.mem_singleton.mp hws
    rcases runStage_cases hrun with ⟨-, argv, T, hr, rfl⟩ | ⟨hno, -⟩
    · rw [redirect_plain hplain hr]
      rfl
    · exact absurd hno hb

theorem stages_ne_nil {line : List Text} {p : Pipeline} (h : p ∈ parse line) : p.stages ≠ [] := by
  obtain ⟨q, -, rfl⟩ := List.mem_map.mp h
  exact List.splitOn_ne_nil _ _

theorem files_runLine (hne : ∀ p ∈ ps, p.stages ≠ []) (h : ∀ p ∈ ps, Alone p)
    (hrun : runLine env ps c = .ok c') : c'.files.file = c.files.file := by
  induction ps generalizing c with
  | nil =>
    obtain rfl := Except.ok.inj hrun
    rfl
  | cons p ps ih =>
    obtain ⟨c₁, h₁, hrun⟩ := bind_eq_ok.mp hrun
    rw [ih (fun q hq => hne q (by simp [hq])) (fun q hq => h q (by simp [hq])) hrun]
    exact files_alone (hne p (by simp)) (h p (by simp)) h₁

/-- **A line** alters the descriptors if a built-in command does not stand alone in its pipeline. -/
theorem step_runLine (h : Live m c.files) (hrun : runLine env ps c = .ok c') :
    Step m (fun _ => True) c.files c'.files ∧ ((∃ p ∈ ps, ¬ Alone p) → Altered m c'.files) := by
  induction ps generalizing c with
  | nil =>
    obtain rfl := Except.ok.inj hrun
    exact ⟨Step.refl h, fun ⟨p, hp, _⟩ => absurd hp (by simp)⟩
  | cons p ps ih =>
    obtain ⟨c₁, h₁, hrun⟩ := bind_eq_ok.mp hrun
    obtain ⟨hstep, hbuildin⟩ := step_runStages h (by simp) h₁
    obtain ⟨hrest, haltered⟩ := ih hstep.live hrun
    refine ⟨hstep.trans hrest, ?_⟩
    rintro ⟨q, hq, hno⟩
    rcases List.mem_cons.mp hq with rfl | hq
    · unfold Alone at hno
      push Not at hno
      obtain ⟨ws, hws, hb, hcause⟩ := hno
      refine hrest.altered (hbuildin ws hws hb (Or.inr ?_))
      by_cases hlen : q.stages.length = 1
      · exact Or.inr (hcause hlen)
      · exact Or.inl hlen
    · exact haltered ⟨q, hq, hno⟩

/-- **A line that comes back leaves the descriptors of the shell alone** if and only if every
built-in command in it stands alone in its pipeline and has no redirection. -/
theorem table_kept {s s' : Mysh} {line : List Text} (h : Holds s.tokens 0 line)
    (hstd : ∀ fd < 3, (s.core.files.file fd).isSome) (hrun : doListCmd env s = .ok s') :
    s'.core.files.file = s.core.files.file ↔ ∀ p ∈ parse line, Alone p := by
  obtain ⟨τ, heq⟩ := doListCmd_eq env h
  rw [heq] at hrun
  cases hline : runLine env (parse line) s.core with
  | error e =>
    rw [hline] at hrun
    exact absurd hrun (by simp [Except.map])
  | ok c' =>
    rw [hline] at hrun
    obtain rfl := Except.ok.inj hrun
    constructor
    · intro hfile
      by_contra hno
      push Not at hno
      obtain ⟨-, haltered⟩ := step_runLine ⟨hstd, Nat.le_refl _⟩ hline
      -- what is made during the line was not open before
      have hold : ∀ fd, ¬ New s.core.files.made c'.files fd := by
        rintro fd ⟨f, hf, hm⟩
        rw [show c'.files.file = s.core.files.file from hfile] at hf
        have := s.core.files.old fd f hf
        omega
      rcases haltered hno with h0 | h1
      · exact hold 0 h0
      · exact hold 1 h1
    · exact fun halone => files_runLine (fun p hp => stages_ne_nil hp) halone hline

/-- `ls | wc < f ; echo hi & newline`. -/
def aloneLine : List Text :=
  [['l', 's'], ['|'], ['w', 'c'], ['<'], ['f'], [';'], ['e', 'c', 'h', 'o'], ['h', 'i'], ['&'],
    ['\n']]

/-- External commands in a pipeline, and a built-in one alone. -/
theorem table_kept_alone : ∃ s', doListCmd i686 (holding aloneLine) = .ok s' ∧
    s'.core.files.file = terminal.file := by
  have hrun : (doListCmd i686 (holding aloneLine)).toOption.isSome = true := by decide +kernel
  cases hres : doListCmd i686 (holding aloneLine) with
  | error e =>
    rw [hres] at hrun
    exact absurd hrun (by simp [Except.toOption])
  | ok s' =>
    exact ⟨s', rfl, (table_kept (holds_holding (by decide)) (by decide) hres).mpr (by decide)⟩

/-- `echo hi > f newline`. -/
def echoLine : List Text := [['e', 'c', 'h', 'o'], ['h', 'i'], ['>'], ['f'], ['\n']]

/-- The standard output of the shell is the file from then on. -/
theorem not_table_kept : ∃ s', doListCmd i686 (holding echoLine) = .ok s' ∧
    s'.core.files.file ≠ terminal.file := by
  have hrun : (doListCmd i686 (holding echoLine)).toOption.map (fun s => s.core.files.file 1) =
      some (some ⟨3, .named ['f'] .w⟩) := by decide +kernel
  cases hres : doListCmd i686 (holding echoLine) with
  | error e =>
    rw [hres] at hrun
    exact absurd hrun (by simp [Except.toOption])
  | ok s' =>
    refine ⟨s', rfl, fun hfile => ?_⟩
    rw [hres] at hrun
    have hout : s'.core.files.file 1 = some ⟨3, .named ['f'] .w⟩ := Option.some.inj hrun
    rw [hfile] at hout
    exact absurd hout (by decide)

end LinuxHomework.Shell.Descriptors
