import Mathlib.Data.List.Infix
import Mathlib.Tactic.Basic

/-! # Runs of a labelled machine

A machine is a function `step : σ → α → Option σ`: the action `a` leads from `s` to `s'` if
`step s a = some s'`, and cannot be taken in `s` if `step s a = none`. All choices of the
environment (which task moves, what an allocator returns) are part of the action, so that a run is
a list of actions.

* `Always step P s as`: every state that a prefix of `as` leads to satisfies `P`.
* `Meets step C s as`: every action of `as` that is taken meets the condition `C` in the state it
  is taken in.
* `Reaches step s s'`: some actions lead from `s` to `s'`.
* `always_of_meets`, `always_iff_meets`: what one step preserves, the run preserves.
* `meets_of_run_le`: what no step decreases, and a step that does not meet a condition increases. -/

namespace LinuxHomework.Lib.Runs

variable {σ α : Type*}

/-- The state the actions lead to, if all of them can be taken. -/
def run (step : σ → α → Option σ) (s : σ) (as : List α) : Option σ := as.foldlM step s

/-- Every state reached along the actions satisfies `P`. -/
def Always (step : σ → α → Option σ) (P : σ → Prop) (s : σ) (as : List α) : Prop :=
  ∀ pre, pre <+: as → ∀ s', run step s pre = some s' → P s'

/-- Every action taken meets `C` in the state it is taken in. -/
def Meets (step : σ → α → Option σ) (C : σ → α → Prop) (s : σ) (as : List α) : Prop :=
  ∀ pre a, pre ++ [a] <+: as → ∀ s', run step s pre = some s' → (step s' a).isSome → C s' a

/-- Some actions lead from `s` to `s'`. -/
def Reaches (step : σ → α → Option σ) (s s' : σ) : Prop := ∃ as, run step s as = some s'

variable {step : σ → α → Option σ} {P Q I : σ → Prop} {C : σ → α → Prop} {s s' : σ} {a : α}
  {as : List α}

@[simp] theorem run_nil : run step s [] = some s := rfl

@[simp] theorem run_cons : run step s (a :: as) = (step s a).bind fun s' => run step s' as := rfl

theorem run_append (bs : List α) :
    run step s (as ++ bs) = (run step s as).bind fun s' => run step s' bs := by
  induction as generalizing s with
  | nil => rfl
  | cons a as ih =>
    rw [List.cons_append, run_cons, run_cons]
    cases h : step s a with
    | none => rfl
    | some t => exact ih

@[simp] theorem always_nil : Always step P s [] ↔ P s := by
  constructor
  · intro h
    exact h [] (List.prefix_refl _) s rfl
  · intro h pre hpre t ht
    rw [List.prefix_nil.mp hpre, run_nil] at ht
    exact Option.some.inj ht ▸ h

@[simp] theorem always_cons :
    Always step P s (a :: as) ↔ P s ∧ ∀ t, step s a = some t → Always step P t as := by
  constructor
  · intro h
    refine ⟨h [] List.nil_prefix s rfl, fun t ht pre hpre u hu => ?_⟩
    refine h (a :: pre) ((List.prefix_cons_inj a).mpr hpre) u ?_
    rw [run_cons, ht]
    exact hu
  · rintro ⟨hs, h⟩ pre hpre u hu
    cases pre with
    | nil => exact Option.some.inj hu ▸ hs
    | cons b pre =>
      obtain ⟨rfl, hpre'⟩ := List.cons_prefix_cons.mp hpre
      rw [run_cons] at hu
      obtain ⟨t, ht, hu⟩ := Option.bind_eq_some_iff.mp hu
      exact h t ht pre hpre' u hu

@[simp] theorem meets_nil : Meets step C s [] := by
  intro pre a hpre
  simp at hpre

@[simp] theorem meets_cons : Meets step C s (a :: as) ↔
    ∀ t, step s a = some t → C s a ∧ Meets step C t as := by
  constructor
  · intro h t ht
    refine ⟨h [] a ⟨as, rfl⟩ s rfl (by rw [ht]; rfl), fun pre b hpre u hu hb => ?_⟩
    refine h (a :: pre) b ((List.prefix_cons_inj a).mpr hpre) u ?_ hb
    rw [run_cons, ht]
    exact hu
  · intro h pre b hpre u hu hb
    cases pre with
    | nil =>
      obtain ⟨rfl, -⟩ := List.cons_prefix_cons.mp hpre
      obtain rfl := Option.some.inj hu
      obtain ⟨t, ht⟩ := Option.isSome_iff_exists.mp hb
      exact (h t ht).1
    | cons c pre =>
      obtain ⟨rfl, hpre'⟩ := List.cons_prefix_cons.mp hpre
      rw [run_cons] at hu
      obtain ⟨t, ht, hu⟩ := Option.bind_eq_some_iff.mp hu
      exact (h t ht).2 pre b hpre' u hu hb

/-- A machine that can take every action meets a condition on the actions if all actions do. -/
theorem meets_iff_forall {D : α → Prop} (htotal : ∀ s a, (step s a).isSome) :
    Meets step (fun _ a => D a) s as ↔ ∀ a ∈ as, D a := by
  induction as generalizing s with
  | nil => simp
  | cons a as ih =>
    obtain ⟨t, ht⟩ := Option.isSome_iff_exists.mp (htotal s a)
    rw [meets_cons, List.forall_mem_cons, ht]
    simp only [Option.some.injEq, forall_eq', ih]

/-- Whether a run meets a decidable condition is found by running it. -/
instance decidableMeets [∀ s a, Decidable (C s a)] :
    ∀ (as : List α) (s : σ), Decidable (Meets step C s as)
  | [], _ => isTrue meets_nil
  | a :: as, s =>
    match h : step s a with
    | none => isTrue (meets_cons.mpr fun t ht => by simp [h] at ht)
    | some t =>
      have := decidableMeets as t
      decidable_of_iff (C s a ∧ Meets step C t as) (by simp [h])

theorem Always.mono (hPQ : ∀ s, P s → Q s) (h : Always step P s as) : Always step Q s as :=
  fun pre hpre t ht => hPQ t (h pre hpre t ht)

/-- What says the same in the states of a run holds throughout it or not. -/
theorem always_congr (h : Always step I s as) (hPQ : ∀ s, I s → (P s ↔ Q s)) :
    Always step P s as ↔ Always step Q s as :=
  ⟨fun hP pre hpre t ht => (hPQ t (h pre hpre t ht)).mp (hP pre hpre t ht),
    fun hQ pre hpre t ht => (hPQ t (h pre hpre t ht)).mpr (hQ pre hpre t ht)⟩

/-- The last state of a run satisfies what always holds. -/
theorem Always.last (h : Always step P s as) (hrun : run step s as = some s') : P s' :=
  h as (List.prefix_refl _) s' hrun

/-- A run that meets a stronger condition meets the weaker one. -/
theorem Meets.mono {D : σ → α → Prop} (hCD : ∀ s a, C s a → D s a) (h : Meets step C s as) :
    Meets step D s as :=
  fun pre a hpre t ht hsome => hCD t a (h pre a hpre t ht hsome)

/-- The rest of a run that meets a condition meets it. -/
theorem Meets.rest {bs : List α} (h : Meets step C s (as ++ bs)) (hrun : run step s as = some s') :
    Meets step C s' bs := by
  intro pre a hpre t ht hsome
  refine h (as ++ pre) a ?_ t ?_ hsome
  · rw [List.append_assoc]
    exact (List.prefix_append_right_inj as).mpr hpre
  · rw [run_append, hrun]
    exact ht

/-- **The invariant rule**: what every step that meets the condition preserves holds throughout a
run whose steps all meet it. -/
theorem always_of_meets (hI : ∀ s a s', I s → C s a → step s a = some s' → I s') (hs : I s)
    (h : Meets step C s as) : Always step I s as := by
  induction as generalizing s with
  | nil => exact always_nil.mpr hs
  | cons a as ih =>
    refine always_cons.mpr ⟨hs, fun t ht => ?_⟩
    obtain ⟨hc, hrest⟩ := meets_cons.mp h t ht
    exact ih (hI s a t hs hc ht) hrest

/-- What the invariant and the condition say about a step, the steps of the run meet. -/
theorem meets_of_meets {D : σ → α → Prop} (hI : ∀ s a s', I s → C s a → step s a = some s' → I s')
    (hD : ∀ s a s', I s → C s a → step s a = some s' → D s a) (hs : I s) (h : Meets step C s as) :
    Meets step D s as := by
  have hinv := always_of_meets hI hs h
  intro pre a hpre t ht hsome
  obtain ⟨t', ht'⟩ := Option.isSome_iff_exists.mp hsome
  have hIt := hinv pre ((List.prefix_append pre [a]).trans hpre) t ht
  exact hD t a t' hIt (h pre a hpre t ht hsome) ht'

/-- The invariant rule for unconditional invariants. -/
theorem always_of_step (hI : ∀ s a s', I s → step s a = some s' → I s') (hs : I s)
    (as : List α) : Always step I s as :=
  always_of_meets (C := fun _ _ => True) (fun s a s' h _ => hI s a s' h) hs
    (fun _ _ _ _ _ _ => trivial)

/-- **The exactness rule**: if, in the states that satisfy the auxiliary invariant `I`, a step
leads from `P` to `P` exactly when it meets `C`, then `P` holds throughout a run exactly when all
its steps meet `C`. -/
theorem always_iff_meets (hI : ∀ s a s', I s → P s → step s a = some s' → P s' → I s')
    (hC : ∀ s a s', I s → P s → step s a = some s' → (P s' ↔ C s a)) (hs : I s) (hP : P s) :
    Always step P s as ↔ Meets step C s as := by
  induction as generalizing s with
  | nil => simp [hP]
  | cons a as ih =>
    rw [always_cons, meets_cons]
    constructor
    · rintro ⟨-, h⟩ t ht
      have hPt : P t := h t ht [] List.nil_prefix t rfl
      exact ⟨(hC s a t hs hP ht).mp hPt, (ih (hI s a t hs hP ht hPt) hPt).mp (h t ht)⟩
    · intro h
      refine ⟨hP, fun t ht => ?_⟩
      obtain ⟨hc, hrest⟩ := h t ht
      have hPt : P t := (hC s a t hs hP ht).mpr hc
      exact (ih (hI s a t hs hP ht hPt) hPt).mpr hrest

/-- **The drift rule**: let no step decrease `f`, and let it increase by a step that does not meet
the condition. Where `f` is at the end of a run what it was at the start, all steps met the
condition. -/
theorem meets_of_run_le {β : Type*} [Preorder β] {f : σ → β}
    (hI : ∀ s a s', I s → step s a = some s' → I s')
    (hle : ∀ s a s', I s → step s a = some s' → f s ≤ f s')
    (hlt : ∀ s a s', I s → step s a = some s' → ¬ C s a → f s < f s') (hs : I s)
    (hrun : run step s as = some s') (hf : f s' ≤ f s) : Meets step C s as := by
  have hgrow : ∀ {bs : List α} {t t' : σ}, I t → run step t bs = some t' → f t ≤ f t' := by
    intro bs
    induction bs with
    | nil =>
      intro t t' _ h
      rw [Option.some.inj h]
    | cons b bs ih =>
      intro t t' ht h
      obtain ⟨u, hu, h⟩ := Option.bind_eq_some_iff.mp h
      exact (hle t b u ht hu).trans (ih (hI t b u ht hu) h)
  induction as generalizing s with
  | nil => exact meets_nil
  | cons a as ih =>
    obtain ⟨t, ht, hrun⟩ := Option.bind_eq_some_iff.mp hrun
    have hIt := hI s a t hs ht
    refine meets_cons.mpr fun t' ht' => ?_
    obtain rfl := Option.some.inj (ht.symm.trans ht')
    refine ⟨?_, ih hIt hrun (hf.trans (hle s a t hs ht))⟩
    by_contra hc
    exact absurd ((hlt s a t hs ht hc).trans_le (hgrow hIt hrun)) (not_lt_of_ge hf)

/-! ### What can be reached -/

theorem Reaches.refl (s : σ) : Reaches step s s := ⟨[], rfl⟩

theorem Reaches.single (h : step s a = some s') : Reaches step s s' := by
  refine ⟨[a], ?_⟩
  rw [run_cons, h]
  rfl

theorem Reaches.trans {t : σ} (h : Reaches step s t) (h' : Reaches step t s') :
    Reaches step s s' := by
  obtain ⟨as, has⟩ := h
  obtain ⟨bs, hbs⟩ := h'
  refine ⟨as ++ bs, ?_⟩
  rw [run_append, has]
  exact hbs

/-- What holds throughout every run holds in every state that can be reached. -/
theorem always_iff_reaches : (∀ as, Always step P s as) ↔ ∀ s', Reaches step s s' → P s' := by
  constructor
  · rintro h s' ⟨as, hrun⟩
    exact (h as).last hrun
  · intro h as pre _ s' hrun
    exact h s' ⟨pre, hrun⟩

end LinuxHomework.Lib.Runs
