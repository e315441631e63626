import LinuxHomework.Lib.Outcome
import LinuxHomework.Lib.Runs
import Mathlib.Data.List.Basic
import Mathlib.Logic.Function.Basic

/-! # Calls with a critical section

Tasks call functions on a shared state. Most of the code of such a function runs with a semaphore,
cut into steps, and other tasks move between these; what it reads before it has the semaphore must
be something that no call changes (`fixed`). Some functions do without the semaphore: their answer
is read off in one step (`shown`), so that nothing they read may change before the last step of a
critical section.

* `Driver.sequential`: the machine that makes one call after another, and `Driver.step`: the machine
  in which the tasks make their calls step by step.
* `serial`: in every run of the second, the calls have the results that they have in some run of the
  first, in the order of the steps that fixed their results. -/

namespace LinuxHomework.Lib.Critical

open LinuxHomework.Lib.Outcome LinuxHomework.Lib.Runs

variable {ε σ ρ ι γ υ τ : Type}

/-! ### Calls -/

/-- **The code between `down` and `up`**, cut into steps. The result is there with the last one. -/
inductive Code (ε σ ρ : Type) : Type 1
  | last (f : σ → Except ε (ρ × σ))
  | next {κ : Type} (f : σ → Except ε (κ × σ)) (rest : κ → Code ε σ ρ)

/-- The code, run at once. -/
def Code.eval : Code ε σ ρ → σ → Except ε (ρ × σ)
  | .last f, s => f s
  | .next f rest, s => f s >>= fun r => (rest r.1).eval r.2

theorem Code.eval_ite {c : Prop} [Decidable c] (yes no : Code ε σ ρ) (s : σ) :
    (if c then yes else no).eval s = if c then yes.eval s else no.eval s := by
  split_ifs <;> rfl

/-- A call: code that runs with the semaphore, made from what was read before, or an answer that is
read off without it. -/
inductive Call (ε σ ρ γ υ : Type) : Type 1
  | locked (code : γ → Code ε σ ρ)
  | free (answer : γ → υ → ρ)

/-- The calls, what they read before they have the semaphore, and what they read without it. -/
structure Driver (ε σ ρ ι γ υ : Type) where
  fixed : σ → γ
  shown : σ → υ
  call : ι → Call ε σ ρ γ υ

namespace Driver

variable (D : Driver ε σ ρ ι γ υ)

/-- The call, made at once. -/
def perform (c : ι) (s : σ) : Except ε (ρ × σ) :=
  match D.call c with
  | .locked code => (code (D.fixed s)).eval s
  | .free answer => .ok (answer (D.fixed s) (D.shown s), s)

/-- **One call after another**, with the record of who called and what was returned. -/
def sequential (s : σ × List (τ × ι × ρ)) (a : τ × ι) : Option (σ × List (τ × ι × ρ)) :=
  match D.perform a.2 s.1 with
  | .ok (r, s') => some (s', s.2 ++ [(a.1, a.2, r)])
  | .error _ => none

/-! ### Step by step -/

/-- Where a task is. -/
inductive Place (ε σ ρ ι : Type) : Type 1
  | out
  | begun (c : ι)
  | waiting (c : ι) (code : Code ε σ ρ)
  | inside (c : ι) (code : Code ε σ ρ)
  | leaving (c : ι) (r : ρ)

/-- The shared state, the semaphore and the tasks. `log` are the calls whose results are fixed, and
`returned` those that each task has made. A task whose step does not return leaves the semaphore
taken, and the machine stops. -/
structure Sys (ε σ ρ ι τ : Type) where
  shared : σ
  sem : ℕ
  place : τ → Place ε σ ρ ι
  log : List (τ × ι × ρ)
  returned : τ → List (ι × ρ)
  crashed : Option ε

/-- A task begins a call, or goes on. -/
inductive Act (ι τ : Type)
  | begin (t : τ) (c : ι)
  | go (t : τ)

/-- Nobody is in a call. -/
def start (s₀ : σ) : Sys ε σ ρ ι τ := ⟨s₀, 1, fun _ => .out, [], fun _ => [], none⟩

variable [DecidableEq τ]

/-- The task is at another place. -/
def Sys.move (s : Sys ε σ ρ ι τ) (t : τ) (pl : Place ε σ ρ ι) : Sys ε σ ρ ι τ :=
  { s with place := Function.update s.place t pl }

/-- The task returns. -/
def Sys.ret (s : Sys ε σ ρ ι τ) (t : τ) (c : ι) (r : ρ) : Sys ε σ ρ ι τ :=
  { s.move t .out with returned := Function.update s.returned t (s.returned t ++ [(c, r)]) }

/-- The next step of a task. -/
def go (s : Sys ε σ ρ ι τ) (t : τ) : Option (Sys ε σ ρ ι τ) :=
  match s.place t with
  | .out => none
  | .begun c =>
    match D.call c with
    | .locked code => some (s.move t (.waiting c (code (D.fixed s.shared))))
    | .free answer =>
      let r := answer (D.fixed s.shared) (D.shown s.shared)
      some { s.ret t c r with log := s.log ++ [(t, c, r)] }
  | .waiting c code =>
    if 0 < s.sem then some { s.move t (.inside c code) with sem := s.sem - 1 } else none
  | .inside c (.last f) =>
    match f s.shared with
    | .ok (r, s') => some { s.move t (.leaving c r) with shared := s', log := s.log ++ [(t, c, r)] }
    | .error e => some { s with crashed := some e }
  | .inside c (.next f rest) =>
    match f s.shared with
    | .ok (v, s') => some { s.move t (.inside c (rest v)) with shared := s' }
    | .error e => some { s with crashed := some e }
  | .leaving c r => some { s.ret t c r with sem := s.sem + 1 }

/-- One step; `none` if it cannot be taken. -/
def step (s : Sys ε σ ρ ι τ) (a : Act ι τ) : Option (Sys ε σ ρ ι τ) :=
  match s.crashed, a with
  | some _, _ => none
  | none, .begin t c =>
    match s.place t with
    | .out => some (s.move t (.begun c))
    | _ => none
  | none, .go t => D.go s t

/-! ### What is asked of the code -/

/-- **The code keeps** what is read before the semaphore is taken, and its steps, but for the last
one, what is read without it. -/
def Keeps (g : γ) : Code ε σ ρ → Prop
  | .last f => ∀ s r s', D.fixed s = g → f s = .ok (r, s') → D.fixed s' = g
  | .next f rest => ∀ s v s', D.fixed s = g → f s = .ok (v, s') →
      D.fixed s' = g ∧ D.shown s' = D.shown s ∧ Keeps g (rest v)

/-- The code of all calls does. -/
def Sound (g : γ) : Prop := ∀ c code, D.call c = .locked code → D.Keeps g (code g)

/-! ### The invariant -/

/-- The task has the semaphore. -/
def Place.holds : Place ε σ ρ ι → Bool
  | .inside _ _ | .leaving _ _ => true
  | _ => false

/-- The call of the task whose result is fixed, but not returned. -/
def Place.pending : Place ε σ ρ ι → List (ι × ρ)
  | .leaving c r => [(c, r)]
  | _ => []

/-- The calls of one task. -/
def callsOf (log : List (τ × ι × ρ)) (t : τ) : List (ι × ρ) :=
  log.filterMap fun e => if e.1 = t then some e.2 else none

/-- **The shared state and `d`**, the one to which the calls lead whose results are fixed: they are
the same, but for a call in progress, and the rest of this call comes to what the whole comes to
from `d`. -/
inductive Phase (g : γ) (d shared : σ) (sem : ℕ) (place : τ → Place ε σ ρ ι) : Prop
  | idle (same : shared = d) (free : sem = 1) (nobody : ∀ t, (place t).holds = false)
  | working (t : τ) (c : ι) (code : Code ε σ ρ) (here : place t = .inside c code) (taken : sem = 0)
      (alone : ∀ u, u ≠ t → (place u).holds = false) (rest : code.eval shared = D.perform c d)
      (shown : D.shown shared = D.shown d) (keeps : D.Keeps g code)
  | done (t : τ) (c : ι) (r : ρ) (here : place t = .leaving c r) (taken : sem = 0)
      (alone : ∀ u, u ≠ t → (place u).holds = false) (same : shared = d)

/-- **The invariant.** -/
structure Inv (s₀ : σ) (s : Sys ε σ ρ ι τ) (d : σ) : Prop where
  run : Reaches D.sequential (s₀, []) (d, s.log)
  fixed : D.fixed d = D.fixed s₀
  kept : D.fixed s.shared = D.fixed s₀
  phase : D.Phase (D.fixed s₀) d s.shared s.sem s.place
  waiting : ∀ t c code, s.place t = .waiting c code →
    ∃ made, D.call c = .locked made ∧ code = made (D.fixed s₀)
  history : ∀ t, callsOf s.log t = s.returned t ++ (s.place t).pending
  crashed : ∀ e, s.crashed = some e → ∃ t c code, s.place t = .inside c code ∧ D.perform c d = .error e

variable {D} {s s' : Sys ε σ ρ ι τ} {s₀ d d' shared : σ} {g : γ} {sem : ℕ} {place : τ → Place ε σ ρ ι}
  {pl : Place ε σ ρ ι} {t u : τ} {c : ι} {r : ρ} {a : Act ι τ} {log : List (τ × ι × ρ)}

theorem inv_start (D : Driver ε σ ρ ι γ υ) (s₀ : σ) : D.Inv s₀ (start s₀ : Sys ε σ ρ ι τ) s₀ where
  run := Reaches.refl _
  fixed := rfl
  kept := rfl
  phase := .idle rfl rfl fun _ => rfl
  waiting _ _ _ h := nomatch h
  history _ := rfl
  crashed _ h := nomatch h

theorem callsOf_concat (log : List (τ × ι × ρ)) (t u : τ) (e : ι × ρ) :
    callsOf (log ++ [(t, e)]) u = callsOf log u ++ if t = u then [e] else [] := by
  unfold callsOf
  rw [List.filterMap_append]
  by_cases h : t = u
  · simp [h]
  · simp [h]

omit [DecidableEq τ] in
/-- What is shown is what `d` shows. -/
theorem Phase.shown (h : D.Phase g d shared sem place) : D.shown shared = D.shown d := by
  cases h with
  | idle same _ _ => rw [same]
  | working _ _ _ _ _ _ _ shown _ => exact shown
  | done _ _ _ _ _ _ same => rw [same]

/-- A task moves that does not have the semaphore. -/
theorem Phase.move (h : D.Phase g d shared sem place) (ht : (place t).holds = false)
    (hpl : pl.holds = false) : D.Phase g d shared sem (Function.update place t pl) := by
  have hne : ∀ {u : τ}, (place u).holds = true → u ≠ t := by
    rintro u hu rfl
    rw [ht] at hu
    cases hu
  have hother : ∀ u : τ, (place u).holds = false → (Function.update place t pl u).holds = false := by
    intro u hu
    by_cases hut : u = t
    · rw [hut, Function.update_self, hpl]
    · rwa [Function.update_of_ne hut]
  cases h with
  | idle same free nobody => exact .idle same free fun u => hother u (nobody u)
  | working v c code here taken alone rest shown keeps =>
    have hv : v ≠ t := hne (by rw [here]; rfl)
    exact .working v c code (by rw [Function.update_of_ne hv, here]) taken
      (fun u hu => hother u (alone u hu)) rest shown keeps
  | done v c r here taken alone same =>
    have hv : v ≠ t := hne (by rw [here]; rfl)
    exact .done v c r (by rw [Function.update_of_ne hv, here]) taken
      (fun u hu => hother u (alone u hu)) same

/-- The others do not have the semaphore when a task has it that moves. -/
theorem alone_update (halone : ∀ u, u ≠ t → (place u).holds = false) (hu : u ≠ t) :
    (Function.update place t pl u).holds = false := by
  rw [Function.update_of_ne hu]
  exact halone u hu

/-- One task moves. -/
theorem Inv.update (h : D.Inv s₀ s d) (hplace : s'.place = Function.update s.place t pl)
    (hrun : Reaches D.sequential (s₀, []) (d', s'.log)) (hfixed : D.fixed d' = D.fixed s₀)
    (hkept : D.fixed s'.shared = D.fixed s₀)
    (hphase : D.Phase (D.fixed s₀) d' s'.shared s'.sem s'.place)
    (hwaiting : ∀ c code, pl = .waiting c code →
      ∃ made, D.call c = .locked made ∧ code = made (D.fixed s₀))
    (hothers : ∀ u, u ≠ t → callsOf s'.log u = callsOf s.log u ∧ s'.returned u = s.returned u)
    (hself : callsOf s'.log t = s'.returned t ++ pl.pending) (hcrashed : s'.crashed = none) :
    D.Inv s₀ s' d' := by
  refine ⟨hrun, hfixed, hkept, hphase, fun u c code hu => ?_, fun u => ?_, fun e he => ?_⟩
  · rw [hplace] at hu
    by_cases hut : u = t
    · rw [hut, Function.update_self] at hu
      exact hwaiting c code hu
    · rw [Function.update_of_ne hut] at hu
      exact h.waiting u c code hu
  · rw [hplace]
    by_cases hut : u = t
    · rw [hut, Function.update_self]
      exact hself
    · rw [Function.update_of_ne hut, (hothers u hut).1, (hothers u hut).2]
      exact h.history u
  · rw [hcrashed] at he
    cases he

/-- A task moves and does nothing else. -/
theorem Inv.move (h : D.Inv s₀ s d) (hnone : s.crashed = none) (hholds : (s.place t).holds = false)
    (hpl : pl.holds = false) (hpending : (s.place t).pending = pl.pending)
    (hwaiting : ∀ c code, pl = .waiting c code →
      ∃ made, D.call c = .locked made ∧ code = made (D.fixed s₀)) : D.Inv s₀ (s.move t pl) d := by
  refine h.update rfl h.run h.fixed h.kept (h.phase.move hholds hpl) hwaiting (fun _ _ => ⟨rfl, rfl⟩) ?_
    hnone
  rw [← hpending]
  exact h.history t

omit [DecidableEq τ] in
/-- The result of a call is fixed. -/
theorem reaches_snoc (h : Reaches D.sequential (s₀, []) (d, log)) (hc : D.perform c d = .ok (r, d')) :
    Reaches D.sequential (s₀, []) (d', log ++ [(t, c, r)]) := by
  refine h.trans (Reaches.single (a := (t, c)) ?_)
  simp only [sequential, hc]

/-! ### Every step -/

/-- A task reads what no call changes, or its answer. -/
theorem inv_begun (h : D.Inv s₀ s d) (hnone : s.crashed = none) (hp : s.place t = .begun c)
    (hstep : D.go s t = some s') : D.Inv s₀ s' d := by
  have hholds : (s.place t).holds = false := by rw [hp]; rfl
  simp only [go, hp] at hstep
  cases hcall : D.call c with
  | locked made =>
    rw [hcall] at hstep
    obtain rfl := Option.some.inj hstep
    refine h.move hnone hholds rfl (by rw [hp]; rfl) fun c' code' heq => ?_
    obtain ⟨rfl, rfl⟩ := Place.waiting.inj heq
    exact ⟨made, hcall, by rw [h.kept]⟩
  | free answer =>
    rw [hcall] at hstep
    obtain rfl := Option.some.inj hstep
    have hperform : D.perform c d =
        .ok (answer (D.fixed s.shared) (D.shown s.shared), d) := by
      simp only [perform, hcall]
      rw [h.kept, h.fixed, h.phase.shown]
    refine h.update rfl (reaches_snoc h.run hperform) h.fixed h.kept (h.phase.move hholds rfl)
      (fun _ _ heq => nomatch heq) (fun u hu => ⟨?_, Function.update_of_ne hu _ _⟩) ?_ hnone
    · show callsOf (s.log ++ [(t, c, _)]) u = _
      rw [callsOf_concat, if_neg hu.symm, List.append_nil]
    · show callsOf (s.log ++ [(t, c, _)]) t = Function.update s.returned t _ t ++ []
      have hself := h.history t
      rw [hp] at hself
      rw [callsOf_concat, if_pos rfl, Function.update_self, hself]
      simp [Place.pending]

/-- A task gets the semaphore. -/
theorem inv_waiting (hD : D.Sound (D.fixed s₀)) (h : D.Inv s₀ s d) (hnone : s.crashed = none)
    {code : Code ε σ ρ} (hp : s.place t = .waiting c code) (hstep : D.go s t = some s') :
    D.Inv s₀ s' d := by
  simp only [go, hp] at hstep
  split_ifs at hstep with hsem
  obtain rfl := Option.some.inj hstep
  obtain ⟨made, hcall, rfl⟩ := h.waiting t c code hp
  obtain ⟨same, free, nobody⟩ : s.shared = d ∧ s.sem = 1 ∧ ∀ u, (s.place u).holds = false := by
    cases h.phase with
    | idle same free nobody => exact ⟨same, free, nobody⟩
    | working _ _ _ _ taken => exact absurd hsem (by omega)
    | done _ _ _ _ taken => exact absurd hsem (by omega)
  have hperform : (made (D.fixed s₀)).eval s.shared = D.perform c d := by
    simp only [perform, hcall]
    rw [h.fixed, same]
  refine h.update rfl h.run h.fixed h.kept ?_ (fun _ _ heq => nomatch heq) (fun _ _ => ⟨rfl, rfl⟩) ?_
    hnone
  · refine .working t c _ (Function.update_self ..) ?_
      (fun u hu => alone_update (fun v _ => nobody v) hu) hperform (congrArg D.shown same)
      (hD c made hcall)
    show s.sem - 1 = 0
    omega
  · have hself := h.history t
    rw [hp] at hself
    exact hself

/-- Who is inside has the semaphore. -/
theorem Phase.inside (h : D.Phase g d shared sem place) {code : Code ε σ ρ}
    (hp : place t = .inside c code) : sem = 0 ∧ (∀ u, u ≠ t → (place u).holds = false) ∧
      code.eval shared = D.perform c d ∧ D.shown shared = D.shown d ∧ D.Keeps g code := by
  have hholds : (place t).holds = true := by rw [hp]; rfl
  cases h with
  | idle _ _ nobody => exact absurd (nobody t) (by rw [hholds]; decide)
  | working v c' code' here taken alone rest shown keeps =>
    by_cases hv : t = v
    · rw [← hv, hp] at here
      obtain ⟨rfl, rfl⟩ := Place.inside.inj here
      rw [← hv] at alone
      exact ⟨taken, alone, rest, shown, keeps⟩
    · exact absurd (alone t hv) (by rw [hholds]; decide)
  | done v c' r here _ alone _ =>
    by_cases hv : t = v
    · rw [← hv, hp] at here
      cases here
    · exact absurd (alone t hv) (by rw [hholds]; decide)

/-- A step of a critical section, but not the last one. -/
theorem inv_next (h : D.Inv s₀ s d) (hnone : s.crashed = none) {κ : Type} {f : σ → Except ε (κ × σ)}
    {rest : κ → Code ε σ ρ} (hp : s.place t = .inside c (.next f rest)) (hstep : D.go s t = some s') :
    D.Inv s₀ s' d := by
  obtain ⟨taken, alone, heval, hshown, hkeeps⟩ := h.phase.inside hp
  simp only [go, hp] at hstep
  have heval : (f s.shared >>= fun r => (rest r.1).eval r.2) = D.perform c d := heval
  cases hf : f s.shared with
  | ok v =>
    rw [hf] at hstep
    obtain rfl := Option.some.inj hstep
    obtain ⟨hfixed, hsame, hrest⟩ := hkeeps s.shared v.1 v.2 h.kept hf
    rw [hf, ok_bind] at heval
    refine h.update rfl h.run h.fixed hfixed ?_ (fun _ _ heq => nomatch heq) (fun _ _ => ⟨rfl, rfl⟩) ?_
      hnone
    · exact .working t c (rest v.1) (Function.update_self ..) taken (fun u hu => alone_update alone hu)
        heval (hsame.trans hshown) hrest
    · have hself := h.history t
      rw [hp] at hself
      exact hself
  | error e =>
    rw [hf] at hstep
    obtain rfl := Option.some.inj hstep
    rw [hf, error_bind] at heval
    refine { h with crashed := fun e' he' => ?_ }
    obtain rfl := Option.some.inj he'
    exact ⟨t, c, _, hp, heval.symm⟩

/-- The last step of a critical section. -/
theorem inv_last (h : D.Inv s₀ s d) (hnone : s.crashed = none) {f : σ → Except ε (ρ × σ)}
    (hp : s.place t = .inside c (.last f)) (hstep : D.go s t = some s') : ∃ d', D.Inv s₀ s' d' := by
  obtain ⟨taken, alone, heval, -, hkeeps⟩ := h.phase.inside hp
  simp only [go, hp] at hstep
  have heval : f s.shared = D.perform c d := heval
  cases hf : f s.shared with
  | ok v =>
    rw [hf] at hstep heval
    obtain rfl := Option.some.inj hstep
    have hfixed := hkeeps s.shared v.1 v.2 h.kept hf
    refine ⟨v.2, h.update rfl (reaches_snoc h.run heval.symm) hfixed hfixed ?_
      (fun _ _ heq => nomatch heq) (fun u hu => ⟨?_, rfl⟩) ?_ hnone⟩
    · exact .done t c v.1 (Function.update_self ..) taken (fun u hu => alone_update alone hu) rfl
    · show callsOf (s.log ++ [(t, c, v.1)]) u = _
      rw [callsOf_concat, if_neg hu.symm, List.append_nil]
    · show callsOf (s.log ++ [(t, c, v.1)]) t = s.returned t ++ [(c, v.1)]
      have hself := h.history t
      rw [hp] at hself
      rw [callsOf_concat, if_pos rfl, hself]
      simp [Place.pending]
  | error e =>
    rw [hf] at hstep heval
    obtain rfl := Option.some.inj hstep
    refine ⟨d, { h with crashed := fun e' he' => ?_ }⟩
    obtain rfl := Option.some.inj he'
    exact ⟨t, c, _, hp, heval.symm⟩

/-- A task gives the semaphore back, and returns. -/
theorem inv_leaving (h : D.Inv s₀ s d) (hnone : s.crashed = none) (hp : s.place t = .leaving c r)
    (hstep : D.go s t = some s') : D.Inv s₀ s' d := by
  have hholds : (s.place t).holds = true := by rw [hp]; rfl
  obtain ⟨taken, alone, same⟩ : s.sem = 0 ∧ (∀ u, u ≠ t → (s.place u).holds = false) ∧ s.shared = d := by
    cases h.phase with
    | idle _ _ nobody => exact absurd (nobody t) (by rw [hholds]; decide)
    | working v c' code here _ alone =>
      by_cases hv : t = v
      · rw [← hv, hp] at here
        cases here
      · exact absurd (alone t hv) (by rw [hholds]; decide)
    | done v c' r' here taken alone same =>
      by_cases hv : t = v
      · exact ⟨taken, hv ▸ alone, same⟩
      · exact absurd (alone t hv) (by rw [hholds]; decide)
  simp only [go, hp] at hstep
  obtain rfl := Option.some.inj hstep
  refine h.update rfl h.run h.fixed h.kept ?_ (fun _ _ heq => nomatch heq)
    (fun u hu => ⟨rfl, Function.update_of_ne hu _ _⟩) ?_ hnone
  · refine .idle same ?_ fun u => ?_
    · show s.sem + 1 = 1
      omega
    · show (Function.update s.place t .out u).holds = false
      by_cases hu : u = t
      · rw [hu, Function.update_self]
        rfl
      · exact alone_update alone hu
  · show callsOf s.log t = Function.update s.returned t _ t ++ []
    have hself := h.history t
    rw [hp] at hself
    rw [Function.update_self, hself, List.append_nil]
    rfl

/-- **A step keeps the invariant.** -/
theorem inv_step (hD : D.Sound (D.fixed s₀)) (h : ∃ d, D.Inv s₀ s d) (hstep : D.step s a = some s') :
    ∃ d, D.Inv s₀ s' d := by
  obtain ⟨d, h⟩ := h
  cases hnone : s.crashed with
  | some e =>
    simp only [step, hnone] at hstep
    cases hstep
  | none =>
    cases a with
    | begin t c =>
      cases hp : s.place t <;> simp only [step, hnone, hp] at hstep
      case out =>
        obtain rfl := Option.some.inj hstep
        exact ⟨d, h.move hnone (by rw [hp]; rfl) rfl (by rw [hp]; rfl) fun _ _ heq => nomatch heq⟩
      all_goals cases hstep
    | go t =>
      have hstep : D.go s t = some s' := by
        simpa only [step, hnone] using hstep
      cases hp : s.place t with
      | out =>
        simp only [go, hp] at hstep
        cases hstep
      | begun c => exact ⟨d, inv_begun h hnone hp hstep⟩
      | waiting c code => exact ⟨d, inv_waiting hD h hnone hp hstep⟩
      | inside c code =>
        cases code with
        | last f => exact inv_last h hnone hp hstep
        | next f rest => exact ⟨d, inv_next h hnone hp hstep⟩
      | leaving c r => exact ⟨d, inv_leaving h hnone hp hstep⟩

/-! ### Every run -/

/-- **The calls are made one after another.** -/
structure Serial (D : Driver ε σ ρ ι γ υ) (s₀ : σ) (s : Sys ε σ ρ ι τ) (d : σ) : Prop where
  run : Reaches D.sequential (s₀, []) (d, s.log)
  idle : (∀ t, (s.place t).holds = false) → s.sem = 1 ∧ s.shared = d
  history : ∀ t, callsOf s.log t = s.returned t ++ (s.place t).pending
  crashed : ∀ e, s.crashed = some e → ∃ t c code, s.place t = .inside c code ∧ D.perform c d = .error e

theorem Inv.serial (h : D.Inv s₀ s d) : D.Serial s₀ s d := by
  refine ⟨h.run, fun hnobody => ?_, h.history, h.crashed⟩
  cases h.phase with
  | idle same free _ => exact ⟨free, same⟩
  | working t _ _ here =>
    have ht := hnobody t
    rw [here] at ht
    cases ht
  | done t _ _ here =>
    have ht := hnobody t
    rw [here] at ht
    cases ht

theorem log_le_go (hstep : D.go s t = some s') : s.log <+: s'.log := by
  cases hp : s.place t with
  | out =>
    simp only [go, hp] at hstep
    cases hstep
  | begun c =>
    simp only [go, hp] at hstep
    cases hcall : D.call c <;> rw [hcall] at hstep <;> obtain rfl := Option.some.inj hstep
    · exact List.prefix_rfl
    · exact List.prefix_append _ _
  | waiting c code =>
    simp only [go, hp] at hstep
    split_ifs at hstep
    obtain rfl := Option.some.inj hstep
    exact List.prefix_rfl
  | inside c code =>
    cases code with
    | last f =>
      simp only [go, hp] at hstep
      cases hf : f s.shared <;> rw [hf] at hstep <;> obtain rfl := Option.some.inj hstep
      · exact List.prefix_rfl
      · exact List.prefix_append _ _
    | next f rest =>
      simp only [go, hp] at hstep
      cases hf : f s.shared <;> rw [hf] at hstep <;> obtain rfl := Option.some.inj hstep
      · exact List.prefix_rfl
      · exact List.prefix_rfl
  | leaving c r =>
    simp only [go, hp] at hstep
    obtain rfl := Option.some.inj hstep
    exact List.prefix_rfl

/-- **The record grows**: a call whose result is fixed when another one begins comes before it. -/
theorem log_le (hstep : D.step s a = some s') : s.log <+: s'.log := by
  cases hnone : s.crashed with
  | some e =>
    simp only [step, hnone] at hstep
    cases hstep
  | none =>
    cases a with
    | begin t c =>
      cases hp : s.place t <;> simp only [step, hnone, hp] at hstep
      case out =>
        obtain rfl := Option.some.inj hstep
        exact List.prefix_rfl
      all_goals cases hstep
    | go t => exact log_le_go (by simpa only [step, hnone] using hstep)

/-- The record of a run is there in all later states. -/
theorem log_run {acts : List (Act ι τ)} (h : run D.step s acts = some s') : s.log <+: s'.log := by
  induction acts generalizing s with
  | nil =>
    obtain rfl := Option.some.inj h
    exact List.prefix_rfl
  | cons a acts ih =>
    rw [run_cons] at h
    obtain ⟨t, ht, h⟩ := Option.bind_eq_some_iff.mp h
    exact (log_le ht).trans (ih h)

/-- **Critical sections are atomic**: in every run, the results and the state are those of calls
that are made one after another, and each task has made its own calls. -/
theorem serial (hD : D.Sound (D.fixed s₀)) (acts : List (Act ι τ)) :
    Always D.step (fun s => ∃ d, D.Serial s₀ s d) (start s₀) acts :=
  (always_of_step (fun _ _ _ h hstep => inv_step hD h hstep) ⟨s₀, inv_start D s₀⟩ acts).mono
    fun _ ⟨d, h⟩ => ⟨d, h.serial⟩

end Driver

end LinuxHomework.Lib.Critical
