import Mathlib.Tactic.Basic

/-! # Outcomes of calls that can stop

`Safe E r Q` says of the outcome `r` of a computation: if it returns, what it returns satisfies `Q`,
and if it stops, it does so for one of the reasons `E`. `Safe.bind` is the rule for one computation
after another, `bind_eq_ok` and `map_bind` say what such a computation comes to. `Alike Q r r'` says
of two outcomes that they are the same up to `Q`, and `Alike.bind` is its rule. -/

namespace LinuxHomework.Lib.Outcome

universe u

variable {ε : Type*} {α β : Type u} {E : ε → Prop} {Q R : α → Prop} {S : β → Prop}

/-- What is returned satisfies `Q`, and only the errors `E` can occur. -/
def Safe (E : ε → Prop) (r : Except ε α) (Q : α → Prop) : Prop :=
  match r with
  | .ok v => Q v
  | .error e => E e

@[simp] theorem safe_ok {v : α} : Safe E (.ok v) Q ↔ Q v := Iff.rfl

@[simp] theorem safe_pure {v : α} : Safe E (pure v) Q ↔ Q v := Iff.rfl

@[simp] theorem safe_error {e : ε} : Safe E (.error e) Q ↔ E e := Iff.rfl

theorem safe_any (r : Except ε α) : Safe (fun _ => True) r fun _ => True := by
  cases r <;> trivial

/-- **One computation after another.** -/
theorem Safe.bind {r : Except ε α} {f : α → Except ε β} (h : Safe E r Q)
    (hf : ∀ v, Q v → Safe E (f v) S) : Safe E (r >>= f) S := by
  cases r with
  | ok v => exact hf v h
  | error e => exact h

theorem Safe.mono {r : Except ε α} (h : Safe E r Q) (hQ : ∀ v, Q v → R v) : Safe E r R := by
  cases r with
  | ok v => exact hQ v h
  | error e => exact h

theorem Safe.and {r : Except ε α} (h : Safe E r Q) (h' : Safe E r R) :
    Safe E r fun v => Q v ∧ R v := by
  cases r with
  | ok v => exact ⟨h, h'⟩
  | error e => exact h

/-- What comes behind is asked only where the computation leads. -/
theorem Safe.bind_congr {r : Except ε α} {f g : α → Except ε β} (h : Safe E r Q)
    (hfg : ∀ v, Q v → f v = g v) : r >>= f = r >>= g := by
  cases r with
  | ok v => exact hfg v h
  | error e => rfl

/-- What is returned is what the computation returns. -/
theorem Safe.eq {r : Except ε α} (h : Safe E r Q) : Safe E r fun v => r = .ok v ∧ Q v := by
  cases r with
  | ok v => exact ⟨rfl, h⟩
  | error e => exact h

/-! ### One computation after another -/

@[simp] theorem ok_bind (v : α) (f : α → Except ε β) : (Except.ok v >>= f) = f v := rfl

@[simp] theorem error_bind (e : ε) (f : α → Except ε β) : (Except.error e >>= f) = .error e := rfl

/-- A computation returns if its two parts return. -/
theorem bind_eq_ok {r : Except ε α} {f : α → Except ε β} {w : β} :
    r >>= f = .ok w ↔ ∃ v, r = .ok v ∧ f v = .ok w := by
  cases r with
  | ok v => simp
  | error e => simp

theorem map_eq_ok {r : Except ε α} {f : α → β} {w : β} :
    r.map f = .ok w ↔ ∃ v, r = .ok v ∧ f v = w := by
  cases r with
  | ok v => simp [Except.map]
  | error e => simp [Except.map]

theorem toOption_eq_some {r : Except ε α} {v : α} : r.toOption = some v ↔ r = .ok v := by
  cases r with
  | ok w => simp [Except.toOption]
  | error e => simp [Except.toOption]

theorem map_bind (r : Except ε α) (f : α → Except ε β) {γ : Type u} (g : β → γ) :
    (r >>= f).map g = r >>= fun v => (f v).map g := by
  cases r <;> rfl

/-! ### More errors -/

/-- More errors may occur. -/
theorem Safe.weaken {E' : ε → Prop} {r : Except ε α} (h : Safe E r Q) (hE : ∀ e, E e → E' e) :
    Safe E' r Q := by
  cases r with
  | ok v => exact h
  | error e => exact hE e h

/-! ### Two computations -/

variable {Q' : α → β → Prop}

/-- **Two computations come to the same**: both stop for the same reason, or what they return is
related by `Q'`. -/
def Alike (Q' : α → β → Prop) : Except ε α → Except ε β → Prop
  | .ok v, .ok w => Q' v w
  | .error e, .error e' => e = e'
  | _, _ => False

@[simp] theorem alike_ok {v : α} {w : β} :
    Alike (ε := ε) Q' (.ok v) (.ok w) ↔ Q' v w := Iff.rfl

@[simp] theorem alike_pure {v : α} {w : β} :
    Alike (ε := ε) Q' (pure v) (pure w) ↔ Q' v w := Iff.rfl

@[simp] theorem alike_error {e e' : ε} :
    Alike Q' (.error e : Except ε α) (.error e' : Except ε β) ↔ e = e' := Iff.rfl

/-- **One computation after another**, on both sides. -/
theorem Alike.bind {γ δ : Type u} {R' : γ → δ → Prop} {r : Except ε α} {r' : Except ε β}
    {f : α → Except ε γ} {g : β → Except ε δ} (h : Alike Q' r r')
    (hf : ∀ v w, Q' v w → Alike R' (f v) (g w)) : Alike R' (r >>= f) (r' >>= g) := by
  cases r with
  | ok v =>
    cases r' with
    | ok w => exact hf v w h
    | error e => exact h.elim
  | error e =>
    cases r' with
    | ok w => exact h.elim
    | error e' => exact h

theorem Alike.mono {R' : α → β → Prop} {r : Except ε α} {r' : Except ε β} (h : Alike Q' r r')
    (hQ : ∀ v w, Q' v w → R' v w) : Alike R' r r' := by
  cases r with
  | ok v =>
    cases r' with
    | ok w => exact hQ v w h
    | error e => exact h.elim
  | error e =>
    cases r' with
    | ok w => exact h.elim
    | error e' => exact h

/-- If one computation returns, so does the other. -/
theorem Alike.of_ok {r : Except ε α} {w : β} (h : Alike Q' r (.ok w)) :
    ∃ v, r = .ok v ∧ Q' v w := by
  cases r with
  | ok v => exact ⟨v, rfl, h⟩
  | error e => exact h.elim

theorem Alike.ok_of {v : α} {r' : Except ε β} (h : Alike Q' (.ok v) r') :
    ∃ w, r' = .ok w ∧ Q' v w := by
  cases r' with
  | ok w => exact ⟨w, rfl, h⟩
  | error e => exact h.elim

/-- If one computation stops, so does the other. -/
theorem Alike.of_error {r : Except ε α} {e : ε} (h : Alike Q' r (.error e : Except ε β)) :
    r = .error e := by
  cases r with
  | ok v => exact h.elim
  | error e' => exact congrArg Except.error h

/-- **The same steps, one after another**, on both sides. -/
theorem Alike.foldlM {ι : Type*} {f : α → ι → Except ε α} {g : β → ι → Except ε β} {l : List ι}
    {v : α} {w : β} (hstep : ∀ v w, ∀ a ∈ l, Q' v w → Alike Q' (f v a) (g w a)) (h : Q' v w) :
    Alike Q' (l.foldlM f v) (l.foldlM g w) := by
  induction l generalizing v w with
  | nil => exact h
  | cons a l ih =>
    rw [List.foldlM_cons, List.foldlM_cons]
    refine (hstep v w a List.mem_cons_self h).bind fun v' w' h' => ?_
    exact ih (fun v w b hb => hstep v w b (List.mem_cons_of_mem a hb)) h'

end LinuxHomework.Lib.Outcome
