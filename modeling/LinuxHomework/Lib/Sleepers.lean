import Mathlib.Data.List.Basic
import Mathlib.Logic.Function.Basic
import Mathlib.Tactic.Basic

/-! # Sleepers and those who wake them

Tasks sleep on a queue until their condition is no longer `blocked`; whoever unblocks them owes a
wake-up of the queue. `Watch` is the invariant of such a queue: who waits is on the queue, and while
somebody sleeps although nothing blocks him a wake-up is still to come.

* `Watch.move`: one task moves. It may block or wait itself, and it may take over a wake-up, but it
  must not drop one.
* `Watch.pass`: the case of a task that has nothing to do with the queue.
* `watch_of_woken`: the wake-up.
* `Watch.unblock`: what somebody must see to who unblocks the sleepers and wakes nobody. -/

namespace LinuxHomework.Lib.Sleepers

variable {ι κ : Type*}

/-- The states of a task that matter for a queue: it has put itself on the queue and was not woken
since, it sleeps, or it owes the queue a wake-up. -/
structure Side (κ : Type*) where
  waits : κ → Prop
  sleeps : κ → Prop
  wakes : κ → Prop
  waits_of_sleeps : ∀ k, sleeps k → waits k

/-- **The invariant of a queue.** -/
structure Watch (σ : Side κ) (blocked : Prop) (q : List ι) (f : ι → κ) : Prop where
  queued : ∀ t, σ.waits (f t) → t ∈ q
  watched : ∀ t, σ.sleeps (f t) → blocked ∨ ∃ u, σ.wakes (f u)

variable {σ : Side κ} {blocked blocked' : Prop} {q q' : List ι} {f f' : ι → κ} {t : ι} {k : κ}

/-- **The wake-up**: nobody waits any more. -/
theorem watch_of_woken (h : ∀ t, ¬ σ.waits (f t)) : Watch σ blocked q f :=
  ⟨fun t ht => absurd ht (h t), fun t ht => absurd (σ.waits_of_sleeps _ ht) (h t)⟩

/-- Some of the tasks stop waiting. -/
theorem Watch.mono (h : Watch σ blocked q f) (hwaits : ∀ u, σ.waits (f' u) → σ.waits (f u))
    (hsleeps : ∀ u, σ.sleeps (f' u) → σ.sleeps (f u))
    (hwakes : ∀ u, σ.wakes (f u) → σ.wakes (f' u)) : Watch σ blocked q f' := by
  constructor
  · exact fun u hu => h.queued u (hwaits u hu)
  · intro u hu
    rcases h.watched u (hsleeps u hu) with hb | ⟨v, hv⟩
    · exact Or.inl hb
    · exact Or.inr ⟨v, hwakes v hv⟩

/-- What blocks the sleepers may go if there are none, or if a wake-up is to come anyhow. -/
theorem Watch.unblock (h : Watch σ blocked q f)
    (hok : ∀ u ∈ q, σ.sleeps (f u) → ∃ v, σ.wakes (f v)) : Watch σ blocked' q f :=
  ⟨h.queued, fun u hu => Or.inr (hok u (h.queued u (σ.waits_of_sleeps _ hu)) hu)⟩

variable [DecidableEq ι]

/-- **One task moves.** -/
theorem Watch.move (h : Watch σ blocked q f) (hq : ∀ u, u ≠ t → u ∈ q → u ∈ q')
    (hwaits : σ.waits k → t ∈ q') (hsleeps : σ.sleeps k → blocked')
    (hblocked : ∀ u, σ.sleeps (f u) → blocked → blocked' ∨ σ.wakes k)
    (hwakes : σ.wakes (f t) → blocked' ∨ σ.wakes k) :
    Watch σ blocked' q' (Function.update f t k) := by
  have hself : σ.wakes k → ∃ u, σ.wakes (Function.update f t k u) :=
    fun hk => ⟨t, by rwa [Function.update_self]⟩
  constructor
  · intro u hu
    by_cases hut : u = t
    · rw [hut, Function.update_self] at hu
      exact hut ▸ hwaits hu
    · rw [Function.update_of_ne hut] at hu
      exact hq u hut (h.queued u hu)
  · intro u hu
    by_cases hut : u = t
    · rw [hut, Function.update_self] at hu
      exact Or.inl (hsleeps hu)
    · rw [Function.update_of_ne hut] at hu
      rcases h.watched u hu with hb | ⟨v, hv⟩
      · exact (hblocked u hu hb).imp_right hself
      · by_cases hvt : v = t
        · exact (hwakes (hvt ▸ hv)).imp_right hself
        · exact Or.inr ⟨v, by rwa [Function.update_of_ne hvt]⟩

/-- A task moves that does not wait afterwards and owed no wake-up before. -/
theorem Watch.pass (h : Watch σ blocked q f) (hq : ∀ u, u ≠ t → u ∈ q → u ∈ q')
    (hk : ¬ σ.waits k) (ht : ¬ σ.wakes (f t)) (hblocked : blocked → blocked') :
    Watch σ blocked' q' (Function.update f t k) :=
  h.move hq (fun hw => absurd hw hk) (fun hs => absurd (σ.waits_of_sleeps k hs) hk)
    (fun _ _ hb => Or.inl (hblocked hb)) (fun hw => absurd hw ht)

end LinuxHomework.Lib.Sleepers
