import LinuxHomework.Event.EventList

/-! # What the calls do to the contents of the nodes

On a list in order an open adds one node
and leaves the contents of the others, a close takes one node away, and a search finds the first
node with the number.

* `find_mem`, `find_none`: the search, when the numbers of the list are known.
* `scheventNum_find`: the search as `List.find?` on the nodes.
* `open_new_core`, `close_core`: the contents after an open and a close. -/

namespace LinuxHomework.Event.Contents

open LinuxHomework.Lib.Chain LinuxHomework.Lib.CInt LinuxHomework.Event.Nodes
open LinuxHomework.Event.EventList

variable {s s' : Events} {l : List Addr} {a b r : Addr} {e : Myevent} {n v number : ℤ}
  {q : Option Addr}

/-! ### The search -/

/-- The numbers of the list are all different. -/
def Distinct (s : Events) (l : List Addr) : Prop :=
  ∀ a ∈ l, ∀ b ∈ l, s.num a = s.num b → a = b

theorem find_mem (h : WfList s l) (hd : Distinct s l) (ha : a ∈ l) (hn : s.num a = some n) :
    ∃ prev, scheventNum s n = .ok (some a, prev) := by
  obtain ⟨r, hr, hf⟩ := scheventNum_spec h.chain n
  cases hf with
  | no hno => exact absurd hn (hno a ha)
  | yes hl hno hc =>
    obtain rfl := hd _ (by simp [hl]) a ha (hc.trans hn.symm)
    exact ⟨_, hr⟩

theorem find_none (h : WfList s l) (hno : ∀ b ∈ l, s.num b ≠ some n) :
    ∃ prev, scheventNum s n = .ok (none, prev) := by
  obtain ⟨r, hr, hf⟩ := scheventNum_spec h.chain n
  cases hf with
  | no _ => exact ⟨_, hr⟩
  | yes hl _ hc => exact absurd hc (hno _ (by simp [hl]))

/-- What is found is on the list, and has the number. -/
theorem find_some (h : WfList s l) (hs : scheventNum s n = .ok (some a, q)) :
    a ∈ l ∧ s.num a = some n := by
  obtain ⟨r, hr, hf⟩ := scheventNum_spec h.chain n
  obtain rfl := Except.ok.inj (hs.symm.trans hr)
  cases hf with
  | yes hl _ ha => exact ⟨by simp [hl], ha⟩

/-- What the search returns, on the nodes themselves. -/
theorem found_eq_find {r : Option Addr × Option Addr} (h : Found s n l r) :
    r.1 = l.find? fun a => s.num a == some n := by
  cases h with
  | no hno => exact (List.find?_eq_none.mpr fun b hb => by simpa using hno b hb).symm
  | yes hl hno ha =>
    refine (List.find?_eq_some_iff_append.mpr ⟨by simpa using ha, _, _, hl, fun b hb => ?_⟩).symm
    simpa using hno b hb

theorem scheventNum_find (h : WfList s l) (n : ℤ) :
    ∃ prev, scheventNum s n = .ok (l.find? (fun a => s.num a == some n), prev) := by
  obtain ⟨⟨found, prev⟩, hr, hf⟩ := scheventNum_spec h.chain n
  exact ⟨prev, by rw [hr, ← found_eq_find hf]⟩

/-- A search that ends without a result has seen a chain. -/
theorem linked_of_search {n : ℤ} : ∀ {fuel : ℕ} {p prev : Option Addr},
    search s n fuel p prev = .ok (none, q) → ∃ l, Linked s.nx p l
  | fuel, none, prev, _ => ⟨[], rfl⟩
  | 0, some a, prev, h => by simp [search] at h
  | fuel + 1, some a, prev, h => by
    rw [search] at h
    cases ha : s.mem.lookup a with
    | none => simp [Events.deref, ha, bind, Except.bind] at h
    | some e =>
      rw [deref_some ha] at h
      by_cases hn : e.eventNum = n
      · simp [bind, Except.bind, hn, pure, Except.pure] at h
      · simp only [bind, Except.bind, hn, if_false] at h
        obtain ⟨l, hl⟩ := linked_of_search h
        exact ⟨a :: l, rfl, e.next, nx_eq_some.mpr ⟨e, ha, rfl⟩, hl⟩

/-! ### Open and close -/

/-- **`sys_myevent_open`** of a new event adds its node, and gives it the next number. -/
theorem open_new_core (h : WfList s l) {raw : Myevent} (ha : a ∉ s.mem)
    (he : sysMyeventOpen s 0 v (some (a, raw)) = .ok (number, s')) :
    core s' a = some (number, v, []) ∧ (∀ b, b ≠ a → core s' b = core s b) ∧
      (l = [] ∧ number = 2 ∨
        ∃ b e, b ∈ l ∧ s.lpmyeventEnd = some b ∧ s.mem.lookup b = some e ∧
          number = wrap32 (e.eventNum + 2)) := by
  rcases List.eq_nil_or_concat l with rfl | ⟨m, b, rfl⟩
  · rw [open_first_eq h.chain] at he
    obtain ⟨rfl, rfl⟩ := Prod.mk.inj (Except.ok.inj he)
    exact ⟨core_store, fun b hb => core_store_ne hb, Or.inl ⟨rfl, rfl⟩⟩
  · rw [List.concat_eq_append] at h ⊢
    obtain ⟨eb, heb⟩ := Linked.lookup h.chain (a := b) (by simp)
    have hba : b ≠ a := by
      rintro rfl
      exact ha (AList.lookup_isSome.mp (by rw [heb]; rfl))
    have hhead : s.lpmyeventHead ≠ none := by
      rw [h.chain.start]
      simp
    rw [open_append_eq hhead h.last_eq heb hba] at he
    obtain ⟨rfl, rfl⟩ := Prod.mk.inj (Except.ok.inj he)
    have heb' : (s.store a ⟨wrap32 (eb.eventNum + 2), v, [], none⟩).mem.lookup b = some eb := by
      rw [lookup_store_ne hba, heb]
    have hlink := core_store_link (q := some a) heb'
    refine ⟨?_, fun c hc => ?_, Or.inr ⟨b, eb, by simp, h.last_eq, heb, rfl⟩⟩
    · exact (congrFun hlink a).trans core_store
    · exact (congrFun hlink c).trans (core_store_ne hc)

/-- **`sys_myevent_close`** takes the node away, wakes its waiters, and leaves the contents of the
other nodes. -/
theorem close_core (h : WfList s l) (hrel : Releases s n r) {x : ℤ} {woken : List Task}
    (he : sysMyeventClose s n = .ok (x, woken, s')) :
    x = n ∧ core s' r = none ∧ (∀ b, b ≠ r → core s' b = core s b) ∧
      ∃ e, s.mem.lookup r = some e ∧ woken = e.p := by
  obtain ⟨prev, hs⟩ := hrel
  obtain ⟨-, hnum⟩ := find_some h hs
  obtain ⟨e, her, -⟩ := num_eq_some.mp hnum
  obtain ⟨s₁, hu, hcore⟩ : ∃ s₁, unlink s r prev = .ok s₁ ∧ core s₁ = core s := by
    by_cases hend : s.lpmyeventEnd = some r
    · exact ⟨_, unlink_end_eq hend, rfl⟩
    · obtain ⟨s₁, hu, -, hcore⟩ := unlink_spec h hs hend
      exact ⟨s₁, hu, hcore⟩
  obtain ⟨e', he', heq⟩ := core_eq_some.mp ((congrFun hcore r).trans (core_of_lookup her))
  rw [close_some_eq hs hu he'] at he
  obtain ⟨rfl, rfl, rfl⟩ : n = x ∧ e'.p = woken ∧ s₁.kfree r = s' := by simpa using he
  simp only [Prod.mk.injEq] at heq
  refine ⟨rfl, core_kfree, fun b hb => ?_, e, her, heq.2.2⟩
  rw [core_kfree_ne hb, hcore]

end LinuxHomework.Event.Contents
