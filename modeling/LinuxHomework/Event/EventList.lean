import LinuxHomework.Lib.Runs
import LinuxHomework.Event.Nodes

/-! # The event list over runs of open, signal and close

`ListInv` is the representation invariant of the event list: the two global pointers are null
together, and otherwise the links lead from `lpmyevent_head` over allocated nodes to
`lpmyevent_end`. The specifications of the three calls on a list that satisfies it
(`open_spec`, `signal_spec`, `close_spec`) say exactly when it survives: an open must get its
memory, and a close must not hit the node `lpmyevent_end` points to, since the code takes that node
out of the memory but not out of the list (`CallOk`). -/

namespace LinuxHomework.Event.EventList

open LinuxHomework.Lib.Chain LinuxHomework.Lib.Runs LinuxHomework.Event.Nodes

/-! ### Calls -/

/-- A call of the module. `kmalloc` is what the allocator answers if the call asks it: null, or a
free address and what the memory there contains. -/
inductive Call
  | sysOpen (eventNum value : ℤ) (kmalloc : Option (Addr × Myevent))
  | sysSignal (eventNum : ℤ)
  | sysClose (eventNum : ℤ)

namespace Call

/-- The allocator hands out only memory that is not in use. -/
def Possible (s : Events) : Call → Prop
  | sysOpen _ _ (some (a, _)) => a ∉ s.mem
  | _ => True

instance (s : Events) (c : Call) : Decidable (c.Possible s) := by
  unfold Possible
  split <;> infer_instance

/-- The call itself. -/
def exec (s : Events) : Call → Except Fault (ℤ × Events)
  | sysOpen eventNum value kmalloc => sysMyeventOpen s eventNum value kmalloc
  | sysSignal eventNum => (sysMyeventSignal s eventNum).map fun r => (r.1, r.2.2)
  | sysClose eventNum => (sysMyeventClose s eventNum).map fun r => (r.1, r.2.2)

end Call

/-- One call. Nothing follows a call that went wrong. -/
def step : Except Fault Events → Call → Option (Except Fault Events)
  | .error _, _ => none
  | .ok s, c => if c.Possible s then some ((c.exec s).map Prod.snd) else none

/-! ### The invariant -/

/-- **The representation invariant** of the event list. -/
structure ListInv (s : Events) : Prop where
  null : s.lpmyeventHead = none ↔ s.lpmyeventEnd = none
  chain : ∃ l, Linked s.nx s.lpmyeventHead l ∧ l.Nodup ∧ l.getLast? = s.lpmyeventEnd

/-- The event list of `s` consists of the nodes `l`. -/
structure WfList (s : Events) (l : List Addr) : Prop where
  chain : Linked s.nx s.lpmyeventHead l
  last : l.getLast? = s.lpmyeventEnd

theorem listInv_iff {s : Events} : ListInv s ↔ ∃ l, WfList s l := by
  constructor
  · rintro ⟨-, l, h, -, hl⟩
    exact ⟨l, h, hl⟩
  · rintro ⟨l, h, hl⟩
    refine ⟨?_, l, h, h.nodup, hl⟩
    rw [h.start, ← hl]
    simp

theorem wfList_init : WfList Events.init [] := ⟨rfl, rfl⟩

/-- A call that leaves the links and the two pointers alone leaves the list alone. -/
theorem WfList.congr {s s' : Events} {l : List Addr} (h : WfList s l) (hnx : s'.nx = s.nx)
    (hh : s'.lpmyeventHead = s.lpmyeventHead) (he : s'.lpmyeventEnd = s.lpmyeventEnd) :
    WfList s' l := ⟨by rw [hnx, hh]; exact h.chain, by rw [he]; exact h.last⟩

/-- The last node, when there is one. -/
theorem WfList.last_eq {s : Events} {l : List Addr} {b : Addr} (h : WfList s (l ++ [b])) :
    s.lpmyeventEnd = some b := by
  rw [← h.last, List.getLast?_append]
  rfl

/-! ### The calls on a well-formed list -/

section Spec
variable {s : Events} {l : List Addr} (h : WfList s l)
include h

/-- `sys_myevent_open` of an existing number only searches. -/
theorem open_found_spec {n : ℤ} (hn : n ≠ 0) (v : ℤ) (k : Option (Addr × Myevent)) :
    ∃ number, sysMyeventOpen s n v k = .ok (number, s) := by
  obtain ⟨⟨found, prev⟩, hr, -⟩ := scheventNum_spec h.chain n
  exact ⟨_, open_found_eq hn k hr⟩

/-- **`sys_myevent_open`** of a new event appends the node `kmalloc` returned. -/
theorem open_new_spec (v : ℤ) {a : Addr} (raw : Myevent) (ha : a ∉ s.mem) :
    ∃ number s', sysMyeventOpen s 0 v (some (a, raw)) = .ok (number, s') ∧ WfList s' (l ++ [a]) := by
  have hmem : ∀ c ∈ l, c ≠ a := by
    rintro c hc rfl
    obtain ⟨e, he⟩ := Linked.lookup h.chain hc
    exact ha (AList.lookup_isSome.mp (by rw [he]; rfl))
  rcases List.eq_nil_or_concat l with rfl | ⟨m, b, rfl⟩
  · exact ⟨_, _, open_first_eq h.chain, ⟨rfl, none, nx_store, rfl⟩, rfl⟩
  · rw [List.concat_eq_append] at h hmem ⊢
    have hba : b ≠ a := hmem b (by simp)
    obtain ⟨eb, heb⟩ := Linked.lookup h.chain (a := b) (by simp)
    have hhead : s.lpmyeventHead ≠ none := by
      rw [h.chain.start]
      simp
    refine ⟨_, _, open_append_eq hhead h.last_eq heb hba, ?_, by simp⟩
    rw [List.append_assoc]
    refine h.chain.snoc (fun c hc => ?_) nx_store ?_
    · have hcb : c ≠ b := by
        rintro rfl
        exact (List.nodup_append.mp h.chain.nodup).2.2 c hc c (by simp) rfl
      show ((s.store a _).store b _).nx c = _
      rw [nx_store_ne hcb, nx_store_ne (hmem c (by simp [hc]))]
    · show ((s.store a _).store b _).nx a = _
      rw [nx_store_ne hba.symm, nx_store]

theorem signal_spec (n : ℤ) :
    ∃ r woken s', sysMyeventSignal s n = .ok (r, woken, s') ∧ WfList s' l := by
  obtain ⟨r, hr, hf⟩ := scheventNum_spec h.chain n
  cases hf with
  | no _ => exact ⟨_, _, _, signal_none_eq hr, h⟩
  | yes _ _ ha =>
    obtain ⟨e, he, -⟩ := num_eq_some.mp ha
    cases hp : e.p with
    | nil => exact ⟨_, _, _, signal_add_eq hr he hp, h.congr (nx_store_same he rfl) rfl rfl⟩
    | cons t rest => exact ⟨_, _, _, signal_wake_eq hr he hp, h.congr (nx_store_same he rfl) rfl rfl⟩

omit h in
/-- The node a close of `n` releases. -/
def Releases (s : Events) (n : ℤ) (r : Addr) : Prop := ∃ prev, scheventNum s n = .ok (some r, prev)

/-- **Taking a node out** that is not the last keeps the list in order, and the contents of all
nodes. -/
theorem unlink_spec {n : ℤ} {r : Addr} {prev : Option Addr}
    (hs : scheventNum s n = .ok (some r, prev)) (hr : s.lpmyeventEnd ≠ some r) :
    ∃ s', unlink s r prev = .ok s' ∧ WfList s' (l.erase r) ∧ core s' = core s := by
  obtain ⟨_, hs', hf⟩ := scheventNum_spec h.chain n
  obtain rfl := Except.ok.inj (hs.symm.trans hs')
  obtain ⟨l₁, l₂, rfl, rfl, hnum⟩ : ∃ l₁ l₂, l = l₁ ++ r :: l₂ ∧ prev = l₁.getLast? ∧
      s.num r = some n := by
    cases hf with
    | yes hl _ ha => exact ⟨_, _, hl, rfl, ha⟩
  obtain ⟨e, he, -⟩ := num_eq_some.mp hnum
  have hnd := h.chain.nodup
  have hr₁ : r ∉ l₁ := fun hmem => (List.nodup_append.mp hnd).2.2 r hmem r (by simp) rfl
  have hlast : (l₁ ++ l₂).getLast? = s.lpmyeventEnd := by
    rcases List.eq_nil_or_concat l₂ with rfl | ⟨m, b, rfl⟩
    · exact absurd h.last_eq hr
    · rw [← h.last, List.concat_eq_append, ← List.cons_append, ← List.append_assoc,
        ← List.append_assoc, List.getLast?_concat, List.getLast?_concat]
  rw [List.erase_append_right _ hr₁, List.erase_cons_head]
  rcases List.eq_nil_or_concat l₁ with rfl | ⟨m, b, rfl⟩
  · -- the head is released
    obtain ⟨q, hq, hl⟩ : ∃ q, s.nx r = some q ∧ Linked s.nx q l₂ :=
      h.chain.behead fun c _ => rfl
    obtain ⟨e', he', rfl⟩ := nx_eq_some.mp hq
    obtain rfl : e = e' := Option.some.inj (he.symm.trans he')
    exact ⟨_, unlink_head_eq he hr h.chain.start, ⟨hl, hlast⟩, rfl⟩
  · -- an inner node is released: the node before it is linked to the node behind it
    rw [List.concat_eq_append] at *
    obtain ⟨eb, heb⟩ := Linked.lookup h.chain (a := b) (by simp)
    have hhead : s.lpmyeventHead ≠ some r := by
      rw [h.chain.start]
      cases m with
      | nil => simpa using fun hbr : b = r => hr₁ (by simp [hbr])
      | cons c m => simpa using fun hc : c = r => hr₁ (by simp [hc])
    have hprev : (m ++ [b]).getLast? = some b := by simp
    rw [hprev]
    refine ⟨_, unlink_inner_eq he heb hr hhead, ⟨?_, hlast⟩, core_store_link heb⟩
    have hnd₁ := List.nodup_append.mp (List.nodup_append.mp hnd).1
    have hb₂ : b ∉ l₂ := fun hb =>
      (List.nodup_append.mp hnd).2.2 b (by simp) b (by simp [hb]) rfl
    rw [List.append_assoc, List.singleton_append] at h ⊢
    refine h.chain.unlink ?_ (fun c hc => nx_store_ne ?_) (fun c hc => nx_store_ne ?_)
    · rw [nx_store]
      exact (nx_eq_some.mpr ⟨e, he, rfl⟩).symm
    · exact fun hcb => hnd₁.2.2 c hc b (by simp) hcb
    · exact fun hcb => hb₂ (hcb ▸ hc)

/-- A list without the node at `r` does not see it freed. -/
theorem WfList.kfree {r : Addr} (hr : r ∉ l) : WfList (s.kfree r) l := by
  refine ⟨Linked.congr h.chain fun c hc => nx_kfree_ne ?_, h.last⟩
  rintro rfl
  exact hr hc

/-- **`sys_myevent_close`** of an event other than the last takes its node out of the list. -/
theorem close_spec {n : ℤ} {r : Addr} (hn : Releases s n r) (hr : s.lpmyeventEnd ≠ some r) :
    ∃ woken s', sysMyeventClose s n = .ok (n, woken, s') ∧ WfList s' (l.erase r) := by
  obtain ⟨prev, hs⟩ := hn
  obtain ⟨s₁, hu, hwf, hcore⟩ := unlink_spec h hs hr
  obtain ⟨r', hs', hf⟩ := scheventNum_spec h.chain n
  obtain rfl := Except.ok.inj (hs.symm.trans hs')
  obtain ⟨e, he, -⟩ : ∃ e, s.mem.lookup r = some e ∧ e.eventNum = n := by
    cases hf with
    | yes _ _ ha => exact num_eq_some.mp ha
  obtain ⟨e', he', -⟩ := core_eq_some.mp ((congrFun hcore r).trans (core_of_lookup he))
  have hnot : r ∉ l.erase r := fun hmem => (h.chain.nodup.mem_erase_iff.mp hmem).1 rfl
  exact ⟨_, _, close_some_eq hs hu he', hwf.kfree hnot⟩

/-- **A close of the last event** breaks the list: its node is given back and stays linked. -/
theorem close_last_spec {n : ℤ} {r : Addr} (hn : Releases s n r) (hr : s.lpmyeventEnd = some r) :
    ∃ woken s', sysMyeventClose s n = .ok (n, woken, s') ∧ ¬ ListInv s' := by
  obtain ⟨prev, hs⟩ := hn
  have hmem : r ∈ l := List.mem_of_getLast? (h.last.trans hr)
  obtain ⟨e, he⟩ := Linked.lookup h.chain hmem
  refine ⟨_, _, close_end_eq hs he hr, fun hinv => ?_⟩
  obtain ⟨l', hl'⟩ := listInv_iff.mp hinv
  -- the links still lead through the old list, the only one they can follow
  have hl : Linked s.nx s.lpmyeventHead l' := by
    refine Seg.mono hl'.chain fun a q hq => ?_
    by_cases har : a = r
    · rw [har, nx_kfree] at hq
      exact absurd hq (by simp)
    · rw [nx_kfree_ne har] at hq
      exact hq
  obtain rfl : l' = l := hl.unique h.chain
  obtain ⟨q, hq⟩ := hl'.chain.allocated hmem
  rw [nx_kfree] at hq
  exact absurd hq (by simp)

end Spec

/-! ### Runs -/

/-- The call went well and left a list in order. -/
def Sound (x : Except Fault Events) : Prop := ∃ s, x = .ok s ∧ ListInv s

/-- What a call must not do: create an event when `kmalloc` fails, or close the event that
`lpmyevent_end` points to. -/
def CallOk (x : Except Fault Events) : Call → Prop
  | .sysOpen eventNum _ kmalloc => eventNum = 0 → kmalloc ≠ none
  | .sysSignal _ => True
  | .sysClose eventNum => ∀ s r, x = .ok s → Releases s eventNum r → s.lpmyeventEnd ≠ some r

/-- **One call** keeps the list in order exactly when it is `CallOk`. -/
theorem sound_step_iff {x x' : Except Fault Events} {c : Call} (hx : Sound x)
    (hstep : step x c = some x') : Sound x' ↔ CallOk x c := by
  obtain ⟨s, rfl, hinv⟩ := hx
  obtain ⟨l, h⟩ := listInv_iff.mp hinv
  have hposs : c.Possible s := by
    by_contra hc
    simp [step, hc] at hstep
  obtain rfl : (c.exec s).map Prod.snd = x' := by simpa [step, hposs] using hstep
  have hsound : ∀ {n : ℤ} {s' : Events} {l' : List Addr}, c.exec s = .ok (n, s') →
      WfList s' l' → Sound ((c.exec s).map Prod.snd) := fun he hl =>
    ⟨_, by rw [he]; rfl, listInv_iff.mpr ⟨_, hl⟩⟩
  cases c with
  | sysOpen n v k =>
    by_cases hn : n = 0
    · subst hn
      rcases k with _ | ⟨a, raw⟩
      · refine iff_of_false ?_ (fun hc => hc rfl rfl)
        rintro ⟨s', hs', -⟩
        simp [Call.exec, sysMyeventOpen, Except.map] at hs'
      · obtain ⟨number, s', he, hl⟩ := open_new_spec h v raw hposs
        exact iff_of_true (hsound he hl) (fun _ => by simp)
    · obtain ⟨number, he⟩ := open_found_spec h hn v k
      exact iff_of_true (hsound he h) (fun h0 => absurd h0 hn)
  | sysSignal n =>
    obtain ⟨r, woken, s', he, hl⟩ := signal_spec h n
    exact iff_of_true (hsound (by simp only [Call.exec, he]; rfl) hl) trivial
  | sysClose n =>
    obtain ⟨⟨_ | r, prev⟩, hr, -⟩ := scheventNum_spec h.chain n
    · refine iff_of_true (hsound (by simp only [Call.exec, close_none_eq hr]; rfl) h) ?_
      rintro _ r ⟨⟩ ⟨prev', hr'⟩
      rw [hr] at hr'
      simp at hr'
    · have hrel : Releases s n r := ⟨prev, hr⟩
      by_cases hend : s.lpmyeventEnd = some r
      · obtain ⟨woken, s', he, hbad⟩ := close_last_spec h hrel hend
        refine iff_of_false ?_ (fun hc => hc s r rfl hrel hend)
        rintro ⟨s'', hs'', hinv''⟩
        simp only [Call.exec, he, Except.map, Except.ok.injEq] at hs''
        exact hbad (hs'' ▸ hinv'')
      · obtain ⟨woken, s', he, hl⟩ := close_spec h hrel hend
        refine iff_of_true (hsound (by simp only [Call.exec, he]; rfl) hl) ?_
        rintro _ r' ⟨⟩ ⟨prev', hr'⟩
        rw [hr] at hr'
        obtain ⟨rfl, -⟩ : r = r' ∧ prev = prev' := by simpa using hr'
        exact hend

/-- **The event list over a run** of opens, signals and closes from the empty list: no call goes
wrong and the list stays in order throughout, exactly when no open is refused its memory and no
close hits the last event. -/
theorem listInv_run_iff (cs : List Call) :
    Always step Sound (.ok Events.init) cs ↔ Meets step CallOk (.ok Events.init) cs :=
  always_iff_meets (I := fun _ => True) (fun _ _ _ _ _ _ _ => trivial)
    (fun _ _ _ _ hx hstep => sound_step_iff hx hstep) trivial
    ⟨_, rfl, listInv_iff.mpr ⟨[], wfList_init⟩⟩

/-- Opening one event and closing it: `lpmyevent_end` is null again, but `lpmyevent_head` still
points to the freed node. -/
theorem listInv_run_broken :
    ¬ Always step Sound (.ok Events.init)
      [.sysOpen 0 1 (some (8, ⟨0, 0, [], none⟩)), .sysClose 2] := by
  intro h
  obtain ⟨s, hs, hinv⟩ := h.last rfl
  cases hs
  exact absurd (hinv.null.mpr rfl) (by decide)

end LinuxHomework.Event.EventList
