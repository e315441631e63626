import LinuxHomework.Event.Contents

/-! # The event list as a table of live events

The abstract state is `Live`: which numbers are open, and the value each event must have. `record`
says what a call does to it, and `Refines` that the calls return what the table says, and that every
live event is found with its value. Runs are those in which `kmalloc` succeeds and the numbers fit
an `int`.

* `table_iff`: the list refines the table throughout a run exactly when no close in it hits the
  event `lpmyevent_end` points to.
* `table_broken`: after a close of the last event the next call walks into its node. -/

namespace LinuxHomework.Event.Table

open LinuxHomework.Lib.Chain LinuxHomework.Lib.CInt LinuxHomework.Lib.Runs
open LinuxHomework.Event.Nodes LinuxHomework.Event.EventList LinuxHomework.Event.Contents

/-! ### The table -/

/-- The value of every live event, by its number. -/
abbrev Live := ℤ → Option ℤ

/-- The events and the table. -/
structure Ledger where
  ev : Except Fault Events
  live : Live

def start : Ledger := ⟨.ok Events.init, fun _ => none⟩

/-- The number of the next event. -/
def nextNumber (s : Events) : ℤ :=
  match s.lpmyeventEnd.bind s.mem.lookup with
  | none => 2
  | some e => e.eventNum + 2

/-- `kmalloc` succeeds with memory that is not in use, and the number fits an `int`. -/
def Fits (s : Events) : Call → Prop
  | .sysOpen eventNum _ kmalloc => eventNum = 0 → kmalloc ≠ none ∧ nextNumber s < 2 ^ 31
  | _ => True

instance (s : Events) : (c : Call) → Decidable (Fits s c)
  | .sysOpen .. => inferInstanceAs (Decidable (_ → _ ∧ _))
  | .sysSignal _ | .sysClose _ => inferInstanceAs (Decidable True)

/-- What a call that returned `r` does to the table. -/
def record (live : Live) : Call → ℤ → Live
  | .sysOpen eventNum value _, r =>
    if eventNum = 0 then Function.update live r (some value) else live
  | .sysSignal n, _ => Function.update live n ((live n).map fun v => wrap32 (v + 1))
  | .sysClose n, _ => Function.update live n none

/-- One call. Nothing follows a call that went wrong. -/
def step (x : Ledger) (c : Call) : Option Ledger :=
  match x.ev with
  | .error _ => none
  | .ok s =>
    if c.Possible s ∧ Fits s c then
      match c.exec s with
      | .error f => some ⟨.error f, x.live⟩
      | .ok (r, s') => some ⟨.ok s', record x.live c r⟩
    else none

/-- The call goes well, and returns `r`. -/
def Returns {α : Type} (x : Except Fault (ℤ × α)) (r : ℤ) : Prop := ∃ y, x = .ok (r, y)

/-- What a call on the number `n` returns. -/
def answer (live : Live) (n : ℤ) : ℤ := if (live n).isSome then n else 0

/-- **The list refines the table.** -/
def Refines (x : Ledger) : Prop :=
  ∃ s, x.ev = .ok s ∧ ∀ n, n ≠ 0 →
    (∀ v k, Returns (sysMyeventOpen s n v k) (answer x.live n)) ∧
    Returns (sysMyeventSignal s n) (answer x.live n) ∧
    Returns (sysMyeventClose s n) (answer x.live n) ∧
    ∀ v, x.live n = some v → ∃ a prev e, scheventNum s n = .ok (some a, prev) ∧
      s.mem.lookup a = some e ∧ e.value = v

/-! ### The invariant -/

/-- **The invariant**: the nodes of the list are the rows of the table, their numbers differ, and
the last one has the greatest. Nobody waits. -/
structure Inv (s : Events) (l : List Addr) (live : Live) : Prop where
  wf : WfList s l
  distinct : Distinct s l
  le_last : ∀ a ∈ l, ∀ m, s.num a = some m → 2 ≤ m ∧
    ∀ b k, s.lpmyeventEnd = some b → s.num b = some k → m ≤ k
  live : ∀ n v, live n = some v ↔ ∃ a ∈ l, core s a = some (n, v, [])
  idle : ∀ a ∈ l, ∀ x, core s a = some x → x.2.2 = []

variable {s s' : Events} {l : List Addr} {live : Live} {n v : ℤ} {x x' : Ledger} {c : Call}
  {a b r : Addr}

theorem inv_init : Inv Events.init [] fun _ => none where
  wf := wfList_init
  distinct := by simp [Distinct]
  le_last := by simp
  live := by simp
  idle := by simp

theorem num_of_core {k : ℤ × ℤ × List Task} (h : core s a = some k) : s.num a = some k.1 := by
  rw [num_eq_core, h]
  rfl

/-- Every node of the list has contents. -/
theorem Inv.row (h : Inv s l live) (ha : a ∈ l) : ∃ m u, core s a = some (m, u, []) := by
  obtain ⟨e, he⟩ := Linked.lookup h.wf.chain ha
  have hcore := core_of_lookup he
  have hidle : e.p = [] := h.idle a ha _ hcore
  rw [hidle] at hcore
  exact ⟨_, _, hcore⟩

theorem Inv.find_live (h : Inv s l live) (hn : live n = some v) :
    ∃ a prev e, scheventNum s n = .ok (some a, prev) ∧ s.mem.lookup a = some e ∧
      a ∈ l ∧ e.eventNum = n ∧ e.value = v ∧ e.p = [] := by
  obtain ⟨a, ha, hcore⟩ := (h.live n v).mp hn
  obtain ⟨e, he, heq⟩ := core_eq_some.mp hcore
  obtain ⟨prev, hprev⟩ := find_mem h.wf h.distinct ha (num_of_core hcore)
  simp only [Prod.mk.injEq] at heq
  exact ⟨a, prev, e, hprev, he, ha, heq⟩

theorem Inv.find_dead (h : Inv s l live) (hn : live n = none) :
    ∃ prev, scheventNum s n = .ok (none, prev) := by
  refine find_none h.wf fun b hb hnum => ?_
  obtain ⟨m, u, hcore⟩ := h.row hb
  obtain rfl : m = n := Option.some.inj ((num_of_core hcore).symm.trans hnum)
  have := (h.live m u).mpr ⟨b, hb, hcore⟩
  rw [hn] at this
  cases this

/-- What a search for a number of the table finds. -/
theorem Inv.find (h : Inv s l live) (n : ℤ) :
    (live n = none ∧ ∃ prev, scheventNum s n = .ok (none, prev)) ∨
      ∃ v a prev e, live n = some v ∧ scheventNum s n = .ok (some a, prev) ∧
        s.mem.lookup a = some e ∧ a ∈ l ∧ e.eventNum = n ∧ e.value = v ∧ e.p = [] := by
  cases hn : live n with
  | none => exact Or.inl ⟨rfl, h.find_dead hn⟩
  | some v =>
    obtain ⟨a, prev, e, hrest⟩ := h.find_live hn
    exact Or.inr ⟨v, a, prev, e, rfl, hrest⟩

theorem Inv.refines (h : Inv s l live) : Refines ⟨.ok s, live⟩ := by
  refine ⟨s, rfl, fun n hn => ?_⟩
  rcases h.find n with ⟨hnone, prev, hprev⟩ | ⟨v, a, prev, e, hlive, hprev, he, -, -, hv, hp⟩
  · have hanswer : answer live n = 0 := by simp [answer, hnone]
    simp only [hanswer]
    refine ⟨fun v k => ⟨s, open_found_eq hn k hprev⟩, ⟨_, signal_none_eq hprev⟩,
      ⟨_, close_none_eq hprev⟩, fun v hv => ?_⟩
    rw [hnone] at hv
    cases hv
  · have hanswer : answer live n = n := by simp [answer, hlive]
    simp only [hanswer]
    refine ⟨fun v k => ⟨s, open_found_eq hn k hprev⟩, ⟨_, signal_add_eq hprev he hp⟩, ?_,
      fun u hu => ⟨a, prev, e, hprev, he, ?_⟩⟩
    · by_cases hend : s.lpmyeventEnd = some a
      · exact ⟨_, close_end_eq hprev he hend⟩
      · obtain ⟨woken, s', hclose, -⟩ := close_spec h.wf ⟨prev, hprev⟩ hend
        exact ⟨_, hclose⟩
    · rw [hlive] at hu
      rw [hv]
      exact Option.some.inj hu

/-! ### The calls -/

/-- The contents decide about the invariant. -/
theorem Inv.congr (h : Inv s l live) (hwf : WfList s' l) (hend : s'.lpmyeventEnd = s.lpmyeventEnd)
    (hcore : ∀ b ∈ l, core s' b = core s b) : Inv s' l live := by
  have hnum : ∀ b ∈ l, s'.num b = s.num b := fun b hb => by
    rw [num_eq_core, num_eq_core, hcore b hb]
  refine ⟨hwf, fun a ha b hb hab => ?_, fun a ha m hm => ?_, fun n v => ?_, fun a ha k hk => ?_⟩
  · rw [hnum a ha, hnum b hb] at hab
    exact h.distinct a ha b hb hab
  · rw [hnum a ha] at hm
    refine ⟨(h.le_last a ha m hm).1, fun b k hb hk => ?_⟩
    have hbl : b ∈ l := List.mem_of_getLast? (hwf.last.trans hb)
    rw [hend] at hb
    rw [hnum b hbl] at hk
    exact (h.le_last a ha m hm).2 b k hb hk
  · rw [h.live n v]
    exact exists_congr fun a => and_congr_right fun ha => by rw [hcore a ha]
  · rw [hcore a ha] at hk
    exact h.idle a ha k hk

/-- The number of a new event is above all the others. -/
theorem Inv.number_above (h : Inv s l live) (hfit : nextNumber s < 2 ^ 31) {number : ℤ}
    (hnumber : l = [] ∧ number = 2 ∨ ∃ b e, b ∈ l ∧ s.lpmyeventEnd = some b ∧
      s.mem.lookup b = some e ∧ number = wrap32 (e.eventNum + 2)) :
    2 ≤ number ∧ ∀ b ∈ l, ∀ m, s.num b = some m → m < number := by
  rcases hnumber with ⟨rfl, rfl⟩ | ⟨b, e, hb, hend, hbe, hwrap⟩
  · exact ⟨le_rfl, by simp⟩
  · have hnb : s.num b = some e.eventNum := num_eq_some.mpr ⟨e, hbe, rfl⟩
    have hge := (h.le_last b hb _ hnb).1
    have hnext : nextNumber s = e.eventNum + 2 := by simp [nextNumber, hend, hbe]
    rw [hnext] at hfit
    rw [wrap32_of_lt (by omega) (by omega)] at hwrap
    refine ⟨by omega, fun c hc m hm => ?_⟩
    have := (h.le_last c hc m hm).2 b _ hend hnb
    omega

theorem inv_open (h : Inv s l live) {raw : Myevent} (ha : a ∉ s.mem) (hfit : nextNumber s < 2 ^ 31)
    {number : ℤ} (he : sysMyeventOpen s 0 v (some (a, raw)) = .ok (number, s')) :
    Inv s' (l ++ [a]) (Function.update live number (some v)) := by
  obtain ⟨number', s'', he', hwf⟩ := open_new_spec h.wf v raw ha
  obtain ⟨rfl, rfl⟩ := Prod.mk.inj (Except.ok.inj (he.symm.trans he'))
  obtain ⟨hnew, hold, hnumber⟩ := open_new_core h.wf ha he
  have hal : a ∉ l := fun hmem => by
    obtain ⟨e, hea⟩ := Linked.lookup h.wf.chain hmem
    exact ha (AList.lookup_isSome.mp (by rw [hea]; rfl))
  have hmem : ∀ b ∈ l, b ≠ a := fun b hb hba => hal (hba ▸ hb)
  have hnum : ∀ b ∈ l, s'.num b = s.num b := fun b hb => by
    rw [num_eq_core, num_eq_core, hold b (hmem b hb)]
  have hnuma : s'.num a = some number := num_of_core hnew
  have hlt := h.number_above hfit hnumber
  have hlast : s'.lpmyeventEnd = some a := hwf.last_eq
  refine ⟨hwf, ?_, ?_, ?_, ?_⟩
  · intro b hb c hc hbc
    rcases List.mem_append.mp hb with hbl | hba <;> rcases List.mem_append.mp hc with hcl | hca
    · rw [hnum b hbl, hnum c hcl] at hbc
      exact h.distinct b hbl c hcl hbc
    · rw [hnum b hbl, List.mem_singleton.mp hca, hnuma] at hbc
      exact absurd (hlt.2 b hbl _ hbc) (lt_irrefl _)
    · rw [hnum c hcl, List.mem_singleton.mp hba, hnuma] at hbc
      exact absurd (hlt.2 c hcl _ hbc.symm) (lt_irrefl _)
    · rw [List.mem_singleton.mp hba, List.mem_singleton.mp hca]
  · intro b hb m hm
    have hle : 2 ≤ m ∧ m ≤ number := by
      rcases List.mem_append.mp hb with hb | hb
      · rw [hnum b hb] at hm
        exact ⟨(h.le_last b hb m hm).1, (hlt.2 b hb m hm).le⟩
      · rw [List.mem_singleton.mp hb, hnuma] at hm
        obtain rfl := Option.some.inj hm
        exact ⟨hlt.1, le_rfl⟩
    refine ⟨hle.1, fun c k hc hk => ?_⟩
    rw [hlast] at hc
    obtain rfl := Option.some.inj hc
    rw [hnuma] at hk
    exact Option.some.inj hk ▸ hle.2
  · intro m u
    by_cases hm : m = number
    · subst hm
      rw [Function.update_self]
      constructor
      · intro hu
        obtain rfl := Option.some.inj hu
        exact ⟨a, by simp, hnew⟩
      · rintro ⟨b, hb, hcore⟩
        rcases List.mem_append.mp hb with hb | hb
        · rw [hold b (hmem b hb)] at hcore
          exact absurd (hlt.2 b hb _ (num_of_core hcore)) (lt_irrefl _)
        · rw [List.mem_singleton.mp hb, hnew] at hcore
          simpa using hcore
    · rw [Function.update_of_ne hm, h.live m u]
      constructor
      · rintro ⟨b, hb, hcore⟩
        exact ⟨b, List.mem_append_left _ hb, by rw [hold b (hmem b hb), hcore]⟩
      · rintro ⟨b, hb, hcore⟩
        rcases List.mem_append.mp hb with hb | hb
        · exact ⟨b, hb, by rw [← hold b (hmem b hb), hcore]⟩
        · rw [List.mem_singleton.mp hb, hnew] at hcore
          simp only [Option.some.injEq, Prod.mk.injEq] at hcore
          exact absurd hcore.1.symm hm
  · intro b hb k hk
    rcases List.mem_append.mp hb with hb | hb
    · rw [hold b (hmem b hb)] at hk
      exact h.idle b hb k hk
    · rw [List.mem_singleton.mp hb, hnew] at hk
      rw [← Option.some.inj hk]

theorem inv_signal (h : Inv s l live) {result : ℤ × List Task × Events}
    (he : sysMyeventSignal s n = .ok result) :
    Inv result.2.2 l (Function.update live n ((live n).map fun v => wrap32 (v + 1))) := by
  rcases h.find n with ⟨hnone, prev, hprev⟩ | ⟨v, a, prev, e, hlive, hprev, hea, hal, hn, hv, hp⟩
  · rw [signal_none_eq hprev] at he
    obtain rfl := Except.ok.inj he
    rw [hnone, Option.map_none, ← hnone, Function.update_eq_self]
    exact h
  · rw [signal_add_eq hprev hea hp] at he
    obtain rfl := Except.ok.inj he
    rw [hlive]
    have hold : ∀ b, b ≠ a → core (s.store a { e with value := wrap32 (e.value + 1) }) b = core s b :=
      fun b hb => core_store_ne hb
    have hnew : core (s.store a { e with value := wrap32 (e.value + 1) }) a =
        some (n, wrap32 (v + 1), []) := by
      rw [core_store, hn, hv, hp]
    have hcorea : core s a = some (n, v, []) := by rw [core_of_lookup hea, hn, hv, hp]
    have hnum : ∀ b, (s.store a { e with value := wrap32 (e.value + 1) }).num b = s.num b := by
      intro b
      by_cases hb : b = a
      · rw [hb, num_of_core hnew, num_of_core hcorea]
      · rw [num_eq_core, num_eq_core, hold b hb]
    refine ⟨h.wf.congr (nx_store_same hea rfl) rfl rfl, ?_, ?_, fun m u => ?_, fun b hb k hk => ?_⟩
    · intro b hb c hc hbc
      exact h.distinct b hb c hc (by rwa [hnum, hnum] at hbc)
    · intro b hb m hm
      simp only [hnum] at hm ⊢
      exact h.le_last b hb m hm
    · by_cases hm : m = n
      · subst hm
        rw [Function.update_self]
        constructor
        · intro hu
          obtain rfl : wrap32 (v + 1) = u := Option.some.inj hu
          exact ⟨a, hal, hnew⟩
        · rintro ⟨b, hb, hcore⟩
          have hba : b = a := h.distinct b hb a hal (by
            rw [← hnum b, num_of_core hcore, num_of_core hcorea])
          rw [hba, hnew] at hcore
          simp only [Option.some.injEq, Prod.mk.injEq] at hcore
          rw [Option.map_some, hcore.2.1]
      · rw [Function.update_of_ne hm, h.live m u]
        refine exists_congr fun b => and_congr_right fun _ => ?_
        by_cases hb : b = a
        · rw [hb, hnew, hcorea]
          simp [Ne.symm hm]
        · rw [hold b hb]
    · by_cases hba : b = a
      · rw [hba, hnew] at hk
        rw [← Option.some.inj hk]
      · rw [hold b hba] at hk
        exact h.idle b hb k hk

/-- **`sys_myevent_close`** of an event other than the last takes its row away. -/
theorem inv_close (h : Inv s l live) (hok : ∀ r, Releases s n r → s.lpmyeventEnd ≠ some r)
    {result : ℤ × List Task × Events} (he : sysMyeventClose s n = .ok result) :
    ∃ l', Inv result.2.2 l' (Function.update live n none) := by
  rcases h.find n with ⟨hnone, prev, hprev⟩ | ⟨v, a, prev, e, hlive, hprev, hea, hal, hn, hv, hp⟩
  · rw [close_none_eq hprev] at he
    obtain rfl := Except.ok.inj he
    rw [← hnone, Function.update_eq_self]
    exact ⟨l, h⟩
  · have hrel : Releases s n a := ⟨prev, hprev⟩
    obtain ⟨woken, s'', he', hwf⟩ := close_spec h.wf hrel (hok a hrel)
    rw [he'] at he
    obtain rfl := Except.ok.inj he
    obtain ⟨-, -, hold, -⟩ := close_core h.wf hrel he'
    have hnd := h.wf.chain.nodup
    have hmem : ∀ b, b ∈ l.erase a ↔ b ≠ a ∧ b ∈ l := fun b => hnd.mem_erase_iff
    have hnum : ∀ b, b ≠ a → s''.num b = s.num b := fun b hb => by
      rw [num_eq_core, num_eq_core, hold b hb]
    have hnuma : s.num a = some n := num_eq_some.mpr ⟨e, hea, hn⟩
    have hend : s''.lpmyeventEnd = s.lpmyeventEnd := by
      rw [← hwf.last, ← h.wf.last]
      exact getLast_erase (fun hlast => hok a hrel (h.wf.last ▸ hlast))
    refine ⟨l.erase a, hwf, ?_, ?_, fun m u => ?_, fun b hb k hk => ?_⟩
    · intro b hb c hc hbc
      obtain ⟨hba, hbl⟩ := (hmem b).mp hb
      obtain ⟨hca, hcl⟩ := (hmem c).mp hc
      rw [hnum b hba, hnum c hca] at hbc
      exact h.distinct b hbl c hcl hbc
    · intro b hb m hm
      obtain ⟨hba, hbl⟩ := (hmem b).mp hb
      rw [hnum b hba] at hm
      refine ⟨(h.le_last b hbl m hm).1, fun c k hc hk => ?_⟩
      rw [hend] at hc
      have hca : c ≠ a := by
        rintro rfl
        exact hok c hrel hc
      rw [hnum c hca] at hk
      exact (h.le_last b hbl m hm).2 c k hc hk
    · by_cases hm : m = n
      · subst hm
        rw [Function.update_self]
        refine iff_of_false (by simp) ?_
        rintro ⟨b, hb, hcore⟩
        obtain ⟨hba, hbl⟩ := (hmem b).mp hb
        rw [hold b hba] at hcore
        exact hba (h.distinct b hbl a hal ((num_of_core hcore).trans hnuma.symm))
      · rw [Function.update_of_ne hm, h.live m u]
        constructor
        · rintro ⟨b, hb, hcore⟩
          have hba : b ≠ a := by
            rintro rfl
            exact hm (Option.some.inj ((num_of_core hcore).symm.trans hnuma))
          exact ⟨b, (hmem b).mpr ⟨hba, hb⟩, by rw [hold b hba, hcore]⟩
        · rintro ⟨b, hb, hcore⟩
          obtain ⟨hba, hbl⟩ := (hmem b).mp hb
          exact ⟨b, hbl, by rw [← hold b hba, hcore]⟩
    · obtain ⟨hba, hbl⟩ := (hmem b).mp hb
      rw [hold b hba] at hk
      exact h.idle b hbl k hk

/-- **A close of the last event**: the search for its number walks into the node. -/
theorem not_refines_close (h : Inv s l live) (hrel : Releases s n r) (hend : s.lpmyeventEnd = some r)
    (hn : n ≠ 0) {result : ℤ × List Task × Events} (he : sysMyeventClose s n = .ok result) :
    ¬ Refines ⟨.ok result.2.2, Function.update live n none⟩ := by
  obtain ⟨prev, hprev⟩ := hrel
  obtain ⟨hrl, hnum⟩ := find_some h.wf hprev
  obtain ⟨e, her, -⟩ := num_eq_some.mp hnum
  rw [close_end_eq hprev her hend] at he
  obtain rfl := Except.ok.inj he
  rintro ⟨s', hs', hall⟩
  obtain rfl := Except.ok.inj hs'
  have hanswer : answer (Function.update live n none) n = 0 := by simp [answer]
  obtain ⟨y, hy⟩ := (hall n hn).1 0 none
  -- the search must have ended without a result, so that the links lead through a chain
  have hfound : ∃ q, scheventNum ({ s with lpmyeventEnd := prev }.kfree r) n = .ok (none, q) := by
    cases hsearch : scheventNum ({ s with lpmyeventEnd := prev }.kfree r) n with
    | error f => simp [sysMyeventOpen, hn, hsearch, bind, Except.bind] at hy
    | ok found =>
      obtain ⟨_ | a, q⟩ := found
      · exact ⟨q, rfl⟩
      · rw [open_found_eq hn none hsearch, hanswer] at hy
        simp [hn] at hy
  obtain ⟨q, hq⟩ := hfound
  obtain ⟨l', hl'⟩ := linked_of_search hq
  have hlink : Linked s.nx s.lpmyeventHead l' := by
    refine Seg.mono hl' fun a q hq => ?_
    by_cases har : a = r
    · rw [har, nx_kfree] at hq
      cases hq
    · rwa [nx_kfree_ne har] at hq
  obtain rfl : l' = l := hlink.unique h.wf.chain
  obtain ⟨p, hp⟩ := hl'.allocated hrl
  rw [nx_kfree] at hp
  cases hp

/-! ### Runs -/

/-- The list is in order and holds the table. -/
def Held (x : Ledger) : Prop := ∃ s l, x.ev = .ok s ∧ Inv s l x.live

theorem step_ok {s : Events} (hx : x.ev = .ok s) (h : step x c = some x') :
    c.Possible s ∧ Fits s c ∧ match c.exec s with
      | .error f => x' = ⟨.error f, x.live⟩
      | .ok (r, s') => x' = ⟨.ok s', record x.live c r⟩ := by
  simp only [step, hx] at h
  split_ifs at h with hc
  refine ⟨hc.1, hc.2, ?_⟩
  cases he : c.exec s with
  | error f =>
    rw [he] at h
    exact (Option.some.inj h).symm
  | ok p =>
    rw [he] at h
    exact (Option.some.inj h).symm

theorem held_step (hx : Held x) (hok : CallOk x.ev c) (h : step x c = some x') : Held x' := by
  obtain ⟨s, l, hev, hinv⟩ := hx
  obtain ⟨hposs, hfit, hres⟩ := step_ok hev h
  cases c with
  | sysOpen n v k =>
    by_cases hn : n = 0
    · subst hn
      rcases k with _ | ⟨a, raw⟩
      · exact absurd rfl (hfit rfl).1
      · obtain ⟨number, s', he, -⟩ := open_new_spec hinv.wf v raw hposs
        simp only [Call.exec, he] at hres
        subst hres
        exact ⟨s', _, rfl, inv_open hinv hposs (hfit rfl).2 he⟩
    · obtain ⟨number, he⟩ := open_found_spec hinv.wf hn v k
      simp only [Call.exec, he] at hres
      subst hres
      refine ⟨s, l, rfl, ?_⟩
      rw [record, if_neg hn]
      exact hinv
  | sysSignal n =>
    obtain ⟨r, woken, s', he, -⟩ := signal_spec hinv.wf n
    simp only [Call.exec, he, Except.map] at hres
    subst hres
    exact ⟨s', l, rfl, inv_signal hinv he⟩
  | sysClose n =>
    have hlast : ∀ r, Releases s n r → s.lpmyeventEnd ≠ some r := fun r => hok s r hev
    have hclose : ∃ result, sysMyeventClose s n = .ok result := by
      obtain ⟨⟨_ | r, prev⟩, hr, -⟩ := scheventNum_spec hinv.wf.chain n
      · exact ⟨_, close_none_eq hr⟩
      · obtain ⟨woken, s', he, -⟩ := close_spec hinv.wf ⟨prev, hr⟩ (hlast r ⟨prev, hr⟩)
        exact ⟨_, he⟩
    obtain ⟨result, he⟩ := hclose
    simp only [Call.exec, he, Except.map] at hres
    subst hres
    obtain ⟨l', hl'⟩ := inv_close hinv hlast he
    exact ⟨_, l', rfl, hl'⟩

/-- **One call** keeps the refinement exactly when it is not a close of the last event. -/
theorem refines_step_iff (hx : Held x) (h : step x c = some x') : Refines x' ↔ CallOk x.ev c := by
  constructor
  · intro href
    obtain ⟨s, l, hev, hinv⟩ := hx
    obtain ⟨-, hfit, hres⟩ := step_ok hev h
    cases c with
    | sysOpen n v k => exact fun hn => (hfit hn).1
    | sysSignal n => trivial
    | sysClose n =>
      intro s₁ r hs₁ hrel hend
      obtain rfl := Except.ok.inj (hev.symm.trans hs₁)
      have hn : n ≠ 0 := by
        rintro rfl
        obtain ⟨prev, hprev⟩ := hrel
        obtain ⟨hrl, hnum⟩ := find_some hinv.wf hprev
        exact absurd (hinv.le_last r hrl 0 hnum).1 (by norm_num)
      obtain ⟨woken, s', he, -⟩ := close_last_spec hinv.wf hrel hend
      simp only [Call.exec, he, Except.map] at hres
      subst hres
      exact not_refines_close hinv hrel hend hn he href
  · intro hok
    obtain ⟨s, l, hev, hinv⟩ := held_step hx hok h
    obtain ⟨ev, live⟩ := x'
    subst hev
    exact hinv.refines

/-- **The event list refines the table of live events** in the runs in which no close hits the event
that `lpmyevent_end` points to, and in no others. -/
theorem table_iff (cs : List Call) :
    Always step Refines start cs ↔ Meets step (fun x c => CallOk x.ev c) start cs := by
  have hstart : Held start := ⟨_, _, rfl, inv_init⟩
  refine always_iff_meets (I := Held) (fun x c x' hx _ h hx' => ?_)
    (fun x c x' hx _ h => refines_step_iff hx h) hstart inv_init.refines
  exact held_step hx ((refines_step_iff hx h).mp hx') h

/-- What `sys_myevent_open(4, 0)` returns next. -/
def openFour (x : Ledger) : Option ℤ :=
  match x.ev with
  | .ok s => (sysMyeventOpen s 4 0 none).toOption.map Prod.fst
  | .error _ => none

/-- Two events are opened and the second one is closed: its number is not known to be closed, since
the search for it ends in the freed node. -/
theorem table_broken : ¬ Always step Refines start
    [.sysOpen 0 0 (some (8, ⟨0, 0, [], none⟩)), .sysOpen 0 0 (some (16, ⟨0, 0, [], none⟩)),
      .sysClose 4] := by
  intro h
  have hrun : (run step start [.sysOpen 0 0 (some (8, ⟨0, 0, [], none⟩)),
      .sysOpen 0 0 (some (16, ⟨0, 0, [], none⟩)), .sysClose 4]).map openFour = some none := by
    decide +kernel
  obtain ⟨x, hx, hopen⟩ := Option.map_eq_some_iff.mp hrun
  obtain ⟨s, hs, hall⟩ := h.last hx
  obtain ⟨y, hy⟩ := (hall 4 (by decide)).1 0 none
  simp [openFour, hs, hy, Except.toOption] at hopen

end LinuxHomework.Event.Table
