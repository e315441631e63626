import LinuxHomework.Event.Contents
import Mathlib.Algebra.Group.Even

/-! # The numbers of the events

`sys_myevent_open` makes the number of a new event from that of the last one, and is said to give
out increasing even numbers. Runs are those of opens and closes in which `kmalloc` succeeds and no
close hits the last event (`Orderly`). Closes give the nodes back, so that such a run may go on for
ever in the memory of two nodes, and an `int` does not.

* `numbers_iff`: the numbers are fresh, and increase along the list, exactly in the runs that open
  less than 2³⁰ events.
* `numbers_wrap`: a run that keeps one event open returns a negative number in the end. -/

namespace LinuxHomework.Event.Numbers

open LinuxHomework.Lib.Chain LinuxHomework.Lib.CInt LinuxHomework.Lib.Runs
open LinuxHomework.Event.Nodes LinuxHomework.Event.EventList LinuxHomework.Event.Contents

/-! ### What is said about the numbers -/

/-- The numbers of the events on the list, from `lpmyevent_head` to `lpmyevent_end`. -/
def Numbered (s : Events) (ns : List ℤ) : Prop := ∃ l, WfList s l ∧ l.map s.num = ns.map some

/-- The calls of a run: opens of new events that get their memory, and closes of events that
`lpmyevent_end` does not point to. -/
def Orderly (x : Except Fault Events) : Call → Prop
  | .sysOpen eventNum _ kmalloc => eventNum = 0 ∧ kmalloc ≠ none
  | .sysSignal _ => False
  | .sysClose eventNum => CallOk x (.sysClose eventNum)

instance decidableOrderly (x : Except Fault Events) : (c : Call) → Decidable (Orderly x c)
  | .sysOpen .. => inferInstanceAs (Decidable (_ ∧ _))
  | .sysSignal _ => isFalse id
  | .sysClose n =>
    match x with
    | .error _ => isTrue nofun
    | .ok s =>
      match hr : scheventNum s n with
      | .ok (some r, _) =>
        decidable_of_iff (s.lpmyeventEnd ≠ some r) (by
          refine ⟨fun h s' r' hs ⟨prev, hr'⟩ => ?_, fun h => h s r rfl ⟨_, hr⟩⟩
          obtain rfl := Except.ok.inj hs
          rw [hr] at hr'
          exact (Prod.mk.inj (Except.ok.inj hr')).1 ▸ h)
      | .ok (none, _) | .error _ => isTrue (by
          rintro s' r' hs ⟨prev, hr'⟩
          obtain rfl := Except.ok.inj hs
          simp [hr] at hr')

/-- **The number returned** by an open is positive and even, and no event has it that is open. -/
def Fresh (x : Except Fault Events) : Call → Prop
  | .sysOpen eventNum value kmalloc => ∀ s ns number s', x = .ok s → Numbered s ns →
      sysMyeventOpen s eventNum value kmalloc = .ok (number, s') →
        0 < number ∧ Even number ∧ number ≠ 0 ∧ number ∉ ns
  | _ => True

/-- **The numbers increase** along the list. -/
def Increasing (x : Except Fault Events) : Prop :=
  ∃ s ns, x = .ok s ∧ Numbered s ns ∧ ns.Pairwise (· < ·)

/-- The call opens an event. -/
def opens : Call → Bool
  | .sysOpen .. => true
  | _ => false

variable {s s' : Events} {l : List Addr} {ns ms : List ℤ} {n v number : ℤ} {a r : Addr} {k : ℕ}
  {x x' : Except Fault Events} {c : Call} {cs : List Call}

theorem Numbered.unique (h : Numbered s ns) (h' : Numbered s ms) : ns = ms := by
  obtain ⟨l, hwf, hns⟩ := h
  obtain ⟨m, hwf', hms⟩ := h'
  obtain rfl := hwf.chain.unique hwf'.chain
  exact (List.map_injective_iff.mpr (Option.some_injective ℤ)) (hns.symm.trans hms)

theorem numbered_init : Numbered Events.init [] := ⟨[], wfList_init, rfl⟩

/-! ### The calls on the numbers -/

/-- **`sys_myevent_open`** puts a number behind the others, the first one 2. -/
theorem numbered_open (h : Numbered s ns) (raw : Myevent) (ha : a ∉ s.mem) :
    ∃ number s', sysMyeventOpen s 0 v (some (a, raw)) = .ok (number, s') ∧
      Numbered s' (ns ++ [number]) ∧
      number = (match ns.getLast? with | none => 2 | some m => wrap32 (m + 2)) ∧
      core s' a = some (number, v, []) ∧ ∀ b, b ≠ a → core s' b = core s b := by
  obtain ⟨l, hwf, hns⟩ := h
  obtain ⟨number, s', he, hwf'⟩ := open_new_spec hwf v raw ha
  obtain ⟨hnew, hold, hnumber⟩ := open_new_core hwf ha he
  have hnum : ∀ b ∈ l, s'.num b = s.num b := by
    intro b hb
    obtain ⟨e, hbe⟩ := Linked.lookup hwf.chain hb
    have hba : b ≠ a := by
      rintro rfl
      exact ha (AList.lookup_isSome.mp (by rw [hbe]; rfl))
    rw [num_eq_core, num_eq_core, hold b hba]
  have hnuma : s'.num a = some number := by
    rw [num_eq_core, hnew]
    rfl
  refine ⟨number, s', he, ⟨l ++ [a], hwf', ?_⟩, ?_, hnew, hold⟩
  · rw [List.map_append, List.map_append, List.map_congr_left hnum, hns, List.map_singleton,
      List.map_singleton, hnuma]
  · rcases hnumber with ⟨rfl, rfl⟩ | ⟨b, e, hb, hend, hbe, rfl⟩
    · obtain rfl : ns = [] := by simpa using hns.symm
      rfl
    · have hlast : ns.getLast? = some e.eventNum := by
        have hmap := congrArg List.getLast? hns
        rw [List.getLast?_map, List.getLast?_map, hwf.last, hend, Option.map_some,
          num_eq_some.mpr ⟨e, hbe, rfl⟩] at hmap
        simpa using hmap.symm
      rw [hlast]

/-- A search for a number finds its node, and nothing for others. -/
theorem Numbered.find (h : Numbered s ns) (n : ℤ) :
    (n ∉ ns ∧ ∃ prev, scheventNum s n = .ok (none, prev)) ∨
      ∃ l₁ r l₂ ns₁ ns₂, WfList s (l₁ ++ r :: l₂) ∧ ns = ns₁ ++ n :: ns₂ ∧ n ∉ ns₁ ∧
        l₁.map s.num = ns₁.map some ∧ l₂.map s.num = ns₂.map some ∧ Releases s n r := by
  obtain ⟨l, hwf, hns⟩ := h
  obtain ⟨found, hr, hfound⟩ := scheventNum_spec hwf.chain n
  have hmem : ∀ {m : List Addr} {ks : List ℤ}, m.map s.num = ks.map some →
      (∀ b ∈ m, s.num b ≠ some n) → n ∉ ks := by
    intro m ks hks hno hn
    have : some n ∈ m.map s.num := hks ▸ List.mem_map_of_mem hn
    obtain ⟨b, hb, hbn⟩ := List.mem_map.mp this
    exact hno b hb hbn
  cases hfound with
  | no hno => exact Or.inl ⟨hmem hns hno, _, hr⟩
  | @yes l₁ l₂ r hl hno hnum =>
    rw [hl, List.map_append, List.map_cons, hnum] at hns
    obtain ⟨ns₁, ns', rfl, h₁, h'⟩ := List.map_eq_append_iff.mp hns.symm
    obtain ⟨m, ns₂, rfl, hm, h₂⟩ := List.map_eq_cons_iff.mp h'
    obtain rfl := Option.some.inj hm
    exact Or.inr ⟨l₁, r, l₂, ns₁, ns₂, hl ▸ hwf, rfl, hmem h₁.symm hno, h₁.symm, h₂.symm, _, hr⟩

/-- The number that a close may take is not the last one. -/
theorem Numbered.not_last (h : Numbered s ns) (hnd : ns.Nodup)
    (hok : ∀ r, Releases s n r → s.lpmyeventEnd ≠ some r) : ns.getLast? ≠ some n := by
  rcases h.find n with ⟨hn, -⟩ | ⟨l₁, r, l₂, ns₁, ns₂, hwf, rfl, -, -, h₂, hrel⟩
  · exact fun hlast => hn (List.mem_of_getLast? hlast)
  · intro hlast
    have hn₂ : n ∉ ns₂ := (List.nodup_cons.mp (List.nodup_append.mp hnd).2.1).1
    have hnil : ns₂ = [] := by
      rcases List.eq_nil_or_concat ns₂ with rfl | ⟨ms, m, rfl⟩
      · rfl
      · rw [List.concat_eq_append, ← List.cons_append, ← List.append_assoc,
          List.getLast?_concat] at hlast
        obtain rfl := Option.some.inj hlast
        simp at hn₂
    obtain rfl : l₂ = [] := by simpa [hnil] using h₂
    exact hok r hrel hwf.last_eq

/-- Conversely, a close of another number than the last one does not hit the last event. -/
theorem Numbered.releases (h : Numbered s ns) (hlast : ns.getLast? ≠ some n) :
    ∀ r, Releases s n r → s.lpmyeventEnd ≠ some r := by
  rintro r ⟨prev, hprev⟩ hend
  obtain ⟨l, hwf, hns⟩ := h
  have hmap := congrArg List.getLast? hns
  rw [List.getLast?_map, List.getLast?_map, hwf.last, hend, Option.map_some,
    (find_some hwf hprev).2] at hmap
  exact hlast (by simpa using hmap.symm)

/-- **`sys_myevent_close`** of an event that is not the last takes its number out. -/
theorem numbered_close (h : Numbered s ns) (hok : ∀ r, Releases s n r → s.lpmyeventEnd ≠ some r) :
    ∃ result, sysMyeventClose s n = .ok result ∧ Numbered result.2.2 (ns.erase n) ∧
      (n ∉ ns ∧ result.2.2 = s ∨
        ∃ r, s.num r = some n ∧ core result.2.2 r = none ∧
          ∀ b, b ≠ r → core result.2.2 b = core s b) := by
  rcases h.find n with ⟨hn, prev, hr⟩ |
    ⟨l₁, r, l₂, ns₁, ns₂, hwf, rfl, hn, h₁, h₂, hrel⟩
  · refine ⟨_, close_none_eq hr, ?_, Or.inl ⟨hn, rfl⟩⟩
    rw [List.erase_of_not_mem hn]
    exact h
  · obtain ⟨woken, s', he, hwf'⟩ := close_spec hwf hrel (hok r hrel)
    obtain ⟨-, hgone, hold, e, her, -⟩ := close_core hwf hrel he
    have hnd := hwf.chain.nodup
    have hr₁ : r ∉ l₁ := fun hmem => (List.nodup_append.mp hnd).2.2 r hmem r (by simp) rfl
    have hr₂ : r ∉ l₂ := (List.nodup_cons.mp (List.nodup_append.mp hnd).2.1).1
    have hnum : ∀ b, b ≠ r → s'.num b = s.num b := by
      intro b hb
      rw [num_eq_core, num_eq_core, hold b hb]
    have hsame : ∀ m : List Addr, r ∉ m → m.map s'.num = m.map s.num := by
      intro m hm
      refine List.map_congr_left fun b hb => hnum b ?_
      rintro rfl
      exact hm hb
    obtain ⟨prev, hprev⟩ := hrel
    refine ⟨_, he, ?_, Or.inr ⟨r, (find_some hwf hprev).2, hgone, hold⟩⟩
    rw [List.erase_append_right _ hr₁, List.erase_cons_head] at hwf'
    rw [List.erase_append_right _ hn, List.erase_cons_head]
    refine ⟨l₁ ++ l₂, hwf', ?_⟩
    rw [List.map_append, List.map_append, hsame l₁ hr₁, hsame l₂ hr₂, h₁, h₂]

/-! ### The order of the numbers -/

/-- **The numbers after `k` opens**: they are even and increase, and the last one is `2 * k`. -/
structure Ordered (k : ℕ) (ns : List ℤ) : Prop where
  sorted : ns.Pairwise (· < ·)
  even : ∀ n ∈ ns, 0 < n ∧ Even n
  last : ns.getLast? = if k = 0 then none else some (2 * k : ℤ)

theorem ordered_nil : Ordered 0 [] := ⟨List.Pairwise.nil, by simp, rfl⟩

/-- No number is above the last one. -/
theorem Ordered.le (h : Ordered k ns) (hn : n ∈ ns) : n ≤ 2 * k := by
  rcases List.eq_nil_or_concat ns with rfl | ⟨ms, m, rfl⟩
  · cases hn
  · have hlast := h.last
    rw [List.concat_eq_append] at hn hlast
    have hsorted := h.sorted
    rw [List.concat_eq_append, List.pairwise_append] at hsorted
    rw [List.getLast?_concat] at hlast
    split_ifs at hlast
    have hm : m = 2 * k := Option.some.inj hlast
    rcases List.mem_append.mp hn with hn | hn
    · have := hsorted.2.2 n hn m (List.mem_singleton_self m)
      omega
    · rw [List.mem_singleton.mp hn, hm]

/-- The next number, as long as it is an `int`. -/
theorem Ordered.next (h : Ordered k ns) : (match ns.getLast? with
    | none => 2 | some m => wrap32 (m + 2)) = if k = 0 then 2 else wrap32 (2 * (k + 1)) := by
  rw [h.last]
  split_ifs
  · rfl
  · rw [show (2 * (k + 1) : ℤ) = 2 * k + 2 by ring]

theorem Ordered.snoc (h : Ordered k ns) : Ordered (k + 1) (ns ++ [2 * (k + 1 : ℤ)]) := by
  constructor
  · rw [List.pairwise_append]
    refine ⟨h.sorted, List.pairwise_singleton _ _, fun n hn m hm => ?_⟩
    have := h.le hn
    rw [List.mem_singleton.mp hm]
    omega
  · intro n hn
    rcases List.mem_append.mp hn with hn | hn
    · exact h.even n hn
    · rw [List.mem_singleton.mp hn]
      exact ⟨by omega, even_two_mul _⟩
  · rw [List.getLast?_concat]
    simp

theorem Ordered.erase (h : Ordered k ns) (hn : ns.getLast? ≠ some n) : Ordered k (ns.erase n) := by
  refine ⟨h.sorted.sublist List.erase_sublist, fun m hm => h.even m (List.mem_of_mem_erase hm), ?_⟩
  rw [← h.last]
  exact getLast_erase hn

/-! ### Runs -/

/-- **The state after `k` opens.** -/
def After (k : ℕ) (x : Except Fault Events) : Prop :=
  ∃ s ns, x = .ok s ∧ Numbered s ns ∧ Ordered k ns

theorem After.increasing (h : After k x) : Increasing x := by
  obtain ⟨s, ns, rfl, hns, hord⟩ := h
  exact ⟨s, ns, rfl, hns, hord.sorted⟩

/-- What an open of a run does. -/
theorem open_next (h : After k x) {kmalloc : Option (Addr × Myevent)}
    (hc : Orderly x (.sysOpen n v kmalloc)) (hstep : step x (.sysOpen n v kmalloc) = some x') :
    ∃ s ns number s', x = .ok s ∧ Numbered s ns ∧ Ordered k ns ∧
      sysMyeventOpen s n v kmalloc = .ok (number, s') ∧ x' = .ok s' ∧ Numbered s' (ns ++ [number]) ∧
      number = if k = 0 then 2 else wrap32 (2 * (k + 1)) := by
  obtain ⟨s, ns, rfl, hns, hord⟩ := h
  obtain ⟨rfl, hmem⟩ := hc
  obtain ⟨⟨a, raw⟩, rfl⟩ := Option.ne_none_iff_exists'.mp hmem
  have hfree : a ∉ s.mem := by
    by_contra hin
    simp [step, Call.Possible, hin] at hstep
  obtain ⟨number, s', he, hns', hnumber, -⟩ := numbered_open (v := v) hns raw hfree
  refine ⟨s, ns, number, s', rfl, hns, hord, he, ?_, hns', hnumber.trans hord.next⟩
  simpa [step, Call.Possible, hfree, Call.exec, he, Except.map] using hstep.symm

/-- **An open** as long as the numbers last. -/
theorem after_open (h : After k x) {kmalloc : Option (Addr × Myevent)}
    (hc : Orderly x (.sysOpen n v kmalloc)) (hstep : step x (.sysOpen n v kmalloc) = some x')
    (hk : k + 1 < 2 ^ 30) : After (k + 1) x' ∧ Fresh x (.sysOpen n v kmalloc) := by
  obtain ⟨s, ns, number, s', rfl, hns, hord, he, rfl, hns', hnumber⟩ := open_next h hc hstep
  have hnext : number = 2 * (k + 1 : ℤ) := by
    rw [hnumber]
    split_ifs with h0
    · rw [h0]
      rfl
    · exact wrap32_of_lt (by omega) (by omega)
  rw [hnext] at hns'
  refine ⟨⟨s', _, rfl, hns', hord.snoc⟩, fun s₁ ms m s₂ hs₁ hms hm => ?_⟩
  obtain rfl := Except.ok.inj hs₁
  obtain rfl := hns.unique hms
  obtain ⟨rfl, -⟩ := Prod.mk.inj (Except.ok.inj (he.symm.trans hm))
  rw [hnext]
  refine ⟨by omega, even_two_mul _, by omega, fun hin => ?_⟩
  have := hord.le hin
  omega

/-- **The open after 2³⁰ - 1 others** returns a number that is not positive. -/
theorem not_fresh (h : After k x) {kmalloc : Option (Addr × Myevent)}
    (hc : Orderly x (.sysOpen n v kmalloc)) (hstep : step x (.sysOpen n v kmalloc) = some x')
    (hk : k + 1 = 2 ^ 30) : ¬ Fresh x (.sysOpen n v kmalloc) := by
  obtain ⟨s, ns, number, s', rfl, hns, hord, he, rfl, hns', hnumber⟩ := open_next h hc hstep
  intro hfresh
  obtain ⟨hpos, -⟩ := hfresh s ns number s' rfl hns he
  have hwrap : wrap32 (2 * (k + 1 : ℤ)) = -2 ^ 31 := by
    rw [show (2 * (k + 1) : ℤ) = 2 * ((k + 1 : ℕ) : ℤ) by push_cast; ring, hk]
    rfl
  rw [hnumber, if_neg (by omega), hwrap] at hpos
  omega

theorem after_close (h : After k x) (hc : Orderly x (.sysClose n))
    (hstep : step x (.sysClose n) = some x') : After k x' := by
  obtain ⟨s, ns, rfl, hns, hord⟩ := h
  have hok : ∀ r, Releases s n r → s.lpmyeventEnd ≠ some r := fun r => hc s r rfl
  obtain ⟨result, he, hns', -⟩ := numbered_close hns hok
  have hx : x' = .ok result.2.2 := by
    simpa [step, Call.Possible, Call.exec, he, Except.map] using hstep.symm
  exact ⟨_, _, hx, hns', hord.erase (hns.not_last hord.sorted.nodup hok)⟩

/-- **The numbers of a run** from a state after `k` opens. -/
theorem numbers_after (h : After k x) (hk : k < 2 ^ 30) (hrun : run step x cs = some x')
    (hcs : Meets step Orderly x cs) :
    (Meets step Fresh x cs ∧ Always step Increasing x cs) ↔ k + cs.countP opens < 2 ^ 30 := by
  induction cs generalizing x k with
  | nil => simpa [h.increasing] using hk
  | cons c cs ih =>
    rw [run_cons] at hrun
    obtain ⟨y, hy, hrest⟩ := Option.bind_eq_some_iff.mp hrun
    obtain ⟨hc, hcs'⟩ := meets_cons.mp hcs y hy
    have hsplit : (Meets step Fresh x (c :: cs) ∧ Always step Increasing x (c :: cs)) ↔
        Fresh x c ∧ Meets step Fresh y cs ∧ Always step Increasing y cs := by
      simp [hy, h.increasing]
      tauto
    rw [hsplit]
    cases c with
    | sysOpen n v kmalloc =>
      rw [List.countP_cons_of_pos (show opens (.sysOpen n v kmalloc) = true from rfl)]
      by_cases hk' : k + 1 < 2 ^ 30
      · obtain ⟨hafter, hfresh⟩ := after_open h hc hy hk'
        rw [and_iff_right hfresh, ih hafter hk' hrest hcs']
        omega
      · refine iff_of_false (fun hall => ?_) (by omega)
        exact not_fresh h hc hy (by omega) hall.1
    | sysSignal n => exact absurd hc (by simp [Orderly])
    | sysClose n =>
      rw [List.countP_cons_of_neg (by simp [opens]),
        and_iff_right (show Fresh x (.sysClose n) from trivial)]
      exact ih (after_close h hc hy) hk hrest hcs'

/-- **The numbers of the events** are positive, even, fresh and increasing exactly in the runs that
open less than 2³⁰ events. -/
theorem numbers_iff (hrun : run step (.ok Events.init) cs = some x)
    (hcs : Meets step Orderly (.ok Events.init) cs) :
    (Meets step Fresh (.ok Events.init) cs ∧ Always step Increasing (.ok Events.init) cs) ↔
      cs.countP opens < 2 ^ 30 := by
  have h : After 0 (.ok Events.init) := ⟨_, _, rfl, numbered_init, ordered_nil⟩
  rw [numbers_after h (by decide) hrun hcs, Nat.zero_add]

/-! ### A run without end -/

/-- Two places in memory take turns. -/
def place (i : ℕ) : Addr := 8 + 8 * (i % 2)

/-- The open that comes after `i` others. -/
def newEvent (i : ℕ) : Call := .sysOpen 0 0 (some (place i, ⟨0, 0, [], none⟩))

/-- `n` times an event is opened and the one before it is closed; then one more is opened. -/
def rounds (i : ℕ) : ℕ → List Call
  | 0 => [newEvent i]
  | n + 1 => newEvent i :: .sysClose (2 * i) :: rounds (i + 1) n

theorem numbers_iff_rounds : (Meets step Fresh (.ok Events.init) (rounds 0 3) ∧
    Always step Increasing (.ok Events.init) (rounds 0 3)) ↔ (rounds 0 3).countP opens < 2 ^ 30 := by
  have hrun : (run step (.ok Events.init) (rounds 0 3)).isSome = true := by decide +kernel
  exact numbers_iff (Option.some_get hrun).symm (by decide +kernel)

/-- After `i` opens the last event is the only one. -/
structure Alone (i : ℕ) (s : Events) : Prop where
  numbered : Numbered s (if i = 0 then [] else [2 * (i : ℤ)])
  core : ∀ b, core s b ≠ none → i ≠ 0 ∧ b = place (i + 1)

theorem alone_init : Alone 0 Events.init := ⟨numbered_init, fun _ hb => absurd rfl hb⟩

theorem ordered_alone (i : ℕ) : Ordered i (if i = 0 then [] else [2 * (i : ℤ)]) := by
  split_ifs with hi
  · rw [hi]
    exact ordered_nil
  · refine ⟨List.pairwise_singleton _ _, fun n hn => ?_, by simp [hi]⟩
    rw [List.mem_singleton.mp hn]
    exact ⟨by omega, even_two_mul _⟩

theorem place_ne (i : ℕ) : place i ≠ place (i + 1) := by
  show (8 + 8 * (i % 2) : ℕ) ≠ 8 + 8 * ((i + 1) % 2)
  omega

theorem place_back (i : ℕ) : place (i + 1 + 1) = place i := by
  show (8 + 8 * ((i + 1 + 1) % 2) : ℕ) = 8 + 8 * (i % 2)
  omega

theorem Alone.free {i : ℕ} (h : Alone i s) : place i ∉ s.mem := by
  intro hmem
  obtain ⟨e, he⟩ := Option.isSome_iff_exists.mp (AList.lookup_isSome.mpr hmem)
  obtain ⟨-, hplace⟩ := h.core (place i) (by simp [core_of_lookup he])
  exact place_ne i hplace

/-- **One round.** -/
theorem alone_round {i : ℕ} (h : Alone i s) (hi : i + 1 < 2 ^ 30) :
    ∃ y s', step (.ok s) (newEvent i) = some y ∧ Orderly y (.sysClose (2 * i)) ∧
      step y (.sysClose (2 * i)) = some (.ok s') ∧ Alone (i + 1) s' := by
  obtain ⟨number, s₁, he, hns, hnumber, hnew, hold⟩ :=
    numbered_open (v := 0) h.numbered ⟨0, 0, [], none⟩ h.free
  rw [(ordered_alone i).next] at hnumber
  have hnext : number = 2 * (i + 1 : ℤ) := by
    rw [hnumber]
    split_ifs with h0
    · rw [h0]
      rfl
    · exact wrap32_of_lt (by omega) (by omega)
  subst hnext
  have hfirst : step (.ok s) (newEvent i) = some (.ok s₁) := by
    simp [step, newEvent, Call.Possible, h.free, Call.exec, he, Except.map]
  have hok : ∀ r, Releases s₁ (2 * i) r → s₁.lpmyeventEnd ≠ some r := by
    refine hns.releases ?_
    rw [List.getLast?_concat]
    simp
  obtain ⟨result, hclose, hns', hgone⟩ := numbered_close hns hok
  refine ⟨.ok s₁, result.2.2, hfirst, fun s' r hs' => ?_, ?_, ?_, fun b hb => ?_⟩
  · obtain rfl := Except.ok.inj hs'
    exact hok r
  · simp [step, Call.Possible, Call.exec, hclose, Except.map]
  · rw [if_neg (Nat.succ_ne_zero i)]
    convert hns' using 1
    split_ifs with h0
    · simp [h0]
    · simp
  · refine ⟨Nat.succ_ne_zero i, ?_⟩
    rw [place_back]
    by_contra hne
    rcases hgone with ⟨hn, hsame⟩ | ⟨r, hr, hnone, hrest⟩
    · rw [hsame, hold b hne] at hb
      refine hn ?_
      rw [if_neg (h.core b hb).1]
      simp
    · have hbr : b ≠ r := by
        rintro rfl
        exact hb hnone
      have hri : r ≠ place i := by
        rintro rfl
        rw [num_eq_core, hnew] at hr
        simp at hr
      have hcore : core s r ≠ none := by
        rw [num_eq_core, hold r hri] at hr
        intro hnone
        rw [hnone] at hr
        cases hr
      rw [hrest b hbr, hold b hne] at hb
      exact hbr ((h.core b hb).2.trans (h.core r hcore).2.symm)

theorem rounds_run {i m : ℕ} (h : Alone i s) (hm : i + m < 2 ^ 30) :
    (∃ x, run step (.ok s) (rounds i m) = some x) ∧ Meets step Orderly (.ok s) (rounds i m) := by
  induction m generalizing i s with
  | zero =>
    obtain ⟨number, s₁, he, -⟩ :=
      numbered_open (v := 0) h.numbered ⟨0, 0, [], none⟩ h.free
    have hstep : step (.ok s) (newEvent i) = some (.ok s₁) := by
      simp [step, newEvent, Call.Possible, h.free, Call.exec, he, Except.map]
    constructor
    · exact ⟨_, by rw [rounds, run_cons, hstep]; rfl⟩
    · exact meets_cons.mpr fun _ _ => ⟨⟨rfl, by simp⟩, meets_nil⟩
  | succ m ih =>
    obtain ⟨y, s', hopen, horderly, hclose, halone⟩ := alone_round h (by omega)
    obtain ⟨⟨x, hrun⟩, hrest⟩ := ih halone (by omega)
    constructor
    · refine ⟨x, ?_⟩
      rw [rounds, run_cons, hopen, Option.bind_some, run_cons, hclose, Option.bind_some, hrun]
    · refine meets_cons.mpr fun y' hy => ⟨⟨rfl, by simp⟩, meets_cons.mpr fun z hz => ?_⟩
      obtain rfl := Option.some.inj (hopen.symm.trans hy)
      obtain rfl := Option.some.inj (hclose.symm.trans hz)
      exact ⟨horderly, hrest⟩

theorem countP_rounds (i m : ℕ) : (rounds i m).countP opens = m + 1 := by
  induction m generalizing i with
  | zero => rfl
  | succ m ih =>
    rw [rounds, List.countP_cons_of_pos (show opens (newEvent i) = true from rfl),
      List.countP_cons_of_neg (by simp [opens]), ih]

/-- Of the numbers that this run returns the last one is -2147483648. -/
theorem numbers_wrap : (∃ x, run step (.ok Events.init) (rounds 0 (2 ^ 30 - 1)) = some x) ∧
    Meets step Orderly (.ok Events.init) (rounds 0 (2 ^ 30 - 1)) ∧
    ¬ (Meets step Fresh (.ok Events.init) (rounds 0 (2 ^ 30 - 1)) ∧
      Always step Increasing (.ok Events.init) (rounds 0 (2 ^ 30 - 1))) := by
  have hlt : 0 + (2 ^ 30 - 1) < 2 ^ 30 := by norm_num
  obtain ⟨⟨x, hrun⟩, horderly⟩ := rounds_run alone_init hlt
  refine ⟨⟨x, hrun⟩, horderly, ?_⟩
  have h : After 0 (.ok Events.init) := ⟨_, _, rfl, numbered_init, ordered_nil⟩
  rw [numbers_after h (by norm_num) hrun horderly, countP_rounds]
  norm_num

end LinuxHomework.Event.Numbers
