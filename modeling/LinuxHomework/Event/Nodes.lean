import LinuxHomework.Lib.Chain
import LinuxHomework.Lib.CInt
import Mathlib.Data.List.AList
import Mathlib.Tactic

/-! # The event system calls of `6/kernel/modified/myevent.c`

The memory `mem` holds the event nodes that are allocated at the moment; an access through the null
pointer or to a node that is not (or no longer) allocated is a `Fault`, and so is a search that
never ends. `kmalloc` is the caller's choice: `none` if it fails, otherwise a free address and what
the memory there contained before.

The calls are `sysMyeventOpen`, `sysMyeventWait` with its second half `sysMyeventWaitBack` (what the
task does when `schedule()` returns), `sysMyeventSignal` and `sysMyeventClose`; all of them look
their event up with `scheventNum`. `scheventNum_spec` says what the search returns on a well-formed
list. -/

namespace LinuxHomework.Event.Nodes

open LinuxHomework.Lib.Chain LinuxHomework.Lib.CInt

/-- The address of a node; the null pointer is `none : Option Addr`. -/
abbrev Addr := ℕ

/-- A task, named by its pid. -/
abbrev Task := ℕ

/-- What an access to memory can do wrong. -/
inductive Fault
  | null
  | freed
  | hang
deriving DecidableEq, Repr

/-- `myevent_t`. The wait queue `p` lists the exclusive waiters, the one to be woken first in
front. -/
structure Myevent where
  eventNum : ℤ
  value : ℤ
  p : List Task
  next : Option Addr
deriving DecidableEq, Repr

/-- The allocated nodes and the two global pointers. -/
structure Events where
  mem : AList fun _ : Addr => Myevent
  lpmyeventHead : Option Addr
  lpmyeventEnd : Option Addr

namespace Events

variable (s : Events)

/-- The module's initial state. -/
def init : Events := ⟨∅, none, none⟩

/-- Read the node at a pointer. -/
def deref : Option Addr → Except Fault Myevent
  | none => .error .null
  | some a =>
    match s.mem.lookup a with
    | none => .error .freed
    | some e => .ok e

/-- Write the node at `a`. -/
def store (a : Addr) (e : Myevent) : Events := { s with mem := s.mem.insert a e }

/-- Give the node at `a` back. -/
def kfree (a : Addr) : Events := { s with mem := s.mem.erase a }

/-- The link of the node at `a`, if there is one. -/
def nx (a : Addr) : Option (Option Addr) := (s.mem.lookup a).map Myevent.next

/-- The number of the node at `a`, if there is one. -/
def num (a : Addr) : Option ℤ := (s.mem.lookup a).map Myevent.eventNum

end Events

/-- The loop of `scheventNum` from the node `tmp`, `prev` being the node before it. A walk that
visits more nodes than are allocated has come back to one, and never ends. -/
def search (s : Events) (eventNum : ℤ) :
    ℕ → Option Addr → Option Addr → Except Fault (Option Addr × Option Addr)
  | _, none, prev => .ok (none, prev)
  | 0, some _, _ => .error .hang
  | fuel + 1, some tmp, prev => do
    let e ← s.deref (some tmp)
    if e.eventNum = eventNum then
      return (some tmp, prev)
    else
      search s eventNum fuel e.next (some tmp)

/-- `scheventNum`: the first node with that number, or null, and the node visited before. -/
def scheventNum (s : Events) (eventNum : ℤ) : Except Fault (Option Addr × Option Addr) :=
  search s eventNum s.mem.keys.length s.lpmyeventHead none

/-- `sys_myevent_open`: the number returned, and the new state. -/
def sysMyeventOpen (s : Events) (eventNum value : ℤ) (kmalloc : Option (Addr × Myevent)) :
    Except Fault (ℤ × Events) :=
  if eventNum ≠ 0 then do
    let (found, _) ← scheventNum s eventNum
    return (if found = none then 0 else eventNum, s)
  else
    match kmalloc with
    | none => .error .null  -- `init_waitqueue_head` writes through the unchecked pointer
    | some (a, raw) => do
      let s := s.store a { raw with p := [], next := none }
      if s.lpmyeventHead = none then
        return (2, { s.store a ⟨2, value, [], none⟩ with
          lpmyeventHead := some a, lpmyeventEnd := some a })
      else
        let last ← s.deref s.lpmyeventEnd
        let number := wrap32 (last.eventNum + 2)
        let s := s.store a ⟨number, value, [], none⟩
        let last ← s.deref s.lpmyeventEnd
        let s := s.store (s.lpmyeventEnd.getD a) { last with next := some a }
        return (number, { s with lpmyeventEnd := some a })

/-- `sys_myevent_wait` up to `schedule()`: `some r` if it returns `r` at once, and otherwise the
node on whose queue the task now sleeps. -/
def sysMyeventWait (s : Events) (current : Task) (eventNum : ℤ) :
    Except Fault ((ℤ ⊕ Addr) × Events) := do
  let (tmp, _) ← scheventNum s eventNum
  match tmp with
  | none => return (.inl 0, s)
  | some a =>
    let e ← s.deref (some a)
    if e.value > 0 then
      return (.inl eventNum, s.store a { e with value := wrap32 (e.value - 1) })
    else
      return (.inr a, s.store a { e with p := e.p ++ [current] })

/-- `sys_myevent_wait` from `finish_wait` on, for a task that slept on the node at `a`. -/
def sysMyeventWaitBack (s : Events) (current : Task) (a : Addr) (eventNum : ℤ) :
    Except Fault (ℤ × Events) := do
  let e ← s.deref (some a)  -- the wait queue and the value printed are fields of the node
  return (eventNum, s.store a { e with p := e.p.erase current })

/-- `sys_myevent_signal`: the number returned, the tasks woken, and the new state. -/
def sysMyeventSignal (s : Events) (eventNum : ℤ) : Except Fault (ℤ × List Task × Events) := do
  let (tmp, _) ← scheventNum s eventNum
  match tmp with
  | none => return (0, [], s)
  | some a =>
    let e ← s.deref (some a)
    match e.p with
    | [] => return (eventNum, [], s.store a { e with value := wrap32 (e.value + 1) })
    | t :: rest => return (eventNum, [t], s.store a { e with p := rest })

/-- The three ways in which `sys_myevent_close` takes the node at `r` out of the list. -/
def unlink (s : Events) (r : Addr) (prev : Option Addr) : Except Fault Events :=
  if some r = s.lpmyeventEnd then
    pure { s with lpmyeventEnd := prev }
  else if some r = s.lpmyeventHead then do
    let e ← s.deref s.lpmyeventHead
    pure { s with lpmyeventHead := e.next }
  else do
    let e ← s.deref (some r)
    let before ← s.deref prev
    pure (s.store (prev.getD r) { before with next := e.next })

/-- `sys_myevent_close`: the number returned, the tasks woken, and the new state. -/
def sysMyeventClose (s : Events) (eventNum : ℤ) : Except Fault (ℤ × List Task × Events) := do
  let (releaseItem, prev) ← scheventNum s eventNum
  match releaseItem with
  | none => return (0, [], s)
  | some r =>
    let s ←
      if some r = s.lpmyeventEnd then
        pure { s with lpmyeventEnd := prev }
      else if some r = s.lpmyeventHead then do
        let e ← s.deref s.lpmyeventHead
        pure { s with lpmyeventHead := e.next }
      else do
        let e ← s.deref (some r)
        let before ← s.deref prev
        pure (s.store (prev.getD r) { before with next := e.next })
    let e ← s.deref (some r)
    return (eventNum, e.p, s.kfree r)

/-! ### The memory -/

section Memory
variable {s : Events} {a b : Addr} {e : Myevent}

theorem deref_some (h : s.mem.lookup a = some e) : s.deref (some a) = .ok e := by
  simp [Events.deref, h]

@[simp] theorem lookup_store : (s.store a e).mem.lookup a = some e := AList.lookup_insert _

theorem lookup_store_ne (h : b ≠ a) : (s.store a e).mem.lookup b = s.mem.lookup b :=
  AList.lookup_insert_ne h

@[simp] theorem lookup_kfree : (s.kfree a).mem.lookup a = none := AList.lookup_erase a s.mem

theorem lookup_kfree_ne (h : b ≠ a) : (s.kfree a).mem.lookup b = s.mem.lookup b :=
  AList.lookup_erase_ne h

@[simp] theorem head_store : (s.store a e).lpmyeventHead = s.lpmyeventHead := rfl

@[simp] theorem end_store : (s.store a e).lpmyeventEnd = s.lpmyeventEnd := rfl

@[simp] theorem head_kfree : (s.kfree a).lpmyeventHead = s.lpmyeventHead := rfl

@[simp] theorem end_kfree : (s.kfree a).lpmyeventEnd = s.lpmyeventEnd := rfl

theorem nx_eq_some {q : Option Addr} :
    s.nx a = some q ↔ ∃ e, s.mem.lookup a = some e ∧ e.next = q := by
  simp [Events.nx]

theorem num_eq_some {n : ℤ} :
    s.num a = some n ↔ ∃ e, s.mem.lookup a = some e ∧ e.eventNum = n := by
  simp [Events.num]

theorem nx_store_ne (h : b ≠ a) : (s.store a e).nx b = s.nx b := by
  rw [Events.nx, lookup_store_ne h, Events.nx]

@[simp] theorem nx_store : (s.store a e).nx a = some e.next := by simp [Events.nx]

theorem nx_kfree_ne (h : b ≠ a) : (s.kfree a).nx b = s.nx b := by
  rw [Events.nx, lookup_kfree_ne h, Events.nx]

@[simp] theorem nx_kfree : (s.kfree a).nx a = none := by simp [Events.nx]

/-- Writing a node without changing its link changes no link. -/
theorem nx_store_same {e' : Myevent} (h : s.mem.lookup a = some e) (hn : e'.next = e.next) :
    (s.store a e').nx = s.nx := by
  funext b
  by_cases hb : b = a
  · rw [hb, nx_store, hn]
    exact (nx_eq_some.mpr ⟨e, h, rfl⟩).symm
  · exact nx_store_ne hb

theorem Linked.lookup {p : Option Addr} {l : List Addr} (h : Linked s.nx p l) (ha : a ∈ l) :
    ∃ e, s.mem.lookup a = some e := by
  obtain ⟨q, hq⟩ := h.allocated ha
  obtain ⟨e, he, -⟩ := nx_eq_some.mp hq
  exact ⟨e, he⟩

/-- A chain is no longer than the memory. -/
theorem Linked.length_le {p : Option Addr} {l : List Addr} (h : Linked s.nx p l) :
    l.length ≤ s.mem.keys.length := by
  refine (List.Nodup.subperm h.nodup fun a ha => ?_).length_le
  obtain ⟨e, he⟩ := Linked.lookup h ha
  exact AList.mem_keys.mp (AList.lookup_isSome.mp (by rw [he]; rfl))

end Memory

/-! ### The contents of a node -/

/-- The number, the value and the queue of the node at `a`. -/
def core (s : Events) (a : Addr) : Option (ℤ × ℤ × List Task) :=
  (s.mem.lookup a).map fun e => (e.eventNum, e.value, e.p)

section Core
variable {s : Events} {a b : Addr} {e : Myevent} {q : Option Addr}

theorem core_of_lookup (h : s.mem.lookup a = some e) : core s a = some (e.eventNum, e.value, e.p) := by
  rw [core, h]
  rfl

theorem core_eq_some {x : ℤ × ℤ × List Task} :
    core s a = some x ↔ ∃ e, s.mem.lookup a = some e ∧ (e.eventNum, e.value, e.p) = x := by
  simp [core]

theorem num_eq_core : s.num a = (core s a).map Prod.fst := by
  unfold Events.num core
  rw [Option.map_map]
  rfl

@[simp] theorem core_store : core (s.store a e) a = some (e.eventNum, e.value, e.p) :=
  core_of_lookup lookup_store

theorem core_store_ne (h : b ≠ a) : core (s.store a e) b = core s b := by
  rw [core, lookup_store_ne h, core]

@[simp] theorem core_kfree : core (s.kfree a) a = none := by simp [core]

theorem core_kfree_ne (h : b ≠ a) : core (s.kfree a) b = core s b := by
  rw [core, lookup_kfree_ne h, core]

/-- A link is not part of the contents. -/
theorem core_store_link (h : s.mem.lookup a = some e) :
    core (s.store a { e with next := q }) = core s := by
  funext b
  by_cases hb : b = a
  · rw [hb, core_store, core_of_lookup h]
  · exact core_store_ne hb

end Core

/-! ### The search -/

/-- What the search returns on the nodes `l`: the first node numbered `n`, or null, and the node
before it (the last one if there is none). -/
inductive Found (s : Events) (n : ℤ) (l : List Addr) : Option Addr × Option Addr → Prop
  | no (h : ∀ b ∈ l, s.num b ≠ some n) : Found s n l (none, l.getLast?)
  | yes {l₁ l₂ : List Addr} {a : Addr} (hl : l = l₁ ++ a :: l₂) (h : ∀ b ∈ l₁, s.num b ≠ some n)
      (ha : s.num a = some n) : Found s n l (some a, l₁.getLast?)

theorem search_spec {s : Events} {n : ℤ} : ∀ {l : List Addr} (done : List Addr) {fuel : ℕ}
    {p : Option Addr}, Linked s.nx p l → l.length ≤ fuel → (∀ b ∈ done, s.num b ≠ some n) →
      ∃ r, search s n fuel p done.getLast? = .ok r ∧ Found s n (done ++ l) r
  | [], done, fuel, p, h, _, hd => by
    rw [linked_nil] at h
    subst h
    exact ⟨(none, done.getLast?), by simp [search], by simpa using Found.no hd⟩
  | a :: l, done, 0, p, _, hf, _ => by simp at hf
  | a :: l, done, fuel + 1, p, h, hf, hd => by
    obtain ⟨rfl, q, hq, h⟩ := linked_cons.mp h
    obtain ⟨e, he, rfl⟩ := nx_eq_some.mp hq
    rw [search, deref_some he]
    by_cases hn : e.eventNum = n
    · refine ⟨(some a, done.getLast?), ?_, Found.yes rfl hd (num_eq_some.mpr ⟨e, he, hn⟩)⟩
      simp [bind, Except.bind, hn, pure, Except.pure]
    · have hd' : ∀ b ∈ done ++ [a], s.num b ≠ some n := by
        intro b hb
        rcases List.mem_append.mp hb with hb | hb
        · exact hd b hb
        · rw [List.mem_singleton.mp hb]
          intro h'
          obtain ⟨e', he', hn'⟩ := num_eq_some.mp h'
          rw [he] at he'
          exact hn (Option.some.inj he' ▸ hn')
      obtain ⟨r, hr, hfound⟩ := search_spec (done ++ [a]) h (by simpa using hf) hd'
      refine ⟨r, ?_, by simpa using hfound⟩
      simpa [bind, Except.bind, hn] using hr

/-- **The search** ends on every well-formed list, and returns the first node with the number. -/
theorem scheventNum_spec {s : Events} {l : List Addr} (h : Linked s.nx s.lpmyeventHead l) (n : ℤ) :
    ∃ r, scheventNum s n = .ok r ∧ Found s n l r :=
  search_spec [] h (Linked.length_le h) (by simp)

/-! ### The calls, case by case -/

section Cases
variable {s : Events} {n v : ℤ} {a r : Addr} {prev : Option Addr} {e : Myevent} {t : Task}

theorem open_found_eq {found : Option Addr} (hn : n ≠ 0) (k : Option (Addr × Myevent))
    (hs : scheventNum s n = .ok (found, prev)) :
    sysMyeventOpen s n v k = .ok (if found = none then 0 else n, s) := by
  simp [sysMyeventOpen, hn, hs, bind, Except.bind, pure, Except.pure]

theorem open_first_eq {raw : Myevent} (hh : s.lpmyeventHead = none) :
    sysMyeventOpen s 0 v (some (a, raw)) =
      .ok (2, { s.store a ⟨2, v, [], none⟩ with
        lpmyeventHead := some a, lpmyeventEnd := some a }) := by
  simp [sysMyeventOpen, hh, Events.store, pure, Except.pure]

theorem open_append_eq {raw : Myevent} (hh : s.lpmyeventHead ≠ none) (he : s.lpmyeventEnd = some r)
    (hr : s.mem.lookup r = some e) (ha : r ≠ a) :
    sysMyeventOpen s 0 v (some (a, raw)) =
      .ok (wrap32 (e.eventNum + 2),
        { (s.store a ⟨wrap32 (e.eventNum + 2), v, [], none⟩).store r { e with next := some a } with
          lpmyeventEnd := some a }) := by
  have h₁ : ∀ e', (s.store a e').deref (some r) = .ok e := fun e' =>
    deref_some (by rw [lookup_store_ne ha, hr])
  have h₂ : ∀ e' e'', ((s.store a e').store a e'').deref (some r) = .ok e := fun e' e'' =>
    deref_some (by rw [lookup_store_ne ha, lookup_store_ne ha, hr])
  simp [sysMyeventOpen, hh, he, h₁, h₂, bind, Except.bind, pure, Except.pure]
  simp [Events.store]

theorem wait_none_eq (hs : scheventNum s n = .ok (none, prev)) :
    sysMyeventWait s t n = .ok (.inl 0, s) := by
  simp [sysMyeventWait, hs, bind, Except.bind, pure, Except.pure]

theorem wait_take_eq (hs : scheventNum s n = .ok (some a, prev)) (ha : s.mem.lookup a = some e)
    (hv : 0 < e.value) :
    sysMyeventWait s t n = .ok (.inl n, s.store a { e with value := wrap32 (e.value - 1) }) := by
  simp [sysMyeventWait, hs, deref_some ha, hv, bind, Except.bind, pure, Except.pure]

theorem wait_sleep_eq (hs : scheventNum s n = .ok (some a, prev)) (ha : s.mem.lookup a = some e)
    (hv : ¬ 0 < e.value) :
    sysMyeventWait s t n = .ok (.inr a, s.store a { e with p := e.p ++ [t] }) := by
  simp [sysMyeventWait, hs, deref_some ha, hv, bind, Except.bind, pure, Except.pure]

theorem signal_none_eq (hs : scheventNum s n = .ok (none, prev)) :
    sysMyeventSignal s n = .ok (0, [], s) := by
  simp [sysMyeventSignal, hs, bind, Except.bind, pure, Except.pure]

theorem signal_add_eq (hs : scheventNum s n = .ok (some a, prev)) (ha : s.mem.lookup a = some e)
    (hp : e.p = []) :
    sysMyeventSignal s n = .ok (n, [], s.store a { e with value := wrap32 (e.value + 1) }) := by
  simp only [sysMyeventSignal, hs, bind, Except.bind, deref_some ha]
  rw [hp]
  rfl

theorem signal_wake_eq {rest : List Task} (hs : scheventNum s n = .ok (some a, prev))
    (ha : s.mem.lookup a = some e) (hp : e.p = t :: rest) :
    sysMyeventSignal s n = .ok (n, [t], s.store a { e with p := rest }) := by
  simp only [sysMyeventSignal, hs, bind, Except.bind, deref_some ha]
  rw [hp]
  rfl

theorem unlink_end_eq (he : s.lpmyeventEnd = some r) :
    unlink s r prev = .ok { s with lpmyeventEnd := prev } := by
  simp [unlink, he, pure, Except.pure]

theorem unlink_head_eq (hr : s.mem.lookup r = some e) (he : s.lpmyeventEnd ≠ some r)
    (hh : s.lpmyeventHead = some r) : unlink s r prev = .ok { s with lpmyeventHead := e.next } := by
  simp [unlink, he.symm, hh, deref_some hr, bind, Except.bind, pure, Except.pure]

theorem unlink_inner_eq {eb : Myevent} (hr : s.mem.lookup r = some e)
    (ha : s.mem.lookup a = some eb) (he : s.lpmyeventEnd ≠ some r) (hh : s.lpmyeventHead ≠ some r) :
    unlink s r (some a) = .ok (s.store a { eb with next := e.next }) := by
  simp [unlink, he.symm, hh.symm, deref_some hr, deref_some ha, bind, Except.bind, pure, Except.pure]

theorem close_none_eq (hs : scheventNum s n = .ok (none, prev)) :
    sysMyeventClose s n = .ok (0, [], s) := by
  simp [sysMyeventClose, hs, bind, Except.bind, pure, Except.pure]

/-- `sys_myevent_close` takes the node out, wakes its waiters and frees it. -/
theorem close_some_eq {s₁ : Events} (hs : scheventNum s n = .ok (some r, prev))
    (hu : unlink s r prev = .ok s₁) (hr : s₁.mem.lookup r = some e) :
    sysMyeventClose s n = .ok (n, e.p, s₁.kfree r) := by
  have hclose : sysMyeventClose s n = (unlink s r prev).bind fun s =>
      (s.deref (some r)).bind fun e => .ok (n, e.p, s.kfree r) := by
    unfold sysMyeventClose unlink
    rw [hs]
    simp only [bind, Except.bind, pure, Except.pure]
    split_ifs
    · rfl
    · cases s.deref s.lpmyeventHead <;> rfl
    · cases s.deref (some r) with
      | error f => rfl
      | ok e => cases s.deref prev <;> rfl
  rw [hclose, hu]
  simp [deref_some hr, Except.bind]

theorem close_end_eq (hs : scheventNum s n = .ok (some r, prev)) (hr : s.mem.lookup r = some e)
    (he : s.lpmyeventEnd = some r) :
    sysMyeventClose s n = .ok (n, e.p, { s with lpmyeventEnd := prev }.kfree r) :=
  close_some_eq hs (unlink_end_eq he) hr

end Cases

end LinuxHomework.Event.Nodes
