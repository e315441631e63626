import LinuxHomework.Event.Nodes

/-! # The original event calls of `6/kernel/myevent.c`

The original `myevent_t` has no `value`; the field stays as `kmalloc` handed it out, and no call
below reads it. Its search and the way a close takes a node out are those of the modified version
(`scheventNum`, `unlink`), the rest is different: a waiter is not exclusive and goes to the front of
the queue, a signal wakes all of them, and a close wakes through a signal. -/

namespace LinuxHomework.Event.Original

open LinuxHomework.Lib.CInt LinuxHomework.Event.Nodes

/-! ### The calls -/

/-- `sys_myevent_open`: the number returned, and the new state. -/
def sysMyeventOpen (s : Events) (eventNum : ℤ) (kmalloc : Option (Addr × Myevent)) :
    Except Fault (ℤ × Events) :=
  if eventNum ≠ 0 then do
    let (found, _) ← scheventNum s eventNum
    return (if found = none then 0 else eventNum, s)
  else
    match kmalloc with
    | none => .error .null  -- `init_waitqueue_head` writes through the unchecked pointer
    | some (a, raw) => do
      let s := s.store a { raw with p := [], next := none }
      if s.lpmyeventHead = none then
        return (2, { s.store a { raw with eventNum := 2, p := [], next := none } with
          lpmyeventHead := some a, lpmyeventEnd := some a })
      else
        let last ← s.deref s.lpmyeventEnd
        let number := wrap32 (last.eventNum + 2)
        let s := s.store a { raw with eventNum := number, p := [], next := none }
        let last ← s.deref s.lpmyeventEnd
        let s := s.store (s.lpmyeventEnd.getD a) { last with next := some a }
        return (number, { s with lpmyeventEnd := some a })

/-- `sys_myevent_wait` up to `schedule()`. `prepare_to_wait` puts the task in front, and not as an
exclusive waiter. -/
def sysMyeventWait (s : Events) (current : Task) (eventNum : ℤ) :
    Except Fault ((ℤ ⊕ Addr) × Events) := do
  let (tmp, _) ← scheventNum s eventNum
  match tmp with
  | none => return (.inl 0, s)
  | some a =>
    let e ← s.deref (some a)
    return (.inr a, s.store a { e with p := current :: e.p })

/-- `sys_myevent_wait` from `finish_wait` on, which leaves the queue of the node at `a` alone if the
task is not on it any more. -/
def sysMyeventWaitBack (s : Events) (current : Task) (a : Addr) (eventNum : ℤ) :
    Except Fault (ℤ × Events) :=
  return (eventNum, (s.mem.lookup a).elim s fun e => s.store a { e with p := e.p.erase current })

/-- `sys_myevent_signal`: the number returned, the tasks woken, and the new state. `wake_up` takes
every waiter that is not exclusive off the queue. -/
def sysMyeventSignal (s : Events) (eventNum : ℤ) : Except Fault (ℤ × List Task × Events) := do
  let (tmp, _) ← scheventNum s eventNum
  match tmp with
  | none => return (0, [], s)
  | some a =>
    let e ← s.deref (some a)
    return (eventNum, e.p, s.store a { e with p := [] })

/-- `sys_myevent_close`: the number returned, the tasks woken, and the new state. -/
def sysMyeventClose (s : Events) (eventNum : ℤ) : Except Fault (ℤ × List Task × Events) := do
  let (releaseItem, prev) ← scheventNum s eventNum
  match releaseItem with
  | none => return (0, [], s)
  | some r =>
    let s ← unlink s r prev
    let (_, woken, s) ← sysMyeventSignal s eventNum
    return (eventNum, woken, s.kfree r)

/-! ### The calls, case by case -/

section Cases
variable {s s₁ s₂ : Events} {n v : ℤ} {a r : Addr} {prev : Option Addr} {e : Myevent} {t : Task}

/-- The original open is the modified one, the value being what is in the memory anyway. -/
theorem open_eq (s : Events) (n : ℤ) (k : Option (Addr × Myevent)) :
    sysMyeventOpen s n k = Nodes.sysMyeventOpen s n (k.elim 0 fun x => x.2.value) k := by
  unfold sysMyeventOpen Nodes.sysMyeventOpen
  rcases k with _ | ⟨a, raw⟩ <;> rfl

theorem wait_none_eq (hs : scheventNum s n = .ok (none, prev)) :
    sysMyeventWait s t n = .ok (.inl 0, s) := by
  simp [sysMyeventWait, hs, bind, Except.bind, pure, Except.pure]

theorem wait_sleep_eq (hs : scheventNum s n = .ok (some a, prev)) (ha : s.mem.lookup a = some e) :
    sysMyeventWait s t n = .ok (.inr a, s.store a { e with p := t :: e.p }) := by
  simp [sysMyeventWait, hs, deref_some ha, bind, Except.bind, pure, Except.pure]

theorem signal_none_eq (hs : scheventNum s n = .ok (none, prev)) :
    sysMyeventSignal s n = .ok (0, [], s) := by
  simp [sysMyeventSignal, hs, bind, Except.bind, pure, Except.pure]

theorem signal_some_eq (hs : scheventNum s n = .ok (some a, prev)) (ha : s.mem.lookup a = some e) :
    sysMyeventSignal s n = .ok (n, e.p, s.store a { e with p := [] }) := by
  simp [sysMyeventSignal, hs, deref_some ha, bind, Except.bind, pure, Except.pure]

theorem back_eq (ha : s.mem.lookup a = some e) :
    sysMyeventWaitBack s t a n = .ok (n, s.store a { e with p := e.p.erase t }) := by
  simp [sysMyeventWaitBack, ha, pure, Except.pure]

/-- `sys_myevent_close` signals on the list from which the node has been taken out. -/
theorem close_some_eq {woken : List Task} {x : ℤ} (hs : scheventNum s n = .ok (some r, prev))
    (hu : unlink s r prev = .ok s₁) (hw : sysMyeventSignal s₁ n = .ok (x, woken, s₂)) :
    sysMyeventClose s n = .ok (n, woken, s₂.kfree r) := by
  simp [sysMyeventClose, hs, hu, hw, bind, Except.bind, pure, Except.pure]

end Cases

end LinuxHomework.Event.Original
