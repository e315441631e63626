import LinuxHomework.Pipe.Mutex
import LinuxHomework.Pipe.Queue

/-! # A call that fails leaves no trace

`scull_p_open`, `scull_p_read` and `scull_p_write` fail before they have the semaphore, between two
rounds of sleep, when there is no memory, and in the copy. Until its critical section has succeeded
a call is `trying`; from then on it is committed to a value that is not an error. So a call that
returns an error has been trying all the time, and the steps of such a call change nothing but its
own task and its own place on the queues.

A wake-up sets running all the tasks that wait on its queue, so that a call that was woken and then
fails has not taken the wake-up from anybody.

* `failed_call`: both, for every call that fails, whatever the other tasks do meanwhile. -/

namespace LinuxHomework.Pipe.Failure

open LinuxHomework.Lib.Runs LinuxHomework.Pipe.Device LinuxHomework.Pipe.System
open LinuxHomework.Pipe.Cells LinuxHomework.Pipe.Handles LinuxHomework.Pipe.Mutex
open LinuxHomework.Pipe.Delivery LinuxHomework.Pipe.Queue

/-! ### A call and its steps -/

/-- The action begins a call of `scull_p_open`, `scull_p_read` or `scull_p_write` by `t`. -/
def begins (t : Task) : Act → Bool
  | .callOpen u .. | .callRead u .. | .callWrite u .. => u = t
  | _ => false

/-- The action is a step of the call that `t` is in. -/
def own (t : Task) : Act → Bool
  | .go u _ => u = t
  | a => begins t a

/-- The actions lead on until `t` returns from its call, which it does with the last one. -/
def untilReturn (N : ℤ) (t : Task) : Sys → List Act → Option Sys
  | s, [] => if (s.task t).pc = .out then some s else none
  | s, a :: as =>
    if (s.task t).pc = .out then none else (step N s a).bind fun s' => untilReturn N t s' as

/-- **A whole call** of `t`: the first action begins it, the last one is its return, and other tasks
and Unix signals may come between. -/
def call (N : ℤ) (t : Task) (s : Sys) : List Act → Option Sys
  | [] => none
  | a :: as => if begins t a then (step N s a).bind fun s' => untilReturn N t s' as else none

/-- The errors. -/
def Failed (v : ℤ) : Prop := v = -ERESTARTSYS ∨ v = -EAGAIN ∨ v = -ENOMEM ∨ v = -EFAULT

/-! ### What a step leaves alone -/

/-- **The device and the other tasks are as before**: the pointers, the bytes between them and the
counters, and what the tasks other than `t` do and where they are queued. -/
structure NoTrace (t : Task) (s s' : Sys) : Prop where
  rp : s'.dev.rp = s.dev.rp
  wp : s'.dev.wp = s.dev.wp
  unread : unread s'.dev = unread s.dev
  buffer : s'.dev.buffer = s.dev.buffer
  nreaders : s'.dev.nreaders = s.dev.nreaders
  nwriters : s'.dev.nwriters = s.dev.nwriters
  others : ∀ u, u ≠ t → s'.task u = s.task u
  inq : ∀ u, u ≠ t → (u ∈ s'.inq ↔ u ∈ s.inq)
  outq : ∀ u, u ≠ t → (u ∈ s'.outq ↔ u ∈ s.outq)

/-- The tasks that the step wakes. -/
def woken (s : Sys) : Act → List Task
  | .go u _ =>
    match (s.task u).pc with
    | .readWake => s.outq
    | .writeWake => s.inq
    | _ => []
  | _ => []

/-- The step, if it is one of the call of `t`, leaves no trace. -/
def Harmless (N : ℤ) (t : Task) (s : Sys) (a : Act) : Prop :=
  own t a → ∀ s', step N s a = some s' → NoTrace t s s'

/-- The step, if it wakes `t`, leaves nobody asleep who waits with `t`. -/
def Shared (N : ℤ) (t : Task) (s : Sys) (a : Act) : Prop :=
  t ∈ woken s a → ∀ s', step N s a = some s' →
    ∀ u ∈ woken s a, (s'.task u).interruptible = false

variable {N : ℤ} {s s' : Sys} {t u : Task} {k : Kernel} {a : Act} {acts : List Act} {m : TaskState}

@[simp] theorem wake_nil : s.wake [] = s.task := by
  funext u
  simp [Sys.wake]

@[simp] theorem wake_retval (q : List Task) : (s.wake q u).retval = (s.task u).retval := by
  unfold Sys.wake
  split_ifs <;> rfl

/-! ### What a step does to the tasks -/

theorem woken_go : woken s (.go t k) =
    if (s.task t).pc = .readWake then s.outq
    else if (s.task t).pc = .writeWake then s.inq else [] := by
  unfold woken
  split_ifs with hread hwrite
  · simp [hread]
  · simp [hwrite]
  · split <;> simp_all

/-- **One task moves**, and the tasks that the step wakes are set running. -/
theorem go_task (h : go N s t k = some s') :
    ∃ m, s'.task = Function.update (s.wake (woken s (.go t k))) t m ∧
      (woken s (.go t k) ≠ [] → m.interruptible = false) := by
  rw [woken_go]
  cases hp : (s.task t).pc <;> simp only [go, hp] at h
  case readWake | writeWake =>
    obtain rfl := Option.some.inj h
    exact ⟨_, rfl, fun _ => rfl⟩
  all_goals
    simp only [reduceCtorEq, if_false, wake_nil, ne_eq, not_true_eq_false, false_implies, and_true]
  case out => cases h
  case openDown | readDown | writeDown =>
    rcases downInterruptible_some h with rfl | rfl <;> exact ⟨_, rfl⟩
  case relDown | pollDown =>
    obtain rfl := down_some h
    exact ⟨_, rfl⟩
  case openBody =>
    obtain rfl := Option.some.inj h
    simp only [openBody]
    split_ifs <;> exact ⟨_, rfl⟩
  case readBody =>
    obtain rfl := Option.some.inj h
    simp only [readBody]
    split_ifs <;> exact ⟨_, rfl⟩
  case writeBody =>
    obtain rfl := Option.some.inj h
    simp only [writeBody]
    split_ifs <;> exact ⟨_, rfl⟩
  case readUpEmpty | writeUpFull | writeFinish =>
    obtain rfl := Option.some.inj h
    split_ifs <;> exact ⟨_, rfl⟩
  case readSleep | writeSleep =>
    split_ifs at h
    obtain rfl := Option.some.inj h
    exact ⟨_, rfl⟩
  all_goals
    obtain rfl := Option.some.inj h
    exact ⟨_, rfl⟩

theorem step_task (h : step N s a = some s') :
    ∃ m, s'.task = Function.update (s.wake (woken s a)) (actor a) m ∧
      (woken s a ≠ [] → m.interruptible = false) := by
  cases a with
  | go t k => exact go_task h
  | unixSignal t =>
    obtain rfl := Option.some.inj h
    simp only [woken, wake_nil]
    exact ⟨_, rfl, fun hne => absurd rfl hne⟩
  | _ =>
    simp only [step] at h
    split_ifs at h
    obtain rfl := Option.some.inj h
    simp only [woken, wake_nil]
    exact ⟨_, rfl, fun hne => absurd rfl hne⟩

/-- The step of another task, or a Unix signal, leaves the place of `t` and its value. -/
theorem step_other (h : step N s a = some s') (hin : (s.task t).pc ≠ .out)
    (hown : own t a = false) :
    (s'.task t).pc = (s.task t).pc ∧ (s'.task t).retval = (s.task t).retval := by
  by_cases hact : actor a = t
  · cases a with
    | unixSignal v =>
      obtain rfl := Option.some.inj h
      obtain rfl : v = t := hact
      simp [Sys.set]
    | callRelease v w | callPoll v w =>
      obtain rfl : v = t := hact
      simp only [step, hin, false_and, if_false] at h
      cases h
    | _ =>
      obtain rfl := hact
      simp [own, begins, actor] at hown
  · obtain ⟨m, hm, -⟩ := step_task h
    rw [hm, Function.update_of_ne (Ne.symm hact)]
    exact ⟨wake_pc _, wake_retval _⟩

/-- **A wake-up is shared.** -/
theorem shared_step (N : ℤ) (t : Task) (s : Sys) (a : Act) : Shared N t s a := by
  intro _ s' h u hu
  obtain ⟨m, htask, hm⟩ := step_task h
  rw [htask]
  by_cases hact : u = actor a
  · rw [hact, Function.update_self]
    exact hm (List.ne_nil_of_mem hu)
  · rw [Function.update_of_ne hact]
    unfold Sys.wake
    split_ifs with hc
    · rfl
    · exact Bool.eq_false_iff.mpr fun hi => hc ⟨hu, hi⟩

/-! ### A call that is trying, and one that is committed -/

/-- The place of an `open`, a read or a write that has not succeeded yet. -/
def trying : Pc → Bool
  | .out | .openDown | .openBody | .openUpFail
  | .readDown | .readBody | .readUpEmpty | .readTest | .readPrepare | .readRecheck | .readSleep
  | .readFinish | .readFinishSignal | .readUpFault
  | .writeDown | .writeBody | .writeUpFull | .writePrepare | .writeRecheck | .writeSleep
  | .writeFinish | .writeUpFault => true
  | _ => false

/-- The critical section has succeeded, and the call will return what it has. -/
def Committed (k : TaskState) : Prop :=
  k.pc = .openUp ∨
    (k.pc = .readUp ∨ k.pc = .readWake ∨ k.pc = .writeUp ∨ k.pc = .writeWake) ∧ 0 ≤ k.retval

/-- A step after which the call is still trying. -/
structure Tries (t : Task) (s s' : Sys) : Prop where
  trying : trying (s'.task t).pc = true
  noTrace : NoTrace t s s'

/-- The task moves, and its own place on the queues may change. -/
theorem Tries.requeue (htask : s'.task = Function.update s.task t m) (hdev : s'.dev = s.dev)
    (hin : ∀ u, u ≠ t → (u ∈ s'.inq ↔ u ∈ s.inq)) (hout : ∀ u, u ≠ t → (u ∈ s'.outq ↔ u ∈ s.outq))
    (hm : Failure.trying m.pc = true) : Tries t s s' := by
  have hothers : ∀ u, u ≠ t → s'.task u = s.task u := by
    intro u hu
    rw [htask, Function.update_of_ne hu]
  constructor
  · rw [htask, Function.update_self]
    exact hm
  · constructor
    case others => exact hothers
    case inq => exact hin
    case outq => exact hout
    all_goals rw [hdev]

/-- The task moves, and nothing else happens. -/
theorem Tries.stay (htask : s'.task = Function.update s.task t m) (hdev : s'.dev = s.dev)
    (hin : s'.inq = s.inq) (hout : s'.outq = s.outq) (hm : Failure.trying m.pc = true) :
    Tries t s s' :=
  .requeue htask hdev (fun _ _ => by rw [hin]) (fun _ _ => by rw [hout]) hm

/-- What a step of a call that is trying leads to. -/
def Onward (t : Task) (s s' : Sys) : Prop := Committed (s'.task t) ∨ Tries t s s'

/-! ### The critical sections -/

/-- `kmalloc` fails. -/
theorem allocate_of_null {dev : ScullPipe} (h : (allocate N k dev).buffer = 0) :
    allocate N k dev = dev := by
  have hb := buffer_of_allocate h
  unfold allocate at h ⊢
  rw [if_pos hb] at h ⊢
  have hk : k.kmalloc = 0 := h
  rw [if_pos hk, if_pos hk, hk, ← hb]

theorem onward_openBody : Onward t s (openBody N s t k) := by
  simp only [openBody]
  split_ifs with hb
  · exact Or.inr (.stay rfl (allocate_of_null hb) rfl rfl rfl)
  · exact Or.inl (Or.inl (by simp [Sys.goto, Sys.set]))

theorem onward_readBody : Onward t s (readBody s t k) := by
  simp only [readBody]
  split_ifs
  · exact Or.inr (.stay rfl rfl rfl rfl rfl)
  · exact Or.inr (.stay rfl rfl rfl rfl rfl)
  · refine Or.inl (Or.inr ?_)
    simp [Sys.set]

theorem onward_writeBody (hs : Inv N s) (hp : (s.task t).pc = .writeBody) :
    Onward t s (writeBody s t k) := by
  have hb := hs.books.buffer_of_writing (t := t) (by rw [hp]; rfl)
  have hv := hs.valid hb
  obtain ⟨hused, hend⟩ := hv.writeCount_le (s.task t).count
  simp only [writeBody]
  split_ifs
  · exact Or.inr (.stay rfl rfl rfl rfl rfl)
  · -- the bytes that were copied before the fault are not queued
    refine Or.inr ⟨by simp [Sys.goto, Sys.set, Failure.trying], ?_⟩
    refine ⟨rfl, rfl, hv.unread_copyIn hused hend k (s.task t).buf, rfl, rfl, rfl, ?_,
      fun _ _ => Iff.rfl, fun _ _ => Iff.rfl⟩
    exact fun u hu => Function.update_of_ne hu _ _
  · refine Or.inl (Or.inr ?_)
    simp [Sys.set]

/-- **A step of a call that is trying** commits it, or leaves no trace. -/
theorem go_trying (hs : Inv N s) (htry : trying (s.task t).pc = true)
    (h : go N s t k = some s') : Onward t s s' := by
  cases hp : (s.task t).pc <;> simp only [go, hp] at h
  case out => cases h
  case openDown | readDown | writeDown =>
    rcases downInterruptible_some h with rfl | rfl
    · exact Or.inr (.stay rfl rfl rfl rfl rfl)
    · exact Or.inr (.stay rfl rfl rfl rfl rfl)
  case openBody =>
    obtain rfl := Option.some.inj h
    exact onward_openBody
  case readBody =>
    obtain rfl := Option.some.inj h
    exact onward_readBody
  case writeBody =>
    obtain rfl := Option.some.inj h
    exact onward_writeBody hs hp
  case readUpEmpty | writeUpFull =>
    obtain rfl := Option.some.inj h
    split_ifs
    · exact Or.inr (.stay rfl rfl rfl rfl rfl)
    · exact Or.inr (.stay rfl rfl rfl rfl rfl)
  case readTest | readRecheck | writeRecheck =>
    obtain rfl := Option.some.inj h
    exact Or.inr (.stay rfl rfl rfl rfl (by split_ifs <;> rfl))
  case readSleep | writeSleep =>
    split_ifs at h
    obtain rfl := Option.some.inj h
    exact Or.inr (.stay rfl rfl rfl rfl rfl)
  case openUpFail | readUpFault | writeUpFault =>
    obtain rfl := Option.some.inj h
    exact Or.inr (.stay rfl rfl rfl rfl rfl)
  case readPrepare =>
    obtain rfl := Option.some.inj h
    exact Or.inr (.requeue rfl rfl mem_enqueue_iff (fun _ _ => Iff.rfl) rfl)
  case writePrepare =>
    obtain rfl := Option.some.inj h
    exact Or.inr (.requeue rfl rfl (fun _ _ => Iff.rfl) mem_enqueue_iff rfl)
  case readFinish | readFinishSignal =>
    obtain rfl := Option.some.inj h
    exact Or.inr (.requeue rfl rfl mem_erase_iff (fun _ _ => Iff.rfl) rfl)
  case writeFinish =>
    obtain rfl := Option.some.inj h
    split_ifs
    · exact Or.inr (.requeue rfl rfl (fun _ _ => Iff.rfl) mem_erase_iff rfl)
    · exact Or.inr (.requeue rfl rfl (fun _ _ => Iff.rfl) mem_erase_iff rfl)
  all_goals
    rw [hp] at htry
    cases htry

/-- A call that is committed goes on to return what it has. -/
theorem go_committed (hc : Committed (s.task t)) (h : go N s t k = some s') :
    Committed (s'.task t) ∨ (s'.task t).pc = .out ∧ 0 ≤ (s'.task t).retval := by
  rcases hc with hp | ⟨hp | hp | hp | hp, hval⟩ <;> simp only [go, hp] at h <;>
    obtain rfl := Option.some.inj h
  · right
    simp [Sys.ret, Sys.set, Sys.up]
  · left
    simpa [Committed, Sys.goto, Sys.set, Sys.up] using hval
  · right
    simpa [Sys.leave, Sys.ret, Sys.set] using hval
  · left
    simpa [Committed, Sys.goto, Sys.set, Sys.up] using hval
  · right
    simpa [Sys.leave, Sys.ret, Sys.set] using hval

/-! ### Whole calls -/

theorem untilReturn_nil (h : untilReturn N t s [] = some s') :
    (s.task t).pc = .out ∧ s' = s := by
  unfold untilReturn at h
  split_ifs at h with hout
  exact ⟨hout, (Option.some.inj h).symm⟩

theorem untilReturn_cons (h : untilReturn N t s (a :: acts) = some s') :
    (s.task t).pc ≠ .out ∧ ∃ r, step N s a = some r ∧ untilReturn N t r acts = some s' := by
  rw [untilReturn] at h
  split_ifs at h with hout
  exact ⟨hout, Option.bind_eq_some_iff.mp h⟩

/-- The call that a task is in has no other beginning. -/
theorem own_eq (hin : (s.task t).pc ≠ .out) (h : step N s a = some s') (hown : own t a = true) :
    ∃ k, a = .go t k := by
  cases a with
  | go u k =>
    obtain rfl : u = t := by simpa [own] using hown
    exact ⟨k, rfl⟩
  | callRelease | callPoll | unixSignal => simp [own, begins] at hown
  | _ =>
    obtain rfl : _ = t := by simpa [own, begins] using hown
    simp [step, hin] at h

/-- **A call that is committed does not fail.** -/
theorem retval_of_committed (hc : Committed (s.task t)) (h : untilReturn N t s acts = some s') :
    0 ≤ (s'.task t).retval := by
  induction acts generalizing s with
  | nil =>
    obtain ⟨hout, -⟩ := untilReturn_nil h
    rcases hc with hp | ⟨hp | hp | hp | hp, -⟩ <;> rw [hout] at hp <;> cases hp
  | cons a acts ih =>
    obtain ⟨hin, r, hr, hrest⟩ := untilReturn_cons h
    by_cases hown : own t a = true
    · obtain ⟨k, rfl⟩ := own_eq hin hr hown
      rcases go_committed hc hr with hc' | ⟨hout, hval⟩
      · exact ih hc' hrest
      · cases acts with
        | nil =>
          obtain ⟨-, rfl⟩ := untilReturn_nil hrest
          exact hval
        | cons b acts => exact absurd hout (untilReturn_cons hrest).1
    · obtain ⟨hpc, hval⟩ := step_other hr hin (Bool.eq_false_iff.mpr hown)
      refine ih ?_ hrest
      unfold Committed
      rw [hpc, hval]
      exact hc

theorem not_failed {v : ℤ} (h : 0 ≤ v) : ¬ Failed v := by
  rintro (h' | h' | h' | h') <;> rw [h'] at h <;> revert h <;> decide

/-- **The run of a call that fails**: as long as it lasts the call is trying. -/
theorem harmless_rest (hN : 1 ≤ N) (hs : Inv N s) (htry : trying (s.task t).pc = true)
    (h : untilReturn N t s acts = some s') (hfail : Failed (s'.task t).retval) :
    Meets (step N) (Harmless N t) s acts := by
  induction acts generalizing s with
  | nil => exact meets_nil
  | cons a acts ih =>
    obtain ⟨hin, r, hr, hrest⟩ := untilReturn_cons h
    have hsr : Inv N r := inv_step hN hs hr
    refine meets_cons.mpr fun r' hr' => ?_
    obtain rfl := Option.some.inj (hr.symm.trans hr')
    by_cases hown : own t a = true
    · obtain ⟨k, rfl⟩ := own_eq hin hr hown
      rcases go_trying hs htry hr with hc | ⟨htry', htrace⟩
      · exact absurd hfail (not_failed (retval_of_committed hc hrest))
      · refine ⟨fun _ q hq => ?_, ih hsr htry' hrest⟩
        obtain rfl := Option.some.inj (hr.symm.trans hq)
        exact htrace
    · refine ⟨fun hown' => absurd hown' hown, ih hsr ?_ hrest⟩
      rw [(step_other hr hin (Bool.eq_false_iff.mpr hown)).1]
      exact htry

/-- The beginning of a call. -/
theorem step_begins (h : step N s a = some s') (hb : begins t a = true) : Tries t s s' := by
  cases a with
  | callOpen | callRead | callWrite =>
    obtain rfl : _ = t := by simpa [begins] using hb
    simp only [step] at h
    split_ifs at h
    obtain rfl := Option.some.inj h
    exact .stay rfl rfl rfl rfl rfl
  | _ => cases hb

/-- **A failing call has no effect**: in every state that can be reached, and whatever the other
tasks do meanwhile, the steps of a call that returns an error leave no trace, and whenever the call
was woken, all the tasks on the queue were. -/
theorem failed_call (hN : 1 ≤ N) {mem : ℤ → UInt8} (hs : Reaches (step N) (start mem) s)
    (hcall : call N t s acts = some s') (hfail : Failed (s'.task t).retval) :
    Meets (step N) (Harmless N t) s acts ∧ Meets (step N) (Shared N t) s acts := by
  refine ⟨?_, fun pre a _ r _ _ => shared_step N t r a⟩
  obtain ⟨before, hbefore⟩ := hs
  have hinv : Inv N s := inv_of_run hN hbefore
  cases acts with
  | nil => cases hcall
  | cons a acts =>
    rw [call] at hcall
    split_ifs at hcall with hb
    obtain ⟨r, hr, hrest⟩ := Option.bind_eq_some_iff.mp hcall
    have htries := step_begins hr hb
    refine meets_cons.mpr fun r' hr' => ?_
    obtain rfl := Option.some.inj (hr.symm.trans hr')
    refine ⟨fun _ q hq => ?_, harmless_rest hN (inv_step hN hinv hr) htries.trying hrest hfail⟩
    obtain rfl := Option.some.inj (hr.symm.trans hq)
    exact htries.noTrace

/-- Task 0 reads from the empty pipe and sleeps; task 1 writes a byte, which wakes it, and has the
semaphore again when the signal comes and task 0 asks for it. -/
def interruptedRead : List Act :=
  Act.callRead 0 0 1 :: List.replicate 6 (Act.go 0 buffer64) ++
    Act.callWrite 1 0 (fun _ => 65) 1 :: List.replicate 4 (Act.go 1 buffer64) ++
    [Act.callPoll 1 0, Act.go 1 buffer64, Act.unixSignal 0] ++ List.replicate 5 (Act.go 0 buffer64)

theorem isSome_opened : (run (step 4) (start fun _ => 0) (openFile 0 0)).isSome = true := by
  decide +kernel

/-- The pipe with one open file. -/
def opened : Sys := (run (step 4) (start fun _ => 0) (openFile 0 0)).get isSome_opened

theorem isSome_interruptedRead : (call 4 0 opened interruptedRead).isSome = true := by
  decide +kernel

theorem failed_call_interruptedRead :
    Meets (step 4) (Harmless 4 0) opened interruptedRead ∧
      Meets (step 4) (Shared 4 0) opened interruptedRead :=
  failed_call (by decide) ⟨openFile 0 0, (Option.some_get isSome_opened).symm⟩
    (Option.some_get isSome_interruptedRead).symm (Or.inl (by decide +kernel))

end LinuxHomework.Pipe.Failure
