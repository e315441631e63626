import LinuxHomework.Lib.Counting
import LinuxHomework.Pipe.System

/-! # Files and calls

Whoever is inside a call on a file keeps the file open, and `nreaders` and `nwriters` count the open
files by their mode, so that a read or a write never runs without a buffer.

A task's `Kind` is what it does with the file of its call. The invariant `Books` relates the kinds,
the files and the counters; a step changes them for one task and one file at most, and
`Books.move` says when that keeps the invariant. -/

namespace LinuxHomework.Pipe.Handles

open LinuxHomework.Lib.Counting LinuxHomework.Pipe.Device LinuxHomework.Pipe.System

/-- What a task does with the file of its call. -/
inductive Kind
  | idle
  | opening
  | closing
  | reading
  | writing
  | polling
deriving DecidableEq

/-- The kind of a task at a place. After its critical section an `open` or a `release` is done with
the file. -/
def kind : Pc → Kind
  | .out | .openUp | .relUp => .idle
  | .openDown | .openBody | .openUpFail => .opening
  | .relDown | .relBody => .closing
  | .readDown | .readBody | .readUpEmpty | .readTest | .readPrepare | .readRecheck | .readSleep
  | .readFinish | .readFinishSignal | .readUpFault | .readUp | .readWake => .reading
  | .writeDown | .writeBody | .writeUpFull | .writePrepare | .writeRecheck | .writeSleep
  | .writeFinish | .writeUpFault | .writeUp | .writeWake => .writing
  | .pollDown | .pollBody | .pollUp => .polling

/-- The call is in progress on an open file. -/
abbrev Kind.inside (κ : Kind) : Prop := κ = .reading ∨ κ = .writing ∨ κ = .polling

/-- The file is on its way in or out by this call. -/
abbrev Kind.owns (κ : Kind) : Prop := κ = .opening ∨ κ = .closing

@[simp] theorem not_inside_idle : ¬ Kind.idle.inside := by decide

@[simp] theorem not_owns_idle : ¬ Kind.idle.owns := by decide

theorem Kind.inside.not_owns {κ : Kind} (h : κ.inside) : ¬ κ.owns := by
  rcases h with rfl | rfl | rfl <;> decide

/-- The state of the file of a call. -/
def Placed : Kind → File → Prop
  | .idle, _ => True
  | .opening, f => f.phase = .opening
  | .closing, f => f.phase = .closing
  | .reading, f => f.phase = .opened ∧ f.mode.read
  | .writing, f => f.phase = .opened ∧ f.mode.write
  | .polling, f => f.phase = .opened

/-- A file that `nreaders` and `nwriters` count, by its mode. -/
abbrev File.Counted (f : File) : Prop := f.phase = .opened ∨ f.phase = .closing

/-- A file that the counter of the mode `sel` counts. -/
abbrev Counts (sel : Mode → Bool) (f : File) : Prop := File.Counted f ∧ sel f.mode = true

theorem counts_of_not {sel : Mode → Bool} {f : File} (hf : ¬ File.Counted f) :
    (if Counts sel f then (1 : ℤ) else 0) = 0 := if_neg fun hc => hf hc.1

theorem counts_of {sel : Mode → Bool} {f : File} (hf : File.Counted f) :
    (if Counts sel f then (1 : ℤ) else 0) = if sel f.mode then 1 else 0 :=
  if_congr ⟨fun hc => hc.2, fun hc => ⟨hf, hc⟩⟩ rfl rfl

/-- A task with a call in progress on the open file `h`. -/
abbrev User (h : Handle) (p : Kind × Handle) : Prop := p.1.inside ∧ p.2 = h

/-- The kinds of the tasks and the files of their calls. -/
def places (task : Task → TaskState) : Task → Kind × Handle :=
  fun t => (kind (task t).pc, (task t).h)

/-- **The books are in order.** -/
structure Books (s : Sys) : Prop where
  users : ∀ h, Census (User h) (places s.task) (s.file h).users
  placed : ∀ t, Placed (kind (s.task t).pc) (s.file (s.task t).h)
  alone : ∀ t u, (kind (s.task t).pc).owns → (kind (s.task u).pc).owns →
    (s.task t).h = (s.task u).h → t = u
  readers : ∃ n : ℕ, s.dev.nreaders = n ∧ Census (Counts Mode.read) s.file n
  writers : ∃ n : ℕ, s.dev.nwriters = n ∧ Census (Counts Mode.write) s.file n
  buffer : 0 < s.dev.nreaders + s.dev.nwriters → s.dev.buffer ≠ 0

theorem books_start (mem : ℤ → UInt8) : Books (start mem) where
  users h := census_zero fun t => by simp [places, start, kind]
  placed t := trivial
  alone t u ht := absurd ht not_owns_idle
  readers := ⟨0, rfl, census_zero fun h => by simp [start]⟩
  writers := ⟨0, rfl, census_zero fun h => by simp [start]⟩
  buffer h := by simp [start, init] at h

variable {s s' : Sys} {t u : Task} {h : Handle} {κ : Kind} {f' : File} {N : ℤ} {k : Kernel}
  {a : Act}

/-! ### Who is inside has a buffer -/

theorem Books.buffer_of_reading (hs : Books s) (ht : kind (s.task t).pc = .reading) :
    s.dev.buffer ≠ 0 := by
  have hplaced := hs.placed t
  rw [ht] at hplaced
  obtain ⟨n, hn, hreaders⟩ := hs.readers
  obtain ⟨m, hm, -⟩ := hs.writers
  have hpos : 0 < n := hreaders.pos_iff.mpr ⟨_, Or.inl hplaced.1, hplaced.2⟩
  exact hs.buffer (by omega)

theorem Books.buffer_of_writing (hs : Books s) (ht : kind (s.task t).pc = .writing) :
    s.dev.buffer ≠ 0 := by
  have hplaced := hs.placed t
  rw [ht] at hplaced
  obtain ⟨n, hn, -⟩ := hs.readers
  obtain ⟨m, hm, hwriters⟩ := hs.writers
  have hpos : 0 < m := hwriters.pos_iff.mpr ⟨_, Or.inl hplaced.1, hplaced.2⟩
  exact hs.buffer (by omega)

/-! ### One task and one file change -/

/-- Nobody but `t` has a call on the file `h`. -/
def Vacant (s : Sys) (t : Task) (h : Handle) : Prop :=
  ∀ u, u ≠ t → (s.task u).h = h → kind (s.task u).pc = .idle

/-- The part of the books that is about the tasks, where `t` and the file `h` are changed. -/
theorem Books.users_move (hs : Books s) (hh : kind (s.task t).pc = .idle ∨ (s.task t).h = h)
    (hplaces : places s'.task = Function.update (places s.task) t (κ, h))
    (hfile : s'.file = Function.update s.file h f')
    (husers : f'.users + (if (kind (s.task t).pc).inside then 1 else 0) =
      (s.file h).users + if κ.inside then 1 else 0) (h' : Handle) :
    Census (User h') (places s'.task) (s'.file h').users := by
  rw [hplaces, hfile]
  by_cases hh' : h' = h
  · subst hh'
    obtain ⟨m, hm, hcount⟩ := (hs.users h').move t (κ, h')
    have hold : User h' (places s.task t) ↔ (kind (s.task t).pc).inside := by
      constructor
      · exact fun hc => hc.1
      · intro hc
        rcases hh with hidle | hh
        · exact absurd (hidle ▸ hc) not_inside_idle
        · exact ⟨hc, hh⟩
    have hnew : User h' (κ, h') ↔ κ.inside := and_iff_left rfl
    rw [if_congr hold rfl rfl, if_congr hnew rfl rfl] at hcount
    rw [Function.update_self]
    have hm' : m = f'.users := by omega
    exact hm' ▸ hm
  · rw [Function.update_of_ne hh']
    refine (hs.users h').stay (iff_of_false ?_ ?_)
    · rintro ⟨-, heq⟩
      exact hh' heq.symm
    · rintro ⟨hin, heq⟩
      rcases hh with hidle | hh
      · exact not_inside_idle (hidle ▸ hin)
      · exact hh' (heq.symm.trans hh)

/-- **One task and one file change**, and the counters with them. -/
theorem Books.move (hs : Books s) (hh : kind (s.task t).pc = .idle ∨ (s.task t).h = h)
    (hplaces : places s'.task = Function.update (places s.task) t (κ, h))
    (hfile : s'.file = Function.update s.file h f')
    (husers : f'.users + (if (kind (s.task t).pc).inside then 1 else 0) =
      (s.file h).users + if κ.inside then 1 else 0)
    (hplaced : Placed κ f')
    (hothers : ∀ u, u ≠ t → (s.task u).h = h → Placed (kind (s.task u).pc) f')
    (halone : κ.owns → ∀ u, u ≠ t → (s.task u).h = h → ¬ (kind (s.task u).pc).owns)
    (hreaders : s'.dev.nreaders + (if Counts Mode.read (s.file h) then 1 else 0) =
      s.dev.nreaders + if Counts Mode.read f' then 1 else 0)
    (hwriters : s'.dev.nwriters + (if Counts Mode.write (s.file h) then 1 else 0) =
      s.dev.nwriters + if Counts Mode.write f' then 1 else 0)
    (hbuffer : 0 < s'.dev.nreaders + s'.dev.nwriters → s'.dev.buffer ≠ 0) : Books s' := by
  have hplace : ∀ u, (kind (s'.task u).pc, (s'.task u).h) =
      if u = t then (κ, h) else (kind (s.task u).pc, (s.task u).h) := by
    intro u
    have hu := congrFun hplaces u
    rwa [Function.update_apply] at hu
  have hself : kind (s'.task t).pc = κ ∧ (s'.task t).h = h := by
    have ht := hplace t
    rw [if_pos rfl] at ht
    exact Prod.mk.injEq .. ▸ ht
  have hother : ∀ u, u ≠ t → kind (s'.task u).pc = kind (s.task u).pc ∧
      (s'.task u).h = (s.task u).h := by
    intro u hu
    have := hplace u
    rw [if_neg hu] at this
    exact Prod.mk.injEq .. ▸ this
  constructor
  · exact hs.users_move hh hplaces hfile husers
  · intro u
    by_cases hu : u = t
    · rw [hu, hself.1, hself.2, hfile, Function.update_self]
      exact hplaced
    · rw [(hother u hu).1, (hother u hu).2, hfile]
      by_cases hhu : (s.task u).h = h
      · rw [hhu, Function.update_self]
        exact hothers u hu hhu
      · rw [Function.update_of_ne hhu]
        exact hs.placed u
  · intro u v hu hv huv
    by_cases hut : u = t <;> by_cases hvt : v = t
    · rw [hut, hvt]
    · subst hut
      rw [hself.1] at hu
      rw [hself.2, (hother v hvt).2] at huv
      rw [(hother v hvt).1] at hv
      exact absurd hv (halone hu v hvt huv.symm)
    · subst hvt
      rw [hself.1] at hv
      rw [hself.2, (hother u hut).2] at huv
      rw [(hother u hut).1] at hu
      exact absurd hu (halone hv u hut huv)
    · rw [(hother u hut).1] at hu
      rw [(hother v hvt).1] at hv
      rw [(hother u hut).2, (hother v hvt).2] at huv
      exact hs.alone u v hu hv huv
  · obtain ⟨n, hn, hcensus⟩ := hs.readers
    obtain ⟨m, hm, hcount⟩ := hcensus.move h f'
    refine ⟨m, ?_, hfile ▸ hm⟩
    split_ifs at hreaders hcount <;> omega
  · obtain ⟨n, hn, hcensus⟩ := hs.writers
    obtain ⟨m, hm, hcount⟩ := hcensus.move h f'
    refine ⟨m, ?_, hfile ▸ hm⟩
    split_ifs at hwriters hcount <;> omega
  · exact hbuffer

/-- The books do not see a step that leaves the kinds, the files and the counters. -/
theorem Books.stay (hs : Books s) (hplaces : places s'.task = places s.task)
    (hfile : s'.file = s.file) (hreaders : s'.dev.nreaders = s.dev.nreaders)
    (hwriters : s'.dev.nwriters = s.dev.nwriters) (hbuffer : s'.dev.buffer = s.dev.buffer) :
    Books s' := by
  have hkind : ∀ u, kind (s'.task u).pc = kind (s.task u).pc ∧ (s'.task u).h = (s.task u).h :=
    fun u => Prod.mk.injEq .. ▸ congrFun hplaces u
  constructor
  · rw [hplaces, hfile]
    exact hs.users
  · intro u
    rw [(hkind u).1, (hkind u).2, hfile]
    exact hs.placed u
  · intro u v hu hv huv
    rw [(hkind u).1] at hu
    rw [(hkind v).1] at hv
    rw [(hkind u).2, (hkind v).2] at huv
    exact hs.alone u v hu hv huv
  · rw [hreaders, hfile]
    exact hs.readers
  · rw [hwriters, hfile]
    exact hs.writers
  · rw [hreaders, hwriters, hbuffer]
    exact hs.buffer

/-- Nobody else has a call on a file that is being opened or closed. -/
theorem Books.vacant_of_owns (hs : Books s) (ht : (kind (s.task t).pc).owns) :
    Vacant s t (s.task t).h := by
  intro u hu heq
  have hplaced := hs.placed t
  have huplaced := hs.placed u
  rw [heq] at huplaced
  have halone : ¬ (kind (s.task u).pc).owns := fun hc => hu (hs.alone u t hc ht heq)
  rcases ht with ht | ht <;> rw [ht] at hplaced <;>
    cases hk : kind (s.task u).pc <;> simp_all [Placed]

/-- Nobody has a call on a closed file. -/
theorem Books.vacant_of_closed (hs : Books s) (hh : (s.file h).phase = .closed) : Vacant s t h := by
  intro u _ heq
  have huplaced := hs.placed u
  rw [heq] at huplaced
  cases hk : kind (s.task u).pc <;> simp_all [Placed]

/-- Nobody has a call on an open file without users. -/
theorem Books.vacant_of_users (hs : Books s) (hh : (s.file h).phase = .opened)
    (husers : (s.file h).users = 0) : Vacant s t h := by
  intro u _ heq
  have huplaced := hs.placed u
  rw [heq] at huplaced
  have hout : ¬ (kind (s.task u).pc).inside := by
    intro hin
    have := (hs.users h).pos_iff.mpr ⟨u, hin, heq⟩
    omega
  cases hk : kind (s.task u).pc <;> simp_all [Placed]

/-! ### The steps outside of the critical sections -/

@[simp] theorem places_update (f : Task → TaskState) (t : Task) (m : TaskState) :
    places (Function.update f t m) = Function.update (places f) t (kind m.pc, m.h) := by
  funext u
  by_cases hu : u = t
  · simp [places, hu]
  · simp [places, hu]

/-- A task puts itself on a queue or takes itself off: the others stay. -/
theorem mem_erase_iff {q : List Task} (u : Task) (hu : u ≠ t) : u ∈ q.erase t ↔ u ∈ q :=
  List.mem_erase_of_ne hu

theorem mem_enqueue_iff {q : List Task} (u : Task) (hu : u ≠ t) : u ∈ Sys.enqueue t q ↔ u ∈ q := by
  unfold Sys.enqueue
  split_ifs
  · rfl
  · simp [hu]

@[simp] theorem wake_pc (q : List Task) : (s.wake q u).pc = (s.task u).pc := by
  unfold Sys.wake
  split_ifs <;> rfl

@[simp] theorem wake_h (q : List Task) : (s.wake q u).h = (s.task u).h := by
  unfold Sys.wake
  split_ifs <;> rfl

@[simp] theorem places_wake (q : List Task) : places (s.wake q) = places s.task := by
  funext u
  simp [places]

theorem update_places {f : Task → TaskState} (hκ : κ = kind (f t).pc) :
    Function.update (places f) t (κ, (f t).h) = places f := by
  rw [hκ]
  exact Function.update_eq_self t (places f)

/-- What a step outside of the critical sections does to the books: nothing, or it ends a call, or
an `open` that failed. -/
inductive Quiet (s : Sys) (t : Task) (s' : Sys) : Prop
  | stay (hplaces : places s'.task = places s.task) (hfile : s'.file = s.file)
  | leave (hin : (kind (s.task t).pc).inside)
      (hplaces : places s'.task = Function.update (places s.task) t (.idle, (s.task t).h))
      (hfile : s'.file = Function.update s.file (s.task t).h
        { s.fileOf t with users := (s.fileOf t).users - 1 })
  | refuse (hopening : kind (s.task t).pc = .opening)
      (hplaces : places s'.task = Function.update (places s.task) t (.idle, (s.task t).h))
      (hfile : s'.file = Function.update s.file (s.task t).h { s.fileOf t with phase := .closed })

/-- The device and the histories are as before. -/
structure Untouched (s s' : Sys) : Prop where
  dev : s'.dev = s.dev
  accepted : s'.accepted = s.accepted
  returned : s'.returned = s.returned

theorem Quiet.of_set {m : TaskState} (htask : s'.task = Function.update s.task t m)
    (hfile : s'.file = s.file) (hk : kind m.pc = kind (s.task t).pc) (hh : m.h = (s.task t).h) :
    Quiet s t s' := by
  refine .stay ?_ hfile
  rw [htask, places_update, hh]
  exact update_places hk

theorem Quiet.of_leave {v : ℤ} (hin : (kind (s.task t).pc).inside)
    (htask : s'.task = (s.leave t v).task) (hfile : s'.file = (s.leave t v).file) :
    Quiet s t s' := by
  refine .leave hin ?_ hfile
  rw [htask]
  simp [Sys.leave, Sys.setFile, Sys.ret, Sys.set, kind]

theorem Quiet.of_wake_leave {v : ℤ} {q : List Task} (hin : (kind (s.task t).pc).inside)
    (htask : s'.task = (Sys.leave { s with task := s.wake q } t v).task)
    (hfile : s'.file = (Sys.leave { s with task := s.wake q } t v).file) : Quiet s t s' := by
  refine .leave hin ?_ ?_
  · rw [htask]
    simp [Sys.leave, Sys.setFile, Sys.ret, Sys.set, kind]
  · rw [hfile]
    simp [Sys.leave, Sys.setFile, Sys.fileOf, Sys.ret, Sys.set]

theorem Quiet.of_refuse {v : ℤ} (hop : kind (s.task t).pc = .opening)
    (htask : s'.task = (s.refuse t v).task) (hfile : s'.file = (s.refuse t v).file) :
    Quiet s t s' := by
  refine .refuse hop ?_ hfile
  rw [htask]
  simp [Sys.refuse, Sys.setFile, Sys.ret, Sys.set, kind]

theorem down_some {next : Pc} (h : s.down t next = some s') :
    s' = { s.goto t next with sem := s.sem - 1 } := by
  unfold Sys.down at h
  split_ifs at h
  exact (Option.some.inj h).symm

theorem downInterruptible_some {next : Pc} {fail : Sys}
    (h : s.downInterruptible t next fail = some s') :
    s' = { s.goto t next with sem := s.sem - 1 } ∨ s' = fail := by
  unfold Sys.downInterruptible at h
  split_ifs at h
  · exact Or.inl (Option.some.inj h).symm
  · exact Or.inr (Option.some.inj h).symm

/-- The places whose step is a critical section. -/
def Critical (pc : Pc) : Prop :=
  pc = .openBody ∨ pc = .relBody ∨ pc = .readBody ∨ pc = .writeBody

theorem go_quiet (h : go N s t k = some s') (hpc : ¬ Critical (s.task t).pc) :
    Quiet s t s' ∧ Untouched s s' := by
  cases hp : (s.task t).pc <;> simp only [go, hp] at h
  case out => cases h
  case openBody | relBody | readBody | writeBody => simp [hp, Critical] at hpc
  case openDown =>
    rcases downInterruptible_some h with rfl | rfl
    · exact ⟨.of_set rfl rfl (by rw [hp]; rfl) rfl, rfl, rfl, rfl⟩
    · exact ⟨.of_refuse (by rw [hp]; rfl) rfl rfl, rfl, rfl, rfl⟩
  case readDown | writeDown =>
    rcases downInterruptible_some h with rfl | rfl
    · exact ⟨.of_set rfl rfl (by rw [hp]; rfl) rfl, rfl, rfl, rfl⟩
    · exact ⟨.of_leave (by rw [hp]; decide) rfl rfl, rfl, rfl, rfl⟩
  case relDown | pollDown =>
    obtain rfl := down_some h
    exact ⟨.of_set rfl rfl (by rw [hp]; rfl) rfl, rfl, rfl, rfl⟩
  case readUpEmpty | writeUpFull =>
    obtain rfl := Option.some.inj h
    split_ifs
    · exact ⟨.of_leave (by rw [hp]; decide) rfl rfl, rfl, rfl, rfl⟩
    · exact ⟨.of_set rfl rfl (by rw [hp]; rfl) rfl, rfl, rfl, rfl⟩
  case readTest | readRecheck | writeRecheck =>
    obtain rfl := Option.some.inj h
    exact ⟨.of_set rfl rfl (by rw [hp]; split_ifs <;> rfl) rfl, rfl, rfl, rfl⟩
  case readSleep | writeSleep =>
    split_ifs at h
    obtain rfl := Option.some.inj h
    exact ⟨.of_set rfl rfl (by rw [hp]; rfl) rfl, rfl, rfl, rfl⟩
  case writeFinish =>
    obtain rfl := Option.some.inj h
    split_ifs
    · exact ⟨.of_leave (by rw [hp]; decide) rfl rfl, rfl, rfl, rfl⟩
    · exact ⟨.of_set rfl rfl (by rw [hp]; rfl) rfl, rfl, rfl, rfl⟩
  case openUpFail =>
    obtain rfl := Option.some.inj h
    exact ⟨.of_refuse (by rw [hp]; rfl) rfl rfl, rfl, rfl, rfl⟩
  case readWake | writeWake =>
    obtain rfl := Option.some.inj h
    exact ⟨.of_wake_leave (by rw [hp]; decide) rfl rfl, rfl, rfl, rfl⟩
  case readFinishSignal | readUpFault | writeUpFault | pollUp =>
    obtain rfl := Option.some.inj h
    exact ⟨.of_leave (by rw [hp]; decide) rfl rfl, rfl, rfl, rfl⟩
  all_goals
    obtain rfl := Option.some.inj h
    exact ⟨.of_set rfl rfl (by rw [hp]; rfl) rfl, rfl, rfl, rfl⟩

theorem go_critical (h : go N s t k = some s') (hpc : Critical (s.task t).pc) :
    (s.task t).pc = .openBody ∧ s' = openBody N s t k ∨
    (s.task t).pc = .relBody ∧ s' = relBody s t ∨
    (s.task t).pc = .readBody ∧ s' = readBody s t k ∨
    (s.task t).pc = .writeBody ∧ s' = writeBody s t k := by
  rcases hpc with hp | hp | hp | hp <;> simp only [go, hp] at h <;>
    obtain rfl := Option.some.inj h <;> simp [hp]

/-- **What a step does to the device**: nothing, unless it is a critical section. -/
theorem step_cases (h : step N s a = some s') :
    Untouched s s' ∧ (∀ t k, a = .go t k → ¬ Critical (s.task t).pc) ∨
    ∃ t k, a = .go t k ∧ ((s.task t).pc = .openBody ∧ s' = openBody N s t k ∨
      (s.task t).pc = .relBody ∧ s' = relBody s t ∨
      (s.task t).pc = .readBody ∧ s' = readBody s t k ∨
      (s.task t).pc = .writeBody ∧ s' = writeBody s t k) := by
  cases a with
  | go t k =>
    by_cases hpc : Critical (s.task t).pc
    · exact Or.inr ⟨t, k, rfl, go_critical h hpc⟩
    · refine Or.inl ⟨(go_quiet h hpc).2, ?_⟩
      rintro u m ⟨⟩
      exact hpc
  | unixSignal t =>
    obtain rfl := Option.some.inj h
    exact Or.inl ⟨⟨rfl, rfl, rfl⟩, nofun⟩
  | _ =>
    simp only [step] at h
    split_ifs at h
    obtain rfl := Option.some.inj h
    exact Or.inl ⟨⟨rfl, rfl, rfl⟩, nofun⟩

/-! ### Every step keeps the books -/

theorem Vacant.placed (hv : Vacant s t h) (f' : File) :
    ∀ u, u ≠ t → (s.task u).h = h → Placed (kind (s.task u).pc) f' := by
  intro u hu heq
  rw [hv u hu heq]
  trivial

theorem Vacant.alone (hv : Vacant s t h) :
    ∀ u, u ≠ t → (s.task u).h = h → ¬ (kind (s.task u).pc).owns := by
  intro u hu heq
  rw [hv u hu heq]
  exact not_owns_idle

/-- A file in the same phase and mode is as good as before. -/
theorem Placed.congr {f : File} (hf : Placed κ f) (hphase : f'.phase = f.phase)
    (hmode : f'.mode = f.mode) : Placed κ f' := by
  cases κ <;> simp_all [Placed]

theorem Books.not_counted_of_opening (hs : Books s) (ht : kind (s.task t).pc = .opening) :
    ¬ File.Counted (s.file (s.task t).h) := by
  have hplaced := hs.placed t
  rw [ht] at hplaced
  have hphase : (s.file (s.task t).h).phase = .opening := hplaced
  simp [hphase]

theorem Books.counted_of_closing (hs : Books s) (ht : kind (s.task t).pc = .closing) :
    File.Counted (s.file (s.task t).h) := by
  have hplaced := hs.placed t
  rw [ht] at hplaced
  exact Or.inr hplaced

theorem books_quiet (hs : Books s) (hq : Quiet s t s') (hdev : s'.dev = s.dev) : Books s' := by
  rcases hq with ⟨hplaces, hfile⟩ | ⟨hin, hplaces, hfile⟩ | ⟨hop, hplaces, hfile⟩
  · exact hs.stay hplaces hfile (by rw [hdev]) (by rw [hdev]) (by rw [hdev])
  · have hpos : 0 < (s.fileOf t).users := (hs.users _).pos_iff.mpr ⟨t, hin, rfl⟩
    refine hs.move (Or.inr rfl) hplaces hfile ?_ trivial ?_ ?_ ?_ ?_ ?_
    · rw [if_pos hin, if_neg not_inside_idle]
      simp only [Sys.fileOf] at hpos ⊢
      omega
    · intro u hu heq
      refine Placed.congr (hs.placed u) ?_ ?_ <;> rw [heq] <;> rfl
    · exact fun howns => absurd howns not_owns_idle
    · rw [hdev]
      rfl
    · rw [hdev]
      rfl
    · rw [hdev]
      exact hs.buffer
  · have hclosed : ¬ File.Counted { s.fileOf t with phase := .closed } := by simp
    have hv := hs.vacant_of_owns (t := t) (Or.inl hop)
    refine hs.move (Or.inr rfl) hplaces hfile ?_ trivial (hv.placed _) (fun _ => hv.alone) ?_ ?_ ?_
    · rw [hop]
      rfl
    · rw [hdev, counts_of_not hclosed, counts_of_not (hs.not_counted_of_opening hop)]
    · rw [hdev, counts_of_not hclosed, counts_of_not (hs.not_counted_of_opening hop)]
    · rw [hdev]
      exact hs.buffer

theorem allocate_counters (dev : ScullPipe) : (allocate N k dev).nreaders = dev.nreaders ∧
    (allocate N k dev).nwriters = dev.nwriters := by
  unfold allocate
  split_ifs <;> exact ⟨rfl, rfl⟩

/-- If there is no buffer after `kmalloc`, there was none before. -/
theorem buffer_of_allocate {dev : ScullPipe} (h : (allocate N k dev).buffer = 0) :
    dev.buffer = 0 := by
  by_contra hb
  rw [allocate, if_neg hb] at h
  exact hb h

theorem books_openBody (hs : Books s) (hp : (s.task t).pc = .openBody) :
    Books (openBody N s t k) := by
  have hop : kind (s.task t).pc = .opening := by rw [hp]; rfl
  have hnot := hs.not_counted_of_opening hop
  have hv := hs.vacant_of_owns (t := t) (Or.inl hop)
  have hcount := allocate_counters (N := N) (k := k) s.dev
  simp only [openBody]
  split_ifs with hb
  · refine hs.stay ?_ rfl hcount.1 hcount.2 ?_
    · simp only [Sys.goto, Sys.set, places_update]
      exact update_places (by rw [hp]; rfl)
    · exact hb.trans (buffer_of_allocate hb).symm
  · have hopened : File.Counted { s.fileOf t with phase := .opened } := Or.inl rfl
    refine hs.move (h := (s.task t).h) (κ := .idle) (Or.inr rfl) ?_ rfl ?_ trivial (hv.placed _)
      (fun _ => hv.alone) ?_ ?_ (fun _ => hb)
    · simp [Sys.goto, Sys.set, Sys.setFile, kind]
    · rw [hop]
      rfl
    · rw [counts_of_not hnot, counts_of hopened]
      cases hm : (s.fileOf t).mode.read <;> simp [enter, hcount, hm]
    · rw [counts_of_not hnot, counts_of hopened]
      cases hm : (s.fileOf t).mode.write <;> simp [enter, hcount, hm]

theorem releaseBuffer_counters (dev : ScullPipe) : (releaseBuffer dev).nreaders = dev.nreaders ∧
    (releaseBuffer dev).nwriters = dev.nwriters := by
  unfold releaseBuffer
  split_ifs <;> exact ⟨rfl, rfl⟩

theorem books_relBody (hs : Books s) (hp : (s.task t).pc = .relBody) : Books (relBody s t) := by
  have hcl : kind (s.task t).pc = .closing := by rw [hp]; rfl
  have hcounted := hs.counted_of_closing hcl
  have hv := hs.vacant_of_owns (t := t) (Or.inr hcl)
  have hclosed : ¬ File.Counted { s.fileOf t with phase := .closed } := by simp
  refine hs.move (h := (s.task t).h) (κ := .idle) (Or.inr rfl) ?_ rfl ?_ trivial (hv.placed _)
    (fun _ => hv.alone) ?_ ?_ ?_
  · simp [relBody, Sys.goto, Sys.set, Sys.setFile, kind]
  · rw [hcl]
    rfl
  · rw [counts_of_not hclosed, counts_of hcounted]
    cases hm : (s.file (s.task t).h).mode.read <;>
      simp [relBody, releaseBuffer_counters, leave, Sys.fileOf, hm]
  · rw [counts_of_not hclosed, counts_of hcounted]
    cases hm : (s.file (s.task t).h).mode.write <;>
      simp [relBody, releaseBuffer_counters, leave, Sys.fileOf, hm]
  · intro hpos
    simp only [relBody, releaseBuffer_counters] at hpos ⊢
    unfold releaseBuffer
    rw [if_neg hpos.ne']
    refine hs.buffer (lt_of_lt_of_le hpos ?_)
    simp only [leave]
    split_ifs <;> omega

theorem places_set {pc : Pc} (hk : kind pc = kind (s.task t).pc) (v : ℤ) :
    places (s.set t { s.task t with pc, retval := v }).task = places s.task := by
  simp only [Sys.set, places_update]
  exact update_places hk

theorem books_readBody (hs : Books s) (hp : (s.task t).pc = .readBody) :
    Books (readBody s t k) := by
  simp only [readBody]
  split_ifs
  · exact hs.stay (places_set (by rw [hp]; rfl) _) rfl rfl rfl rfl
  · exact hs.stay (places_set (by rw [hp]; rfl) _) rfl rfl rfl rfl
  · exact hs.stay (places_set (by rw [hp]; rfl) _) rfl rfl rfl rfl

theorem books_writeBody (hs : Books s) (hp : (s.task t).pc = .writeBody) :
    Books (writeBody s t k) := by
  simp only [writeBody]
  split_ifs
  · exact hs.stay (places_set (by rw [hp]; rfl) _) rfl rfl rfl rfl
  · exact hs.stay (places_set (by rw [hp]; rfl) _) rfl rfl rfl rfl
  · exact hs.stay (places_set (by rw [hp]; rfl) _) rfl rfl rfl rfl

/-- A call begins on an open file. -/
theorem books_enterCall (hs : Books s) (ht : (s.task t).pc = .out) {m : TaskState} (hmh : m.h = h)
    (hin : (kind m.pc).inside) (hplaced : Placed (kind m.pc) (s.file h)) :
    Books (enterCall s t h m) := by
  have hidle : kind (s.task t).pc = .idle := by rw [ht]; rfl
  refine hs.move (h := h) (κ := kind m.pc) (Or.inl hidle) ?_ rfl ?_ ?_ ?_ ?_ rfl rfl hs.buffer
  · simp [enterCall, Sys.set, hmh]
  · rw [hidle, if_neg not_inside_idle, if_pos hin]
  · exact hplaced.congr rfl rfl
  · intro u hu heq
    refine Placed.congr (hs.placed u) ?_ ?_ <;> rw [heq]
  · exact fun howns => absurd howns hin.not_owns

theorem books_go (hs : Books s) (h : go N s t k = some s') : Books s' := by
  by_cases hpc : Critical (s.task t).pc
  · rcases go_critical h hpc with ⟨hp, rfl⟩ | ⟨hp, rfl⟩ | ⟨hp, rfl⟩ | ⟨hp, rfl⟩
    · exact books_openBody hs hp
    · exact books_relBody hs hp
    · exact books_readBody hs hp
    · exact books_writeBody hs hp
  · obtain ⟨hq, hdev, -, -⟩ := go_quiet h hpc
    exact books_quiet hs hq hdev

/-- **A step keeps the books.** -/
theorem books_step (hs : Books s) (h : step N s a = some s') : Books s' := by
  cases a with
  | callOpen t hd mode =>
    simp only [step] at h
    split_ifs at h with hc
    obtain rfl := Option.some.inj h
    obtain ⟨ht, hphase⟩ := hc
    have hidle : kind (s.task t).pc = .idle := by rw [ht]; rfl
    have hv := hs.vacant_of_closed (t := t) hphase
    have husers : (s.file hd).users = 0 := by
      by_contra hne
      obtain ⟨u, hin, heq⟩ := (hs.users hd).pos_iff.mp (Nat.pos_of_ne_zero hne)
      by_cases hu : u = t
      · subst hu
        simp [places, hidle] at hin
      · have := hv u hu heq
        simp [places, this] at hin
    refine hs.move (h := hd) (κ := .opening) (Or.inl hidle) ?_ rfl ?_ rfl (hv.placed _)
      (fun _ => hv.alone) ?_ ?_ hs.buffer
    · simp [Sys.set, kind]
    · rw [hidle, husers]
      rfl
    · rw [counts_of_not (by simp [hphase]), counts_of_not (by simp)]
      rfl
    · rw [counts_of_not (by simp [hphase]), counts_of_not (by simp)]
      rfl
  | callRelease t hd =>
    simp only [step] at h
    split_ifs at h with hc
    obtain rfl := Option.some.inj h
    obtain ⟨ht, hphase, husers⟩ := hc
    have hidle : kind (s.task t).pc = .idle := by rw [ht]; rfl
    have hv := hs.vacant_of_users (t := t) hphase husers
    refine hs.move (h := hd) (κ := .closing) (Or.inl hidle) ?_ rfl ?_ rfl (hv.placed _)
      (fun _ => hv.alone) ?_ ?_ hs.buffer
    · simp [Sys.set, kind]
    · rw [hidle]
      rfl
    · rw [counts_of (Or.inl hphase), counts_of (Or.inr rfl)]
      rfl
    · rw [counts_of (Or.inl hphase), counts_of (Or.inr rfl)]
      rfl
  | callRead t hd count =>
    simp only [step] at h
    split_ifs at h with hc
    obtain rfl := Option.some.inj h
    exact books_enterCall hs hc.1 rfl (Or.inl rfl) hc.2
  | callWrite t hd buf count =>
    simp only [step] at h
    split_ifs at h with hc
    obtain rfl := Option.some.inj h
    exact books_enterCall hs hc.1 rfl (Or.inr (Or.inl rfl)) hc.2
  | callPoll t hd =>
    simp only [step] at h
    split_ifs at h with hc
    obtain rfl := Option.some.inj h
    exact books_enterCall hs hc.1 rfl (Or.inr (Or.inr rfl)) hc.2
  | go t k => exact books_go hs h
  | unixSignal t =>
    obtain rfl := Option.some.inj h
    refine hs.stay ?_ rfl rfl rfl rfl
    simp only [Sys.set, places_update]
    exact update_places rfl

end LinuxHomework.Pipe.Handles
