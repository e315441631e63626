import LinuxHomework.Lib.Outcome
import Mathlib.Algebra.Order.Ring.Nat
import Mathlib.Logic.Function.Basic
import Mathlib.Tactic

/-! # A system call in a module, `5/syscall.c`

The module looks for the table of system calls in memory: from `&loops_per_jiffy` up to
`&boot_cpu_data`, the first word from which on the entry `__NR_close` is `sys_close`. It keeps the
entry `__NR_mysyscall` of the table, puts its own function there, and puts the old entry back when
it is unloaded.

Memory is in words at the addresses that are multiples of the size of a pointer. The words of the
first page are only there if something is mapped to it.

* `findFrom_first`, `first_findSysCallTable`, `findFrom_null`: what the search finds.
* `exitAddsyscall_initAddsyscall`: with a table, exactly one word is overwritten, and it is put
  back.
* `initAddsyscall_ret`, `initAddsyscall_null`: `init_addsyscall` does not look at whether there is a
  table: it never reports a failure, and without a table it accesses the first page.
* `allOrNothing_iff`: loading and unloading is all or nothing exactly if there is a table. -/

namespace LinuxHomework.Syscall.Table

open LinuxHomework.Lib.Outcome

/-- `__NR_mysyscall`. -/
def nrMysyscall : ℕ := 349

def pageSize : ℕ := 4096

/-- Memory, in words. -/
abbrev Mem := ℕ → ℕ

/-- A kernel: where its variables are, the size of a pointer, the number of `close` and the
addresses of the two functions, and whether the first page is mapped. Its variables are not in that
page. -/
structure Layout where
  loopsPerJiffy : ℕ
  bootCpuData : ℕ
  size : ℕ
  nrClose : ℕ
  sysClose : ℕ
  sysMysyscall : ℕ
  nullMapped : Bool
  word : size = 4 ∨ size = 8
  aligned : size ∣ loopsPerJiffy
  low : pageSize ≤ loopsPerJiffy

/-- An access to an address that is not mapped. -/
inductive Oops
  | unmapped (address : ℕ)

/-- Memory and the variables of the module. -/
structure State where
  mem : Mem
  sysCallTable : ℕ
  anythingSaved : ℕ

variable (L : Layout)

/-- `&p[i]`. -/
def Layout.index (p i : ℕ) : ℕ := p + i * L.size

def Layout.Mapped (a : ℕ) : Prop := pageSize ≤ a ∨ L.nullMapped

instance (a : ℕ) : Decidable (L.Mapped a) := inferInstanceAs (Decidable (_ ∨ _))

def Layout.load (mem : Mem) (a : ℕ) : Except Oops ℕ :=
  if L.Mapped a then .ok (mem a) else .error (.unmapped a)

def Layout.store (mem : Mem) (a w : ℕ) : Except Oops Mem :=
  if L.Mapped a then .ok (Function.update mem a w) else .error (.unmapped a)

/-- The loop of `find_sys_call_table`, from `ptr` on. What it reads is behind `loops_per_jiffy`, so
it is mapped. -/
def Layout.findFrom (mem : Mem) (ptr : ℕ) : ℕ :=
  if ptr < L.bootCpuData then
    if mem (L.index ptr L.nrClose) = L.sysClose then ptr else Layout.findFrom mem (ptr + L.size)
  else 0
termination_by L.bootCpuData - ptr
decreasing_by
  have := L.word
  omega

/-- `find_sys_call_table`: the address of the table, or `NULL`. -/
def Layout.findSysCallTable (mem : Mem) : ℕ := L.findFrom mem L.loopsPerJiffy

/-- `init_addsyscall`. -/
def Layout.initAddsyscall (s : State) : Except Oops (ℤ × State) := do
  let sysCallTable := L.findSysCallTable s.mem
  let anythingSaved ← L.load s.mem (L.index sysCallTable nrMysyscall)
  let mem ← L.store s.mem (L.index sysCallTable nrMysyscall) L.sysMysyscall
  return (0, ⟨mem, sysCallTable, anythingSaved⟩)

/-- `exit_addsyscall`. -/
def Layout.exitAddsyscall (s : State) : Except Oops State := do
  let mem ← L.store s.mem (L.index s.sysCallTable nrMysyscall) s.anythingSaved
  return { s with mem := mem }

/-- A word in the range of the search that looks like the start of the table. -/
def Layout.Candidate (mem : Mem) (p : ℕ) : Prop :=
  L.size ∣ p ∧ L.loopsPerJiffy ≤ p ∧ p < L.bootCpuData ∧ mem (L.index p L.nrClose) = L.sysClose

/-- The first such word. -/
def Layout.First (mem : Mem) (p : ℕ) : Prop :=
  L.Candidate mem p ∧ ∀ q < p, ¬ L.Candidate mem q

/-- **All or nothing**: without a table the module reports that it cannot be loaded, and nothing is
written; with one, exactly its word for the new call is overwritten, and unloading the module
restores the memory. -/
structure AllOrNothing (s : State) : Prop where
  nothing : (∀ p, ¬ L.Candidate s.mem p) →
    ∃ r s', L.initAddsyscall s = .ok (r, s') ∧ r ≠ 0 ∧ s'.mem = s.mem
  all : ∀ p, L.First s.mem p → ∃ s', L.initAddsyscall s = .ok (0, s') ∧
    s'.mem = Function.update s.mem (L.index p nrMysyscall) L.sysMysyscall ∧
    ∃ s'', L.exitAddsyscall s' = .ok s'' ∧ s''.mem = s.mem

variable {L} {s s' : State} {mem : Mem} {p ptr : ℕ} {r : ℤ}

/-! ### The search -/

/-- Two words are a word apart at least. -/
theorem add_size_le (hp : L.size ∣ p) (hptr : L.size ∣ ptr) (hlt : ptr < p) : ptr + L.size ≤ p := by
  have hdvd := Nat.dvd_sub hp hptr
  have hle := Nat.le_of_dvd (by omega) hdvd
  omega

/-- **The search ends at the first word** that looks like the table. -/
theorem findFrom_first (h : L.First mem p) (hptr : L.size ∣ ptr) (hlo : L.loopsPerJiffy ≤ ptr)
    (hle : ptr ≤ p) : L.findFrom mem ptr = p := by
  obtain ⟨⟨hp, -, hboot, hclose⟩, hfirst⟩ := h
  have hmiss : ∀ q < p, L.size ∣ q → L.loopsPerJiffy ≤ q →
      mem (L.index q L.nrClose) ≠ L.sysClose :=
    fun q hq hdvd hq0 heq => hfirst q hq ⟨hdvd, hq0, by omega, heq⟩
  induction ptr using Layout.findFrom.induct L mem with
  | case1 ptr hlt hmatch =>
    have heq : ptr = p := by
      by_contra hne
      exact hmiss ptr (by omega) hptr hlo hmatch
    rw [Layout.findFrom, if_pos hlt, if_pos hmatch, heq]
  | case2 ptr hlt hno ih =>
    have hne : ptr ≠ p := fun heq => hno (heq ▸ hclose)
    have hnext := add_size_le hp hptr (by omega)
    rw [Layout.findFrom, if_pos hlt, if_neg hno]
    exact ih (Nat.dvd_add hptr (Nat.dvd_refl _)) (by omega) hnext
  | case3 ptr hend => omega

/-- **Without a table** the search finds nothing. -/
theorem findFrom_null (h : ∀ p, ¬ L.Candidate mem p) (hptr : L.size ∣ ptr)
    (hlo : L.loopsPerJiffy ≤ ptr) : L.findFrom mem ptr = 0 := by
  induction ptr using Layout.findFrom.induct L mem with
  | case1 ptr hlt hmatch => exact absurd ⟨hptr, hlo, hlt, hmatch⟩ (h ptr)
  | case2 ptr hlt hno ih =>
    rw [Layout.findFrom, if_pos hlt, if_neg hno]
    exact ih (Nat.dvd_add hptr (Nat.dvd_refl _)) (by omega)
  | case3 ptr hend => rw [Layout.findFrom, if_neg hend]

/-- If any word looks like the table, what is found is the first one. -/
theorem first_findSysCallTable (h : ∃ p, L.Candidate mem p) :
    L.First mem (L.findSysCallTable mem) := by
  classical
  have hfirst : L.First mem (Nat.find h) := ⟨Nat.find_spec h, fun q hq => Nat.find_min h hq⟩
  have hfind := findFrom_first hfirst L.aligned le_rfl hfirst.1.2.1
  unfold Layout.findSysCallTable
  rwa [hfind]

/-! ### Loading and unloading -/

/-- `init_addsyscall` never reports a failure. -/
theorem initAddsyscall_ret (h : L.initAddsyscall s = .ok (r, s')) : r = 0 := by
  unfold Layout.initAddsyscall at h
  obtain ⟨saved, -, h⟩ := bind_eq_ok.mp h
  obtain ⟨mem, -, h⟩ := bind_eq_ok.mp h
  exact (Prod.mk.inj (Except.ok.inj h)).1.symm

/-- What it does where the words of the table it has found are mapped. -/
theorem initAddsyscall_eq (h : L.Mapped (L.index (L.findSysCallTable s.mem) nrMysyscall)) :
    L.initAddsyscall s = .ok (0,
      ⟨Function.update s.mem (L.index (L.findSysCallTable s.mem) nrMysyscall) L.sysMysyscall,
        L.findSysCallTable s.mem, s.mem (L.index (L.findSysCallTable s.mem) nrMysyscall)⟩) := by
  unfold Layout.initAddsyscall Layout.load Layout.store
  simp only [if_pos h]
  rfl

/-- **Without a table** it takes the words of the first page for it. -/
theorem initAddsyscall_null (h : ∀ p, ¬ L.Candidate s.mem p) :
    L.initAddsyscall s = if L.Mapped (nrMysyscall * L.size) then
      .ok (0, ⟨Function.update s.mem (nrMysyscall * L.size) L.sysMysyscall, 0,
        s.mem (nrMysyscall * L.size)⟩)
    else .error (.unmapped (nrMysyscall * L.size)) := by
  have hnull : L.findSysCallTable s.mem = 0 := findFrom_null h L.aligned le_rfl
  have hindex : L.index 0 nrMysyscall = nrMysyscall * L.size := Nat.zero_add _
  split_ifs with hmapped
  · rw [initAddsyscall_eq (by rwa [hnull, hindex]), hnull, hindex]
  · unfold Layout.initAddsyscall Layout.load
    simp only [hnull, hindex, if_neg hmapped]
    rfl

/-- **With a table**, its word is overwritten, and put back. -/
theorem exitAddsyscall_initAddsyscall (h : L.First s.mem p) :
    ∃ s', L.initAddsyscall s = .ok (0, s') ∧
      s'.mem = Function.update s.mem (L.index p nrMysyscall) L.sysMysyscall ∧
      ∃ s'', L.exitAddsyscall s' = .ok s'' ∧ s''.mem = s.mem := by
  have hlo : L.loopsPerJiffy ≤ p := h.1.2.1
  have hfind : L.findSysCallTable s.mem = p := findFrom_first h L.aligned le_rfl hlo
  have hmapped : L.Mapped (L.index p nrMysyscall) := by
    have := L.low
    unfold Layout.Mapped Layout.index
    exact Or.inl (by omega)
  have hinit := initAddsyscall_eq (s := s) (by rwa [hfind])
  rw [hfind] at hinit
  refine ⟨_, hinit, rfl, ?_⟩
  unfold Layout.exitAddsyscall Layout.store
  rw [if_pos hmapped]
  refine ⟨_, rfl, ?_⟩
  simp only
  rw [Function.update_idem, Function.update_eq_self]

/-- **Loading and unloading is all or nothing** exactly if there is a table to be found. -/
theorem allOrNothing_iff (L : Layout) (s : State) :
    AllOrNothing L s ↔ ∃ p, L.Candidate s.mem p := by
  constructor
  · intro h
    by_contra hno
    push Not at hno
    obtain ⟨r, s', hinit, hr, -⟩ := h.nothing hno
    exact hr (initAddsyscall_ret hinit)
  · rintro ⟨p, hp⟩
    exact ⟨fun hno => absurd hp (hno p), fun q hq => exitAddsyscall_initAddsyscall hq⟩

/-- A kernel with one word between the two variables, which is not the table. -/
theorem not_allOrNothing_zero :
    ¬ AllOrNothing ⟨4096, 4104, 8, 3, 1, 2, false, Or.inr rfl, by decide, by decide⟩
      ⟨fun _ => 0, 0, 0⟩ := by
  intro h
  obtain ⟨r, s', hinit, hr, -⟩ := h.nothing fun p hp => absurd hp.2.2.2 (show (0 : ℕ) ≠ 1 by decide)
  exact hr (initAddsyscall_ret hinit)

end LinuxHomework.Syscall.Table
