import LinuxHomework.Lib.CInt
import Mathlib.Data.Nat.Log

/-! # The report of a proc file, `4/m2/pm2.c`

A read of the file prints the parents of the task that reads, up to `init_task`, and then all tasks,
one `sprintf` after another, to the page that it has been given.

* `procRead_eq`: the texts that are printed, one for each call.
* `size_texts`: their size, from the numbers of digits and the lengths of the names.
* `fits_iff`: the report with its final NUL fits the page, and every write is inside it, exactly if
  that size is less than that of the page.
* `crowded`: a table whose report does not fit. -/

namespace LinuxHomework.Proc.Report

open LinuxHomework.Lib.CInt

abbrev Addr := ℕ

/-- Text in bytes, without the NUL that ends it. -/
abbrev Text := List UInt8

/-! ### Printing -/

/-- Characters as the source has them, in UTF-8. -/
def bytes (s : List Char) : Text := s.flatMap String.utf8EncodeChar

/-- What `%d` and `%ld` print. -/
def decimal (x : ℤ) : Text :=
  (if x < 0 then bytes ['-'] else []) ++ (Nat.toDigits 10 x.natAbs).map Char.toUInt8

/-- The page: the length of the report so far, and what has been written to which place. -/
structure Page where
  len : ℤ
  writes : List (ℤ × Text)

def pageSize : ℕ := 4096

/-- `len += sprintf(page + len, ...)`. -/
def Page.sprintf (page : Page) (text : Text) : Page :=
  ⟨wrap32 (page.len + text.length), page.writes ++ [(page.len, text ++ [0])]⟩

/-- The number of bytes printed, and the final NUL. -/
def Page.total (page : Page) : ℕ := (page.writes.map fun w => w.2.length - 1).sum + 1

/-- Nothing is written beside the page. -/
def Page.Inside (page : Page) : Prop := ∀ w ∈ page.writes, 0 ≤ w.1 ∧ w.1 + w.2.length ≤ pageSize

/-! ### The tasks -/

structure Task where
  pid : ℤ
  comm : Text
  parent : Addr
  next : Addr

/-- The tasks, the one that reads, and `init_task`, to which the parents lead; `next` goes round all
tasks. -/
structure Table where
  task : Addr → Task
  initTask : Addr
  current : Addr
  depth : ℕ
  size : ℕ
  up : (fun a => (task a).parent)^[depth] current = initTask
  ring : (fun a => (task a).next)^[size + 1] initTask = initTask

structure MyProcData where
  value : Text

variable {t : Table} {data : MyProcData} {jiffies hz x : ℤ} {page : Page} {text : Text}
  {ts : List Text} {a stop : Addr} {n : ℕ} {f : Addr → Addr} {line : Addr → Text}

/-- A task and its parent. -/
def parentLine (t : Table) (a : Addr) : Text :=
  decimal (t.task a).pid ++ bytes ['\t'] ++ decimal (t.task (t.task a).parent).pid ++
    bytes ['\t', '['] ++ (t.task a).comm ++ bytes [']', '\n']

/-- A task. -/
def taskLine (t : Table) (a : Addr) : Text :=
  decimal (t.task a).pid ++ bytes ['\t', '['] ++ (t.task a).comm ++ bytes [']', '\n']

/-- From the task at `a`, which is `n` steps before the one at `stop` at most, up to that one: a
line for each task on the way. -/
def each (f : Addr → Addr) (line : Addr → Text) (stop : Addr) : ℕ → Addr → Page → Addr × Page
  | 0, a, page => (a, page)
  | n + 1, a, page =>
    if a = stop then (a, page) else each f line stop n (f a) (page.sprintf (line a))

/-- `while (task != &init_task)`, with `task->parent` for the next one. -/
def parents (t : Table) : Page → Addr × Page :=
  each (fun a => (t.task a).parent) (parentLine t) t.initTask t.depth t.current

/-- `for_each_process(task)`, from the task behind `init_task`. -/
def forEachProcess (t : Table) : Page → Addr × Page :=
  each (fun a => (t.task a).next) (taskLine t) t.initTask t.size (t.task t.initTask).next

/-- `proc_read`. -/
def procRead (t : Table) (data : MyProcData) (jiffies hz : ℤ) : Page :=
  let page : Page := ⟨0, []⟩
  let page := page.sprintf (data.value ++ decimal jiffies ++ bytes [' ', 'H', 'Z', '='] ++
    decimal hz ++ bytes ['\n'])
  let page := page.sprintf (bytes ['遍', '历', '父', '进', '程', '\n', 'p', 'i', 'd', '\t', 'p', 'p',
    'i', 'd', '\t', 'c', 'o', 'm', 'm', '\n'])
  let (task, page) := parents t page
  let page := page.sprintf (parentLine t task)
  let page := page.sprintf (bytes ['遍', '历', '任', '务', '队', '列', '\n', 'c', 'o', 'm', 'm', '\t',
    'p', 'i', 'd', '\n'])
  (forEachProcess t page).2

/-! ### The texts -/

/-- The places from `a` on, up to `stop`, and `n` of them at most. -/
def walk (f : Addr → Addr) (stop : Addr) : ℕ → Addr → List Addr
  | 0, _ => []
  | n + 1, a => if a = stop then [] else a :: walk f stop n (f a)

/-- The parents of the task that reads, itself included, below `init_task`. -/
def Table.ancestors (t : Table) : List Addr :=
  walk (fun a => (t.task a).parent) t.initTask t.depth t.current

/-- The tasks other than `init_task`. -/
def Table.processes (t : Table) : List Addr :=
  walk (fun a => (t.task a).next) t.initTask t.size (t.task t.initTask).next

/-- What is printed, call by call. -/
def texts (t : Table) (data : MyProcData) (jiffies hz : ℤ) : List Text :=
  [data.value ++ decimal jiffies ++ bytes [' ', 'H', 'Z', '='] ++ decimal hz ++ bytes ['\n'],
    bytes ['遍', '历', '父', '进', '程', '\n', 'p', 'i', 'd', '\t', 'p', 'p', 'i', 'd', '\t', 'c', 'o',
      'm', 'm', '\n']] ++
  t.ancestors.map (parentLine t) ++ [parentLine t t.initTask] ++
  [bytes ['遍', '历', '任', '务', '队', '列', '\n', 'c', 'o', 'm', 'm', '\t', 'p', 'i', 'd', '\n']] ++
  t.processes.map (taskLine t)

/-- A loop ends at `stop`, and prints the places on the way. -/
theorem each_eq (h : f^[n] a = stop) (page : Page) :
    each f line stop n a page =
      (stop, ((walk f stop n a).map line).foldl Page.sprintf page) := by
  induction n generalizing a page with
  | zero =>
    rw [Function.iterate_zero, id] at h
    rw [each, walk, h]
    rfl
  | succ n ih =>
    unfold each walk
    by_cases ha : a = stop
    · rw [if_pos ha, if_pos ha, ha]
      rfl
    · rw [if_neg ha, if_neg ha, ih h]
      rfl

theorem parents_eq (t : Table) (page : Page) : parents t page =
    (t.initTask, (t.ancestors.map (parentLine t)).foldl Page.sprintf page) := each_eq t.up page

theorem forEachProcess_eq (t : Table) (page : Page) : forEachProcess t page =
    (t.initTask, (t.processes.map (taskLine t)).foldl Page.sprintf page) :=
  each_eq (by rw [← Function.iterate_succ_apply]; exact t.ring) page

theorem procRead_eq (t : Table) (data : MyProcData) (jiffies hz : ℤ) :
    procRead t data jiffies hz = (texts t data jiffies hz).foldl Page.sprintf ⟨0, []⟩ := by
  unfold procRead texts
  simp only [parents_eq, forEachProcess_eq, List.foldl_append, List.foldl_cons, List.foldl_nil]

/-! ### The size -/

/-- The number of characters of a number. -/
def width (x : ℤ) : ℕ := (if x < 0 then 1 else 0) + (Nat.log 10 x.natAbs + 1)

/-- The size of the report, in bytes. -/
def reportSize (t : Table) (data : MyProcData) (jiffies hz : ℤ) : ℕ :=
  data.value.length + width jiffies + width hz + 63 +
  ((t.ancestors ++ [t.initTask]).map fun a => width (t.task a).pid +
    width (t.task (t.task a).parent).pid + (t.task a).comm.length + 5).sum +
  (t.processes.map fun a => width (t.task a).pid + (t.task a).comm.length + 4).sum

theorem length_toDigits (n : ℕ) : (Nat.toDigits 10 n).length = Nat.log 10 n + 1 := by
  rcases Nat.eq_zero_or_pos n with rfl | hn
  · rw [Nat.toDigits_zero, Nat.log_zero_right, List.length_singleton]
  · have hpos := Nat.length_toDigits_pos (b := 10) (n := n)
    have hlow := Nat.pow_log_le_self 10 hn.ne'
    refine le_antisymm ?_ ?_
    · rw [Nat.length_toDigits_le_iff (by norm_num) (by omega)]
      exact Nat.lt_pow_succ_log_self (by norm_num) n
    · by_contra hlt
      have hle : (Nat.toDigits 10 n).length ≤ Nat.log 10 n := by omega
      rw [Nat.length_toDigits_le_iff (by norm_num) (by omega)] at hle
      omega

@[simp] theorem length_decimal (x : ℤ) : (decimal x).length = width x := by
  unfold decimal width
  rw [List.length_append, List.length_map, length_toDigits]
  split_ifs with hx
  · rfl
  · rfl

@[simp] theorem length_bytes (s : List Char) :
    (bytes s).length = (s.map Char.utf8Size).sum := by
  unfold bytes
  rw [List.length_flatMap]
  simp only [String.length_utf8EncodeChar]

theorem length_parentLine (t : Table) (a : Addr) :
    (parentLine t a).length = width (t.task a).pid + width (t.task (t.task a).parent).pid +
      (t.task a).comm.length + 5 := by
  simp [parentLine, Char.utf8Size]
  omega

theorem length_taskLine (t : Table) (a : Addr) :
    (taskLine t a).length = width (t.task a).pid + (t.task a).comm.length + 4 := by
  simp [taskLine, Char.utf8Size]
  omega

theorem size_texts (t : Table) (data : MyProcData) (jiffies hz : ℤ) :
    ((texts t data jiffies hz).map List.length).sum = reportSize t data jiffies hz := by
  unfold texts reportSize
  simp [Function.comp_def, length_parentLine, length_taskLine, Char.utf8Size]
  omega

/-! ### What is written -/

theorem total_sprintf (page : Page) (text : Text) :
    (page.sprintf text).total = page.total + text.length := by
  simp [Page.sprintf, Page.total]
  omega

theorem total_foldl (ts : List Text) (page : Page) :
    (ts.foldl Page.sprintf page).total = page.total + (ts.map List.length).sum := by
  induction ts generalizing page with
  | nil => rfl
  | cons text ts ih =>
    rw [List.foldl_cons, ih, total_sprintf, List.map_cons, List.sum_cons]
    omega

/-- As long as the report fits, it is inside the page; and once it does not, it is not. -/
structure Fitting (page : Page) : Prop where
  inside : page.Inside ↔ page.total ≤ pageSize
  len : page.total ≤ pageSize → page.len + 1 = page.total

theorem inside_sprintf : (page.sprintf text).Inside ↔
    page.Inside ∧ 0 ≤ page.len ∧ page.len + text.length + 1 ≤ pageSize := by
  unfold Page.Inside Page.sprintf
  simp only [List.mem_append, List.mem_singleton, or_imp, forall_and, forall_eq,
    List.length_append, List.length_singleton]
  push_cast
  rw [add_assoc]
  tauto

theorem Fitting.sprintf (h : Fitting page) (text : Text) : Fitting (page.sprintf text) := by
  have htotal := total_sprintf page text
  have hpage : pageSize = 4096 := rfl
  constructor
  · rw [inside_sprintf, h.inside, htotal]
    constructor
    · rintro ⟨hfits, -, hle⟩
      have := h.len hfits
      omega
    · intro hle
      have := h.len (by omega)
      refine ⟨by omega, ?_, by omega⟩
      have : 1 ≤ page.total := Nat.succ_le_of_lt (Nat.succ_pos _)
      omega
  · intro hle
    have := h.len (by omega)
    show wrap32 (page.len + text.length) + 1 = _
    rw [wrap32_of_lt (by omega) (by omega)]
    omega

theorem fitting_foldl (ts : List Text) (h : Fitting page) :
    Fitting (ts.foldl Page.sprintf page) := by
  induction ts generalizing page with
  | nil => exact h
  | cons text ts ih => exact ih (h.sprintf text)

/-- **The bytes printed**, with the final NUL. -/
theorem total_procRead (t : Table) (data : MyProcData) (jiffies hz : ℤ) :
    (procRead t data jiffies hz).total = reportSize t data jiffies hz + 1 := by
  rw [procRead_eq, total_foldl, size_texts]
  exact Nat.add_comm _ _

/-- **When the report fits.** -/
theorem fits_iff (t : Table) (data : MyProcData) (jiffies hz : ℤ) :
    ((procRead t data jiffies hz).total ≤ pageSize ↔ reportSize t data jiffies hz < pageSize) ∧
    ((procRead t data jiffies hz).Inside ↔ reportSize t data jiffies hz < pageSize) := by
  have htotal := total_procRead t data jiffies hz
  have hfit : Fitting (procRead t data jiffies hz) := by
    rw [procRead_eq]
    refine fitting_foldl _ ⟨?_, fun _ => rfl⟩
    exact iff_of_true nofun (by decide)
  rw [hfit.inside, htotal]
  exact ⟨Nat.succ_le_iff, Nat.succ_le_iff⟩

theorem iterate_next (n k : ℕ) : (fun a => (a + 1) % (n + 1))^[k] 0 = k % (n + 1) := by
  induction k with
  | zero => rfl
  | succ k ih => rw [Function.iterate_succ_apply', ih, Nat.mod_add_mod]

/-- `init_task`, whose name is `swapper`, and `n` tasks whose names have fifteen letters, all of
them its children; the last one reads. -/
def crowd (n : ℕ) : Table where
  task a :=
    ⟨a, if a = 0 then bytes ['s', 'w', 'a', 'p', 'p', 'e', 'r'] else List.replicate 15 97, 0,
      (a + 1) % (n + 1)⟩
  initTask := 0
  current := n
  depth := 1
  size := n
  up := rfl
  ring := (iterate_next n (n + 1)).trans (Nat.mod_self _)

/-- **A report that does not fit**: 200 tasks. -/
theorem crowded :
    (procRead (crowd 200) ⟨bytes ['T', 'i', 'c', 'k', 's', '=']⟩ 300000 250).total = 4409 ∧
      ¬ (procRead (crowd 200) ⟨bytes ['T', 'i', 'c', 'k', 's', '=']⟩ 300000 250).total ≤ pageSize := by
  have h : (procRead (crowd 200) ⟨bytes ['T', 'i', 'c', 'k', 's', '=']⟩ 300000 250).total = 4409 := by
    decide +kernel
  exact ⟨h, by rw [h]; decide⟩

end LinuxHomework.Proc.Report
