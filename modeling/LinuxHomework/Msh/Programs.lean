import LinuxHomework.Lib.Outcome
import LinuxHomework.Lib.Split
import LinuxHomework.Msh.Commands

/-! # `file_exist` of `2/xyshell-read-only/study/msh/parsecmd.l`

A program is looked for when the scan of `PATH` meets a colon, so never in the last directory, and
the scan stops at the first directory that has it.

* `lookup`: the directories of `PATH` in turn, except the last one.
* `fileExist_eq`: the scan does that; it writes behind its array iff it comes to a directory whose
  name does not fit into it, with the name of the program unless it is the last one. -/

namespace LinuxHomework.Msh.Programs

open LinuxHomework.Lib.Outcome LinuxHomework.Msh.Lexer LinuxHomework.Msh.Commands
open LinuxHomework.Lib.Split (cut_induction)

variable (m : Machine)

/-- The path of a program in a directory. -/
def inDir (file dir : Text) : Text := dir ++ '/' :: file

/-- The path of a program in a directory fits into the array. -/
def DirFits (file dir : Text) : Prop := dir.length + 1 + file.length < PATHSZ

instance (file dir : Text) : Decidable (DirFits file dir) :=
  inferInstanceAs (Decidable (_ < _))

/-- **The directories of `PATH` in turn.** The last one is only copied. -/
def lookup (file : Text) (dirs : List Text) : Except Stop (Option Text) :=
  match dirs.dropLast.find? fun dir => ¬ DirFits file dir ∨ m.found (inDir file dir) with
  | some dir => if DirFits file dir then .ok (some (inDir file dir)) else .error .overflow
  | none => if (dirs.getLastD []).length ≤ PATHSZ then .ok none else .error .overflow

variable {m} {file dir path rest buffer : Text} {dirs : List Text}

/-- A directory is copied into the array. -/
theorem fileLoop_copy (hdir : ':' ∉ dir) : fileLoop m file (dir ++ rest) buffer =
    if buffer.length + dir.length ≤ PATHSZ ∨ dir = [] then fileLoop m file rest (buffer ++ dir)
    else .error .overflow := by
  induction dir generalizing buffer with
  | nil => simp
  | cons c dir ih =>
    rw [List.mem_cons, not_or] at hdir
    have hstep : fileLoop m file (c :: dir ++ rest) buffer = if buffer.length < PATHSZ then
        fileLoop m file (dir ++ rest) (buffer ++ [c]) else .error .overflow :=
      if_pos (Ne.symm hdir.1)
    rw [hstep]
    by_cases hlt : buffer.length < PATHSZ
    · rw [if_pos hlt, ih hdir.2, List.append_assoc, List.singleton_append]
      refine if_congr ?_ rfl rfl
      rw [List.length_append, List.length_singleton, List.length_cons]
      constructor
      · rintro (hle | rfl)
        · exact Or.inl (by omega)
        · exact Or.inl (by simp only [List.length_nil]; omega)
      · rintro (hle | hnil)
        · exact Or.inl (by omega)
        · cases hnil
    · rw [if_neg hlt, if_neg]
      rw [List.length_cons]
      rintro (hle | hnil)
      · omega
      · cases hnil

theorem lookup_cons (hne : dirs ≠ []) : lookup m file (dir :: dirs) =
    if DirFits file dir then
      if m.found (inDir file dir) then .ok (some (inDir file dir)) else lookup m file dirs
    else .error .overflow := by
  unfold lookup
  rw [List.dropLast_cons_of_ne_nil hne, List.find?_cons]
  by_cases hfits : DirFits file dir
  · by_cases hfound : m.found (inDir file dir) = true
    · simp [hfits, hfound]
    · obtain ⟨d, ds, rfl⟩ := List.exists_cons_of_ne_nil hne
      simp [hfits, hfound]
  · simp [hfits]

/-- **The scan of `PATH`** looks into its directories in turn, except into the last one. -/
theorem fileLoop_eq (m : Machine) (file path : Text) :
    fileLoop m file path [] = lookup m file (path.splitOn ':') := by
  induction path using cut_induction ':' with
  | hfree dir hdir =>
    rw [List.splitOn_eq_singleton hdir, ← List.append_nil dir, fileLoop_copy hdir, List.append_nil]
    refine if_congr ⟨?_, ?_⟩ rfl rfl
    · rintro (hle | rfl)
      · exact (Nat.le_add_left ..).trans hle
      · exact Nat.zero_le _
    · intro hle
      have hle : dir.length ≤ PATHSZ := hle
      exact Or.inl (by simpa using hle)
  | hcut dir rest hdir ih =>
    have hcolon : fileLoop m file (':' :: rest) dir = if DirFits file dir then
        if m.found (inDir file dir) then .ok (some (inDir file dir)) else fileLoop m file rest []
        else .error .overflow := rfl
    rw [List.splitOn_append_cons_self_of_not_mem hdir, lookup_cons (List.splitOn_ne_nil ':' rest),
      fileLoop_copy hdir, List.nil_append, hcolon, ih]
    -- a directory that is too long for the array does not fit into it with the program either
    by_cases hcopy : ([] : Text).length + dir.length ≤ PATHSZ ∨ dir = []
    · rw [if_pos hcopy]
    · rw [if_neg hcopy, if_neg]
      intro hfits
      unfold DirFits at hfits
      refine hcopy (Or.inl ?_)
      rw [List.length_nil]
      omega

/-- **`file_exist`**. -/
theorem fileExist_eq (m : Machine) (environ : Text → Option Text) (file : Text) :
    fileExist m environ file = match environ PATH with
      | none => .error .crash
      | some path => lookup m file (path.splitOn ':') := by
  unfold fileExist
  cases environ PATH with
  | none => rfl
  | some path => exact fileLoop_eq m file path

end LinuxHomework.Msh.Programs
