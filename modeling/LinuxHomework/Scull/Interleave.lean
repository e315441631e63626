import LinuxHomework.Lib.Critical
import LinuxHomework.Scull.Device

/-! # Interleaved calls on a scull device

Any number of tasks are inside `scull_open`, `scull_read`, `scull_write` and `scull_llseek` on one
device. The calls hold `dev->sem` while they work, but `scull_read` and `scull_write` have read
`dev->quantum` and `dev->qset` before, and `scull_llseek` reads `dev->size` without it. A step is
what a call does up to the next function it calls that may sleep, or the next store that the others
can see. The position is an argument of a call, and what it becomes is part of the answer.

* `openCode`, `readCode`, `writeCode`: the critical sections of the source.
* `perform_eq`: without interruption a call is the function of `Scull/Device.lean`, and
  `Follows.run`: calls one after another lead where those on open files lead.
* `interleaved`: in every run, the calls return what they return one after another. -/

namespace LinuxHomework.Scull.Interleave

open LinuxHomework.Lib.CInt LinuxHomework.Lib.Critical LinuxHomework.Lib.Memory
open LinuxHomework.Lib.Outcome LinuxHomework.Lib.Runs LinuxHomework.Scull.Device

/-! ### The critical sections -/

/-- One round of the loop of `scull_follow`. -/
def followRound (qs : Word) (s : ScullDev) : Except Stop (Word × ScullDev) := do
  let next ← s.load (qs + 4)
  if next = 0 then
    let (p, s) ← s.kmalloc 8
    let s ← s.store (qs + 4) p
    if p = 0 then
      return (0, s)
    else
      let s ← s.memset p 8
      return (p, s)
  else
    return (next, s)

/-- What `scull_read` looks for: `dptr->data[s_pos]`, null if there is no array. -/
def findQuantum (s : ScullDev) (dptr : Word) (sPos : ℤ) : Except Stop (Word × ScullDev) := do
  let data ← s.load dptr
  if data = 0 then
    return (0, s)
  else
    let quantum ← s.load (entry data sPos)
    return (quantum, s)

/-- The pointer array of an item; `qset` was read before. -/
def itemArray (qset : ℤ) (s : ScullDev) (dptr : Word) : Except Stop (Word × ScullDev) := do
  let data ← s.load dptr
  if data = 0 then
    let size := size32 (qset * 4)
    let (data, s) ← s.kmalloc size
    let s ← s.store dptr data
    if data = 0 then return (0, s)
    let s ← s.memset data size
    return (data, s)
  else
    return (data, s)

/-- The quantum in an entry; `quantum` was read before. -/
def entryBlock (quantum : ℤ) (s : ScullDev) (p : Word) : Except Stop (Word × ScullDev) := do
  let q ← s.load p
  if q = 0 then
    let (q, s) ← s.kmalloc (size32 quantum)
    let s ← s.store p q
    return (q, s)
  else
    return (q, s)

/-- The code of a call. -/
abbrev Section := Code Stop ScullDev Reply

/-- `goto out`. -/
def out (retval fPos : ℤ) : Section := .last fun s => .ok (⟨retval, fPos, [], none, viaOut⟩, s)

/-- The kernel's answers to the call are at hand when it has the semaphore. -/
def answered (k : Kernel) (rest : Section) : Section :=
  .next (fun s => .ok ((), { s with answers := k.answers })) fun _ => rest

/-- The loop of `scull_trim`. -/
def trimCode (qset : ℤ) (rest : Section) : ℕ → Word → Section
  | 0, dptr => .next (fun s => if dptr = 0 then .ok ((), s) else .error .hang) fun _ => rest
  | fuel + 1, dptr =>
    if dptr = 0 then rest else .next (fun s => trimItem s qset dptr) (trimCode qset rest fuel)

/-- `scull_open` for writing only. -/
def openCode (P : Params) (k : Kernel) : Section :=
  answered k <|
  .next (fun s => .ok ((s.qset, s.data), s)) fun r =>
  trimCode r.1 (.last fun s => .ok (⟨0, 0, [], none, viaOut⟩,
    { s with size := 0, quantum := P.scullQuantum, qset := P.scullQset, data := 0 })) (2 ^ 32) r.2

/-- The loop of `scull_follow`. -/
def roundsCode (rest : Word → Section) : ℕ → Word → Section
  | 0, qs => rest qs
  | n + 1, qs => .next (followRound qs) fun p => if p = 0 then rest 0 else roundsCode rest n p

/-- `scull_follow`. -/
def followCode (n : ℤ) (rest : Word → Section) : Section :=
  .next firstItem fun qs => if qs = 0 then rest 0 else roundsCode rest (size32 n) qs

/-- The place is computed from what was read before. -/
def placeCode (quantum qset fPos : ℤ) (rest : Device.Place → Section) : Section :=
  .next (fun s => (place quantum qset fPos).map fun pl => (pl, s)) rest

/-- The last lines of `scull_read`. -/
def copyOut (k : Kernel) (count : ℕ) (fPos : ℤ) (s : ScullDev) : Except Stop (Reply × ScullDev) := do
  let bytes ← copyToUser s k (copyAddr s fPos) count
  if k.faults count then return (⟨-EFAULT, fPos, bytes, some (copyAddr s fPos, count), viaOut⟩, s)
  return (⟨wrap32 count, wrap64 (fPos + count), bytes, some (copyAddr s fPos, count), viaOut⟩, s)

/-- The user copy of `scull_write`. -/
def copyIn (k : Kernel) (buf : ℕ → Byte) (count : ℕ) (fPos : ℤ) (s : ScullDev) :
    Except Stop (Unit × ScullDev) := do
  let s ← copyFromUser s k (copyAddr s fPos) buf count
  return ((), s)

/-- The last lines of `scull_write`. -/
def account (k : Kernel) (buf : ℕ → Byte) (count : ℕ) (fPos : ℤ) (s : ScullDev) :
    Except Stop (Reply × ScullDev) :=
  if k.faults count then return (⟨-EFAULT, fPos, [], some (copyAddr s fPos, count), viaOut⟩, s)
  else
    let fPos' := wrap64 (fPos + count)
    let s := if (s.size : ℤ) < fPos' then { s with size := size32 fPos' } else s
    return (⟨wrap32 count, fPos', (List.range count).map buf, some (copyAddr s fPos, count), viaOut⟩, s)

/-- `scull_read`, when it has the semaphore. -/
def readCode (k : Kernel) (count : ℕ) (fPos quantum qset : ℤ) : Section :=
  answered k <|
  .next (fun s => .ok (s.size, s)) fun size =>
  if fPos ≥ size then out 0 fPos
  else
    let count := if wrap64 (fPos + count) > size then size32 (size - fPos) else count
    placeCode quantum qset fPos fun pl =>
    followCode pl.item fun dptr =>
    if dptr = 0 then out 0 fPos
    else
      .next (fun s => findQuantum s dptr pl.sPos) fun q =>
      if q = 0 then out 0 fPos
      else
        let count := min count (size32 (quantum - pl.qPos))
        .last (copyOut k count fPos)

/-- `scull_write`, when it has the semaphore. -/
def writeCode (k : Kernel) (buf : ℕ → Byte) (count : ℕ) (fPos quantum qset : ℤ) : Section :=
  answered k <|
  placeCode quantum qset fPos fun pl =>
  followCode pl.item fun dptr =>
  if dptr = 0 then out (-ENOMEM) fPos
  else
    .next (fun s => itemArray qset s dptr) fun data =>
    if data = 0 then out (-ENOMEM) fPos
    else
      .next (fun s => entryBlock quantum s (entry data pl.sPos)) fun q =>
      if q = 0 then out (-ENOMEM) fPos
      else
        let count := min count (size32 (quantum - pl.qPos))
        let count :=
          if wrap64 (fPos + count) > SCULL_DATA_SIZE then size32 (SCULL_DATA_SIZE - fPos) else count
        .next (copyIn k buf count fPos) fun _ => .last (account k buf count fPos)

/-- `scull_llseek`; `size` is what it reads of the device. -/
def seek (size : ℕ) (fPos off whence : ℤ) : ℤ × ℤ :=
  let newpos? : Option ℤ :=
    if whence = 0 then some off
    else if whence = 1 then some (wrap64 (fPos + off))
    else if whence = 2 then some (wrap64 (size + off))
    else none
  match newpos? with
  | none => (-EINVAL, fPos)
  | some newpos => if newpos < 0 then (-EINVAL, fPos) else (newpos, newpos)

/-! ### The calls -/

/-- A call of one task. A position is a `loff_t` that is not negative: with another one the kernel
does not call the driver. -/
inductive Call
  | open (fFlags : ℕ) (k : Kernel)
  | read (count : BitVec 32) (fPos : BitVec 63) (k : Kernel)
  | write (buf : ℕ → Byte) (count : BitVec 32) (fPos : BitVec 63) (k : Kernel)
  | llseek (fPos : BitVec 63) (off : BitVec 64) (whence : ℤ)

/-- **The calls of the driver.** A call that does not wait for the semaphore, or is interrupted
while it waits, does nothing to the device. -/
def driver (P : Params) : Driver Stop ScullDev Reply Call (ℤ × ℤ) ℕ where
  fixed s := (s.quantum, s.qset)
  shown s := s.size
  call
    | .open fFlags k =>
      if fFlags &&& O_ACCMODE = O_WRONLY then
        if k.taken then .locked fun _ => openCode P k
        else .free fun _ _ => ⟨-ERESTARTSYS, 0, [], none, []⟩
      else .free fun _ _ => ⟨0, 0, [], none, []⟩
    | .read count fPos k =>
      if k.taken then .locked fun g => readCode k count.toNat fPos.toNat g.1 g.2
      else .free fun _ _ => ⟨-ERESTARTSYS, fPos.toNat, [], none, []⟩
    | .write buf count fPos k =>
      if k.taken then .locked fun g => writeCode k buf count.toNat fPos.toNat g.1 g.2
      else .free fun _ _ => ⟨-ERESTARTSYS, fPos.toNat, [], none, []⟩
    | .llseek fPos off whence =>
      .free fun _ size => let r := seek size fPos.toNat off.toInt whence; ⟨r.1, r.2, [], none, []⟩

/-- The device that a call finds: the kernel's answers are there for one that gets the semaphore. -/
def asked (k : Kernel) (s : ScullDev) : ScullDev :=
  if k.taken then { s with answers := k.answers } else s

/-- **The calls at once**, as the functions of the model. -/
def atOnce (P : Params) (c : Call) (s : ScullDev) : Except Stop (Reply × ScullDev) :=
  match c with
  | .open fFlags k =>
    (scullOpen P k (if fFlags &&& O_ACCMODE = O_WRONLY then asked k s else s) fFlags).map
      fun r => (⟨r.1, 0, [], none,
        if fFlags &&& O_ACCMODE = O_WRONLY ∧ k.taken then viaOut else []⟩, r.2)
  | .read count fPos k => scullRead k (asked k s) count.toNat fPos.toNat
  | .write buf count fPos k => scullWrite k (asked k s) buf count.toNat fPos.toNat
  | .llseek fPos off whence =>
    let r := scullLlseek s fPos.toNat off.toInt whence
    .ok (⟨r.1, r.2, [], none, []⟩, s)

/-! ### What a call leaves to the others -/

/-- The fields that are read without the semaphore. -/
structure Same (s s' : ScullDev) : Prop where
  quantum : s'.quantum = s.quantum
  qset : s'.qset = s.qset
  size : s'.size = s.size

/-- Whatever the reason is. -/
def Any : Stop → Prop := fun _ => True

variable {s s' t : ScullDev} {n : ℕ} {a w p dptr data : Word} {P : Params} {k : Kernel}
  {qset quantum : ℤ}

theorem Same.refl (s : ScullDev) : Same s s := ⟨rfl, rfl, rfl⟩

theorem Same.trans (h : Same s s') (h' : Same s' t) : Same s t :=
  ⟨h'.quantum.trans h.quantum, h'.qset.trans h.qset, h'.size.trans h.size⟩

theorem safe_load : Safe Any (s.load a) fun _ => True := safe_any _

theorem same_write {f : ℕ → Byte} : Safe Any (s.write a n f) fun s' => Same s s' := by
  unfold ScullDev.write
  split_ifs
  · exact ⟨rfl, rfl, rfl⟩
  · trivial

theorem same_kmalloc : Safe Any (s.kmalloc n) fun r => Same s r.2 := by
  unfold ScullDev.kmalloc
  split
  · trivial
  · exact ⟨rfl, rfl, rfl⟩
  · split_ifs
    · exact ⟨rfl, rfl, rfl⟩
    · trivial

theorem same_memset : Safe Any (s.memset a n) fun s' => Same s s' := same_write

theorem same_store : Safe Any (s.store a w) fun s' => Same s s' := same_write

/-- What is kept by a call is kept by what comes behind it. -/
theorem Same.safe {α : Type} {r : Except Stop (α × ScullDev)} (h : Same s s')
    (hr : Safe Any r fun r => Same s' r.2) : Safe Any r fun r => Same s r.2 :=
  hr.mono fun _ h' => h.trans h'

theorem same_firstItem : Safe Any (firstItem s) fun r => Same s r.2 := by
  unfold firstItem
  split_ifs
  · refine same_kmalloc.bind fun r hr => ?_
    obtain ⟨qs, s₁⟩ := r
    have hdata : Same s { s₁ with data := qs } := ⟨hr.quantum, hr.qset, hr.size⟩
    show Safe Any (if qs = 0 then _ else _) _
    split_ifs
    · exact hdata
    · exact hdata.safe (same_memset.bind fun s₂ h₂ => h₂)
  · exact Same.refl s

theorem same_followRound : Safe Any (followRound a s) fun r => Same s r.2 := by
  refine safe_load.bind fun next _ => ?_
  split_ifs
  · refine same_kmalloc.bind fun r hr => ?_
    obtain ⟨p, s₁⟩ := r
    refine hr.safe (same_store.bind fun s₂ h₂ => h₂.safe ?_)
    split_ifs
    · exact Same.refl s₂
    · exact same_memset.bind fun s₃ h₃ => h₃
  · exact Same.refl s

theorem followLoop_succ : followLoop (n + 1) a s = followRound a s >>= fun r =>
    if r.1 = 0 then .ok (0, r.2) else followLoop n r.1 r.2 := by
  conv_lhs => rw [followLoop]
  unfold followRound
  rw [bind_assoc]
  refine bind_congr fun next => ?_
  by_cases hnext : next = 0
  · rw [if_pos hnext, if_pos hnext, bind_assoc]
    refine bind_congr fun r => ?_
    show (r.2.store (a + 4) r.1 >>= fun s₂ => _) = (r.2.store (a + 4) r.1 >>= fun s₂ => _) >>= _
    rw [bind_assoc]
    refine bind_congr fun s₂ => ?_
    by_cases hp : r.1 = 0
    · rw [if_pos hp, if_pos hp]
      rfl
    · rw [if_neg hp, if_neg hp, bind_assoc]
      refine bind_congr fun s₃ => ?_
      show _ = if r.1 = 0 then _ else _
      rw [if_neg hp]
  · rw [if_neg hnext, if_neg hnext]
    show _ = if next = 0 then _ else _
    rw [if_neg hnext]

theorem same_followLoop : Safe Any (followLoop n a s) fun r => Same s r.2 := by
  induction n generalizing a s with
  | zero => exact Same.refl s
  | succ n ih =>
    rw [followLoop_succ]
    refine same_followRound.bind fun r hr => hr.safe ?_
    split_ifs
    · exact Same.refl r.2
    · exact ih

theorem same_scullFollow {item : ℤ} : Safe Any (scullFollow s item) fun r => Same s r.2 := by
  refine same_firstItem.bind fun r hr => ?_
  show Safe Any (if r.1 = 0 then _ else _) _
  split_ifs
  · exact hr
  · exact hr.safe same_followLoop

theorem same_itemArray : Safe Any (itemArray qset s dptr) fun r => Same s r.2 := by
  refine safe_load.bind fun data _ => ?_
  split_ifs
  · refine same_kmalloc.bind fun r hr => ?_
    obtain ⟨p, s₁⟩ := r
    refine hr.safe (same_store.bind fun s₂ h₂ => h₂.safe ?_)
    show Safe Any (if p = 0 then _ else _) _
    split_ifs
    · exact Same.refl s₂
    · exact same_memset.bind fun s₃ h₃ => h₃
  · exact Same.refl s

theorem same_entryBlock : Safe Any (entryBlock quantum s p) fun r => Same s r.2 := by
  refine safe_load.bind fun q _ => ?_
  split_ifs
  · refine same_kmalloc.bind fun r hr => ?_
    obtain ⟨p, s₁⟩ := r
    exact hr.safe (same_store.bind fun s₂ h₂ => h₂)
  · exact Same.refl s

theorem same_findQuantum {n : ℤ} : Safe Any (findQuantum s dptr n) fun r => Same s r.2 := by
  refine safe_load.bind fun data _ => ?_
  split_ifs
  · exact Same.refl s
  · exact safe_load.bind fun q _ => Same.refl s

theorem same_copyOut {count : ℕ} {fPos : ℤ} : Safe Any (copyOut k count fPos s) fun r => Same s r.2 := by
  refine (safe_any _).bind fun bytes _ => ?_
  split_ifs
  · exact Same.refl s
  · exact Same.refl s

theorem same_copyIn {buf : ℕ → Byte} {count : ℕ} {fPos : ℤ} :
    Safe Any (copyIn k buf count fPos s) fun r => Same s r.2 :=
  (same_write : Safe Any (copyFromUser s k _ buf count) fun s' => Same s s').bind fun _ h => h

/-- The last lines of `scull_write` change the size only. -/
theorem keeps_account {buf : ℕ → Byte} {count : ℕ} {fPos : ℤ} :
    Safe Any (account k buf count fPos s) fun r => r.2.quantum = s.quantum ∧ r.2.qset = s.qset := by
  unfold account
  by_cases hfault : k.faults count
  · rw [if_pos hfault]
    exact ⟨rfl, rfl⟩
  · rw [if_neg hfault]
    show ScullDev.quantum (if _ then _ else _) = _ ∧ ScullDev.qset (if _ then _ else _) = _
    split_ifs <;> exact ⟨rfl, rfl⟩

theorem same_freeQuanta : Safe Any (freeQuanta s data qset) fun s' => Same s s' := by
  unfold freeQuanta
  generalize List.range qset.toNat = l
  induction l generalizing s with
  | nil => exact Same.refl s
  | cons i l ih =>
    rw [List.foldlM_cons]
    refine (safe_load.bind fun q _ => ?_ : Safe Any _ fun s' => Same s s').bind fun s₁ h₁ =>
      ih.mono fun s' h' => h₁.trans h'
    exact ⟨rfl, rfl, rfl⟩

theorem same_emptyItem : Safe Any (emptyItem s qset dptr) fun s' => Same s s' := by
  refine safe_load.bind fun data _ => ?_
  split_ifs
  · refine same_freeQuanta.bind fun s₁ h₁ => ?_
    exact same_store.mono fun s' h' => h₁.trans ⟨h'.quantum, h'.qset, h'.size⟩
  · exact Same.refl s

theorem same_trimItem : Safe Any (trimItem s qset dptr) fun r => Same s r.2 := by
  refine same_emptyItem.bind fun s₁ h₁ => safe_load.bind fun next _ => ?_
  exact ⟨h₁.quantum, h₁.qset, h₁.size⟩

/-! ### The code keeps what is read without the semaphore -/

section Keeps
variable {g : ℤ × ℤ} {code rest : Section}

theorem keeps_next {κ : Type} {f : ScullDev → Except Stop (κ × ScullDev)} {rest : κ → Section}
    (hf : ∀ s, Safe Any (f s) fun r => Same s r.2) (hrest : ∀ v, (driver P).Keeps g (rest v)) :
    (driver P).Keeps g (.next f rest) := by
  intro s v s' hs h
  have hsame := hf s
  rw [h] at hsame
  refine ⟨?_, hsame.size, hrest v⟩
  rw [← hs]
  exact Prod.ext hsame.quantum hsame.qset

theorem keeps_last {f : ScullDev → Except Stop (Reply × ScullDev)}
    (hf : ∀ s, (s.quantum, s.qset) = g → Safe Any (f s) fun r => (r.2.quantum, r.2.qset) = g) :
    (driver P).Keeps g (.last f) := by
  intro s r s' hs h
  have hsafe := hf s hs
  rwa [h] at hsafe

theorem keeps_ite {c : Prop} [Decidable c] {yes no : Section} (hyes : (driver P).Keeps g yes)
    (hno : (driver P).Keeps g no) : (driver P).Keeps g (if c then yes else no) := by
  split_ifs
  · exact hyes
  · exact hno

theorem keeps_out {retval fPos : ℤ} : (driver P).Keeps g (out retval fPos) := keeps_last fun _ hs => hs

theorem keeps_answered (h : (driver P).Keeps g rest) : (driver P).Keeps g (answered k rest) :=
  keeps_next (fun _ => ⟨rfl, rfl, rfl⟩) fun _ => h

theorem keeps_trimCode (h : (driver P).Keeps g rest) :
    (driver P).Keeps g (trimCode qset rest n dptr) := by
  induction n generalizing dptr with
  | zero =>
    refine keeps_next (fun s => ?_) fun _ => h
    show Safe Any (if dptr = 0 then _ else _) _
    split_ifs
    · exact Same.refl s
    · trivial
  | succ n ih =>
    unfold trimCode
    split_ifs
    · exact h
    · exact keeps_next (fun s => same_trimItem) fun _ => ih

theorem keeps_openCode : (driver P).Keeps (P.scullQuantum, P.scullQset) (openCode P k) :=
  keeps_answered (keeps_next (fun s => Same.refl s) fun _ =>
    keeps_trimCode (keeps_last fun _ _ => rfl))

theorem keeps_roundsCode {rest : Word → Section} (h : ∀ p, (driver P).Keeps g (rest p)) :
    (driver P).Keeps g (roundsCode rest n p) := by
  induction n generalizing p with
  | zero => exact h p
  | succ n ih =>
    refine keeps_next (fun s => same_followRound) fun q => ?_
    split_ifs
    · exact h 0
    · exact ih

theorem keeps_followCode {item : ℤ} {rest : Word → Section} (h : ∀ p, (driver P).Keeps g (rest p)) :
    (driver P).Keeps g (followCode item rest) := by
  refine keeps_next (fun s => same_firstItem) fun q => ?_
  split_ifs
  · exact h 0
  · exact keeps_roundsCode h

theorem keeps_placeCode {fPos : ℤ} {rest : Device.Place → Section}
    (h : ∀ pl, (driver P).Keeps g (rest pl)) :
    (driver P).Keeps g (placeCode quantum qset fPos rest) := by
  refine keeps_next (fun s => ?_) h
  cases place quantum qset fPos with
  | ok pl => exact Same.refl s
  | error e => trivial

theorem keeps_readCode {count : ℕ} {fPos : ℤ} :
    (driver P).Keeps g (readCode k count fPos quantum qset) := by
  refine keeps_answered (keeps_next (fun s => Same.refl s) fun size => keeps_ite keeps_out ?_)
  refine keeps_placeCode fun pl => keeps_followCode fun dptr => keeps_ite keeps_out ?_
  refine keeps_next (fun s => same_findQuantum) fun q => keeps_ite keeps_out ?_
  refine keeps_last fun s hs => same_copyOut.mono fun r hr => ?_
  rw [← hs]
  exact Prod.ext hr.quantum hr.qset

theorem keeps_writeCode {buf : ℕ → Byte} {count : ℕ} {fPos : ℤ} :
    (driver P).Keeps g (writeCode k buf count fPos quantum qset) := by
  refine keeps_answered (keeps_placeCode fun pl => keeps_followCode fun dptr => keeps_ite keeps_out ?_)
  refine keeps_next (fun s => same_itemArray) fun data => keeps_ite keeps_out ?_
  refine keeps_next (fun s => same_entryBlock) fun q => keeps_ite keeps_out ?_
  refine keeps_next (fun s => same_copyIn) fun _ => keeps_last fun s hs => ?_
  refine keeps_account.mono fun r hr => ?_
  rw [← hs]
  exact Prod.ext hr.1 hr.2

/-- **The code of the driver** keeps what is read without the semaphore. -/
theorem sound (P : Params) : (driver P).Sound (P.scullQuantum, P.scullQset) := by
  intro c code h
  cases c with
  | «open» fFlags k =>
    simp only [driver] at h
    split_ifs at h
    obtain rfl := Lib.Critical.Call.locked.inj h
    exact keeps_openCode
  | read count fPos k =>
    simp only [driver] at h
    split_ifs at h
    obtain rfl := Lib.Critical.Call.locked.inj h
    exact keeps_readCode
  | write buf count fPos k =>
    simp only [driver] at h
    split_ifs at h
    obtain rfl := Lib.Critical.Call.locked.inj h
    exact keeps_writeCode
  | llseek fPos off whence => cases h

end Keeps

/-! ### The calls, without interruption -/

section Eval
variable {rest : Section} {fPos : ℤ} {count : ℕ} {buf : ℕ → Byte}

theorem eval_answered : (answered k rest).eval s = rest.eval { s with answers := k.answers } := rfl

theorem eval_trimCode : (trimCode qset rest n dptr).eval s = trimLoop qset n dptr s >>= rest.eval := by
  induction n generalizing dptr s with
  | zero =>
    unfold trimLoop
    show (if dptr = 0 then _ else _) >>= _ = _
    split_ifs <;> rfl
  | succ n ih =>
    unfold trimCode trimLoop
    rw [Code.eval_ite]
    by_cases hdptr : dptr = 0
    · rw [if_pos hdptr, if_pos hdptr]
      rfl
    · rw [if_neg hdptr, if_neg hdptr, bind_assoc]
      exact bind_congr fun r => ih

theorem eval_openCode : (openCode P k).eval s =
    (scullTrim P { s with answers := k.answers }).map fun s' => (⟨0, 0, [], none, viaOut⟩, s') := by
  unfold openCode
  rw [eval_answered]
  show (trimCode s.qset _ _ s.data).eval { s with answers := k.answers } = _
  rw [eval_trimCode, scullTrim, map_bind]
  rfl

theorem eval_roundsCode {rest : Word → Section} :
    (roundsCode rest n a).eval s = followLoop n a s >>= fun r => (rest r.1).eval r.2 := by
  induction n generalizing a s with
  | zero => rfl
  | succ n ih =>
    rw [followLoop_succ, bind_assoc]
    refine bind_congr fun r => ?_
    rw [Code.eval_ite]
    by_cases hr : r.1 = 0
    · rw [if_pos hr, if_pos hr]
      rfl
    · rw [if_neg hr, if_neg hr]
      exact ih

theorem eval_followCode {item : ℤ} {rest : Word → Section} :
    (followCode item rest).eval s = scullFollow s item >>= fun r => (rest r.1).eval r.2 := by
  unfold scullFollow
  rw [bind_assoc]
  refine bind_congr fun r => ?_
  rw [Code.eval_ite]
  show _ = (if r.1 = 0 then _ else _) >>= _
  by_cases hr : r.1 = 0
  · rw [if_pos hr, if_pos hr]
    rfl
  · rw [if_neg hr, if_neg hr]
    exact eval_roundsCode

theorem eval_placeCode {rest : Device.Place → Section} : (placeCode quantum qset fPos rest).eval s =
    place quantum qset fPos >>= fun pl => (rest pl).eval s := by
  show (place quantum qset fPos).map _ >>= _ = _
  cases place quantum qset fPos <;> rfl

/-- What `scull_read` looks for, and then. -/
theorem findQuantum_bind {sPos : ℤ} {β : Type} (f : Word × ScullDev → Except Stop β) :
    findQuantum s dptr sPos >>= f = s.load dptr >>= fun data =>
      if data = 0 then f (0, s) else s.load (entry data sPos) >>= fun q => f (q, s) := by
  unfold findQuantum
  rw [bind_assoc]
  refine bind_congr fun data => ?_
  by_cases hdata : data = 0
  · rw [if_pos hdata, if_pos hdata]
    rfl
  · rw [if_neg hdata, if_neg hdata, bind_assoc]
    rfl

/-- `scull_read`. -/
theorem eval_readCode (hk : k.taken = true) : (readCode k count fPos s.quantum s.qset).eval s =
    scullRead k { s with answers := k.answers } count fPos := by
  unfold scullRead readCode
  rw [if_neg (not_not.mpr hk), eval_answered]
  show (if fPos ≥ s.size then out 0 fPos else _ : Section).eval { s with answers := k.answers } = _
  rw [Code.eval_ite]
  by_cases hsize : fPos ≥ s.size
  · rw [if_pos hsize, if_pos hsize]
    rfl
  rw [if_neg hsize, if_neg hsize]
  show (placeCode s.quantum s.qset fPos _).eval { s with answers := k.answers } = _
  rw [eval_placeCode]
  refine bind_congr fun pl => ?_
  rw [eval_followCode]
  refine same_scullFollow.bind_congr fun r hr => ?_
  rw [Code.eval_ite]
  show _ = if r.1 = 0 then _ else _
  by_cases hr0 : r.1 = 0
  · rw [if_pos hr0, if_pos hr0]
    rfl
  rw [if_neg hr0, if_neg hr0]
  refine (findQuantum_bind _).trans (bind_congr fun data => ?_)
  by_cases hdata : data = 0
  · rw [if_pos hdata, if_pos hdata]
    rfl
  rw [if_neg hdata, if_neg hdata]
  refine bind_congr fun q => ?_
  rw [Code.eval_ite]
  show (if q = 0 then _ else _) = if q = 0 then _ else _
  by_cases hq : q = 0
  · rw [if_pos hq, if_pos hq]
    rfl
  rw [if_neg hq, if_neg hq, show s.quantum = r.2.quantum from hr.quantum.symm]
  rfl

/-- `scull_write`. -/
theorem eval_writeCode (hk : k.taken = true) :
    (writeCode k buf count fPos s.quantum s.qset).eval s =
      scullWrite k { s with answers := k.answers } buf count fPos := by
  unfold scullWrite writeCode
  rw [if_neg (not_not.mpr hk), eval_answered, eval_placeCode]
  refine bind_congr fun pl => ?_
  rw [eval_followCode]
  refine same_scullFollow.bind_congr fun r hr => ?_
  rw [Code.eval_ite]
  show _ = if r.1 = 0 then _ else _
  by_cases hr0 : r.1 = 0
  · rw [if_pos hr0, if_pos hr0]
    rfl
  rw [if_neg hr0, if_neg hr0]
  have hqset : s.qset = r.2.qset := hr.qset.symm
  show itemArray s.qset r.2 r.1 >>= _ = itemData r.2 r.1 >>= _
  rw [hqset]
  show itemData r.2 r.1 >>= _ = itemData r.2 r.1 >>= _
  have hitem : Safe Any (itemData r.2 r.1) fun d => Same r.2 d.2 := same_itemArray
  refine hitem.bind_congr fun d hd => ?_
  rw [Code.eval_ite]
  show _ = if d.1 = 0 then _ else _
  by_cases hd0 : d.1 = 0
  · rw [if_pos hd0, if_pos hd0]
    rfl
  rw [if_neg hd0, if_neg hd0]
  have hquantum : s.quantum = d.2.quantum := (hd.quantum.trans hr.quantum).symm
  show entryBlock s.quantum d.2 _ >>= _ = entryQuantum d.2 _ >>= _
  rw [hquantum]
  have hentry : Safe Any (entryQuantum d.2 (entry d.1 pl.sPos)) fun q => Same d.2 q.2 := same_entryBlock
  refine hentry.bind_congr fun q hq => ?_
  rw [Code.eval_ite]
  show _ = if q.1 = 0 then _ else _
  by_cases hq0 : q.1 = 0
  · rw [if_pos hq0, if_pos hq0]
    rfl
  rw [if_neg hq0, if_neg hq0, ← hq.quantum]
  show (copyFromUser q.2 k _ buf _ >>= _) >>= _ = _
  rw [bind_assoc]
  rfl

end Eval

/-- **A call without interruption** is the function of the model. -/
theorem perform_eq (P : Params) (c : Call) (s : ScullDev) : (driver P).perform c s = atOnce P c s := by
  cases c with
  | «open» fFlags k =>
    unfold Driver.perform driver atOnce scullOpen asked
    by_cases hflags : fFlags &&& O_ACCMODE = O_WRONLY
    · by_cases hk : k.taken = true
      · simp only [if_pos hflags, if_pos hk, if_pos (And.intro hflags hk), eval_openCode]
        cases scullTrim P { s with answers := k.answers } <;> rfl
      · simp only [if_pos hflags, if_neg hk, if_neg fun h : _ ∧ _ => hk h.2]
        rfl
    · simp only [if_neg hflags, if_neg fun h : _ ∧ _ => hflags h.1]
      rfl
  | read count fPos k =>
    unfold Driver.perform driver atOnce asked
    by_cases hk : k.taken = true
    · simp only [if_pos hk]
      exact eval_readCode hk
    · simp only [if_neg hk]
      unfold scullRead
      rw [if_pos hk]
      rfl
  | write buf count fPos k =>
    unfold Driver.perform driver atOnce asked
    by_cases hk : k.taken = true
    · simp only [if_pos hk]
      exact eval_writeCode hk
    · simp only [if_neg hk]
      unfold scullWrite
      rw [if_pos hk]
      rfl
  | llseek fPos off whence => rfl

/-- One call after another, with the record of who called and what was returned. -/
def oneByOne {τ : Type} (P : Params) (s : ScullDev × List (τ × Call × Reply)) (a : τ × Call) :
    Option (ScullDev × List (τ × Call × Reply)) :=
  match atOnce P a.2 s.1 with
  | .ok (r, s') => some (s', s.2 ++ [(a.1, a.2, r)])
  | .error _ => none

theorem sequential_eq {τ : Type} (P : Params) : (driver P).sequential (τ := τ) = oneByOne P := by
  funext s a
  unfold Driver.sequential oneByOne
  rw [perform_eq]
  cases atOnce P a.2 s.1 <;> rfl

/-! ### The calls on the open files -/

/-- A state of the model with open files: the device is `d`, but for the answers that are left over,
the first file is open, and there are always others to open. -/
structure Follows (S : Device.Sys) (d : ScullDev) : Prop where
  dev : { S.dev with answers := d.answers } = d
  running : S.crashed = false
  first : ∃ p, S.fPos 0 = some p
  closed : ∃ n, ∀ f, n ≤ f → S.fPos f = none

section Follows
variable {S : Device.Sys} {d d' : ScullDev} {r : Reply} {c : Call}

/-- A call that gets the semaphore finds the same device. -/
theorem Follows.asked_eq (h : Follows S d) (hk : k.taken = true) : Device.before S k = asked k d := by
  unfold Device.before asked
  rw [if_pos hk, ← h.dev]

/-- A file is opened, or its position changes. -/
theorem closed_update {fPos : ℕ → Option ℤ} {f : ℕ} {p : Option ℤ}
    (h : ∃ n, ∀ f, n ≤ f → fPos f = none) : ∃ n, ∀ f', n ≤ f' → Function.update fPos f p f' = none := by
  obtain ⟨n, hn⟩ := h
  refine ⟨max n (f + 1), fun f' hf => ?_⟩
  rw [Function.update_of_ne (by omega)]
  exact hn f' (by omega)

theorem follows_start (P : Params) (mem : Mem) :
    ∃ S, Reaches (Device.step P) (Device.start P mem) S ∧ Follows S (Device.start P mem).dev := by
  have hstep : Device.step P (Device.start P mem) (.open 0 0 ⟨true, [], none⟩) = some
      { Device.start P mem with fPos := Function.update (fun _ => none) 0 (some 0) } := rfl
  exact ⟨_, Reaches.single hstep, rfl, rfl, ⟨0, by simp⟩, closed_update ⟨0, fun _ _ => rfl⟩⟩

/-- The first file is where a call wants it. -/
theorem Follows.seek (h : Follows S d) (p : BitVec 63) :
    ∃ S', Reaches (Device.step P) S S' ∧ Follows S' d ∧ S'.fPos 0 = some (p.toNat : ℤ) := by
  obtain ⟨q, hq⟩ := h.first
  have hoff : (BitVec.ofNat 64 p.toNat).toInt = p.toNat := by
    have hlt := p.isLt
    rw [BitVec.toInt_eq_toNat_of_lt (by rw [BitVec.toNat_ofNat]; omega), BitVec.toNat_ofNat]
    omega
  have hseek : (scullLlseek S.dev q (BitVec.ofNat 64 p.toNat).toInt 0).2 = p.toNat := by
    rw [hoff]
    exact congrArg Prod.snd (if_neg (by omega) : (if (p.toNat : ℤ) < 0 then (-EINVAL, q) else _) = _)
  have hstep : Device.step P S (.llseek 0 (BitVec.ofNat 64 p.toNat) 0) = some
      { S with fPos := Function.update S.fPos 0 (some (p.toNat : ℤ)), got := none } := by
    simp only [Device.step, h.running, hq, hseek]
    rfl
  exact ⟨_, Reaches.single hstep,
    ⟨h.dev, h.running, ⟨p.toNat, by simp⟩, closed_update h.closed⟩, by simp⟩

/-- A call that is interrupted leaves the device as it is. -/
theorem Follows.unchanged (h : Follows S d) (hd : d' = d) :
    ∃ S', Reaches (Device.step P) S S' ∧ Follows S' d' := ⟨S, Reaches.refl S, hd ▸ h⟩

/-- **A call at once is a call on an open file.** -/
theorem Follows.step (h : Follows S d) (hc : atOnce P c d = .ok (r, d')) :
    ∃ S', Reaches (Device.step P) S S' ∧ Follows S' d' := by
  cases c with
  | «open» fFlags k =>
    by_cases hw : fFlags &&& O_ACCMODE = O_WRONLY ∧ k.taken = true
    · obtain ⟨hflags, hk⟩ := hw
      obtain ⟨v, hv, hr⟩ := map_eq_ok.mp hc
      obtain ⟨-, rfl⟩ := Prod.mk.inj hr
      rw [if_pos hflags, ← h.asked_eq hk] at hv
      obtain ⟨p, hp⟩ := h.first
      obtain ⟨n, hn⟩ := h.closed
      have hne : n ≠ 0 := by
        rintro rfl
        rw [hn 0 le_rfl] at hp
        cases hp
      have hv0 : v.1 = 0 := by
        unfold scullOpen at hv
        rw [if_pos hflags, if_pos hk] at hv
        obtain ⟨t, -, ht⟩ := bind_eq_ok.mp hv
        rw [← Except.ok.inj ht]
      have hstep : Device.step P S (.open n fFlags k) = some
          { S with
            dev := v.2, fPos := Function.update S.fPos n (some 0), got := none
            writes := if fFlags &&& O_ACCMODE = O_WRONLY then [] else S.writes } := by
        unfold Device.before at hv
        simp only [Device.step, h.running, hn n le_rfl, hv, conclude, hv0]
        rfl
      refine ⟨_, Reaches.single hstep, rfl, h.running, ⟨p, ?_⟩, closed_update h.closed⟩
      rw [← hp]
      exact Function.update_of_ne hne.symm _ _
    · refine h.unchanged ?_
      obtain ⟨v, hv, hr⟩ := map_eq_ok.mp hc
      obtain ⟨-, rfl⟩ := Prod.mk.inj hr
      by_cases hflags : fFlags &&& O_ACCMODE = O_WRONLY
      · have hk : ¬ k.taken = true := fun hk => hw ⟨hflags, hk⟩
        unfold scullOpen asked at hv
        rw [if_pos hflags, if_neg hk, if_pos hflags, if_neg hk] at hv
        rw [← Except.ok.inj hv]
      · unfold scullOpen at hv
        rw [if_neg hflags, if_neg hflags] at hv
        rw [← Except.ok.inj hv]
  | read count fPos k =>
    by_cases hk : k.taken = true
    · obtain ⟨S', hreach, h', hp⟩ := h.seek (P := P) fPos
      have hv : scullRead k (Device.before S' k) count.toNat fPos.toNat = .ok (r, d') := by
        rw [h'.asked_eq hk]
        exact hc
      have hstep : Device.step P S' (.read 0 count k) = some
          { S' with
            dev := d', fPos := Function.update S'.fPos 0 (some r.fPos)
            got := if 0 ≤ r.retval then some ((fPos.toNat : ℤ), r.bytes) else none } := by
        unfold Device.before at hv
        simp only [Device.step, h'.running, hp, hv, conclude]
        rfl
      exact ⟨_, hreach.trans (Reaches.single hstep), rfl, h'.running, ⟨r.fPos, by simp⟩,
        closed_update h'.closed⟩
    · have hc : scullRead k (asked k d) count.toNat fPos.toNat = .ok (r, d') := hc
      unfold scullRead asked at hc
      rw [if_pos hk, if_neg hk] at hc
      exact h.unchanged (Prod.mk.inj (Except.ok.inj hc)).2.symm
  | write buf count fPos k =>
    by_cases hk : k.taken = true
    · obtain ⟨S', hreach, h', hp⟩ := h.seek (P := P) fPos
      have hv : scullWrite k (Device.before S' k) buf count.toNat fPos.toNat = .ok (r, d') := by
        rw [h'.asked_eq hk]
        exact hc
      have hstep : Device.step P S' (.write 0 buf count k) = some
          { S' with
            dev := d', fPos := Function.update S'.fPos 0 (some r.fPos), got := none
            writes := if 0 < r.retval then ⟨fPos.toNat, r.bytes⟩ :: S'.writes else S'.writes } := by
        unfold Device.before at hv
        simp only [Device.step, h'.running, hp, hv, conclude]
        rfl
      exact ⟨_, hreach.trans (Reaches.single hstep), rfl, h'.running, ⟨r.fPos, by simp⟩,
        closed_update h'.closed⟩
    · have hc : scullWrite k (asked k d) buf count.toNat fPos.toNat = .ok (r, d') := hc
      unfold scullWrite asked at hc
      rw [if_pos hk, if_neg hk] at hc
      exact h.unchanged (Prod.mk.inj (Except.ok.inj hc)).2.symm
  | llseek fPos off whence => exact h.unchanged (Prod.mk.inj (Except.ok.inj hc)).2.symm

/-- **Calls at once are calls on open files.** -/
theorem Follows.run {τ : Type} {log log' : List (τ × Call × Reply)} {acts : List (τ × Call)}
    (h : Follows S d) (hrun : run (oneByOne P) (d, log) acts = some (d', log')) :
    ∃ S', Reaches (Device.step P) S S' ∧ Follows S' d' := by
  induction acts generalizing S d log with
  | nil => exact h.unchanged (Prod.mk.inj (Option.some.inj hrun)).1.symm
  | cons a acts ih =>
    rw [run_cons] at hrun
    obtain ⟨⟨t, log₁⟩, ht, hrun⟩ := Option.bind_eq_some_iff.mp hrun
    unfold oneByOne at ht
    cases hc : atOnce P a.2 d with
    | ok v =>
      simp only [hc] at ht
      obtain ⟨rfl, rfl⟩ := Prod.mk.inj (Option.some.inj ht)
      obtain ⟨S₁, hreach, h₁⟩ := h.step hc
      obtain ⟨S', hreach', h'⟩ := ih h₁ hrun
      exact ⟨S', hreach.trans hreach', h'⟩
    | error e =>
      simp only [hc] at ht
      cases ht

end Follows

/-! ### Every run -/

/-- **The device `d` at which the calls arrive** whose results are fixed: it is that of calls made
one after another, with the same results, and of a run of the model with open files. Every task has
made its own calls, and a call that crashes does so on `d`. -/
structure Serial {τ : Type} [DecidableEq τ] (P : Params) (mem : Mem)
    (s : Driver.Sys Stop ScullDev Reply Call τ) (d : ScullDev) : Prop where
  calls : Reaches (oneByOne P) ((Device.start P mem).dev, []) (d, s.log)
  files : ∃ S, Reaches (Device.step P) (Device.start P mem) S ∧ { S.dev with answers := d.answers } = d
  idle : (∀ t, (s.place t).holds = false) → s.sem = 1 ∧ s.shared = d
  history : ∀ t, Driver.callsOf s.log t = s.returned t ++ (s.place t).pending
  crashed : ∀ e, s.crashed = some e → ∃ t c code, s.place t = .inside c code ∧ atOnce P c d = .error e

/-- **Interleaved calls are calls one after another.** The order is the one in which their results
are fixed, so that a call that has returned comes before all that begin later. -/
structure Interleaved {τ : Type} [DecidableEq τ] (P : Params) (mem : Mem)
    (acts : List (Driver.Act Call τ)) : Prop where
  serial : Always (driver P).step (fun s => ∃ d, Serial P mem s d)
    (Driver.start (Device.start P mem).dev) acts
  order : ∀ before after s s', before ++ after <+: acts →
    run (driver P).step (Driver.start (Device.start P mem).dev) before = some s →
    run (driver P).step s after = some s' → s.log <+: s'.log

theorem serial_of_serial {τ : Type} [DecidableEq τ] {P : Params} {mem : Mem} {d : ScullDev}
    {s : Driver.Sys Stop ScullDev Reply Call τ}
    (h : (driver P).Serial (Device.start P mem).dev s d) : Serial P mem s d := by
  have hcalls := h.run
  rw [sequential_eq] at hcalls
  obtain ⟨acts, hrun⟩ := hcalls
  obtain ⟨S₀, hreach, hfollows⟩ := follows_start P mem
  obtain ⟨S, hreach', hS⟩ := hfollows.run hrun
  refine ⟨⟨acts, hrun⟩, ⟨S, hreach.trans hreach', hS.dev⟩, h.idle, h.history, fun e he => ?_⟩
  obtain ⟨t, c, code, hplace, hc⟩ := h.crashed e he
  exact ⟨t, c, code, hplace, by rwa [← perform_eq]⟩

/-- **Any number of tasks can use the device at once.** -/
theorem interleaved {τ : Type} [DecidableEq τ] (P : Params) (mem : Mem)
    (acts : List (Driver.Act Call τ)) : Interleaved P mem acts where
  serial := (Driver.serial (sound P) acts).mono fun _ ⟨d, h⟩ => ⟨d, serial_of_serial h⟩
  order _ _ _ _ _ _ hafter := Driver.log_run hafter

end LinuxHomework.Scull.Interleave
