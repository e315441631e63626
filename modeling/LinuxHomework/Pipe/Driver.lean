import LinuxHomework.Lib.CharDevices
import LinuxHomework.Pipe.Lifetime

/-! # The module `scull_pipe`

`scull_p_init` takes a range of device numbers, allocates the devices and adds them one by one;
`scull_p_cleanup` undoes it. A module whose init function returns a negative value is not loaded,
but `scull_p_init` returns 0 where it fails, so the module is loaded then too, without devices.

While the module is loaded, any of the first `T` tasks are inside the calls on any of the first `H`
files of each device, as in `Pipe/System.lean`; a device that was not added cannot be opened. The
module is not unloaded while a file is open or a call is in progress.

* `scullPInit`, `scullPSetupCdev`, `scullPCleanup`: the source.
* `driver_kept`: what the module holds, in every run of loading, calls and unloading, whatever
  fails. When it is not loaded it holds nothing. -/

namespace LinuxHomework.Pipe.Driver

open LinuxHomework.Lib.CharDevices LinuxHomework.Lib.Runs LinuxHomework.Pipe.Device
open LinuxHomework.Pipe.System LinuxHomework.Pipe.Handles LinuxHomework.Pipe.Lifetime

/-- What the kernel answers to `scull_p_init`: the first number of the range of
`alloc_chrdev_region` (`none`: it fails), the pointer that `kmalloc` returns, which calls of
`cdev_add` succeed, and the memory. -/
structure Load where
  region : Option ℕ
  kmalloc : ℤ
  added : ℕ → Bool
  mem : ℤ → UInt8

/-- **The module**: its variables, its devices, for which of them `cdev_add` succeeded, what is
registered, and the pointers got from `kmalloc` and given to `kfree`, except by the devices that are
there. -/
structure ScullPModule where
  loaded : Bool
  scullPDevno : ℕ
  scullPDevices : ℤ
  dev : ℕ → Sys
  added : ℕ → Bool
  reg : Registry
  allocated : List ℤ
  freed : List ℤ

/-- `scull_p_nr_devs` numbers from `first` on. -/
abbrev numbers (nr first : ℕ) : Region := ⟨first, nr⟩

/-- `scull_p_setup_cdev`. -/
def scullPSetupCdev (k : Load) (d : ScullPModule) (index : ℕ) : ScullPModule :=
  let d := { d with added := Function.update d.added index (k.added index) }
  if k.added index then
    { d with reg := d.reg.add (d.scullPDevno + index) ⟨d.scullPDevices, index⟩ }
  else d

/-- The loop of `scull_p_init`. -/
def initDevice (k : Load) (d : ScullPModule) (i : ℕ) : ScullPModule :=
  scullPSetupCdev k { d with dev := Function.update d.dev i (start k.mem) } i

/-- `scull_p_init`: the number it returns, and the module. -/
def scullPInit (nr : ℕ) (k : Load) (d : ScullPModule) : ℕ × ScullPModule :=
  match k.region with
  | none => (0, d)
  | some first =>
    let d := { d with
      reg := d.reg.register (numbers nr first), scullPDevno := first, scullPDevices := k.kmalloc }
    if k.kmalloc = 0 then
      (0, { d with reg := d.reg.unregister (numbers nr first) })
    else
      let d := { d with allocated := k.kmalloc :: d.allocated }
      (nr, (List.range nr).foldl (initDevice k) d)

/-- The loop of `scull_p_cleanup`; what the device allocated and freed goes into the lists of the
module. -/
def cleanupDevice (d : ScullPModule) (i : ℕ) : ScullPModule :=
  let dev := (d.dev i).dev
  { d with
    reg := d.reg.del (d.scullPDevno + i)
    allocated := dev.allocated ++ d.allocated
    freed := dev.buffer :: (dev.freed ++ d.freed) }

/-- `scull_p_cleanup`. -/
def scullPCleanup (nr : ℕ) (d : ScullPModule) : ScullPModule :=
  if d.scullPDevices = 0 then d
  else
    let d := (List.range nr).foldl cleanupDevice d
    { d with
      freed := d.scullPDevices :: d.freed
      reg := d.reg.unregister (numbers nr d.scullPDevno)
      scullPDevices := 0 }

/-- The module is loaded or unloaded, or a device takes a step. -/
inductive Act
  | insmod (k : Load)
  | rmmod
  | device (i : ℕ) (a : System.Act)

/-- The step is one of the first `T` tasks on one of the first `H` files. -/
def Within (T H : ℕ) : System.Act → Prop
  | .callOpen t h _ | .callRelease t h | .callRead t h _ | .callWrite t h _ _ | .callPoll t h =>
    t < T ∧ h < H
  | .go t _ | .unixSignal t => t < T

instance (T H : ℕ) : DecidablePred (Within T H)
  | .callOpen .. | .callRelease .. | .callRead .. | .callWrite .. | .callPoll .. =>
    inferInstanceAs (Decidable (_ ∧ _))
  | .go .. | .unixSignal .. => Nat.decLt _ _

/-- An open finds the device under its number. -/
def Found (d : ScullPModule) (i : ℕ) : System.Act → Prop
  | .callOpen .. => d.reg.cdev (d.scullPDevno + i) = some ⟨d.scullPDevices, i⟩
  | _ => True

instance (d : ScullPModule) (i : ℕ) : DecidablePred (Found d i)
  | .callOpen .. => inferInstanceAs (Decidable (_ = _))
  | .callRelease .. | .callRead .. | .callWrite .. | .callPoll .. | .go .. | .unixSignal .. =>
    isTrue trivial

/-- No file of the device is open, and nobody is in a call on it. -/
def Idle (T H : ℕ) (s : Sys) : Prop :=
  (∀ t < T, (s.task t).pc = .out) ∧ ∀ h < H, (s.file h).phase = .closed

instance (T H : ℕ) (s : Sys) : Decidable (Idle T H s) := inferInstanceAs (Decidable (_ ∧ _))

/-- The module is not loaded. -/
def unloaded (g : Registry) : ScullPModule where
  loaded := false
  scullPDevno := 0
  scullPDevices := 0
  dev := fun _ => start fun _ => 0
  added := fun _ => false
  reg := g
  allocated := []
  freed := []

variable (N : ℤ) (nr T H : ℕ)

/-- One step; `none` if it cannot be taken. The range that the kernel answers is free. -/
def step (d : ScullPModule) : Act → Option ScullPModule
  | .insmod k =>
    if d.loaded = false ∧ ∀ first ∈ k.region, d.reg.Free (numbers nr first) then
      some { (scullPInit nr k { d with scullPDevno := 0, scullPDevices := 0 }).2 with loaded := true }
    else none
  | .rmmod =>
    if d.loaded ∧ (d.scullPDevices ≠ 0 → ∀ i < nr, Idle T H (d.dev i)) then
      some { scullPCleanup nr d with loaded := false }
    else none
  | .device i a =>
    if d.scullPDevices ≠ 0 ∧ i < nr ∧ Within T H a ∧ Found d i a then
      (System.step N (d.dev i) a).map fun s => { d with dev := Function.update d.dev i s }
    else none

/-- The pointers that the module has got from `kmalloc`. -/
def allAllocated (d : ScullPModule) : List ℤ :=
  if d.scullPDevices = 0 then d.allocated
  else (List.range nr).flatMap (fun i => (d.dev i).dev.allocated) ++ d.allocated

/-- The pointers that the module has given to `kfree`. -/
def allFreed (d : ScullPModule) : List ℤ :=
  if d.scullPDevices = 0 then d.freed
  else (List.range nr).flatMap (fun i => (d.dev i).dev.freed) ++ d.freed

/-- The memory that the module has: its devices, and their buffers. -/
def held (d : ScullPModule) : List ℤ :=
  if d.scullPDevices = 0 then []
  else d.scullPDevices :: (List.range nr).map fun i => (d.dev i).dev.buffer

/-- **What the module holds**, where `g` is what was registered before. -/
structure Kept (g : Registry) (d : ScullPModule) : Prop where
  unloaded : d.loaded = false → d.reg = g ∧ d.scullPDevices = 0
  memory : ∀ p, p ≠ 0 →
    (allAllocated nr d).count p = (allFreed nr d).count p + (held nr d).count p
  taken : d.reg.regions =
    if d.scullPDevices = 0 then g.regions else numbers nr d.scullPDevno :: g.regions
  free : d.scullPDevices ≠ 0 → g.Free (numbers nr d.scullPDevno)
  found : ∀ n, d.reg.cdev n =
    if d.scullPDevices ≠ 0 ∧ (numbers nr d.scullPDevno).Has n ∧ d.added (n - d.scullPDevno) = true then
      some ⟨d.scullPDevices, n - d.scullPDevno⟩
    else g.cdev n
  reached : d.scullPDevices ≠ 0 → ∀ i < nr, ∃ mem, Reaches (System.step N) (start mem) (d.dev i)

/-- When the module is unloaded, its devices have no buffers any more. -/
def NothingLeft (d : ScullPModule) : Act → Prop
  | .rmmod => d.scullPDevices ≠ 0 → ∀ i < nr, (d.dev i).dev.buffer = 0
  | _ => True

/-- **The devices are there**, with their range of numbers and those of their `cdev`s that were
added. -/
structure Made (g : Registry) (d : ScullPModule) : Prop where
  loaded : d.loaded = true
  free : g.Free (numbers nr d.scullPDevno)
  regions : d.reg.regions = numbers nr d.scullPDevno :: g.regions
  found : ∀ n, d.reg.cdev n =
    if (numbers nr d.scullPDevno).Has n ∧ d.added (n - d.scullPDevno) = true then
      some ⟨d.scullPDevices, n - d.scullPDevno⟩
    else g.cdev n
  reached : ∀ i < nr, ∃ mem, Reaches (System.step N) (start mem) (d.dev i)
  beyond : ∀ i < nr, ∀ h, H ≤ h → ((d.dev i).file h).phase = .closed

/-- **The invariant.** -/
structure Inv (g : Registry) (d : ScullPModule) : Prop where
  memory : ∀ p, p ≠ 0 → d.allocated.count p = d.freed.count p + if d.scullPDevices = p then 1 else 0
  absent : d.scullPDevices = 0 → d.reg = g
  made : d.scullPDevices ≠ 0 → Made N nr H g d

variable {N nr T H} {g : Registry} {d d' : ScullPModule} {k : Load} {s s' : Sys} {p : ℤ} {l : List ℕ}

/-! ### One device -/

theorem owned_of_reaches (hN : 1 ≤ N) (h : ∃ mem, Reaches (System.step N) (start mem) s) :
    Owned N s := by
  obtain ⟨mem, as, hrun⟩ := h
  exact (always_of_step (fun _ _ _ hs h => owned_step hN hs h) (owned_start mem) as).last hrun

/-- A step changes the phase of the file of its call only, which is one of the first `H`. -/
theorem beyond_step {a : System.Act} (hs : Books s) (hw : Within T H a)
    (hb : ∀ h, H ≤ h → (s.file h).phase = .closed) (h : System.step N s a = some s') :
    ∀ h, H ≤ h → (s'.file h).phase = .closed := by
  have hupdate : ∀ {f : File} {x : Handle}, x < H → ∀ h, H ≤ h →
      (Function.update s.file x f h).phase = .closed := by
    intro f x hx h hh
    rw [Function.update_of_ne (hx.trans_le hh).ne']
    exact hb h hh
  -- the file of a call in progress is not closed
  have hfile : ∀ t, kind (s.task t).pc ≠ .idle → (s.task t).h < H := by
    intro t ht
    by_contra hle
    have hclosed := hb _ (not_lt.mp hle)
    have hplaced := hs.placed t
    cases hk : kind (s.task t).pc <;> simp_all [Placed]
  cases a with
  | unixSignal t =>
    obtain rfl := Option.some.inj h
    exact hb
  | go t k =>
    by_cases hpc : Critical (s.task t).pc
    · rcases go_critical h hpc with ⟨hp, rfl⟩ | ⟨hp, rfl⟩ | ⟨hp, rfl⟩ | ⟨hp, rfl⟩
      · unfold openBody
        have hlt := hfile t (by rw [hp]; decide)
        dsimp only
        split_ifs
        · exact hb
        · exact hupdate hlt
      · exact hupdate (hfile t (by rw [hp]; decide))
      · unfold readBody
        dsimp only
        split_ifs <;> exact hb
      · unfold writeBody
        dsimp only
        split_ifs <;> exact hb
    · rcases (go_quiet h hpc).1 with ⟨-, hsame⟩ | ⟨hin, -, hset⟩ | ⟨hop, -, hset⟩
      · rw [hsame]
        exact hb
      · rw [hset]
        refine hupdate (hfile t ?_)
        intro hidle
        rw [hidle] at hin
        exact not_inside_idle hin
      · rw [hset]
        refine hupdate (hfile t ?_)
        rw [hop]
        decide
  | _ =>
    simp only [System.step] at h
    split_ifs at h
    obtain rfl := Option.some.inj h
    exact hupdate hw.2

/-! ### Memory -/

/-- What the devices allocated is what they freed, and their buffers. -/
theorem count_devices {dev : ℕ → Sys} (h : ∀ i ∈ l, Owned N (dev i)) (hp : p ≠ 0) :
    (l.flatMap fun i => (dev i).dev.allocated).count p =
      (l.flatMap fun i => (dev i).dev.freed).count p +
        (l.map fun i => (dev i).dev.buffer).count p := by
  induction l with
  | nil => rfl
  | cons i l ih =>
    have hi := (h i List.mem_cons_self).balance p hp
    have hl := ih fun j hj => h j (List.mem_cons_of_mem i hj)
    rw [List.flatMap_cons, List.flatMap_cons, List.map_cons, List.count_append, List.count_append,
      List.count_cons, hi, hl]
    simp only [beq_iff_eq]
    omega

theorem Inv.owned (hN : 1 ≤ N) (h : Inv N nr H g d) (hd : d.scullPDevices ≠ 0) :
    ∀ i < nr, Owned N (d.dev i) :=
  fun i hi => owned_of_reaches hN ((h.made hd).reached i hi)

theorem Inv.total (hN : 1 ≤ N) (h : Inv N nr H g d) (hp : p ≠ 0) :
    (allAllocated nr d).count p = (allFreed nr d).count p + (held nr d).count p := by
  have hmemory := h.memory p hp
  unfold allAllocated allFreed held
  by_cases hd : d.scullPDevices = 0
  · rw [hd, if_neg hp.symm] at hmemory
    simpa [hd] using hmemory
  · have hdevices := count_devices (l := List.range nr)
      (fun i hi => h.owned hN hd i (List.mem_range.mp hi)) hp
    simp only [if_neg hd]
    rw [List.count_append, List.count_append, List.count_cons, hdevices, hmemory]
    simp only [beq_iff_eq]
    omega

/-! ### Loading -/

/-- The loop of `scull_p_init` over some of the devices. -/
theorem initLoop_eq : l.foldl (initDevice k) d = { d with
    dev := fun i => if i ∈ l then start k.mem else d.dev i
    added := fun i => if i ∈ l then k.added i else d.added i
    reg := d.reg.addEach d.scullPDevno d.scullPDevices k.added l } := by
  induction l generalizing d with
  | nil => rfl
  | cons i l ih =>
    have hone : initDevice k d i = { d with
        dev := Function.update d.dev i (start k.mem)
        added := Function.update d.added i (k.added i)
        reg := if k.added i then d.reg.add (d.scullPDevno + i) ⟨d.scullPDevices, i⟩ else d.reg } := by
      unfold initDevice scullPSetupCdev
      split_ifs <;> rfl
    have hlater : ∀ {α : Type} (f g : ℕ → α),
        (fun j => if j ∈ l then f j else Function.update g i (f i) j) =
          fun j => if j ∈ i :: l then f j else g j := by
      intro α f g
      funext j
      by_cases hj : j = i
      · subst hj
        rw [Function.update_self, ite_self, if_pos List.mem_cons_self]
      · rw [Function.update_of_ne hj]
        exact if_congr (by simp [hj]) rfl rfl
    rw [List.foldl_cons, hone, ih]
    dsimp only
    rw [hlater (fun _ => start k.mem), hlater k.added]
    rfl

/-- The module after a load that got its numbers and its memory. -/
theorem scullPInit_eq {first : ℕ} (hk : k.kmalloc ≠ 0) (hregion : k.region = some first) :
    scullPInit nr k d = (nr, { d with
      scullPDevno := first
      scullPDevices := k.kmalloc
      allocated := k.kmalloc :: d.allocated
      dev := fun i => if i ∈ List.range nr then start k.mem else d.dev i
      added := fun i => if i ∈ List.range nr then k.added i else d.added i
      reg := (d.reg.register (numbers nr first)).addEach first k.kmalloc k.added (List.range nr) }) := by
  unfold scullPInit
  rw [hregion]
  dsimp only
  rw [if_neg hk, initLoop_eq]

/-- The module after a load that failed is as it was. -/
theorem scullPInit_fails (hnr : 1 ≤ nr) (hd : d.scullPDevices = 0)
    (h : k.region = none ∨ k.kmalloc = 0) :
    ∃ devno, scullPInit nr k d = (0, { d with scullPDevno := devno }) := by
  unfold scullPInit
  cases hregion : k.region with
  | none => exact ⟨d.scullPDevno, rfl⟩
  | some first =>
    have hk : k.kmalloc = 0 := h.resolve_left (by simp [hregion])
    have hback : (d.reg.register (numbers nr first)).unregister (numbers nr first) = d.reg :=
      Registry.unregister_register (Nat.ne_of_gt hnr)
    refine ⟨first, ?_⟩
    dsimp only
    rw [if_pos hk, hback, hk, ← hd]

theorem made_insmod {first : ℕ} (hfree : g.Free (numbers nr first)) (hreg : d.reg = g)
    (hk : k.kmalloc ≠ 0) (hregion : k.region = some first) :
    Made N nr H g { (scullPInit nr k d).2 with loaded := true } := by
  rw [scullPInit_eq hk hregion, hreg]
  refine ⟨rfl, hfree, Registry.regions_addEach, fun n => Registry.cdev_addEach.trans ?_, fun i hi => ?_,
    fun i hi h _ => ?_⟩
  · refine if_congr ?_ rfl rfl
    show _ ↔ (first ≤ n ∧ n < first + nr) ∧
      (if n - first ∈ List.range nr then k.added (n - first) else d.added (n - first)) = true
    constructor
    · rintro ⟨hle, hmem, hok⟩
      have hlt := List.mem_range.mp hmem
      exact ⟨⟨hle, by omega⟩, by rwa [if_pos hmem]⟩
    · rintro ⟨⟨hle, hlt⟩, hok⟩
      have hmem : n - first ∈ List.range nr := List.mem_range.mpr (by omega)
      exact ⟨hle, hmem, by rwa [if_pos hmem] at hok⟩
  · refine ⟨k.mem, ?_⟩
    show Reaches _ _ (if i ∈ List.range nr then start k.mem else d.dev i)
    rw [if_pos (List.mem_range.mpr hi)]
    exact Reaches.refl _
  · show ((if i ∈ List.range nr then start k.mem else d.dev i).file h).phase = .closed
    rw [if_pos (List.mem_range.mpr hi)]
    rfl

theorem inv_insmod (hnr : 1 ≤ nr) (h : Inv N nr H g d) (hd : d.scullPDevices = 0)
    (hfree : ∀ first ∈ k.region, g.Free (numbers nr first)) :
    Inv N nr H g { (scullPInit nr k d).2 with loaded := true } := by
  have hmemory := h.memory
  rw [hd] at hmemory
  by_cases hfail : k.region = none ∨ k.kmalloc = 0
  · obtain ⟨devno, heq⟩ := scullPInit_fails hnr hd hfail
    rw [heq]
    exact ⟨h.memory, h.absent, fun hne => absurd hd hne⟩
  · obtain ⟨hsome, hk⟩ := not_or.mp hfail
    obtain ⟨first, hregion⟩ := Option.ne_none_iff_exists'.mp hsome
    have hmade : Made N nr H g { (scullPInit nr k d).2 with loaded := true } :=
      made_insmod (hfree first hregion) (h.absent hd) hk hregion
    rw [scullPInit_eq hk hregion] at hmade ⊢
    refine ⟨fun p hp => ?_, fun hzero => absurd hzero hk, fun _ => hmade⟩
    have hbal := hmemory p hp
    rw [if_neg hp.symm] at hbal
    show (k.kmalloc :: d.allocated).count p = d.freed.count p + if k.kmalloc = p then 1 else 0
    rw [List.count_cons, hbal]
    simp

/-! ### Unloading -/

/-- The loop of `scull_p_cleanup` over some of the devices. -/
theorem cleanupLoop_eq (h : ∀ i ∈ l, Owned N (d.dev i)) : ∃ allocated freed,
    l.foldl cleanupDevice d = { d with
      reg := d.reg.delEach d.scullPDevno l, allocated := allocated, freed := freed } ∧
    ∀ p, p ≠ 0 → allocated.count p + d.freed.count p = freed.count p + d.allocated.count p := by
  induction l generalizing d with
  | nil => exact ⟨d.allocated, d.freed, rfl, fun p _ => Nat.add_comm ..⟩
  | cons i l ih =>
    have hi := h i List.mem_cons_self
    obtain ⟨allocated, freed, heq, hcount⟩ := ih (d := cleanupDevice d i) fun j hj =>
      h j (List.mem_cons_of_mem i hj)
    refine ⟨allocated, freed, heq, fun p hp => ?_⟩
    have hbal := hi.balance p hp
    have hrest := hcount p hp
    simp only [cleanupDevice, List.count_append, List.count_cons, beq_iff_eq] at hrest
    omega

/-- When the devices are deleted, the registry is as before but for the numbers. -/
theorem Made.delEach (hg : g.Sound) (h : Made N nr H g d) :
    d.reg.delEach d.scullPDevno (List.range nr) = g.register (numbers nr d.scullPDevno) := by
  refine Registry.ext (Registry.regions_delEach.trans h.regions) (funext fun n => ?_)
  rw [Registry.cdev_delEach]
  by_cases hn : (numbers nr d.scullPDevno).Has n
  · obtain ⟨hle, hlt⟩ := hn
    have hlt' : n - d.scullPDevno < nr := Nat.sub_lt_left_of_lt_add hle hlt
    rw [if_pos ⟨hle, List.mem_range.mpr hlt'⟩]
    exact (hg.cdev_of_free h.free ⟨hle, hlt⟩).symm
  · rw [if_neg]
    · rw [h.found, if_neg fun hhas => hn hhas.1]
      rfl
    · rintro ⟨hle, hmem⟩
      exact hn ⟨hle, (Nat.sub_lt_iff_lt_add' hle).mp (List.mem_range.mp hmem)⟩

theorem inv_rmmod (hN : 1 ≤ N) (hnr : 1 ≤ nr) (hg : g.Sound) (h : Inv N nr H g d) :
    Inv N nr H g { scullPCleanup nr d with loaded := false } ∧
      (scullPCleanup nr d).reg = g ∧ (scullPCleanup nr d).scullPDevices = 0 := by
  unfold scullPCleanup
  by_cases hd : d.scullPDevices = 0
  · rw [if_pos hd]
    exact ⟨⟨h.memory, h.absent, fun hne => absurd hd hne⟩, h.absent hd, hd⟩
  · obtain ⟨allocated, freed, heq, hcount⟩ := cleanupLoop_eq (l := List.range nr) (d := d)
      fun i hi => h.owned hN hd i (List.mem_range.mp hi)
    have hm := h.made hd
    have hback : (d.reg.delEach d.scullPDevno (List.range nr)).unregister
        (numbers nr d.scullPDevno) = g := by
      rw [hm.delEach hg]
      exact Registry.unregister_register (Nat.ne_of_gt hnr)
    rw [if_neg hd, heq]
    dsimp only
    rw [hback]
    refine ⟨⟨fun p hp => ?_, fun _ => rfl, fun hne => absurd rfl hne⟩, rfl, rfl⟩
    have hbal := h.memory p hp
    have hloop := hcount p hp
    show allocated.count p = (d.scullPDevices :: freed).count p + if (0 : ℤ) = p then 1 else 0
    rw [List.count_cons, if_neg hp.symm]
    simp only [beq_iff_eq]
    omega

/-- The buffers are gone when the files are closed. -/
theorem Made.nothingLeft (hN : 1 ≤ N) (h : Made N nr H g d) {i : ℕ} (hi : i < nr)
    (hidle : Idle T H (d.dev i)) : (d.dev i).dev.buffer = 0 := by
  by_contra hne
  obtain ⟨f, hf⟩ := (owned_of_reaches hN (h.reached i hi)).user hne
  have hclosed : ((d.dev i).file f).phase = .closed := by
    by_cases hlt : f < H
    · exact hidle.2 f hlt
    · exact h.beyond i hi f (not_lt.mp hlt)
  rcases hf with hf | hf <;> · rw [hclosed] at hf; cases hf

/-! ### Every step -/

theorem inv_device (hN : 1 ≤ N) {i : ℕ} {a : System.Act} (h : Inv N nr H g d)
    (hd : d.scullPDevices ≠ 0) (hi : i < nr) (hw : Within T H a)
    (hs : System.step N (d.dev i) a = some s) :
    Inv N nr H g { d with dev := Function.update d.dev i s } := by
  have hm := h.made hd
  obtain ⟨mem, hreached⟩ := hm.reached i hi
  refine ⟨h.memory, h.absent, fun _ => ⟨hm.loaded, hm.free, hm.regions, hm.found,
    fun j hj => ?_, fun j hj => ?_⟩⟩
  · show ∃ mem, Reaches _ _ (Function.update d.dev i s j)
    by_cases hji : j = i
    · subst hji
      rw [Function.update_self]
      exact ⟨mem, hreached.trans (Reaches.single hs)⟩
    · rw [Function.update_of_ne hji]
      exact hm.reached j hj
  · show ∀ h, H ≤ h → ((Function.update d.dev i s j).file h).phase = .closed
    by_cases hji : j = i
    · subst hji
      rw [Function.update_self]
      exact beyond_step (owned_of_reaches hN ⟨mem, hreached⟩).inv.books hw (hm.beyond j hj) hs
    · rw [Function.update_of_ne hji]
      exact hm.beyond j hj

theorem inv_step (hN : 1 ≤ N) (hnr : 1 ≤ nr) (hg : g.Sound) {a : Act}
    (h : Inv N nr H g d ∧ (d.loaded = false → d.scullPDevices = 0))
    (hs : step N nr T H d a = some d') :
    Inv N nr H g d' ∧ (d'.loaded = false → d'.scullPDevices = 0) := by
  obtain ⟨h, hunloaded⟩ := h
  cases a with
  | insmod k =>
    simp only [step] at hs
    split_ifs at hs with hc
    obtain rfl := Option.some.inj hs
    have hzero := hunloaded hc.1
    refine ⟨inv_insmod hnr ⟨?_, fun _ => h.absent hzero, fun hne => absurd rfl hne⟩ rfl ?_, nofun⟩
    · have := h.memory
      rwa [hzero] at this
    · rw [← h.absent hzero]
      exact hc.2
  | rmmod =>
    simp only [step] at hs
    split_ifs at hs with hc
    obtain rfl := Option.some.inj hs
    obtain ⟨hinv, -, hzero⟩ := inv_rmmod hN hnr hg h
    exact ⟨hinv, fun _ => hzero⟩
  | device i a =>
    simp only [step] at hs
    split_ifs at hs with hc
    obtain ⟨s, hsys, rfl⟩ := Option.map_eq_some_iff.mp hs
    obtain ⟨hd, hi, hw, -⟩ := hc
    exact ⟨inv_device hN h hd hi hw hsys, hunloaded⟩

theorem Inv.kept (hN : 1 ≤ N) (h : Inv N nr H g d) (hunloaded : d.loaded = false → d.scullPDevices = 0) :
    Kept N nr g d := by
  refine ⟨fun hl => ⟨h.absent (hunloaded hl), hunloaded hl⟩, fun p hp => h.total hN hp, ?_,
    fun hd => (h.made hd).free, fun n => ?_, fun hd => (h.made hd).reached⟩
  · split_ifs with hd
    · rw [h.absent hd]
    · exact (h.made hd).regions
  · by_cases hd : d.scullPDevices = 0
    · rw [if_neg fun hne => hne.1 hd, h.absent hd]
    · rw [(h.made hd).found]
      exact if_congr (by simp [hd]) rfl rfl

/-- **The life of the module**, in every run and every step of it. -/
theorem driver_kept (hN : 1 ≤ N) (hnr : 1 ≤ nr) (T H : ℕ) (hg : g.Sound) (acts : List Act) :
    Always (step N nr T H) (Kept N nr g) (unloaded g) acts ∧
      Meets (step N nr T H) (NothingLeft nr) (unloaded g) acts := by
  have hmemory : ∀ p : ℤ, p ≠ 0 → ([] : List ℤ).count p =
      ([] : List ℤ).count p + if (0 : ℤ) = p then 1 else 0 := fun p hp => by
    rw [if_neg hp.symm, Nat.add_zero]
  have hstart : Inv N nr H g (unloaded g) := ⟨hmemory, fun _ => rfl, fun hne => absurd rfl hne⟩
  have hrun : Always (step N nr T H) (fun d => Inv N nr H g d ∧ (d.loaded = false → d.scullPDevices = 0))
      (unloaded g) acts := always_of_step (fun _ _ _ h hs => inv_step hN hnr hg h hs)
    ⟨hstart, fun _ => rfl⟩ acts
  refine ⟨hrun.mono fun _ h => h.1.kept hN h.2, fun pre a hpre d hd hsome => ?_⟩
  cases a with
  | rmmod =>
    intro hne i hi
    have hinv := (hrun pre ((List.prefix_append pre [_]).trans hpre) d hd).1
    simp only [step] at hsome
    split_ifs at hsome with hc
    · exact (hinv.made hne).nothingLeft hN hi (hc.2 hne i hi)
    · cases hsome
  | _ => trivial

/-- Another driver has the numbers 0 to 3, and a device. -/
def others : Registry := ⟨[⟨0, 4⟩], fun n => if n = 1 then some ⟨7, 0⟩ else none⟩

theorem sound_others : others.Sound := by
  intro n hn
  have h1 : n = 1 := by
    by_contra hne
    rw [show others.cdev n = none from if_neg hne] at hn
    cases hn
  subst h1
  exact ⟨⟨0, 4⟩, List.mem_cons_self, by decide, by decide⟩

/-- The answers to a load of two devices, of which only the first one is added. -/
def answers : Load := ⟨some 4, 100, fun i => i = 0, fun _ => 0⟩

/-- The first step of a call gets the memory at 200. -/
def go : Act := .device 0 (.go 0 ⟨200, fun _ => 0, none⟩)

/-- The module is loaded, a file is opened and released, and the module is unloaded. -/
def round : List Act :=
  [.insmod answers, .device 0 (.callOpen 0 0 ⟨true, false, false⟩), go, go, go,
    .device 0 (.callRelease 0 0), go, go, go, .rmmod]

theorem driver_kept_round :
    (∃ d, run (step 1 2 1 1) (unloaded others) (round.take 1) = some d ∧
      d.reg.regions = [⟨4, 2⟩, ⟨0, 4⟩] ∧ d.reg.cdev 4 = some ⟨100, 0⟩ ∧ d.reg.cdev 5 = none) ∧
    ∃ d, run (step 1 2 1 1) (unloaded others) round = some d ∧
      d.freed = [100, 0, 0, 200] ∧ d.reg = others := by
  have hload : run (step 1 2 1 1) (unloaded others) (round.take 1) = some _ := rfl
  have hrun : run (step 1 2 1 1) (unloaded others) round = some _ := rfl
  have hone : (1 : ℤ) ≤ 1 := le_rfl
  have htwo : 1 ≤ 2 := (by decide)
  have hkept := driver_kept hone htwo 1 1 sound_others round
  have hloaded := hkept.1 (round.take 1) (List.take_prefix 1 round) _ hload
  exact ⟨⟨_, hload, hloaded.taken, hloaded.found 4, hloaded.found 5⟩, _, hrun, rfl,
    ((hkept.1.last hrun).unloaded rfl).1⟩

end LinuxHomework.Pipe.Driver
