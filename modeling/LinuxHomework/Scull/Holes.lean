import LinuxHomework.Scull.Progress

/-! # Reads up to the end of the file

A read before the end of the file should return a byte at least. It returns nothing where the
quantum of the position does not exist: holes are not filled (`GoesOn.hole`). Where it exists the
read goes on, and repeated reads come to the end of the file.

* `reads_go_on`: in the runs whose writes keep off the list.
* `not_reads_go_on`: a byte written at offset 5 leaves a hole at offset 0, if quanta have four
  bytes. -/

namespace LinuxHomework.Scull.Holes

open LinuxHomework.Lib.CInt LinuxHomework.Lib.Memory LinuxHomework.Lib.Outcome
open LinuxHomework.Lib.Runs LinuxHomework.Scull.Device LinuxHomework.Scull.Layout
open LinuxHomework.Scull.Calls LinuxHomework.Scull.Store LinuxHomework.Scull.Tree
open LinuxHomework.Scull.Copy LinuxHomework.Scull.Trim LinuxHomework.Scull.Inside
open LinuxHomework.Scull.Growth LinuxHomework.Scull.Progress

/-- A read of at most `count` bytes at the position `p`, before the end of the file, returns one
byte at least. -/
structure Returns (s : ScullDev) (count : ℕ) (p : ℤ) (r : Reply) : Prop where
  some_byte : 1 ≤ r.retval
  at_most : r.retval ≤ min (count : ℤ) (s.size - p)
  fPos : r.fPos = p + r.retval

/-- **No read before the end of the file returns nothing.** -/
def NoEarlyEnd (s : Sys) : Act → Prop
  | .read f count k => Willing k → 1 ≤ count.toNat → ∀ p ∈ s.fPos f, 0 ≤ p → p < s.dev.size →
      ∃ r, scullRead k (before s k) count.toNat p = .ok r ∧ Returns s.dev count.toNat p r.1
  | .open .. => True
  | .write .. => True
  | .llseek .. => True

/-- The bytes that a read takes, from `8 * p` behind the first item on, are mapped. -/
def Mappable (s : ScullDev) (count : ℕ) (p : ℤ) : Prop :=
  Mapped s.mem (copyAddr s p) (due s (spot s p) count p s.size).toNat

instance (s : ScullDev) (count : ℕ) (p : ℤ) : Decidable (Mappable s count p) :=
  inferInstanceAs (Decidable (Mapped ..))

/-- What a read comes to: nothing in a hole, a byte at least elsewhere. -/
structure GoesOn (s : ScullDev) (count : ℕ) (p : ℤ) (r : Reply) : Prop where
  hole : cell s p = none → r.retval = 0 ∧ r.fPos = p
  stored : cell s p ≠ none → Returns s count p r

/-- **Reads go on** but for holes, if they take mapped bytes. -/
def ReadGoesOn (s : Sys) : Act → Prop
  | .read f count k => Willing k → 1 ≤ count.toNat → ∀ p ∈ s.fPos f, 0 ≤ p → p < s.dev.size →
      (cell s.dev p ≠ none → Mappable s.dev count.toNat p) →
        ∃ r, scullRead k (before s k) count.toNat p = .ok r ∧ GoesOn s.dev count.toNat p r.1
  | .open .. => True
  | .write .. => True
  | .llseek .. => True

/-- A loop of reads that meets no hole. -/
def Rereads (P : Params) (f : File) : Sys → List Act → Prop
  | _, [] => True
  | s, act :: acts => ∃ count k p s', act = .read f count k ∧ Willing k ∧ 1 ≤ count.toNat ∧
      s.fPos f = some p ∧ 0 ≤ p ∧ p < s.dev.size ∧ cell s.dev p ≠ none ∧
        Mappable s.dev count.toNat p ∧ step P s act = some s' ∧ Rereads P f s' acts

variable {P : Params} {s t : ScullDev} {tree tree' : List Item} {k : Kernel} {count : ℕ} {p : ℤ}
  {pl : Place}

/-! ### The read -/

/-- **A read** before the end of the file. -/
theorem read_goes_on (h : Rep s tree) (hfit : s.quantum * s.qset < 2 ^ 31)
    (hcount : 1 ≤ count ∧ count < 2 ^ 32) (hk : k.taken = true ∧ k.fault = none)
    (hnone : none ∉ s.answers) (hp : 0 ≤ p ∧ p < s.size) (hsize : s.size ≤ 16)
    (hmap : cell s p ≠ none → Mappable s count p) :
    Safe Unanswered (scullRead k s count p) fun r => r.2.size = s.size ∧ GoesOn s count p r.1 := by
  have hpl : place s.quantum s.qset p = .ok (spot s p) :=
    place_eq h.quantum.1 h.qset.1 hfit hp.1 (by omega)
  obtain ⟨hitem, hs, hq⟩ := place_within h.quantum.1 h.qset.1 hfit (by omega) hpl
  have hdue := readLen_eq hq.2 h.quantum.2 hq.1 (by omega) hp.2 hcount.2
  rw [scullRead_eq hk.1 hp.2 hpl]
  refine (readFind_tree h ⟨by omega, fun _ => hs⟩).bind ?_
  rintro ⟨w, t⟩ ⟨tree', hfinds, -, hw⟩
  have hgrows := hfinds.grows
  obtain ⟨-, hw⟩ := hw hnone
  show Safe _ (if w = 0 then _ else readCopy k t _ p) _
  cases hin : quantumIn tree (spot s p).item.toNat (spot s p).sPos.toNat with
  | none =>
    have hcell : cell s p = none := by
      refine Option.eq_none_iff_forall_ne_some.mpr fun a ha => ?_
      obtain ⟨b, hb, -⟩ := (cell_eq_some_iff h hp.1).mp ha
      exact absurd (hin.symm.trans hb) (by simp)
    rw [if_pos (by rw [show w = _ from hw, hin]; rfl)]
    exact ⟨hgrows.size, fun _ => ⟨rfl, rfl⟩, fun hne => absurd hcell hne⟩
  | some b =>
    have hb0 : b.addr ≠ 0 := (h.sound b (h.mem_live (quantum_block h hin).1)).1
    have hcell : cell s p ≠ none := by
      rw [(cell_eq_some_iff h hp.1).mpr ⟨b, hin, rfl⟩]
      simp
    have hdata : t.data = s.data := by
      refine hgrows.data fun h0 => ?_
      rw [h.nil_iff.mp h0] at hin
      exact absurd hin (by simp [quantumIn])
    have hmap := hmap hcell
    unfold Mappable at hmap
    rw [if_neg (by rw [show w = _ from hw, hin]; exact hb0),
      show ({ s with quantum := t.quantum } : ScullDev) = s by rw [hgrows.quantum]]
    generalize readLen s (spot s p) count p = n at hdue
    rw [← hdue, Int.toNat_natCast] at hmap
    have hn : 1 ≤ n ∧ n ≤ count ∧ p + n ≤ s.size := by
      unfold due at hdue
      omega
    have hmapt : Mapped t.mem (copyAddr t p) n := by
      unfold copyAddr at hmap ⊢
      rw [hdata]
      exact hmap.mono_mem hgrows.mapped
    have hwrap : wrap64 (p + n) = p + n := wrap64_of_lt (by omega) (by omega)
    rw [readCopy_full hmapt (not_faults hk.2 n) (by omega), hwrap]
    have hone : (1 : ℤ) ≤ n := by omega
    have hle : (n : ℤ) ≤ min (count : ℤ) (s.size - p) := by omega
    exact ⟨hgrows.size, fun hnone => absurd hnone hcell, fun _ => ⟨hone, hle, rfl⟩⟩

/-! ### Runs -/

variable {σ σ' : Sys} {act : Act} {acts : List Act} {f : File}

/-- A read in a run whose writes keep off the list. -/
theorem read_small (hP : Params.Ok P) (h : Small P σ) {count : BitVec 32}
    (halive : σ.crashed = false) (hk : Willing k) (hcount : 1 ≤ count.toNat)
    (hp : 0 ≤ p ∧ p < σ.dev.size)
    (hmap : cell σ.dev p ≠ none → Mappable σ.dev count.toNat p) :
    Safe Unanswered (scullRead k (before σ k) count.toNat p) fun r =>
      r.2.size = σ.dev.size ∧ GoesOn σ.dev count.toNat p r.1 := by
  obtain ⟨⟨tree, htree⟩, -⟩ := h.1 halive
  have hgoes := read_goes_on (k := k) (htree.answers k.answers) (h.1.fits hP halive)
    ⟨hcount, count.isLt⟩ ⟨hk.1, hk.2.1⟩ hk.2.2 hp (h.2 halive) hmap
  refine hgoes.mono fun r ⟨hsize, hhole, hstored⟩ => ⟨hsize, hhole, fun hcell => ?_⟩
  obtain ⟨hone, hle, hpos⟩ := hstored hcell
  exact ⟨hone, hle, hpos⟩

/-- Every read in such a run goes on. -/
theorem readGoesOn_of_small (hP : Params.Ok P) (h : Small P σ) (hstep : step P σ act = some σ') :
    ReadGoesOn σ act := by
  cases act with
  | read f count k =>
    obtain ⟨halive, p, hf, hstep⟩ := step_read hstep
    intro hk hcount p' hp' h0 hlt hmap
    obtain rfl := Option.some.inj (hf.symm.trans hp')
    obtain ⟨r, ⟨hr, -, hgoes⟩, -⟩ :=
      of_conclude (read_small hP h halive hk hcount ⟨h0, hlt⟩ hmap).eq hstep
    exact ⟨r, hr, hgoes⟩
  | «open» f fFlags k => trivial
  | write f buf count k => trivial
  | llseek f off whence => trivial

/-- **Repeated reads** come nearer to the end of the file by a byte at least, and not beyond it. -/
theorem rereads_reach (hP : Params.Ok P) (h : Meets (step P) WriteOff σ acts) (hsmall : Small P σ)
    (hf : σ.fPos f = some p) (hp : 0 ≤ p ∧ p ≤ σ.dev.size) (hloop : Rereads P f σ acts)
    (hrun : run (step P) σ acts = some σ') :
    ∃ q, σ'.fPos f = some q ∧ p + acts.length ≤ q ∧ q ≤ σ.dev.size ∧
      σ'.dev.size = σ.dev.size := by
  induction acts generalizing σ p with
  | nil =>
    obtain rfl := Option.some.inj hrun
    exact ⟨p, hf, by simp, hp.2, rfl⟩
  | cons act acts ih =>
    obtain ⟨count, k, p', τ, rfl, hk, hcount, hf', h0, hlt, hcell, hmap, hτ, hrest⟩ := hloop
    obtain rfl := Option.some.inj (hf.symm.trans hf')
    obtain ⟨hoff, hmeets⟩ := meets_cons.mp h τ hτ
    rw [run_cons, hτ, Option.bind_some] at hrun
    have hsmallτ := small_step hP hsmall hoff hτ
    obtain ⟨halive, q, hq, hconclude⟩ := step_read hτ
    obtain rfl := Option.some.inj (hf.symm.trans hq)
    obtain ⟨r, ⟨hsize, hgoes⟩, hstate⟩ :=
      of_conclude (read_small hP hsmall halive hk hcount ⟨h0, hlt⟩ fun _ => hmap) hconclude
    obtain ⟨hone, hle, hpos⟩ := hgoes.stored hcell
    have hsizeτ : τ.dev.size = σ.dev.size := by rw [hstate]; exact hsize
    have hfτ : τ.fPos f = some (p + r.1.retval) := by
      rw [hstate]
      simp [hpos]
    obtain ⟨q', hq', hreach, hend, hsame⟩ := ih hmeets hsmallτ hfτ (by omega) hrest hrun
    refine ⟨q', hq', ?_, by omega, hsame.trans hsizeτ⟩
    rw [List.length_cons]
    push_cast
    omega

/-- **Reads go on up to the end of the file**, but for holes, in the runs whose writes keep off the
list. -/
theorem reads_go_on (hP : Params.Ok P) (mem : Mem) {acts : List Act}
    (h : Meets (step P) WriteOff (start P mem) acts) :
    Meets (step P) ReadGoesOn (start P mem) acts ∧
      ∀ (pre loop : List Act) (f : File) (s s' : Sys) (p : ℤ), acts = pre ++ loop →
        run (step P) (start P mem) pre = some s → run (step P) s loop = some s' →
          s.fPos f = some p → 0 ≤ p → p ≤ s.dev.size → Rereads P f s loop →
            ∃ q, s'.fPos f = some q ∧ p + loop.length ≤ q ∧ q ≤ s.dev.size ∧
              s'.dev.size = s.dev.size := by
  have hstep : ∀ σ act σ', Small P σ → WriteOff σ act → step P σ act = some σ' → Small P σ' :=
    fun _ _ _ hs hoff hstep => small_step hP hs hoff hstep
  refine ⟨meets_of_meets hstep (fun _ _ _ hs _ hstep => readGoesOn_of_small hP hs hstep)
    (small_start hP mem) h, ?_⟩
  rintro pre loop f s s' p rfl hpre hrun hf h0 hp hloop
  have hsmall : Small P s :=
    always_of_meets hstep (small_start hP mem) h pre (List.prefix_append pre loop) s hpre
  exact rereads_reach hP (h.rest hpre) hsmall hf ⟨h0, hp⟩ hloop hrun

/-- Quanta of four bytes, two to an item. -/
def smallQuanta : Params := ⟨4, 2⟩

/-- Two bytes are written at offset 4, and read one after the other. -/
def twoReads : List Act :=
  [.open 0 2 threeChunks, .llseek 0 4 0, .write 0 letters 2 threeChunks, .llseek 0 4 0,
    .read 0 1 threeChunks, .read 0 1 threeChunks]

theorem reads_go_on_twoReads :
    Meets (step smallQuanta) ReadGoesOn (start smallQuanta fun _ => some 0) twoReads ∧
      ∀ (pre loop : List Act) (f : File) (s s' : Sys) (p : ℤ), twoReads = pre ++ loop →
        run (step smallQuanta) (start smallQuanta fun _ => some 0) pre = some s →
          run (step smallQuanta) s loop = some s' → s.fPos f = some p → 0 ≤ p → p ≤ s.dev.size →
            Rereads smallQuanta f s loop → ∃ q, s'.fPos f = some q ∧ p + loop.length ≤ q ∧
              q ≤ s.dev.size ∧ s'.dev.size = s.dev.size :=
  reads_go_on ⟨by decide, by decide, by decide⟩ _ (by decide +kernel)

/-- The file is six bytes long, and the read at offset 0 returns nothing. -/
theorem not_reads_go_on : ¬ Meets (step smallQuanta) NoEarlyEnd (start smallQuanta fun _ => some 0)
    [.open 0 2 threeChunks, .llseek 0 5 0, .write 0 letters 1 threeChunks, .llseek 0 0 0,
      .read 0 1 threeChunks] := by
  intro h
  have hrun : (run (step smallQuanta) (start smallQuanta fun _ => some 0)
      [.open 0 2 threeChunks, .llseek 0 5 0, .write 0 letters 1 threeChunks, .llseek 0 0 0]).map
        (fun s => ((s.fPos 0, s.dev.size, (step smallQuanta s (.read 0 1 threeChunks)).isSome),
          (scullRead threeChunks (before s threeChunks) 1 0).toOption.map fun r => r.1.retval)) =
      some ((some 0, 6, true), some 0) := by decide +kernel
  obtain ⟨s, hs, hval⟩ := Option.map_eq_some_iff.mp hrun
  obtain ⟨hstate, hzero⟩ := Prod.mk.inj hval
  obtain ⟨hf, hrest⟩ := Prod.mk.inj hstate
  obtain ⟨hsize, hsome⟩ := Prod.mk.inj hrest
  have hread : NoEarlyEnd s (.read 0 1 threeChunks) :=
    h _ (.read 0 1 threeChunks) (List.prefix_refl _) s hs hsome
  obtain ⟨r, hr, hreturns⟩ := hread (by decide) (by decide) 0 hf le_rfl (by rw [hsize]; decide)
  rw [show (1 : ℕ) = (1 : BitVec 32).toNat from rfl, hr] at hzero
  have hnone : r.1.retval = 0 := Option.some.inj hzero
  have hone := hreturns.some_byte
  omega

end LinuxHomework.Scull.Holes
