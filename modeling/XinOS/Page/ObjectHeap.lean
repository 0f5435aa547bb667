import XinOS.Page.Metadata

/-!
# The heap of kernel objects

The kernel allocates only `struct taskInfo` and `struct timer`.  On RV64 both
take a multiple of ten blocks, so the runs of blocks in use always consist of
whole units of ten, and a run that `_try_malloc` accepts starts at a unit.  Its
last block is then free although `_try_malloc` does not test it.
-/

namespace XinOS.Page

open XinOS.Foundation

/-- `sizeof(struct taskInfo)` on RV64: four 4-byte fields, a pointer and 32
registers. -/
def taskInfoSize : Nat := 4 * 4 + 8 + 32 * 8

/-- `sizeof(struct timer)` on RV64: five 8-byte fields. -/
def timerSize : Nat := 5 * 8

def InUnits (h : Heap) (u : Nat) (live : List Allocation) : Prop :=
  ∀ a ∈ live, usesBlocks a.size = true →
    (a.blocks h).lo % u = 0 ∧ (a.blocks h).hi % u = 0

section Units

variable {h : Heap} {s : HeapState} {u k n i : Nat}

theorem HeapInv.unit_free (hi : HeapInv h s) (hunits : InUnits h u s.live)
    (hu : 0 < u) (hmal : blockPage h s.live k = true) {j j' : Nat}
    (hj : j < blockCount) (hj' : j' < blockCount) (hsame : j / u = j' / u)
    (hfree : isBlockFree s.mem (h.blockStart k + j) = true) :
    isBlockFree s.mem (h.blockStart k + j') = true := by
  have htable := hi.blocks k hmal
  rw [htable.isBlockFree_iff hj] at hfree
  rw [htable.isBlockFree_iff hj']
  rintro J ⟨a, ha, hau, hak, rfl⟩ hjJ
  obtain ⟨hlo, hhi⟩ := hunits a ha hau
  refine hfree _ ⟨a, ha, hau, hak, rfl⟩ (Span.mem_iff.mpr ?_)
  obtain ⟨hjlo, hjhi⟩ := Span.mem_iff.mp hjJ
  obtain ⟨c, hc⟩ := Nat.dvd_of_mod_eq_zero hlo
  obtain ⟨d, hd⟩ := Nat.dvd_of_mod_eq_zero hhi
  rw [hc] at hjlo ⊢
  rw [hd] at hjhi ⊢
  have hclo : c ≤ j' / u := (Nat.le_div_iff_mul_le hu).mpr (by rwa [Nat.mul_comm])
  have hdhi : j' / u < d := (Nat.div_lt_iff_lt_mul hu).mpr (by rwa [Nat.mul_comm])
  rw [← hsame] at hclo hdhi
  constructor
  · rw [Nat.mul_comm]
    exact (Nat.le_div_iff_mul_le hu).mp hclo
  · rw [Nat.mul_comm]
    exact (Nat.div_lt_iff_lt_mul hu).mp hdhi

/-- The first run of whole units that `_try_malloc` accepts starts at a unit. -/
theorem HeapInv.firstFit_aligned (hi : HeapInv h s)
    (hunits : InUnits h u s.live) (hu : 0 < u)
    (hmal : blockPage h s.live k = true) (hn : 1 ≤ n)
    (hfit : FirstFit s.mem (h.blockStart k) n i) : i % u = 0 := by
  by_contra hne
  have hin := hfit.1.1
  have hdiv := Nat.div_add_mod i u
  have hmod := Nat.mod_lt i hu
  -- the unit of block `i` is free, so the run could start with it
  refine hfit.2 (u * (i / u)) (by omega) (accepts_of_free hn (by omega) ?_)
  intro j hj hjn
  by_cases hji : j < i
  · obtain ⟨r, hr⟩ := Nat.exists_eq_add_of_le hj
    have hsame : i / u = j / u := by
      rw [hr, Nat.mul_add_div hu, Nat.div_eq_of_lt (by omega : r < u),
        Nat.add_zero]
    exact hi.unit_free hunits hu hmal (by omega) (by omega) hsame
      (hfit.1.isBlockFree (le_refl i) (.inl rfl))
  · exact hfit.1.isBlockFree (by omega) (.inr (by omega))

theorem HeapInv.endFree_of_units (hi : HeapInv h s) (hunits : InUnits h u s.live)
    (hu : 2 ≤ u) {size : Nat} (hpos : 1 ≤ size)
    (hsize : blockTotal size % u = 0) : EndFree h s.mem size := by
  intro _ k hk _ hmal i hfit
  have hmal' := (hi.isMalloced_iff hk).mp hmal
  have htotal := blockTotal_pos hpos
  have haligned := hi.firstFit_aligned hunits (by omega) hmal' htotal hfit
  have hin := hfit.1.1
  have hle : u ≤ blockTotal size :=
    Nat.le_of_dvd htotal (Nat.dvd_of_mod_eq_zero hsize)
  obtain ⟨c, hc⟩ : u ∣ i + blockTotal size := Nat.dvd_add
    (Nat.dvd_of_mod_eq_zero haligned) (Nat.dvd_of_mod_eq_zero hsize)
  have hcpos : 0 < c := Nat.pos_of_mul_pos_left (a := u) (by omega)
  obtain ⟨d, rfl⟩ : ∃ d, c = d + 1 := ⟨c - 1, by omega⟩
  rw [Nat.mul_add, Nat.mul_one] at hc
  have htested := hfit.1.isBlockFree (j := i + blockTotal size - 2) (by omega)
    (.inr (by omega))
  rw [show h.blockStart k + i + blockTotal size - 1 =
    h.blockStart k + (i + blockTotal size - 1) by omega]
  refine hi.unit_free hunits (by omega) hmal' (by omega) (by omega) ?_ htested
  rw [show i + blockTotal size - 2 = u - 2 + u * d by omega,
    show i + blockTotal size - 1 = u - 1 + u * d by omega,
    Nat.add_mul_div_left _ _ (by omega), Nat.add_mul_div_left _ _ (by omega),
    Nat.div_eq_of_lt (by omega), Nat.div_eq_of_lt (by omega)]

theorem HeapInv.malloc_inUnits (hi : HeapInv h s) (hunits : InUnits h u s.live)
    (hu : 0 < u) {size p : Nat} {m : Memory} (hpos : 1 ≤ size)
    (hsize : size ≤ allocableSize) (htotal : blockTotal size % u = 0)
    (heq : Page.malloc h size s.mem = (some p, m)) :
    InUnits h u (⟨p, size⟩ :: s.live) := by
  have hone := blockTotal_pos hpos
  have hplace : ∃ k < h.numPages, ∃ i, p = h.base k + i * mallocSize ∧
      i % u = 0 ∧ i + blockTotal size ≤ blockCount := by
    rw [Page.malloc, if_neg (by omega), if_pos hsize] at heq
    rcases mallocBlocks_cases h s.mem hpos hsize h.numPages 0
        (by omega) with
      ⟨k, -, hk, -, hserved⟩ | ⟨hnone, -⟩
    · rw [Nat.zero_add] at hk
      rw [heq] at hserved
      rcases hserved with ⟨hmal, i, hfit, hr⟩ | ⟨-, -, hr⟩
      · cases hr
        exact ⟨k, hk, i, rfl, hi.firstFit_aligned hunits hu
          ((hi.isMalloced_iff hk).mp hmal) hone hfit, hfit.1.1⟩
      · cases hr
        exact ⟨k, hk, 0, by simp, Nat.zero_mod u,
          by rw [Nat.zero_add]; exact blockTotal_le hsize⟩
    · rw [heq] at hnone
      cases hnone
  obtain ⟨k, hk, i, rfl, hiu, hfits⟩ := hplace
  have hblocks := (Allocation.ofBlocks h hk hpos hsize hfits).2.2.2.1
  rintro a (_ | ⟨_, ha⟩) hau
  · rw [hblocks]
    refine ⟨hiu, ?_⟩
    rw [Nat.add_mod, hiu, htotal]
    simp
  · exact hunits a ha hau

end Units

/-! ## Runs that allocate kernel objects -/

def ObjectOp : HeapState → HeapOp → Prop := fun _ op =>
  ∀ size, op = .malloc size → size = taskInfoSize ∨ size = timerSize

structure ObjectInv (h : Heap) (s : HeapState) : Prop where
  heap : HeapInv h s
  units : InUnits h 10 s.live
  objects : ∀ a ∈ s.live, a.size = taskInfoSize ∨ a.size = timerSize

theorem object_size {size : Nat} (hsize : size = taskInfoSize ∨ size = timerSize) :
    1 ≤ size ∧ size ≤ allocableSize ∧ blockTotal size % 10 = 0 ∧
      CountsPages size ∧ hasTail size = false ∧
      blockTotal size * mallocSize = size := by
  rcases hsize with rfl | rfl <;> decide

section Objects

variable {h : Heap} {s s' : HeapState}

theorem ObjectInv.step (hfit : h.TableFits) (hi : ObjectInv h s) {op : HeapOp}
    (hop : ObjectOp s op) (hstep : heapStep h s op = some s') :
    ObjectInv h s' := by
  have hok : KeepsLedger h s op := by
    cases op with
    | malloc size =>
        obtain ⟨hpos, -, htotal, -⟩ := object_size (hop size rfl)
        exact hi.heap.endFree_of_units hi.units (by omega) hpos htotal
    | free p =>
        intro a ha _
        exact (object_size (hi.objects a ha)).2.2.2.2.1
  obtain ⟨hheap, hchange⟩ := hi.heap.step hfit hok hstep
  rcases hchange with ⟨p, size, rfl, hlive⟩ | ⟨-, -, rfl⟩ | ⟨a, ha, -, hlive⟩
  · obtain ⟨hpos, hsize, htotal, -⟩ := object_size (hop size rfl)
    refine ⟨hheap, ?_, ?_⟩
    · obtain ⟨m, heq⟩ : ∃ m, malloc h size s.mem = (some p, m) := by
        simp only [heapStep] at hstep
        split_ifs at hstep
        split at hstep
        · next q m heq =>
            cases hstep
            have hp : (⟨q, size⟩ : Allocation) = ⟨p, size⟩ :=
              (List.cons.inj hlive).1
            cases hp
            exact ⟨m, heq⟩
        · cases hstep
          exact absurd (congrArg List.length hlive) (by simp)
      rw [hlive]
      exact hi.heap.malloc_inUnits hi.units (by omega) hpos hsize htotal heq
    · rw [hlive]
      rintro a (_ | ⟨_, ha⟩)
      · exact hop size rfl
      · exact hi.objects a ha
  · exact hi
  · refine ⟨hheap, ?_, ?_⟩ <;> rw [hlive]
    · exact fun c hc => hi.units c (List.mem_of_mem_erase hc)
    · exact fun c hc => hi.objects c (List.mem_of_mem_erase hc)

theorem ObjectInv.endOffset_ne (hi : ObjectInv h s) {a : Allocation}
    (ha : a ∈ s.live) : a.endOffset h ≠ allocableSize := by
  obtain ⟨hpos, hsize, -, -, -, hround⟩ := object_size (hi.objects a ha)
  have hs := hi.heap.shaped a ha
  obtain ⟨hu, hmod⟩ := usesBlocks_of_small hpos hsize
  have hfits := hs.fits hu
  have hunit := (hi.units a ha hu).2
  have haddr := hs.aligned
  have hblk : (a.blocks h).hi = (a.blocks h).lo + blockTotal (a.size % pageSize) :=
    rfl
  rw [hmod] at hblk
  unfold Allocation.endOffset
  unfold Heap.base pageSize mallocSize allocableSize blockCount at *
  omega

end Objects

/--
In every state that requests for `struct taskInfo` and `struct timer` and frees
of them reach: the objects are disjoint and miss every table, the usage counters
are right, the page table is clear once nothing is live, and a further free
returns.
-/
theorem kernel_objects_safe (b : Board) (m₀ : Memory) (s : HeapState)
    (hrun : Reaches (stepRel (heapStep b.heap)) ObjectOp
      (heapInit b.toRegion m₀) s) :
    (s.live.Pairwise fun x y => x.range.Apart y.range) ∧
      (∀ a ∈ s.live, ∀ x ∈ a.range, ¬b.heap.Metadata s.mem x) ∧
      BooksRight b.heap s ∧
      ∀ a ∈ s.live, ∃ s', heapStep b.heap s (.free a.addr) = some s' := by
  have hi : ObjectInv b.heap s := hrun.invariant (P := ObjectInv b.heap)
    ⟨heapInv_init b.toRegion m₀, by simp [InUnits, heapInit], by simp [heapInit]⟩
    fun _ _ _ hi hok hstep => hi.step b.tableFits hok hstep
  have hcount : ∀ a ∈ s.live, CountsPages a.size :=
    fun a ha => (object_size (hi.objects a ha)).2.2.2.1
  refine ⟨hi.heap.ranges_apart hcount, fun a ha => ?_, hi.heap.booksRight, ?_⟩
  · exact Page.outOfReach_iff.mp
      ((hi.heap.outOfReach_iff b.tableFits ha (hcount a ha)).mpr
        (hi.endOffset_ne ha))
  · exact fun a ha => hi.heap.free_returns b.tableFits ha
      (object_size (hi.objects a ha)).2.2.2.2.1

theorem kernel_objects_safe_of_two :
    ∃ s : HeapState, s.live = [⟨0x80008028, 280⟩, ⟨0x80008000, 40⟩] ∧
      (s.live.Pairwise fun x y => x.range.Apart y.range) ∧
      BooksRight twoPages.heap s := by
  have hlive : (exec (heapStep twoPages.heap)
      (heapInit twoPages.toRegion fun _ => 0) [.malloc 40, .malloc 280]).map
        HeapState.live = some [⟨0x80008028, 280⟩, ⟨0x80008000, 40⟩] := by
    decide +kernel
  obtain ⟨s, hexec, hs⟩ := exists_state_of_live hlive
  obtain ⟨hapart, -, hbooks, -⟩ := kernel_objects_safe twoPages (fun _ => 0) s
    (Reaches.exec .refl (fun op hop t size heq => by
      subst heq
      have hsize : size = 40 ∨ size = 280 := by simpa using hop
      exact hsize.symm) hexec)
  exact ⟨s, hs, hapart, hbooks⟩

end XinOS.Page
