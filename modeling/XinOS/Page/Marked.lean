import XinOS.Page.Programs

/-!
# Allocations and their marks

`Marked` says that the pages and blocks of an allocation are marked as taken and
that each of its runs begins with a first mark.  Where a run ends is left open, so
that other allocations may be cut off around it.  What is left of an allocation
when it is cut is marked again.
-/

namespace XinOS.Page

open XinOS.Foundation

def runBits (x : Byte) : Byte := x &&& (pageTaken ||| pageFirst ||| pageMalloc)

private theorem runBits_tests : ∀ x : Byte,
    (x &&& pageTaken == 0) = (runBits x &&& pageTaken == 0) ∧
    (x &&& pageFirst != 0) = (runBits x &&& pageFirst != 0) ∧
    (x &&& pageMalloc != 0) = (runBits x &&& pageMalloc != 0) := by
  decide

theorem runBits_eq : ∀ x : Byte, runBits (x ||| pageLast) = runBits x ∧
    runBits (flagBits x) = runBits x ∧
    runBits (flagBits x ||| blockLast) = runBits x := by
  decide

section Bits

variable {m m' : Memory} {x : Nat}

theorem pageTests_of_runBits (hx : runBits (m' x) = runBits (m x)) :
    isPageFree m' x = isPageFree m x ∧ isPageFirst m' x = isPageFirst m x ∧
      isMalloced m' x = isMalloced m x := by
  have htests := runBits_tests (m x)
  have htests' := runBits_tests (m' x)
  simp only [isPageFree, isPageFirst, isMalloced, htests.1, htests.2.1, htests.2.2,
    htests'.1, htests'.2.1, htests'.2.2, hx, and_self]

theorem blockTests_of_runBits (hx : runBits (m' x) = runBits (m x)) :
    isBlockFree m' x = isBlockFree m x ∧ isBlockFirst m' x = isBlockFirst m x :=
  ⟨(pageTests_of_runBits hx).1, (pageTests_of_runBits hx).2.1⟩

theorem runBits_of_flagBits (hx : flagBits (m' x) = flagBits (m x)) :
    runBits (m' x) = runBits (m x) := by
  rw [← (runBits_eq (m' x)).2.1, hx, (runBits_eq (m x)).2.1]

end Bits

def Allocation.whole (h : Heap) (a : Allocation) : Span :=
  ⟨h.pageOf a.addr, if usesBlocks a.size then a.lastPage h else (a.pages h).hi⟩

structure Marked (h : Heap) (m : Memory) (a : Allocation) : Prop where
  shaped : a.Shaped h
  page : ∀ k ∈ a.whole h, isPageFree m (h.desc k) = false ∧
    isMalloced m (h.desc k) = false
  pageFirst : (a.whole h).lo < (a.whole h).hi →
    isPageFirst m (h.desc (a.whole h).lo) = true
  malloced : usesBlocks a.size = true →
    isMalloced m (h.desc (a.lastPage h)) = true
  block : usesBlocks a.size = true → ∀ j ∈ a.blocks h,
    isBlockFree m (h.blockStart (a.lastPage h) + j) = false
  blockFirst : usesBlocks a.size = true →
    isBlockFirst m (h.blockStart (a.lastPage h) + (a.blocks h).lo) = true

/-! ## Where an allocation lies -/

section Geometry

variable {h : Heap} {a a' : Allocation} {k p : Nat}

theorem Allocation.Shaped.whole_le (hs : a.Shaped h) :
    (a.whole h).hi ≤ (a.pages h).hi := by
  have hlast := hs.lastPage_succ
  simp only [Allocation.whole]
  split_ifs
  · omega
  · exact le_refl _

theorem Allocation.Shaped.whole_subset (hs : a.Shaped h) (hk : k ∈ a.whole h) :
    k ∈ a.pages h := by
  rw [Span.mem_iff] at *
  exact ⟨hk.1, hk.2.trans_le hs.whole_le⟩

theorem Allocation.Shaped.pages_cases (hs : a.Shaped h) (hk : k ∈ a.pages h) :
    k ∈ a.whole h ∨ usesBlocks a.size = true ∧ k = a.lastPage h := by
  have hlast := hs.lastPage_succ
  rw [Span.mem_iff] at hk
  simp only [Allocation.whole, Span.mem_iff]
  split_ifs with hu
  · have hlo : (a.pages h).lo = h.pageOf a.addr := rfl
    by_cases hkl : k = a.lastPage h
    · exact .inr ⟨hu, hkl⟩
    · exact .inl ⟨hlo ▸ hk.1, by omega⟩
  · exact .inl hk

theorem Allocation.Shaped.addr_of_whole (hs : a.Shaped h) (hk : k ∈ a.whole h) :
    allocableSize < a.size ∧ a.addr = h.base (a.whole h).lo := by
  have hlarge : allocableSize < a.size := by
    by_contra hsmall
    obtain ⟨hu, -⟩ := usesBlocks_of_small hs.pos (by omega)
    rw [Span.mem_iff, Allocation.whole, if_pos hu,
      hs.small_lastPage (by omega)] at hk
    simp only at hk
    omega
  exact ⟨hlarge, hs.large_addr hlarge⟩

theorem Allocation.Shaped.held_of_whole (hs : a.Shaped h) (hk : k ∈ a.whole h)
    (hp : h.base k ≤ p) (hp' : p < h.base (k + 1)) : p ∈ a.held h := by
  have haddr := (hs.addr_of_whole hk).2
  obtain ⟨hlo, hhi⟩ := Span.mem_iff.mp hk
  have hheld := hs.held_hi
  refine Span.mem_iff.mpr ⟨?_, ?_⟩
  · change a.addr ≤ p
    rw [haddr]
    refine le_trans ?_ hp
    unfold Heap.base pageSize
    omega
  · refine lt_of_lt_of_le hp' ?_
    simp only [Allocation.whole] at hhi
    by_cases hu : usesBlocks a.size = true
    · rw [if_pos hu] at hhi
      refine le_trans ?_ hheld.1.le
      unfold Heap.base pageSize
      omega
    · rw [if_neg hu, ← hs.lastPage_succ] at hhi
      rw [hheld.2.2 (by simpa using hu)]
      unfold Heap.base pageSize
      omega

theorem Allocation.Shaped.held_of_blocks (hs : a.Shaped h)
    (hu : usesBlocks a.size = true) (hk : k ∈ a.blocks h)
    (hp : h.base (a.lastPage h) + k * mallocSize ≤ p)
    (hp' : p < h.base (a.lastPage h) + (k + 1) * mallocSize) : p ∈ a.held h := by
  have hle := hs.addr_le_blocks
  obtain ⟨hlo, hhi⟩ := Span.mem_iff.mp hk
  refine Span.mem_iff.mpr ⟨?_, ?_⟩
  · change a.addr ≤ p
    unfold mallocSize at *
    omega
  · simp only [Allocation.held, if_pos hu]
    unfold mallocSize at *
    omega

theorem Allocation.Shaped.page_cases_of_held (hs : a.Shaped h)
    (hp : p ∈ a.held h) :
    h.pageOf p ∈ a.whole h ∨ usesBlocks a.size = true ∧
      h.pageOf p = a.lastPage h ∧
      (p - h.base (a.lastPage h)) / mallocSize ∈ a.blocks h := by
  refine (hs.pages_cases (hs.pageOf_held hp)).imp_right fun ⟨hu, hk⟩ => ⟨hu, hk, ?_⟩
  obtain ⟨hlo, hhi⟩ := Span.mem_iff.mp hp
  have hlo' : a.addr ≤ p := hlo
  have hin := (h.base_pageOf_le (hs.inHeap.trans hlo')).1
  rw [hk] at hin
  simp only [Allocation.held, if_pos hu] at hhi
  rw [Span.mem_iff]
  unfold mallocSize at *
  refine ⟨?_, by omega⟩
  by_cases hsmall : a.size ≤ allocableSize
  · have haddr := hs.aligned
    rw [← hs.small_lastPage hsmall] at haddr
    unfold mallocSize at haddr
    omega
  · rw [hs.whole (by omega)]
    omega

end Geometry

/-! ## Changes that keep the marks -/

section Changes

variable {h : Heap} {m m' : Memory} {a c : Allocation} {k : Nat}

theorem Marked.congr (hm : Marked h m a)
    (hpage : ∀ k ∈ a.pages h, runBits (m' (h.desc k)) = runBits (m (h.desc k)))
    (hblock : usesBlocks a.size = true → ∀ j ∈ a.blocks h,
      runBits (m' (h.blockStart (a.lastPage h) + j)) =
        runBits (m (h.blockStart (a.lastPage h) + j))) : Marked h m' a where
  shaped := hm.shaped
  page k hk := by
    obtain ⟨htaken, -, hmal⟩ :=
      pageTests_of_runBits (hpage k (hm.shaped.whole_subset hk))
    rw [htaken, hmal]
    exact hm.page k hk
  pageFirst hlt := by
    have hlo : (a.whole h).lo ∈ a.whole h := ⟨le_refl _, hlt⟩
    rw [(pageTests_of_runBits (hpage _ (hm.shaped.whole_subset hlo))).2.1]
    exact hm.pageFirst hlt
  malloced hu := by
    rw [(pageTests_of_runBits (hpage _ hm.shaped.lastPage_mem)).2.2]
    exact hm.malloced hu
  block hu j hj := by
    rw [(blockTests_of_runBits (hblock hu j hj)).1]
    exact hm.block hu j hj
  blockFirst hu := by
    have hlo : (a.blocks h).lo ∈ a.blocks h :=
      ⟨le_refl _, Allocation.blocks_proper h hu⟩
    rw [(blockTests_of_runBits (hblock hu _ hlo)).2]
    exact hm.blockFirst hu

theorem Marked.lastPage_lt (hm : Marked h m a) : a.lastPage h < h.numPages :=
  lt_of_lt_of_le (Span.mem_iff.mp hm.shaped.lastPage_mem).2 hm.shaped.inside

theorem Marked.taken (hm : Marked h m a) (hs : TableSound h m)
    (hk : k ∈ a.pages h) : isPageFree m (h.desc k) = false := by
  rcases hm.shaped.pages_cases hk with hwhole | ⟨hu, rfl⟩
  · exact (hm.page k hwhole).1
  · exact (hs.malloced _ hm.lastPage_lt (hm.malloced hu)).1

theorem Marked.lastPage_of_malloced (hm : Marked h m a) (hk : k ∈ a.pages h)
    (hmal : isMalloced m (h.desc k) = true) :
    usesBlocks a.size = true ∧ k = a.lastPage h := by
  refine (hm.shaped.pages_cases hk).resolve_left fun hwhole => ?_
  rw [(hm.page k hwhole).2] at hmal
  contradiction

theorem Marked.granted (hm : Marked h m c) (hs : TableSound h m)
    (hfit : h.TableFits) (hend : EndFree h m a.size) (hg : Granted h m a m') :
    Marked h m' c := by
  have hcN := hm.shaped.inside
  cases hg with
  | @blocks k i size hk hmal hpos hsmall hbefore hfirst =>
      obtain ⟨hsame, hflags⟩ := takeBlocks_flags m (h.blockStart k) i
        (blockTotal size) (blockTotal_pos hpos) hfirst.1.1
      refine hm.congr (fun j hj => ?_) fun hu j hj => ?_
      · rw [h.desc_of_sameOutside hfit ((Span.mem_iff.mp hj).2.trans_le hcN) hsame]
      · have hjlt := (Span.mem_iff.mp hj).2.trans_le (hm.shaped.fits hu)
        by_cases hck : c.lastPage h = k
        · have hout : j ∉ (⟨i, i + blockTotal size⟩ : Span) := by
            intro hin
            have hfree := hfirst.1.all_free
              (hend hsmall k hk hbefore hmal i hfirst) hin.1 hin.2
            rw [← hck, hm.block hu j hj] at hfree
            contradiction
          refine runBits_of_flagBits ?_
          rw [hck, hflags j hjlt]
          beta_reduce
          rw [if_neg hout]
          exact BitVec.or_zero
        · unfold blockCount at hjlt
          rw [h.blockTable_of_sameOutside hck hsame (Nat.le_add_right _ _)
            (by unfold mallocTableSize; omega)]
  | @pages i size _ hpos hp =>
      have hout : ∀ k ∈ c.pages h, ¬(i ≤ k ∧ k < i + pagesOf size) :=
        fun k hk => hp.not_mem_of_taken (hm.taken hs hk)
      refine hm.congr (fun j hj => ?_) fun hu j hj => ?_
      · rw [hp.table j ((Span.mem_iff.mp hj).2.trans_le hcN), if_neg (hout j hj)]
      · have hjlt := (Span.mem_iff.mp hj).2.trans_le (hm.shaped.fits hu)
        have hlast := hout _ hm.shaped.lastPage_mem
        have hone := hp.onePage
        unfold blockCount at hjlt
        rw [hp.blockTable_of_ne hfit (by omega) (Nat.le_add_right _ _)
          (by unfold mallocTableSize; omega)]

theorem PagesGranted.desc_flags {i size : Nat} (hp : PagesGranted h m m' i size)
    (hs : TableSound h m) {j : Nat} (hj : i ≤ j ∧ j < i + pagesOf size) :
    Page.isPageFree m' (h.desc j) = false ∧
    (j = i → isPageFirst m' (h.desc j) = true) ∧
    isMalloced m' (h.desc j) =
      (usesBlocks size && decide (j + 1 = i + pagesOf size)) := by
  have hN := hp.inside
  have hfree := hp.free (j - i) (by omega)
  rw [Nat.add_sub_cancel' hj.1] at hfree
  have hold := hs.not_malloced_of_free (by omega) hfree
  have htests := or_flagByte_tests (m (h.desc j)) (decide (j = i))
    (decide (j + 1 = i + pagesOf size))
    (usesBlocks size && decide (j + 1 = i + pagesOf size))
  rw [isMalloced] at hold
  simp only [Page.isPageFree, isPageFirst, isMalloced, hp.table j (by omega), if_pos hj,
    htests.1, htests.2.1, htests.2.2.2, hold, Bool.false_or, true_and, and_true]
  intro hji
  rw [decide_eq_true hji, Bool.or_true]

theorem PagesGranted.marked {i size : Nat} (hp : PagesGranted h m m' i size)
    (hs : TableSound h m) (hpos : 1 ≤ size) : Marked h m' ⟨h.base i, size⟩ := by
  have hone := hp.onePage
  have hN := hp.inside
  obtain ⟨hs', hrun, hlast, hblocks⟩ := Allocation.ofRun h hpos hone hN
  have hpage : h.pageOf (h.base i) = i :=
    h.pageOf_eq (le_refl _) (h.base_lt_base_succ i)
  refine ⟨hs', fun k hk => ?_, fun hlt => ?_, fun hu => ?_, fun hu j hj => ?_,
    fun hu => ?_⟩
  · have hin := Span.mem_iff.mp (hs'.whole_subset hk)
    rw [hrun] at hin
    obtain ⟨htaken, -, hmal⟩ := hp.desc_flags hs hin
    refine ⟨htaken, ?_⟩
    rw [hmal, Bool.and_eq_false_iff, decide_eq_false_iff_not]
    rw [or_iff_not_imp_left, Bool.not_eq_false]
    intro hu
    rw [Span.mem_iff, Allocation.whole, if_pos hu, hlast] at hk
    simp only at hk
    omega
  · have hlo : (Allocation.whole h ⟨h.base i, size⟩).lo = i := hpage
    rw [hlo]
    exact (hp.desc_flags hs ⟨le_refl i, by omega⟩).2.1 rfl
  · have hin : i ≤ i + pagesOf size - 1 ∧ i + pagesOf size - 1 < i + pagesOf size := by
      omega
    rw [hlast, (hp.desc_flags hs hin).2.2, Bool.and_eq_true, decide_eq_true_iff]
    exact ⟨hu, by omega⟩
  · obtain ⟨m₁, -, heq⟩ := hp.blocks hu
    have hfits := hs'.fits hu
    rw [hblocks] at hj hfits
    rw [hlast, heq]
    obtain ⟨hlo, hhi⟩ := Span.mem_iff.mp hj
    simp only at hfits hhi
    exact (takeBlocks_taken m₁ _ (i := 0) (by omega) hlo (by omega)).1
  · obtain ⟨m₁, -, heq⟩ := hp.blocks hu
    have hfits := hs'.fits hu
    have hproper := Allocation.blocks_proper h hu
    rw [hblocks] at hfits hproper
    rw [hlast, hblocks, heq]
    simp only at hfits hproper
    exact (takeBlocks_taken m₁ _ (i := 0) (by omega) (le_refl _) (by omega)).2 rfl

theorem Granted.marked (hg : Granted h m a m') (hs : TableSound h m)
    (hfit : h.TableFits) : Marked h m' a := by
  cases hg with
  | @blocks k i size hk hmal hpos hsmall _ hfirst =>
      have hi := hfirst.1.1
      have htotal := blockTotal_pos hpos
      obtain ⟨hs', -, hlast, hblocks, hu⟩ :=
        Allocation.ofBlocks h hk hpos hsmall hi
      obtain ⟨hsame, hflags⟩ := takeBlocks_flags m (h.blockStart k) i
        (blockTotal size) htotal hi
      have hwhole : ∀ x, x ∉ Allocation.whole h ⟨h.base k + i * mallocSize, size⟩ := by
        intro x hx
        rw [Span.mem_iff, Allocation.whole, if_pos hu, hs'.small_lastPage hsmall]
          at hx
        simp only at hx
        omega
      refine ⟨hs', fun x hx => absurd hx (hwhole x),
        fun hlt => absurd ⟨le_refl _, hlt⟩ (hwhole _), fun _ => ?_,
        fun _ j hj => ?_, fun _ => ?_⟩
      · rw [hlast, isMalloced, h.desc_of_sameOutside hfit hk hsame]
        exact hmal
      · rw [hblocks] at hj
        rw [hlast]
        exact (takeBlocks_taken m _ hi hj.1 hj.2).1
      · rw [hlast, hblocks]
        exact (takeBlocks_taken m _ hi (le_refl i) (by omega)).2 rfl
  | pages hpos hp => exact hp.marked hs hpos

end Changes

/-! ## What is left of an allocation that is cut -/

section Cut

variable {h : Heap} {m m' : Memory} {a a' : Allocation} {j k p : Nat}

theorem Allocation.Shaped.cut_whole (hs : a.Shaped h) (hfit : h.TableFits)
    (hk : k ∈ a.whole h) (hlo : (a.whole h).lo < k)
    (ha' : a' = ⟨a.addr, h.base k - a.addr⟩) :
    a'.Shaped h ∧ a'.whole h = ⟨(a.whole h).lo, k⟩ ∧
      usesBlocks a'.size = false ∧ (a'.held h).hi = h.base k := by
  have hN := numPages_lt hfit
  have haddr := (hs.addr_of_whole hk).2
  have hkN := (Span.mem_iff.mp (hs.whole_subset hk)).2
  have hinside := hs.inside
  generalize (a.whole h).lo = f at *
  have hsize : h.base k - a.addr = (k - f) * pageSize + 0 * mallocSize := by
    rw [haddr]
    unfold Heap.base
    rw [Nat.sub_mul]
    omega
  obtain ⟨hu, hpages, -⟩ := unit_size (n := k - f) (j := 0) (by omega)
    (Nat.zero_le _)
  rw [hsize, haddr] at ha'
  subst ha'
  rw [if_neg (by omega), Nat.add_zero] at hpages
  have hlarge : allocableSize < (k - f) * pageSize + 0 * mallocSize := by
    unfold allocableSize pageSize
    omega
  obtain ⟨hs', hrun, -, -⟩ := Allocation.ofPages h (k := f) hlarge (by omega)
    (by omega)
  have hhi : f + (k - f) = k := by omega
  have hpage : h.pageOf (h.base f) = f :=
    h.pageOf_eq (le_refl _) (h.base_lt_base_succ f)
  have hu' : usesBlocks ((k - f) * pageSize + 0 * mallocSize) = false := hu
  rw [hpages, hhi] at hrun
  refine ⟨hs', ?_, hu', ?_⟩
  · simp only [Allocation.whole, hu', hrun, hpage]
    rfl
  · simp only [Allocation.held, hu', hrun]
    rfl

structure BlocksCut (h : Heap) (a a' : Allocation) (j : Nat) : Prop where
  shaped : a'.Shaped h
  whole : a'.whole h = a.whole h
  blocks : usesBlocks a'.size = true → a'.lastPage h = a.lastPage h ∧
    a'.blocks h = ⟨(a.blocks h).lo, j⟩
  held : (a'.held h).hi = h.base (a.lastPage h) + j * mallocSize

theorem Allocation.Shaped.cut_inPage (hs : a.Shaped h)
    (hu : usesBlocks a.size = true) (hj : j ∈ a.blocks h)
    (hone : h.pageOf a.addr = a.lastPage h)
    (hlo : a.addr < h.base (a.lastPage h) + j * mallocSize)
    (ha' : a' = ⟨a.addr, h.base (a.lastPage h) + j * mallocSize - a.addr⟩) :
    BlocksCut h a a' j := by
  have hinside := hs.inside
  have hlast := hs.lastPage_succ
  have hfits := hs.fits hu
  have hjhi := (Span.mem_iff.mp hj).2
  have hwhole : a.whole h = ⟨a.lastPage h, a.lastPage h⟩ := by
    rw [Allocation.whole, if_pos hu, hone]
  have haddr := hs.aligned
  rw [hone] at haddr
  have hij : (a.blocks h).lo < j := by
    unfold mallocSize at *
    omega
  have hsize : h.base (a.lastPage h) + j * mallocSize - a.addr =
      (j - (a.blocks h).lo) * mallocSize := by
    rw [haddr]
    unfold mallocSize
    omega
  obtain ⟨-, -, htotal⟩ := unit_size (n := 0) (j := j - (a.blocks h).lo) (by omega)
    (by omega)
  have hsmall : (j - (a.blocks h).lo) * mallocSize ≤ allocableSize := by
    unfold blockCount at hfits
    unfold mallocSize allocableSize
    omega
  rw [Nat.zero_mul, Nat.zero_add, Nat.mod_eq_of_lt (hsmall.trans_lt (by decide))]
    at htotal
  rw [hsize] at ha'
  obtain ⟨hs', -, hlast', hblocks', hu'⟩ := Allocation.ofBlocks h
    (k := a.lastPage h) (i := (a.blocks h).lo) (by omega)
    (by unfold mallocSize; omega) hsmall (by omega)
  rw [← haddr] at hs' hlast' hblocks'
  rw [htotal, Nat.add_sub_cancel' hij.le] at hblocks'
  subst ha'
  have hpage := hs'.small_lastPage hsmall
  refine ⟨hs', ?_, fun _ => ⟨hlast', hblocks'⟩, ?_⟩
  · rw [hwhole, Allocation.whole, if_pos hu', ← hpage, hlast']
  · rw [Allocation.held, if_pos hu', hlast', hblocks']

theorem Allocation.Shaped.cut_tail (hs : a.Shaped h) (hfit : h.TableFits)
    (hu : usesBlocks a.size = true) (hj : j ∈ a.blocks h)
    (hmore : h.pageOf a.addr < a.lastPage h)
    (ha' : a' = ⟨a.addr, h.base (a.lastPage h) + j * mallocSize - a.addr⟩) :
    BlocksCut h a a' j := by
  have hN := numPages_lt hfit
  have hinside := hs.inside
  have hlast := hs.lastPage_succ
  have hfits := hs.fits hu
  have hjhi := (Span.mem_iff.mp hj).2
  have hwhole : a.whole h = ⟨h.pageOf a.addr, a.lastPage h⟩ := by
    rw [Allocation.whole, if_pos hu]
  have hlarge : allocableSize < a.size := by
    by_contra hsmall
    rw [hs.small_lastPage (by omega)] at hmore
    omega
  have haddr := hs.large_addr hlarge
  have hzero := hs.whole hlarge
  generalize h.pageOf a.addr = f at *
  have hsize : h.base (a.lastPage h) + j * mallocSize - a.addr =
      (a.lastPage h - f) * pageSize + j * mallocSize := by
    rw [haddr]
    unfold Heap.base
    rw [Nat.sub_mul]
    have : f * pageSize ≤ a.lastPage h * pageSize := Nat.mul_le_mul_right _ hmore.le
    omega
  obtain ⟨hu', hpages, htotal⟩ := unit_size (n := a.lastPage h - f) (j := j) (by omega)
    (by omega)
  rw [hsize, haddr] at ha'
  subst ha'
  have hlarge' : allocableSize < (a.lastPage h - f) * pageSize + j * mallocSize := by
    unfold allocableSize pageSize
    omega
  obtain ⟨hs', hrun, hlast', hblocks'⟩ := Allocation.ofPages h (k := f) hlarge'
    (by omega) (by split_ifs at hpages <;> omega)
  have hpage : h.pageOf (h.base f) = f :=
    h.pageOf_eq (le_refl _) (h.base_lt_base_succ f)
  rw [htotal] at hblocks'
  rw [hpages] at hrun hlast'
  by_cases hj1 : 1 ≤ j
  · have husesb : usesBlocks ((a.lastPage h - f) * pageSize + j * mallocSize) = true :=
      hu'.trans (decide_eq_true hj1)
    have hl : f + (a.lastPage h - f + 1) - 1 = a.lastPage h := by omega
    rw [if_pos hj1, hl] at hlast'
    refine ⟨hs', ?_, fun _ => ⟨hlast', by rw [hblocks', hzero]⟩, ?_⟩
    · rw [hwhole, Allocation.whole, if_pos husesb, hlast', hpage]
    · rw [Allocation.held, if_pos husesb, hlast', hblocks']
  · have husesb : usesBlocks ((a.lastPage h - f) * pageSize + j * mallocSize) = false :=
      hu'.trans (decide_eq_false hj1)
    have hl : f + (a.lastPage h - f + 0) = a.lastPage h := by omega
    have hj0 : j = 0 := by omega
    rw [if_neg hj1, hl] at hrun
    refine ⟨hs', ?_, fun hcon => ?_, ?_⟩
    · rw [hwhole, Allocation.whole, if_neg (by simp [husesb]), hrun, hpage]
    · cases husesb.symm.trans hcon
    · rw [Allocation.held, if_neg (by simp [husesb]), hrun]
      simp only [hj0, Nat.zero_mul, Nat.add_zero]

theorem Allocation.Shaped.cut_blocks (hs : a.Shaped h) (hfit : h.TableFits)
    (hu : usesBlocks a.size = true) (hj : j ∈ a.blocks h)
    (hlo : a.addr < h.base (a.lastPage h) + j * mallocSize)
    (ha' : a' = ⟨a.addr, h.base (a.lastPage h) + j * mallocSize - a.addr⟩) :
    BlocksCut h a a' j := by
  rcases Nat.eq_or_lt_of_le hs.first_le_last with hone | hmore
  · exact hs.cut_inPage hu hj hone hlo ha'
  · exact hs.cut_tail hfit hu hj hmore ha'

theorem Marked.cut_whole (hm : Marked h m a) (hfit : h.TableFits)
    (hk : k ∈ a.whole h) (hlo : (a.whole h).lo < k)
    (ha' : a' = ⟨a.addr, h.base k - a.addr⟩) :
    Marked h m a' ∧ (a'.held h).hi = h.base k := by
  obtain ⟨hs', hwhole, hu, hheld⟩ := hm.shaped.cut_whole hfit hk hlo ha'
  have hnot : usesBlocks a'.size ≠ true := by simp [hu]
  refine ⟨⟨hs', fun i hi => hm.page i ?_, fun _ => ?_, fun hu' => absurd hu' hnot,
    fun hu' => absurd hu' hnot, fun hu' => absurd hu' hnot⟩, hheld⟩
  · rw [hwhole] at hi
    rw [Span.mem_iff] at *
    exact ⟨hi.1, hi.2.trans hk.2⟩
  · rw [hwhole]
    exact hm.pageFirst (hlo.trans (Span.mem_iff.mp hk).2)

theorem Marked.cut_blocks (hm : Marked h m a) (hfit : h.TableFits)
    (hu : usesBlocks a.size = true) (hj : j ∈ a.blocks h)
    (hlo : a.addr < h.base (a.lastPage h) + j * mallocSize)
    (ha' : a' = ⟨a.addr, h.base (a.lastPage h) + j * mallocSize - a.addr⟩) :
    Marked h m a' ∧
      (a'.held h).hi = h.base (a.lastPage h) + j * mallocSize := by
  obtain ⟨hs', hwhole, hrest, hheld⟩ :=
    hm.shaped.cut_blocks hfit hu hj hlo ha'
  refine ⟨⟨hs', fun i hi => hm.page i (hwhole ▸ hi), fun hlt => ?_, fun hu' => ?_,
    fun hu' i hi => ?_, fun hu' => ?_⟩, hheld⟩
  · rw [hwhole] at hlt ⊢
    exact hm.pageFirst hlt
  · rw [(hrest hu').1]
    exact hm.malloced hu
  · obtain ⟨hlast, hblocks⟩ := hrest hu'
    rw [hblocks] at hi
    rw [hlast]
    exact hm.block hu i ⟨hi.1, hi.2.trans (Span.mem_iff.mp hj).2⟩
  · obtain ⟨hlast, hblocks⟩ := hrest hu'
    rw [hlast, hblocks]
    exact hm.blockFirst hu

/-- What is left of a marked allocation is marked, and does not contain the
address at which it has been cut. -/
theorem Marked.cutAt (hm : Marked h m a) (hfit : h.TableFits)
    (hcut : a.cutAt h p = some a') : Marked h m a' ∧ p ∉ a'.held h := by
  unfold Allocation.cutAt at hcut
  split_ifs at hcut with hheld hstart
  · cases hcut
    have hs := hm.shaped
    have hlo : a.addr ≤ p := (Span.mem_iff.mp hheld).1
    have hle := Allocation.unitStart_le (a := a) (hs.inHeap.trans hlo)
    have hpast : ∀ c : Allocation, (c.held h).hi = a.unitStart h p →
        p ∉ c.held h := by
      intro c hc hin
      have := (Span.mem_iff.mp hin).2
      omega
    by_cases hblock : usesBlocks a.size = true ∧ h.pageOf p = a.lastPage h
    · have hunit : a.unitStart h p = h.base (a.lastPage h) +
          (p - h.base (a.lastPage h)) / mallocSize * mallocSize := if_pos hblock
      have hj : (p - h.base (a.lastPage h)) / mallocSize ∈ a.blocks h := by
        rcases hs.page_cases_of_held hheld with hwhole | ⟨-, -, hj⟩
        · rw [hblock.2] at hwhole
          have hcon := hm.malloced hblock.1
          rw [(hm.page _ hwhole).2] at hcon
          contradiction
        · exact hj
      rw [hunit] at hstart hpast ⊢
      obtain ⟨hm', hhi⟩ := hm.cut_blocks hfit hblock.1 hj (by omega) rfl
      exact ⟨hm', hpast _ hhi⟩
    · have hunit : a.unitStart h p = h.base (h.pageOf p) := if_neg hblock
      have hk : h.pageOf p ∈ a.whole h :=
        (hs.page_cases_of_held hheld).resolve_right fun hb => hblock ⟨hb.1, hb.2.1⟩
      have haddr := (hs.addr_of_whole hk).2
      rw [hunit] at hstart hpast ⊢
      obtain ⟨hm', hhi⟩ := hm.cut_whole hfit hk (by
        by_contra hge
        refine hstart ?_
        rw [haddr]
        unfold Heap.base pageSize
        omega) rfl
      exact ⟨hm', hpast _ hhi⟩
  · cases hcut
    exact ⟨hm, hheld⟩

end Cut

end XinOS.Page
