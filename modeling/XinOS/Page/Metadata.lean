import XinOS.Page.HeapSafety

/-!
# The allocator's tables against writes of the program

A block table starts one byte early, at offset 3275 of its page.  The last byte
of block 818 is therefore the entry of block 0, and this is the only way in which
a program reaches a table by writing into its own allocations.
-/

namespace XinOS.Page

open XinOS.Foundation

def Heap.Metadata (h : Heap) (m : Memory) (x : Nat) : Prop :=
  (∃ j < h.numPages, x = h.desc j) ∨
    ∃ k < h.numPages, isMalloced m (h.desc k) = true ∧
      h.blockStart k ≤ x ∧ x < h.blockStart k + mallocTableSize

/-- Whatever is written into the bytes of `a`, no table changes. -/
def OutOfReach (h : Heap) (m : Memory) (a : Allocation) : Prop :=
  ∀ m', Memory.SameOutside a.range.lo a.range.hi m m' →
    ∀ x, h.Metadata m x → m' x = m x

def Allocation.endOffset (h : Heap) (a : Allocation) : Nat :=
  (a.addr + a.size - h.allocStart) % pageSize

section Reach

variable {h : Heap} {s : HeapState} {a : Allocation}

theorem outOfReach_iff {m : Memory} :
    OutOfReach h m a ↔ ∀ x ∈ a.range, ¬h.Metadata m x := by
  constructor
  · intro hout x hx hmeta
    have hx' := Span.mem_iff.mp hx
    have hsame := hout (m.modify x (· + 1))
      (Memory.SameOutside.modify m _ hx'.1 hx'.2) x hmeta
    rw [Memory.modify_self] at hsame
    have hne : ∀ y : Byte, y + 1 ≠ y := by decide
    exact hne _ hsame
  · intro hout m' hsame x hmeta
    by_cases hx : x ∈ a.range
    · exact absurd hmeta (hout x hx)
    · refine hsame x ?_
      rw [Span.mem_iff] at hx
      omega

theorem Allocation.Shaped.end_of_endOffset (hs : a.Shaped h)
    (hcount : CountsPages a.size) (hend : a.endOffset h = allocableSize) :
    usesBlocks a.size = true ∧
      a.addr + a.size = h.blockStart (a.lastPage h) + 1 := by
  have hpos := hs.pos
  have hpages := pagesOf_eq hcount
  have hstart := h.blockStart_eq (a.lastPage h)
  have hone := hs.onePage
  have hlast : a.lastPage h + 1 = h.pageOf a.addr + pagesOf a.size :=
    hs.lastPage_succ
  have hblk : (a.blocks h).hi = (a.blocks h).lo + blockTotal (a.size % pageSize) :=
    rfl
  by_cases hsmall : a.size ≤ allocableSize
  · obtain ⟨hu, hmod⟩ := usesBlocks_of_small hpos hsmall
    have haddr := hs.aligned
    have hfits := hs.fits hu
    have hround := (le_blockTotal a.size).1
    have hone' := pagesOf_small hpos (small_le_pageSize hsmall)
    rw [hblk, hmod] at hfits
    refine ⟨hu, ?_⟩
    unfold Allocation.endOffset Heap.base at *
    unfold pageSize allocableSize mallocSize blockCount at *
    omega
  · have haddr := hs.large_addr (by omega)
    have hu : usesBlocks a.size = true := by
      refine decide_eq_true ?_
      unfold Allocation.endOffset Heap.base at *
      unfold pageSize allocableSize at *
      omega
    refine ⟨hu, ?_⟩
    unfold Allocation.endOffset Heap.base at *
    unfold pageSize allocableSize at *
    omega

theorem HeapInv.metadata_in_range (hi : HeapInv h s) (ha : a ∈ s.live)
    (hcount : CountsPages a.size) {x : Nat} (hx : x ∈ a.range)
    (hmeta : h.Metadata s.mem x) (hfit : h.TableFits) :
    a.endOffset h = allocableSize := by
  have hs := hi.shaped a ha
  obtain ⟨hlo, hhi⟩ := Span.mem_iff.mp hx
  have hlo' : a.addr ≤ x := hlo
  have hhi' : x < a.addr + a.size := hhi
  rcases hmeta with ⟨j, hj, rfl⟩ | ⟨k, hk, hmal, hxlo, hxhi⟩
  · have hbelow := h.desc_lt_base hfit hj (k := 0)
    have hbase : h.base 0 = h.allocStart := by simp [Heap.base]
    have := hs.inHeap
    omega
  · have hle : a.addr + a.size ≤ (a.held h).hi := hs.range_le_held hcount
    have hheld : x ∈ a.held h := Span.mem_iff.mpr ⟨hlo, hhi.trans_le hle⟩
    have hstart := h.blockStart_eq k
    have hsucc := h.base_succ k
    have hpage : h.pageOf x = k := by
      unfold mallocTableSize at hxhi
      unfold pageSize at hsucc
      exact h.pageOf_eq (by omega) (by omega)
    have hmal' := (hi.isMalloced_iff hk).mp hmal
    have hkp : k ∈ a.pages h := hpage ▸ hs.pageOf_held hheld
    obtain ⟨hu, hlast⟩ := hi.usesBlocks_of_pages ha hkp hmal'
    have hfits := hs.fits hu
    have hhi'' : a.addr + a.size ≤ h.base k + (a.blocks h).hi * mallocSize := by
      simpa only [Allocation.held, hu, if_true, hlast] using hle
    unfold Allocation.endOffset
    unfold blockCount at hfits
    unfold Heap.base pageSize mallocSize allocableSize at *
    omega

theorem HeapInv.outOfReach_iff (hfit : h.TableFits) (hi : HeapInv h s)
    (ha : a ∈ s.live) (hcount : CountsPages a.size) :
    OutOfReach h s.mem a ↔ a.endOffset h ≠ allocableSize := by
  have hs := hi.shaped a ha
  rw [Page.outOfReach_iff]
  constructor
  · intro hout hend
    obtain ⟨hu, hlast⟩ := hs.end_of_endOffset hcount hend
    have hpos := hs.pos
    refine hout (h.blockStart (a.lastPage h)) (Span.mem_iff.mpr ?_) (.inr
      ⟨a.lastPage h, hi.lastPage_lt ha, ?_, le_refl _, ?_⟩)
    · change a.addr ≤ _ ∧ _ < a.addr + a.size
      omega
    · exact (hi.isMalloced_iff (hi.lastPage_lt ha)).mpr
        (blockPage_iff.mpr ⟨a, ha, hu, rfl⟩)
    · unfold mallocTableSize
      omega
  · intro hend x hx hmeta
    exact hend (hi.metadata_in_range ha hcount hx hmeta hfit)

end Reach

/-- In every state reached by steps that keep the ranges, writing into a live
allocation can change a table exactly if the allocation ends at offset 3276 of a
page. -/
theorem tables_out_of_reach_iff (b : Board) (m₀ : Memory) (s : HeapState)
    (hrun : Reaches (stepRel (heapStep b.heap)) (KeepsRanges b.heap)
      (heapInit b.toRegion m₀) s) :
    ∀ a ∈ s.live, OutOfReach b.heap s.mem a ↔
      a.endOffset b.heap ≠ allocableSize := by
  obtain ⟨hi, hcount⟩ := countsPages_of_reaches hrun
  exact fun a ha => hi.outOfReach_iff b.tableFits ha (hcount a ha)

theorem tables_out_of_reach_of_two_blocks :
    ∃ s : HeapState, s.live = [⟨0x80008004, 4⟩, ⟨0x80008000, 4⟩] ∧
      ∀ a ∈ s.live, OutOfReach twoPages.heap s.mem a := by
  obtain ⟨s, hexec, hs⟩ := exists_state_of_live two_blocks_live
  have hiff := tables_out_of_reach_iff twoPages (fun _ => 0) s
    (Reaches.exec .refl two_blocks_ok hexec)
  refine ⟨s, hs, fun a ha => (hiff a ha).mpr ?_⟩
  rw [hs] at ha
  revert a
  decide +kernel

theorem malloc_first (r : Region) (m₀ : Memory) {size : Nat}
    (hN : 1 ≤ r.heap.numPages) (hpos : 1 ≤ size) (hsize : size ≤ allocableSize) :
    (malloc r.heap size (heapInit r m₀).mem).1 = some (r.heap.base 0) := by
  obtain ⟨n, hn⟩ : ∃ n, r.heap.numPages = n + 1 := ⟨r.heap.numPages - 1, by omega⟩
  have hbyte : (heapInit r m₀).mem (r.heap.desc 0) = 0 :=
    ((heapInv_init r m₀).desc_eq_zero_iff (by omega)).mpr (by simp [heapInit])
  have hmal : isMalloced (heapInit r m₀).mem (r.heap.desc 0) = false := by
    simp [isMalloced, hbyte]
  have hfree : isPageFree (heapInit r m₀).mem (r.heap.desc 0) = true := by
    simp [isPageFree, hbyte]
  have htry := tryMalloc_empty r.heap (blockTable_mallocInit
    (setPageFlags (heapInit r m₀).mem (r.heap.desc 0) freshFlags)
    (r.heap.base 0)) hpos hsize
  rw [malloc, if_neg (by omega), if_pos hsize, hn]
  simp only [mallocBlocks, hmal, hfree, startMem_desc hN, htry]
  simp

/-- A program can reach a table: the last of 3276 bytes is the entry of block
0 of their own page. -/
theorem tables_in_reach :
    ¬∀ (b : Board) (m₀ : Memory) (s : HeapState),
      Reaches (stepRel (heapStep b.heap)) anyLabel (heapInit b.toRegion m₀) s →
      ∀ a ∈ s.live, OutOfReach b.heap s.mem a := by
  intro hall
  have hsize : 3276 ≤ allocableSize := le_refl _
  have hfirst := malloc_first twoPages.toRegion (fun _ => 0)
    (by decide +kernel) (by decide) hsize
  have hbase : twoPages.heap.base 0 = 0x80008000 := by decide +kernel
  rw [hbase] at hfirst
  obtain ⟨⟨p, m⟩, heq⟩ : ∃ r, malloc twoPages.heap 3276
      (heapInit twoPages.toRegion fun _ => 0).mem = r := ⟨_, rfl⟩
  rw [heq] at hfirst
  obtain rfl : p = some 0x80008000 := hfirst
  have hstep : heapStep twoPages.heap (heapInit twoPages.toRegion fun _ => 0)
      (.malloc 3276) = some ⟨m, [⟨0x80008000, 3276⟩]⟩ := by
    simp only [heapStep, heq]
    rfl
  have hok : KeepsLedger twoPages.heap (heapInit twoPages.toRegion fun _ => 0)
      (.malloc 3276) := by
    intro _ k hk _ hmal
    have := ((heapInv_init twoPages.toRegion fun _ => 0).isMalloced_iff hk).mp hmal
    simp [heapInit, blockPage] at this
  have hi := ((heapInv_init twoPages.toRegion fun _ => 0).step
    twoPages.tableFits hok hstep).1
  have hiff := hi.outOfReach_iff twoPages.tableFits
    (List.mem_singleton.mpr rfl) (by decide)
  exact hiff.mp (hall twoPages (fun _ => 0) _ (.tail .refl trivial hstep) _
    (List.mem_singleton.mpr rfl)) (by decide +kernel)

end XinOS.Page
