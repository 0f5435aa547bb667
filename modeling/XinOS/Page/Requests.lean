import XinOS.Page.Programs

/-!
# What a request gets, and when it fails

`malloc` returns as much as was asked for, as long as the number of pages of the
request is not changed by its conversion to `int`.  It fails only if the request
cannot be served, and then leaves the memory as it was.
-/

namespace XinOS.Page

open XinOS.Foundation

/-- The `size` bytes from `p` on lie in the heap, in pages marked as taken and,
where malloc controls the page, in blocks marked as taken. -/
structure Covers (h : Heap) (m : Memory) (p size : Nat) : Prop where
  low : h.allocStart ≤ p
  high : p + size ≤ h.allocEnd
  page : ∀ x, p ≤ x → x < p + size →
    isPageFree m (h.desc (h.pageOf x)) = false
  block : ∀ x, p ≤ x → x < p + size →
    isMalloced m (h.desc (h.pageOf x)) = true →
    (x - h.base (h.pageOf x)) / mallocSize < blockCount ∧
      isBlockFree m (h.blockStart (h.pageOf x) +
        (x - h.base (h.pageOf x)) / mallocSize) = false

structure Unsatisfiable (h : Heap) (m : Memory) (size : Nat) : Prop where
  noPage : size ≤ pageSize → ∀ k < h.numPages, isPageFree m (h.desc k) = false
  noBlocks : size ≤ allocableSize → ∀ k < h.numPages,
    isMalloced m (h.desc k) = true →
    ∀ i, i + (size + (mallocSize - 1)) / mallocSize ≤ blockCount →
      ∃ j, i ≤ j ∧ j < i + (size + (mallocSize - 1)) / mallocSize ∧
        isBlockFree m (h.blockStart k + j) = false
  noRun : pageSize < size →
    ∀ i, i + (size + (pageSize - 1)) / pageSize ≤ h.numPages →
      ¬h.RunFree m i ((size + (pageSize - 1)) / pageSize)

section Requests

variable {h : Heap} {m m' : Memory} {p size i k : Nat}

theorem covers_blocks (hs : TableSound h m) (hfit : h.TableFits)
    (hk : k < h.numPages) (hmal : isMalloced m (h.desc k) = true)
    (hpos : 1 ≤ size) (hi : i + blockTotal size ≤ blockCount) :
    Covers h (takeBlocks m (h.blockStart k) (h.blockStart k + i)
      (blockTotal size)) (h.base k + i * mallocSize) size := by
  have hround := (le_blockTotal size).1
  have hsame := (takeBlocks_flags m (h.blockStart k) i (blockTotal size)
    (blockTotal_pos hpos) hi).1
  have hsucc := h.base_succ k
  have hend := h.base_le_allocEnd (by omega : k + 1 ≤ h.numPages)
  have hpage : ∀ x, h.base k + i * mallocSize ≤ x →
      x < h.base k + i * mallocSize + size → h.pageOf x = k := by
    intro x hlo hhi
    refine h.pageOf_eq (by omega) ?_
    unfold blockCount mallocSize at *
    unfold pageSize at hsucc
    omega
  refine ⟨(h.allocStart_le_base k).trans (Nat.le_add_right _ _), ?_,
    fun x hlo hhi => ?_, fun x hlo hhi _ => ?_⟩
  · unfold blockCount mallocSize at *
    unfold pageSize at hsucc
    omega
  · rw [hpage x hlo hhi, isPageFree, h.desc_of_sameOutside hfit hk hsame]
    exact (hs.malloced k hk hmal).1
  · rw [hpage x hlo hhi]
    have hblock : i ≤ (x - h.base k) / mallocSize ∧
        (x - h.base k) / mallocSize < i + blockTotal size := by
      unfold mallocSize at *
      omega
    exact ⟨by omega, (takeBlocks_taken m _ hi hblock.1 hblock.2).1⟩

theorem covers_pages (hs : TableSound h m) (hcount : CountsPages size)
    (hp : PagesGranted h m m' i size) : Covers h m' (h.base i) size := by
  have hpages := pagesOf_eq hcount
  have hinside := hp.inside
  have hend := h.base_le_allocEnd hinside
  have hbase : h.base (i + pagesOf size) = h.base i + pagesOf size * pageSize := by
    unfold Heap.base
    rw [Nat.add_mul, Nat.add_assoc]
  have hpage : ∀ x, h.base i ≤ x → x < h.base i + size →
      i ≤ h.pageOf x ∧ h.pageOf x < i + pagesOf size ∧
        h.base (h.pageOf x) ≤ x := by
    intro x hlo hhi
    have hin := h.base_pageOf_le ((h.allocStart_le_base i).trans hlo)
    refine ⟨?_, ?_, hin.1⟩
    · by_contra hlt
      have := h.base_lt_base (by omega : h.pageOf x < i)
      rw [h.base_succ] at hin
      omega
    · by_contra hge
      have hle : h.base (i + pagesOf size) ≤ h.base (h.pageOf x) := by
        unfold Heap.base pageSize
        omega
      unfold pageSize at *
      omega
  refine ⟨h.allocStart_le_base i, ?_, fun x hlo hhi => ?_,
    fun x hlo hhi hmal => ?_⟩
  · unfold pageSize at *
    omega
  · obtain ⟨hix, hxn, -⟩ := hpage x hlo hhi
    rw [isPageFree, hp.table _ (by omega), if_pos ⟨hix, hxn⟩]
    exact (or_flagByte_tests _ _ _ _).1
  · obtain ⟨hix, hxn, hbx⟩ := hpage x hlo hhi
    have hfree : isPageFree m (h.desc (h.pageOf x)) = true := by
      have := hp.free (h.pageOf x - i) (by omega)
      rwa [Nat.add_sub_cancel' hix] at this
    have hold := hs.not_malloced_of_free (by omega) hfree
    rw [isMalloced] at hold
    rw [isMalloced, hp.table _ (by omega), if_pos ⟨hix, hxn⟩,
      (or_flagByte_tests _ _ _ _).2.2.2, hold, Bool.false_or, Bool.and_eq_true,
      decide_eq_true_iff] at hmal
    obtain ⟨hu, hlast⟩ := hmal
    have hrest := of_decide_eq_true hu
    obtain ⟨m₁, -, rfl⟩ := hp.blocks hu
    have hk : i + pagesOf size - 1 = h.pageOf x := by omega
    have hround := (le_blockTotal (size % pageSize)).1
    have hle := blockTotal_le hrest.2
    have hblock : (x - h.base (h.pageOf x)) / mallocSize <
        blockTotal (size % pageSize) := by
      have hstep : h.base (h.pageOf x) = h.base i + (pagesOf size - 1) * pageSize := by
        rw [← hk]
        unfold Heap.base pageSize
        omega
      unfold mallocSize pageSize at *
      omega
    rw [hk]
    have htaken := takeBlocks_taken m₁ (h.blockStart (h.pageOf x)) (i := 0)
      (n := blockTotal (size % pageSize))
      (j := (x - h.base (h.pageOf x)) / mallocSize) (by omega) (Nat.zero_le _)
      (by omega)
    exact ⟨by omega, htaken.1⟩

theorem countsPages_of_small (hsize : size ≤ pageSize) : CountsPages size := by
  unfold CountsPages pageSize at *
  omega

theorem Granted.covers {a : Allocation} (hg : Granted h m a m')
    (hs : TableSound h m) (hfit : h.TableFits) (hcount : CountsPages a.size) :
    Covers h m' a.addr a.size := by
  cases hg with
  | blocks hk hmal hpos _ _ hfit' =>
      exact covers_blocks hs hfit hk hmal hpos hfit'.1.1
  | pages _ hp => exact covers_pages hs hcount hp

theorem not_covers_of_not_countsPages (hfit : h.TableFits)
    (hcount : ¬CountsPages size) : ¬Covers h m p size := by
  intro hc
  have hlow := hc.low
  have hhigh := hc.high
  have hend := h.allocEnd_eq
  have hN := numPages_lt hfit
  unfold CountsPages at hcount
  unfold pageSize at *
  omega

theorem malloc_covers (hs : TableSound h m) (hfit : h.TableFits) :
    (∀ p m', malloc h size m = (some p, m') → Covers h m' p size) ↔
      CountsPages size ∨ (pageCount size).toInt < 1 ∨
        ∀ i, i + pagesOf size ≤ h.numPages → ¬h.RunFree m i (pagesOf size) := by
  constructor
  · intro hall
    by_contra hn
    simp only [not_or, not_lt] at hn
    obtain ⟨hcount, hn1, hrun⟩ := hn
    have hlarge : allocableSize < size := by
      by_contra hsmall
      exact hcount (countsPages_of_small (small_le_pageSize (by omega)))
    rcases malloc_cases hfit m size with ⟨p, m', heq, -⟩ | ⟨-, hnone⟩
    · exact not_covers_of_not_countsPages hfit hcount (hall p m' heq)
    · exact hrun ((hnone (by omega)).large hlarge hn1)
  · intro hcond p m' heq
    rcases malloc_cases hfit m size with ⟨p', m₁, heq', hg⟩ | ⟨heq', -⟩
    · rw [heq'] at heq
      cases heq
      refine hg.covers hs hfit ?_
      rcases hcond with hcount | hn | hnone
      · exact hcount
      · cases hg with
        | blocks _ _ _ hsmall => exact countsPages_of_small (small_le_pageSize hsmall)
        | pages _ hp =>
            have := hp.onePage
            unfold pagesOf at this
            omega
      · cases hg with
        | blocks _ _ _ hsmall => exact countsPages_of_small (small_le_pageSize hsmall)
        | @pages i _ _ _ hp => exact absurd hp.free (hnone i hp.inside)
    · rw [heq'] at heq
      cases heq

theorem Unserved.unsatisfiable (hu : Unserved h m size) (hs : TableSound h m)
    (hfit : h.TableFits) (hpos : 1 ≤ size) : Unsatisfiable h m size := by
  have hN := numPages_lt hfit
  have htotal : (size + (mallocSize - 1)) / mallocSize = blockTotal size := by
    unfold blockTotal mallocSize
    split_ifs <;> omega
  refine ⟨fun hsize k hk => ?_, fun hsmall k hk hmal i hi => ?_,
    fun hlarge i hi => ?_⟩
  · by_cases hsmall : size ≤ allocableSize
    · cases hmal : isMalloced m (h.desc k) with
      | true => exact (hs.malloced k hk hmal).1
      | false => exact (hu.small hsmall k hk).2 hmal
    · have hone := pagesOf_le_pageSize hpos hsize
      have hnot := hu.large (by omega) (by rw [hone]; decide) k
        (by rw [pagesOf_small hpos hsize]; omega)
      rw [pagesOf_small hpos hsize] at hnot
      by_contra hfree
      refine hnot fun j hj => ?_
      rw [show k + j = k by omega]
      simpa using hfree
  · rw [htotal] at hi ⊢
    by_contra hall
    push Not at hall
    refine (hu.small hsmall k hk).1 hmal i (accepts_of_free (blockTotal_pos hpos)
      hi fun j hij hj => ?_)
    have htp := blockTotal_pos hpos
    have := hall j hij (by omega)
    simpa using this
  · by_cases hcount : CountsPages size
    · have hpages := pagesOf_eq hcount
      rw [← hpages] at hi ⊢
      refine hu.large ?_ ?_ i hi
      · unfold pageSize at hlarge
        unfold allocableSize
        omega
      · have hone : 1 ≤ pagesOf size := by
          rw [hpages]
          unfold pageSize at *
          omega
        unfold pagesOf at hone
        omega
    · unfold CountsPages at hcount
      omega

end Requests

/-- After any run of any program: whatever `malloc` returns covers the request if
and only if its number of pages is an `int`, or is cut to an `int` below one, or
to one for which there is no run of free pages. -/
theorem malloc_covers_iff (b : Board) (m₀ : Memory) (s : HeapState)
    (hrun : Reaches (stepRel (programStep b.heap)) anyLabel
      (heapInit b.toRegion m₀) s) (size : Nat) :
    (∀ p m, malloc b.heap size s.mem = (some p, m) →
      Covers b.heap m p size) ↔
    CountsPages size ∨ (pageCount size).toInt < 1 ∨
      ∀ i, i + pagesOf size ≤ b.heap.numPages →
        ¬b.heap.RunFree s.mem i (pagesOf size) :=
  malloc_covers (tableSound_of_reaches hrun) b.tableFits

theorem malloc_covers_of_one_block :
    ∃ m, malloc twoPages.heap 4 (heapInit twoPages.toRegion fun _ => 0).mem =
      (some 0x80008000, m) ∧ Covers twoPages.heap m 0x80008000 4 := by
  have hsome : (malloc twoPages.heap 4
      (heapInit twoPages.toRegion fun _ => 0).mem).1 = some 0x80008000 := by
    decide +kernel
  obtain ⟨⟨p, m⟩, heq⟩ : ∃ r, malloc twoPages.heap 4
      (heapInit twoPages.toRegion fun _ => 0).mem = r := ⟨_, rfl⟩
  rw [heq] at hsome
  obtain rfl : p = some 0x80008000 := hsome
  exact ⟨m, heq, (malloc_covers_iff twoPages (fun _ => 0) _ .refl 4).mpr
    (.inl (by decide)) _ m heq⟩

/-- A request of 2^44 + 1 bytes is granted one page. -/
theorem malloc_falls_short :
    ¬∀ (b : Board) (m₀ : Memory) (s : HeapState),
      Reaches (stepRel (programStep b.heap)) anyLabel (heapInit b.toRegion m₀) s →
      ∀ size < 2 ^ b.heap.xlen, ∀ p m, malloc b.heap size s.mem = (some p, m) →
        Covers b.heap m p size := by
  intro hall
  have hsome : (malloc twoPages.heap (2 ^ 44 + 1)
      (heapInit twoPages.toRegion fun _ => 0).mem).1 = some 0x80008000 := by
    decide +kernel
  have hcovers := hall twoPages (fun _ => 0) _ .refl (2 ^ 44 + 1) (by decide)
    0x80008000 _ (Prod.ext hsome rfl)
  exact not_covers_of_not_countsPages twoPages.tableFits (by decide) hcovers

/-- After any run of any program: a request that fails changes nothing and could
not be served. -/
theorem malloc_fails_only (b : Board) (m₀ : Memory) (s : HeapState)
    (hrun : Reaches (stepRel (programStep b.heap)) anyLabel
      (heapInit b.toRegion m₀) s) (size : Nat) (hpos : 1 ≤ size)
    (hnone : (malloc b.heap size s.mem).1 = none) :
    (malloc b.heap size s.mem).2 = s.mem ∧
      Unsatisfiable b.heap s.mem size := by
  rcases malloc_cases b.tableFits s.mem size with ⟨p, m, heq, -⟩ | ⟨heq, hun⟩
  · rw [heq] at hnone
    cases hnone
  · rw [heq]
    exact ⟨rfl, (hun hpos).unsatisfiable (tableSound_of_reaches hrun)
      b.tableFits hpos⟩

theorem malloc_fails_only_of_three_pages :
    Unsatisfiable twoPages.heap (heapInit twoPages.toRegion fun _ => 0).mem
      12288 :=
  (malloc_fails_only twoPages (fun _ => 0) _ .refl 12288 (by decide)
    (by decide +kernel)).2

end XinOS.Page
