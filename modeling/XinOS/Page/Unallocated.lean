import Mathlib.Data.List.Find
import XinOS.Page.Grants

/-!
# Memory that nobody holds

Which address a small request gets does not depend on the bytes of free pages and
free blocks, and `malloc` leaves these bytes as they are, but for the table of a page
that it prepares.
-/

namespace XinOS.Page

open XinOS.Foundation

/-- The byte is in a free block and not in the table of its page, or in a free page. -/
def Heap.Unallocated (h : Heap) (m : Memory) (x : Nat) : Prop :=
  ∃ k < h.numPages, h.base k ≤ x ∧ x < h.base (k + 1) ∧
    if isMalloced m (h.desc k) then
      x < h.blockStart k ∧
        isBlockFree m (h.blockStart k + (x - h.base k) / mallocSize) = true
    else isPageFree m (h.desc k) = true

def Heap.Taken (h : Heap) (m : Memory) (x : Nat) : Prop :=
  ∃ k < h.numPages, h.base k ≤ x ∧ x < h.base (k + 1) ∧
    if isMalloced m (h.desc k) then
      (x - h.base k) / mallocSize < blockCount ∧
        isBlockFree m (h.blockStart k + (x - h.base k) / mallocSize) = false
    else isPageFree m (h.desc k) = false

def Heap.SameAllocated (h : Heap) (m₁ m₂ : Memory) : Prop :=
  ∀ x, ¬h.Unallocated m₁ x → m₂ x = m₁ x

section Bytes

variable {h : Heap} {m m₁ m₂ : Memory} {j k x : Nat}

theorem Heap.page_unique (hj : h.base j ≤ x) (hj' : x < h.base (j + 1))
    (hk : h.base k ≤ x) (hk' : x < h.base (k + 1)) : j = k :=
  (h.pageOf_eq hj hj').symm.trans (h.pageOf_eq hk hk')

theorem Heap.Taken.not_unallocated (ht : h.Taken m x) : ¬h.Unallocated m x := by
  obtain ⟨k, -, hlo, hhi, htaken⟩ := ht
  rintro ⟨j, -, hlo', hhi', hfree⟩
  obtain rfl := h.page_unique hlo hhi hlo' hhi'
  split_ifs at htaken hfree
  · exact absurd (htaken.2.symm.trans hfree.2) (by decide)
  · exact absurd (htaken.symm.trans hfree) (by decide)

theorem Heap.desc_not_unallocated (hfit : h.TableFits) (hk : k < h.numPages) :
    ¬h.Unallocated m (h.desc k) := by
  rintro ⟨j, -, hlo, -⟩
  exact absurd hlo (not_le.mpr (h.desc_lt_base hfit hk))

theorem Heap.table_not_unallocated (hmal : isMalloced m (h.desc k) = true)
    (hlo : h.blockStart k ≤ x) (hhi : x < h.blockStart k + mallocTableSize) :
    ¬h.Unallocated m x := by
  have hstart := h.blockStart_eq k
  have hsucc := h.base_succ k
  unfold mallocTableSize at hhi
  unfold pageSize at hsucc
  rintro ⟨j, -, hlo', hhi', hfree⟩
  obtain rfl : j = k := h.page_unique hlo' hhi' (by omega) (by omega)
  rw [if_pos hmal] at hfree
  omega

section Same

variable (hsame : h.SameAllocated m₁ m₂) (hfit : h.TableFits)
include hsame

theorem Heap.SameAllocated.table (hmal : isMalloced m₁ (h.desc k) = true)
    (hlo : h.blockStart k ≤ x) (hhi : x < h.blockStart k + mallocTableSize) :
    m₂ x = m₁ x :=
  hsame x (h.table_not_unallocated hmal hlo hhi)

theorem Heap.SameAllocated.isBlockFree (hmal : isMalloced m₁ (h.desc k) = true)
    {i : Nat} (hi : i < blockCount) :
    isBlockFree m₂ (h.blockStart k + i) = isBlockFree m₁ (h.blockStart k + i) := by
  have hbyte : m₂ (h.blockStart k + i) = m₁ (h.blockStart k + i) := by
    unfold blockCount at hi
    refine hsame.table hmal (Nat.le_add_right _ _) ?_
    unfold mallocTableSize
    omega
  rw [Page.isBlockFree, Page.isBlockFree, hbyte]

theorem Heap.SameAllocated.tryMalloc (hmal : isMalloced m₁ (h.desc k) = true)
    (size : Nat) :
    (tryMalloc h m₂ (h.base k) size).1 = (tryMalloc h m₁ (h.base k) size).1 := by
  have hbase := getStartMemByAddr_eq h (le_refl _) (h.base_lt_base_succ k)
  simp only [Page.tryMalloc, hbase]
  rw [← Heap.blockStart]
  by_cases htotal : blockTotal size = 0
  · rw [if_pos htotal, if_pos htotal]
  · have hblock : ∀ i < blockCount,
        Page.isBlockFree m₂ (h.blockStart k + i) =
          Page.isBlockFree m₁ (h.blockStart k + i) := fun i hi =>
      hsame.isBlockFree hmal hi
    have htests : ∀ i ∈ List.range (mallocTableSize - blockTotal size),
        blockRunAccepted m₂ (h.blockStart k + i) (blockTotal size) =
          blockRunAccepted m₁ (h.blockStart k + i) (blockTotal size) := by
      intro i hi
      have hi' := List.mem_range.mp hi
      unfold mallocTableSize at hi'
      unfold blockCount at hblock
      rw [blockRunAccepted, blockRunAccepted, hblock i (by omega)]
      congr 1
      rw [Bool.eq_iff_iff, List.all_eq_true, List.all_eq_true]
      refine forall₂_congr fun j hj => ?_
      have hj' := List.mem_range.mp hj
      rw [Nat.add_assoc, hblock (i + j) (by omega)]
    rw [if_neg htotal, if_neg htotal, List.find?_congr htests]
    split <;> rfl

include hfit

theorem Heap.SameAllocated.desc (hk : k < h.numPages) :
    m₂ (h.desc k) = m₁ (h.desc k) :=
  hsame _ (h.desc_not_unallocated hfit hk)

theorem Heap.SameAllocated.isMalloced (hk : k < h.numPages) :
    isMalloced m₂ (h.desc k) = isMalloced m₁ (h.desc k) := by
  rw [Page.isMalloced, Page.isMalloced, hsame.desc hfit hk]

theorem Heap.SameAllocated.isPageFree (hk : k < h.numPages) :
    isPageFree m₂ (h.desc k) = isPageFree m₁ (h.desc k) := by
  rw [Page.isPageFree, Page.isPageFree, hsame.desc hfit hk]

theorem Heap.SameAllocated.taken (ht : h.Taken m₁ x) : h.Taken m₂ x := by
  obtain ⟨k, hk, hlo, hhi, htaken⟩ := ht
  refine ⟨k, hk, hlo, hhi, ?_⟩
  rw [hsame.isMalloced hfit hk, hsame.isPageFree hfit hk]
  split_ifs at htaken ⊢ with hpage
  · rwa [hsame.isBlockFree hpage htaken.1]
  · exact htaken

theorem Heap.SameAllocated.mallocBlocks {size : Nat} (hpos : 1 ≤ size)
    (hsize : size ≤ allocableSize) (n k : Nat) (hn : k + n ≤ h.numPages) :
    (mallocBlocks h size n k m₂).1 = (mallocBlocks h size n k m₁).1 := by
  induction n generalizing k with
  | zero => rfl
  | succ n ih =>
      have hk : k < h.numPages := by omega
      have hnext := ih (k + 1) (by omega)
      simp only [Page.mallocBlocks, startMem_desc hk, hsame.isMalloced hfit hk,
        hsame.isPageFree hfit hk]
      split_ifs with hpage hempty
      · have htry := hsame.tryMalloc hpage size
        have hpos' := blockTotal_pos hpos
        rcases tryMalloc_cases h m₁ k size hpos' with ⟨i, -, h₁⟩ | ⟨h₁, -⟩ <;>
          rcases tryMalloc_cases h m₂ k size hpos' with ⟨j, -, h₂⟩ | ⟨h₂, -⟩ <;>
          rw [h₁, h₂] at htry ⊢
        · exact htry
        · cases htry
        · cases htry
        · exact hnext
      · have hprepared : ∀ m, Page.tryMalloc h
            (mallocInit (setPageFlags m (h.desc k) freshFlags) (h.base k)) (h.base k)
            size = _ := fun m =>
          tryMalloc_empty h (blockTable_mallocInit _ _) hpos hsize
        rw [hprepared, hprepared]
      · exact hnext

theorem Heap.SameAllocated.malloc {size : Nat} (hpos : 1 ≤ size)
    (hsize : size ≤ allocableSize) :
    (malloc h size m₂).1 = (malloc h size m₁).1 := by
  have hzero : ¬size = 0 := by omega
  rw [Page.malloc, Page.malloc, if_neg hzero, if_neg hzero, if_pos hsize, if_pos hsize]
  exact hsame.mallocBlocks hfit hpos hsize h.numPages 0 (by omega)

end Same

theorem malloc_small_cases (hfit : h.TableFits) {size p : Nat} {m' : Memory}
    (hpos : 1 ≤ size) (hsize : size ≤ allocableSize)
    (heq : malloc h size m = (some p, m')) :
    ∃ k < h.numPages, ∃ i, p = h.base k + i * mallocSize ∧
      i + blockTotal size ≤ blockCount ∧
      (∀ x, h.allocStart ≤ x →
        (x < h.blockStart k ∨ h.blockStart k + mallocTableSize ≤ x) → m' x = m x) ∧
      (isMalloced m (h.desc k) = true ∧ (∀ j, i ≤ j → j + 1 < i + blockTotal size →
          isBlockFree m (h.blockStart k + j) = true) ∨
        isMalloced m (h.desc k) = false ∧ isPageFree m (h.desc k) = true) := by
  have hzero : ¬size = 0 := by omega
  have htotal := blockTotal_pos hpos
  have hle := blockTotal_le hsize
  rw [malloc, if_neg hzero, if_pos hsize] at heq
  rcases mallocBlocks_cases h m hpos hsize h.numPages 0 (by omega) with
    ⟨k, -, hk, -, hserved⟩ | ⟨hnone, -⟩
  · rw [Nat.zero_add] at hk
    rw [heq] at hserved
    refine ⟨k, hk, ?_⟩
    rcases hserved with ⟨hmal, i, hfirst, hr⟩ | ⟨hmal, hfree, hr⟩
    · cases hr
      refine ⟨i, rfl, hfirst.1.1, fun x _ hx => ?_, .inl ⟨hmal, fun j hj hj' => ?_⟩⟩
      · exact (takeBlocks_flags m _ i _ htotal hfirst.1.1).1 x hx
      · exact hfirst.1.isBlockFree hj (.inr hj')
    · cases hr
      refine ⟨0, by simp, by omega, fun x hlo hx => ?_, .inr ⟨hmal, hfree⟩⟩
      have hdesc := h.desc_lt_allocStart hfit hk
      have hsame := (takeBlocks_flags (h.freshPage m k) (h.blockStart k) 0 _ htotal
        (by omega)).1 x hx
      rw [Nat.add_zero] at hsame
      rw [hsame, Heap.freshPage, mallocInit_same h _ k x hx, setPageFlags,
        Memory.modify_of_ne (by omega)]
  · rw [heq] at hnone
    cases hnone

theorem malloc_small_inHeap (hfit : h.TableFits) {size p : Nat} {m' : Memory}
    (hpos : 1 ≤ size) (hsize : size ≤ allocableSize)
    (heq : malloc h size m = (some p, m')) :
    h.allocStart ≤ p ∧ p + blockTotal size * mallocSize ≤ h.allocEnd := by
  obtain ⟨k, hk, i, rfl, hfits, -⟩ := malloc_small_cases hfit hpos hsize heq
  have hbase := h.allocStart_le_base k
  have hsucc := h.base_succ k
  have hend := h.base_le_allocEnd (show k + 1 ≤ h.numPages from hk)
  unfold blockCount at hfits
  unfold mallocSize
  unfold pageSize at hsucc
  omega

/-- The blocks of a small request were free, but for the last one, and `malloc`
leaves the bytes in them as they are. -/
theorem malloc_small_unallocated (hfit : h.TableFits) {size p : Nat} {m' : Memory}
    (hpos : 1 ≤ size) (hsize : size ≤ allocableSize)
    (heq : malloc h size m = (some p, m')) (hlo : p ≤ x)
    (hhi : x < p + (blockTotal size - 1) * mallocSize) :
    h.Unallocated m x ∧ m' x = m x := by
  obtain ⟨k, hk, i, rfl, hfits, hsame, hcases⟩ :=
    malloc_small_cases hfit hpos hsize heq
  have hstart := h.blockStart_eq k
  have hsucc := h.base_succ k
  have hbase := h.allocStart_le_base k
  have htable : x < h.blockStart k := by
    unfold blockCount at hfits
    unfold mallocSize at hlo hhi
    omega
  unfold pageSize at hsucc
  refine ⟨⟨k, hk, by omega, by omega, ?_⟩, hsame x (by omega) (.inl htable)⟩
  rcases hcases with ⟨hmal, hfree⟩ | ⟨hmal, hfree⟩
  · rw [if_pos hmal]
    refine ⟨htable, hfree _ ?_ ?_⟩
    · unfold mallocSize at hlo ⊢
      omega
    · unfold mallocSize at hlo hhi ⊢
      omega
  · rw [hmal]
    exact hfree

theorem malloc_small_taken (hfit : h.TableFits) {size p : Nat} {m' : Memory}
    (hpos : 1 ≤ size) (hsize : size ≤ allocableSize)
    (heq : malloc h size m = (some p, m')) (hx : h.Taken m x)
    (hx' : h.Taken m (x + 1)) : m' x = m x := by
  obtain ⟨k, hk, i, -, -, hsame, hcases⟩ := malloc_small_cases hfit hpos hsize heq
  have hstart := h.blockStart_eq k
  have hsucc := h.base_succ k
  obtain ⟨j, hj, hlo, hhi, htaken⟩ := hx
  obtain ⟨j', hj', hlo', hhi', htaken'⟩ := hx'
  have hbase := h.allocStart_le_base j
  refine hsame x (by omega) ?_
  by_contra hout
  unfold mallocTableSize at hout
  unfold pageSize at hsucc
  obtain rfl : j = k := h.page_unique hlo hhi (by omega) (by omega)
  obtain rfl : j' = j := h.page_unique hlo' hhi' (by omega) (by omega)
  rcases hcases with ⟨hmal, -⟩ | ⟨hmal, hfree⟩
  · rw [if_pos hmal] at htaken'
    have hblock := htaken'.1
    unfold mallocSize blockCount at hblock
    omega
  · rw [hmal] at htaken
    exact absurd (hfree.symm.trans htaken) (by decide)

end Bytes

end XinOS.Page
