import XinOS.Page.Marked
import XinOS.Page.Touched
import XinOS.Page.Metadata

/-!
# `free` on any address

`free` has no check beyond the range of its argument.  On an address that
`FreeStays` allows it stays in the page table and away from all allocations that
do not contain the address, be it the address of an allocation, one inside, or one
that has been freed before.
-/

namespace XinOS.Page

open XinOS.Foundation

def BlocksOrdered (h : Heap) (m : Memory) : Prop :=
  ∀ k < h.numPages, isMalloced m (h.desc k) = true →
    WellFormed m (h.blockStart k)

/-- The marks of all allocations that do not contain `p` stay, and so does the
order of the block tables. -/
structure Spares (h : Heap) (m m' : Memory) (p : Nat) : Prop where
  marked : ∀ a, Marked h m a → p ∉ a.held h → Marked h m' a
  ordered : BlocksOrdered h m → BlocksOrdered h m'

section Effects

variable {h : Heap} {m m₁ m' : Memory} {p k e : Nat}

theorem Spares.refl (h : Heap) (m : Memory) (p : Nat) : Spares h m m p :=
  ⟨fun _ hm _ => hm, id⟩

theorem Spares.trans (hs : Spares h m m₁ p) (hs' : Spares h m₁ m' p) :
    Spares h m m' p :=
  ⟨fun a hm hp => hs'.marked a (hs.marked a hm hp) hp,
    fun ho => hs'.ordered (hs.ordered ho)⟩

theorem spares_of_cleared {R : Span}
    (hpage : ∀ j < h.numPages, if j ∈ R then m' (h.desc j) = 0
      else runBits (m' (h.desc j)) = runBits (m (h.desc j)))
    (hheap : ∀ x, h.allocStart ≤ x → m' x = m x)
    (hout : ∀ a, Marked h m a → p ∉ a.held h → ∀ j ∈ a.pages h, j ∉ R) :
    Spares h m m' p := by
  have hstart : ∀ k x, h.blockStart k ≤ x → m' x = m x := by
    intro k x hx
    have := h.allocStart_le_base k
    have := h.blockStart_eq k
    exact hheap x (by omega)
  refine ⟨fun a hm hp => hm.congr (fun j hj => ?_) fun _ j _ => ?_,
    fun ho j hj hmal => ?_⟩
  · have hjN := (Span.mem_iff.mp hj).2.trans_le hm.shaped.inside
    simpa only [if_neg (hout a hm hp j hj)] using hpage j hjN
  · rw [hstart _ _ (Nat.le_add_right _ _)]
  · have hbyte := hpage j hj
    split_ifs at hbyte with hjR
    · rw [isMalloced, hbyte] at hmal
      contradiction
    · rw [(pageTests_of_runBits hbyte).2.2] at hmal
      exact (ho j hj hmal).congr fun x hx _ => hstart j x hx

theorem runBits_closePrevPage (h : Heap) (m : Memory) (k x : Nat) :
    runBits (closePrevPage h m (h.desc k) x) = runBits (m x) := by
  rw [closePrevPage_desc]
  split_ifs
  · rw [setPageFlags, Memory.modify_apply]
    split_ifs
    · exact (runBits_eq (m x)).1
    · rfl
  · rfl

theorem TableSound.run_misses (hs : TableSound h m) (he : e < h.numPages)
    (hr : (h.pageFlags m).RunsTo k e) (hwhole : isMalloced m (h.desc e) = false)
    (hlo : h.base k ≤ p) (hhi : p < h.base (k + 1)) {a : Allocation}
    (hm : Marked h m a) (hp : p ∉ a.held h) {j : Nat} (hj : j ∈ a.pages h) :
    j ∉ (⟨k, e + 1⟩ : Span) := by
  intro hjR
  obtain ⟨hkj, hje⟩ := Span.mem_iff.mp hjR
  simp only at hkj hje
  rcases hm.shaped.pages_cases hj with hinside | ⟨hu, rfl⟩
  · -- the walk would have begun in the whole pages of `a`
    have hfirst := hm.pageFirst
      ((Span.mem_iff.mp hinside).1.trans_lt (Span.mem_iff.mp hinside).2)
    have hkw := hs.linked.runsTo_inside hr he hfirst hinside hkj (by omega)
    exact hp (hm.shaped.held_of_whole hkw hlo hhi)
  · -- the last page of `a` is the last of a run, but not of this one
    have hmal := hm.malloced hu
    have hlast := (hs.malloced _ hm.lastPage_lt hmal).2
    rcases Nat.lt_succ_iff_lt_or_eq.mp hje with hlt | rfl
    · have hin := hr.inner _ hkj hlt
      simp only [Heap.pageFlags, hlast] at hin
      contradiction
    · rw [hwhole] at hmal
      contradiction

theorem TableSound.pageFree_spares (hs : TableSound h m) (hfit : h.TableFits)
    (hend : h.allocStart ≤ p → p < h.allocEnd → ∀ e < h.numPages,
      (h.pageFlags m).RunsTo (h.pageOf p) e → isMalloced m (h.desc e) = false) :
    ∃ m', Page.pageFree h m p = some m' ∧ Spares h m m' p := by
  have hN := numPages_lt hfit
  obtain ⟨m', heq, -, hsame⟩ := hs.pageFree (by omega) p
  refine ⟨m', heq, ?_⟩
  have hheap : ∀ x, h.allocStart ≤ x → m' x = m x :=
    fun x hx => hsame x (.inr ((h.desc_numPages_le hfit).trans hx))
  by_cases href : p = 0 ∨ p ≥ h.allocEnd ∨ p < h.allocStart
  · rw [Page.pageFree, pageFreeTrace, if_pos href] at heq
    cases heq
    exact .refl _ _ _
  · obtain ⟨hlo, hhi⟩ := h.base_pageOf_le (p := p) (by omega)
    have hk := h.pageOf_lt (p := p) (by omega) (by omega)
    have hend' := hend (by omega) (by omega)
    generalize h.pageOf p = k at *
    by_cases hfree : isPageFree m (h.desc k) = true
    · have hfree' : isPageFree (Page.closePrevPage h m (h.desc k)) (h.desc k) =
          true := by
        rw [isPageFree, closePrevPage_of_le h m (le_refl _)]
        exact hfree
      rw [Page.pageFree, h.pageFreeTrace_inPage hk hlo hhi,
        show walkFuel = (2 ^ 64 - 1) + 1 from rfl, pageFreeLoop_free hfree'] at heq
      cases heq
      refine spares_of_cleared (R := ⟨0, 0⟩) (fun j _ => ?_) hheap
        fun a _ _ j _ hj => absurd hj.2 (Nat.not_lt_zero j)
      rw [if_neg fun hj => absurd hj.2 (Nat.not_lt_zero j)]
      exact runBits_closePrevPage h m k (h.desc j)
    · obtain ⟨e, he, hr⟩ := hs.exists_runsTo hk (by simpa using hfree)
      have hle := hr.le
      rw [Page.pageFree, h.pageFreeTrace_of_runsTo (by omega) hr he hlo hhi,
        Option.map_some, Option.some.injEq] at heq
      dsimp only at heq
      subst heq
      refine spares_of_cleared (R := ⟨k, e + 1⟩) (fun j _ => ?_) hheap
        fun a hm hp j hj => hs.run_misses he hr (hend' e he hr) hlo hhi hm hp hj
      have hiff : (h.desc k ≤ h.desc j ∧ h.desc j < h.desc k + (e + 1 - k)) ↔
          j ∈ (⟨k, e + 1⟩ : Span) := by
        rw [Span.mem_iff]
        unfold Heap.desc
        simp only
        omega
      rw [Memory.modifyRange_apply]
      simp only [hiff]
      split_ifs
      · rfl
      · exact runBits_closePrevPage h m k (h.desc j)

end Effects

/-! ## The block part of `free` -/

section Blocks

variable {h : Heap} {m m₁ m' : Memory} {p k e K : Nat}

theorem WellFormed.closePrevBlock_free {start : Nat} (hw : WellFormed m start)
    (hstart : 1 ≤ start) (hk : k < blockCount)
    (hfree : isBlockFree m (start + k) = true) :
    closePrevBlock m start (start + k) = m := by
  rw [closePrevBlock]
  split_ifs with hfirst hprev
  · rfl
  · obtain ⟨hge, htaken⟩ := hprev
    have hblock : start + k - 1 = start + (k - 1) := by omega
    rw [hblock] at hge htaken ⊢
    apply setPageFlags_self
    apply or_pageLast_of_last
    by_contra hlast
    have hnext := (hw.next (k - 1) (by omega) htaken
      (Bool.eq_false_iff.mpr hlast)).2.1
    rw [Nat.sub_add_cancel (by omega), hfree] at hnext
    contradiction
  · rfl

theorem BlocksOrdered.loop_spares (ho : BlocksOrdered h m) (hfit : h.TableFits)
    (hK : K < h.numPages) (hmal : isMalloced m (h.desc K) = true)
    (hlo : h.base K ≤ p) (hhi : p < h.base K + allocableSize) :
    ∃ m₁, blockFreeLoop walkFuel
        (closePrevBlock m (h.blockStart K)
          (h.blockStart K + (p - h.base K) / mallocSize))
        (h.blockStart K) (h.blockStart K + (p - h.base K) / mallocSize) =
          some m₁ ∧
      Memory.SameOutside (h.blockStart K)
        (h.blockStart K + mallocTableSize) m m₁ ∧
      WellFormed m₁ (h.blockStart K) ∧ Spares h m m₁ p := by
  have hw := ho K hK hmal
  have hstart := h.blockStart_eq K
  generalize hk : (p - h.base K) / mallocSize = k
  have hkN : k < blockCount := by
    unfold allocableSize at hhi
    unfold blockCount
    unfold mallocSize at hk
    omega
  by_cases hfree : isBlockFree m (h.blockStart K + k) = true
  · refine ⟨m, ?_, .refl _ _ _, hw, .refl _ _ _⟩
    rw [hw.closePrevBlock_free (by omega) hkN hfree,
      show walkFuel = (2 ^ 64 - 1) + 1 from rfl, blockFreeLoop, if_pos hfree]
  · obtain ⟨e, he, hr⟩ := hw.exists_end hkN (by simpa using hfree)
    obtain ⟨m₁, hloop, hsame, hflags, husage⟩ := hw.freeLoop (by omega) hr he
    have hw₁ := hw.of_freed hr he hflags husage
    refine ⟨m₁, hloop, hsame, hw₁, fun a hm hp => hm.congr (fun j hj => ?_)
      fun hu j hj => ?_, fun _ j hj hmal' => ?_⟩
    · rw [h.desc_of_sameOutside hfit
        ((Span.mem_iff.mp hj).2.trans_le hm.shaped.inside) hsame]
    · have hjlt := (Span.mem_iff.mp hj).2.trans_le (hm.shaped.fits hu)
      by_cases haK : a.lastPage h = K
      · have hfirst := hm.blockFirst hu
        rw [haK] at hfirst ⊢
        have hout : ¬(k ≤ j ∧ j ≤ e) := by
          rintro ⟨hkj, hje⟩
          have hka := hw.tight.runsTo_inside hr he hfirst hj hkj hje
          refine hp (hm.shaped.held_of_blocks hu hka ?_ ?_) <;> rw [haK] <;>
            unfold mallocSize at * <;> omega
        have hbits := hflags j hjlt
        rw [freedFlags, if_neg hout] at hbits
        rw [← (runBits_eq (m₁ _)).2.1, hbits]
        split_ifs
        · exact (runBits_eq _).2.2
        · exact (runBits_eq _).2.1
      · unfold blockCount at hjlt
        rw [h.blockTable_of_sameOutside haK hsame (Nat.le_add_right _ _)
          (by unfold mallocTableSize; omega)]
    · rw [isMalloced, h.desc_of_sameOutside hfit hj hsame] at hmal'
      by_cases hjK : j = K
      · exact hjK ▸ hw₁
      · exact (ho j hj hmal').congr fun x hx hx' =>
          h.blockTable_of_sameOutside hjK hsame hx hx'

theorem WellFormed.release_spares (hw : WellFormed m (h.blockStart K))
    (hfit : h.TableFits) (hK : K < h.numPages)
    (hmal : isMalloced m (h.desc K) = true)
    (hzero : getMemoryUsage m (h.blockStart K) = 0) :
    Spares h m (h.releasePage m K) p := by
  refine spares_of_cleared (R := ⟨K, K + 1⟩) (fun j _ => ?_) (fun x hx => ?_)
    fun a hm _ j hj hjK => ?_
  · have hiff : j ∈ (⟨K, K + 1⟩ : Span) ↔ h.desc j = h.desc K := by
      rw [h.desc_inj, Span.mem_iff]
      simp only
      omega
    simp only [hiff, Heap.releasePage, clearPage, Memory.modify_apply]
    split_ifs with hjK
    · rfl
    · rw [runBits_closePrevPage, Memory.modify_of_ne hjK]
  · have := h.desc_lt_allocStart hfit hK
    exact h.releasePage_same (by omega)
  · rw [show j = K by rw [Span.mem_iff] at hjK; simp only at hjK; omega] at hj
    obtain ⟨hu, hlast⟩ := hm.lastPage_of_malloced hj hmal
    have hproper := Allocation.blocks_proper h hu
    have hfits := hm.shaped.fits hu
    have htaken := hm.block hu _ ⟨le_refl _, hproper⟩
    rw [← hlast, hw.usage_eq_zero_iff.mp hzero _ (by omega)] at htaken
    contradiction

theorem TableSound.freeBlocks_spares (hs : TableSound h m)
    (ho : BlocksOrdered h m) (hfit : h.TableFits) (hK : K < h.numPages)
    (hmal : isMalloced m (h.desc K) = true) (hlo : h.base K ≤ p)
    (hhi : p < h.base K + allocableSize) :
    ∃ m', Page.freeBlocks h m (h.desc K) p = .ok m' ∧ Spares h m m' p ∧
      ∀ x ∈ freeBlocksTouched h m (h.desc K) p, h.InTable x := by
  have hhi' : p < h.base (K + 1) := by
    rw [h.base_succ]
    unfold allocableSize at hhi
    unfold pageSize
    omega
  obtain ⟨m₁, hloop, hsame, hw₁, hspares⟩ :=
    ho.loop_spares hfit hK hmal hlo hhi
  have hdesc : ∀ j < h.numPages, m₁ (h.desc j) = m (h.desc j) :=
    fun j hj => h.desc_of_sameOutside hfit hj hsame
  have hmal₁ : isMalloced m₁ (h.desc K) = true := by
    rw [isMalloced, hdesc K hK]
    exact hmal
  refine ⟨_, h.freeBlocks_of_loop hfit hK (hs.mallocPage hK hmal) hlo hhi' hloop
    hsame, ?_, fun x hx => ?_⟩
  · split_ifs with hzero
    · exact hspares.trans (hw₁.release_spares hfit hK hmal₁ hzero)
    · exact hspares
  · simp only [freeBlocksTouched, h.getStartBlock_eq hlo hhi',
      h.getBlockByAddr_eq hlo hhi', hloop] at hx
    split_ifs at hx with hzero
    · rcases List.mem_cons.mp hx with rfl | hx
      · exact ⟨K, hK, rfl⟩
      · exact ((hs.congr hdesc).toggleMalloc hmal₁).pageFreeTouched _ x hx
    · simp at hx

end Blocks

/-! ## `free` -/

/-- The addresses on which `free` works on what it has found: it refuses them, or
they lie in the blocks of a page that malloc controls, or in another page and the
next last page is not one that malloc controls. -/
inductive FreeStays (h : Heap) (m : Memory) (p : Nat) : Prop where
  | refused (outside : p < h.allocStart ∨ h.allocEnd < p)
  | blocks (k : Nat) (inside : k < h.numPages) (low : h.base k ≤ p)
      (high : p < h.base k + allocableSize)
      (malloced : isMalloced m (h.desc k) = true)
  | pages (k e : Nat) (le : k ≤ e) (inside : e < h.numPages) (low : h.base k ≤ p)
      (high : p < h.base (k + 1)) (notMalloced : isMalloced m (h.desc k) = false)
      (inner : ∀ j, k ≤ j → j < e → isPageLast m (h.desc j) = false)
      (last : isPageLast m (h.desc e) = true)
      (whole : isMalloced m (h.desc e) = false)

structure StillTaken (h : Heap) (m m' : Memory) (a : Allocation) : Prop where
  page : ∀ k ∈ a.pages h, isPageFree m (h.desc k) = false →
    isPageFree m' (h.desc k) = false
  block : usesBlocks a.size = true → ∀ j ∈ a.blocks h,
    isBlockFree m (h.blockStart (a.lastPage h) + j) = false →
    isBlockFree m' (h.blockStart (a.lastPage h) + j) = false

/-- `free` panics without having looked at a page, or it returns, has looked at
pages of the page table only, and has not freed a page or block of an allocation
that does not contain `p`. -/
def FreeContained (h : Heap) (s : HeapState) (p : Nat) : Prop :=
  ((∃ message, free h s.mem p = .error (.panic message)) ∧
    freeTouched h s.mem p = []) ∨
  ∃ m, free h s.mem p = .ok m ∧ (∀ x ∈ freeTouched h s.mem p, h.InTable x) ∧
    ∀ a ∈ s.live, p ∉ a.held h → StillTaken h s.mem m a

section Free

variable {h : Heap} {m m' : Memory} {s s' : HeapState} {p : Nat}

theorem TableSound.free_spares (hs : TableSound h m) (ho : BlocksOrdered h m)
    (hfit : h.TableFits) (hstay : FreeStays h m p) :
    ((∃ message, Page.free h m p = .error (.panic message)) ∧
      freeTouched h m p = []) ∨
    ∃ m', Page.free h m p = .ok m' ∧ Spares h m m' p ∧
      ∀ x ∈ freeTouched h m p, h.InTable x := by
  have hN := numPages_lt hfit
  have hstart := h.allocStart_pos
  cases hstay with
  | refused hout =>
      left
      refine ⟨⟨_, by rw [Page.free, if_pos (by omega)]⟩, ?_⟩
      rw [freeTouched, if_pos (by omega)]
  | blocks k hk hlo hhi hmal =>
      right
      have hle := h.allocStart_le_base k
      have hend := h.base_le_allocEnd (by omega : k + 1 ≤ h.numPages)
      have hhi' : p < h.base (k + 1) := by
        rw [h.base_succ]
        unfold allocableSize at hhi
        unfold pageSize
        omega
      obtain ⟨m', heq, hspares, htouched⟩ :=
        hs.freeBlocks_spares ho hfit hk hmal hlo hhi
      refine ⟨m', ?_, hspares, fun x hx => ?_⟩
      · rw [h.free_eq_freeBlocks hk hmal hlo hhi', heq]
      · rw [freeTouched, if_neg (by omega)] at hx
        simp only [h.getPageByAddr_eq hlo hhi', hmal, if_true] at hx
        rcases List.mem_cons.mp hx with rfl | hx
        · exact ⟨k, hk, rfl⟩
        · exact htouched x hx
  | pages k e hke he hlo hhi hnot hinner hlast hwhole =>
      right
      have hle := h.allocStart_le_base k
      have hend := h.base_le_allocEnd (by omega : k + 1 ≤ h.numPages)
      have hpage := h.pageOf_eq hlo hhi
      have hfind := h.findPageLast_desc hke (by unfold walkFuel; omega) hinner hlast
      obtain ⟨m', heq, hspares⟩ := hs.pageFree_spares hfit (p := p)
        fun _ _ e' _ hr => by
          rw [hpage] at hr
          rwa [hr.eq_of_last hke hinner hlast]
      refine ⟨m', ?_, hspares, fun x hx => ?_⟩
      · rw [Page.free, if_neg (by omega)]
        simp only [h.getPageByAddr_eq hlo hhi, hnot, hfind, hwhole, heq]
        simp
      · rw [freeTouched, if_neg (by omega)] at hx
        simp only [h.getPageByAddr_eq hlo hhi, hnot, hfind, hwhole] at hx
        rcases List.mem_append.mp hx with hx | hx
        · refine h.inTable_iff.mpr ?_
          rcases List.mem_cons.mp hx with rfl | hx
          · unfold Heap.desc
            omega
          · have := findPageLastTouched_le (by unfold Heap.desc; omega) hlast x hx
            unfold Heap.desc at *
            omega
        · rcases List.mem_cons.mp hx with rfl | hx
          · exact ⟨e, he, rfl⟩
          · exact hs.pageFreeTouched p x hx

/-- At `_alloc_end`, and in pages behind which no page is the last of a run, `free`
looks at what lies behind the page table. -/
theorem free_not_contained (hfit : h.TableFits) (s : HeapState)
    (hp : p = h.allocEnd ∨ ∃ k < h.numPages, h.base k ≤ p ∧ p < h.base (k + 1) ∧
      isMalloced s.mem (h.desc k) = false ∧
      ∀ j, k ≤ j → j < h.numPages → isPageLast s.mem (h.desc j) = false) :
    ¬FreeContained h s p := by
  have hN := numPages_lt hfit
  have hstart := h.allocStart_pos
  have hle := h.base_le_allocEnd (Nat.zero_le h.numPages)
  have hzero := h.allocStart_le_base 0
  have hbehind : h.desc h.numPages ∈ freeTouched h s.mem p := by
    rcases hp with rfl | ⟨k, hk, hlo, hhi, hnot, hnone⟩
    · have hpage : getPageByAddr h h.allocEnd = h.desc h.numPages := by
        rw [h.allocEnd_eq]
        exact h.getPageByAddr_base h.numPages
      rw [freeTouched, if_neg (by omega)]
      simp only [hpage]
      split_ifs
      · exact List.mem_cons_self
      · exact List.mem_append_left _ List.mem_cons_self
    · have hlow := h.allocStart_le_base k
      have hend := h.base_le_allocEnd (by omega : k + 1 ≤ h.numPages)
      have hmem := mem_findPageLastTouched (m := s.mem)
        (by unfold Heap.desc; omega : h.desc k ≤ h.desc h.numPages)
        (by unfold walkFuel Heap.desc; omega :
          h.desc h.numPages - h.desc k < walkFuel) fun y hy hy' => by
          have := hnone (y - h.heapStart) (by unfold Heap.desc at hy; omega)
            (by unfold Heap.desc at hy'; omega)
          rwa [show h.desc (y - h.heapStart) = y by
            unfold Heap.desc at *; omega] at this
      rw [freeTouched, if_neg (by omega)]
      simp only [h.getPageByAddr_eq hlo hhi, hnot]
      exact List.mem_append_left _ (List.mem_cons_of_mem _ hmem)
  rintro (⟨-, hnil⟩ | ⟨m, -, htouched, -⟩)
  · rw [hnil] at hbehind
    simp at hbehind
  · have := (h.inTable_iff.mp (htouched _ hbehind)).2
    omega

end Free

/-! ## Runs -/

/-- Steps that stay away from the defects: a small request ends in a free block,
`free` is called where it works on what it has found, `page_free` only for runs
that do not end with a page that malloc controls, and nothing is written into the
tables. -/
def Careful (h : Heap) (s : HeapState) : ProgramOp → Prop
  | .malloc size => EndFree h s.mem size
  | .free p => FreeStays h s.mem p
  | .pageAlloc _ => True
  | .pageFree p => h.allocStart ≤ p → p < h.allocEnd → ∀ e < h.numPages,
      (h.pageFlags s.mem).RunsTo (h.pageOf p) e →
        isMalloced s.mem (h.desc e) = false
  | .store x _ => ¬h.Metadata s.mem x

structure HeapSound (h : Heap) (s : HeapState) : Prop where
  table : TableSound h s.mem
  ordered : BlocksOrdered h s.mem
  marked : ∀ a ∈ s.live, Marked h s.mem a

section Runs

variable {h : Heap} {m m' : Memory} {s s' : HeapState} {a : Allocation}

theorem heapSound_init (r : Region) (m : Memory) :
    HeapSound r.heap (heapInit r m) := by
  refine ⟨tableSound_init r m, fun k hk hmal => ?_, by simp [heapInit]⟩
  have hzero := ((heapInv_init r m).desc_eq_zero_iff hk).mpr (by simp [heapInit])
  rw [isMalloced, hzero] at hmal
  contradiction

theorem BlocksOrdered.granted (ho : BlocksOrdered h m) (hfit : h.TableFits)
    (hs : TableSound h m) (hend : EndFree h m a.size) (hg : Granted h m a m') :
    BlocksOrdered h m' := by
  intro j hj hmal'
  cases hg with
  | @blocks k i size hk hmal hpos hsmall hbefore hfirst =>
      have htotal := blockTotal_pos hpos
      have hsame := (takeBlocks_flags m (h.blockStart k) i (blockTotal size)
        htotal hfirst.1.1).1
      rw [isMalloced, h.desc_of_sameOutside hfit hj hsame] at hmal'
      by_cases hjk : j = k
      · subst hjk
        exact (ho j hj hmal).take htotal hfirst.1.1 fun i' =>
          hfirst.1.all_free (hend hsmall j hj hbefore hmal i hfirst)
      · exact (ho j hj hmal').congr fun x hx hx' =>
          h.blockTable_of_sameOutside hjk hsame hx hx'
  | @pages i size _ hpos hp =>
      have hone := hp.onePage
      by_cases hin : i ≤ j ∧ j < i + pagesOf size
      · rw [(hp.desc_flags hs hin).2.2, Bool.and_eq_true, decide_eq_true_iff] at hmal'
        obtain ⟨hu, hji⟩ := hmal'
        obtain ⟨m₁, hempty, heq⟩ := hp.blocks hu
        have hrest := of_decide_eq_true hu
        rw [show j = i + pagesOf size - 1 by omega, heq]
        exact (hempty.takeFirst hrest.1 hrest.2).1.wellFormed
      · rw [isMalloced, hp.table j hj, if_neg hin] at hmal'
        exact (ho j hj hmal').congr fun x => hp.blockTable_of_ne hfit (by omega)

theorem HeapSound.granted (hs : HeapSound h s) (hfit : h.TableFits)
    (hend : EndFree h s.mem a.size) (hg : Granted h s.mem a m') :
    HeapSound h ⟨m', a :: s.live⟩ := by
  refine ⟨hs.table.granted hfit hg, hs.ordered.granted hfit hs.table hend hg, ?_⟩
  rintro c (_ | ⟨_, hc⟩)
  · exact hg.marked hs.table hfit
  · exact (hs.marked c hc).granted hs.table hfit hend hg

theorem HeapSound.cut (hs : HeapSound h s) (hfit : h.TableFits) {p : Nat}
    (hspares : Spares h s.mem m' p) (ht : TableSound h m') :
    HeapSound h ⟨m', s.live.filterMap (·.cutAt h p)⟩ := by
  refine ⟨ht, hspares.ordered hs.ordered, fun c hc => ?_⟩
  obtain ⟨a, ha, hcut⟩ := List.mem_filterMap.mp hc
  obtain ⟨hm, hp⟩ := (hs.marked a ha).cutAt hfit hcut
  exact hspares.marked c hm hp

theorem HeapSound.store (hs : HeapSound h s) {x : Nat} (v : Byte)
    (hx : ¬h.Metadata s.mem x) :
    HeapSound h { s with mem := s.mem.modify x fun _ => v } := by
  have hdesc : ∀ k < h.numPages,
      s.mem.modify x (fun _ => v) (h.desc k) = s.mem (h.desc k) :=
    fun k hk => Memory.modify_of_ne fun heq => hx (.inl ⟨k, hk, heq.symm⟩)
  have htable : ∀ k < h.numPages, isMalloced s.mem (h.desc k) = true →
      ∀ y, h.blockStart k ≤ y → y < h.blockStart k + mallocTableSize →
        s.mem.modify x (fun _ => v) y = s.mem y :=
    fun k hk hmal y hlo hhi => Memory.modify_of_ne fun heq =>
      hx (.inr ⟨k, hk, hmal, heq ▸ hlo, heq ▸ hhi⟩)
  refine ⟨hs.table.congr hdesc, fun k hk hmal => ?_, fun a ha => ?_⟩
  · simp only [isMalloced, hdesc k hk] at hmal
    exact (hs.ordered k hk hmal).congr (htable k hk hmal)
  · have hm := hs.marked a ha
    refine hm.congr (fun k hk => congrArg runBits (hdesc k ?_)) fun hu j hj =>
      congrArg runBits (htable _ hm.lastPage_lt (hm.malloced hu) _
        (Nat.le_add_right _ _) ?_)
    · exact (Span.mem_iff.mp hk).2.trans_le hm.shaped.inside
    · have hjlt := (Span.mem_iff.mp hj).2.trans_le (hm.shaped.fits hu)
      unfold blockCount at hjlt
      unfold mallocTableSize
      omega

theorem HeapSound.step (hs : HeapSound h s) (hfit : h.TableFits) {op : ProgramOp}
    (hok : Careful h s op) (hstep : programStep h s op = some s') :
    HeapSound h s' := by
  have ht := hs.table.step hfit hstep
  cases outcome_of_step hfit hstep with
  | @granted _ a m hop hg =>
      refine hs.granted hfit (fun hsmall => ?_) hg
      rw [hop hsmall] at hok
      exact hok hsmall
  | unserved => exact hs
  | @freed p m hfree =>
      rcases hs.table.free_spares hs.ordered hfit hok with
        ⟨⟨message, heq⟩, -⟩ | ⟨m₁, heq, hspares, -⟩
      · rw [hfree] at heq
        cases heq
      · rw [hfree] at heq
        cases heq
        exact hs.cut hfit hspares ht
  | @pageFreed p m hfree =>
      obtain ⟨m₁, heq, hspares⟩ := hs.table.pageFree_spares hfit hok
      rw [hfree] at heq
      cases heq
      exact hs.cut hfit hspares ht
  | stored _ => exact hs.store _ hok

theorem HeapSound.contained (hs : HeapSound h s) (hfit : h.TableFits) {p : Nat}
    (hstay : FreeStays h s.mem p) : FreeContained h s p := by
  refine (hs.table.free_spares hs.ordered hfit hstay).imp_right ?_
  rintro ⟨m, heq, hspares, htouched⟩
  refine ⟨m, heq, htouched, fun a ha hp => ?_⟩
  have hm := hspares.marked a (hs.marked a ha) hp
  exact ⟨fun k hk _ => hm.taken (hs.table.free hfit heq) hk,
    fun hu j hj _ => hm.block hu j hj⟩

end Runs

theorem heapSound_of_reaches {b : Board} {m₀ : Memory} {s : HeapState}
    (hrun : Reaches (stepRel (programStep b.heap)) (Careful b.heap)
      (heapInit b.toRegion m₀) s) : HeapSound b.heap s :=
  hrun.invariant (P := HeapSound b.heap) (heapSound_init b.toRegion m₀)
    fun _ _ _ hs hok hstep => hs.step b.tableFits hok hstep

/-- In every state reached by careful steps, `free` panics or stays in the page
table and away from the allocations that do not contain its argument, whether that
is in use, inside an allocation, or freed before. -/
theorem free_contained (b : Board) (m₀ : Memory) (s : HeapState)
    (hrun : Reaches (stepRel (programStep b.heap)) (Careful b.heap)
      (heapInit b.toRegion m₀) s) (p : Nat) (hstay : FreeStays b.heap s.mem p) :
    FreeContained b.heap s p :=
  (heapSound_of_reaches hrun).contained b.tableFits hstay

theorem free_contained_of_interior :
    ∃ s : HeapState, s.live = [⟨0x80008004, 4⟩, ⟨0x80008000, 4⟩] ∧
      FreeContained twoPages.heap s 0x80008001 := by
  have hend : (exec (programStep twoPages.heap)
      (heapInit twoPages.toRegion fun _ => 0) [.malloc 4, .malloc 4]).map
      (fun s => (s.live, isMalloced s.mem (twoPages.heap.desc 0))) =
      some ([⟨0x80008004, 4⟩, ⟨0x80008000, 4⟩], true) := by
    decide +kernel
  obtain ⟨s, hexec, hs⟩ := Option.map_eq_some_iff.mp hend
  obtain ⟨hlive, hmal⟩ := Prod.mk.inj hs
  refine ⟨s, hlive, free_contained twoPages (fun _ => 0) s
    (Reaches.exec .refl (fun op hop t => ?_) hexec) _
    (.blocks 0 (by decide +kernel) (by decide +kernel) (by decide +kernel) hmal)⟩
  have hop' : op = .malloc 4 := by simpa using hop
  subst hop'
  exact endFree_of_one_block _ _ rfl

/-- Freeing a page twice gives another page back, in which a block is in use. -/
theorem free_twice_not_contained :
    ¬∀ (b : Board) (m₀ : Memory) (s : HeapState),
      Reaches (stepRel (programStep b.heap)) anyLabel (heapInit b.toRegion m₀) s →
      ∀ p < 2 ^ b.heap.xlen, FreeContained b.heap s p := by
  intro hall
  have hend : (exec (programStep twoPages.heap)
      (heapInit twoPages.toRegion fun _ => 0)
      [.pageAlloc 1, .malloc 4, .free 0x80008000]).map
      (fun s => (s.live, isPageFree s.mem (twoPages.heap.desc 1),
        (free twoPages.heap s.mem 0x80008000).toOption.map
          fun m => isPageFree m (twoPages.heap.desc 1))) =
      some ([⟨0x80009000, 4⟩], false, some true) := by
    decide +kernel
  obtain ⟨s, hexec, hs⟩ := Option.map_eq_some_iff.mp hend
  obtain ⟨hlive, hrest⟩ := Prod.mk.inj hs
  obtain ⟨htaken, hpage⟩ := Prod.mk.inj hrest
  rcases hall twoPages (fun _ => 0) s
    (Reaches.exec .refl (fun _ _ _ => trivial) hexec) 0x80008000 (by decide) with
    ⟨⟨message, heq⟩, -⟩ | ⟨m, heq, -, hstill⟩
  · rw [heq] at hpage
    cases hpage
  · simp only [heq, Except.toOption, Option.map_some, Option.some.injEq] at hpage
    have hfree := (hstill ⟨0x80009000, 4⟩ (by simp [hlive])
      (by decide +kernel)).page 1 (by decide +kernel) htaken
    rw [hpage] at hfree
    cases hfree

end XinOS.Page
