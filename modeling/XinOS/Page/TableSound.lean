import XinOS.Page.HeapSafety

/-!
# What no caller can break in the page table

Whatever programs pass to the allocator and write into the heap, a taken page
that is not the last of its run is followed by a taken page that does not begin a
run, and malloc controls only pages that are taken and last.  `page_free`
therefore never walks off the page table.
-/

namespace XinOS.Page

open XinOS.Foundation

structure TableSound (h : Heap) (m : Memory) : Prop where
  linked : (h.pageFlags m).Linked h.numPages
  malloced : ∀ k < h.numPages, isMalloced m (h.desc k) = true →
    isPageFree m (h.desc k) = false ∧ isPageLast m (h.desc k) = true

private theorem or_pageLast_tests : ∀ x : Byte,
    ((x ||| pageLast) &&& pageTaken) = (x &&& pageTaken) ∧
    ((x ||| pageLast) &&& pageFirst) = (x &&& pageFirst) ∧
    ((x ||| pageLast) &&& pageMalloc) = (x &&& pageMalloc) ∧
    ((x ||| pageLast) &&& pageLast != 0) = true := by
  decide

private theorem or_and_ne_zero (x y z : Byte) :
    ((x ||| y) &&& z != 0) = ((x &&& z != 0) || (y &&& z != 0)) := by
  rw [BitVec.and_or_distrib_right, Bool.eq_iff_iff]
  simp only [bne_iff_ne, ne_eq, Bool.or_eq_true, BitVec.ofNat_eq_ofNat,
    BitVec.or_eq_zero_iff, not_and_or]

theorem or_flagByte_tests (x : Byte) (first last mal : Bool) :
    ((x ||| flagByte first last mal) &&& pageTaken == 0) = false ∧
    ((x ||| flagByte first last mal) &&& pageFirst != 0) =
      ((x &&& pageFirst != 0) || first) ∧
    ((x ||| flagByte first last mal) &&& pageLast != 0) =
      ((x &&& pageLast != 0) || last) ∧
    ((x ||| flagByte first last mal) &&& pageMalloc != 0) =
      ((x &&& pageMalloc != 0) || mal) := by
  obtain ⟨htaken, hfirst, hlast, hmal⟩ := flagByte_flags first last mal
  refine ⟨?_, ?_, ?_, ?_⟩
  · rw [beq_eq_false_iff_ne, ne_eq] at htaken ⊢
    rw [BitVec.and_or_distrib_right]
    exact fun hzero => htaken (BitVec.or_eq_zero_iff.mp hzero).2
  · rw [or_and_ne_zero, hfirst]
  · rw [or_and_ne_zero, hlast]
  · rw [or_and_ne_zero, hmal]

section Sound

variable {h : Heap} {m m' : Memory}

theorem TableSound.congr (hs : TableSound h m)
    (hm : ∀ k < h.numPages, m' (h.desc k) = m (h.desc k)) : TableSound h m' := by
  refine ⟨hs.linked.congr fun k hk => ?_, fun k hk hmal => ?_⟩
  · simp only [Heap.pageFlags, isPageFree, isPageFirst, isPageLast, hm k hk,
      and_self]
  · rw [isMalloced, hm k hk] at hmal
    rw [isPageFree, isPageLast, hm k hk]
    exact hs.malloced k hk hmal

theorem tableSound_init (r : Region) (m : Memory) :
    TableSound r.heap (heapInit r m).mem := by
  have hzero : ∀ k < r.heap.numPages, (heapInit r m).mem (r.heap.desc k) = 0 :=
    fun k hk => ((heapInv_init r m).desc_eq_zero_iff hk).mpr (by simp [heapInit])
  refine ⟨⟨fun k hk htaken => ?_, fun k hk hfirst => ?_⟩, fun k hk hmal => ?_⟩
  · simp [Heap.pageFlags, isPageFree, hzero k hk] at htaken
  · simp [Heap.pageFlags, isPageFirst, hzero k hk] at hfirst
  · simp [isMalloced, hzero k hk] at hmal

theorem TableSound.not_malloced_of_free (hs : TableSound h m) {k : Nat}
    (hk : k < h.numPages) (hfree : isPageFree m (h.desc k) = true) :
    isMalloced m (h.desc k) = false := by
  by_contra hmal
  rw [(hs.malloced k hk (by simpa using hmal)).1] at hfree
  contradiction

theorem TableSound.mallocPage (hs : TableSound h m) {k : Nat}
    (hk : k < h.numPages) (hmal : isMalloced m (h.desc k) = true) :
    MallocPage h m k :=
  ⟨hmal, (hs.malloced k hk hmal).1, (hs.malloced k hk hmal).2⟩

theorem TableSound.exists_runsTo (hs : TableSound h m) {k : Nat}
    (hk : k < h.numPages) (htaken : isPageFree m (h.desc k) = false) :
    ∃ e < h.numPages, (h.pageFlags m).RunsTo k e :=
  hs.linked.exists_runsTo hk (by simp [Heap.pageFlags, htaken])

/-! ## `page_alloc` and `page_free` -/

theorem TableSound.setLast (hs : TableSound h m) (x : Nat) :
    TableSound h (setPageFlags m x pageLast) := by
  have htests := fun k => or_pageLast_tests (m (h.desc k))
  refine ⟨hs.linked.addLast fun k _ => ?_, fun k hk hmal => ?_⟩
  · simp only [Heap.pageFlags, isPageFree, isPageFirst, isPageLast, setPageFlags,
      Memory.modify_apply]
    split_ifs with hkx
    · rw [(htests k).1, (htests k).2.1, (htests k).2.2.2]
      exact ⟨rfl, rfl, fun _ => rfl⟩
    · exact ⟨rfl, rfl, id⟩
  · simp only [isMalloced, isPageFree, isPageLast, setPageFlags,
      Memory.modify_apply] at hmal ⊢
    split_ifs at hmal ⊢ with hkx
    · rw [(htests k).2.2.1] at hmal
      rw [(htests k).1, (htests k).2.2.2]
      exact ⟨(hs.malloced k hk hmal).1, rfl⟩
    · exact hs.malloced k hk hmal

theorem TableSound.closePrevPage (hs : TableSound h m) (k : Nat) :
    TableSound h (closePrevPage h m (h.desc k)) := by
  rw [closePrevPage_desc]
  split_ifs
  · exact hs.setLast _
  · exact hs

theorem TableSound.addRun (hs : TableSound h m) {i n : Nat} (mal : Bool)
    (hn : 1 ≤ n) (hN : i + n ≤ h.numPages) (hfree : h.RunFree m i n)
    (htable : ∀ j < h.numPages, m' (h.desc j) =
      if i ≤ j ∧ j < i + n then m (h.desc j) ||| flagByte (decide (j = i))
        (decide (j + 1 = i + n)) (mal && decide (j + 1 = i + n))
      else m (h.desc j)) : TableSound h m' := by
  have hrun : ∀ k, i ≤ k → k < i + n → isPageFree m (h.desc k) = true := by
    intro k hik hk
    have := hfree (k - i) (by omega)
    rwa [Nat.add_sub_cancel' hik] at this
  have htests := fun k => or_flagByte_tests (m (h.desc k)) (decide (k = i))
    (decide (k + 1 = i + n)) (mal && decide (k + 1 = i + n))
  refine ⟨(hs.linked.mark hN (fun k hik hk => ?_) hn).congr fun k hk => ?_,
    fun k hk hmal => ?_⟩
  · simp [Heap.pageFlags, hrun k hik hk]
  · simp only [Heap.pageFlags, Flags.mark, isPageFree, isPageFirst, isPageLast,
      htable k hk]
    split_ifs with hk'
    · rw [(htests k).1, (htests k).2.1, (htests k).2.2.1]
      simp [hk']
    · have hki : ¬k = i := by omega
      have hkn : ¬k + 1 = i + n := by omega
      simp [hk', hki, hkn]
  · simp only [isMalloced, isPageFree, isPageLast, htable k hk] at hmal ⊢
    split_ifs at hmal ⊢ with hk'
    · have hold := hs.not_malloced_of_free hk (hrun k hk'.1 hk'.2)
      rw [isMalloced] at hold
      rw [(htests k).2.2.2, hold, Bool.false_or, Bool.and_eq_true] at hmal
      rw [(htests k).1, (htests k).2.2.1, hmal.2, Bool.or_true]
      exact ⟨rfl, rfl⟩
    · exact hs.malloced k hk hmal

theorem TableSound.cutRun (hs : TableSound h m) {k e : Nat}
    (hr : (h.pageFlags m).RunsTo k e) :
    TableSound h ((Page.closePrevPage h m (h.desc k)).modifyRange (fun _ => 0)
      (e + 1 - k) (h.desc k)) := by
  have hle := hr.le
  have hclose := hs.closePrevPage k
  have hbyte : ∀ j, ((Page.closePrevPage h m (h.desc k)).modifyRange (fun _ => 0)
      (e + 1 - k) (h.desc k)) (h.desc j) =
        if k ≤ j ∧ j ≤ e then 0
        else Page.closePrevPage h m (h.desc k) (h.desc j) := by
    intro j
    have hiff : (h.desc k ≤ h.desc j ∧ h.desc j < h.desc k + (e + 1 - k)) ↔
        (k ≤ j ∧ j ≤ e) := by unfold Heap.desc; omega
    rw [Memory.modifyRange_apply]
    simp only [hiff]
  refine ⟨(hs.linked.cut hr).congr fun j hj => ?_, fun j hj hmal => ?_⟩
  · simp only [Heap.pageFlags, Flags.cut, isPageFree, isPageFirst, isPageLast,
      hbyte]
    by_cases hin : k ≤ j ∧ j ≤ e
    · have hjk : ¬j + 1 = k := by omega
      simp [hin, hjk]
    · rw [if_neg hin, closePrevPage_desc, decide_eq_false hin]
      by_cases hprev : isPageFirst m (h.desc k) = false ∧ 1 ≤ k ∧
          isPageFree m (h.desc (k - 1)) = false
      · rw [if_pos hprev, setPageFlags, Memory.modify_apply]
        have hfk : (m (h.desc k) &&& pageFirst != 0) = false := hprev.1
        simp only [h.desc_inj, hfk]
        by_cases hjk : j = k - 1
        · have htests := or_pageLast_tests (m (h.desc j))
          have htj : (m (h.desc j) &&& pageTaken == 0) = false := hjk ▸ hprev.2.2
          rw [if_pos hjk, htests.1, htests.2.1, htests.2.2.2, htj,
            decide_eq_true (by omega : j + 1 = k)]
          simp
        · have hjk' : ¬j + 1 = k := by omega
          simp [hjk, hjk']
      · rw [if_neg hprev]
        have hnot : (decide (j + 1 = k) && !(m (h.desc k) &&& pageFirst != 0) &&
            !(m (h.desc j) &&& pageTaken == 0)) = false := by
          by_contra hn
          simp only [Bool.not_eq_false, Bool.and_eq_true, decide_eq_true_iff,
            Bool.not_eq_true'] at hn
          obtain ⟨⟨hjk, hfk⟩, htj⟩ := hn
          exact hprev ⟨hfk, by omega, by rw [← hjk]; exact htj⟩
        rw [hnot]
        simp
  · rw [isMalloced, hbyte] at hmal
    split_ifs at hmal with hin
    · simp at hmal
    · rw [isPageFree, isPageLast, hbyte, if_neg hin]
      exact hclose.malloced j hj hmal

theorem Heap.closePrevPage_same {k : Nat} (hk : k < h.numPages) :
    Memory.SameOutside (h.desc 0) (h.desc h.numPages) m
      (Page.closePrevPage h m (h.desc k)) := by
  rw [closePrevPage_desc]
  split_ifs
  · exact Memory.SameOutside.modify m _ (by unfold Heap.desc; omega)
      (by unfold Heap.desc; omega)
  · exact .refl _ _ _

/-- `page_free` returns for every argument, and changes the page table only. -/
theorem TableSound.pageFree (hs : TableSound h m) (hN : h.numPages < 2 ^ 31)
    (p : Nat) : ∃ m', Page.pageFree h m p = some m' ∧ TableSound h m' ∧
      Memory.SameOutside (h.desc 0) (h.desc h.numPages) m m' := by
  by_cases href : p = 0 ∨ p ≥ h.allocEnd ∨ p < h.allocStart
  · exact ⟨m, by rw [Page.pageFree, pageFreeTrace, if_pos href]; rfl, hs, .refl _ _ _⟩
  · obtain ⟨hp, hp'⟩ := h.base_pageOf_le (by omega : h.allocStart ≤ p)
    have hk := h.pageOf_lt (p := p) (by omega) (by omega)
    have hsame := h.closePrevPage_same (m := m) hk
    by_cases hfree : isPageFree m (h.desc (h.pageOf p)) = true
    · have hfree' : isPageFree (Page.closePrevPage h m (h.desc (h.pageOf p)))
          (h.desc (h.pageOf p)) = true := by
        rw [isPageFree, closePrevPage_of_le h m (le_refl _)]
        exact hfree
      refine ⟨_, ?_, hs.closePrevPage _, hsame⟩
      rw [Page.pageFree, h.pageFreeTrace_inPage hk hp hp',
        show walkFuel = (2 ^ 64 - 1) + 1 from rfl, pageFreeLoop_free hfree']
      rfl
    · obtain ⟨e, he, hr⟩ := hs.exists_runsTo hk (by simpa using hfree)
      refine ⟨_, ?_, hs.cutRun hr, hsame.trans (Memory.SameOutside.modifyRange _ _
        (by unfold Heap.desc; omega) (by unfold Heap.desc; omega))⟩
      rw [Page.pageFree, h.pageFreeTrace_of_runsTo hN hr he hp hp']
      rfl

/-! ## `malloc` and `free` -/

theorem TableSound.granted (hs : TableSound h m) (hfit : h.TableFits)
    {a : Allocation} (hg : Granted h m a m') : TableSound h m' := by
  cases hg with
  | @blocks k i size _ _ hpos _ _ hfit' =>
      have hsame := (takeBlocks_flags m (h.blockStart k) i (blockTotal size)
        (blockTotal_pos hpos) hfit'.1.1).1
      exact hs.congr fun j hj => h.desc_of_sameOutside hfit hj hsame
  | pages _ hp => exact hs.addRun _ hp.onePage hp.inside hp.free hp.table

theorem TableSound.toggleMalloc (hs : TableSound h m) {x : Nat}
    (hmal : isMalloced m x = true) :
    TableSound h (m.modify x (· ^^^ pageMalloc)) := by
  have htests := fun k => xor_pageMalloc_tests (m (h.desc k))
  refine ⟨hs.linked.congr fun k _ => ?_, fun k hk hmal' => ?_⟩
  · simp only [Heap.pageFlags, isPageFree, isPageFirst, isPageLast,
      Memory.modify_apply]
    split_ifs
    · simp only [(htests k).1, (htests k).2.1, (htests k).2.2, and_self]
    · simp only [and_self]
  · simp only [isMalloced, isPageFree, isPageLast, Memory.modify_apply] at hmal' ⊢
    split_ifs at hmal' ⊢ with hkx
    · rw [isMalloced, ← hkx] at hmal
      rw [(htests k).1, (htests k).2.1]
      exact hs.malloced k hk hmal
    · exact hs.malloced k hk hmal'

end Sound

/-! ## The block loop of `free` on any memory -/

theorem blockFreeLoop_clears {fuel : Nat} {m m' : Memory} {start block : Nat}
    (hok : blockFreeLoop fuel m start block = some m') :
    ∃ d, ∀ x, x ≠ start + 818 → x ≠ start + 819 →
      (block ≤ x ∧ x < d → isBlockFree m x = false) ∧
      m' x = if block ≤ x ∧ x < d then (m x >>> 6) <<< 6 else m x := by
  induction fuel generalizing m block with
  | zero => simp [blockFreeLoop] at hok
  | succ fuel ih =>
      rw [blockFreeLoop] at hok
      split_ifs at hok with hfree
      · cases hok
        exact ⟨block, fun x _ _ => ⟨fun hx => by omega, by rw [if_neg (by omega)]⟩⟩
      · have hcleared : ∀ x, x ≠ start + 818 → x ≠ start + 819 →
            decreaseBlockUsage (m.modify block fun y => (y >>> 6) <<< 6) start x =
              if x = block then (m x >>> 6) <<< 6 else m x := by
          intro x h818 h819
          rw [decreaseBlockUsage_same _ start x (by omega), Memory.modify_apply]
        simp only at hok
        split_ifs at hok with hlast
        · cases hok
          refine ⟨block + 1, fun x h818 h819 => ⟨fun hx => ?_, ?_⟩⟩
          · rw [show x = block by omega]
            simpa using hfree
          · have hiff : x = block ↔ block ≤ x ∧ x < block + 1 := by omega
            rw [hcleared x h818 h819]
            simp only [hiff]
        · obtain ⟨d, hd⟩ := ih hok
          refine ⟨max d (block + 1), fun x h818 h819 => ?_⟩
          obtain ⟨htaken, hx⟩ := hd x h818 h819
          rw [hcleared x h818 h819] at hx
          by_cases hxb : x = block
          · refine ⟨fun _ => by rw [hxb]; simpa using hfree, ?_⟩
            rw [hx, if_neg (by omega), if_pos hxb, if_pos (by omega)]
          · have hiff : (block + 1 ≤ x ∧ x < d) ↔
                (block ≤ x ∧ x < max d (block + 1)) := by omega
            rw [if_neg hxb] at hx
            refine ⟨fun hin => ?_, by rw [hx]; simp only [hiff]⟩
            have := htaken (hiff.mpr hin)
            rwa [isBlockFree, hcleared x h818 h819, if_neg hxb] at this

end XinOS.Page
