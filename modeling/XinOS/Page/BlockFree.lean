import XinOS.Page.Grants
import XinOS.Foundation.Flags

/-!
# Freeing inside a page of blocks

`WellFormed` says by the flags alone, without a ledger, when a block table is in
order.  From such a table `free` takes the blocks from its argument to the end of
the run, interior pointers included, and leaves a table that is in order again.
-/

namespace XinOS.Page

open XinOS.Foundation

def blockFlags (m : Memory) (start : Nat) : Flags where
  taken j := !isBlockFree m (start + j)
  first j := isBlockFirst m (start + j)
  last j := isBlockLast m (start + j)

/-- Every taken block that is not last is followed by a taken one that is not
first, and the other way round; the other blocks have no flags, and the counter
counts the taken blocks. -/
structure WellFormed (m : Memory) (start : Nat) : Prop where
  next : ∀ j < blockCount, isBlockFree m (start + j) = false →
    isBlockLast m (start + j) = false → j + 1 < blockCount ∧
      isBlockFree m (start + (j + 1)) = false ∧
      isBlockFirst m (start + (j + 1)) = false
  prev : ∀ j < blockCount, isBlockFree m (start + j) = false →
    isBlockFirst m (start + j) = false → 1 ≤ j ∧
      isBlockFree m (start + (j - 1)) = false ∧
      isBlockLast m (start + (j - 1)) = false
  blank : ∀ j < blockCount, isBlockFree m (start + j) = true →
    flagBits (m (start + j)) = 0
  usage : getMemoryUsage m start = takenBlocks m start

section Table

variable {m m' : Memory} {start k e : Nat}

theorem WellFormed.tight (hw : WellFormed m start) :
    (blockFlags m start).Tight blockCount where
  next j hj htaken hlast := by
    have hnext := hw.next j hj (by simpa [blockFlags] using htaken) hlast
    exact ⟨hnext.1, by simp [blockFlags, hnext.2.1], hnext.2.2⟩
  first j hj hfirst := by
    by_contra hfree
    have hbits := hw.blank j hj (by simpa [blockFlags] using hfree)
    simp [blockFlags, isBlockFirst_eq, hbits] at hfirst
  prev j hj htaken hfirst := by
    have hprev := hw.prev j hj (by simpa [blockFlags] using htaken) hfirst
    exact ⟨hprev.1, by simp [blockFlags, hprev.2.1], hprev.2.2⟩
  blank j hj hfree := by
    have hbits := hw.blank j hj (by simpa [blockFlags] using hfree)
    simp [blockFlags, isBlockLast_eq, hbits]

theorem wellFormed_of_tight (ht : (blockFlags m start).Tight blockCount)
    (hblank : ∀ j < blockCount, isBlockFree m (start + j) = true →
      flagBits (m (start + j)) = 0)
    (husage : getMemoryUsage m start = takenBlocks m start) :
    WellFormed m start where
  next j hj htaken hlast := by
    have hnext := ht.next j hj (by simp [blockFlags, htaken]) hlast
    exact ⟨hnext.1, by simpa [blockFlags] using hnext.2.1, hnext.2.2⟩
  prev j hj htaken hfirst := by
    have hprev := ht.prev j hj (by simp [blockFlags, htaken]) hfirst
    exact ⟨hprev.1, by simpa [blockFlags] using hprev.2.1, hprev.2.2⟩
  blank := hblank
  usage := husage

theorem WellFormed.congr (hw : WellFormed m start)
    (hm : ∀ b, start ≤ b → b < start + mallocTableSize → m' b = m b) :
    WellFormed m' start := by
  have hentry := blockEntry_congr hm
  refine wellFormed_of_tight (hw.tight.congr fun j hj => ?_)
    (fun j hj hfree => ?_) ?_
  · simp only [blockFlags, isBlockFree, isBlockFirst, isBlockLast, hentry j hj,
      and_self]
  · rw [hentry j hj]
    refine hw.blank j hj ?_
    rwa [isBlockFree, hentry j hj] at hfree
  · rw [getMemoryUsage_congr hm, takenBlocks_congr hm, hw.usage]

theorem BlockTable.wellFormed {S : Set Span} (hb : BlockTable m start S) :
    WellFormed m start := by
  have hmem : ∀ j < blockCount, isBlockFree m (start + j) = false →
      ∃ I ∈ S, j ∈ I := by
    intro j hj htaken
    by_contra hnone
    rw [(hb.isBlockFree_iff hj).mpr fun I hI hjI => hnone ⟨I, hI, hjI⟩] at htaken
    contradiction
  refine ⟨fun j hj htaken hlast => ?_, fun j hj htaken hfirst => ?_,
    fun j hj hfree => hb.entries.free j hj ((hb.isBlockFree_iff hj).mp hfree),
    hb.usage⟩
  · obtain ⟨I, hI, hjI⟩ := hmem j hj htaken
    have hN := hb.separated.inside I hI
    have hin := Span.mem_iff.mp hjI
    rw [(hb.flags_of_mem hI hjI).2.2, decide_eq_false_iff_not] at hlast
    obtain ⟨htaken', hfirst', -⟩ := hb.flags_of_mem hI
      (Span.mem_iff.mpr (by omega) : j + 1 ∈ I)
    exact ⟨by omega, htaken', hfirst'.trans (decide_eq_false (by omega))⟩
  · obtain ⟨I, hI, hjI⟩ := hmem j hj htaken
    have hin := Span.mem_iff.mp hjI
    rw [(hb.flags_of_mem hI hjI).2.1, decide_eq_false_iff_not] at hfirst
    obtain ⟨htaken', -, hlast'⟩ := hb.flags_of_mem hI
      (Span.mem_iff.mpr (by omega) : j - 1 ∈ I)
    exact ⟨by omega, htaken', hlast'.trans (decide_eq_false (by omega))⟩

theorem BlockTable.runsTo {S : Set Span} (hb : BlockTable m start S) {I : Span}
    (hI : I ∈ S) : (blockFlags m start).RunsTo I.lo (I.hi - 1) := by
  have hproper := hb.separated.proper I hI
  have hflags : ∀ j, I.lo ≤ j → j ≤ I.hi - 1 →
      isBlockFree m (start + j) = false ∧
      isBlockLast m (start + j) = decide (j + 1 = I.hi) := by
    intro j hlo hj
    have hmem := hb.flags_of_mem hI (Span.mem_iff.mpr (by omega) : j ∈ I)
    exact ⟨hmem.1, hmem.2.2⟩
  refine ⟨by omega, fun j hlo hj => ?_, fun j hlo hj => ?_, ?_⟩
  · simp [blockFlags, (hflags j hlo hj).1]
  · exact (hflags j hlo (by omega)).2.trans (decide_eq_false (by omega))
  · exact (hflags _ (by omega) (le_refl _)).2.trans (decide_eq_true (by omega))

theorem WellFormed.take {i n : Nat} (hw : WellFormed m start) (hn : 1 ≤ n)
    (hi : i + n ≤ blockCount)
    (hfree : ∀ j, i ≤ j → j < i + n → isBlockFree m (start + j) = true) :
    WellFormed (takeBlocks m start (start + i) n) start := by
  have hblank : ∀ j, i ≤ j → j < i + n → flagBits (m (start + j)) = 0 :=
    fun j hij hj => hw.blank j (by omega) (hfree j hij hj)
  obtain ⟨-, hbits, htaken, husage⟩ := takeBlocks_blank hn hi hw.usage hblank
  have hmark := fun j => blockMark_flags (decide (j = i)) (decide (j + 1 = i + n))
  refine wellFormed_of_tight ((hw.tight.mark hi (fun j hij hj => ?_) hn).congr
    fun j hj => ?_) (fun j hj hjfree => ?_) ?_
  · simp [blockFlags, hfree j hij hj]
  · have hiff : (i ≤ j ∧ j < i + n) ↔ j ∈ (⟨i, i + n⟩ : Span) := Iff.rfl
    simp only [blockFlags, Flags.mark, htaken j hj, isBlockFirst_eq,
      isBlockLast_eq, hbits j hj, hiff]
    by_cases hin : j ∈ (⟨i, i + n⟩ : Span)
    · simp only [if_pos hin, blockMark, (hmark j).2.2.1, (hmark j).2.2.2,
        hblank j hin.1 hin.2, decide_eq_true hin]
      simp
    · have hji : ¬j = i := fun heq => hin (Span.mem_iff.mpr (by simp only; omega))
      have hjn : ¬j + 1 = i + n := fun heq =>
        hin (Span.mem_iff.mpr (by simp only; omega))
      simp [hin, hji, hjn]
  · rw [htaken j hj, Bool.and_eq_true] at hjfree
    have hout : j ∉ (⟨i, i + n⟩ : Span) := by simpa using hjfree.2
    rw [hbits j hj, if_neg hout]
    exact hw.blank j hj hjfree.1
  · exact husage

theorem WellFormed.exists_end (hw : WellFormed m start) (hk : k < blockCount)
    (htaken : isBlockFree m (start + k) = false) :
    ∃ e < blockCount, (blockFlags m start).RunsTo k e :=
  hw.tight.exists_runsTo hk (by simp [blockFlags, htaken])

end Table

/-! ## The block part of `free` -/

def freedFlags (m : Memory) (start k e j : Nat) : Byte :=
  if k ≤ j ∧ j ≤ e then 0
  else if j + 1 = k ∧ isBlockFirst m (start + k) = false then
    flagBits (m (start + j)) ||| blockLast
  else flagBits (m (start + j))

private theorem or_blockLast_tests : ∀ x : Byte,
    (flagBits x ||| blockLast) &&& blockTaken = flagBits x &&& blockTaken ∧
    (flagBits x ||| blockLast) &&& blockFirst = flagBits x &&& blockFirst ∧
    ((flagBits x ||| blockLast) &&& blockLast != 0) = true ∧
    flagBits (x ||| blockLast) = flagBits x ||| blockLast := by
  decide

section Loop

variable {m m' : Memory} {start k e : Nat}

theorem WellFormed.closePrevBlock_spec (hw : WellFormed m start)
    (hstart : 1 ≤ start) (hk : k < blockCount)
    (htaken : isBlockFree m (start + k) = false) :
    (∀ b, b + 1 ≠ start + k ∨ b < start →
      closePrevBlock m start (start + k) b = m b) ∧
    (∀ j < blockCount, flagBits (closePrevBlock m start (start + k) (start + j)) =
      if j + 1 = k ∧ isBlockFirst m (start + k) = false then
        flagBits (m (start + j)) ||| blockLast
      else flagBits (m (start + j))) ∧
    getMemoryUsage (closePrevBlock m start (start + k)) start =
      getMemoryUsage m start := by
  cases hfirst : isBlockFirst m (start + k) with
  | true => simp [closePrevBlock, hfirst]
  | false =>
      obtain ⟨hk1, hprev, -⟩ := hw.prev k hk htaken hfirst
      have hblock : start + k - 1 = start + (k - 1) := by omega
      have heq : closePrevBlock m start (start + k) =
          setBlockFlags m (start + (k - 1)) blockLast := by
        rw [closePrevBlock, hfirst, hblock, if_neg (by simp),
          if_pos ⟨by omega, hprev⟩]
      rw [heq, setBlockFlags]
      refine ⟨fun b hb => Memory.modify_of_ne (by omega), fun j _ => ?_,
        getMemoryUsage_modify (by omega) fun x => (or_flag_counter x).2.2⟩
      have hiff : start + j = start + (k - 1) ↔ j + 1 = k := by omega
      rw [Memory.modify_apply]
      simp only [hiff, and_true]
      split_ifs
      · exact (or_blockLast_tests _).2.2.2
      · rfl

/-- From block `k` of a table in order, the block part of `free` clears the run
of `k` from `k` on. -/
theorem WellFormed.freeLoop (hw : WellFormed m start) (hstart : 1 ≤ start)
    (hr : (blockFlags m start).RunsTo k e) (he : e < blockCount) :
    ∃ m', blockFreeLoop walkFuel (closePrevBlock m start (start + k)) start
        (start + k) = some m' ∧
      Memory.SameOutside start (start + mallocTableSize) m m' ∧
      (∀ j < blockCount, flagBits (m' (start + j)) = freedFlags m start k e j) ∧
      getMemoryUsage m' start + (e + 1 - k) = getMemoryUsage m start := by
  have hle := hr.le
  have hblocks : blockCount = 819 := rfl
  have htaken : ∀ j, k ≤ j → j ≤ e → isBlockFree m (start + j) = false :=
    fun j hkj hj => by simpa [blockFlags] using hr.taken j hkj hj
  obtain ⟨hsame, hflags, husage⟩ :=
    hw.closePrevBlock_spec hstart (by omega) (htaken k (le_refl _) hle)
  have hkeep : ∀ j, k ≤ j → closePrevBlock m start (start + k) (start + j) =
      m (start + j) := fun j hkj => hsame _ (.inl (by omega))
  -- the run alone accounts for that much of the counter
  have hcount : e - k < getMemoryUsage m start := by
    have hsplit := countBelow_add (N := blockCount) (I := ⟨k, e + 1⟩)
      (p := fun j => !isBlockFree m (start + j) &&
        !decide (j ∈ (⟨k, e + 1⟩ : Span)))
      (q := fun j => !isBlockFree m (start + j)) (by simp only; omega)
      (fun j hj => by simp only [decide_eq_true hj, Bool.not_true, Bool.and_false])
      (fun j _ => by
        by_cases hj : j ∈ (⟨k, e + 1⟩ : Span)
        · rw [htaken j hj.1 (Nat.lt_succ_iff.mp hj.2), decide_eq_true hj]
          rfl
        · rw [decide_eq_false hj]
          simp only [Bool.not_false, Bool.and_true, Bool.or_false])
    rw [hw.usage, takenBlocks, hsplit]
    simp only
    omega
  obtain ⟨m', hloop, hsame', hflags', husage'⟩ := blockFreeLoop_run
    (closePrevBlock m start (start + k)) start k (e - k)
    (by unfold walkFuel; omega : e - k < walkFuel) (by omega)
    (by rw [husage]; exact hcount)
    (fun j hkj hj => by
      rw [isBlockFree, hkeep j hkj, ← isBlockFree]
      exact htaken j hkj (by omega))
    (fun j hkj hj => by
      rw [isBlockLast, hkeep j hkj, ← isBlockLast]
      rcases Nat.eq_or_lt_of_le (by omega : j ≤ e) with rfl | hlt
      · rw [show isBlockLast m (start + j) = true from hr.last]
        exact (decide_eq_true (by omega)).symm
      · rw [show isBlockLast m (start + j) = false from hr.inner j hkj hlt]
        exact (decide_eq_false (by omega)).symm)
  refine ⟨m', hloop, ?_, fun j hj => ?_, by omega⟩
  · intro b hb
    unfold mallocTableSize at hb
    exact (hsame' b hb).trans (hsame b (by omega))
  · have hiff : (k ≤ j ∧ j ≤ k + (e - k)) ↔ (k ≤ j ∧ j ≤ e) := by omega
    rw [hflags' j hj, freedFlags]
    simp only [hiff]
    split_ifs with hin hprev
    · rfl
    · rw [hflags j hj, if_pos hprev]
    · rw [hflags j hj, if_neg hprev]

theorem WellFormed.flags_freed (hw : WellFormed m start)
    (hr : (blockFlags m start).RunsTo k e) (he : e < blockCount)
    (hflags : ∀ j < blockCount,
      flagBits (m' (start + j)) = freedFlags m start k e j) :
    ∀ j < blockCount,
      (blockFlags m' start).taken j = ((blockFlags m start).cut k e).taken j ∧
      (blockFlags m' start).first j = ((blockFlags m start).cut k e).first j ∧
      (blockFlags m' start).last j = ((blockFlags m start).cut k e).last j := by
  intro j hj
  have hle := hr.le
  simp only [blockFlags, Flags.cut, isBlockFree_eq, isBlockFirst_eq,
    isBlockLast_eq, hflags j hj, freedFlags]
  by_cases hin : k ≤ j ∧ j ≤ e
  · have hjk : ¬j + 1 = k := by omega
    simp only [if_pos hin, decide_eq_true hin, decide_eq_false hjk]
    refine ⟨?_, ?_, ?_⟩ <;> simp
  · by_cases hprev : j + 1 = k ∧
        (flagBits (m (start + k)) &&& blockFirst != 0) = false
    · have htests := or_blockLast_tests (m (start + j))
      have hfirst : isBlockFirst m (start + k) = false := by
        rw [isBlockFirst_eq]
        exact hprev.2
      have htaken : isBlockFree m (start + k) = false := by
        simpa [blockFlags] using hr.taken k (le_refl _) hle
      have htp := (hw.prev k (by omega) htaken hfirst).2.1
      rw [← hprev.1, Nat.add_sub_cancel, isBlockFree_eq] at htp
      rw [if_neg hin, if_pos hprev, htests.1, htests.2.1, htests.2.2.1, hprev.2,
        htp, decide_eq_false hin, decide_eq_true hprev.1]
      simp
    · have hprev' : (decide (j + 1 = k) &&
          !(flagBits (m (start + k)) &&& blockFirst != 0)) = false := by
        by_contra hn
        simp only [Bool.not_eq_false, Bool.and_eq_true, decide_eq_true_iff,
          Bool.not_eq_true'] at hn
        exact hprev hn
      rw [if_neg hin, if_neg hprev, hprev']
      simp [hin]

theorem WellFormed.of_freed (hw : WellFormed m start)
    (hr : (blockFlags m start).RunsTo k e) (he : e < blockCount)
    (hflags : ∀ j < blockCount,
      flagBits (m' (start + j)) = freedFlags m start k e j)
    (husage : getMemoryUsage m' start + (e + 1 - k) = getMemoryUsage m start) :
    WellFormed m' start := by
  have hle := hr.le
  have hcut := hw.flags_freed hr he hflags
  have htaken : ∀ j < blockCount, (!isBlockFree m' (start + j)) =
      (!isBlockFree m (start + j) && !decide (k ≤ j ∧ j ≤ e)) :=
    fun j hj => (hcut j hj).1
  refine wellFormed_of_tight ((hw.tight.cut hr).congr hcut)
    (fun j hj hfree => ?_) ?_
  · have hout := htaken j hj
    rw [hfree] at hout
    rw [hflags j hj, freedFlags]
    split_ifs with hin hprev
    · rfl
    · have htk : isBlockFree m (start + k) = false := by
        simpa [blockFlags] using hr.taken k (le_refl _) hle
      have htp := (hw.prev k (by omega) htk hprev.2).2.1
      rw [← hprev.1, Nat.add_sub_cancel] at htp
      simp [htp, hin] at hout
    · refine hw.blank j hj ?_
      simpa [hin] using hout
  · have hsplit := countBelow_add (N := blockCount) (I := ⟨k, e + 1⟩)
      (p := fun j => !isBlockFree m' (start + j))
      (q := fun j => !isBlockFree m (start + j)) (by simp only; omega)
      (fun j hj => by
        obtain ⟨hkj, hje⟩ := Span.mem_iff.mp hj
        simp only at hkj hje
        rw [htaken j (by omega), decide_eq_true ⟨hkj, by omega⟩]
        simp)
      (fun j hj => by
        rw [htaken j hj]
        by_cases hin : k ≤ j ∧ j ≤ e
        · have hmem : j ∈ (⟨k, e + 1⟩ : Span) := Span.mem_iff.mpr (by
            simp only
            omega)
          have := hr.taken j hin.1 hin.2
          simp only [blockFlags] at this
          simp [hin, hmem, this]
        · have hmem : j ∉ (⟨k, e + 1⟩ : Span) := by
            rw [Span.mem_iff]
            simp only
            omega
          rw [decide_eq_false hin, decide_eq_false hmem]
          simp)
    have hused := hw.usage
    rw [takenBlocks] at hused ⊢
    simp only at hsplit
    omega

theorem BlockTable.release {S : Set Span} (hb : BlockTable m start S)
    (hstart : 1 ≤ start) {I : Span} (hI : I ∈ S) :
    ∃ m', blockFreeLoop walkFuel (closePrevBlock m start (start + I.lo)) start
        (start + I.lo) = some m' ∧
      Memory.SameOutside start (start + mallocTableSize) m m' ∧
      BlockTable m' start (S \ {I}) := by
  have hproper := hb.separated.proper I hI
  have hinside := hb.separated.inside I hI
  have hw := hb.wellFormed
  have hr : (blockFlags m start).RunsTo I.lo (I.hi - 1) := hb.runsTo hI
  have hfirst : isBlockFirst m (start + I.lo) = true := by
    rw [(hb.flags_of_mem hI (Span.mem_iff.mpr ⟨le_refl _, hproper⟩)).2.1]
    exact decide_eq_true rfl
  obtain ⟨m', hloop, hsame, hflags, husage⟩ := hw.freeLoop hstart hr (by omega)
  refine ⟨m', hloop, hsame, hb.separated.subset Set.sdiff_subset,
    hb.entries.remove hb.separated hI fun j hj => ?_,
    (hw.of_freed hr (by omega) hflags husage).usage⟩
  have hiff : (I.lo ≤ j ∧ j ≤ I.hi - 1) ↔ j ∈ I := by
    rw [Span.mem_iff]
    omega
  rw [hflags j hj, freedFlags]
  simp only [hiff, hfirst, Bool.true_eq_false, and_false, if_false]

end Loop

/-! ## `free` on an address in a page of blocks -/

structure MallocPage (h : Heap) (m : Memory) (k : Nat) : Prop where
  malloced : isMalloced m (h.desc k) = true
  taken : isPageFree m (h.desc k) = false
  last : isPageLast m (h.desc k) = true

def Heap.releasePage (h : Heap) (m : Memory) (k : Nat) : Memory :=
  clearPage (closePrevPage h (m.modify (h.desc k) (· ^^^ pageMalloc)) (h.desc k))
    (h.desc k)

theorem xor_pageMalloc_tests : ∀ x : Byte,
    ((x ^^^ pageMalloc) &&& pageTaken) = (x &&& pageTaken) ∧
    ((x ^^^ pageMalloc) &&& pageLast) = (x &&& pageLast) ∧
    ((x ^^^ pageMalloc) &&& pageFirst) = (x &&& pageFirst) := by
  decide

section Page

variable {h : Heap} {m : Memory} {k e : Nat}

theorem Heap.releasePage_same {x : Nat} (hx : h.desc k < x) :
    h.releasePage m k x = m x := by
  have hprev : h.desc (k - 1) ≤ h.desc k := by unfold Heap.desc; omega
  rw [Heap.releasePage, clearPage, Memory.modify_of_ne (by omega),
    closePrevPage_desc]
  split_ifs
  · rw [setPageFlags, Memory.modify_of_ne (by omega),
      Memory.modify_of_ne (by omega)]
  · exact Memory.modify_of_ne (by omega)

theorem Heap.releasePage_desc (hfirst : isPageFirst m (h.desc k) = true) (x : Nat) :
    h.releasePage m k x = if x = h.desc k then 0 else m x := by
  have hfirst' : isPageFirst (m.modify (h.desc k) (· ^^^ pageMalloc)) (h.desc k) =
      true := by
    rw [isPageFirst] at hfirst
    simp only [isPageFirst, Memory.modify_self, (xor_pageMalloc_tests _).2.2, hfirst]
  rw [Heap.releasePage, closePrevPage_desc, hfirst', if_neg (by simp), clearPage,
    Memory.modify_apply]
  split_ifs with hx
  · rfl
  · exact Memory.modify_of_ne hx

theorem Heap.pageFree_release (hN : h.numPages < 2 ^ 31) (hk : k < h.numPages)
    (htaken : isPageFree m (h.desc k) = false)
    (hlast : isPageLast m (h.desc k) = true) :
    pageFree h (m.modify (h.desc k) (· ^^^ pageMalloc)) (h.base k) =
      some (h.releasePage m k) := by
  have hr : (h.pageFlags (m.modify (h.desc k) (· ^^^ pageMalloc))).RunsTo k k := by
    have htests := xor_pageMalloc_tests (m (h.desc k))
    refine ⟨le_refl _, fun j hkj hj => ?_, fun j hkj hj => by omega, ?_⟩
    · rw [show j = k by omega]
      rw [isPageFree] at htaken
      simp only [Heap.pageFlags, isPageFree, Memory.modify_self, htests.1, htaken]
      rfl
    · rw [isPageLast] at hlast
      simp only [Heap.pageFlags, isPageLast, Memory.modify_self, htests.2.1, hlast]
  rw [pageFree, h.pageFreeTrace_of_runsTo hN hr hk (le_refl _)
    (h.base_lt_base_succ k), Nat.add_sub_cancel_left]
  rfl

theorem Heap.freeBlocks_of_loop (hfit : h.TableFits) {K p : Nat} {m₁ : Memory}
    (hK : K < h.numPages) (hpage : MallocPage h m K) (hlo : h.base K ≤ p)
    (hhi : p < h.base (K + 1))
    (hloop : blockFreeLoop walkFuel
      (closePrevBlock m (h.blockStart K)
        (h.blockStart K + (p - h.base K) / mallocSize))
      (h.blockStart K) (h.blockStart K + (p - h.base K) / mallocSize) = some m₁)
    (hsame : Memory.SameOutside (h.blockStart K)
      (h.blockStart K + mallocTableSize) m m₁) :
    Page.freeBlocks h m (h.desc K) p = .ok
      (if getMemoryUsage m₁ (h.blockStart K) = 0 then h.releasePage m₁ K
        else m₁) := by
  have hN := numPages_lt hfit
  have hdesc := h.desc_of_sameOutside hfit hK hsame
  simp only [Page.freeBlocks, h.getStartBlock_eq hlo hhi,
    h.getBlockByAddr_eq hlo hhi, hloop]
  split_ifs with hzero
  · have hrelease := h.pageFree_release (m := m₁) (by omega : h.numPages < 2 ^ 31) hK
      (by rw [isPageFree, hdesc]; exact hpage.taken)
      (by rw [isPageLast, hdesc]; exact hpage.last)
    rw [startMem_desc hK, hrelease]
  · rfl

theorem WellFormed.freeBlocks (hfit : h.TableFits) {K p : Nat}
    (hw : WellFormed m (h.blockStart K)) (hK : K < h.numPages)
    (hpage : MallocPage h m K) (hr : (blockFlags m (h.blockStart K)).RunsTo k e)
    (he : e < blockCount) (hp : h.base K + k * mallocSize ≤ p)
    (hp' : p < h.base K + (k + 1) * mallocSize) :
    ∃ m', Memory.SameOutside (h.blockStart K)
        (h.blockStart K + mallocTableSize) m m' ∧
      (∀ j < blockCount, flagBits (m' (h.blockStart K + j)) =
        freedFlags m (h.blockStart K) k e j) ∧
      WellFormed m' (h.blockStart K) ∧
      Page.freeBlocks h m (h.desc K) p = .ok
        (if getMemoryUsage m' (h.blockStart K) = 0 then h.releasePage m' K
          else m') := by
  have hle := hr.le
  have hsucc := h.base_succ K
  have hstart := h.blockStart_eq K
  have hblock : (p - h.base K) / mallocSize = k := by
    unfold mallocSize at *
    omega
  obtain ⟨m', hloop, hsame, hflags, husage⟩ :=
    hw.freeLoop (by omega) hr he
  refine ⟨m', hsame, hflags, hw.of_freed hr he hflags husage,
    h.freeBlocks_of_loop hfit hK hpage ((Nat.le_add_right _ _).trans hp) ?_
      (hblock.symm ▸ hloop) hsame⟩
  unfold blockCount at he
  unfold mallocSize at hp'
  unfold pageSize at hsucc
  omega

/-- The blocks from `k` to the end `e` of its run, and nothing else, have been
freed in page `K`. -/
structure FreedFrom (h : Heap) (m m' : Memory) (K k e : Nat) : Prop where
  flags : ∀ j < blockCount, flagBits (m' (h.blockStart K + j)) =
    freedFlags m (h.blockStart K) k e j
  ordered : WellFormed m' (h.blockStart K)
  released : isPageFree m' (h.desc K) = true ↔
    ∀ j < blockCount, isBlockFree m' (h.blockStart K + j) = true
  elsewhere : ∀ x, h.allocStart ≤ x → x < h.blockStart K ∨
    h.blockStart K + mallocTableSize ≤ x → m' x = m x

theorem WellFormed.usage_eq_zero_iff {start : Nat} (hw : WellFormed m start) :
    getMemoryUsage m start = 0 ↔
      ∀ j < blockCount, isBlockFree m (start + j) = true := by
  rw [hw.usage, takenBlocks, countBelow_eq_zero_iff]
  simp

theorem Heap.free_eq_freeBlocks {K p : Nat} (hK : K < h.numPages)
    (hmal : isMalloced m (h.desc K) = true) (hlo : h.base K ≤ p)
    (hhi : p < h.base (K + 1)) :
    free h m p = Page.freeBlocks h m (h.desc K) p := by
  have hstart := h.allocStart_pos
  have hle := h.allocStart_le_base K
  have hend := h.base_le_allocEnd (by omega : K + 1 ≤ h.numPages)
  rw [free, if_neg (by omega)]
  simp only [h.getPageByAddr_eq hlo hhi, hmal, if_true]

theorem WellFormed.free (hfit : h.TableFits) {K p : Nat}
    (hw : WellFormed m (h.blockStart K)) (hK : K < h.numPages)
    (hpage : MallocPage h m K) (hr : (blockFlags m (h.blockStart K)).RunsTo k e)
    (he : e < blockCount) (hp : h.base K + k * mallocSize ≤ p)
    (hp' : p < h.base K + (k + 1) * mallocSize) :
    ∃ m', Page.free h m p = .ok m' ∧ FreedFrom h m m' K k e := by
  have hle := hr.le
  have hsucc := h.base_succ K
  have htable := h.desc_lt_blockStart hfit hK (k := K)
  obtain ⟨m₁, hsame, hflags, hw', heq⟩ := hw.freeBlocks hfit hK hpage hr he hp hp'
  rw [← h.free_eq_freeBlocks hK hpage.malloced (by omega) (by
    unfold blockCount at he
    unfold mallocSize at hp'
    unfold pageSize at hsucc
    omega)] at heq
  refine ⟨_, heq, ?_⟩
  have hdesc := h.desc_of_sameOutside hfit hK hsame
  split_ifs with hzero
  · have hrel : ∀ x, h.desc K < x → h.releasePage m₁ K x = m₁ x :=
      fun x hx => h.releasePage_same hx
    have hw'' : WellFormed (h.releasePage m₁ K) (h.blockStart K) :=
      hw'.congr fun x hx _ => hrel x (by omega)
    refine ⟨fun j hj => ?_, hw'', ⟨fun _ => ?_, fun _ => ?_⟩, fun x hx hout => ?_⟩
    · rw [hrel _ (by omega), hflags j hj]
    · intro j hj
      rw [isBlockFree, hrel _ (by omega), ← isBlockFree]
      exact hw'.usage_eq_zero_iff.mp hzero j hj
    · simp [isPageFree, Heap.releasePage, clearPage]
    · have hbelow := h.desc_lt_base hfit hK (k := 0)
      unfold Heap.base at hbelow
      rw [hrel x (by omega)]
      exact hsame x hout
  · refine ⟨hflags, hw', ⟨fun hfree => ?_, fun hall => ?_⟩,
      fun x _ hout => hsame x hout⟩
    · rw [isPageFree, hdesc, ← isPageFree, hpage.taken] at hfree
      contradiction
    · exact absurd (hw'.usage_eq_zero_iff.mpr hall) hzero

end Page

/-- `free` on any address in a taken block of a page that malloc controls, if its
table is in order: exactly the blocks from there to the end of the run are freed,
the table is in order again, and the page is released if no block is left. -/
theorem free_in_block_page (b : Board) (m : Memory) (K k p : Nat)
    (hK : K < b.heap.numPages) (hpage : MallocPage b.heap m K)
    (hw : WellFormed m (b.heap.blockStart K)) (hk : k < blockCount)
    (htaken : isBlockFree m (b.heap.blockStart K + k) = false)
    (hp : b.heap.base K + k * mallocSize ≤ p)
    (hp' : p < b.heap.base K + (k + 1) * mallocSize) :
    ∃ e m', e < blockCount ∧
      (blockFlags m (b.heap.blockStart K)).RunsTo k e ∧
      free b.heap m p = .ok m' ∧ FreedFrom b.heap m m' K k e := by
  obtain ⟨e, he, hr⟩ := hw.exists_end hk htaken
  obtain ⟨m', hfree, hfreed⟩ := hw.free b.tableFits hK hpage hr he hp hp'
  exact ⟨e, m', he, hr, hfree, hfreed⟩

theorem free_in_block_page_of_interior :
    ∃ m m' : Memory, free twoPages.heap m 0x80008004 = .ok m' ∧
      FreedFrom twoPages.heap m m' 0 1 1 := by
  have hall : ∀ j, 0 ≤ j → j < 0 + 2 → isBlockFree
      (twoPages.heap.freshPage (fun _ => 0) 0) (twoPages.heap.blockStart 0 + j) =
        true := by
    intro j _ hj
    exact ((blockTable_mallocInit _ _).isBlockFree_iff
      (by unfold blockCount; omega)).mpr (by simp)
  have hw := (blockTable_mallocInit (setPageFlags (fun _ => 0)
    (twoPages.heap.desc 0) freshFlags) (twoPages.heap.base 0)).wellFormed.take
      (i := 0) (n := 2) (by decide) (by decide) hall
  obtain ⟨e, m', -, hr, hfree, hfreed⟩ := free_in_block_page twoPages _ 0 1
    0x80008004 (by decide) ⟨by decide +kernel, by decide +kernel, by decide +kernel⟩
    hw (by decide) (by decide +kernel) (by decide +kernel) (by decide +kernel)
  have hend : (blockFlags (takeBlocks (twoPages.heap.freshPage (fun _ => 0) 0)
      (twoPages.heap.blockStart 0) (twoPages.heap.blockStart 0 + 0) 2)
      (twoPages.heap.blockStart 0)).last 1 = true := by
    decide +kernel
  have he : e = 1 := hr.unique
    ⟨le_refl _, fun j h1 h2 => hr.taken j h1 (by have := hr.le; omega),
      fun j h1 h2 => by omega, hend⟩
  exact ⟨_, m', hfree, he ▸ hfreed⟩

end XinOS.Page
