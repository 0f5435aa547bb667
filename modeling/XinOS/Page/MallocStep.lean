import XinOS.Page.Grants

/-!
# `malloc` keeps the ledger right

A request is served from a page that malloc controls already, or from a run of
pages that were free.
-/

namespace XinOS.Page

open XinOS.Foundation

/-! ## Adding an allocation to the ledger -/

section Add

variable {h : Heap} {live : List Allocation} {a : Allocation} {k : Nat}

theorem blockPage_cons : blockPage h (a :: live) k =
    (usesBlocks a.size && a.lastPage h == k || blockPage h live k) := by
  simp [blockPage]

theorem blockRuns_cons_of_ne
    (hne : ¬(usesBlocks a.size = true ∧ a.lastPage h = k)) :
    blockRuns h (a :: live) k = blockRuns h live k := by
  ext J
  simp only [blockRuns, List.mem_cons, Set.mem_ofPred_eq]
  constructor
  · rintro ⟨b, rfl | hb, hu, hk, hJ⟩
    · exact absurd ⟨hu, hk⟩ hne
    · exact ⟨b, hb, hu, hk, hJ⟩
  · rintro ⟨b, hb, hrest⟩
    exact ⟨b, .inr hb, hrest⟩

theorem blockRuns_cons_self (live : List Allocation)
    (hu : usesBlocks a.size = true) :
    blockRuns h (a :: live) (a.lastPage h) =
      insert (a.blocks h) (blockRuns h live (a.lastPage h)) := by
  ext J
  simp only [blockRuns, List.mem_cons, Set.mem_ofPred_eq, Set.mem_insert_iff]
  constructor
  · rintro ⟨b, rfl | hb, hbu, hk, hJ⟩
    · exact .inl hJ.symm
    · exact .inr ⟨b, hb, hbu, hk, hJ⟩
  · rintro (rfl | ⟨b, hb, hrest⟩)
    · exact ⟨a, .inl rfl, hu, rfl, rfl⟩
    · exact ⟨b, .inr hb, hrest⟩

theorem blockRuns_eq_empty (hk : blockPage h live k = false) :
    blockRuns h live k = ∅ := by
  refine Set.eq_empty_of_forall_notMem ?_
  rintro J ⟨b, hb, hu, hbk, -⟩
  have := blockPage_iff.mpr ⟨b, hb, hu, hbk⟩
  simp [hk] at this

variable {s : HeapState}

theorem HeapInv.lastPage_lt (hi : HeapInv h s) {b : Allocation}
    (hb : b ∈ s.live) : b.lastPage h < h.numPages := by
  have hs := hi.shaped b hb
  have := hs.lastPage_succ
  have := hs.inside
  omega

theorem HeapInv.isMalloced_iff (hi : HeapInv h s) (hk : k < h.numPages) :
    isMalloced s.mem (h.desc k) = true ↔ blockPage h s.live k = true := by
  obtain ⟨S, hS⟩ := hi.pages
  by_cases hmem : ∃ I ∈ S, k ∈ I
  · obtain ⟨I, hI, hkI⟩ := hmem
    rw [(hS.table.flags_of_mem hI hkI).2.2.2]
  · have hfree : ∀ I ∈ S, k ∉ I := fun I hI hkI => hmem ⟨I, hI, hkI⟩
    rw [(hS.table.flags_of_free hk hfree).2.2.2]
    refine ⟨fun hf => absurd hf (by decide), fun hmal => ?_⟩
    obtain ⟨b, hb, hu, hbk⟩ := blockPage_iff.mp hmal
    obtain ⟨I, hI, hIhi, -⟩ := hS.covered b hb
    have hproper := hS.separated.proper I hI
    have hlast := (hi.shaped b hb).lastPage_succ
    exact absurd (Span.mem_iff.mpr (by omega)) (hfree I hI)

theorem HeapInv.blockPage_taken (hi : HeapInv h s)
    (hmal : blockPage h s.live k = true) :
    k < h.numPages ∧ isPageFree s.mem (h.desc k) = false := by
  obtain ⟨b, hb, hu, hbk⟩ := blockPage_iff.mp hmal
  have hs := hi.shaped b hb
  have hx := hs.firstBlock_held hu
  have hfits := hs.fits hu
  have hproper := Allocation.blocks_proper h hu
  have hpage : h.pageOf (h.base k + (b.blocks h).lo * mallocSize) = k := by
    refine h.pageOf_eq (Nat.le_add_right _ _) ?_
    rw [h.base_succ]
    unfold blockCount at hfits
    unfold mallocSize pageSize
    omega
  rw [hbk] at hx
  exact ⟨hbk ▸ hi.lastPage_lt hb, (hi.held_taken hb hx hpage).2.1⟩

theorem HeapInv.apart_of_free (hi : HeapInv h s) (hs : a.Shaped h)
    (hfree : ∀ x ∈ a.held h, isPageFree s.mem (h.desc (h.pageOf x)) = true ∨
      (blockPage h s.live (h.pageOf x) = true ∧
        isBlockFree s.mem (h.blockStart (h.pageOf x) +
          (x - h.base (h.pageOf x)) / mallocSize) = true)) :
    ∀ b ∈ s.live, (a.held h).Apart (b.held h) := by
  intro b hb
  refine Span.apart_of_disjoint hs.held_proper (hi.shaped b hb).held_proper ?_
  intro x hxa hxb
  obtain ⟨-, htaken, hblock⟩ := hi.held_taken hb hxb rfl
  rcases hfree x hxa with hpage | ⟨hmal, hblk⟩
  · rw [hpage] at htaken
    contradiction
  · rw [(hblock hmal).2] at hblk
    contradiction

theorem Allocation.Shaped.pageOf_held (hs : a.Shaped h) {x : Nat}
    (hx : x ∈ a.held h) : h.pageOf x ∈ a.pages h := by
  obtain ⟨hlo, hhi⟩ := Span.mem_iff.mp hx
  have hlo' : a.addr ≤ x := hlo
  have hin := h.base_pageOf_le (hs.inHeap.trans hlo')
  have hlast := hs.lastPage_succ
  have hbound := hs.held_hi.2.1
  rw [Span.mem_iff, ← hlast]
  refine ⟨Nat.div_le_div_right (by omega), ?_⟩
  by_contra hge
  have := h.base_lt_base (by omega : a.lastPage h < h.pageOf x)
  rw [h.base_succ] at hbound
  omega

/--
A new run of pages that were free.  `m'` has the marks of the run in the page
table, the block table of the last page if the request uses its blocks, and the
block tables that were there.
-/
theorem HeapInv.addRun (hi : HeapInv h s) (hs : a.Shaped h) {m' : Memory}
    (hfree : ∀ j ∈ a.pages h, isPageFree s.mem (h.desc j) = true)
    (htable : ∀ j < h.numPages, m' (h.desc j) =
      if j ∈ a.pages h then pageMark (blockPage h (a :: s.live)) (a.pages h) j
      else s.mem (h.desc j))
    (hblock : usesBlocks a.size = true →
      BlockTable m' (h.blockStart (a.lastPage h)) {a.blocks h})
    (hother : ∀ j, blockPage h s.live j = true → ∀ b, h.blockStart j ≤ b →
      b < h.blockStart j + mallocTableSize → m' b = s.mem b) :
    HeapInv h ⟨m', a :: s.live⟩ := by
  obtain ⟨S, hS⟩ := hi.pages
  have hlastmem := hs.lastPage_mem
  have hnotmal : ∀ j ∈ a.pages h, blockPage h s.live j = false := by
    intro j hj
    by_contra hmal
    have htaken := (hi.blockPage_taken (by simpa using hmal)).2
    rw [hfree j hj] at htaken
    contradiction
  have hdisj : ∀ J ∈ S, ∀ j ∈ J, j ∉ a.pages h := by
    intro J hJ j hjJ hj
    have htaken := (hS.table.flags_of_mem hJ hjJ).1
    rw [hfree j hj] at htaken
    contradiction
  refine ⟨?_, ?_, ⟨insert (a.pages h) S, ?_, ?_, ?_, ?_⟩, ?_⟩
  · rintro b (_ | ⟨_, hb⟩)
    · exact hs
    · exact hi.shaped b hb
  · refine List.pairwise_cons.mpr ⟨?_, hi.apart⟩
    exact hi.apart_of_free hs fun x hx => .inl (hfree _ (hs.pageOf_held hx))
  · refine hS.separated.insert ?_ hs.inside hdisj
    have := hs.onePage
    simp only [Allocation.pages]
    omega
  · refine Encodes.add (hS.table.congr_mark fun J hJ j hj => ?_)
      hS.separated hdisj htable hs.inside
    have hne : a.lastPage h ≠ j := fun heq => hdisj J hJ j hj (heq ▸ hlastmem)
    simp only [pageMark, blockPage_cons, beq_eq_false_iff_ne.mpr hne,
      Bool.and_false, Bool.false_or]
  · rintro b (_ | ⟨_, hb⟩)
    · exact ⟨a.pages h, .inl rfl, rfl, fun _ => rfl⟩
    · obtain ⟨I, hI, hrest⟩ := hS.covered b hb
      exact ⟨I, .inr hI, hrest⟩
  · rintro I (rfl | hI)
    · exact ⟨a, by simp, rfl⟩
    · obtain ⟨b, hb, hbI⟩ := hS.owned I hI
      exact ⟨b, by simp [hb], hbI⟩
  · intro j hmal
    by_cases hj : usesBlocks a.size = true ∧ a.lastPage h = j
    · obtain ⟨hu, rfl⟩ := hj
      rw [blockRuns_cons_self s.live hu, blockRuns_eq_empty (hnotmal _ hlastmem)]
      simpa using hblock hu
    · have hold : blockPage h s.live j = true := by
        rw [blockPage_cons, Bool.or_eq_true, Bool.and_eq_true, beq_iff_eq] at hmal
        exact hmal.resolve_left hj
      rw [blockRuns_cons_of_ne hj]
      exact (hi.blocks j hold).congr (hother j hold)

end Add

/-! ## The cases of `malloc` -/

/-- The run of blocks that a small request gets ends in a free block.  This is the
one block of the run that `_try_malloc` does not test, unless it is the first. -/
def EndFree (h : Heap) (m : Memory) (size : Nat) : Prop :=
  size ≤ allocableSize → ∀ k < h.numPages, (∀ j < k, h.NoRoom m size j) →
    isMalloced m (h.desc k) = true →
    ∀ i, FirstFit m (h.blockStart k) (blockTotal size) i →
      isBlockFree m (h.blockStart k + i + blockTotal size - 1) = true

section Cases

variable {h : Heap} {s : HeapState}

theorem HeapInv.addBlocks (hfit : h.TableFits) (hi : HeapInv h s) {k i size : Nat}
    (hpos : 1 ≤ size) (hsize : size ≤ allocableSize)
    (hmal : blockPage h s.live k = true) (hblocks : i + blockTotal size ≤ blockCount)
    (hfree : ∀ j, i ≤ j → j < i + blockTotal size →
      isBlockFree s.mem (h.blockStart k + j) = true) :
    HeapInv h ⟨takeBlocks s.mem (h.blockStart k) (h.blockStart k + i)
      (blockTotal size), ⟨h.base k + i * mallocSize, size⟩ :: s.live⟩ := by
  have hk := (hi.blockPage_taken hmal).1
  obtain ⟨hs, hpages, hlast, hblk, hu⟩ :=
    Allocation.ofBlocks h hk hpos hsize hblocks
  obtain ⟨htake, hsame⟩ :=
    (hi.blocks k hmal).take (blockTotal_pos hpos) hblocks hfree
  have hcons : ∀ j, blockPage h
      (⟨h.base k + i * mallocSize, size⟩ :: s.live) j = blockPage h s.live j := by
    intro j
    rw [blockPage_cons, hlast, hu, Bool.true_and]
    by_cases hjk : k = j
    · rw [← hjk, hmal, Bool.or_true]
    · rw [beq_eq_false_iff_ne.mpr hjk, Bool.false_or]
  obtain ⟨S, hS⟩ := hi.pages
  refine ⟨?_, ?_, ⟨S, hS.separated, ?_, ?_, ?_⟩, ?_⟩
  · rintro b (_ | ⟨_, hb⟩)
    · exact hs
    · exact hi.shaped b hb
  · refine List.pairwise_cons.mpr ⟨?_, hi.apart⟩
    refine hi.apart_of_free hs fun x hx => .inr ?_
    have hpage : h.pageOf x = k := by
      have := hs.pageOf_held hx
      rw [hpages, Span.mem_iff] at this
      simp only at this
      omega
    obtain ⟨hlo, hhi⟩ := Span.mem_iff.mp hx
    simp only [Allocation.held, hu, if_true, hlast, hblk] at hlo hhi
    rw [hpage]
    refine ⟨hmal, hfree _ ?_ ?_⟩ <;> unfold mallocSize at * <;> omega
  · refine (hS.table.congr_mark fun J _ j _ => ?_).congr hS.separated
      fun j hj => h.desc_of_sameOutside hfit hj hsame
    rw [pageMark, pageMark, hcons]
  · rintro b (_ | ⟨_, hb⟩)
    · obtain ⟨c, hc, -, hck⟩ := blockPage_iff.mp hmal
      obtain ⟨I, hI, hIhi, -⟩ := hS.covered c hc
      have hclast := (hi.shaped c hc).lastPage_succ
      refine ⟨I, hI, ?_, fun hlarge => absurd hlarge (Nat.not_lt.mpr hsize)⟩
      rw [hIhi, hpages, ← hclast, hck]
    · exact hS.covered b hb
  · intro I hI
    obtain ⟨b, hb, hbI⟩ := hS.owned I hI
    exact ⟨b, by simp [hb], hbI⟩
  · intro j hmalj
    rw [hcons] at hmalj
    by_cases hjk : j = k
    · subst hjk
      have hruns := blockRuns_cons_self (h := h) s.live hu
      rw [hlast, hblk] at hruns
      rw [hruns]
      exact htake
    · rw [blockRuns_cons_of_ne (by rw [hlast]; exact fun hc => hjk hc.2.symm)]
      exact (hi.blocks j hmalj).congr fun b hb hb' =>
        h.blockTable_of_sameOutside hjk hsame hb hb'

theorem HeapInv.desc_eq_zero (hi : HeapInv h s) {k : Nat} (hk : k < h.numPages)
    (hfree : isPageFree s.mem (h.desc k) = true) : s.mem (h.desc k) = 0 := by
  obtain ⟨S, hS⟩ := hi.pages
  exact hS.table.free k hk ((hS.table.isPageFree_iff hk).mp hfree)

theorem HeapInv.addPages (hfit : h.TableFits) (hi : HeapInv h s) {m' : Memory}
    {i size : Nat} (hpos : 1 ≤ size) (hp : PagesGranted h s.mem m' i size) :
    HeapInv h ⟨m', ⟨h.base i, size⟩ :: s.live⟩ := by
  have hN := hp.inside
  obtain ⟨hs, hpages, hlast, hblk⟩ := Allocation.ofRun h hpos hp.onePage hN
  refine hi.addRun hs ?_ (fun j hj => ?_) (fun hu => ?_) fun j hmal b hb hb' => ?_
  · rw [hpages]
    exact fun j hj => hp.isPageFree hj.1 hj.2
  · rw [hp.table j hj, hpages]
    by_cases hin : i ≤ j ∧ j < i + pagesOf size
    · have hfree := hp.isPageFree hin.1 hin.2
      have hold : blockPage h s.live j = false := by
        by_contra hmal
        rw [(hi.blockPage_taken (by simpa using hmal)).2] at hfree
        contradiction
      have hlast' : (i + pagesOf size - 1 == j) =
          decide (j + 1 = i + pagesOf size) := by
        rw [beq_eq_decide]
        exact decide_eq_decide.mpr (by omega)
      rw [if_pos hin, if_pos (Span.mem_iff.mpr hin), hi.desc_eq_zero hj hfree,
        pageMark, blockPage_cons, hlast, hold, hlast', Bool.or_false]
      exact BitVec.zero_or
    · have hout : j ∉ (⟨i, i + pagesOf size⟩ : Span) := hin
      rw [if_neg hin, if_neg hout]
  · obtain ⟨m₁, hempty, heq⟩ := hp.blocks hu
    have hrest := of_decide_eq_true hu
    rw [hlast, hblk, heq]
    exact (hempty.takeFirst hrest.1 hrest.2).1
  · have hout := hp.not_mem_of_taken (hi.blockPage_taken hmal).2
    have hone := hp.onePage
    exact hp.blockTable_of_ne hfit (by omega) hb hb'

theorem HeapInv.granted (hfit : h.TableFits) (hi : HeapInv h s) {m' : Memory}
    {a : Allocation} (hend : EndFree h s.mem a.size)
    (hg : Granted h s.mem a m') : HeapInv h ⟨m', a :: s.live⟩ := by
  cases hg with
  | blocks hk hmal hpos hsmall hbefore hfirst =>
      have hlast := hend hsmall _ hk hbefore hmal _ hfirst
      exact hi.addBlocks hfit hpos hsmall ((hi.isMalloced_iff hk).mp hmal)
        hfirst.1.1 fun _ => hfirst.1.all_free hlast
  | pages hpos hp => exact hi.addPages hfit hpos hp

end Cases

end XinOS.Page
