import XinOS.Page.MallocStep
import XinOS.Page.BlockFree

/-!
# `free` keeps the ledger right

A small allocation gives its blocks back, and the page if no other block of it is
in use; a run of whole pages is given back as a run.  A run that lends the blocks
of its last page to other requests is left out: there `free` looks the blocks up
in the wrong page.
-/

namespace XinOS.Page

open XinOS.Foundation

def hasTail (size : Nat) : Bool := decide (pageSize < size) && usesBlocks size

section Remove

variable {h : Heap} {s : HeapState} {a : Allocation}

theorem HeapInv.mem_erase (hi : HeapInv h s) {b : Allocation} :
    b ∈ s.live.erase a ↔ b ≠ a ∧ b ∈ s.live :=
  hi.nodup.mem_erase_iff

theorem HeapInv.blockPage_erase (hi : HeapInv h s) {k : Nat}
    (hk : ¬(usesBlocks a.size = true ∧ a.lastPage h = k)) :
    blockPage h (s.live.erase a) k = blockPage h s.live k := by
  rw [Bool.eq_iff_iff, blockPage_iff, blockPage_iff]
  constructor
  · rintro ⟨b, hb, hrest⟩
    exact ⟨b, (hi.mem_erase.mp hb).2, hrest⟩
  · rintro ⟨b, hb, hrest⟩
    exact ⟨b, hi.mem_erase.mpr ⟨fun heq => hk (heq ▸ hrest), hb⟩, hrest⟩

theorem HeapInv.blockRuns_erase_of_ne (hi : HeapInv h s) {k : Nat}
    (hk : ¬(usesBlocks a.size = true ∧ a.lastPage h = k)) :
    blockRuns h (s.live.erase a) k = blockRuns h s.live k := by
  ext J
  simp only [blockRuns, Set.mem_ofPred_eq]
  constructor
  · rintro ⟨b, hb, hrest⟩
    exact ⟨b, (hi.mem_erase.mp hb).2, hrest⟩
  · rintro ⟨b, hb, hu, hbk, hJ⟩
    exact ⟨b, hi.mem_erase.mpr ⟨fun heq => hk (heq ▸ ⟨hu, hbk⟩), hb⟩, hu, hbk, hJ⟩

theorem HeapInv.blockRuns_erase_self (hi : HeapInv h s) (ha : a ∈ s.live)
    (hu : usesBlocks a.size = true) :
    blockRuns h (s.live.erase a) (a.lastPage h) =
      blockRuns h s.live (a.lastPage h) \ {a.blocks h} := by
  ext J
  simp only [blockRuns, Set.mem_ofPred_eq, Set.mem_sdiff, Set.mem_singleton_iff]
  constructor
  · rintro ⟨b, hb, hbu, hbk, rfl⟩
    obtain ⟨hne, hb'⟩ := hi.mem_erase.mp hb
    refine ⟨⟨b, hb', hbu, hbk, rfl⟩, fun heq => hne ?_⟩
    have hxb := (hi.shaped b hb').firstBlock_held hbu
    have hxa := (hi.shaped a ha).firstBlock_held hu
    rw [hbk, heq] at hxb
    exact hi.eq_of_held hb' ha hxb hxa
  · rintro ⟨⟨b, hb, hbu, hbk, rfl⟩, hne⟩
    exact ⟨b, hi.mem_erase.mpr ⟨fun heq => hne (heq ▸ rfl), hb⟩, hbu, hbk, rfl⟩

theorem HeapInv.apart_erase (hi : HeapInv h s) :
    (s.live.erase a).Pairwise fun b c => (b.held h).Apart (c.held h) :=
  hi.apart.sublist List.erase_sublist

/--
A run of pages that only `a` lies in is given back: its entries of the page table
are cleared, the other entries and block tables stay.
-/
theorem HeapInv.removeRun (hi : HeapInv h s) (ha : a ∈ s.live) {m' : Memory}
    {S : Set Span} (hS : PageLedger h s.mem s.live S) (hrun : a.pages h ∈ S)
    (halone : ∀ b ∈ s.live, b ≠ a → ∀ j ∈ b.pages h, j ∉ a.pages h)
    (htable : ∀ j < h.numPages, m' (h.desc j) =
      if j ∈ a.pages h then 0 else s.mem (h.desc j))
    (hother : ∀ j, j ∉ a.pages h → ∀ b, h.blockStart j ≤ b →
      b < h.blockStart j + mallocTableSize → m' b = s.mem b) :
    HeapInv h ⟨m', s.live.erase a⟩ := by
  have hlast := (hi.shaped a ha).lastPage_succ
  have hlastmem := (hi.shaped a ha).lastPage_mem
  have hnot : ∀ j, j ∉ a.pages h →
      ¬(usesBlocks a.size = true ∧ a.lastPage h = j) :=
    fun j hj hc => hj (hc.2 ▸ hlastmem)
  refine ⟨fun b hb => hi.shaped b (hi.mem_erase.mp hb).2, hi.apart_erase,
    ⟨S \ {a.pages h}, hS.separated.subset Set.sdiff_subset, ?_, ?_, ?_⟩, ?_⟩
  · refine Encodes.congr_mark (hS.table.remove hS.separated hrun htable)
      fun J hJ j hj => ?_
    have hout : j ∉ a.pages h := fun hja =>
      hJ.2 (hS.separated.unique hJ.1 hrun hj hja)
    rw [pageMark, pageMark, hi.blockPage_erase (hnot j hout)]
  · intro b hb
    obtain ⟨hne, hb'⟩ := hi.mem_erase.mp hb
    obtain ⟨I, hI, hIhi, hlarge⟩ := hS.covered b hb'
    refine ⟨I, ⟨hI, ?_⟩, hIhi, hlarge⟩
    rintro rfl
    -- the last page of `b` would be the last page of the run of `a`
    have hblast := (hi.shaped b hb').lastPage_succ
    refine halone b hb' hne _ (hi.shaped b hb').lastPage_mem ?_
    rw [show b.lastPage h = a.lastPage h by omega]
    exact hlastmem
  · rintro I ⟨hI, hne⟩
    obtain ⟨b, hb, hbI⟩ := hS.owned I hI
    exact ⟨b, hi.mem_erase.mpr ⟨fun heq => hne (heq ▸ hbI.symm), hb⟩, hbI⟩
  · intro j hmal
    have hout : j ∉ a.pages h := by
      obtain ⟨b, hb, hbu, hbj⟩ := blockPage_iff.mp hmal
      obtain ⟨hne, hb'⟩ := hi.mem_erase.mp hb
      exact halone b hb' hne j (hbj ▸ (hi.shaped b hb').lastPage_mem)
    have hold := hi.blockPage_erase (hnot j hout)
    rw [hmal] at hold
    rw [hi.blockRuns_erase_of_ne (hnot j hout)]
    exact (hi.blocks j hold.symm).congr (hother j hout)

end Remove

/-! ## Pages that one allocation has to itself -/

section Alone

variable {h : Heap} {s : HeapState} {a : Allocation}

theorem HeapInv.alone_of_whole (hi : HeapInv h s) (ha : a ∈ s.live)
    (hlarge : allocableSize < a.size) (hu : usesBlocks a.size = false) :
    ∀ b ∈ s.live, b ≠ a → ∀ j ∈ b.pages h, j ∉ a.pages h := by
  intro b hb hne j hjb hja
  have hsa := hi.shaped a ha
  have hsb := hi.shaped b hb
  by_cases hsize : b.size ≤ allocableSize
  · have hjlast : b.lastPage h = j := by
      rw [hsb.small_pages hsize, Span.mem_iff] at hjb
      simp only at hjb
      omega
    have hmal := blockPage_iff.mpr
      ⟨b, hb, (usesBlocks_of_small hsb.pos hsize).1, hjlast⟩
    rw [(hi.usesBlocks_of_pages ha hja hmal).1] at hu
    contradiction
  · obtain ⟨S, hS⟩ := hi.pages
    obtain ⟨I, hI, -, hIa⟩ := hS.covered a ha
    obtain ⟨J, hJ, -, hJb⟩ := hS.covered b hb
    obtain rfl := hIa hlarge
    obtain rfl := hJb (by omega)
    have heq : b.pages h = a.pages h := hS.separated.unique hJ hI hjb hja
    have hpage : h.pageOf b.addr = h.pageOf a.addr := congrArg Span.lo heq
    have haddr : b.addr = a.addr := by
      rw [hsb.large_addr (by omega), hsa.large_addr hlarge, hpage]
    refine hne (hi.eq_of_held hb ha (x := b.addr) ?_ ?_)
    · exact Span.mem_iff.mpr ⟨le_refl _, hsb.held_proper⟩
    · rw [haddr]
      exact Span.mem_iff.mpr ⟨le_refl _, hsa.held_proper⟩

theorem HeapInv.alone_of_small (hi : HeapInv h s) (ha : a ∈ s.live)
    (hsize : a.size ≤ allocableSize)
    (hnone : blockPage h (s.live.erase a) (a.lastPage h) = false) :
    ∀ b ∈ s.live, b ≠ a → ∀ j ∈ b.pages h, j ∉ a.pages h := by
  intro b hb hne j hjb hja
  have hsa := hi.shaped a ha
  rw [hsa.small_pages hsize, Span.mem_iff] at hja
  simp only at hja
  have hj : j = a.lastPage h := by omega
  subst hj
  have hmal : blockPage h s.live (a.lastPage h) = true :=
    blockPage_iff.mpr ⟨a, ha, (usesBlocks_of_small hsa.pos hsize).1, rfl⟩
  have huse := hi.usesBlocks_of_pages hb hjb hmal
  have := blockPage_iff.mpr ⟨b, hi.mem_erase.mpr ⟨hne, hb⟩, huse⟩
  rw [hnone] at this
  contradiction

theorem PageLedger.pages_mem {m : Memory} {S : Set Span}
    (hS : PageLedger h m s.live S) (hs : a.Shaped h) (ha : a ∈ s.live)
    (halone : ∀ b ∈ s.live, b ≠ a → ∀ j ∈ b.pages h, j ∉ a.pages h) :
    a.pages h ∈ S := by
  obtain ⟨I, hI, hIhi, -⟩ := hS.covered a ha
  obtain ⟨b, hb, hbI⟩ := hS.owned I hI
  by_cases hne : b = a
  · rw [← hne, hbI]
    exact hI
  · have hproper := hS.separated.proper I hI
    have hlast := hs.lastPage_succ
    refine absurd hs.lastPage_mem (halone b hb hne _ ?_)
    rw [hbI, Span.mem_iff]
    omega

end Alone

/-! ## What `free` does -/

section Free

variable {h : Heap} {s : HeapState} {a : Allocation}

theorem Heap.TableEncodes.pageFree_run {m : Memory} {mal : Nat → Bool}
    {S : Set Span} (he : h.TableEncodes m mal S)
    (hS : Separated h.numPages S) (hN : h.numPages < 2 ^ 31) {I : Span}
    (hI : I ∈ S) {p : Nat} (hp : h.base I.lo ≤ p) (hp' : p < h.base (I.lo + 1)) :
    ∃ m', pageFree h m p = some m' ∧
      ∀ b, m' b = if h.desc I.lo ≤ b ∧ b < h.desc I.hi then 0 else m b := by
  have hlo : I.lo ∈ I := Span.mem_iff.mpr ⟨le_refl _, hS.proper I hI⟩
  refine ⟨h.cutRun m I I.lo, ?_, fun b => ?_⟩
  · rw [pageFree, he.pageFreeTrace_run hS hN hI hlo hp hp']
    rfl
  · have hnot : ¬(I.lo < I.lo ∧ b + 1 = h.desc I.lo) := by omega
    rw [he.cutRun_apply hI hlo, if_neg hnot]

theorem HeapInv.addr_inPage (hi : HeapInv h s) (ha : a ∈ s.live) :
    h.base (h.pageOf a.addr) ≤ a.addr ∧
      a.addr < h.base (h.pageOf a.addr + 1) ∧ h.pageOf a.addr < h.numPages := by
  have hs := hi.shaped a ha
  have hin := h.base_pageOf_le hs.inHeap
  have := hs.first_le_last
  have := hi.lastPage_lt ha
  exact ⟨hin.1, hin.2, by omega⟩

theorem HeapInv.not_refused (hi : HeapInv h s) (ha : a ∈ s.live) :
    ¬(a.addr = 0 ∨ a.addr < h.allocStart ∨ a.addr > h.allocEnd) := by
  obtain ⟨hlo, hhi, hlt⟩ := hi.addr_inPage ha
  have := h.allocStart_pos
  have := h.allocStart_le_base (h.pageOf a.addr)
  have := h.base_le_allocEnd (by omega : h.pageOf a.addr + 1 ≤ h.numPages)
  omega

theorem HeapInv.freeWhole (hfit : h.TableFits) (hi : HeapInv h s) (ha : a ∈ s.live)
    (hlarge : allocableSize < a.size) (hu : usesBlocks a.size = false) :
    ∃ m, free h s.mem a.addr = .ok m ∧ HeapInv h ⟨m, s.live.erase a⟩ := by
  have hN := numPages_lt hfit
  have hs := hi.shaped a ha
  have halone := hi.alone_of_whole ha hlarge hu
  obtain ⟨S, hS⟩ := hi.pages
  have hrun := hS.pages_mem hs ha halone
  obtain ⟨hlo, hhi, hlt⟩ := hi.addr_inPage ha
  have hfirst : h.pageOf a.addr ∈ a.pages h := by
    have := hs.onePage
    rw [Span.mem_iff]
    simp only [Allocation.pages]
    omega
  have hnotmal : ∀ j ∈ a.pages h, isMalloced s.mem (h.desc j) = false := by
    intro j hj
    rw [(hS.table.flags_of_mem hrun hj).2.2.2]
    by_contra hmal
    rw [(hi.usesBlocks_of_pages ha hj (by simpa using hmal)).1] at hu
    contradiction
  obtain ⟨m', hfree, hm'⟩ := hS.table.pageFree_run hS.separated (by omega) hrun
    hlo hhi
  have hr := hS.table.runsTo hrun hfirst
  have hsucc := hs.lastPage_succ
  rw [show (a.pages h).hi - 1 = a.lastPage h by omega] at hr
  have hlast := h.findPageLast_desc hr.le (by
    have := hi.lastPage_lt ha
    unfold walkFuel
    omega) hr.inner hr.last
  refine ⟨m', ?_, hi.removeRun ha hS hrun halone (fun j _ => ?_) ?_⟩
  · rw [free, if_neg (hi.not_refused ha)]
    simp only [h.getPageByAddr_eq hlo hhi, hnotmal _ hfirst, hlast,
      hnotmal _ hs.lastPage_mem, hfree]
    simp
  · rw [hm']
    have hiff : (h.desc (a.pages h).lo ≤ h.desc j ∧ h.desc j < h.desc (a.pages h).hi) ↔
        j ∈ a.pages h := by
      rw [Span.mem_iff]
      unfold Heap.desc
      omega
    simp only [hiff]
  · intro j _ b hb _
    rw [hm', if_neg]
    have := h.desc_lt_blockStart hfit (hi.lastPage_lt ha) (k := j)
    unfold Heap.desc at *
    omega

theorem HeapInv.freeBlocks_loop (hi : HeapInv h s) (ha : a ∈ s.live)
    (hsize : a.size ≤ allocableSize) :
    ∃ m, blockFreeLoop walkFuel
        (closePrevBlock s.mem (h.blockStart (a.lastPage h))
          (h.blockStart (a.lastPage h) + (a.blocks h).lo))
        (h.blockStart (a.lastPage h))
        (h.blockStart (a.lastPage h) + (a.blocks h).lo) = some m ∧
      Memory.SameOutside (h.blockStart (a.lastPage h))
        (h.blockStart (a.lastPage h) + mallocTableSize) s.mem m ∧
      BlockTable m (h.blockStart (a.lastPage h))
        (blockRuns h (s.live.erase a) (a.lastPage h)) := by
  have hu := (usesBlocks_of_small (hi.shaped a ha).pos hsize).1
  have htable := hi.blocks _ (blockPage_iff.mpr ⟨a, ha, hu, rfl⟩)
  have hrun : a.blocks h ∈ blockRuns h s.live (a.lastPage h) :=
    ⟨a, ha, hu, rfl, rfl⟩
  have hstart := h.blockStart_eq (a.lastPage h)
  obtain ⟨m, hloop, hsame, hrel⟩ := htable.release (by omega) hrun
  refine ⟨m, hloop, hsame, ?_⟩
  rw [hi.blockRuns_erase_self ha hu]
  exact hrel

theorem HeapInv.mallocPage (hi : HeapInv h s) (ha : a ∈ s.live)
    (hu : usesBlocks a.size = true) : MallocPage h s.mem (a.lastPage h) := by
  have hk := hi.lastPage_lt ha
  obtain ⟨S, hS⟩ := hi.pages
  obtain ⟨I, hI, hIhi, -⟩ := hS.covered a ha
  have hproper := hS.separated.proper I hI
  have hlast := (hi.shaped a ha).lastPage_succ
  obtain ⟨htaken, -, hend, -⟩ := hS.table.flags_of_mem hI
    (Span.mem_iff.mpr (by omega) : a.lastPage h ∈ I)
  exact ⟨(hi.isMalloced_iff hk).mpr (blockPage_iff.mpr ⟨a, ha, hu, rfl⟩), htaken,
    hend.trans (decide_eq_true (by omega))⟩

theorem HeapInv.freeBlocks_last (hfit : h.TableFits) (hi : HeapInv h s)
    (ha : a ∈ s.live) (hsize : a.size ≤ allocableSize) {m : Memory}
    (hsame : Memory.SameOutside (h.blockStart (a.lastPage h))
      (h.blockStart (a.lastPage h) + mallocTableSize) s.mem m)
    (hnone : blockPage h (s.live.erase a) (a.lastPage h) = false) :
    HeapInv h ⟨h.releasePage m (a.lastPage h), s.live.erase a⟩ := by
  have hs := hi.shaped a ha
  have hk := hi.lastPage_lt ha
  have halone := hi.alone_of_small ha hsize hnone
  have hpages := hs.small_pages hsize
  obtain ⟨S, hS⟩ := hi.pages
  have hrun := hS.pages_mem hs ha halone
  have hdesc : ∀ j < h.numPages, m (h.desc j) = s.mem (h.desc j) :=
    fun j hj => h.desc_of_sameOutside hfit hj hsame
  have hfirst : isPageFirst m (h.desc (a.lastPage h)) = true := by
    rw [isPageFirst, hdesc _ hk, ← isPageFirst,
      (hS.table.flags_of_mem hrun hs.lastPage_mem).2.1, hpages]
    exact decide_eq_true rfl
  have hmem : ∀ j, j ∈ a.pages h ↔ j = a.lastPage h := by
    intro j
    rw [hpages, Span.mem_iff]
    simp only
    omega
  refine hi.removeRun ha hS hrun halone (fun j hj => ?_) fun j hj b hb hb' => ?_
  · rw [h.releasePage_desc hfirst, hdesc j hj]
    simp only [h.desc_inj, hmem]
  · have hne : j ≠ a.lastPage h := fun heq => hj ((hmem j).mpr heq)
    have hbelow := h.desc_lt_blockStart hfit hk (k := j)
    rw [h.releasePage_desc hfirst, if_neg (by omega),
      h.blockTable_of_sameOutside hne hsame hb hb']

theorem HeapInv.freeBlocks_more (hfit : h.TableFits) (hi : HeapInv h s)
    (ha : a ∈ s.live) (hsize : a.size ≤ allocableSize) {m : Memory}
    (hsame : Memory.SameOutside (h.blockStart (a.lastPage h))
      (h.blockStart (a.lastPage h) + mallocTableSize) s.mem m)
    (htable : BlockTable m (h.blockStart (a.lastPage h))
      (blockRuns h (s.live.erase a) (a.lastPage h)))
    (hmore : blockPage h (s.live.erase a) (a.lastPage h) = true) :
    HeapInv h ⟨m, s.live.erase a⟩ := by
  have hs := hi.shaped a ha
  have hu := (usesBlocks_of_small hs.pos hsize).1
  have hpages := hs.small_pages hsize
  have hmal : ∀ j, blockPage h (s.live.erase a) j = blockPage h s.live j := by
    intro j
    by_cases hj : j = a.lastPage h
    · rw [hj, hmore]
      exact (blockPage_iff.mpr ⟨a, ha, hu, rfl⟩).symm
    · exact hi.blockPage_erase fun hc => hj hc.2.symm
  obtain ⟨S, hS⟩ := hi.pages
  refine ⟨fun b hb => hi.shaped b (hi.mem_erase.mp hb).2, hi.apart_erase,
    ⟨S, hS.separated, ?_, ?_, ?_⟩, ?_⟩
  · refine (hS.table.congr_mark fun J _ j _ => ?_).congr hS.separated
      fun j hj => h.desc_of_sameOutside hfit hj hsame
    rw [pageMark, pageMark, hmal]
  · exact fun b hb => hS.covered b (hi.mem_erase.mp hb).2
  · intro I hI
    obtain ⟨b, hb, hbI⟩ := hS.owned I hI
    by_cases hne : b = a
    · -- the page has another owner: one of those whose blocks are in use
      obtain ⟨c, hc, hcu, hck⟩ := blockPage_iff.mp hmore
      obtain ⟨hca, hc'⟩ := hi.mem_erase.mp hc
      have hsc := hi.shaped c hc'
      refine ⟨c, hc, ?_⟩
      rw [hne, hpages] at hbI
      by_cases hcsize : c.size ≤ allocableSize
      · rw [hsc.small_pages hcsize, hck, hbI]
      · obtain ⟨J, hJ, -, hlarge⟩ := hS.covered c hc'
        obtain rfl := hlarge (by omega)
        refine hS.separated.unique hJ hI (hck ▸ hsc.lastPage_mem) ?_
        rw [← hbI]
        exact Span.mem_iff.mpr (by simp)
    · exact ⟨b, hi.mem_erase.mpr ⟨hne, hb⟩, hbI⟩
  · intro j hj
    by_cases hjk : j = a.lastPage h
    · exact hjk ▸ htable
    · have hnot : ¬(usesBlocks a.size = true ∧ a.lastPage h = j) :=
        fun hc => hjk hc.2.symm
      rw [hi.blockRuns_erase_of_ne hnot]
      exact (hi.blocks j (hmal j ▸ hj)).congr fun b hb hb' =>
        h.blockTable_of_sameOutside hjk hsame hb hb'

theorem HeapInv.freeSmall (hfit : h.TableFits) (hi : HeapInv h s) (ha : a ∈ s.live)
    (hsize : a.size ≤ allocableSize) :
    ∃ m, free h s.mem a.addr = .ok m ∧ HeapInv h ⟨m, s.live.erase a⟩ := by
  have hs := hi.shaped a ha
  have hlast := hs.small_lastPage hsize
  have hu := (usesBlocks_of_small hs.pos hsize).1
  have hpage := hi.mallocPage ha hu
  obtain ⟨hlo, hhi, hlt⟩ := hi.addr_inPage ha
  rw [← hlast] at hlo hhi hlt
  obtain ⟨m, hloop, hsame, htable⟩ := hi.freeBlocks_loop ha hsize
  have hlo' : (a.blocks h).lo = (a.addr - h.base (a.lastPage h)) / mallocSize := by
    rw [hlast]
    rfl
  rw [hlo'] at hloop
  refine ⟨_, (h.free_eq_freeBlocks hlt hpage.malloced hlo hhi).trans
    (h.freeBlocks_of_loop hfit hlt hpage hlo hhi hloop hsame), ?_⟩
  split_ifs with hzero
  · rw [htable.usage_eq_zero_iff] at hzero
    refine hi.freeBlocks_last hfit ha hsize hsame ?_
    by_contra hmore
    obtain ⟨c, hc, hcu, hck⟩ := blockPage_iff.mp (by simpa using hmore)
    have hrun : c.blocks h ∈ blockRuns h (s.live.erase a) (a.lastPage h) :=
      ⟨c, hc, hcu, hck, rfl⟩
    rw [hzero] at hrun
    contradiction
  · rw [htable.usage_eq_zero_iff] at hzero
    refine hi.freeBlocks_more hfit ha hsize hsame htable ?_
    by_contra hnone
    exact hzero (blockRuns_eq_empty (by simpa using hnone))

/-- `free` returns and keeps the ledger right, unless the allocation ends in
blocks of the last of several pages. -/
theorem HeapInv.free (hfit : h.TableFits) (hi : HeapInv h s) (ha : a ∈ s.live)
    (htail : hasTail a.size = false) :
    ∃ m, Page.free h s.mem a.addr = .ok m ∧ HeapInv h ⟨m, s.live.erase a⟩ := by
  by_cases hsize : a.size ≤ allocableSize
  · exact hi.freeSmall hfit ha hsize
  · refine hi.freeWhole hfit ha (by omega) ?_
    by_contra hn
    have hu : usesBlocks a.size = true := by simpa using hn
    have hrest := of_decide_eq_true hu
    rw [hasTail, hu, Bool.and_true, decide_eq_false_iff_not] at htail
    unfold pageSize allocableSize at *
    omega

end Free

end XinOS.Page
