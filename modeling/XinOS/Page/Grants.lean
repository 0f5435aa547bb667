import XinOS.Page.Ledger

/-!
# What `malloc` grants

The outcome of `malloc` for any contents of memory: blocks of a page that malloc
controls already, a run of free pages with or without blocks in its last page, or
nothing.
-/

namespace XinOS.Page

open XinOS.Foundation

/-! ## Regions of memory -/

section Regions

variable {h : Heap} {m m' : Memory} {j k : Nat}

theorem Heap.blockStart_eq (h : Heap) (k : Nat) :
    h.blockStart k = h.base k + 3275 := by
  unfold blockStart getStartBlockByAddr allocableSize
  omega

theorem Heap.desc_of_sameOutside (hfit : h.TableFits) (hj : j < h.numPages)
    (hsame : Memory.SameOutside (h.blockStart k)
      (h.blockStart k + mallocTableSize) m m') :
    m' (h.desc j) = m (h.desc j) := by
  have := h.desc_lt_base hfit hj (k := k)
  have := h.blockStart_eq k
  exact hsame _ (by omega)

theorem Heap.blockTable_of_sameOutside (hjk : j ≠ k)
    (hsame : Memory.SameOutside (h.blockStart k)
      (h.blockStart k + mallocTableSize) m m') {b : Nat}
    (hb : h.blockStart j ≤ b) (hb' : b < h.blockStart j + mallocTableSize) :
    m' b = m b := by
  refine hsame b ?_
  simp only [Heap.blockStart_eq] at *
  unfold mallocTableSize at *
  rcases Nat.lt_or_gt_of_ne hjk with hlt | hgt
  · have := h.base_lt_base hlt
    unfold pageSize at this
    omega
  · have := h.base_lt_base hgt
    unfold pageSize at this
    omega

theorem Heap.desc_lt_blockStart (hfit : h.TableFits) (hj : j < h.numPages) :
    h.desc j < h.blockStart k := by
  have := h.desc_lt_base hfit hj (k := k)
  have := h.blockStart_eq k
  omega

theorem Heap.desc_inj (h : Heap) : h.desc j = h.desc k ↔ j = k := by
  unfold desc
  omega

theorem Heap.desc_lt_allocStart (hfit : h.TableFits)
    (hk : k < h.numPages) : h.desc k < h.allocStart := by
  have hbelow := h.desc_lt_base hfit hk (k := 0)
  unfold Heap.base at hbelow
  omega

theorem Heap.desc_numPages_le (hfit : h.TableFits) :
    h.desc h.numPages ≤ h.allocStart := by
  have := h.reserve
  unfold Heap.TableFits at hfit
  unfold Heap.desc
  omega

theorem numPages_lt (hfit : h.TableFits) : h.numPages < 2 ^ 16 := by
  unfold Heap.TableFits pageSize at hfit
  omega

end Regions

/-! ## The allocations that `malloc` returns -/

section Shapes

variable {h : Heap}

theorem pagesOf_small {size : Nat} (hpos : 1 ≤ size) (hsize : size ≤ pageSize) :
    pagesOf size = 1 := by
  unfold pagesOf
  rw [pagesOf_le_pageSize hpos hsize]
  rfl

theorem small_le_pageSize {size : Nat} (hsize : size ≤ allocableSize) :
    size ≤ pageSize := by
  unfold allocableSize at hsize
  unfold pageSize
  omega

theorem Allocation.ofBlocks (h : Heap) {k i size : Nat} (hk : k < h.numPages)
    (hpos : 1 ≤ size) (hsize : size ≤ allocableSize)
    (hfits : i + blockTotal size ≤ blockCount) :
    let a : Allocation := ⟨h.base k + i * mallocSize, size⟩
    a.Shaped h ∧ a.pages h = ⟨k, k + 1⟩ ∧ a.lastPage h = k ∧
      a.blocks h = ⟨i, i + blockTotal size⟩ ∧ usesBlocks a.size = true := by
  intro a
  have htotal := blockTotal_pos hpos
  have hpage : h.pageOf a.addr = k := by
    refine h.pageOf_eq (Nat.le_add_right _ _) ?_
    change h.base k + i * mallocSize < _
    rw [h.base_succ]
    unfold blockCount at hfits
    unfold mallocSize pageSize
    omega
  have hone := pagesOf_small hpos (small_le_pageSize hsize)
  obtain ⟨hu, hmod⟩ := usesBlocks_of_small hpos hsize
  have hpages : a.pages h = ⟨k, k + 1⟩ := by
    simp only [Allocation.pages, hpage, show pagesOf a.size = 1 from hone]
  have hlast : a.lastPage h = k := by
    simp only [Allocation.lastPage, hpage, show pagesOf a.size = 1 from hone]
    omega
  have hblocks : a.blocks h = ⟨i, i + blockTotal size⟩ := by
    have hdiv : (h.base k + i * mallocSize - h.base k) / mallocSize = i := by
      unfold mallocSize
      omega
    simp only [Allocation.blocks, hpage, show a.size % pageSize = size from hmod]
    rw [show a.addr = h.base k + i * mallocSize from rfl, hdiv]
  refine ⟨⟨hpos, hone.ge, ?_, ?_, ?_, ?_, ?_⟩, hpages, hlast, hblocks, hu⟩
  · exact (h.allocStart_le_base k).trans (Nat.le_add_right _ _)
  · rw [hpages]
    exact hk
  · rw [hpage, hblocks]
  · intro hlarge
    exact absurd hlarge (by change ¬allocableSize < size; omega)
  · intro _
    rw [hblocks]
    exact hfits

theorem Allocation.ofPages (h : Heap) {k size : Nat}
    (hsize : allocableSize < size) (hn : 1 ≤ pagesOf size)
    (hN : k + pagesOf size ≤ h.numPages) :
    let a : Allocation := ⟨h.base k, size⟩
    a.Shaped h ∧ a.pages h = ⟨k, k + pagesOf size⟩ ∧
      a.lastPage h = k + pagesOf size - 1 ∧
      a.blocks h = ⟨0, blockTotal (size % pageSize)⟩ := by
  intro a
  have hpage : h.pageOf a.addr = k :=
    h.pageOf_eq (le_refl _) (h.base_lt_base_succ k)
  have hpages : a.pages h = ⟨k, k + pagesOf size⟩ := by
    simp only [Allocation.pages, hpage]
    rfl
  have hlast : a.lastPage h = k + pagesOf size - 1 := by
    simp only [Allocation.lastPage, hpage]
    rfl
  have hblocks : a.blocks h = ⟨0, blockTotal (size % pageSize)⟩ := by
    simp only [Allocation.blocks, hpage]
    rw [show a.addr = h.base k from rfl, Nat.sub_self, Nat.zero_div, Nat.zero_add]
  have hpos : 1 ≤ size := by omega
  refine ⟨⟨hpos, hn, h.allocStart_le_base k, ?_, ?_, ?_, ?_⟩, hpages, hlast,
    hblocks⟩
  · rw [hpages]
    exact hN
  · rw [hpage, hblocks, Nat.zero_mul, Nat.add_zero]
  · intro _
    rw [hblocks]
  · intro hu
    rw [hblocks]
    exact blockTotal_le (of_decide_eq_true hu).2

theorem Allocation.ofRun (h : Heap) {k size : Nat} (hpos : 1 ≤ size)
    (hn : 1 ≤ pagesOf size) (hN : k + pagesOf size ≤ h.numPages) :
    let a : Allocation := ⟨h.base k, size⟩
    a.Shaped h ∧ a.pages h = ⟨k, k + pagesOf size⟩ ∧
      a.lastPage h = k + pagesOf size - 1 ∧
      a.blocks h = ⟨0, blockTotal (size % pageSize)⟩ := by
  by_cases hsmall : size ≤ allocableSize
  · have hone := pagesOf_small hpos (small_le_pageSize hsmall)
    obtain ⟨hs, hpages, hlast, hblocks, -⟩ := Allocation.ofBlocks h (i := 0)
      (by omega : k < h.numPages) hpos hsmall
      (by have := blockTotal_le hsmall; omega)
    simp only [Nat.zero_mul, Nat.add_zero, Nat.zero_add] at hs hpages hlast hblocks
    rw [(usesBlocks_of_small hpos hsmall).2, hone]
    exact ⟨hs, hpages, hlast, hblocks⟩
  · exact Allocation.ofPages h (by omega) hn hN

end Shapes

/-! ## What a request finds -/

section Found

variable {h : Heap}

theorem mallocInit_same (h : Heap) (m : Memory) (k : Nat) :
    Memory.SameOutside (h.blockStart k) (h.blockStart k + mallocTableSize) m
      (mallocInit m (h.base k)) :=
  Memory.SameOutside.modifyRange m _ (le_refl _) (le_refl _)

theorem BlockTable.takeFirst {m : Memory} {start size : Nat}
    (htable : BlockTable m start ∅) (hpos : 1 ≤ size)
    (hsize : size ≤ allocableSize) :
    BlockTable (takeBlocks m start start (blockTotal size)) start
        {⟨0, blockTotal size⟩} ∧
      Memory.SameOutside start (start + mallocTableSize) m
        (takeBlocks m start start (blockTotal size)) := by
  have hle := blockTotal_le hsize
  have htake := htable.take (i := 0) (blockTotal_pos hpos) (by omega)
    fun j _ hj => (htable.isBlockFree_iff (by omega)).mpr (by simp)
  simpa using htake

theorem pageCount_eq {size : Nat} (hn : 1 ≤ (pageCount size).toInt) :
    pageCount size = BitVec.ofNat 32 (pagesOf size) := by
  have hlt : (pageCount size).toInt < 2 ^ 31 := BitVec.toInt_lt
  refine BitVec.eq_of_toInt_eq ?_
  rw [CInt.toInt_ofNat (by unfold pagesOf; omega), pagesOf]
  omega

theorem Heap.getPageByAddr_base (h : Heap) (k : Nat) :
    getPageByAddr h (h.base k) = h.desc k :=
  h.getPageByAddr_eq (le_refl _) (h.base_lt_base_succ k)

/-- The memory once `malloc` has taken the pages from `i` on for a request of
more than a page: if part of the last page is needed, its first blocks. -/
def Heap.pagesMemory (h : Heap) (m : Memory) (i size : Nat) : Memory :=
  let n := pagesOf size
  let k := i + n - 1
  if usesBlocks size then
    (tryMalloc h (setPageFlags (mallocInit (markRun m (h.desc i) n) (h.base k))
      (h.desc k) pageMalloc) (h.base k) (size % pageSize)).2
  else markRun m (h.desc i) n

theorem mallocPages_cases (hfit : h.TableFits) (m : Memory) (size : Nat) :
    (∃ i, 1 ≤ pagesOf size ∧ i + pagesOf size ≤ h.numPages ∧
      h.RunFree m i (pagesOf size) ∧
      Page.mallocPages h size m = (some (h.base i), h.pagesMemory m i size)) ∨
    (Page.mallocPages h size m = (none, m) ∧ (1 ≤ (pageCount size).toInt →
      ∀ i, i + pagesOf size ≤ h.numPages → ¬h.RunFree m i (pagesOf size))) := by
  have hN := numPages_lt hfit
  rcases pageAlloc_cases h (by omega) (pageCount size) m with
    ⟨i, hn, hNi, hfree, -, heq⟩ | ⟨heq, hnone⟩
  · left
    have hpages : pagesOf size = (pageCount size).toInt.toNat := rfl
    rw [← hpages] at hNi hfree heq
    have hn1 : 1 ≤ pagesOf size := by omega
    rw [h.runAddr_eq (by omega) (by omega)] at heq
    refine ⟨i, hn1, hNi, hfree, ?_⟩
    by_cases hu : usesBlocks size = true
    · have hlast : h.skipPages (h.base i) (pageCount size - 1) =
          h.base (i + pagesOf size - 1) := by
        have hsub : pageCount size - 1 = BitVec.ofNat 32 (pagesOf size - 1) := by
          rw [pageCount_eq hn]
          exact BitVec.ofNat_sub_ofNat_of_le _ 1 (by decide) hn1
        have hend := h.base_le_allocEnd (by omega : i + pagesOf size ≤ h.numPages)
        have hspace := h.inSpace
        rw [hsub, h.skipPages_eq (by omega)]
        · unfold Heap.base pageSize
          omega
        · unfold Heap.base pageSize at *
          omega
      have hcond := of_decide_eq_true hu
      simp only [Page.mallocPages, heq, hlast, h.getPageByAddr_base,
        if_pos hcond, Heap.pagesMemory, if_pos hu]
    · have hcond : ¬(0 < size % pageSize ∧ size % pageSize ≤ allocableSize) :=
        fun hc => hu (decide_eq_true hc)
      simp only [Page.mallocPages, heq, if_neg hcond, Heap.pagesMemory,
        if_neg hu]
  · right
    refine ⟨?_, hnone⟩
    simp only [Page.mallocPages, heq]

end Found

/-! ## Grants -/

structure PagesGranted (h : Heap) (m m' : Memory) (i size : Nat) : Prop where
  onePage : 1 ≤ pagesOf size
  inside : i + pagesOf size ≤ h.numPages
  free : h.RunFree m i (pagesOf size)
  table : ∀ j < h.numPages, m' (h.desc j) =
    if i ≤ j ∧ j < i + pagesOf size then
      m (h.desc j) ||| flagByte (decide (j = i))
        (decide (j + 1 = i + pagesOf size))
        (usesBlocks size && decide (j + 1 = i + pagesOf size))
    else m (h.desc j)
  blocks : usesBlocks size = true →
    ∃ m₁, BlockTable m₁ (h.blockStart (i + pagesOf size - 1)) ∅ ∧
      m' = takeBlocks m₁ (h.blockStart (i + pagesOf size - 1))
        (h.blockStart (i + pagesOf size - 1)) (blockTotal (size % pageSize))
  elsewhere : ∀ b, h.desc h.numPages ≤ b →
    (usesBlocks size = true → b < h.blockStart (i + pagesOf size - 1) ∨
      h.blockStart (i + pagesOf size - 1) + mallocTableSize ≤ b) → m' b = m b

inductive Granted (h : Heap) (m : Memory) : Allocation → Memory → Prop where
  | blocks {k i size : Nat} (inside : k < h.numPages)
      (malloced : isMalloced m (h.desc k) = true) (pos : 1 ≤ size)
      (small : size ≤ allocableSize)
      (before : ∀ j < k, h.NoRoom m size j)
      (fit : FirstFit m (h.blockStart k) (blockTotal size) i) :
      Granted h m ⟨h.base k + i * mallocSize, size⟩
        (takeBlocks m (h.blockStart k) (h.blockStart k + i) (blockTotal size))
  | pages {i size : Nat} {m' : Memory} (pos : 1 ≤ size)
      (pages : PagesGranted h m m' i size) : Granted h m ⟨h.base i, size⟩ m'

structure Unserved (h : Heap) (m : Memory) (size : Nat) : Prop where
  small : size ≤ allocableSize → ∀ k < h.numPages, h.NoRoom m size k
  large : allocableSize < size → 1 ≤ (pageCount size).toInt →
    ∀ i, i + pagesOf size ≤ h.numPages → ¬h.RunFree m i (pagesOf size)

section Cases

variable {h : Heap} {m m' : Memory} {i k size : Nat}

private theorem or_freshFlags : ∀ x : Byte,
    x ||| freshFlags = x ||| flagByte true true true := by
  decide

private theorem or_flagByte_malloc : ∀ first last : Bool,
    flagByte first last false ||| pageMalloc = flagByte first last true := by
  decide

theorem Heap.markRun_desc (h : Heap) (m : Memory) {i n : Nat} (hn : 1 ≤ n)
    (j : Nat) : markRun m (h.desc i) n (h.desc j) =
      if i ≤ j ∧ j < i + n then m (h.desc j) |||
        flagByte (decide (j = i)) (decide (j + 1 = i + n)) false
      else m (h.desc j) := by
  have hin : (h.desc i ≤ h.desc j ∧ h.desc j < h.desc i + n) ↔
      (i ≤ j ∧ j < i + n) := by unfold Heap.desc; omega
  have hlast : h.desc j + 1 = h.desc i + n ↔ j + 1 = i + n := by
    unfold Heap.desc
    omega
  rw [markRun_apply _ _ _ hn]
  simp only [hin, h.desc_inj, hlast]

theorem Heap.markRun_of_ge (h : Heap) (m : Memory) {i n b : Nat} (hn : 1 ≤ n)
    (hN : i + n ≤ h.numPages) (hb : h.desc h.numPages ≤ b) :
    markRun m (h.desc i) n b = m b := by
  rw [markRun_apply _ _ _ hn, if_neg]
  unfold Heap.desc at *
  omega

theorem PagesGranted.isPageFree {j : Nat} (hp : PagesGranted h m m' i size)
    (hij : i ≤ j) (hj : j < i + pagesOf size) :
    Page.isPageFree m (h.desc j) = true := by
  have hfree := hp.free (j - i) (by omega)
  rwa [Nat.add_sub_cancel' hij] at hfree

theorem PagesGranted.not_mem_of_taken (hp : PagesGranted h m m' i size)
    (htaken : Page.isPageFree m (h.desc k) = false) :
    ¬(i ≤ k ∧ k < i + pagesOf size) := by
  intro hin
  rw [hp.isPageFree hin.1 hin.2] at htaken
  contradiction

theorem PagesGranted.blockTable_of_ne (hp : PagesGranted h m m' i size) (hfit : h.TableFits)
    (hne : k + 1 ≠ i + pagesOf size) {x : Nat} (hx : h.blockStart k ≤ x)
    (hx' : x < h.blockStart k + mallocTableSize) : m' x = m x := by
  have hone := hp.onePage
  have hlow := h.desc_numPages_le hfit
  have hbase := h.allocStart_le_base k
  have hstart := h.blockStart_eq
  rw [hstart] at hx hx'
  refine hp.elsewhere x (by omega) fun _ => ?_
  rw [hstart]
  unfold mallocTableSize at *
  rcases Nat.lt_or_gt_of_ne (by omega : k ≠ i + pagesOf size - 1) with hlt | hgt
  · have := h.base_lt_base hlt
    unfold pageSize at this
    omega
  · have := h.base_lt_base hgt
    unfold pageSize at this
    omega

theorem pagesGranted_whole (hn : 1 ≤ pagesOf size)
    (hN : i + pagesOf size ≤ h.numPages) (hfree : h.RunFree m i (pagesOf size))
    (hu : usesBlocks size = false) :
    PagesGranted h m (markRun m (h.desc i) (pagesOf size)) i size where
  onePage := hn
  inside := hN
  free := hfree
  table j _ := by
    rw [h.markRun_desc m hn j, hu, Bool.false_and]
  blocks hu' := by
    rw [hu] at hu'
    contradiction
  elsewhere b hb _ := h.markRun_of_ge m hn hN hb

theorem pagesGranted_tail (hfit : h.TableFits) (hn : 1 ≤ pagesOf size)
    (hN : i + pagesOf size ≤ h.numPages) (hfree : h.RunFree m i (pagesOf size))
    (hu : usesBlocks size = true) :
    PagesGranted h m (h.pagesMemory m i size) i size := by
  obtain ⟨hrest, hrest'⟩ := of_decide_eq_true hu
  rw [Heap.pagesMemory, if_pos hu]
  generalize hk : i + pagesOf size - 1 = k
  have hkN : k < h.numPages := by omega
  have hinit := mallocInit_same h (markRun m (h.desc i) (pagesOf size)) k
  have htable : BlockTable (setPageFlags (mallocInit
      (markRun m (h.desc i) (pagesOf size)) (h.base k)) (h.desc k) pageMalloc)
      (h.blockStart k) ∅ := by
    refine (blockTable_mallocInit (markRun m (h.desc i) (pagesOf size))
      (h.base k)).congr fun b hb _ => ?_
    have := h.desc_lt_blockStart hfit hkN (k := k)
    have hb' : h.blockStart k ≤ b := hb
    exact Memory.modify_of_ne (by omega)
  have hsame := (htable.takeFirst hrest hrest').2
  simp only [tryMalloc_empty h htable hrest hrest']
  refine ⟨hn, hN, hfree, fun j hj => ?_, fun _ => ?_, fun b hb hout => ?_⟩
  · rw [h.desc_of_sameOutside hfit hj hsame, setPageFlags, Memory.modify_apply,
      h.desc_of_sameOutside hfit hj hinit, h.markRun_desc m hn j]
    simp only [h.desc_inj, hu, Bool.true_and]
    by_cases hjk : j = k
    · rw [if_pos hjk, if_pos (by omega), if_pos (by omega), BitVec.or_assoc,
        or_flagByte_malloc, decide_eq_true (by omega : j + 1 = i + pagesOf size)]
    · rw [if_neg hjk]
      have hlast : ¬j + 1 = i + pagesOf size := by omega
      simp only [hlast, decide_false]
  · rw [hk]
    exact ⟨_, htable, rfl⟩
  · rw [hk] at hout
    have hdesc : h.desc k < h.desc h.numPages := by unfold Heap.desc; omega
    rw [hsame b (hout hu), setPageFlags, Memory.modify_of_ne (by omega),
      hinit b (hout hu), h.markRun_of_ge m hn hN hb]

theorem pagesGranted_fresh (hfit : h.TableFits) (hk : k < h.numPages)
    (hpos : 1 ≤ size) (hsize : size ≤ allocableSize)
    (hfree : isPageFree m (h.desc k) = true) :
    PagesGranted h m (takeBlocks (h.freshPage m k) (h.blockStart k)
      (h.blockStart k) (blockTotal size)) k size := by
  obtain ⟨hu, hmod⟩ := usesBlocks_of_small hpos hsize
  have hone := pagesOf_small hpos (small_le_pageSize hsize)
  have htable : BlockTable (h.freshPage m k) (h.blockStart k) ∅ :=
    blockTable_mallocInit _ _
  have hsame := (htable.takeFirst hpos hsize).2
  have hinit := mallocInit_same h (setPageFlags m (h.desc k) freshFlags) k
  refine ⟨hone.ge, by omega, fun j hj => ?_, fun j hj => ?_, fun _ => ?_,
    fun b hb hout => ?_⟩
  · rwa [show k + j = k by omega]
  · rw [h.desc_of_sameOutside hfit hj hsame, Heap.freshPage,
      h.desc_of_sameOutside hfit hj hinit, setPageFlags, Memory.modify_apply, hu,
      hone]
    simp only [h.desc_inj, Bool.true_and]
    by_cases hjk : j = k
    · rw [if_pos hjk, if_pos (by omega), or_freshFlags, decide_eq_true hjk,
        decide_eq_true (by omega : j + 1 = k + 1)]
    · rw [if_neg hjk, if_neg (by omega)]
  · rw [hone, hmod]
    exact ⟨_, htable, rfl⟩
  · rw [hone] at hout
    have hdesc : h.desc k < h.desc h.numPages := by unfold Heap.desc; omega
    have hout' := hout hu
    simp only [Nat.add_sub_cancel] at hout'
    rw [hsame b hout', Heap.freshPage, hinit b hout', setPageFlags,
      Memory.modify_of_ne (by omega)]

theorem mallocBlocks_granted (hfit : h.TableFits) (m : Memory) (hpos : 1 ≤ size)
    (hsize : size ≤ allocableSize) :
    (∃ p m', mallocBlocks h size h.numPages 0 m = (some p, m') ∧
      Granted h m ⟨p, size⟩ m') ∨
    (mallocBlocks h size h.numPages 0 m = (none, m) ∧ Unserved h m size) := by
  rcases mallocBlocks_cases h m hpos hsize h.numPages 0 (by omega) with
    ⟨k, -, hk, hbefore, hserved⟩ | ⟨heq, hnone⟩
  · left
    rw [Nat.zero_add] at hk
    rcases hserved with ⟨hmal, i, hfit', heq⟩ | ⟨-, hfree, heq⟩
    · exact ⟨_, _, heq, .blocks hk hmal hpos hsize
        (fun j hj => hbefore j (Nat.zero_le _) hj) hfit'⟩
    · exact ⟨_, _, heq, .pages hpos (pagesGranted_fresh hfit hk hpos hsize hfree)⟩
  · exact .inr ⟨heq, fun _ k hk => hnone k (Nat.zero_le _) (by omega),
      fun hlarge => absurd hlarge (by omega)⟩

theorem mallocPage_granted (hfit : h.TableFits) (m : Memory)
    (hlarge : allocableSize < size) (hsize : size ≤ pageSize) :
    (∃ p m', mallocPage h h.numPages 0 m = (some p, m') ∧
      Granted h m ⟨p, size⟩ m') ∨
    (mallocPage h h.numPages 0 m = (none, m) ∧ Unserved h m size) := by
  have hN := numPages_lt hfit
  have hone := pagesOf_small (by omega : 1 ≤ size) hsize
  have hu : usesBlocks size = false := by
    unfold allocableSize at hlarge
    unfold pageSize at hsize
    refine decide_eq_false ?_
    unfold pageSize allocableSize
    omega
  rw [mallocPage_eq h (by omega)]
  rcases pageAlloc_cases h (by omega) 1 m with ⟨i, -, hNi, hfree, -, heq⟩ | ⟨heq, hnone⟩
  · left
    rw [show (1 : CInt).toInt.toNat = pagesOf size from hone.symm] at hNi hfree heq
    rw [h.runAddr_eq (by omega) (by omega)] at heq
    exact ⟨_, _, heq, .pages (by omega)
      (pagesGranted_whole hone.ge hNi hfree hu)⟩
  · right
    refine ⟨heq, fun hsmall => absurd hlarge (by omega), fun _ _ => ?_⟩
    rw [hone]
    exact hnone (by decide)

theorem mallocPages_granted (hfit : h.TableFits) (m : Memory)
    (hsize : pageSize < size) :
    (∃ p m', mallocPages h size m = (some p, m') ∧ Granted h m ⟨p, size⟩ m') ∨
    (mallocPages h size m = (none, m) ∧ Unserved h m size) := by
  have hlarge : allocableSize < size := by
    unfold pageSize at hsize
    unfold allocableSize
    omega
  rcases mallocPages_cases hfit m size with ⟨i, hn, hN, hfree, heq⟩ | ⟨heq, hnone⟩
  · left
    refine ⟨_, _, heq, .pages (by omega) ?_⟩
    by_cases hu : usesBlocks size = true
    · exact pagesGranted_tail hfit hn hN hfree hu
    · rw [Heap.pagesMemory, if_neg hu]
      exact pagesGranted_whole hn hN hfree (by simpa using hu)
  · exact .inr ⟨heq, fun hsmall => absurd hlarge (by omega), fun _ => hnone⟩

/-- `malloc` grants the request, or there is no room for it and nothing
changes. -/
theorem malloc_cases (hfit : h.TableFits) (m : Memory) (size : Nat) :
    (∃ p m', malloc h size m = (some p, m') ∧ Granted h m ⟨p, size⟩ m') ∨
    (malloc h size m = (none, m) ∧ (1 ≤ size → Unserved h m size)) := by
  rw [malloc]
  split_ifs with hzero hsmall hpage
  · exact .inr ⟨rfl, fun hpos => by omega⟩
  · exact (mallocBlocks_granted hfit m (by omega) hsmall).imp_right
      fun hr => ⟨hr.1, fun _ => hr.2⟩
  · exact (mallocPage_granted hfit m (by omega) hpage).imp_right
      fun hr => ⟨hr.1, fun _ => hr.2⟩
  · exact (mallocPages_granted hfit m (by omega)).imp_right
      fun hr => ⟨hr.1, fun _ => hr.2⟩

end Cases

end XinOS.Page
