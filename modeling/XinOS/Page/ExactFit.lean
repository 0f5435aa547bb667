import XinOS.Page.Runs

/-!
# `page_alloc` is first fit, up to 2 GiB

`page_alloc` finds the first run of free pages whatever the table holds, and marks
exactly that run.  The offset of the run in the heap is an `int` product, so the
address is right on a 64-bit machine only below page `2 ^ 19`.
-/

namespace XinOS.Page

open XinOS.Foundation

/-! ## The address of a page -/

/-- `i * PAGE_SIZE` in `page_alloc`. -/
def pageOffset (i : Nat) : Int :=
  (BitVec.ofNat 32 i * BitVec.ofNat 32 pageSize : CInt).toInt

theorem pageOffset_emod (i : Nat) :
    pageOffset i % 2 ^ 32 = ((i * pageSize : Nat) : Int) % 2 ^ 32 := by
  rw [pageOffset, ← BitVec.ofNat_mul, BitVec.toInt_ofNat']
  exact Int.bmod_emod

theorem pageOffset_bounds (i : Nat) :
    -2 ^ 31 ≤ pageOffset i ∧ pageOffset i < 2 ^ 31 :=
  ⟨BitVec.le_toInt _, BitVec.toInt_lt⟩

/-- On RV32 the product wraps like the pointer it is added to; on RV64 it is
negative or too small from page `2 ^ 19` on. -/
theorem Region.runAddr_eq_iff (r : Region) {i : Nat} (hi : i < r.heap.numPages)
    (hN : r.heap.numPages < 2 ^ 31) :
    r.heap.runAddr i = r.heap.base i ↔ r.build = .rv32 ∨ i < 2 ^ 19 := by
  have hend := r.heap.base_le_allocEnd (Nat.le_of_lt hi)
  have hspace := r.heap.inSpace
  have haddr : r.heap.runAddr i =
      (((r.heap.allocStart : Int) + pageOffset i) % 2 ^ r.heap.xlen).toNat := rfl
  have hbase : (r.heap.base i : Int) =
      r.heap.allocStart + ((i * pageSize : Nat) : Int) := by
    unfold Heap.base
    push_cast
    rfl
  cases hbuild : r.build with
  | rv32 =>
      have hxlen : r.heap.xlen = 32 := congrArg Build.xlen hbuild
      rw [hxlen] at haddr hspace
      have hwrap : ((r.heap.allocStart : Int) + pageOffset i) % 2 ^ 32 =
          r.heap.base i := by
        rw [← Int.add_emod_emod, pageOffset_emod, Int.add_emod_emod, ← hbase]
        omega
      rw [haddr, hwrap]
      simp
  | rv64 =>
      have hxlen : r.heap.xlen = 64 := congrArg Build.xlen hbuild
      simp only [reduceCtorEq, false_or]
      refine ⟨fun heq => ?_, r.heap.runAddr_eq hi⟩
      by_contra hlarge
      obtain ⟨hlo, hhi⟩ := pageOffset_bounds i
      rw [hxlen] at haddr hspace
      unfold pageSize at hbase
      omega

/-! ## First fit -/

def Heap.RunFits (h : Heap) (m : Memory) (i n : Nat) : Prop :=
  i + n ≤ h.numPages ∧ h.RunFree m i n

def Heap.RunMarked (h : Heap) (i n : Nat) (m m' : Memory) : Prop :=
  (∀ j, i ≤ j → j < i + n → m' (h.desc j) = m (h.desc j) |||
    flagByte (decide (j = i)) (decide (j + 1 = i + n)) false) ∧
  Memory.SameOutside (h.desc i) (h.desc (i + n)) m m'

def Heap.ExactFirstFit (h : Heap) (n : CInt) (m : Memory) : Prop :=
  (pageAlloc h n m = (none, m) ↔
    n.toInt < 1 ∨ ∀ i, ¬h.RunFits m i n.toInt.toNat) ∧
  (1 ≤ n.toInt → ∀ i, h.RunFits m i n.toInt.toNat →
    (∀ i' < i, ¬h.RunFits m i' n.toInt.toNat) →
    (pageAlloc h n m).1 = some (h.base i) ∧
    h.RunMarked i n.toInt.toNat m (pageAlloc h n m).2)

theorem markRun_marked (h : Heap) (m : Memory) {i n : Nat} (hn : 1 ≤ n) :
    h.RunMarked i n m (markRun m (h.desc i) n) := by
  refine ⟨fun j hlo hhi => ?_, fun b hb => ?_⟩
  · rw [markRun_apply _ _ _ hn, if_pos (by unfold Heap.desc; omega)]
    have hfirst : h.desc j = h.desc i ↔ j = i := by unfold Heap.desc; omega
    have hlast : h.desc j + 1 = h.desc i + n ↔ j + 1 = i + n := by
      unfold Heap.desc
      omega
    simp only [hfirst, hlast]
  · rw [markRun_apply _ _ _ hn, if_neg (by unfold Heap.desc at *; omega)]

theorem pageAlloc_refused_iff (h : Heap) (hN : h.numPages < 2 ^ 31) (n : CInt)
    (m : Memory) : pageAlloc h n m = (none, m) ↔
      n.toInt < 1 ∨ ∀ i, ¬h.RunFits m i n.toInt.toNat := by
  constructor
  · intro hnone
    rcases pageAlloc_cases h hN n m with ⟨i, -, -, -, -, hsome⟩ | ⟨-, hnofit⟩
    · exact absurd (congrArg Prod.fst (hnone.symm.trans hsome)) (by simp)
    · by_cases hn : n.toInt < 1
      · exact .inl hn
      · exact .inr fun i hfits => hnofit (by omega) i hfits.1 hfits.2
  · intro hno
    rcases pageAlloc_cases h hN n m with ⟨i, hn, hlen, hfree, -, -⟩ | ⟨hnone, -⟩
    · rcases hno with hlt | hno
      · omega
      · exact absurd ⟨hlen, hfree⟩ (hno i)
    · exact hnone

theorem pageAlloc_first (h : Heap) (hN : h.numPages < 2 ^ 31) {n : CInt}
    (m : Memory) (hn : 1 ≤ n.toInt) {i : Nat} (hfits : h.RunFits m i n.toInt.toNat)
    (hfirst : ∀ i' < i, ¬h.RunFits m i' n.toInt.toNat) :
    pageAlloc h n m =
      (some (h.runAddr i), markRun m (h.desc i) n.toInt.toNat) := by
  rcases pageAlloc_cases h hN n m with ⟨j, -, hlen, hfree, hleast, hsome⟩ | ⟨-, hno⟩
  · obtain rfl : i = j := by
      rcases lt_trichotomy i j with hlt | heq | hlt
      · exact absurd hfits.2 (hleast i hlt)
      · exact heq
      · exact absurd ⟨hlen, hfree⟩ (hfirst j hlt)
    exact hsome
  · exact absurd hfits.2 (hno hn i hfits.1)

/-- `page_alloc` is exact first fit unless, on RV64, every run that fits begins at
page `2 ^ 19` or behind it. -/
theorem page_alloc_exact_iff (r : Region) (hN : r.heap.numPages < 2 ^ 31)
    (n : CInt) (m : Memory) :
    r.heap.ExactFirstFit n m ↔
      r.build = .rv32 ∨ n.toInt < 1 ∨ (∀ i, ¬r.heap.RunFits m i n.toInt.toNat) ∨
        ∃ i < 2 ^ 19, r.heap.RunFits m i n.toInt.toNat := by
  have hinside : ∀ {i}, 1 ≤ n.toInt → r.heap.RunFits m i n.toInt.toNat →
      i < r.heap.numPages := fun hn hfits => by
    have := hfits.1
    omega
  constructor
  · rintro ⟨-, hfirst⟩
    by_contra! hnot
    obtain ⟨hbuild, hn, ⟨j, hj⟩, hlate⟩ := hnot
    -- the first run that fits
    classical
    have hsome : ∃ i, r.heap.RunFits m i n.toInt.toNat := ⟨j, hj⟩
    have hfits := Nat.find_spec hsome
    have hleast : ∀ i' < Nat.find hsome, ¬r.heap.RunFits m i' n.toInt.toNat :=
      fun _ => Nat.find_min hsome
    have haddr := (hfirst hn _ hfits hleast).1
    rw [pageAlloc_first r.heap hN m hn hfits hleast] at haddr
    rcases (r.runAddr_eq_iff (hinside hn hfits) hN).mp
      (Option.some.inj haddr) with heq | hlt
    · exact hbuild heq
    · exact hlate _ hlt hfits
  · intro hcases
    refine ⟨pageAlloc_refused_iff r.heap hN n m, fun hn i hfits hfirst => ?_⟩
    have haddr : r.build = .rv32 ∨ i < 2 ^ 19 := by
      rcases hcases with hbuild | hlt | hno | ⟨j, hj, hjfits⟩
      · exact .inl hbuild
      · omega
      · exact absurd hfits (hno i)
      · have hij : ¬j < i := fun hji => hfirst j hji hjfits
        exact .inr (by omega)
    rw [pageAlloc_first r.heap hN m hn hfits hfirst]
    refine ⟨?_, markRun_marked r.heap m (by omega)⟩
    exact congrArg some ((r.runAddr_eq_iff (hinside hn hfits) hN).mpr haddr)

theorem page_alloc_exact_iff_of_blank :
    twoPages.heap.ExactFirstFit 1 fun _ => 0 :=
  (page_alloc_exact_iff twoPages.toRegion (by decide +kernel) 1 fun _ => 0).mpr
    (.inr (.inr (.inr
      ⟨0, by decide, by decide +kernel, fun _ _ => by simp [isPageFree]⟩)))

def largeRegion : Region where
  build := .rv64
  heapStart := 0x80000000#64
  heapSize := 0x80009000#64
  reserve := by decide
  inSpace := by decide
  endAligned := by decide

theorem largeRegion_numPages : largeRegion.heap.numPages = 2 ^ 19 + 1 := by
  decide +kernel

def lastPageFree : Memory :=
  fun b => if b < largeRegion.heap.desc (2 ^ 19) then pageTaken else 0

theorem lastPageFree_fits :
    largeRegion.heap.RunFits lastPageFree (2 ^ 19) 1 ∧
      ∀ i < 2 ^ 19, ¬largeRegion.heap.RunFits lastPageFree i 1 := by
  refine ⟨⟨by rw [largeRegion_numPages], fun j hj => ?_⟩, fun i hi hfits => ?_⟩
  · have hdesc : ¬largeRegion.heap.desc (2 ^ 19 + j) <
        largeRegion.heap.desc (2 ^ 19) := by
      unfold Heap.desc
      omega
    rw [isPageFree, lastPageFree, if_neg hdesc]
    rfl
  · have hdesc : largeRegion.heap.desc (i + 0) <
        largeRegion.heap.desc (2 ^ 19) := by
      unfold Heap.desc
      omega
    have hfree := hfits.2 0 Nat.one_pos
    rw [isPageFree, lastPageFree, if_pos hdesc] at hfree
    exact absurd hfree (by decide)

/-- The only free page is at `0x100008000`; what is returned is `0x8000`. -/
theorem page_alloc_below_heap :
    (pageAlloc largeRegion.heap 1 lastPageFree).1 = some 0x8000 ∧
      ¬largeRegion.heap.ExactFirstFit 1 lastPageFree := by
  obtain ⟨hfits, hfirst⟩ := lastPageFree_fits
  have halloc := pageAlloc_first largeRegion.heap (n := 1)
    (by rw [largeRegion_numPages]; decide) lastPageFree (by decide) hfits hfirst
  have haddr : (pageAlloc largeRegion.heap 1 lastPageFree).1 = some 0x8000 := by
    rw [halloc]
    decide +kernel
  refine ⟨haddr, fun hexact => ?_⟩
  have hbase := (hexact.2 (by decide) _ hfits hfirst).1
  rw [haddr] at hbase
  exact absurd hbase (by decide +kernel)

end XinOS.Page
