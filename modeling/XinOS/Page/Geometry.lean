import XinOS.Page.BlockRuns
import Mathlib.Order.CompletePartialOrder
import Mathlib.Order.Interval.Set.Disjoint

/-!
# The geometry of the heap

os.ld puts the heap between the end of `.bss`, wherever that is, and the end of
RAM.  `page_init` rounds the number of pages down and their beginning up; the two
roundings meet at the end of RAM.  The conversions between descriptors, pages and
addresses are taken in machine arithmetic.
-/

namespace XinOS.Page

open XinOS.Foundation

/-! ## The conversions on machine words -/

namespace Region

variable (r : Region)

def entry (k : Nat) : BitVec r.build.xlen := r.heapStart + BitVec.ofNat _ k

def getStartMemByPage (page : BitVec r.build.xlen) : BitVec r.build.xlen :=
  r.allocStart + (page - r.heapStart) * BitVec.ofNat _ pageSize

def getStartMemByAddr (p : BitVec r.build.xlen) : BitVec r.build.xlen :=
  let pageCount := (p - r.allocStart) / BitVec.ofNat _ pageSize
  r.allocStart + pageCount * BitVec.ofNat _ pageSize

def getPageByAddr (p : BitVec r.build.xlen) : BitVec r.build.xlen :=
  let p := r.getStartMemByAddr p
  let pageCount := (p - r.allocStart) / BitVec.ofNat _ pageSize
  r.heapStart + pageCount

variable {r}

theorem numPages_lt : r.heap.numPages < 2 ^ r.build.xlen := r.numPages.isLt

theorem base_lt {k : Nat} (hk : k ≤ r.heap.numPages) :
    r.heap.base k < 2 ^ r.build.xlen :=
  (r.heap.base_le_allocEnd hk).trans_lt r.heap.inSpace

theorem entry_toNat {k : Nat} (hk : k ≤ r.heap.numPages) :
    (r.entry k).toNat = r.heap.desc k := by
  have hspace := base_lt hk
  have hreserve := r.heap.reserve
  have hstart : r.heap.heapStart = r.heapStart.toNat := rfl
  unfold Heap.base pageSize at *
  rw [entry, BitVec.toNat_add, BitVec.toNat_ofNat,
    Nat.mod_eq_of_lt (by omega : k < 2 ^ r.build.xlen), Heap.desc, hstart,
    Nat.mod_eq_of_lt (by omega)]

theorem allocStart_add_mul {n : BitVec r.build.xlen}
    (hn : n.toNat ≤ r.heap.numPages) :
    (r.allocStart + n * BitVec.ofNat _ pageSize).toNat = r.heap.base n.toNat := by
  have hspace := base_lt hn
  have hstart : r.heap.allocStart = r.allocStart.toNat := rfl
  unfold Heap.base pageSize at *
  rw [BitVec.toNat_add, BitVec.toNat_mul, show (BitVec.ofNat _ 4096).toNat = 4096
    from r.pageSize_toNat, Nat.mod_eq_of_lt (a := n.toNat * 4096) (by omega), hstart,
    Nat.mod_eq_of_lt (by omega)]

theorem pageCount_toNat {p : BitVec r.build.xlen}
    (hp : r.heap.allocStart ≤ p.toNat) :
    ((p - r.allocStart) / BitVec.ofNat _ pageSize).toNat = r.heap.pageOf p.toNat := by
  have hle : r.allocStart ≤ p := BitVec.le_def.mpr hp
  rw [BitVec.toNat_udiv, r.pageSize_toNat, BitVec.toNat_sub_of_le hle]
  rfl

theorem getStartMemByPage_toNat {k : Nat} (hk : k ≤ r.heap.numPages) :
    (r.getStartMemByPage (r.entry k)).toNat = r.heap.base k := by
  have hlt := numPages_lt (r := r)
  have hk' : (BitVec.ofNat r.build.xlen k).toNat = k :=
    (BitVec.toNat_ofNat _ _).trans (Nat.mod_eq_of_lt (by omega))
  have hdiff : r.entry k - r.heapStart = BitVec.ofNat _ k := by
    rw [entry, BitVec.add_comm, BitVec.add_sub_cancel]
  rw [getStartMemByPage, hdiff, allocStart_add_mul (by rwa [hk']), hk']

theorem getStartMemByAddr_toNat {p : BitVec r.build.xlen}
    (hp : r.heap.allocStart ≤ p.toNat) (hp' : p.toNat < r.heap.allocEnd) :
    (r.getStartMemByAddr p).toNat = Page.getStartMemByAddr r.heap p.toNat := by
  have hcount := pageCount_toNat hp
  have hpage := r.heap.pageOf_lt hp hp'
  rw [getStartMemByAddr, allocStart_add_mul (by rw [hcount]; exact hpage.le), hcount]
  rfl

theorem getPageByAddr_toNat {p : BitVec r.build.xlen}
    (hp : r.heap.allocStart ≤ p.toNat) (hp' : p.toNat < r.heap.allocEnd) :
    (r.getPageByAddr p).toNat = Page.getPageByAddr r.heap p.toNat := by
  have hmem := getStartMemByAddr_toNat hp hp'
  have hbase : Page.getStartMemByAddr r.heap p.toNat =
      r.heap.base (r.heap.pageOf p.toNat) := rfl
  have hcount := pageCount_toNat (p := r.getStartMemByAddr p)
    (by rw [hmem, hbase]; exact r.heap.allocStart_le_base _)
  have hpage : r.heap.pageOf p.toNat ≤ r.heap.numPages := (r.heap.pageOf_lt hp hp').le
  have hentry := entry_toNat (r := r) hpage
  have hsame : r.heap.pageOf (r.heap.base (r.heap.pageOf p.toNat)) =
      r.heap.pageOf p.toNat :=
    r.heap.pageOf_eq le_rfl (r.heap.base_lt_base_succ _)
  have hword : r.getPageByAddr p = r.entry (r.heap.pageOf p.toNat) := by
    rw [getPageByAddr, entry]
    congr 1
    refine BitVec.eq_of_toNat_eq ?_
    rw [hcount, hmem, hbase, hsame, BitVec.toNat_ofNat,
      Nat.mod_eq_of_lt (hpage.trans_lt numPages_lt)]
  rw [hword, hentry, r.heap.getPageByAddr_eq (r.heap.base_pageOf_le hp).1
    (r.heap.base_pageOf_le hp).2]

end Region

/-! ## The pages -/

def Heap.pageBytes (h : Heap) (k : Nat) : Set Nat :=
  Set.Ico (h.base k) (h.base k + pageSize)

theorem Heap.pageBytes_disjoint (h : Heap) {j k : Nat} (hjk : j ≠ k) :
    Disjoint (h.pageBytes j) (h.pageBytes k) := by
  rw [pageBytes, pageBytes, Set.Ico_disjoint_Ico]
  rcases lt_or_gt_of_ne hjk with hlt | hlt
  · have hle := h.base_lt_base hlt
    omega
  · have hle := h.base_lt_base hlt
    omega

theorem Heap.pageBytes_cover (h : Heap) :
    ⋃ k < h.numPages, h.pageBytes k = Set.Ico h.allocStart h.allocEnd := by
  ext p
  simp only [Set.mem_iUnion, exists_prop, pageBytes, Set.mem_Ico]
  constructor
  · rintro ⟨k, hk, hlo, hhi⟩
    have hstart := h.allocStart_le_base k
    have hend := h.base_le_allocEnd (show k + 1 ≤ h.numPages from hk)
    rw [h.base_succ] at hend
    omega
  · rintro ⟨hlo, hhi⟩
    obtain ⟨hbase, hnext⟩ := h.base_pageOf_le hlo
    rw [h.base_succ] at hnext
    exact ⟨_, h.pageOf_lt hlo hhi, hbase, hnext⟩

/-! ## os.ld -/

/-- `ORIGIN(ram)` -/
def memoryStart : Nat := 0x80000000

/-- `ORIGIN(ram) + LENGTH(ram)` -/
def memoryEnd : Nat := memoryStart + 128 * 2 ^ 20

theorem word_toNat (b : Build) {n : Nat} (hn : n ≤ memoryEnd) :
    (BitVec.ofNat b.xlen n).toNat = n := by
  have hspace : memoryEnd < 2 ^ b.xlen := by cases b <;> decide
  rw [BitVec.toNat_ofNat, Nat.mod_eq_of_lt (by omega)]

/-- The heap of an image whose `.bss` ends at `heapStart`, when RAM has nine pages
from there on. -/
def linked (b : Build) (heapStart : Nat) (_hstart : memoryStart ≤ heapStart)
    (hpages : 9 * pageSize ≤ memoryEnd - heapStart) : Region :=
  have hheap := word_toNat b (n := heapStart) (by unfold pageSize at hpages; omega)
  have hsize := word_toNat b (n := memoryEnd - heapStart) (Nat.sub_le _ _)
  { build := b
    heapStart := BitVec.ofNat _ heapStart
    heapSize := BitVec.ofNat _ (memoryEnd - heapStart)
    reserve := by
      rw [hsize]
      omega
    inSpace := by
      have hspace : memoryEnd < 2 ^ b.xlen := by cases b <;> decide
      rw [hheap, hsize]
      unfold pageSize at hpages
      omega
    endAligned := by
      rw [hheap, hsize]
      unfold memoryEnd memoryStart pageSize at *
      omega }

structure Geometry (r : Region) (h : Heap) : Prop where
  startAligned : h.allocStart % pageSize = 0
  endAligned : h.allocEnd % pageSize = 0
  table : r.heapStart.toNat + h.numPages ≤ h.allocStart
  startMem : ∀ k < h.numPages,
    (r.getStartMemByPage (r.entry k)).toNat = h.allocStart + pageSize * k
  page : ∀ k < h.numPages, ∀ o < pageSize,
    r.getPageByAddr (r.getStartMemByPage (r.entry k) + BitVec.ofNat _ o) = r.entry k
  disjoint : ∀ j < h.numPages, ∀ k < h.numPages, j ≠ k →
    Disjoint (h.pageBytes j) (h.pageBytes k)
  cover : ⋃ k < h.numPages, h.pageBytes k = Set.Ico h.allocStart h.allocEnd

theorem Region.geometry (r : Region) (hfit : r.heap.TableFits) : Geometry r r.heap where
  startAligned := by
    change r.allocStart.toNat % pageSize = 0
    rw [r.allocStart_toNat]
    exact Nat.mul_mod_left _ _
  endAligned := by
    change r.allocEnd.toNat % pageSize = 0
    rw [r.allocEnd_toNat.2]
    exact r.endAligned
  table := by
    have hreserve := r.heap.reserve
    unfold Heap.TableFits at hfit
    change r.heap.heapStart + _ ≤ _
    omega
  startMem := fun k hk => by
    rw [getStartMemByPage_toNat hk.le, Heap.base, Nat.mul_comm]
  page := fun k hk o ho => by
    have hbase := getStartMemByPage_toNat (r := r) hk.le
    have hnext := base_lt (r := r) (k := k + 1) hk
    have hend := r.heap.base_le_allocEnd (k := k + 1) hk
    have hstart := r.heap.allocStart_le_base k
    rw [r.heap.base_succ] at hnext hend
    have haddr : (r.getStartMemByPage (r.entry k) + BitVec.ofNat _ o).toNat =
        r.heap.base k + o := by
      rw [BitVec.toNat_add, BitVec.toNat_ofNat, hbase,
        Nat.mod_eq_of_lt (by omega : o < _), Nat.mod_eq_of_lt (by omega)]
    refine BitVec.eq_of_toNat_eq ?_
    rw [getPageByAddr_toNat (by omega) (by omega), entry_toNat hk.le, haddr]
    exact r.heap.getPageByAddr_eq (by omega) (by rw [r.heap.base_succ]; omega)
  disjoint := fun _ _ _ _ hjk => r.heap.pageBytes_disjoint hjk
  cover := r.heap.pageBytes_cover

/-- Wherever `.bss` ends, the two roundings of `page_init` meet at the end of RAM. -/
theorem page_init_geometry (b : Build) (heapStart : Nat)
    (hstart : memoryStart ≤ heapStart)
    (hpages : 9 * pageSize ≤ memoryEnd - heapStart) (m : Memory) :
    let r := linked b heapStart hstart hpages
    Geometry r (pageInit r m).1 ∧ (pageInit r m).1.allocEnd = memoryEnd := by
  intro r
  have hheap : r.heapStart.toNat = heapStart :=
    word_toNat b (by unfold pageSize at hpages; omega)
  have hsize : r.heapSize.toNat = memoryEnd - heapStart :=
    word_toNat b (Nat.sub_le _ _)
  have hram : r.heapSize.toNat ≤ 128 * 2 ^ 20 := by
    have hend : memoryEnd = memoryStart + 128 * 2 ^ 20 := rfl
    omega
  refine ⟨r.geometry (r.board hram).tableFits, ?_⟩
  calc r.allocEnd.toNat = r.heapStart.toNat + r.heapSize.toNat := r.allocEnd_toNat.2
    _ = memoryEnd := by
      rw [hheap, hsize]
      unfold pageSize at hpages
      omega

theorem page_init_geometry_of_unaligned :
    memoryStart ≤ 0x80003abc ∧ 9 * pageSize ≤ memoryEnd - 0x80003abc ∧
      let r := linked .rv32 0x80003abc (by decide) (by decide)
      Geometry r (pageInit r fun _ => 0).1 ∧
        (pageInit r fun _ => 0).1.allocEnd = memoryEnd :=
  ⟨by decide, by decide,
    page_init_geometry .rv32 0x80003abc (by decide) (by decide) fun _ => 0⟩

end XinOS.Page
