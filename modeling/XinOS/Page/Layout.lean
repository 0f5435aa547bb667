import XinOS.Platform
import XinOS.Foundation.Memory

/-!
# Heap layout

`page_init` (page.c) lays the heap out from the two link-time values `HEAP_START`
and `HEAP_SIZE`: a table with one byte per 4 KiB page at `HEAP_START`, for which
eight pages are reserved, and the pages themselves from the next page boundary
on.  `Region` is what os.ld promises about the link-time values, `Board` adds
that the reserved eight pages hold the page table.
-/

namespace XinOS.Page

open XinOS.Foundation

def pageSize : Nat := 4096

def pageOrder : Nat := 12

def alignPage {w : Nat} (addr : BitVec w) : BitVec w :=
  let order := (1#w <<< pageOrder) - 1#w
  (addr + order) &&& ~~~order

/-- The link-time values behind `HEAP_START` and `HEAP_SIZE`.  os.ld ends the
heap at the end of RAM, which is page aligned and below the end of the address
space. -/
structure Region where
  build : Build
  heapStart : BitVec build.xlen
  heapSize : BitVec build.xlen
  reserve : 8 * pageSize ≤ heapSize.toNat
  inSpace : heapStart.toNat + heapSize.toNat < 2 ^ build.xlen
  endAligned : (heapStart.toNat + heapSize.toNat) % pageSize = 0

/-- The static variables of page.c after `page_init`, with the relations between
them that the rest of the file relies on. -/
structure Heap where
  xlen : Nat
  heapStart : Nat
  allocStart : Nat
  allocEnd : Nat
  numPages : Nat
  reserve : heapStart + 8 * pageSize ≤ allocStart
  allocEnd_eq : allocEnd = allocStart + numPages * pageSize
  inSpace : allocEnd < 2 ^ xlen

namespace Region

variable (r : Region)

def numPages : BitVec r.build.xlen :=
  r.heapSize / BitVec.ofNat _ pageSize - BitVec.ofNat _ 8

def allocStart : BitVec r.build.xlen :=
  alignPage (r.heapStart + BitVec.ofNat _ 8 * BitVec.ofNat _ pageSize)

def allocEnd : BitVec r.build.xlen :=
  r.allocStart + r.numPages * BitVec.ofNat _ pageSize

end Region

/-! ## The machine arithmetic of `page_init` does not wrap -/

private theorem order_eq {w : Nat} (hw : 12 < w) :
    (1#w <<< pageOrder) - 1#w = 4095#w := by
  have hpow : 2 ^ 13 ≤ 2 ^ w := Nat.pow_le_pow_right (by omega) hw
  have hone : (1 : Nat) % 2 ^ w = 1 := Nat.mod_eq_of_lt (by omega)
  have hshift : (1#w <<< pageOrder).toNat = 4096 := by
    rw [BitVec.toNat_shiftLeft, BitVec.toNat_ofNat, hone, Nat.shiftLeft_eq,
      pageOrder]
    exact Nat.mod_eq_of_lt (by omega)
  apply BitVec.eq_of_toNat_eq
  rw [BitVec.toNat_sub, hshift, BitVec.toNat_ofNat, BitVec.toNat_ofNat, hone,
    show 2 ^ w - 1 + 4096 = 4095 + 2 ^ w by omega, Nat.add_mod_right]

theorem alignPage_eq_shift {w : Nat} (addr : BitVec w) (hw : 12 < w) :
    alignPage addr = ((addr + 4095#w) >>> 12) <<< 12 := by
  unfold alignPage
  simp only [order_eq hw]
  apply BitVec.eq_of_getLsbD_eq
  intro i hi
  have hbit : (4095#w).getLsbD i = decide (i < 12) := by
    rw [BitVec.getLsbD_ofNat, show 4095 = 2 ^ 12 - 1 from rfl,
      Nat.testBit_two_pow_sub_one]
    simp [hi]
  rw [BitVec.getLsbD_and, BitVec.getLsbD_not, hbit, BitVec.getLsbD_shiftLeft,
    BitVec.getLsbD_ushiftRight]
  by_cases h12 : i < 12
  · simp [h12]
  · simp [h12, hi, Nat.add_sub_cancel' (Nat.le_of_not_lt h12)]

theorem alignPage_toNat {w : Nat} (addr : BitVec w) (hw : 12 < w)
    (hspace : addr.toNat + 4095 < 2 ^ w) :
    (alignPage addr).toNat = (addr.toNat + 4095) / 4096 * 4096 := by
  have hpow : 2 ^ 13 ≤ 2 ^ w := Nat.pow_le_pow_right (by omega) hw
  have hsum : (addr + 4095#w).toNat = addr.toNat + 4095 := by
    rw [BitVec.toNat_add, BitVec.toNat_ofNat, Nat.mod_eq_of_lt (by omega : 4095 < 2 ^ w),
      Nat.mod_eq_of_lt hspace]
  rw [alignPage_eq_shift addr hw, BitVec.toNat_shiftLeft,
    BitVec.toNat_ushiftRight, hsum, Nat.shiftLeft_eq, Nat.shiftRight_eq_div_pow]
  exact Nat.mod_eq_of_lt (by omega)

namespace Region

variable (r : Region)

theorem xlen_large : 2 ^ 32 ≤ 2 ^ r.build.xlen := by
  cases h : r.build <;> simp [Build.xlen]

theorem xlen_gt : 12 < r.build.xlen := by
  cases h : r.build <;> simp [Build.xlen]

theorem pageSize_toNat :
    (BitVec.ofNat r.build.xlen pageSize).toNat = 4096 := by
  have := r.xlen_large
  rw [BitVec.toNat_ofNat, pageSize, Nat.mod_eq_of_lt (by omega)]

theorem numPages_toNat :
    r.numPages.toNat = r.heapSize.toNat / 4096 - 8 := by
  have hx := r.xlen_large
  have hres := r.reserve
  have hlt := r.heapSize.isLt
  unfold pageSize at hres
  rw [numPages, BitVec.toNat_sub, BitVec.toNat_udiv, pageSize_toNat,
    BitVec.toNat_ofNat, Nat.mod_eq_of_lt (by omega : 8 < 2 ^ r.build.xlen),
    show 2 ^ r.build.xlen - 8 + r.heapSize.toNat / 4096 =
      r.heapSize.toNat / 4096 - 8 + 2 ^ r.build.xlen by omega,
    Nat.add_mod_right, Nat.mod_eq_of_lt (by omega)]

theorem allocStart_toNat :
    r.allocStart.toNat = (r.heapStart.toNat + 8 * 4096 + 4095) / 4096 * 4096 := by
  have hx := r.xlen_large
  have hres := r.reserve
  have hspace := r.inSpace
  have halign := r.endAligned
  unfold pageSize at hres halign
  have hsum : (r.heapStart + BitVec.ofNat _ 8 * BitVec.ofNat _ pageSize).toNat =
      r.heapStart.toNat + 8 * 4096 := by
    rw [BitVec.toNat_add, BitVec.toNat_mul, pageSize_toNat, BitVec.toNat_ofNat,
      Nat.mod_eq_of_lt (by omega : 8 < 2 ^ r.build.xlen),
      Nat.mod_eq_of_lt (by omega : 8 * 4096 < 2 ^ r.build.xlen),
      Nat.mod_eq_of_lt (by omega)]
  have hpow : 2 ^ r.build.xlen % 4096 = 0 := by
    cases h : r.build <;> simp [Build.xlen]
  rw [allocStart, alignPage_toNat _ r.xlen_gt (by rw [hsum]; omega), hsum]

theorem allocEnd_toNat :
    r.allocEnd.toNat = r.allocStart.toNat + r.numPages.toNat * pageSize ∧
      r.allocEnd.toNat = r.heapStart.toNat + r.heapSize.toNat := by
  have hx := r.xlen_large
  have hres := r.reserve
  have hspace := r.inSpace
  have halign := r.endAligned
  unfold pageSize at hres halign
  have hend : r.allocStart.toNat + r.numPages.toNat * 4096 =
      r.heapStart.toNat + r.heapSize.toNat := by
    rw [allocStart_toNat, numPages_toNat]
    omega
  have hsum : r.allocEnd.toNat = r.allocStart.toNat + r.numPages.toNat * 4096 := by
    rw [allocEnd, BitVec.toNat_add, BitVec.toNat_mul, pageSize_toNat,
      Nat.mod_eq_of_lt (by omega : r.numPages.toNat * 4096 < 2 ^ r.build.xlen),
      Nat.mod_eq_of_lt (by omega)]
  exact ⟨hsum, hsum.trans hend⟩

def heap : Heap where
  xlen := r.build.xlen
  heapStart := r.heapStart.toNat
  allocStart := r.allocStart.toNat
  allocEnd := r.allocEnd.toNat
  numPages := r.numPages.toNat
  reserve := by
    rw [allocStart_toNat, pageSize]
    omega
  allocEnd_eq := (allocEnd_toNat r).1
  inSpace := r.allocEnd.isLt

end Region

/-- `page_init`: the heap variables, and a page table with every entry clear. -/
def pageInit (r : Region) (m : Memory) : Heap × Memory :=
  (r.heap, m.modifyRange (fun _ => 0) r.heap.numPages r.heap.heapStart)

/-- A region whose page table fits into the eight pages reserved for it, as the
128 MiB of os.ld do. -/
structure Board extends Region where
  tableFits : toRegion.heap.numPages ≤ 8 * pageSize

def Region.board (r : Region) (ram : r.heapSize.toNat ≤ 128 * 2 ^ 20) : Board where
  toRegion := r
  tableFits := by
    change r.numPages.toNat ≤ _
    rw [r.numPages_toNat, pageSize]
    omega

def twoPages : Board :=
  Region.board
    { build := .rv64
      heapStart := 0x80000000#64
      heapSize := 0xA000#64
      reserve := by decide
      inSpace := by decide
      endAligned := by decide }
    (by decide)

namespace Heap

variable (h : Heap)

def desc (k : Nat) : Nat := h.heapStart + k

def base (k : Nat) : Nat := h.allocStart + k * pageSize

def TableFits : Prop := h.numPages ≤ 8 * pageSize

def pageOf (p : Nat) : Nat := (p - h.allocStart) / pageSize

theorem base_succ (k : Nat) : h.base (k + 1) = h.base k + pageSize := by
  unfold base
  rw [Nat.add_mul, Nat.one_mul, Nat.add_assoc]

theorem base_lt_base {j k : Nat} (hjk : j < k) : h.base j + pageSize ≤ h.base k := by
  unfold base pageSize
  omega

theorem pageOf_eq {p k : Nat} (hp : h.base k ≤ p) (hp' : p < h.base (k + 1)) :
    h.pageOf p = k := by
  unfold pageOf base pageSize at *
  omega

theorem base_pageOf_le {p : Nat} (hp : h.allocStart ≤ p) :
    h.base (h.pageOf p) ≤ p ∧ p < h.base (h.pageOf p + 1) := by
  unfold pageOf base pageSize
  omega

theorem pageOf_lt {p : Nat} (hp : h.allocStart ≤ p) (hp' : p < h.allocEnd) :
    h.pageOf p < h.numPages := by
  have := h.allocEnd_eq
  unfold pageOf pageSize at *
  omega

theorem allocStart_le_base (k : Nat) : h.allocStart ≤ h.base k := by
  unfold base
  omega

theorem base_le_allocEnd {k : Nat} (hk : k ≤ h.numPages) :
    h.base k ≤ h.allocEnd := by
  have := h.allocEnd_eq
  unfold base pageSize at *
  omega

theorem allocStart_pos : 0 < h.allocStart := by
  have := h.reserve
  unfold pageSize at this
  omega

theorem desc_lt_base (hfit : h.TableFits) {j k : Nat} (hj : j < h.numPages) :
    h.desc j < h.base k := by
  have := h.reserve
  unfold TableFits at hfit
  unfold desc base pageSize at *
  omega

end Heap

end XinOS.Page
