import XinOS.Page.Layout
import XinOS.Foundation.Intervals

/-!
# The page table: `page_alloc` and `page_free`

Every page has one byte of flags at `HEAP_START`.  The definitions below follow
page.c; addresses of page descriptors are `Heap.desc`.  The second half relates
the flag bytes to the set of page runs they encode.
-/

namespace XinOS.Page

open XinOS.Foundation

def pageTaken : Byte := 1#8 <<< 0

def pageLast : Byte := 1#8 <<< 1

def pageFirst : Byte := 1#8 <<< 2

def pageMalloc : Byte := 1#8 <<< 3

def clearPage (m : Memory) (page : Nat) : Memory := m.modify page fun _ => 0

def isPageFree (m : Memory) (page : Nat) : Bool := m page &&& pageTaken == 0

def setPageFlags (m : Memory) (page : Nat) (flags : Byte) : Memory :=
  m.modify page (· ||| flags)

def isPageLast (m : Memory) (page : Nat) : Bool := m page &&& pageLast != 0

def isMalloced (m : Memory) (page : Nat) : Bool := m page &&& pageMalloc != 0

def isPageFirst (m : Memory) (page : Nat) : Bool := m page &&& pageFirst != 0

/-- `_get_start_mem_by_page`; the pointer difference is signed. -/
def getStartMemByPage (h : Heap) (page : Int) : Int :=
  h.allocStart + (page - h.heapStart) * pageSize

/-- `_get_start_mem_by_addr`, for an address not below `_alloc_start`. -/
def getStartMemByAddr (h : Heap) (p : Nat) : Nat :=
  h.allocStart + (p - h.allocStart) / pageSize * pageSize

def getPageByAddr (h : Heap) (p : Nat) : Nat :=
  h.heapStart + (getStartMemByAddr h p - h.allocStart) / pageSize

/-! ## `page_alloc` -/

/-- The inner loop of `page_alloc`: `npages` descriptors from `page` on are all
free. -/
def pageRunFree (m : Memory) (page npages : Nat) : Bool :=
  isPageFree m page &&
    (List.range (npages - 1)).all fun j => isPageFree m (page + 1 + j)

def markRun (m : Memory) (page npages : Nat) : Memory :=
  let m := setPageFlags m page pageFirst
  let m := m.modifyRange (· ||| pageTaken) npages page
  setPageFlags m (page + npages - 1) pageLast

/-- The address `count` pages after `a`; `count * PAGE_SIZE` is an `int`
product. -/
def Heap.skipPages (h : Heap) (a : Nat) (count : CInt) : Nat :=
  ((a + (count * BitVec.ofNat 32 pageSize).toInt) % 2 ^ h.xlen).toNat

/-- `page_alloc`; `end_page` is an `int`. -/
def pageAlloc (h : Heap) (npages : CInt) (m : Memory) : Option Nat × Memory :=
  if npages.toInt < 1 then (none, m)
  else
    let n := npages.toInt.toNat
    let endPage : CInt := BitVec.ofNat 32 h.numPages - npages
    match (List.range (endPage.toInt + 1).toNat).find?
        fun i => pageRunFree m (h.desc i) n with
    | some i => (some (h.skipPages h.allocStart (BitVec.ofNat 32 i)),
        markRun m (h.desc i) n)
    | none => (none, m)

/-! ## `page_free` -/

/-- The loop of `page_free`; also returns where the descriptor pointer stops. -/
def pageFreeLoop : Nat → Memory → Nat → Option (Memory × Nat)
  | 0, _, _ => none
  | fuel + 1, m, page =>
      if isPageFree m page then some (m, page)
      else if isPageLast m page then some (clearPage m page, page)
      else pageFreeLoop fuel (clearPage m page) (page + 1)

/-- The first half of `page_free`: end the run before `page` if it is cut. -/
def closePrevPage (h : Heap) (m : Memory) (page : Nat) : Memory :=
  if isPageFirst m page then m
  else if getStartMemByPage h ((page : Int) - 1) ≥ h.allocStart ∧
      isPageFree m (page - 1) = false then
    setPageFlags m (page - 1) pageLast
  else m

/-- `page_free`, with the final value of its descriptor pointer; there is none
if the address is refused. -/
def pageFreeTrace (h : Heap) (m : Memory) (p : Nat) :
    Option (Memory × Option Nat) :=
  if p = 0 ∨ p ≥ h.allocEnd ∨ p < h.allocStart then some (m, none)
  else
    let page := h.heapStart + (p - h.allocStart) / pageSize
    (pageFreeLoop walkFuel (closePrevPage h m page) page).map
      fun r => (r.1, some r.2)

def pageFree (h : Heap) (m : Memory) (p : Nat) : Option Memory :=
  (pageFreeTrace h m p).map Prod.fst

/-! ## Reading and writing the flags -/

theorem isPageFree_modify_of_ne {m : Memory} {f : Byte → Byte} {a b : Nat}
    (hne : b ≠ a) : isPageFree (m.modify a f) b = isPageFree m b := by
  simp [isPageFree, Memory.modify_of_ne hne]

theorem isPageLast_modify_of_ne {m : Memory} {f : Byte → Byte} {a b : Nat}
    (hne : b ≠ a) : isPageLast (m.modify a f) b = isPageLast m b := by
  simp [isPageLast, Memory.modify_of_ne hne]

theorem pageRunFree_iff {m : Memory} {page n : Nat} (hn : 1 ≤ n) :
    pageRunFree m page n = true ↔ ∀ j < n, isPageFree m (page + j) = true := by
  simp only [pageRunFree, Bool.and_eq_true, List.all_eq_true, List.mem_range]
  constructor
  · rintro ⟨hfirst, hrest⟩ j hj
    cases j with
    | zero => exact hfirst
    | succ j =>
        have := hrest j (by omega)
        rwa [show page + 1 + j = page + (j + 1) by omega] at this
  · intro hall
    refine ⟨hall 0 (by omega), fun j hj => ?_⟩
    rw [show page + 1 + j = page + (j + 1) by omega]
    exact hall (j + 1) (by omega)

def flagByte (first last malloced : Bool) : Byte :=
  pageTaken ||| (bif first then pageFirst else 0) |||
    (bif last then pageLast else 0) ||| (bif malloced then pageMalloc else 0)

theorem flagByte_flags : ∀ first last malloced : Bool,
    (flagByte first last malloced &&& pageTaken == 0) = false ∧
    (flagByte first last malloced &&& pageFirst != 0) = first ∧
    (flagByte first last malloced &&& pageLast != 0) = last ∧
    (flagByte first last malloced &&& pageMalloc != 0) = malloced := by
  decide

theorem markRun_apply (m : Memory) (page n : Nat) (hn : 1 ≤ n) (b : Nat) :
    markRun m page n b =
      if page ≤ b ∧ b < page + n then
        m b ||| flagByte (decide (b = page)) (decide (b + 1 = page + n)) false
      else m b := by
  simp only [markRun, setPageFlags, Memory.modify_apply,
    Memory.modifyRange_apply]
  by_cases hin : page ≤ b ∧ b < page + n
  · have hlast : (b = page + n - 1) ↔ (b + 1 = page + n) := by omega
    simp only [if_pos hin, hlast, ← Bool.cond_decide]
    generalize m b = x, decide (b = page) = first,
      decide (b + 1 = page + n) = last
    revert x first last
    decide
  · rw [if_neg (by omega), if_neg hin, if_neg (by omega), if_neg hin]

end XinOS.Page
