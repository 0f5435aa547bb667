import XinOS.Page.Malloc
import XinOS.Foundation.Transition

/-!
# The ledger of live allocations

A state of the heap is the memory and the list of the allocations that are live.
`HeapInv` says how the page table and the block tables follow from that list.
-/

namespace XinOS.Page

open XinOS.Foundation

structure Allocation where
  addr : Nat
  size : Nat
  deriving DecidableEq, Repr

structure HeapState where
  mem : Memory
  live : List Allocation

inductive HeapOp where
  | malloc (size : Nat)
  | free (p : Nat)
  deriving DecidableEq, Repr

/-- One call.  The argument of `malloc` is a `size_t`, that of `free` the address
of a live allocation; there is no next state if the call does not return. -/
def heapStep (h : Heap) (s : HeapState) : HeapOp → Option HeapState
  | .malloc size =>
      if 1 ≤ size ∧ size < 2 ^ h.xlen then
        match malloc h size s.mem with
        | (some p, m) => some ⟨m, ⟨p, size⟩ :: s.live⟩
        | (none, m) => some ⟨m, s.live⟩
      else none
  | .free p =>
      match s.live.find? (·.addr == p) with
      | none => none
      | some a =>
          match free h s.mem p with
          | .ok m => some ⟨m, s.live.erase a⟩
          | .error _ => none

def heapInit (r : Region) (m : Memory) : HeapState := ⟨(pageInit r m).2, []⟩

/-! ## What an allocation holds -/

/-- The request ends in blocks: it is small, or at most 3276 bytes of its last
page are needed. -/
def usesBlocks (size : Nat) : Bool :=
  decide (0 < size % pageSize ∧ size % pageSize ≤ allocableSize)

theorem usesBlocks_of_small {size : Nat} (hpos : 1 ≤ size)
    (hsize : size ≤ allocableSize) :
    usesBlocks size = true ∧ size % pageSize = size := by
  unfold allocableSize at hsize
  have hmod : size % pageSize = size :=
    Nat.mod_eq_of_lt (by unfold pageSize; omega)
  refine ⟨?_, hmod⟩
  rw [usesBlocks, hmod]
  exact decide_eq_true ⟨hpos, hsize⟩

def pagesOf (size : Nat) : Nat := (pageCount size).toInt.toNat

theorem pagesOf_le_pageSize {size : Nat} (hpos : 1 ≤ size)
    (hsize : size ≤ pageSize) : pageCount size = 1 := by
  rcases Nat.eq_or_lt_of_le hsize with rfl | hlt
  · decide
  · unfold pageCount
    rw [Nat.mod_eq_of_lt hlt, Nat.div_eq_of_lt hlt]
    simp only [show size ≠ 0 by omega, ne_eq, not_false_eq_true, if_true]
    decide

namespace Allocation

variable (h : Heap) (a : Allocation)

def pages : Span := ⟨h.pageOf a.addr, h.pageOf a.addr + pagesOf a.size⟩

def lastPage : Nat := h.pageOf a.addr + pagesOf a.size - 1

def blocks : Span :=
  let first := (a.addr - h.base (h.pageOf a.addr)) / mallocSize
  ⟨first, first + blockTotal (a.size % pageSize)⟩

/-- The addresses that are reserved for it. -/
def held : Span :=
  ⟨a.addr, if usesBlocks a.size then
    h.base (a.lastPage h) + (a.blocks h).hi * mallocSize
    else h.base (a.pages h).hi⟩

/-- The addresses that were asked for. -/
def range : Span := ⟨a.addr, a.addr + a.size⟩

structure Shaped : Prop where
  pos : 1 ≤ a.size
  onePage : 1 ≤ pagesOf a.size
  inHeap : h.allocStart ≤ a.addr
  inside : (a.pages h).hi ≤ h.numPages
  aligned : a.addr =
    h.base (h.pageOf a.addr) + (a.blocks h).lo * mallocSize
  whole : allocableSize < a.size → (a.blocks h).lo = 0
  fits : usesBlocks a.size = true → (a.blocks h).hi ≤ blockCount

end Allocation

section Geometry

variable {h : Heap} {a : Allocation}

theorem Allocation.blocks_proper (h : Heap) {a : Allocation}
    (hu : usesBlocks a.size = true) :
    (a.blocks h).lo < (a.blocks h).hi := by
  have hrest : 0 < a.size % pageSize := (of_decide_eq_true hu).1
  have := blockTotal_pos hrest
  simp only [Allocation.blocks]
  omega

theorem Allocation.Shaped.lastPage_succ (hs : a.Shaped h) :
    a.lastPage h + 1 = (a.pages h).hi := by
  have := hs.onePage
  simp only [Allocation.lastPage, Allocation.pages]
  omega

theorem Allocation.Shaped.first_le_last (hs : a.Shaped h) :
    h.pageOf a.addr ≤ a.lastPage h := by
  have := hs.onePage
  unfold Allocation.lastPage
  omega

theorem Allocation.Shaped.lastPage_mem (hs : a.Shaped h) :
    a.lastPage h ∈ a.pages h := by
  have := hs.lastPage_succ
  rw [Span.mem_iff]
  exact ⟨hs.first_le_last, by omega⟩

theorem Allocation.Shaped.small_lastPage (hs : a.Shaped h)
    (hsize : a.size ≤ allocableSize) : a.lastPage h = h.pageOf a.addr := by
  have hone := pagesOf_le_pageSize hs.pos
    (by unfold allocableSize at hsize; unfold pageSize; omega)
  unfold Allocation.lastPage pagesOf
  rw [hone]
  rfl

theorem Allocation.Shaped.small_pages (hs : a.Shaped h)
    (hsize : a.size ≤ allocableSize) :
    a.pages h = ⟨a.lastPage h, a.lastPage h + 1⟩ := by
  have hlast := hs.small_lastPage hsize
  rw [hs.lastPage_succ, hlast]
  rfl

theorem Allocation.Shaped.large_addr (hs : a.Shaped h)
    (hsize : allocableSize < a.size) : a.addr = h.base (h.pageOf a.addr) := by
  have := hs.aligned
  rw [hs.whole hsize] at this
  omega

theorem Allocation.Shaped.addr_le_blocks (hs : a.Shaped h) :
    a.addr ≤ h.base (a.lastPage h) + (a.blocks h).lo * mallocSize := by
  by_cases hsize : a.size ≤ allocableSize
  · rw [hs.small_lastPage hsize, ← hs.aligned]
  · rw [hs.large_addr (by omega), hs.whole (by omega)]
    have := hs.first_le_last
    unfold Heap.base pageSize
    omega

theorem Allocation.Shaped.held_hi (hs : a.Shaped h) :
    h.base (a.lastPage h) < (a.held h).hi ∧
      (a.held h).hi ≤ h.base (a.lastPage h + 1) ∧
      (usesBlocks a.size = false → (a.held h).hi = h.base (a.lastPage h + 1)) := by
  have hsucc := h.base_succ (a.lastPage h)
  unfold pageSize at hsucc
  unfold Allocation.held
  by_cases hu : usesBlocks a.size = true
  · have hlt := Allocation.blocks_proper h hu
    have hfits := hs.fits hu
    simp only [hu, if_true]
    unfold blockCount at hfits
    unfold mallocSize
    refine ⟨by omega, by omega, fun hn => by simp at hn⟩
  · simp only [hu, ← hs.lastPage_succ]
    refine ⟨by simp; omega, by simp, by simp⟩

theorem Allocation.Shaped.held_proper (hs : a.Shaped h) :
    (a.held h).lo < (a.held h).hi := by
  by_cases hu : usesBlocks a.size = true
  · have hlt := Allocation.blocks_proper h hu
    have hle := hs.addr_le_blocks
    simp only [Allocation.held, hu, if_true]
    unfold mallocSize at *
    omega
  · have hhi := hs.held_hi.1
    refine lt_of_le_of_lt ?_ hhi
    have hsize : allocableSize < a.size := by
      by_contra hn
      exact hu (usesBlocks_of_small hs.pos (by omega)).1
    have haddr := hs.large_addr hsize
    have hle := hs.first_le_last
    change a.addr ≤ _
    rw [haddr]
    unfold Heap.base pageSize
    omega

end Geometry

/-! ## The invariant -/

def blockPage (h : Heap) (live : List Allocation) (k : Nat) : Bool :=
  live.any fun a => usesBlocks a.size && a.lastPage h == k

theorem blockPage_iff {h : Heap} {live : List Allocation} {k : Nat} :
    blockPage h live k = true ↔
      ∃ a ∈ live, usesBlocks a.size = true ∧ a.lastPage h = k := by
  simp [blockPage, List.any_eq_true]

def blockRuns (h : Heap) (live : List Allocation) (k : Nat) : Set Span :=
  {J | ∃ a ∈ live, usesBlocks a.size = true ∧ a.lastPage h = k ∧ a.blocks h = J}

/-- The page table holds the runs in `S`, which are those of the allocations:
every allocation ends where its run ends, and is the run unless it is small. -/
structure PageLedger (h : Heap) (m : Memory) (live : List Allocation)
    (S : Set Span) : Prop where
  separated : Separated h.numPages S
  table : h.TableEncodes m (blockPage h live) S
  covered : ∀ a ∈ live, ∃ I ∈ S, I.hi = (a.pages h).hi ∧
    (allocableSize < a.size → I = a.pages h)
  owned : ∀ I ∈ S, ∃ a ∈ live, a.pages h = I

/-- How the memory follows from the ledger. -/
structure HeapInv (h : Heap) (s : HeapState) : Prop where
  shaped : ∀ a ∈ s.live, a.Shaped h
  apart : s.live.Pairwise fun a b => (a.held h).Apart (b.held h)
  pages : ∃ S, PageLedger h s.mem s.live S
  blocks : ∀ k, blockPage h s.live k = true →
    BlockTable s.mem (h.blockStart k) (blockRuns h s.live k)

section Inv

variable {h : Heap} {s : HeapState}

theorem heapInv_init (r : Region) (m : Memory) :
    HeapInv r.heap (heapInit r m) where
  shaped := by simp [heapInit]
  apart := by simp [heapInit]
  pages := by
    refine ⟨∅, .empty, Encodes.of_blank fun k hk => ?_, by simp [heapInit],
      by simp⟩
    simp only [heapInit, pageInit]
    rw [Memory.modifyRange_apply, if_pos (by unfold Heap.desc; omega)]
  blocks := by simp [heapInit, blockPage]

theorem HeapInv.held_apart (hi : HeapInv h s) {a b : Allocation}
    (ha : a ∈ s.live) (hb : b ∈ s.live) (hne : a ≠ b) :
    (a.held h).Apart (b.held h) := by
  have hsymm : Std.Symm fun a b : Allocation => (a.held h).Apart (b.held h) :=
    ⟨fun _ _ hab => hab.symm⟩
  exact hi.apart.forall ha hb hne

theorem HeapInv.nodup (hi : HeapInv h s) : s.live.Nodup := by
  refine hi.apart.imp_of_mem fun ha _ hab heq => ?_
  have hlt := (hi.shaped _ ha).held_proper
  rw [← heq] at hab
  unfold Span.Apart at hab
  omega

theorem HeapInv.eq_of_held (hi : HeapInv h s) {a b : Allocation}
    (ha : a ∈ s.live) (hb : b ∈ s.live) {x : Nat} (hxa : x ∈ a.held h)
    (hxb : x ∈ b.held h) : a = b := by
  by_contra hne
  exact (hi.held_apart ha hb hne).not_mem hxa hxb

theorem Allocation.Shaped.firstBlock_held {a : Allocation} (hs : a.Shaped h)
    (hu : usesBlocks a.size = true) :
    h.base (a.lastPage h) + (a.blocks h).lo * mallocSize ∈ a.held h := by
  have hlt := Allocation.blocks_proper h hu
  refine Span.mem_iff.mpr ⟨hs.addr_le_blocks, ?_⟩
  simp only [Allocation.held, hu, if_true]
  unfold mallocSize
  omega

/--
If malloc controls page `k`, an allocation that lies in page `k` uses blocks of
it: holding all of the page would clash with the allocation whose blocks they
are.
-/
theorem HeapInv.usesBlocks_of_pages (hi : HeapInv h s) {a : Allocation}
    (ha : a ∈ s.live) {k : Nat} (hk : k ∈ a.pages h)
    (hmal : blockPage h s.live k = true) :
    usesBlocks a.size = true ∧ a.lastPage h = k := by
  obtain ⟨c, hc, hcu, hck⟩ := blockPage_iff.mp hmal
  by_contra hn
  have hsa := hi.shaped a ha
  have hsc := hi.shaped c hc
  have hca : c ≠ a := fun heq => hn (heq ▸ ⟨hcu, hck⟩)
  have hlast := hsa.lastPage_succ
  have hks := Span.mem_iff.mp hk
  simp only [Allocation.pages] at hks hlast
  have hlarge : allocableSize < a.size := by
    by_contra hsmall
    have hsmall' : a.size ≤ allocableSize := by omega
    have := hsa.small_lastPage hsmall'
    exact hn ⟨(usesBlocks_of_small hsa.pos hsmall').1, by omega⟩
  -- so `a` holds page `k` as a whole
  have hhi : h.base (k + 1) ≤ (a.held h).hi := by
    by_cases hkl : k = a.lastPage h
    · rw [hsa.held_hi.2.2 (by
        by_contra hu
        exact hn ⟨by simpa using hu, hkl.symm⟩), hkl]
    · have := hsa.held_hi.1
      have := h.base_lt_base (by omega : k < a.lastPage h)
      rw [h.base_succ]
      omega
  have hlo : a.addr ≤ h.base k := by
    rw [hsa.large_addr hlarge]
    unfold Heap.base pageSize
    omega
  have hfirst := hsc.firstBlock_held hcu
  have hfits := hsc.fits hcu
  have hproper := Allocation.blocks_proper h hcu
  rw [hck] at hfirst
  refine hca (hi.eq_of_held hc ha hfirst (Span.mem_iff.mpr ⟨?_, ?_⟩))
  · exact hlo.trans (Nat.le_add_right _ _)
  · refine lt_of_lt_of_le ?_ hhi
    rw [h.base_succ]
    unfold blockCount at hfits
    unfold mallocSize pageSize
    omega

theorem HeapInv.held_taken (hi : HeapInv h s) {a : Allocation}
    (ha : a ∈ s.live) {x k : Nat} (hx : x ∈ a.held h) (hk : h.pageOf x = k) :
    k ∈ a.pages h ∧ isPageFree s.mem (h.desc k) = false ∧
      (blockPage h s.live k = true →
        (x - h.base k) / mallocSize < blockCount ∧
        isBlockFree s.mem (h.blockStart k + (x - h.base k) / mallocSize) =
          false) := by
  have hs := hi.shaped a ha
  obtain ⟨hxlo, hxhi⟩ := Span.mem_iff.mp hx
  have hxlo' : a.addr ≤ x := hxlo
  have hin := h.base_pageOf_le (hs.inHeap.trans hxlo')
  rw [hk] at hin
  have hlast := hs.lastPage_succ
  have hkp : k ∈ a.pages h := by
    rw [Span.mem_iff, ← hlast]
    constructor
    · rw [← hk]
      exact Nat.div_le_div_right (by omega)
    · by_contra hge
      have := hs.held_hi.2.1
      have := h.base_lt_base (by omega : a.lastPage h < k)
      rw [h.base_succ] at *
      omega
  obtain ⟨S, hS⟩ := hi.pages
  obtain ⟨I, hI, hIhi, hIlarge⟩ := hS.covered a ha
  have hkI : k ∈ I := by
    by_cases hsize : a.size ≤ allocableSize
    · have hone := hs.small_lastPage hsize
      have hproper := hS.separated.proper I hI
      rw [Span.mem_iff] at *
      simp only [Allocation.pages] at *
      omega
    · rw [hIlarge (by omega)]
      exact hkp
  refine ⟨hkp, (hS.table.flags_of_mem hI hkI).1, fun hmal => ?_⟩
  obtain ⟨hu, hka⟩ := hi.usesBlocks_of_pages ha hkp hmal
  have hfits := hs.fits hu
  have hj : (x - h.base k) / mallocSize ∈ a.blocks h := by
    simp only [Allocation.held, hu, if_true, hka] at hxhi
    rw [Span.mem_iff]
    unfold mallocSize at *
    refine ⟨?_, by omega⟩
    by_cases hsize : a.size ≤ allocableSize
    · have haddr := hs.aligned
      rw [← hs.small_lastPage hsize, hka] at haddr
      unfold mallocSize at haddr
      omega
    · rw [hs.whole (by omega)]
      omega
  refine ⟨(Span.mem_iff.mp hj).2.trans_le hfits, ?_⟩
  exact ((hi.blocks k hmal).flags_of_mem ⟨a, ha, hu, hka, rfl⟩ hj).1

end Inv

end XinOS.Page
