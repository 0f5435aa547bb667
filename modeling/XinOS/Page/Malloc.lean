import XinOS.Page.Runs
import XinOS.Page.BlockRuns

/-!
# `malloc` and `free`

Requests of at most 3276 bytes get blocks of a page that malloc controls, up to
a page they get one page, and beyond that a run of pages; if at most 3276 bytes
of the last page of such a run are needed, its blocks serve further requests.
The second half says which page and block a request gets.
-/

namespace XinOS.Page

open XinOS.Foundation

inductive Halt where
  | panic (message : String)
  | noReturn
  deriving DecidableEq, Repr

/-! ## `malloc` -/

def startMem (h : Heap) (page : Nat) : Nat :=
  (getStartMemByPage h page % 2 ^ h.xlen).toNat

def freshFlags : Byte := pageTaken ||| pageLast ||| pageFirst ||| pageMalloc

/-- The loop of `malloc` for small requests: `n` descriptors remain, the next is
that of page `k`. -/
def mallocBlocks (h : Heap) (size : Nat) :
    Nat → Nat → Memory → Option Nat × Memory
  | 0, _, m => (none, m)
  | n + 1, k, m =>
      let page := h.desc k
      if isMalloced m page then
        match tryMalloc h m (startMem h page) size with
        | (some p, m) => (some p, m)
        | (none, m) => mallocBlocks h size n (k + 1) m
      else if isPageFree m page then
        let m := setPageFlags m page freshFlags
        let m := mallocInit m (startMem h page)
        match tryMalloc h m (startMem h page) size with
        | (some p, m) => (some p, m)
        | (none, m) => mallocBlocks h size n (k + 1) m
      else mallocBlocks h size n (k + 1) m

def mallocPage (h : Heap) : Nat → Nat → Memory → Option Nat × Memory
  | 0, _, m => (none, m)
  | n + 1, k, m =>
      if isPageFree m (h.desc k) then
        match pageAlloc h 1 m with
        | (some p, m) => (some p, m)
        | (none, m) => mallocPage h n (k + 1) m
      else mallocPage h n (k + 1) m

/-- `page_count`, an `int`, for a request of more than a page. -/
def pageCount (size : Nat) : CInt :=
  let count : CInt := BitVec.ofNat 32 (size / pageSize)
  if size % pageSize ≠ 0 then count + 1 else count

def mallocPages (h : Heap) (size : Nat) (m : Memory) : Option Nat × Memory :=
  let rest := size % pageSize
  match pageAlloc h (pageCount size) m with
  | (none, m) => (none, m)
  | (some mem, m) =>
      if 0 < rest ∧ rest ≤ allocableSize then
        let p := h.skipPages mem (pageCount size - 1)
        let m := mallocInit m p
        let m := setPageFlags m (getPageByAddr h p) pageMalloc
        (some mem, (tryMalloc h m p rest).2)
      else (some mem, m)

def malloc (h : Heap) (size : Nat) (m : Memory) : Option Nat × Memory :=
  if size = 0 then (none, m)
  else if size ≤ allocableSize then mallocBlocks h size h.numPages 0 m
  else if size ≤ pageSize then mallocPage h h.numPages 0 m
  else mallocPages h size m

/-! ## `free` -/

def closePrevBlock (m : Memory) (start block : Nat) : Memory :=
  if isBlockFirst m block then m
  else if block - 1 ≥ start ∧ isBlockFree m (block - 1) = false then
    setBlockFlags m (block - 1) blockLast
  else m

def freeBlocks (h : Heap) (m : Memory) (page p : Nat) : Except Halt Memory :=
  let block := getBlockByAddr h p
  let start := getStartBlockByAddr (getStartMemByAddr h p)
  match blockFreeLoop walkFuel (closePrevBlock m start block) start block with
  | none => .error .noReturn
  | some m =>
      if getMemoryUsage m start = 0 then
        let m := m.modify page (· ^^^ pageMalloc)
        match pageFree h m (startMem h page) with
        | none => .error .noReturn
        | some m => .ok m
      else .ok m

def findPageLast : Nat → Memory → Nat → Option Nat
  | 0, _, _ => none
  | fuel + 1, m, page =>
      if isPageLast m page then some page else findPageLast fuel m (page + 1)

/-- `free`.  Where the last page of a run is controlled by malloc, the blocks are
looked up at `_get_start_mem_by_addr(p)`, which is in the first page of the
run, not the last. -/
def free (h : Heap) (m : Memory) (p : Nat) : Except Halt Memory :=
  if p = 0 ∨ p < h.allocStart ∨ p > h.allocEnd then
    .error (.panic "Memory panic: Can't free this memory")
  else
    let page := getPageByAddr h p
    if isMalloced m page then freeBlocks h m page p
    else
      match findPageLast walkFuel m page with
      | none => .error .noReturn
      | some page =>
          if isMalloced m page then
            match pageFree h (setPageFlags m (page - 1) pageLast) p with
            | none => .error .noReturn
            | some m =>
                let p := getStartMemByAddr h p
                if isMalloced m page then freeBlocks h m page p else .ok m
          else
            match pageFree h m p with
            | none => .error .noReturn
            | some m => .ok m

/-! ## Which page and block a small request gets -/

theorem startMem_desc {h : Heap} {k : Nat} (hk : k < h.numPages) :
    startMem h (h.desc k) = h.base k := by
  have hend := h.base_le_allocEnd hk.le
  have hspace := h.inSpace
  have hmem : getStartMemByPage h (h.desc k) = (h.base k : Int) := by
    unfold getStartMemByPage Heap.desc Heap.base
    push_cast
    rw [show (h.heapStart + k - h.heapStart : Int) = k by omega]
  rw [startMem, hmem,
    show (2 : Int) ^ h.xlen = ((2 ^ h.xlen : Nat) : Int) by push_cast; rfl,
    ← Int.natCast_mod, Int.toNat_natCast, Nat.mod_eq_of_lt (by omega)]

theorem blockTotal_pos {size : Nat} (hpos : 1 ≤ size) : 1 ≤ blockTotal size := by
  unfold blockTotal mallocSize
  split_ifs <;> omega

theorem blockTotal_le {size : Nat} (hsize : size ≤ allocableSize) :
    blockTotal size ≤ blockCount := by
  unfold allocableSize at hsize
  unfold blockTotal blockCount mallocSize
  split_ifs <;> omega

def Heap.freshPage (h : Heap) (m : Memory) (k : Nat) : Memory :=
  mallocInit (setPageFlags m (h.desc k) freshFlags) (h.base k)

/-- Page `k` has no blocks for the request: malloc controls it and `_try_malloc`
accepts no run, or it is taken otherwise. -/
def Heap.NoRoom (h : Heap) (m : Memory) (size k : Nat) : Prop :=
  (isMalloced m (h.desc k) = true →
    ∀ i, ¬Accepts m (h.blockStart k) (blockTotal size) i) ∧
  (isMalloced m (h.desc k) = false → isPageFree m (h.desc k) = false)

def Heap.ServedAt (h : Heap) (m : Memory) (size k : Nat)
    (r : Option Nat × Memory) : Prop :=
  (isMalloced m (h.desc k) = true ∧
    ∃ i, FirstFit m (h.blockStart k) (blockTotal size) i ∧
      r = (some (h.base k + i * mallocSize), takeBlocks m (h.blockStart k)
        (h.blockStart k + i) (blockTotal size))) ∨
  (isMalloced m (h.desc k) = false ∧ isPageFree m (h.desc k) = true ∧
    r = (some (h.base k), takeBlocks (h.freshPage m k) (h.blockStart k)
      (h.blockStart k) (blockTotal size)))

theorem tryMalloc_empty (h : Heap) {m : Memory} {k size : Nat}
    (htable : BlockTable m (h.blockStart k) ∅) (hpos : 1 ≤ size)
    (hsize : size ≤ allocableSize) :
    tryMalloc h m (h.base k) size = (some (h.base k),
      takeBlocks m (h.blockStart k) (h.blockStart k) (blockTotal size)) := by
  have hall : ∀ j < blockCount, isBlockFree m (h.blockStart k + j) = true :=
    fun j hj => (htable.isBlockFree_iff hj).mpr (by simp)
  have htotal := blockTotal_pos hpos
  have hle := blockTotal_le hsize
  have hzero : Accepts m (h.blockStart k) (blockTotal size) 0 :=
    accepts_of_free htotal (by omega) fun j _ hj => hall j (by omega)
  rcases tryMalloc_cases h m k size htotal with ⟨i, hfit, heq⟩ | ⟨-, hnone⟩
  · have hi : i = 0 := by
      by_contra hne
      exact hfit.2 0 (by omega) hzero
    subst hi
    simpa using heq
  · exact absurd hzero (hnone 0)

theorem mallocBlocks_cases (h : Heap) (m : Memory) {size : Nat}
    (hpos : 1 ≤ size) (hsize : size ≤ allocableSize) (n k : Nat)
    (hn : k + n ≤ h.numPages) :
    (∃ k', k ≤ k' ∧ k' < k + n ∧ (∀ j, k ≤ j → j < k' → h.NoRoom m size j) ∧
      h.ServedAt m size k' (mallocBlocks h size n k m)) ∨
    (mallocBlocks h size n k m = (none, m) ∧
      ∀ j, k ≤ j → j < k + n → h.NoRoom m size j) := by
  induction n generalizing k with
  | zero =>
      right
      exact ⟨rfl, fun j hkj hj => absurd hj (by omega)⟩
  | succ n ih =>
      have hk : k < h.numPages := by omega
      have hnone : ∀ j, k ≤ j → j < k → h.NoRoom m size j :=
        fun j hkj hj => absurd hj (by omega)
      -- the search goes on behind a page without room
      have hskip : h.NoRoom m size k →
          mallocBlocks h size (n + 1) k m = mallocBlocks h size n (k + 1) m →
          (∃ k', k ≤ k' ∧ k' < k + (n + 1) ∧
            (∀ j, k ≤ j → j < k' → h.NoRoom m size j) ∧
            h.ServedAt m size k' (mallocBlocks h size (n + 1) k m)) ∨
          (mallocBlocks h size (n + 1) k m = (none, m) ∧
            ∀ j, k ≤ j → j < k + (n + 1) → h.NoRoom m size j) := by
        intro hno hnext
        have hbefore : ∀ k', (∀ j, k + 1 ≤ j → j < k' → h.NoRoom m size j) →
            ∀ j, k ≤ j → j < k' → h.NoRoom m size j := by
          intro k' hrest j hkj hj
          rcases Nat.eq_or_lt_of_le hkj with rfl | hlt
          · exact hno
          · exact hrest j hlt hj
        rw [hnext]
        rcases ih (k + 1) (by omega) with ⟨k', hkk, hkn, hrest, hserved⟩ | ⟨hfail, hrest⟩
        · exact .inl ⟨k', by omega, by omega, hbefore k' hrest, hserved⟩
        · exact .inr ⟨hfail, fun j hkj hj =>
            hbefore _ hrest j hkj (by omega)⟩
      by_cases hmal : isMalloced m (h.desc k) = true
      · rcases tryMalloc_cases h m k size (blockTotal_pos hpos) with
          ⟨i, hfit, heq⟩ | ⟨heq, hfail⟩
        · left
          refine ⟨k, le_refl _, by omega, hnone, .inl ⟨hmal, i, hfit, ?_⟩⟩
          simp only [mallocBlocks, hmal, startMem_desc hk, heq, if_true]
        · refine hskip ⟨fun _ => hfail, fun hno => by simp [hmal] at hno⟩ ?_
          simp only [mallocBlocks, hmal, startMem_desc hk, heq, if_true]
      · by_cases hfree : isPageFree m (h.desc k) = true
        · left
          refine ⟨k, le_refl _, by omega, hnone,
            .inr ⟨by simpa using hmal, hfree, ?_⟩⟩
          have htry := tryMalloc_empty h
            (blockTable_mallocInit (setPageFlags m (h.desc k) freshFlags)
              (h.base k)) hpos hsize
          simp only [mallocBlocks, if_neg hmal, hfree, startMem_desc hk, htry,
            if_true, Heap.freshPage]
        · refine hskip ⟨fun h => absurd h hmal, fun _ => by simpa using hfree⟩ ?_
          simp only [mallocBlocks, if_neg hmal, if_neg hfree]

theorem mallocPage_eq (h : Heap) (hN : h.numPages < 2 ^ 31) (m : Memory) :
    mallocPage h h.numPages 0 m = pageAlloc h 1 m := by
  have hone : (1 : CInt).toInt.toNat = 1 := by decide
  have hloop : ∀ n k, k + n = h.numPages →
      (∀ j < k, isPageFree m (h.desc j) = false) →
      mallocPage h n k m = pageAlloc h 1 m := by
    intro n
    induction n with
    | zero =>
        intro k hk htaken
        rcases pageAlloc_cases h hN 1 m with ⟨i, -, hi, hfree, -, -⟩ | ⟨heq, -⟩
        · rw [hone] at hi hfree
          have := hfree 0 (by omega)
          rw [Nat.add_zero, htaken i (by omega)] at this
          contradiction
        · exact heq.symm
    | succ n ih =>
        intro k hk htaken
        by_cases hfree : isPageFree m (h.desc k) = true
        · rcases pageAlloc_cases h hN 1 m with ⟨i, -, -, -, -, heq⟩ | ⟨-, hnone⟩
          · simp only [mallocPage, hfree, if_true, heq]
          · refine absurd ?_ (hnone (by decide) k (by rw [hone]; omega))
            intro j hj
            rw [hone] at hj
            rwa [show k + j = k by omega]
        · rw [mallocPage, if_neg hfree]
          refine ih (k + 1) (by omega) fun j hj => ?_
          rcases Nat.lt_succ_iff_lt_or_eq.mp hj with hlt | rfl
          · exact htaken j hlt
          · simpa using hfree
  exact hloop h.numPages 0 (by omega) fun j hj => absurd hj (by omega)

theorem findPageLast_run (m : Memory) (page n : Nat) {fuel : Nat}
    (hfuel : n < fuel) (hinner : ∀ j < n, isPageLast m (page + j) = false)
    (hlast : isPageLast m (page + n) = true) :
    findPageLast fuel m page = some (page + n) := by
  induction n generalizing page fuel with
  | zero =>
      obtain ⟨fuel, rfl⟩ : ∃ f, fuel = f + 1 := ⟨fuel - 1, by omega⟩
      rw [Nat.add_zero] at hlast
      rw [findPageLast, if_pos hlast, Nat.add_zero]
  | succ n ih =>
      obtain ⟨fuel, rfl⟩ : ∃ f, fuel = f + 1 := ⟨fuel - 1, by omega⟩
      have h0 := hinner 0 (by omega)
      rw [Nat.add_zero] at h0
      have hnext : ∀ j, page + 1 + j = page + (j + 1) := fun j => by omega
      rw [findPageLast, if_neg (by simp [h0]), ih (page + 1) (by omega)
        (fun j hj => hnext j ▸ hinner (j + 1) (by omega)) (hnext n ▸ hlast),
        hnext]

theorem Heap.findPageLast_desc {h : Heap} {m : Memory} {k e : Nat} (hke : k ≤ e)
    (he : e < walkFuel)
    (hinner : ∀ j, k ≤ j → j < e → isPageLast m (h.desc j) = false)
    (hlast : isPageLast m (h.desc e) = true) :
    findPageLast walkFuel m (h.desc k) = some (h.desc e) := by
  have hdesc : ∀ j, h.desc k + j = h.desc (k + j) := fun j => by
    unfold Heap.desc
    omega
  have hend : h.desc k + (e - k) = h.desc e := by
    unfold Heap.desc
    omega
  rw [← hend]
  refine findPageLast_run m (h.desc k) (e - k) (by omega) (fun j hj => ?_) ?_
  · rw [hdesc]
    exact hinner (k + j) (by omega) (by omega)
  · rw [hend]
    exact hlast

end XinOS.Page
