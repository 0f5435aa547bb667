import XinOS.Page.TableSound

/-!
# Runs of arbitrary programs

A program may call the allocator in any order and with any arguments, and may
write anything anywhere into the heap.  The ledger follows the calls: freeing an
address inside an allocation leaves the part of it before that address.
-/

namespace XinOS.Page

open XinOS.Foundation

/-- Where what `free` gives back of the allocation begins, if `p` lies in it: with
the block of `p` in the page whose blocks it uses, else with the page of `p`. -/
def Allocation.unitStart (h : Heap) (p : Nat) (a : Allocation) : Nat :=
  if usesBlocks a.size = true ∧ h.pageOf p = a.lastPage h then
    h.base (a.lastPage h) + (p - h.base (a.lastPage h)) / mallocSize * mallocSize
  else h.base (h.pageOf p)

theorem Allocation.unitStart_le {h : Heap} {a : Allocation} {p : Nat}
    (hp : h.allocStart ≤ p) :
    a.unitStart h p ≤ p := by
  have hin := (h.base_pageOf_le hp).1
  unfold Allocation.unitStart
  split_ifs with hblock
  · rw [hblock.2] at hin
    unfold mallocSize
    omega
  · exact hin

def Allocation.cutAt (h : Heap) (p : Nat) (a : Allocation) : Option Allocation :=
  if p ∈ a.held h then
    if a.unitStart h p ≤ a.addr then none
    else some ⟨a.addr, a.unitStart h p - a.addr⟩
  else some a

inductive ProgramOp where
  | malloc (size : Nat)
  | free (p : Nat)
  | pageAlloc (npages : CInt)
  | pageFree (p : Nat)
  | store (x : Nat) (v : Byte)
  deriving DecidableEq, Repr

/-- One step of a program.  The argument of `malloc` is a `size_t`; there is no
next state if the call panics or does not return. -/
def programStep (h : Heap) (s : HeapState) : ProgramOp → Option HeapState
  | .malloc size =>
      if size < 2 ^ h.xlen then
        match malloc h size s.mem with
        | (some p, m) => some ⟨m, ⟨p, size⟩ :: s.live⟩
        | (none, m) => some ⟨m, s.live⟩
      else none
  | .free p =>
      match free h s.mem p with
      | .ok m => some ⟨m, s.live.filterMap (·.cutAt h p)⟩
      | .error _ => none
  | .pageAlloc npages =>
      match pageAlloc h npages s.mem with
      | (some p, m) => some ⟨m, ⟨p, npages.toInt.toNat * pageSize⟩ :: s.live⟩
      | (none, m) => some ⟨m, s.live⟩
  | .pageFree p =>
      match pageFree h s.mem p with
      | some m => some ⟨m, s.live.filterMap (·.cutAt h p)⟩
      | none => none
  | .store x v =>
      if h.allocStart ≤ x then some { s with mem := s.mem.modify x fun _ => v }
      else none

/-! ## What a step does -/

section Outcomes

variable {h : Heap} {m : Memory} {s s' : HeapState} {size : Nat}

theorem unit_size {n j : Nat} (hn : n < 2 ^ 16) (hj : j ≤ blockCount) :
    usesBlocks (n * pageSize + j * mallocSize) = decide (1 ≤ j) ∧
    pagesOf (n * pageSize + j * mallocSize) = n + (if 1 ≤ j then 1 else 0) ∧
    blockTotal ((n * pageSize + j * mallocSize) % pageSize) = j := by
  unfold blockCount at hj
  have hmod : (n * pageSize + j * mallocSize) % pageSize = j * mallocSize := by
    unfold pageSize mallocSize
    omega
  have hcount : CountsPages (n * pageSize + j * mallocSize) := by
    unfold CountsPages pageSize mallocSize
    omega
  refine ⟨?_, ?_, ?_⟩
  · rw [usesBlocks, hmod]
    unfold mallocSize allocableSize
    exact decide_eq_decide.mpr (by omega)
  · rw [pagesOf_eq hcount]
    unfold pageSize mallocSize
    split_ifs <;> omega
  · rw [hmod, blockTotal]
    unfold mallocSize
    rw [if_neg (by omega)]
    omega

theorem pageAlloc_granted (hfit : h.TableFits) (npages : CInt) (m : Memory) :
    (∃ p m', pageAlloc h npages m = (some p, m') ∧
      pageSize ≤ npages.toInt.toNat * pageSize ∧
      Granted h m ⟨p, npages.toInt.toNat * pageSize⟩ m') ∨
    pageAlloc h npages m = (none, m) := by
  have hN := numPages_lt hfit
  rcases pageAlloc_cases h (by omega) npages m with
    ⟨i, hn, hNi, hfree, -, heq⟩ | ⟨heq, -⟩
  · left
    have hpos : 1 ≤ npages.toInt.toNat := by omega
    clear hn
    generalize npages.toInt.toNat = n at *
    obtain ⟨hu, hpages, -⟩ := unit_size (n := n) (j := 0) (by omega) (Nat.zero_le _)
    rw [if_neg (by omega)] at hpages
    simp only [Nat.zero_mul, Nat.add_zero] at hu hpages
    have hg : PagesGranted h m (markRun m (h.desc i) (pagesOf (n * pageSize)))
        i (n * pageSize) :=
      pagesGranted_whole (by omega) (by omega) (by rwa [hpages]) hu
    rw [hpages] at hg
    rw [h.runAddr_eq (by omega) (by omega)] at heq
    have hsize : pageSize ≤ n * pageSize := Nat.le_mul_of_pos_left _ hpos
    have hpage : 1 ≤ pageSize := by decide
    exact ⟨_, _, heq, hsize, .pages (by omega) hg⟩
  · exact .inr heq

/-- What a step of a program makes of a state.  Only `malloc` grants less than the
blocks of a page. -/
inductive Outcome (h : Heap) (s : HeapState) : ProgramOp → HeapState → Prop where
  | granted {op : ProgramOp} {a : Allocation} {m : Memory}
      (hop : a.size ≤ allocableSize → op = .malloc a.size)
      (hg : Granted h s.mem a m) : Outcome h s op ⟨m, a :: s.live⟩
  | unserved {op : ProgramOp} : Outcome h s op s
  | freed {p : Nat} {m : Memory} (hfree : free h s.mem p = .ok m) :
      Outcome h s (.free p) ⟨m, s.live.filterMap (·.cutAt h p)⟩
  | pageFreed {p : Nat} {m : Memory} (hfree : pageFree h s.mem p = some m) :
      Outcome h s (.pageFree p) ⟨m, s.live.filterMap (·.cutAt h p)⟩
  | stored {x : Nat} {v : Byte} (hx : h.allocStart ≤ x) :
      Outcome h s (.store x v) { s with mem := s.mem.modify x fun _ => v }

theorem outcome_of_step (hfit : h.TableFits) {op : ProgramOp}
    (hstep : programStep h s op = some s') : Outcome h s op s' := by
  cases op with
  | malloc size =>
      simp only [programStep] at hstep
      split_ifs at hstep
      rcases malloc_cases hfit s.mem size with ⟨p, m, heq, hg⟩ | ⟨heq, -⟩
      · rw [heq] at hstep
        cases hstep
        exact .granted (fun _ => rfl) hg
      · rw [heq] at hstep
        cases hstep
        exact .unserved
  | free p =>
      simp only [programStep] at hstep
      cases hfree : free h s.mem p with
      | error e => simp [hfree] at hstep
      | ok m =>
          simp only [hfree] at hstep
          cases hstep
          exact .freed hfree
  | pageAlloc npages =>
      simp only [programStep] at hstep
      rcases pageAlloc_granted hfit npages s.mem with ⟨p, m, heq, hsize, hg⟩ | heq
      · rw [heq] at hstep
        cases hstep
        refine .granted (fun hsmall => ?_) hg
        simp only at hsmall
        have hlt : allocableSize < pageSize := by decide
        omega
      · rw [heq] at hstep
        cases hstep
        exact .unserved
  | pageFree p =>
      simp only [programStep] at hstep
      cases hfree : pageFree h s.mem p with
      | none => simp [hfree] at hstep
      | some m =>
          simp only [hfree] at hstep
          cases hstep
          exact .pageFreed hfree
  | store x v =>
      simp only [programStep] at hstep
      split_ifs at hstep with hx
      cases hstep
      exact .stored hx

end Outcomes

/-! ## The page table stays sound -/

section Sound

variable {h : Heap} {m m' : Memory} {s s' : HeapState}

theorem closePrevBlock_below {start block x : Nat} (hx : x < start) :
    closePrevBlock m start block x = m x := by
  rw [closePrevBlock]
  split_ifs with _ hprev
  · rfl
  · exact Memory.modify_of_ne (by omega)
  · rfl

theorem getBlockByAddr_ge (h : Heap) (p : Nat) :
    getStartBlockByAddr (getStartMemByAddr h p) ≤ getBlockByAddr h p :=
  Nat.le_add_right _ _

theorem allocStart_le_startBlock (h : Heap) (p : Nat) :
    h.allocStart ≤ getStartBlockByAddr (getStartMemByAddr h p) := by
  unfold getStartBlockByAddr getStartMemByAddr allocableSize
  omega

theorem freeBlocks_loop {page p : Nat} (hok : freeBlocks h m page p = .ok m') :
    ∃ m₁, blockFreeLoop walkFuel
        (closePrevBlock m (getStartBlockByAddr (getStartMemByAddr h p))
          (getBlockByAddr h p))
        (getStartBlockByAddr (getStartMemByAddr h p)) (getBlockByAddr h p) =
          some m₁ ∧
      (m' = m₁ ∨ pageFree h (m₁.modify page (· ^^^ pageMalloc))
        (startMem h page) = some m') := by
  simp only [freeBlocks] at hok
  cases hloop : blockFreeLoop walkFuel
      (closePrevBlock m (getStartBlockByAddr (getStartMemByAddr h p))
        (getBlockByAddr h p))
      (getStartBlockByAddr (getStartMemByAddr h p)) (getBlockByAddr h p) with
  | none => simp [hloop] at hok
  | some m₁ =>
      refine ⟨m₁, rfl, ?_⟩
      simp only [hloop] at hok
      split_ifs at hok
      · cases hpage : pageFree h (m₁.modify page (· ^^^ pageMalloc))
          (startMem h page) with
        | none => simp [hpage] at hok
        | some m₂ =>
            right
            simpa [hpage] using hok
      · left
        simpa using hok.symm

theorem TableSound.freeBlocks_spec (hs : TableSound h m) (hfit : h.TableFits)
    {page p : Nat} (hmal : isMalloced m page = true)
    (hok : Page.freeBlocks h m page p = .ok m') :
    TableSound h m' ∧ ∃ m₁,
      blockFreeLoop walkFuel
        (closePrevBlock m (getStartBlockByAddr (getStartMemByAddr h p))
          (getBlockByAddr h p))
        (getStartBlockByAddr (getStartMemByAddr h p)) (getBlockByAddr h p) =
          some m₁ ∧
      ∀ x, h.allocStart ≤ x →
        m' x = m₁ x ∨ x = page ∧ m' x = m₁ x ^^^ pageMalloc := by
  have hN := numPages_lt hfit
  obtain ⟨m₁, hloop, hend⟩ := freeBlocks_loop hok
  have hge := getBlockByAddr_ge h p
  have hlow := allocStart_le_startBlock h p
  suffices hsuff : TableSound h m' ∧ ∀ x, h.allocStart ≤ x →
      m' x = m₁ x ∨ x = page ∧ m' x = m₁ x ^^^ pageMalloc from
    ⟨hsuff.1, m₁, hloop, hsuff.2⟩
  generalize getStartBlockByAddr (getStartMemByAddr h p) = start at *
  obtain ⟨d, hd⟩ := blockFreeLoop_clears hloop
  have hbelow : ∀ x, x < h.allocStart → m₁ x = m x := by
    intro x hx
    rw [(hd x (by omega) (by omega)).2, if_neg (by omega),
      closePrevBlock_below (by omega)]
  have hs₁ : TableSound h m₁ :=
    hs.congr fun k hk => hbelow _ (h.desc_lt_allocStart hfit hk)
  rcases hend with rfl | hpage
  · exact ⟨hs₁, fun x _ => .inl rfl⟩
  · have hs₂ : TableSound h (m₁.modify page (· ^^^ pageMalloc)) := by
      by_cases hx : page < h.allocStart
      · refine hs₁.toggleMalloc ?_
        rw [isMalloced, hbelow page hx]
        exact hmal
      · refine hs₁.congr fun k hk => Memory.modify_of_ne ?_
        have := h.desc_lt_allocStart hfit hk
        omega
    obtain ⟨m₂, heq, hs₃, hsame⟩ := hs₂.pageFree (by omega) (startMem h page)
    rw [hpage] at heq
    cases heq
    refine ⟨hs₃, fun x hx => ?_⟩
    rw [hsame x (.inr ((h.desc_numPages_le hfit).trans hx)), Memory.modify_apply]
    split_ifs with hxp
    · exact .inr ⟨hxp, rfl⟩
    · exact .inl rfl

theorem free_cases {p : Nat} (hok : free h m p = .ok m') :
    ¬(p = 0 ∨ p < h.allocStart ∨ p > h.allocEnd) ∧
    ((isMalloced m (getPageByAddr h p) = true ∧
        freeBlocks h m (getPageByAddr h p) p = .ok m') ∨
      ∃ page, isMalloced m (getPageByAddr h p) = false ∧
        findPageLast walkFuel m (getPageByAddr h p) = some page ∧
        ((isMalloced m page = false ∧ pageFree h m p = some m') ∨
          ∃ m₁, isMalloced m page = true ∧
            pageFree h (setPageFlags m (page - 1) pageLast) p = some m₁ ∧
            (isMalloced m₁ page = true ∧
              freeBlocks h m₁ page (getStartMemByAddr h p) = .ok m' ∨
            isMalloced m₁ page = false ∧ m' = m₁))) := by
  rw [free] at hok
  split_ifs at hok with href
  refine ⟨href, ?_⟩
  simp only at hok
  cases hmal : isMalloced m (getPageByAddr h p) with
  | true => exact .inl ⟨rfl, by simpa [hmal] using hok⟩
  | false =>
      right
      simp only [hmal] at hok
      cases hfind : findPageLast walkFuel m (getPageByAddr h p) with
      | none => simp [hfind] at hok
      | some page =>
          refine ⟨page, rfl, rfl, ?_⟩
          simp only [hfind] at hok
          cases hmal' : isMalloced m page with
          | false =>
              left
              simp only [hmal'] at hok
              cases hpage : pageFree h m p with
              | none => simp [hpage] at hok
              | some m₁ => exact ⟨rfl, by simpa [hpage] using hok⟩
          | true =>
              right
              simp only [hmal', if_true] at hok
              cases hpage : pageFree h (setPageFlags m (page - 1) pageLast) p with
              | none => simp [hpage] at hok
              | some m₁ =>
                  refine ⟨m₁, rfl, rfl, ?_⟩
                  simp only [hpage] at hok
                  cases hmal₁ : isMalloced m₁ page with
                  | true => exact .inl ⟨rfl, by simpa [hmal₁] using hok⟩
                  | false => exact .inr ⟨rfl, by simpa [hmal₁] using hok.symm⟩

theorem TableSound.free (hs : TableSound h m) (hfit : h.TableFits) {p : Nat}
    (hok : Page.free h m p = .ok m') : TableSound h m' := by
  have hN := numPages_lt hfit
  obtain ⟨-, ⟨hmal, hblocks⟩ | ⟨page, -, -, ⟨-, hpage⟩ |
    ⟨m₁, -, hpage, ⟨hmal, hblocks⟩ | ⟨-, rfl⟩⟩⟩⟩ := free_cases hok
  · exact (hs.freeBlocks_spec hfit hmal hblocks).1
  · obtain ⟨m₂, heq, hs₂, -⟩ := hs.pageFree (by omega) p
    rw [hpage] at heq
    cases heq
    exact hs₂
  · obtain ⟨m₂, heq, hs₂, -⟩ := (hs.setLast (page - 1)).pageFree (by omega) p
    rw [hpage] at heq
    cases heq
    exact (hs₂.freeBlocks_spec hfit hmal hblocks).1
  · obtain ⟨m₂, heq, hs₂, -⟩ := (hs.setLast (page - 1)).pageFree (by omega) p
    rw [hpage] at heq
    cases heq
    exact hs₂

theorem TableSound.step (hs : TableSound h s.mem) (hfit : h.TableFits)
    {op : ProgramOp} (hstep : programStep h s op = some s') :
    TableSound h s'.mem := by
  have hN := numPages_lt hfit
  cases outcome_of_step hfit hstep with
  | granted _ hg => exact hs.granted hfit hg
  | unserved => exact hs
  | freed hfree => exact hs.free hfit hfree
  | @pageFreed p m' hfree =>
      obtain ⟨m, heq, hs', -⟩ := hs.pageFree (by omega) p
      rw [hfree] at heq
      cases heq
      exact hs'
  | @stored x v hx =>
      refine hs.congr fun k hk => ?_
      have hbelow := h.desc_lt_allocStart hfit hk
      have hne : h.desc k ≠ x := by omega
      simp only [Memory.modify_of_ne hne]

end Sound

theorem tableSound_of_reaches {b : Board} {m₀ : Memory} {s : HeapState}
    {ok : HeapState → ProgramOp → Prop}
    (hrun : Reaches (stepRel (programStep b.heap)) ok
      (heapInit b.toRegion m₀) s) : TableSound b.heap s.mem :=
  hrun.invariant (P := fun s => TableSound b.heap s.mem)
    (tableSound_init b.toRegion m₀)
    fun _ _ _ hs _ hstep => hs.step b.tableFits hstep

end XinOS.Page
