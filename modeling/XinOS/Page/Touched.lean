import XinOS.Page.Programs

/-!
# The page descriptors that `free` looks at

Each definition follows a function of page.c or one of its loops, and lists the
addresses of the page descriptors that it reads or writes.  `page_free` stays in
the page table for every argument; the search of `free` for a last page does so
only if there is one.
-/

namespace XinOS.Page

open XinOS.Foundation

def findPageLastTouched : Nat → Memory → Nat → List Nat
  | 0, _, _ => []
  | fuel + 1, m, page =>
      if isPageLast m page then [page]
      else page :: findPageLastTouched fuel m (page + 1)

def closePrevPageTouched (h : Heap) (m : Memory) (page : Nat) : List Nat :=
  if isPageFirst m page then [page]
  else if getStartMemByPage h ((page : Int) - 1) ≥ h.allocStart then
    [page, page - 1]
  else [page]

def pageFreeLoopTouched : Nat → Memory → Nat → List Nat
  | 0, _, _ => []
  | fuel + 1, m, page =>
      if isPageFree m page then [page]
      else if isPageLast m page then [page]
      else page :: pageFreeLoopTouched fuel (clearPage m page) (page + 1)

def pageFreeTouched (h : Heap) (m : Memory) (p : Nat) : List Nat :=
  if p = 0 ∨ p ≥ h.allocEnd ∨ p < h.allocStart then []
  else
    let page := h.heapStart + (p - h.allocStart) / pageSize
    closePrevPageTouched h m page ++
      pageFreeLoopTouched walkFuel (closePrevPage h m page) page

def freeBlocksTouched (h : Heap) (m : Memory) (page p : Nat) : List Nat :=
  let block := getBlockByAddr h p
  let start := getStartBlockByAddr (getStartMemByAddr h p)
  match blockFreeLoop walkFuel (closePrevBlock m start block) start block with
  | none => []
  | some m =>
      if getMemoryUsage m start = 0 then
        page :: pageFreeTouched h (m.modify page (· ^^^ pageMalloc))
          (startMem h page)
      else []

def freeTouched (h : Heap) (m : Memory) (p : Nat) : List Nat :=
  if p = 0 ∨ p < h.allocStart ∨ p > h.allocEnd then []
  else
    let page := getPageByAddr h p
    if isMalloced m page then page :: freeBlocksTouched h m page p
    else
      page :: findPageLastTouched walkFuel m page ++
        match findPageLast walkFuel m page with
        | none => []
        | some page =>
            if isMalloced m page then
              let m := setPageFlags m (page - 1) pageLast
              [page, page - 1] ++ pageFreeTouched h m p ++
                match pageFree h m p with
                | none => []
                | some m =>
                    let p := getStartMemByAddr h p
                    if isMalloced m page then
                      page :: freeBlocksTouched h m page p
                    else [page]
            else page :: pageFreeTouched h m p

def Heap.InTable (h : Heap) (x : Nat) : Prop := ∃ k < h.numPages, x = h.desc k

section Touched

variable {h : Heap} {m : Memory}

theorem Heap.inTable_iff (h : Heap) {x : Nat} :
    h.InTable x ↔ h.desc 0 ≤ x ∧ x < h.desc h.numPages := by
  constructor
  · rintro ⟨k, hk, rfl⟩
    unfold Heap.desc
    omega
  · rintro ⟨hlo, hhi⟩
    refine ⟨x - h.desc 0, ?_, ?_⟩ <;> unfold Heap.desc at * <;> omega

theorem findPageLastTouched_le {fuel page e : Nat} (hpage : page ≤ e)
    (hlast : isPageLast m e = true) :
    ∀ x ∈ findPageLastTouched fuel m page, page ≤ x ∧ x ≤ e := by
  induction fuel generalizing page with
  | zero => simp [findPageLastTouched]
  | succ fuel ih =>
      intro x hx
      rw [findPageLastTouched] at hx
      split_ifs at hx with hl
      · obtain rfl := List.mem_singleton.mp hx
        exact ⟨le_refl _, hpage⟩
      · have hne : page ≠ e := by
          rintro rfl
          exact hl hlast
        rcases List.mem_cons.mp hx with rfl | hrest
        · exact ⟨le_refl _, hpage⟩
        · have := ih (by omega : page + 1 ≤ e) x hrest
          omega

/-- Without a last page the search goes on and on. -/
theorem mem_findPageLastTouched {fuel page x : Nat} (hpage : page ≤ x)
    (hfuel : x - page < fuel)
    (hnone : ∀ y, page ≤ y → y < x → isPageLast m y = false) :
    x ∈ findPageLastTouched fuel m page := by
  induction fuel generalizing page with
  | zero => omega
  | succ fuel ih =>
      rw [findPageLastTouched]
      rcases Nat.eq_or_lt_of_le hpage with rfl | hlt
      · split_ifs <;> simp
      · rw [if_neg (by simp [hnone page (le_refl _) hlt])]
        exact List.mem_cons_of_mem _ (ih hlt (by omega)
          fun y hy hyx => hnone y (by omega) hyx)

theorem closePrevPageTouched_inTable {k : Nat} (hk : k < h.numPages) :
    ∀ x ∈ closePrevPageTouched h m (h.desc k), h.InTable x := by
  intro x hx
  have hpage : h.InTable (h.desc k) := ⟨k, hk, rfl⟩
  rw [closePrevPageTouched] at hx
  split_ifs at hx with hfirst hprev
  · rwa [List.mem_singleton.mp hx]
  · have hk1 : 1 ≤ k := by
      unfold getStartMemByPage Heap.desc pageSize at hprev
      push_cast at hprev
      omega
    rcases List.mem_cons.mp hx with rfl | hx
    · exact hpage
    · refine ⟨k - 1, by omega, ?_⟩
      rw [List.mem_singleton.mp hx]
      unfold Heap.desc
      omega
  · rwa [List.mem_singleton.mp hx]

theorem pageFreeLoopTouched_le {fuel page e : Nat} (hpage : page ≤ e)
    (hlast : isPageLast m e = true) :
    ∀ x ∈ pageFreeLoopTouched fuel m page, page ≤ x ∧ x ≤ e := by
  induction fuel generalizing m page with
  | zero => simp [pageFreeLoopTouched]
  | succ fuel ih =>
      intro x hx
      rw [pageFreeLoopTouched] at hx
      split_ifs at hx with hfree hl
      · obtain rfl := List.mem_singleton.mp hx
        exact ⟨le_refl _, hpage⟩
      · obtain rfl := List.mem_singleton.mp hx
        exact ⟨le_refl _, hpage⟩
      · have hne : page ≠ e := by
          rintro rfl
          exact hl hlast
        rcases List.mem_cons.mp hx with rfl | hrest
        · exact ⟨le_refl _, hpage⟩
        · have hlast' : isPageLast (clearPage m page) e = true := by
            rw [clearPage, isPageLast_modify_of_ne (Ne.symm hne)]
            exact hlast
          have := ih (by omega : page + 1 ≤ e) hlast' x hrest
          omega

theorem TableSound.pageFreeTouched (hs : TableSound h m) (p : Nat) :
    ∀ x ∈ Page.pageFreeTouched h m p, h.InTable x := by
  intro x hx
  rw [Page.pageFreeTouched] at hx
  split_ifs at hx with href
  · simp at hx
  · have hk := h.pageOf_lt (p := p) (by omega) (by omega)
    have hpage : h.heapStart + (p - h.allocStart) / pageSize =
        h.desc (h.pageOf p) := rfl
    rw [hpage] at hx
    have hclose := hs.closePrevPage (h.pageOf p)
    rcases List.mem_append.mp hx with hprev | hloop
    · exact closePrevPageTouched_inTable hk x hprev
    · by_cases hfree : isPageFree (Page.closePrevPage h m (h.desc (h.pageOf p)))
          (h.desc (h.pageOf p)) = true
      · rw [show walkFuel = (2 ^ 64 - 1) + 1 from rfl, pageFreeLoopTouched,
          if_pos hfree] at hloop
        exact ⟨_, hk, List.mem_singleton.mp hloop⟩
      · obtain ⟨e, he, hr⟩ := hclose.exists_runsTo hk (by simpa using hfree)
        have hle := hr.le
        have hbound := pageFreeLoopTouched_le (e := h.desc e)
          (by unfold Heap.desc; omega) hr.last x hloop
        refine h.inTable_iff.mpr ?_
        unfold Heap.desc at *
        omega

end Touched

end XinOS.Page
