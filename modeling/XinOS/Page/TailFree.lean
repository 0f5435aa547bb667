import XinOS.Page.Programs

/-!
# Freeing an allocation that ends in blocks

`free` of a run of pages whose last page malloc controls means to go on in the
block table of that page, but stays in the first page of the run.  The counter of
the last page is therefore never lowered as it should be: not in any state that a
program can reach.
-/

namespace XinOS.Page

open XinOS.Foundation

def Allocation.tailPage (h : Heap) (a : Allocation) : Nat :=
  h.pageOf a.addr + a.size / pageSize

def Allocation.tailBlocks (a : Allocation) : Nat :=
  blockTotal (a.size % pageSize)

/-- The allocation has been freed: its whole pages are free, exactly the blocks
of its tail are cleared and no longer counted, their page is given back if and
only if no other block of it was taken, and what belongs to the other live
allocations is as it was. -/
structure TailFreed (h : Heap) (m m' : Memory) (live : List Allocation)
    (a : Allocation) : Prop where
  whole : ∀ k, h.pageOf a.addr ≤ k → k < a.tailPage h →
    isPageFree m' (h.desc k) = true
  blocks : ∀ j < blockCount, flagBits (m' (h.blockStart (a.tailPage h) + j)) =
    if j < a.tailBlocks then 0
    else flagBits (m (h.blockStart (a.tailPage h) + j))
  usage : getMemoryUsage m' (h.blockStart (a.tailPage h)) + a.tailBlocks =
    getMemoryUsage m (h.blockStart (a.tailPage h))
  givenBack : isPageFree m' (h.desc (a.tailPage h)) = true ↔
    ∀ j, a.tailBlocks ≤ j → j < blockCount →
      isBlockFree m (h.blockStart (a.tailPage h) + j) = true
  others : ∀ c ∈ live, c ≠ a →
    (∀ k ∈ c.pages h, m' (h.desc k) = m (h.desc k)) ∧
    (usesBlocks c.size = true → ∀ j ∈ c.blocks h,
      flagBits (m' (h.blockStart (c.lastPage h) + j)) =
        flagBits (m (h.blockStart (c.lastPage h) + j)))

/-! ## What `free` changes in the heap -/

section Effect

variable {h : Heap} {m m' : Memory} {k e : Nat}

theorem findPageLast_some {fuel page : Nat}
    (hfind : findPageLast fuel m page = some e) :
    page ≤ e ∧ ∀ y, page ≤ y → y < e → isPageLast m y = false := by
  induction fuel generalizing page with
  | zero => simp [findPageLast] at hfind
  | succ fuel ih =>
      rw [findPageLast] at hfind
      split_ifs at hfind with hlast
      · cases hfind
        exact ⟨le_refl _, fun y _ _ => by omega⟩
      · obtain ⟨hle, hinner⟩ := ih hfind
        refine ⟨by omega, fun y hy hye => ?_⟩
        rcases Nat.eq_or_lt_of_le hy with rfl | hlt
        · simpa using hlast
        · exact hinner y hlt hye

def markedByte (m : Memory) (e x : Nat) : Byte :=
  if x + 1 = e then m x ||| pageLast else m x

def sweptByte (m : Memory) (start d e x : Nat) : Byte :=
  if start ≤ x ∧ x < d then (markedByte m e x >>> 6) <<< 6 else markedByte m e x

/-- What `free` on the first byte of page `k` changes in the heap, the two
counter bytes of page `k` aside. -/
structure Swept (h : Heap) (m m' : Memory) (k d e : Nat) : Prop where
  noLast : ∀ y, h.desc k ≤ y → y < e → isPageLast m y = false
  taken : ∀ x, h.allocStart ≤ x → x ≠ h.blockStart k + 818 →
    x ≠ h.blockStart k + 819 → h.blockStart k ≤ x → x < d →
    isBlockFree m x = false
  byte : ∀ x, h.allocStart ≤ x → x ≠ h.blockStart k + 818 →
    x ≠ h.blockStart k + 819 → m' x = sweptByte m (h.blockStart k) d e x ∨
      x = e ∧ m' x = sweptByte m (h.blockStart k) d e x ^^^ pageMalloc

private theorem or_pageLast_free : ∀ x : Byte,
    (x ||| pageLast) &&& blockTaken = x &&& blockTaken := by
  decide

theorem swept_of_same (hm : ∀ x, h.allocStart ≤ x → m' x = m x)
    (hfit : h.TableFits) (hk : k < h.numPages) :
    Swept h m m' k 0 (h.desc k) := by
  have hdesc := h.desc_lt_allocStart hfit hk
  refine ⟨fun y _ _ => by omega, fun x _ _ _ _ _ => by omega,
    fun x hx _ _ => .inl ?_⟩
  rw [hm x hx, sweptByte, if_neg (by omega), markedByte, if_neg (by omega)]

theorem TableSound.swept_blocks {m₁ : Memory} {page : Nat}
    (hs : TableSound h m₁) (hfit : h.TableFits)
    (hm : ∀ x, h.allocStart ≤ x → m₁ x = markedByte m page x)
    (hlast : ∀ y, h.desc k ≤ y → y < page → isPageLast m y = false)
    (hmal : isMalloced m₁ page = true)
    (hok : freeBlocks h m₁ page (h.base k) = .ok m') :
    ∃ d, Swept h m m' k d page := by
  obtain ⟨-, m₂, hloop, hheap⟩ := hs.freeBlocks_spec hfit hmal hok
  have hstart := h.getStartBlock_eq (le_refl _) (h.base_lt_base_succ k)
  have hblock : getBlockByAddr h (h.base k) = h.blockStart k := by
    rw [h.getBlockByAddr_eq (le_refl _) (h.base_lt_base_succ k), Nat.sub_self,
      Nat.zero_div, Nat.add_zero]
  have hpos := h.blockStart_eq k
  have hclose : closePrevBlock m₁ (h.blockStart k) (h.blockStart k) = m₁ := by
    rw [closePrevBlock]
    split_ifs with _ hprev
    · rfl
    · omega
    · rfl
  rw [hstart, hblock, hclose] at hloop
  obtain ⟨d, hd⟩ := blockFreeLoop_clears hloop
  refine ⟨d, hlast, fun x hx h818 h819 hlo hhi => ?_, fun x hx h818 h819 => ?_⟩
  · have htaken := (hd x h818 h819).1 ⟨hlo, hhi⟩
    rw [isBlockFree, hm x hx, markedByte] at htaken
    split_ifs at htaken
    · rwa [or_pageLast_free] at htaken
    · exact htaken
  · have hbyte : m₂ x = sweptByte m (h.blockStart k) d page x := by
      rw [(hd x h818 h819).2, hm x hx, sweptByte]
    rw [← hbyte]
    exact hheap x hx

theorem TableSound.swept (hs : TableSound h m) (hfit : h.TableFits)
    (hk : k < h.numPages) (hok : Page.free h m (h.base k) = .ok m') :
    ∃ d e, Swept h m m' k d e := by
  have hN := numPages_lt hfit
  have hdesc := h.desc_lt_allocStart hfit hk
  have hover := h.desc_numPages_le hfit
  obtain ⟨-, hcases⟩ := free_cases hok
  rw [h.getPageByAddr_base,
    getStartMemByAddr_eq h (le_refl _) (h.base_lt_base_succ k)] at hcases
  rcases hcases with ⟨hmal, hblocks⟩ | ⟨page, -, hfind, ⟨-, hpage⟩ |
    ⟨m₁, -, hpage, hend⟩⟩
  · obtain ⟨d, hd⟩ := hs.swept_blocks hfit
      (fun x hx => by rw [markedByte, if_neg (by omega)])
      (fun y _ _ => by omega) hmal hblocks
    exact ⟨d, _, hd⟩
  · obtain ⟨m₂, heq, -, hsame⟩ := hs.pageFree (by omega) (h.base k)
    rw [hpage] at heq
    cases heq
    exact ⟨0, _, swept_of_same (fun x hx => hsame x (.inr (by omega))) hfit hk⟩
  · obtain ⟨hle, hlast⟩ := findPageLast_some hfind
    obtain ⟨m₂, heq, hs₂, hsame⟩ :=
      (hs.setLast (page - 1)).pageFree (by omega) (h.base k)
    rw [hpage] at heq
    cases heq
    have hm : ∀ x, h.allocStart ≤ x → m₁ x = markedByte m page x := by
      intro x hx
      have hiff : x = page - 1 ↔ x + 1 = page := by
        have : 0 < h.allocStart := h.allocStart_pos
        omega
      rw [hsame x (.inr (by omega)), setPageFlags, Memory.modify_apply]
      simp only [hiff, markedByte]
    rcases hend with ⟨hmal, hblocks⟩ | ⟨-, rfl⟩
    · obtain ⟨d, hd⟩ := hs₂.swept_blocks hfit hm hlast hmal hblocks
      exact ⟨d, _, hd⟩
    · refine ⟨0, page, hlast, fun x _ _ _ _ _ => by omega,
        fun x hx _ _ => .inl ?_⟩
      rw [hm x hx, sweptByte, if_neg (by omega)]

end Effect

/-! ## The counter of the last page -/

section Tail

variable {h : Heap} {m m' : Memory} {k d e l n : Nat}

private theorem swept_high : ∀ x : Byte,
    (x ||| pageLast).toNat >>> 6 = x.toNat >>> 6 ∧
    ((x >>> 6) <<< 6).toNat >>> 6 = x.toNat >>> 6 ∧
    (x ^^^ pageMalloc).toNat >>> 6 = x.toNat >>> 6 := by
  decide

private theorem swept_flags : ∀ x : Byte,
    (flagBits ((x >>> 6) <<< 6) &&& blockTaken == 0) = true ∧
    (flagBits (((x >>> 6) <<< 6) ^^^ pageMalloc) &&& blockTaken == 0) = true ∧
    (flagBits (x ||| pageLast) = flagBits x → (x &&& pageLast != 0) = true) ∧
    x.toNat ≤ (x ||| pageLast).toNat := by
  decide

theorem sweptByte_high (m : Memory) (start d e x : Nat) :
    (sweptByte m start d e x).toNat >>> 6 = (m x).toNat >>> 6 := by
  have hmarked : (markedByte m e x).toNat >>> 6 = (m x).toNat >>> 6 := by
    unfold markedByte
    split_ifs
    · exact (swept_high (m x)).1
    · rfl
  unfold sweptByte
  split_ifs
  · exact (swept_high (markedByte m e x)).2.1.trans hmarked
  · exact hmarked

theorem Swept.byte_high (hw : Swept h m m' k d e) {x : Nat}
    (hx : h.allocStart ≤ x) (h818 : x ≠ h.blockStart k + 818)
    (h819 : x ≠ h.blockStart k + 819) :
    (m' x).toNat >>> 6 = (m x).toNat >>> 6 := by
  have hbyte := sweptByte_high m (h.blockStart k) d e x
  rcases hw.byte x hx h818 h819 with heq | ⟨-, heq⟩
  · rw [heq, hbyte]
  · rw [heq, (swept_high (sweptByte m (h.blockStart k) d e x)).2.2, hbyte]

theorem Swept.counter_high (hw : Swept h m m' k d e) (hkl : k < l) :
    (m' (h.blockStart l + 818)).toNat >>> 6 =
      (m (h.blockStart l + 818)).toNat >>> 6 := by
  have hgap := h.base_lt_base hkl
  have hk := h.blockStart_eq k
  have hl := h.blockStart_eq l
  have hlow := h.allocStart_le_base l
  unfold pageSize at hgap
  exact hw.byte_high (by omega) (by omega) (by omega)

/-- On a page behind `k`, `free` on page `k` cannot lower the counter and keep the
flags of block 818. -/
theorem Swept.usage_le (hw : Swept h m m' k d e) (hkl : k < l)
    (hflags : flagBits (m' (h.blockStart l + 818)) =
      flagBits (m (h.blockStart l + 818))) :
    getMemoryUsage m (h.blockStart l) ≤ getMemoryUsage m' (h.blockStart l) := by
  have hgap := h.base_lt_base hkl
  have hk := h.blockStart_eq k
  have hl := h.blockStart_eq l
  have hlow := h.allocStart_le_base l
  unfold pageSize at hgap
  simp only [getMemoryUsage, highBlock_eq, lowBlock_eq, hw.counter_high hkl]
  refine Nat.add_le_add_left ?_ _
  have hbyte := hw.byte (h.blockStart l + 818) (by omega) (by omega) (by omega)
  -- a block loop that gets past block 818 would have cleared it
  have hd : ¬h.blockStart l + 818 < d := by
    intro hlt
    have htaken := hw.taken (h.blockStart l + 818) (by omega) (by omega) (by omega)
      (by omega) hlt
    rw [isBlockFree_eq, ← hflags] at htaken
    have hv : sweptByte m (h.blockStart k) d e (h.blockStart l + 818) =
        (markedByte m e (h.blockStart l + 818) >>> 6) <<< 6 := if_pos (by omega)
    generalize markedByte m e (h.blockStart l + 818) = v at hv
    rcases hbyte with heq | ⟨-, heq⟩
    · rw [heq, hv, (swept_flags v).1] at htaken
      contradiction
    · rw [heq, hv, (swept_flags v).2.1] at htaken
      contradiction
  have hstay : ∀ x, h.blockStart l + 818 ≤ x →
      sweptByte m (h.blockStart k) d e x = markedByte m e x :=
    fun x hx => if_neg (by omega)
  rcases hw.byte (h.blockStart l + 819) (by omega) (by omega) (by omega) with
    heq | ⟨he, -⟩
  · rw [heq, hstay _ (by omega), markedByte]
    split_ifs
    · exact (swept_flags (m (h.blockStart l + 819))).2.2.2
    · exact le_refl _
  · -- then block 818 has just been given a last mark that it did not have
    exfalso
    rcases hbyte with heq | ⟨he', -⟩
    · rw [hstay _ (le_refl _), markedByte, if_pos (by omega)] at heq
      rw [heq] at hflags
      have hlast := (swept_flags (m (h.blockStart l + 818))).2.2.1 hflags
      have hdesc : h.desc k ≤ h.blockStart l + 818 := by
        have hres := h.reserve
        unfold Heap.desc Heap.base at *
        unfold pageSize at *
        omega
      have hnot := hw.noLast (h.blockStart l + 818) hdesc (by omega)
      rw [isPageLast, hlast] at hnot
      contradiction
    · omega

theorem Swept.not_counted_off (hw : Swept h m m' k d e) (hkl : k < l)
    (hn : 1 ≤ n) (hblocks : n ≤ blockCount)
    (hflags : ∀ j < blockCount, flagBits (m' (h.blockStart l + j)) =
      if j < n then 0 else flagBits (m (h.blockStart l + j))) :
    getMemoryUsage m' (h.blockStart l) + n ≠ getMemoryUsage m (h.blockStart l) := by
  intro husage
  have hcount : blockCount = 819 := rfl
  by_cases hlt : n < blockCount
  · have hkeep := hflags 818 (by omega)
    rw [if_neg (by omega)] at hkeep
    have := hw.usage_le hkl hkeep
    omega
  · -- the low byte of the counter is too small for all 819 blocks
    have hmax := (m (h.blockStart l + 819)).isLt
    simp only [getMemoryUsage, highBlock_eq, lowBlock_eq, hw.counter_high hkl] at husage
    omega

end Tail

/-! ## Where allocations lie -/

/-- What every run keeps of an entry of the ledger: a request that does not fit
the blocks of a page begins with a page. -/
structure Allocation.Placed (h : Heap) (a : Allocation) : Prop where
  pos : 1 ≤ a.size
  inHeap : h.allocStart ≤ a.addr
  large : allocableSize < a.size → ∃ k < h.numPages, a.addr = h.base k

section Placed

variable {h : Heap} {m m' : Memory} {s s' : HeapState} {a a' : Allocation}

theorem Granted.placed (hg : Granted h m a m') : a.Placed h := by
  cases hg with
  | blocks _ _ hpos hsmall =>
      exact ⟨hpos, (h.allocStart_le_base _).trans (Nat.le_add_right _ _),
        fun hlarge => absurd hlarge (not_lt.mpr hsmall)⟩
  | @pages i _ _ hpos hp =>
      have hone := hp.onePage
      have hinside := hp.inside
      exact ⟨hpos, h.allocStart_le_base i, fun _ => ⟨i, by omega, rfl⟩⟩

theorem Allocation.Placed.held_small (hp : a.Placed h)
    (hsmall : a.size ≤ allocableSize) :
    (a.held h).hi ≤ a.addr + allocableSize := by
  have hin := h.base_pageOf_le hp.inHeap
  obtain ⟨hu, hmod⟩ := usesBlocks_of_small hp.pos hsmall
  have hone := pagesOf_small hp.pos (small_le_pageSize hsmall)
  have hround := blockTotal_le hsmall
  have hlast : a.lastPage h = h.pageOf a.addr := by
    unfold Allocation.lastPage
    omega
  simp only [Allocation.held, hu, if_true, hlast, Allocation.blocks, hmod]
  unfold blockCount at hround
  unfold mallocSize allocableSize
  omega

theorem Allocation.Placed.cutAt (hp : a.Placed h) {p : Nat}
    (hcut : a.cutAt h p = some a') : a'.Placed h := by
  unfold Allocation.cutAt at hcut
  split_ifs at hcut with hheld hstart
  · cases hcut
    obtain ⟨hlo, hhi⟩ := Span.mem_iff.mp hheld
    have hlo' : a.addr ≤ p := hlo
    have hle := Allocation.unitStart_le (a := a) (hp.inHeap.trans hlo')
    refine ⟨by simp only; omega, hp.inHeap, fun hlarge => hp.large ?_⟩
    by_contra hsmall
    have := hp.held_small (by omega)
    simp only at hlarge
    omega
  · cases hcut
    exact hp

theorem placed_step (hfit : h.TableFits) (hp : ∀ a ∈ s.live, a.Placed h)
    {op : ProgramOp} (hstep : programStep h s op = some s') :
    ∀ a ∈ s'.live, a.Placed h := by
  have hcut : ∀ p, ∀ a ∈ s.live.filterMap (·.cutAt h p), a.Placed h := by
    intro p a ha
    obtain ⟨c, hc, hca⟩ := List.mem_filterMap.mp ha
    exact (hp c hc).cutAt hca
  cases outcome_of_step hfit hstep with
  | granted _ hg =>
      rintro a (_ | ⟨_, ha⟩)
      · exact hg.placed
      · exact hp a ha
  | unserved => exact hp
  | freed _ => exact hcut _
  | pageFreed _ => exact hcut _
  | stored _ => exact hp

theorem TableSound.not_tailFreed (hs : TableSound h s.mem) (hfit : h.TableFits)
    (hp : a.Placed h) (htail : hasTail a.size = true)
    (hfree : Page.free h s.mem a.addr = .ok m') :
    ¬TailFreed h s.mem m' s.live a := by
  intro ht
  rw [hasTail, Bool.and_eq_true, decide_eq_true_iff] at htail
  obtain ⟨hsize, hu⟩ := htail
  have hrest := of_decide_eq_true hu
  obtain ⟨k, hk, haddr⟩ := hp.large (by
    unfold pageSize at hsize
    unfold allocableSize
    omega)
  have hpage : h.pageOf a.addr = k := by
    rw [haddr]
    exact h.pageOf_eq (le_refl _) (h.base_lt_base_succ k)
  rw [haddr] at hfree
  obtain ⟨d, e, hw⟩ := hs.swept hfit hk hfree
  refine hw.not_counted_off (l := a.tailPage h) ?_ (blockTotal_pos hrest.1)
    (blockTotal_le hrest.2) ht.blocks ht.usage
  unfold Allocation.tailPage
  rw [hpage]
  unfold pageSize at *
  omega

end Placed

theorem placed_of_reaches {b : Board} {m₀ : Memory} {s : HeapState}
    {ok : HeapState → ProgramOp → Prop}
    (hrun : Reaches (stepRel (programStep b.heap)) ok
      (heapInit b.toRegion m₀) s) : ∀ a ∈ s.live, a.Placed b.heap :=
  hrun.invariant (P := fun s => ∀ a ∈ s.live, a.Placed b.heap)
    (by simp [heapInit]) fun _ _ _ hp _ hstep => placed_step b.tableFits hp hstep

/-- After any run of any program: `free` does not free an allocation that ends in
blocks of the last of several pages. -/
theorem tail_never_freed (b : Board) (m₀ : Memory) (s : HeapState)
    (hrun : Reaches (stepRel (programStep b.heap)) anyLabel
      (heapInit b.toRegion m₀) s) (a : Allocation) (ha : a ∈ s.live)
    (htail : hasTail a.size = true) :
    ¬∃ m, free b.heap s.mem a.addr = .ok m ∧
      TailFreed b.heap s.mem m s.live a := by
  rintro ⟨m, hfree, ht⟩
  exact (tableSound_of_reaches hrun).not_tailFreed b.tableFits
    (placed_of_reaches hrun a ha) htail hfree ht

theorem tail_live : (exec (programStep twoPages.heap)
    (heapInit twoPages.toRegion fun _ => 0) [.malloc 4100, .malloc 4]).map
      HeapState.live = some [⟨0x80009004, 4⟩, ⟨0x80008000, 4100⟩] := by
  decide +kernel

theorem tail_never_freed_of_two :
    ∃ s : HeapState, s.live = [⟨0x80009004, 4⟩, ⟨0x80008000, 4100⟩] ∧
      ¬∃ m, free twoPages.heap s.mem 0x80008000 = .ok m ∧
        TailFreed twoPages.heap s.mem m s.live ⟨0x80008000, 4100⟩ := by
  obtain ⟨s, hexec, hs⟩ := Option.map_eq_some_iff.mp tail_live
  exact ⟨s, hs, tail_never_freed twoPages (fun _ => 0) s
    (Reaches.exec .refl (fun _ _ _ => trivial) hexec) ⟨0x80008000, 4100⟩
    (by simp [hs]) (by decide)⟩

/-- `free` gives the last page back although a block of another allocation is in
use there. -/
theorem tail_page_lost :
    ¬∀ (b : Board) (m₀ : Memory) (s : HeapState),
      Reaches (stepRel (programStep b.heap)) anyLabel (heapInit b.toRegion m₀) s →
      ∀ a ∈ s.live, hasTail a.size = true →
        ∃ m, free b.heap s.mem a.addr = .ok m ∧
          TailFreed b.heap s.mem m s.live a := by
  intro hall
  have hend : (exec (programStep twoPages.heap)
      (heapInit twoPages.toRegion fun _ => 0) [.malloc 4100, .malloc 4]).map
      (fun s => (s.live, isBlockFree s.mem (twoPages.heap.blockStart 1 + 1),
        (free twoPages.heap s.mem 0x80008000).toOption.map
          fun m => isPageFree m (twoPages.heap.desc 1))) =
      some ([⟨0x80009004, 4⟩, ⟨0x80008000, 4100⟩], false, some true) := by
    decide +kernel
  obtain ⟨s, hexec, hs⟩ := Option.map_eq_some_iff.mp hend
  obtain ⟨hlive, hrest⟩ := Prod.mk.inj hs
  obtain ⟨htaken, hpage⟩ := Prod.mk.inj hrest
  obtain ⟨m, hfree, ht⟩ := hall twoPages (fun _ => 0) s
    (Reaches.exec .refl (fun _ _ _ => trivial) hexec) ⟨0x80008000, 4100⟩
    (by simp [hlive]) (by decide)
  simp only [hfree, Except.toOption, Option.map_some, Option.some.injEq] at hpage
  have htail : Allocation.tailPage twoPages.heap ⟨0x80008000, 4100⟩ = 1 := by
    decide +kernel
  have hblocks : Allocation.tailBlocks ⟨0x80008000, 4100⟩ = 1 := by decide
  have hback := ht.givenBack
  rw [htail, hblocks] at hback
  have hfreed := hback.mp hpage 1 (le_refl _) (by decide)
  rw [htaken] at hfreed
  cases hfreed

end XinOS.Page
