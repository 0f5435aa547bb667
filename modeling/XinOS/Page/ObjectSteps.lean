import XinOS.Page.ObjectHeap

/-!
# Objects that come and go

`malloc` and `free` of kernel objects write to the tables only, and tables change
only by them: bytes of the program's own can be written at any time, and the order in
which the ledger lists its objects does not matter.
-/

namespace XinOS.Page

open XinOS.Foundation

variable {h : Heap} {m m' : Memory} {live live' : List Allocation} {a : Allocation}

/-! ## The ledger as a set -/

theorem blockPage_perm (hperm : live.Perm live') :
    blockPage h live' = blockPage h live := by
  funext k
  rw [Bool.eq_iff_iff, blockPage_iff, blockPage_iff]
  simp only [hperm.mem_iff]

theorem blockRuns_perm (hperm : live.Perm live') (k : Nat) :
    blockRuns h live' k = blockRuns h live k := by
  simp only [blockRuns, hperm.mem_iff]

theorem HeapInv.perm (hi : HeapInv h ⟨m, live⟩) (hperm : live.Perm live') :
    HeapInv h ⟨m, live'⟩ where
  shaped := fun a ha => hi.shaped a (hperm.mem_iff.mpr ha)
  apart := (hperm.pairwise_iff fun hab => hab.symm).mp hi.apart
  pages := by
    obtain ⟨S, hS⟩ := hi.pages
    refine ⟨S, hS.separated, ?_, fun a ha => hS.covered a (hperm.mem_iff.mpr ha),
      fun I hI => ?_⟩
    · rw [blockPage_perm hperm]
      exact hS.table
    · obtain ⟨a, ha, heq⟩ := hS.owned I hI
      exact ⟨a, hperm.mem_iff.mp ha, heq⟩
  blocks := by
    intro k hk
    rw [blockPage_perm hperm] at hk
    rw [blockRuns_perm hperm]
    exact hi.blocks k hk

theorem ObjectInv.perm (hi : ObjectInv h ⟨m, live⟩) (hperm : live.Perm live') :
    ObjectInv h ⟨m, live'⟩ where
  heap := hi.heap.perm hperm
  units := fun a ha => hi.units a (hperm.mem_iff.mpr ha)
  objects := fun a ha => hi.objects a (hperm.mem_iff.mpr ha)

/-! ## Bytes that are in no table -/

structure SameTables (h : Heap) (m m' : Memory) : Prop where
  desc : ∀ k < h.numPages, m' (h.desc k) = m (h.desc k)
  blocks : ∀ k < h.numPages, isMalloced m (h.desc k) = true →
    ∀ x, h.blockStart k ≤ x → x < h.blockStart k + mallocTableSize → m' x = m x

theorem sameTables_iff : SameTables h m m' ↔ ∀ x, h.Metadata m x → m' x = m x := by
  constructor
  · rintro hsame x (⟨k, hk, rfl⟩ | ⟨k, hk, hmal, hlo, hhi⟩)
    · exact hsame.desc k hk
    · exact hsame.blocks k hk hmal x hlo hhi
  · exact fun hsame => ⟨fun k hk => hsame _ (.inl ⟨k, hk, rfl⟩),
      fun k hk hmal x hlo hhi => hsame x (.inr ⟨k, hk, hmal, hlo, hhi⟩)⟩

theorem sameTables_of_outside {lo hi : Nat} (hsame : Memory.SameOutside lo hi m m')
    (hoff : ∀ x, lo ≤ x → x < hi → ¬h.Metadata m x) : SameTables h m m' :=
  sameTables_iff.mpr fun x hx => hsame x (by
    by_contra hin
    exact hoff x (by omega) (by omega) hx)

theorem SameTables.isMalloced (hsame : SameTables h m m') {k : Nat}
    (hk : k < h.numPages) : isMalloced m' (h.desc k) = isMalloced m (h.desc k) := by
  rw [Page.isMalloced, Page.isMalloced, hsame.desc k hk]

theorem HeapInv.sameTables (hi : HeapInv h ⟨m, live⟩) (hsame : SameTables h m m') :
    HeapInv h ⟨m', live⟩ where
  shaped := hi.shaped
  apart := hi.apart
  pages := by
    obtain ⟨S, hS⟩ := hi.pages
    exact ⟨S, hS.separated, hS.table.congr hS.separated hsame.desc, hS.covered,
      hS.owned⟩
  blocks := by
    intro k hk
    obtain ⟨a, ha, hu, rfl⟩ := blockPage_iff.mp hk
    have hlast := hi.lastPage_lt ha
    exact (hi.blocks _ hk).congr fun x hlo hhi =>
      hsame.blocks _ hlast ((hi.isMalloced_iff hlast).mpr hk) x hlo hhi

theorem ObjectInv.sameTables (hi : ObjectInv h ⟨m, live⟩) (hsame : SameTables h m m') :
    ObjectInv h ⟨m', live⟩ :=
  ⟨hi.heap.sameTables hsame, hi.units, hi.objects⟩

theorem ObjectInv.offTables (hi : ObjectInv h ⟨m, live⟩) (hfit : h.TableFits)
    (ha : a ∈ live) {x : Nat} (hlo : a.addr ≤ x) (hhi : x < a.addr + a.size) :
    ¬h.Metadata m x := by
  have hcount := (object_size (hi.objects a ha)).2.2.2.1
  exact Page.outOfReach_iff.mp ((hi.heap.outOfReach_iff hfit ha hcount).mpr
    (hi.endOffset_ne ha)) x (Span.mem_iff.mpr ⟨hlo, hhi⟩)

theorem ObjectInv.offTables_ever (hi : ObjectInv h ⟨m, live⟩) (hfit : h.TableFits)
    (ha : a ∈ live) {x : Nat} (hlo : a.addr ≤ x) (hhi : x < a.addr + a.size)
    (m' : Memory) : ¬h.Metadata m' x := by
  obtain ⟨hpos, hsmall, -, hcount, -⟩ := object_size (hi.objects a ha)
  have hs := hi.heap.shaped a ha
  have hmal := (hi.heap.mallocPage ha (usesBlocks_of_small hpos hsmall).1).malloced
  have hpage := (h.base_pageOf_le hs.inHeap).1
  rw [← hs.small_lastPage hsmall] at hpage
  have hheld : a.addr + a.size ≤ (a.held h).hi := hs.range_le_held hcount
  have hin : h.pageOf x = a.lastPage h :=
    h.pageOf_eq (by omega) (by have := hs.held_hi; omega)
  rintro (⟨k, hk, rfl⟩ | ⟨k, hk, -, hlo', hhi'⟩)
  · have hbelow := h.desc_lt_base hfit hk (k := 0)
    have hbase : h.base 0 = h.allocStart := by simp [Heap.base]
    have hheap := hs.inHeap
    omega
  · -- a table of the page of the object, which is a page of blocks now
    have hstart := h.blockStart_eq k
    have hsucc := h.base_succ k
    have hk' : h.pageOf x = k := by
      unfold mallocTableSize at hhi'
      unfold pageSize at hsucc
      exact h.pageOf_eq (by omega) (by omega)
    obtain rfl : a.lastPage h = k := hin.symm.trans hk'
    exact hi.offTables hfit ha hlo hhi (.inr ⟨_, hk, hmal, hlo', hhi'⟩)

theorem Heap.offTables_below {x : Nat} (hx : x < h.heapStart) : ¬h.Metadata m x := by
  have hreserve := h.reserve
  rintro (⟨k, -, rfl⟩ | ⟨k, -, -, hlo, -⟩)
  · unfold Heap.desc at hx
    omega
  · have hbase := h.allocStart_le_base k
    have hstart := h.blockStart_eq k
    omega

/-! ## Giving objects back -/

/-- `free` of a kernel object returns, and in the heap it writes to block tables
only. -/
theorem ObjectInv.free (hi : ObjectInv h ⟨m, live⟩) (hfit : h.TableFits)
    (ha : a ∈ live) :
    ∃ m', Page.free h m a.addr = .ok m' ∧ ObjectInv h ⟨m', live.erase a⟩ ∧
      ∀ x, h.allocStart ≤ x → ¬h.Metadata m x → m' x = m x := by
  obtain ⟨hpos, hsmall, -, -, htail, -⟩ := object_size (hi.objects a ha)
  have hs := hi.heap.shaped a ha
  have hlast := hs.small_lastPage hsmall
  have hu := (usesBlocks_of_small hpos hsmall).1
  have hpage := hi.heap.mallocPage ha hu
  obtain ⟨hlo, hhi, hlt⟩ := hi.heap.addr_inPage ha
  rw [← hlast] at hlo hhi hlt
  obtain ⟨m', heq, hinv⟩ := hi.heap.free hfit ha htail
  refine ⟨m', heq, ⟨hinv, ?_, ?_⟩, ?_⟩
  · exact fun c hc => hi.units c (List.mem_of_mem_erase hc)
  · exact fun c hc => hi.objects c (List.mem_of_mem_erase hc)
  · -- the block loop, and the release of the page when it was the last object there
    obtain ⟨m₁, hloop, hsame, -⟩ := hi.heap.freeBlocks_loop ha hsmall
    have hlo' : (a.blocks h).lo = (a.addr - h.base (a.lastPage h)) / mallocSize := by
      rw [hlast]
      rfl
    rw [hlo'] at hloop
    have heq' := (h.free_eq_freeBlocks hlt hpage.malloced hlo hhi).trans
      (h.freeBlocks_of_loop hfit hlt hpage hlo hhi hloop hsame)
    obtain rfl := Except.ok.inj (heq.symm.trans heq')
    intro x hx hoff
    have hblock : m₁ x = m x := hsame x (by
      by_contra hin
      exact hoff (.inr ⟨_, hlt, hpage.malloced, by omega, by omega⟩))
    have hdesc := h.desc_lt_base hfit hlt (k := 0)
    unfold Heap.base at hdesc
    split_ifs
    · rw [h.releasePage_same (by omega), hblock]
    · exact hblock

theorem ObjectInv.malloc (hi : ObjectInv h ⟨m, live⟩) (hfit : h.TableFits)
    (hx : 12 ≤ h.xlen) {size p : Nat} (hsize : size = taskInfoSize ∨ size = timerSize)
    (heq : Page.malloc h size m = (some p, m')) : ObjectInv h ⟨m', ⟨p, size⟩ :: live⟩ := by
  obtain ⟨hpos, hsmall, -⟩ := object_size hsize
  refine hi.step hfit (fun n (hn : HeapOp.malloc size = .malloc n) => ?_) ?_
  · cases hn
    exact hsize
  · have hpow : 2 ^ 12 ≤ 2 ^ h.xlen := Nat.pow_le_pow_right (by decide) hx
    have hlt : size < 2 ^ h.xlen := by
      unfold allocableSize at hsmall
      omega
    simp only [heapStep, heq]
    rw [if_pos ⟨hpos, hlt⟩]

/-! ## Running out of memory -/

theorem malloc_none_iff {size : Nat} (hpos : 1 ≤ size) (hsmall : size ≤ allocableSize) :
    (malloc h size m).1 = none ↔ ∀ k < h.numPages, h.NoRoom m size k := by
  rw [Page.malloc, if_neg (by omega), if_pos hsmall]
  rcases mallocBlocks_cases h m hpos hsmall h.numPages 0 (by omega) with
    ⟨k, -, hk, -, hserved⟩ | ⟨hnone, hfull⟩
  · rcases hserved with ⟨hmal, i, hfit, hr⟩ | ⟨hmal, hfree, hr⟩
    · exact iff_of_false (by simp [hr]) fun hfull =>
        (hfull k (by omega)).1 hmal i hfit.1
    · exact iff_of_false (by simp [hr]) fun hfull =>
        absurd ((hfull k (by omega)).2 hmal) (by simp [hfree])
  · rw [hnone]
    exact iff_of_true rfl fun k hk => hfull k (by omega) (by omega)

theorem Accepts.congr {start n i : Nat} (hok : Accepts m start n i) (hn : 1 ≤ n)
    (hsame : ∀ x, start ≤ x → x < start + mallocTableSize → m' x = m x) :
    Accepts m' start n i := by
  have hin := hok.1
  have htable : blockCount < mallocTableSize := by decide
  refine accepts_of_free hn hin fun j hlo hhi => ?_
  have hfree := hok.isBlockFree hlo hhi
  rwa [Page.isBlockFree, ← hsame _ (by omega) (by omega)] at hfree

theorem SameTables.noRoom_iff (hsame : SameTables h m m') {size k : Nat} (hpos : 1 ≤ size)
    (hk : k < h.numPages) : h.NoRoom m' size k ↔ h.NoRoom m size k := by
  have htotal := blockTotal_pos hpos
  have hfree : isPageFree m' (h.desc k) = isPageFree m (h.desc k) := by
    rw [isPageFree, isPageFree, hsame.desc k hk]
  rw [Heap.NoRoom, Heap.NoRoom, hsame.isMalloced hk, hfree]
  refine and_congr_left' (forall_congr' fun hmal => forall_congr' fun i => not_congr ?_)
  have htable := hsame.blocks k hk hmal
  exact ⟨fun hok => hok.congr htotal fun x hlo hhi => (htable x hlo hhi).symm,
    fun hok => hok.congr htotal htable⟩

theorem SameTables.malloc_none_iff (hsame : SameTables h m m') {size : Nat}
    (hpos : 1 ≤ size) (hsmall : size ≤ allocableSize) :
    (malloc h size m').1 = none ↔ (malloc h size m).1 = none := by
  rw [Page.malloc_none_iff hpos hsmall, Page.malloc_none_iff hpos hsmall]
  exact forall₂_congr fun k hk => hsame.noRoom_iff hpos hk

end XinOS.Page
