import XinOS.Page.FreeStep

/-!
# Runs of `malloc` and `free`

The ledger is right in every state that is reached by steps which stay away from
three defects: `_try_malloc` does not test the last block of the run it takes,
`free` looks the blocks of a tail up in the first page of the run, and the number
of pages of a request is cut to an `int`.
-/

namespace XinOS.Page

open XinOS.Foundation

/-- Steps for which the tables follow the ledger: a small request ends in a free
block, and no run that ends in blocks is freed. -/
def KeepsLedger (h : Heap) (s : HeapState) : HeapOp → Prop
  | .malloc size => EndFree h s.mem size
  | .free p => ∀ a ∈ s.live, a.addr = p → hasTail a.size = false

/-- The number of pages that a request of `size` bytes needs is an `int`. -/
def CountsPages (size : Nat) : Prop := (size + (pageSize - 1)) / pageSize < 2 ^ 31

instance (size : Nat) : Decidable (CountsPages size) :=
  inferInstanceAs (Decidable (_ < _))

/-- Steps for which, besides, a request gets as many pages as it needs. -/
def KeepsRanges (h : Heap) (s : HeapState) (op : HeapOp) : Prop :=
  KeepsLedger h s op ∧ ∀ size, op = .malloc size → CountsPages size

section Step

variable {h : Heap} {s s' : HeapState}

theorem HeapInv.step (hfit : h.TableFits) (hi : HeapInv h s) {op : HeapOp}
    (hok : KeepsLedger h s op) (hstep : heapStep h s op = some s') :
    HeapInv h s' ∧
      ((∃ p size, op = .malloc size ∧ s'.live = ⟨p, size⟩ :: s.live) ∨
        (∃ size, op = .malloc size ∧ s' = s) ∨
        ∃ a ∈ s.live, op = .free a.addr ∧ s'.live = s.live.erase a) := by
  cases op with
  | malloc size =>
      simp only [heapStep] at hstep
      split_ifs at hstep with hsize
      rcases malloc_cases hfit s.mem size with ⟨p, m, heq, hg⟩ | ⟨heq, -⟩
      · rw [heq] at hstep
        cases hstep
        exact ⟨hi.granted hfit hok hg, .inl ⟨p, size, rfl, rfl⟩⟩
      · rw [heq] at hstep
        cases hstep
        exact ⟨hi, .inr (.inl ⟨size, rfl, rfl⟩)⟩
  | free p =>
      simp only [heapStep] at hstep
      cases hfind : s.live.find? (·.addr == p) with
      | none =>
          rw [hfind] at hstep
          cases hstep
      | some a =>
          have ha := List.mem_of_find?_eq_some hfind
          have hp : a.addr = p := by simpa using List.find?_some hfind
          obtain ⟨m, heq, hinv⟩ := hi.free hfit ha (hok a ha hp)
          rw [hfind] at hstep
          simp only [← hp, heq] at hstep
          cases hstep
          exact ⟨hinv, .inr (.inr ⟨a, ha, by rw [hp], rfl⟩)⟩

theorem HeapInv.free_returns (hfit : h.TableFits) (hi : HeapInv h s)
    {a : Allocation} (ha : a ∈ s.live) (htail : hasTail a.size = false) :
    ∃ s', heapStep h s (.free a.addr) = some s' := by
  have hfind : s.live.find? (·.addr == a.addr) = some a := by
    cases hf : s.live.find? (·.addr == a.addr) with
    | none => simpa using List.find?_eq_none.mp hf a ha
    | some b =>
        have hb := List.mem_of_find?_eq_some hf
        have haddr : b.addr = a.addr := by simpa using List.find?_some hf
        have hxb : b.addr ∈ b.held h :=
          Span.mem_iff.mpr ⟨le_refl _, (hi.shaped b hb).held_proper⟩
        have hxa : b.addr ∈ a.held h := haddr ▸
          Span.mem_iff.mpr ⟨le_refl _, (hi.shaped a ha).held_proper⟩
        rw [hi.eq_of_held hb ha hxb hxa]
  obtain ⟨m, heq, -⟩ := hi.free hfit ha htail
  exact ⟨⟨m, s.live.erase a⟩, by simp only [heapStep, hfind, heq]⟩

/-! ## The reserved bytes cover the request -/

theorem pagesOf_eq {size : Nat} (hcount : CountsPages size) :
    pagesOf size = (size + (pageSize - 1)) / pageSize := by
  unfold CountsPages at hcount
  have hcases : pageCount size =
      BitVec.ofNat 32 ((size + (pageSize - 1)) / pageSize) := by
    simp only [pageCount]
    split_ifs with hrest
    · rw [show (1 : CInt) = BitVec.ofNat 32 1 from rfl, ← BitVec.ofNat_add]
      congr 1
      unfold pageSize at *
      omega
    · rw [ne_eq, not_not] at hrest
      congr 1
      unfold pageSize at *
      omega
  rw [pagesOf, hcases, CInt.toInt_ofNat hcount]
  rfl

theorem le_blockTotal (size : Nat) : size ≤ blockTotal size * mallocSize ∧
    blockTotal size * mallocSize < size + mallocSize := by
  unfold blockTotal mallocSize
  split_ifs <;> omega

theorem Allocation.Shaped.range_le_held {a : Allocation} (hs : a.Shaped h)
    (hcount : CountsPages a.size) : a.range.hi ≤ (a.held h).hi := by
  have hpages := pagesOf_eq hcount
  have hpos := hs.pos
  have hblk : (a.blocks h).hi = (a.blocks h).lo + blockTotal (a.size % pageSize) :=
    rfl
  change a.addr + a.size ≤ _
  by_cases hsmall : a.size ≤ allocableSize
  · obtain ⟨hu, hmod⟩ := usesBlocks_of_small hpos hsmall
    have haddr := hs.aligned
    have hround := (le_blockTotal a.size).1
    rw [hmod] at hblk
    simp only [Allocation.held, hu, if_true, hs.small_lastPage hsmall, hblk]
    unfold mallocSize at *
    omega
  · have haddr := hs.large_addr (by omega)
    have hlast := hs.lastPage_succ
    have hrun : (a.pages h).hi = h.pageOf a.addr + pagesOf a.size := rfl
    by_cases hu : usesBlocks a.size = true
    · have hrest := of_decide_eq_true hu
      have hround := (le_blockTotal (a.size % pageSize)).1
      rw [hs.whole (by omega)] at hblk
      simp only [Allocation.held, hu, if_true, hblk]
      unfold Heap.base pageSize mallocSize at *
      omega
    · simp only [Allocation.held, if_neg hu, hrun]
      unfold Heap.base pageSize at *
      omega

theorem HeapInv.ranges_apart (hi : HeapInv h s)
    (hcount : ∀ a ∈ s.live, CountsPages a.size) :
    s.live.Pairwise fun x y => x.range.Apart y.range := by
  refine hi.apart.imp_of_mem fun {x y} hx hy hxy => ?_
  have hle := (hi.shaped x hx).range_le_held (hcount x hx)
  have hle' := (hi.shaped y hy).range_le_held (hcount y hy)
  have hlo : x.range.lo = (x.held h).lo := rfl
  have hlo' : y.range.lo = (y.held h).lo := rfl
  unfold Span.Apart at *
  omega

end Step

/-! ## What holds in every state reached -/

section Runs

variable {b : Board} {m₀ : Memory} {s : HeapState}

theorem heapInv_of_reaches (hrun : Reaches (stepRel (heapStep b.heap))
    (KeepsLedger b.heap) (heapInit b.toRegion m₀) s) : HeapInv b.heap s :=
  hrun.invariant (heapInv_init b.toRegion m₀) fun _ _ _ hi hok hstep =>
    (hi.step b.tableFits hok hstep).1

theorem countsPages_of_reaches (hrun : Reaches (stepRel (heapStep b.heap))
    (KeepsRanges b.heap) (heapInit b.toRegion m₀) s) :
    HeapInv b.heap s ∧ ∀ a ∈ s.live, CountsPages a.size := by
  refine hrun.invariant (P := fun s => HeapInv b.heap s ∧
    ∀ a ∈ s.live, CountsPages a.size)
    ⟨heapInv_init b.toRegion m₀, by simp [heapInit]⟩ ?_
  rintro t op u ⟨hi, hcount⟩ hok hstep
  obtain ⟨hinv, hchange⟩ := hi.step b.tableFits hok.1 hstep
  refine ⟨hinv, ?_⟩
  rcases hchange with ⟨p, size, rfl, hlive⟩ | ⟨-, -, rfl⟩ | ⟨a, ha, -, hlive⟩
  · rw [hlive]
    rintro a (_ | ⟨_, ha⟩)
    · exact hok.2 size rfl
    · exact hcount a ha
  · exact hcount
  · rw [hlive]
    exact fun c hc => hcount c (List.mem_of_mem_erase hc)

theorem endFree_of_one_block (h : Heap) (m : Memory) {size : Nat}
    (hone : blockTotal size = 1) : EndFree h m size := by
  intro _ k _ _ _ i hfit
  rw [hone] at hfit ⊢
  exact hfit.1.isBlockFree (le_refl i) (.inl rfl)

theorem exists_state_of_live {h : Heap} {s₀ : HeapState} {ops : List HeapOp}
    {live : List Allocation}
    (hrun : (exec (heapStep h) s₀ ops).map HeapState.live = some live) :
    ∃ s, exec (heapStep h) s₀ ops = some s ∧ s.live = live := by
  simpa [Option.map_eq_some_iff] using hrun

theorem two_blocks_live : (exec (heapStep twoPages.heap)
    (heapInit twoPages.toRegion fun _ => 0) [.malloc 4, .malloc 4]).map
      HeapState.live = some [⟨0x80008004, 4⟩, ⟨0x80008000, 4⟩] := by
  decide +kernel

theorem two_blocks_ok : ∀ op ∈ [HeapOp.malloc 4, HeapOp.malloc 4],
    ∀ t, KeepsRanges twoPages.heap t op := by
  rintro op hop t
  have hop' : op = .malloc 4 := by simpa using hop
  subst hop'
  refine ⟨endFree_of_one_block _ _ rfl, ?_⟩
  rintro size ⟨⟩
  decide

/-- In every state reached by steps that keep the ranges, the bytes of any two
live allocations are disjoint. -/
theorem live_ranges_disjoint (b : Board) (m₀ : Memory) (s : HeapState)
    (hrun : Reaches (stepRel (heapStep b.heap)) (KeepsRanges b.heap)
      (heapInit b.toRegion m₀) s) :
    s.live.Pairwise fun x y => x.range.Apart y.range := by
  obtain ⟨hi, hcount⟩ := countsPages_of_reaches hrun
  exact hi.ranges_apart hcount

theorem live_ranges_disjoint_of_two_blocks :
    ∃ s : HeapState, s.live = [⟨0x80008004, 4⟩, ⟨0x80008000, 4⟩] ∧
      s.live.Pairwise fun x y => x.range.Apart y.range := by
  obtain ⟨s, hexec, hs⟩ := exists_state_of_live two_blocks_live
  exact ⟨s, hs, live_ranges_disjoint twoPages (fun _ => 0) s
    (Reaches.exec .refl two_blocks_ok hexec)⟩

/-- Not every run keeps the live allocations apart: after the first of two
one-block allocations is freed, a request of two blocks gets its block and the
block of the second. -/
theorem live_ranges_overlap :
    ¬∀ (b : Board) (m₀ : Memory) (s : HeapState),
      Reaches (stepRel (heapStep b.heap)) anyLabel (heapInit b.toRegion m₀) s →
      s.live.Pairwise fun x y => x.range.Apart y.range := by
  intro hall
  have hlive : (exec (heapStep twoPages.heap)
      (heapInit twoPages.toRegion fun _ => 0)
      [.malloc 4, .malloc 4, .free 0x80008000, .malloc 8]).map HeapState.live =
      some [⟨0x80008000, 8⟩, ⟨0x80008004, 4⟩] := by
    decide +kernel
  obtain ⟨s, hexec, hs⟩ := exists_state_of_live hlive
  have hapart := hall twoPages (fun _ => 0) s
    (Reaches.exec .refl (fun _ _ _ => trivial) hexec)
  rw [hs] at hapart
  simp [Span.Apart, Allocation.range] at hapart

/-! ## The tables are right and nothing leaks -/

/-- The counters of the block tables are right, malloc controls the pages on
which a live allocation has blocks and no others, and the page table is clear if
nothing is live. -/
structure BooksRight (h : Heap) (s : HeapState) : Prop where
  usage : ∀ k < h.numPages, isMalloced s.mem (h.desc k) = true →
    getMemoryUsage s.mem (h.blockStart k) = takenBlocks s.mem (h.blockStart k)
  controlled : ∀ k < h.numPages, isMalloced s.mem (h.desc k) = true ↔
    ∃ a ∈ s.live, usesBlocks a.size = true ∧ a.lastPage h = k
  noLeak : s.live = [] → ∀ k < h.numPages, s.mem (h.desc k) = 0

theorem HeapInv.desc_eq_zero_iff {h : Heap} {s : HeapState} (hi : HeapInv h s)
    {k : Nat} (hk : k < h.numPages) :
    s.mem (h.desc k) = 0 ↔ ∀ a ∈ s.live, k ∉ a.pages h := by
  obtain ⟨S, hS⟩ := hi.pages
  constructor
  · intro hzero a ha hka
    have hs := hi.shaped a ha
    obtain ⟨I, hI, hIhi, hlarge⟩ := hS.covered a ha
    have hkI : k ∈ I := by
      by_cases hsmall : a.size ≤ allocableSize
      · have hproper := hS.separated.proper I hI
        have hpages := hs.small_pages hsmall
        have hlast := hs.lastPage_succ
        rw [hpages, Span.mem_iff] at hka
        rw [Span.mem_iff]
        simp only at hka
        omega
      · rw [hlarge (by omega)]
        exact hka
    have htaken := (hS.table.flags_of_mem hI hkI).1
    rw [isPageFree, hzero] at htaken
    exact absurd htaken (by decide)
  · intro hout
    refine hS.table.free k hk fun I hI hkI => ?_
    obtain ⟨a, ha, rfl⟩ := hS.owned I hI
    exact hout a ha hkI

theorem HeapInv.booksRight {h : Heap} {s : HeapState} (hi : HeapInv h s) :
    BooksRight h s where
  usage k hk hmal := (hi.blocks k ((hi.isMalloced_iff hk).mp hmal)).usage
  controlled k hk := (hi.isMalloced_iff hk).trans blockPage_iff
  noLeak hlive k hk := (hi.desc_eq_zero_iff hk).mpr (by simp [hlive])

theorem HeapInv.free_gives_back {h : Heap} {s s' : HeapState}
    (hfit : h.TableFits) (hi : HeapInv h s) {a : Allocation} (ha : a ∈ s.live)
    (htail : hasTail a.size = false)
    (hstep : heapStep h s (.free a.addr) = some s') {k : Nat}
    (hk : k < h.numPages) (hmal : isMalloced s.mem (h.desc k) = true) :
    s'.mem (h.desc k) = 0 ↔
      ∀ c ∈ s'.live, ¬(usesBlocks c.size = true ∧ c.lastPage h = k) := by
  have hok : KeepsLedger h s (.free a.addr) := fun c hc haddr => by
    have hx : ∀ d ∈ s.live, d.addr = a.addr → a.addr ∈ d.held h := fun d hd hda =>
      hda ▸ Span.mem_iff.mpr ⟨le_refl _, (hi.shaped d hd).held_proper⟩
    rw [hi.eq_of_held hc ha (hx c hc haddr) (hx a ha rfl)]
    exact htail
  obtain ⟨hi', hchange⟩ := hi.step hfit hok hstep
  have hsub : ∀ c ∈ s'.live, c ∈ s.live := by
    rcases hchange with ⟨_, _, ⟨⟩, -⟩ | ⟨_, ⟨⟩, -⟩ | ⟨d, -, -, hlive⟩
    rw [hlive]
    exact fun c hc => List.mem_of_mem_erase hc
  rw [hi'.desc_eq_zero_iff hk]
  constructor
  · rintro hout c hc ⟨-, rfl⟩
    exact hout c hc (hi'.shaped c hc).lastPage_mem
  · intro hnone c hc hkc
    exact hnone c hc (hi.usesBlocks_of_pages (hsub c hc) hkc
      ((hi.isMalloced_iff hk).mp hmal))

/-- In every state reached by steps that keep the ledger, the counters are right
and nothing has leaked; a further free returns, and gives a page of blocks back
exactly if no block of it is left in use. -/
theorem books_right_of_reaches (b : Board) (m₀ : Memory) (s : HeapState)
    (hrun : Reaches (stepRel (heapStep b.heap)) (KeepsLedger b.heap)
      (heapInit b.toRegion m₀) s) :
    BooksRight b.heap s ∧
      ∀ a ∈ s.live, hasTail a.size = false →
        ∃ s', heapStep b.heap s (.free a.addr) = some s' ∧
          ∀ k < b.heap.numPages, isMalloced s.mem (b.heap.desc k) = true →
            (s'.mem (b.heap.desc k) = 0 ↔ ∀ c ∈ s'.live,
              ¬(usesBlocks c.size = true ∧ c.lastPage b.heap = k)) := by
  have hi := heapInv_of_reaches hrun
  refine ⟨hi.booksRight, fun a ha htail => ?_⟩
  obtain ⟨s', hstep⟩ := hi.free_returns b.tableFits ha htail
  exact ⟨s', hstep, fun k hk hmal =>
    hi.free_gives_back b.tableFits ha htail hstep hk hmal⟩

theorem books_right_of_two_blocks :
    ∃ s : HeapState, s.live = [⟨0x80008004, 4⟩, ⟨0x80008000, 4⟩] ∧
      BooksRight twoPages.heap s := by
  obtain ⟨s, hexec, hs⟩ := exists_state_of_live two_blocks_live
  exact ⟨s, hs, (books_right_of_reaches twoPages (fun _ => 0) s
    (Reaches.exec .refl (fun op hop t => (two_blocks_ok op hop t).1) hexec)).1⟩

/-- A page can leak: the request of two blocks is counted in full although one
of its blocks was counted already, and the counter never returns to zero. -/
theorem books_wrong :
    ¬∀ (b : Board) (m₀ : Memory) (s : HeapState),
      Reaches (stepRel (heapStep b.heap)) anyLabel (heapInit b.toRegion m₀) s →
      BooksRight b.heap s := by
  intro hall
  have hend : (exec (heapStep twoPages.heap)
      (heapInit twoPages.toRegion fun _ => 0)
      [.malloc 4, .malloc 4, .free 0x80008000, .malloc 8, .free 0x80008000,
        .free 0x80008004]).map (fun s => (s.live, s.mem (twoPages.heap.desc 0))) =
      some ([], 15) := by
    decide +kernel
  obtain ⟨s, hexec, hs⟩ := Option.map_eq_some_iff.mp hend
  obtain ⟨hlive, hbyte⟩ := Prod.mk.inj hs
  have hzero := (hall twoPages (fun _ => 0) s
    (Reaches.exec .refl (fun _ _ _ => trivial) hexec)).noLeak hlive 0 (by decide)
  rw [hbyte] at hzero
  exact absurd hzero (by decide)

end Runs

end XinOS.Page
