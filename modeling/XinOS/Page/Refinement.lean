import XinOS.Page.Runs
import XinOS.Foundation.Transition

/-!
# The page allocator as an allocator of intervals

The abstract allocator keeps a set of disjoint page intervals.  Allocation adds
an interval of free pages; a free cuts the interval that holds the page off
before that page.  Every run of `page_alloc` and `page_free` from `page_init`
is matched by it.
-/

namespace XinOS.Page

open XinOS.Foundation

inductive PageOp where
  | alloc (npages : CInt)
  | free (q : Nat)

def pageStep (h : Heap) (m : Memory) : PageOp → Option Memory
  | .alloc npages => some (pageAlloc h npages m).2
  | .free q => pageFree h m q

def Heap.InPage (h : Heap) (q k : Nat) : Prop := h.base k ≤ q ∧ q < h.base (k + 1)

def Heap.Runs (h : Heap) (m : Memory) (S : SpanSet h.numPages) : Prop :=
  h.TableEncodes m (fun _ => false) S.spans

inductive IntervalStep (h : Heap) :
    SpanSet h.numPages → PageOp → SpanSet h.numPages → Prop
  | add {S : SpanSet h.numPages} (n : CInt) (I : Span) (hlt : I.lo < I.hi)
      (hN : I.hi ≤ h.numPages) (hfree : ∀ k ∈ I, S.Free k)
      (hsize : I.lo + n.toInt = I.hi) :
      IntervalStep h S (.alloc n) (S.add I hlt hN hfree)
  | refuse {S : SpanSet h.numPages} (n : CInt) : IntervalStep h S (.alloc n) S
  | cut {S : SpanSet h.numPages} (q : Nat) (I : Span) (hI : I ∈ S) (k : Nat)
      (hk : k ∈ I) (hq : h.InPage q k) :
      IntervalStep h S (.free q) (S.cut I hI k hk)
  | ignore {S : SpanSet h.numPages} (q : Nat)
      (hq : ∀ I ∈ S, ∀ k ∈ I, ¬h.InPage q k) : IntervalStep h S (.free q) S

section Simulation

variable {h : Heap} {m : Memory} {S : SpanSet h.numPages}

theorem runs_pageInit (r : Region) (m : Memory) :
    r.heap.Runs (pageInit r m).2 .empty := by
  refine Encodes.of_blank fun k hk => ?_
  simp only [pageInit]
  rw [Memory.modifyRange_apply, if_pos (by unfold Heap.desc; omega)]

theorem Heap.exists_inPage (h : Heap) {q : Nat} (hlo : h.allocStart ≤ q)
    (hhi : q < h.allocEnd) : ∃ k < h.numPages, h.InPage q k := by
  have hend := h.allocEnd_eq
  refine ⟨(q - h.allocStart) / pageSize, ?_, ?_⟩
  · unfold pageSize at *
    omega
  · unfold InPage base pageSize
    omega

theorem Heap.Runs.alloc (he : h.Runs m S) (hN : h.numPages < 2 ^ 31)
    (n : CInt) :
    (∃ a, ∃ I : Span, ∃ hlt hIN hfree, (pageAlloc h n m).1 = some a ∧
      I.lo + n.toInt = I.hi ∧
      h.Runs (pageAlloc h n m).2 (S.add I hlt hIN hfree)) ∨
    pageAlloc h n m = (none, m) := by
  rcases pageAlloc_cases h hN n m with ⟨i, hn, hNi, hfree, -, heq⟩ | ⟨heq, -⟩
  · left
    have hdisj := he.runFree_disjoint hNi hfree
    refine ⟨h.runAddr i, ⟨i, i + n.toInt.toNat⟩, by simp only; omega, hNi,
      fun k hk J hJ hkJ => hdisj J hJ k hkJ hk, by rw [heq],
      by simp only; omega, ?_⟩
    rw [heq]
    exact he.markRun S.separated (by omega) hNi hfree fun _ _ _ => rfl
  · exact .inr heq

theorem Heap.Runs.free_ignore (he : h.Runs m S) {q : Nat}
    (hq : ∀ I ∈ S, ∀ k ∈ I, ¬h.InPage q k) :
    ∃ stop, pageFreeTrace h m q = some (m, stop) ∧
      ∀ a ∈ stop, ∃ k < h.numPages, a = h.desc k := by
  by_cases hout : q = 0 ∨ q ≥ h.allocEnd ∨ q < h.allocStart
  · exact ⟨none, by rw [pageFreeTrace, if_pos hout], by simp⟩
  · obtain ⟨k, hkN, hk⟩ := h.exists_inPage (q := q) (by omega) (by omega)
    refine ⟨some (h.desc k), he.pageFreeTrace_free hkN
      (fun I hI hkI => hq I hI k hkI hk) hk.1 hk.2, ?_⟩
    rintro a ⟨⟩
    exact ⟨k, hkN, rfl⟩

theorem Heap.Runs.free_cut (he : h.Runs m S) (hN : h.numPages < 2 ^ 31)
    {q k : Nat} {I : Span} (hI : I ∈ S) (hk : k ∈ I) (hq : h.InPage q k) :
    ∃ m' stop, pageFreeTrace h m q = some (m', stop) ∧
      (∀ a ∈ stop, ∃ k < h.numPages, a = h.desc k) ∧
      h.Runs m' (S.cut I hI k hk) := by
  have htrace := he.pageFreeTrace_run S.separated hN hI hk hq.1 hq.2
  refine ⟨_, _, htrace, ?_, he.cutRun S.separated hI hk⟩
  rintro a ⟨⟩
  have hlt := S.separated.proper I hI
  have hNI := S.separated.inside I hI
  exact ⟨I.hi - 1, by omega, rfl⟩

theorem Heap.Runs.step (he : h.Runs m S) (hN : h.numPages < 2 ^ 31)
    {op : PageOp} {m' : Memory} (hstep : pageStep h m op = some m') :
    ∃ S', IntervalStep h S op S' ∧ h.Runs m' S' := by
  cases op with
  | alloc n =>
      simp only [pageStep, Option.some.injEq] at hstep
      subst hstep
      rcases he.alloc hN n with ⟨a, I, hlt, hIN, hfree, -, hsize, hrun⟩ | heq
      · exact ⟨_, .add n I hlt hIN hfree hsize, hrun⟩
      · rw [heq]
        exact ⟨S, .refuse n, he⟩
  | free q =>
      by_cases hq : ∃ I, ∃ _ : I ∈ S, ∃ k ∈ I, h.InPage q k
      · obtain ⟨I, hI, k, hk, hqk⟩ := hq
        obtain ⟨m₁, stop, htrace, -, hrun⟩ := he.free_cut hN hI hk hqk
        rw [pageStep, pageFree, htrace] at hstep
        cases hstep
        exact ⟨_, .cut q I hI k hk hqk, hrun⟩
      · have hq' : ∀ I ∈ S, ∀ k ∈ I, ¬h.InPage q k :=
          fun I hI k hk hqk => hq ⟨I, hI, k, hk, hqk⟩
        obtain ⟨stop, htrace, -⟩ := he.free_ignore hq'
        rw [pageStep, pageFree, htrace] at hstep
        cases hstep
        exact ⟨S, .ignore q hq', he⟩

end Simulation

theorem runs_of_reaches {r : Region} (hN : r.heap.numPages < 2 ^ 31)
    {m₀ m : Memory}
    (hrun : Reaches (stepRel (pageStep r.heap)) anyLabel (pageInit r m₀).2 m) :
    ∃ S, r.heap.Runs m S := by
  refine hrun.invariant (P := fun m => ∃ S, r.heap.Runs m S)
    ⟨_, runs_pageInit r m₀⟩ fun m op m' hm _ hstep => ?_
  obtain ⟨S, he⟩ := hm
  obtain ⟨S', -, he'⟩ := he.step hN hstep
  exact ⟨S', he'⟩

/--
In every state that `page_alloc` and `page_free` reach from `page_init`, the
page table encodes a set of disjoint intervals, and each further call acts on
that set as the abstract allocator does.  The loop of `page_free` stops on a
descriptor of the table.
-/
theorem page_allocator_refines_intervals (r : Region)
    (hN : r.heap.numPages < 2 ^ 31) (m₀ m : Memory)
    (hrun : Reaches (stepRel (pageStep r.heap)) anyLabel (pageInit r m₀).2 m) :
    ∃ S : SpanSet r.heap.numPages, r.heap.Runs m S ∧
      (∀ n : CInt,
        (∃ a, ∃ I : Span, ∃ hlt hIN hfree,
          (pageAlloc r.heap n m).1 = some a ∧ I.lo + n.toInt = I.hi ∧
          r.heap.Runs (pageAlloc r.heap n m).2 (S.add I hlt hIN hfree)) ∨
        pageAlloc r.heap n m = (none, m)) ∧
      (∀ q I k, ∀ hI : I ∈ S, ∀ hk : k ∈ I, r.heap.InPage q k →
        ∃ m', pageFree r.heap m q = some m' ∧
          r.heap.Runs m' (S.cut I hI k hk)) ∧
      (∀ q, (∀ I ∈ S, ∀ k ∈ I, ¬r.heap.InPage q k) →
        pageFree r.heap m q = some m) ∧
      (∀ q, ∃ m' stop, pageFreeTrace r.heap m q = some (m', stop) ∧
        ∀ a ∈ stop, ∃ k < r.heap.numPages, a = r.heap.desc k) := by
  obtain ⟨S, he⟩ := runs_of_reaches hN hrun
  refine ⟨S, he, fun n => he.alloc hN n, ?_, ?_, ?_⟩
  · intro q I k hI hk hq
    obtain ⟨m', stop, htrace, -, hcut⟩ := he.free_cut hN hI hk hq
    exact ⟨m', by rw [pageFree, htrace]; rfl, hcut⟩
  · intro q hq
    obtain ⟨stop, htrace, -⟩ := he.free_ignore hq
    rw [pageFree, htrace]
    rfl
  · intro q
    by_cases hq : ∃ I, ∃ _ : I ∈ S, ∃ k ∈ I, r.heap.InPage q k
    · obtain ⟨I, hI, k, hk, hqk⟩ := hq
      obtain ⟨m', stop, htrace, hstop, -⟩ := he.free_cut hN hI hk hqk
      exact ⟨m', stop, htrace, hstop⟩
    · obtain ⟨stop, htrace, hstop⟩ := he.free_ignore
        fun I hI k hk hqk => hq ⟨I, hI, k, hk, hqk⟩
      exact ⟨m, stop, htrace, hstop⟩

def fourPages : Region where
  build := .rv64
  heapStart := 0x80000000#64
  heapSize := 0xC000#64
  reserve := by decide
  inSpace := by decide
  endAligned := by decide

theorem page_allocator_refines_intervals_of_cut :
    ∃ m, exec (pageStep fourPages.heap) (pageInit fourPages fun _ => 0xFF).2
        [.alloc 3, .free 0x80009000] = some m ∧
      ∃ S : SpanSet fourPages.heap.numPages, fourPages.heap.Runs m S := by
  have hsome : (exec (pageStep fourPages.heap)
      (pageInit fourPages fun _ => 0xFF).2 [.alloc 3, .free 0x80009000]).isSome := by
    decide +kernel
  obtain ⟨m, hexec⟩ := Option.isSome_iff_exists.mp hsome
  obtain ⟨S, hruns, -⟩ := page_allocator_refines_intervals fourPages
    (by decide +kernel) (fun _ => 0xFF) m
    (Reaches.exec .refl (fun _ _ _ => trivial) hexec)
  exact ⟨m, hexec, S, hruns⟩

end XinOS.Page
