import XinOS.Page.Table
import XinOS.Foundation.Flags

/-!
# The page runs that the page table encodes

`pageMark` is the flag byte of a page inside a run.  `page_alloc` marks a run of
free pages, and `page_free` cuts the run around its argument off before that
page; both are stated here as changes of the encoded set.
-/

namespace XinOS.Page

open XinOS.Foundation

/-! ## What `page_alloc` finds -/

theorem endPage_toInt {N : Nat} (hN : N < 2 ^ 31) {n : CInt}
    (hn : 1 ≤ n.toInt) : (BitVec.ofNat 32 N - n).toInt = N - n.toInt := by
  have hlt : n.toInt < 2 ^ 31 := BitVec.toInt_lt
  have hcast := CInt.toInt_ofNat hN
  rw [CInt.toInt_sub] <;> omega

theorem Heap.skipPages_eq (h : Heap) {a i : Nat} (hint : i < 2 ^ 19)
    (hspace : a + i * pageSize < 2 ^ h.xlen) :
    h.skipPages a (BitVec.ofNat 32 i) = a + i * pageSize := by
  have hmul : (BitVec.ofNat 32 i * BitVec.ofNat 32 pageSize : CInt).toInt =
      i * pageSize := by
    rw [← BitVec.ofNat_mul, CInt.toInt_ofNat]
    · push_cast
      rfl
    · unfold pageSize
      omega
  rw [skipPages, hmul,
    show (a : Int) + i * pageSize = ((a + i * pageSize : Nat) : Int) by push_cast; rfl,
    show (2 : Int) ^ h.xlen = ((2 ^ h.xlen : Nat) : Int) by push_cast; rfl,
    ← Int.natCast_mod, Int.toNat_natCast, Nat.mod_eq_of_lt hspace]

def Heap.runAddr (h : Heap) (i : Nat) : Nat :=
  h.skipPages h.allocStart (BitVec.ofNat 32 i)

theorem Heap.runAddr_eq (h : Heap) {i : Nat} (hi : i < h.numPages)
    (hint : i < 2 ^ 19) : h.runAddr i = h.base i := by
  have hend := h.allocEnd_eq
  have hspace := h.inSpace
  refine h.skipPages_eq hint ?_
  unfold pageSize at *
  omega

def Heap.RunFree (h : Heap) (m : Memory) (i n : Nat) : Prop :=
  ∀ j < n, isPageFree m (h.desc (i + j)) = true

theorem pageRunFree_desc_iff {h : Heap} {m : Memory} {i n : Nat} (hn : 1 ≤ n) :
    pageRunFree m (h.desc i) n = true ↔ h.RunFree m i n := by
  rw [pageRunFree_iff hn]
  simp only [Heap.RunFree, Heap.desc, Nat.add_assoc]

/-- First fit: `page_alloc` takes the first run of free pages that is long
enough, and otherwise changes nothing. -/
theorem pageAlloc_cases (h : Heap) (hN : h.numPages < 2 ^ 31) (n : CInt)
    (m : Memory) :
    (∃ i, 1 ≤ n.toInt ∧ i + n.toInt.toNat ≤ h.numPages ∧
      h.RunFree m i n.toInt.toNat ∧
      (∀ i' < i, ¬h.RunFree m i' n.toInt.toNat) ∧
      pageAlloc h n m =
        (some (h.runAddr i), markRun m (h.desc i) n.toInt.toNat)) ∨
    (pageAlloc h n m = (none, m) ∧ (1 ≤ n.toInt →
      ∀ i, i + n.toInt.toNat ≤ h.numPages → ¬h.RunFree m i n.toInt.toNat)) := by
  by_cases hn : n.toInt < 1
  · right
    exact ⟨by simp [pageAlloc, hn], fun hge => absurd hge (by omega)⟩
  · have hn1 : 1 ≤ n.toInt := by omega
    have hpos : 1 ≤ n.toInt.toNat := by omega
    have hend := endPage_toInt hN hn1
    cases hfind : (List.range
        ((BitVec.ofNat 32 h.numPages - n).toInt + 1).toNat).find?
        (fun i => pageRunFree m (h.desc i) n.toInt.toNat) with
    | none =>
        right
        refine ⟨by simp only [pageAlloc, if_neg hn, hfind], fun _ i hi => ?_⟩
        have := List.find?_range_eq_none.mp hfind i (by rw [hend]; omega)
        rwa [Bool.not_eq_true', ← Bool.not_eq_true,
          pageRunFree_desc_iff hpos] at this
    | some i =>
        left
        obtain ⟨hfree, hmem, hfirst⟩ := List.find?_range_eq_some.mp hfind
        rw [List.mem_range, hend] at hmem
        refine ⟨i, hn1, by omega, (pageRunFree_desc_iff hpos).mp hfree,
          fun i' hi' => ?_, by simp only [pageAlloc, if_neg hn, hfind,
            Heap.runAddr]⟩
        have := hfirst i' hi'
        rwa [Bool.not_eq_true', ← Bool.not_eq_true,
          pageRunFree_desc_iff hpos] at this

/-! ## The encoded set -/

/-- The flag byte of page `k` in the run `I`; `mal` says which pages malloc
controls. -/
def pageMark (mal : Nat → Bool) (I : Span) (k : Nat) : Byte :=
  flagByte (decide (k = I.lo)) (decide (k + 1 = I.hi)) (mal k)

def Heap.TableEncodes (h : Heap) (m : Memory) (mal : Nat → Bool)
    (S : Set Span) : Prop :=
  Encodes 0 (pageMark mal) (fun k => m (h.desc k)) h.numPages S

section Encoded

variable {h : Heap} {m : Memory} {mal : Nat → Bool} {S : Set Span}

theorem Heap.TableEncodes.flags_of_mem (he : h.TableEncodes m mal S)
    {I : Span} (hI : I ∈ S) {k : Nat} (hk : k ∈ I) :
    isPageFree m (h.desc k) = false ∧
    isPageFirst m (h.desc k) = decide (k = I.lo) ∧
    isPageLast m (h.desc k) = decide (k + 1 = I.hi) ∧
    isMalloced m (h.desc k) = mal k := by
  have hbyte : m (h.desc k) = pageMark mal I k := he.held I hI k hk
  simpa only [isPageFree, isPageFirst, isPageLast, isMalloced, hbyte,
    pageMark] using
    flagByte_flags (decide (k = I.lo)) (decide (k + 1 = I.hi)) (mal k)

theorem Heap.TableEncodes.flags_of_free (he : h.TableEncodes m mal S)
    {k : Nat} (hk : k < h.numPages) (hfree : ∀ I ∈ S, k ∉ I) :
    isPageFree m (h.desc k) = true ∧ isPageFirst m (h.desc k) = false ∧
    isPageLast m (h.desc k) = false ∧ isMalloced m (h.desc k) = false := by
  have hbyte : m (h.desc k) = 0 := he.free k hk hfree
  simp [isPageFree, isPageFirst, isPageLast, isMalloced, hbyte]

theorem Heap.TableEncodes.isPageFree_iff (he : h.TableEncodes m mal S)
    {k : Nat} (hk : k < h.numPages) :
    isPageFree m (h.desc k) = true ↔ ∀ I ∈ S, k ∉ I := by
  constructor
  · intro hfree I hI hkI
    rw [(he.flags_of_mem hI hkI).1] at hfree
    contradiction
  · exact fun hfree => (he.flags_of_free hk hfree).1

theorem Heap.TableEncodes.runFree_disjoint (he : h.TableEncodes m mal S)
    {i n : Nat} (hN : i + n ≤ h.numPages) (hfree : h.RunFree m i n) :
    ∀ J ∈ S, ∀ k ∈ J, k ∉ (⟨i, i + n⟩ : Span) := by
  rintro J hJ k hkJ ⟨hik, hkn⟩
  simp only at hik hkn
  have hk := hfree (k - i) (by omega)
  rw [Nat.add_sub_cancel' hik, he.isPageFree_iff (by omega)] at hk
  exact hk J hJ hkJ

theorem Heap.TableEncodes.markRun (he : h.TableEncodes m mal S)
    (hS : Separated h.numPages S) {i n : Nat} (hn : 1 ≤ n)
    (hN : i + n ≤ h.numPages) (hfree : h.RunFree m i n)
    (hmal : ∀ k, i ≤ k → k < i + n → mal k = false) :
    h.TableEncodes (Page.markRun m (h.desc i) n) mal
      (insert ⟨i, i + n⟩ S) := by
  refine Encodes.add he hS (he.runFree_disjoint hN hfree) (fun k hk => ?_) hN
  rw [markRun_apply _ _ _ hn]
  by_cases hkI : k ∈ (⟨i, i + n⟩ : Span)
  · have hblank : m (h.desc k) = 0 :=
      he.free k hk fun J hJ hkJ => he.runFree_disjoint hN hfree J hJ k hkJ hkI
    have hin : i ≤ k ∧ k < i + n := hkI
    rw [if_pos (by unfold Heap.desc; omega), if_pos hkI, hblank, pageMark,
      hmal k hin.1 hin.2]
    have hfirst : h.desc k = h.desc i ↔ k = i := by unfold Heap.desc; omega
    have hlast : h.desc k + 1 = h.desc i + n ↔ k + 1 = i + n := by
      unfold Heap.desc; omega
    simp only [hfirst, hlast]
    exact BitVec.zero_or
  · have hout : ¬(i ≤ k ∧ k < i + n) := hkI
    rw [if_neg (by unfold Heap.desc; omega), if_neg hkI]

/-! ## What `page_free` does -/

theorem pageFreeLoop_free {m : Memory} {page fuel : Nat}
    (hfree : isPageFree m page = true) :
    pageFreeLoop (fuel + 1) m page = some (m, page) := by
  simp [pageFreeLoop, hfree]

theorem pageFreeLoop_run (m : Memory) (page n : Nat) {fuel : Nat}
    (hfuel : n < fuel)
    (htaken : ∀ j ≤ n, isPageFree m (page + j) = false)
    (hinner : ∀ j < n, isPageLast m (page + j) = false)
    (hlast : isPageLast m (page + n) = true) :
    pageFreeLoop fuel m page =
      some (m.modifyRange (fun _ => 0) (n + 1) page, page + n) := by
  induction n generalizing page fuel m with
  | zero =>
      obtain ⟨fuel, rfl⟩ : ∃ f, fuel = f + 1 := ⟨fuel - 1, by omega⟩
      have h0 := htaken 0 (le_refl _)
      rw [Nat.add_zero] at h0 hlast
      simp [pageFreeLoop, h0, hlast, clearPage, Memory.modifyRange]
  | succ n ih =>
      obtain ⟨fuel, rfl⟩ : ∃ f, fuel = f + 1 := ⟨fuel - 1, by omega⟩
      have h0 := htaken 0 (by omega)
      have hl0 := hinner 0 (by omega)
      rw [Nat.add_zero] at h0 hl0
      have hrest := ih (clearPage m page) (page + 1) (by omega : n < fuel)
        (fun j hj => by
          rw [clearPage, isPageFree_modify_of_ne (by omega),
            show page + 1 + j = page + (j + 1) by omega]
          exact htaken (j + 1) (by omega))
        (fun j hj => by
          rw [clearPage, isPageLast_modify_of_ne (by omega),
            show page + 1 + j = page + (j + 1) by omega]
          exact hinner (j + 1) (by omega))
        (by
          rw [clearPage, isPageLast_modify_of_ne (by omega),
            show page + 1 + n = page + (n + 1) by omega]
          exact hlast)
      rw [pageFreeLoop, if_neg (by simp [h0]), if_neg (by simp [hl0]), hrest,
        show page + 1 + n = page + (n + 1) by omega]
      rfl

theorem closePrevPage_desc (h : Heap) (m : Memory) (k : Nat) :
    closePrevPage h m (h.desc k) =
      if isPageFirst m (h.desc k) = false ∧ 1 ≤ k ∧
          isPageFree m (h.desc (k - 1)) = false then
        setPageFlags m (h.desc (k - 1)) pageLast
      else m := by
  have hstart : getStartMemByPage h ((h.desc k : Int) - 1) ≥ h.allocStart ↔
      1 ≤ k := by
    unfold getStartMemByPage Heap.desc pageSize
    push_cast
    omega
  unfold closePrevPage
  simp only [hstart]
  cases hfirst : isPageFirst m (h.desc k) with
  | true => simp
  | false =>
      by_cases hk : 1 ≤ k
      · rw [show h.desc k - 1 = h.desc (k - 1) by unfold Heap.desc; omega]
        simp
      · simp [hk]

def Heap.pageFlags (h : Heap) (m : Memory) : Flags where
  taken k := !isPageFree m (h.desc k)
  first k := isPageFirst m (h.desc k)
  last k := isPageLast m (h.desc k)

theorem closePrevPage_of_le (h : Heap) (m : Memory) {j k : Nat} (hkj : k ≤ j) :
    closePrevPage h m (h.desc k) (h.desc j) = m (h.desc j) := by
  rw [closePrevPage_desc]
  split_ifs with hprev
  · exact Memory.modify_of_ne (by unfold Heap.desc; omega)
  · rfl

theorem Heap.desc_of_inPage (h : Heap) {p k : Nat} (hp : h.base k ≤ p)
    (hp' : p < h.base (k + 1)) :
    h.heapStart + (p - h.allocStart) / pageSize = h.desc k := by
  unfold base pageSize at hp hp'
  unfold pageSize desc
  omega

theorem Heap.pageFreeTrace_inPage {h : Heap} {m : Memory} {k p : Nat}
    (hk : k < h.numPages) (hp : h.base k ≤ p) (hp' : p < h.base (k + 1)) :
    pageFreeTrace h m p =
      (pageFreeLoop walkFuel (closePrevPage h m (h.desc k)) (h.desc k)).map
        fun r => (r.1, some r.2) := by
  have hstart := h.allocStart_pos
  have hlo := h.allocStart_le_base k
  have hend := h.base_le_allocEnd (by omega : k + 1 ≤ h.numPages)
  rw [pageFreeTrace, if_neg (by omega)]
  simp only [h.desc_of_inPage hp hp']

theorem Heap.pageFreeTrace_of_runsTo {h : Heap} {m : Memory} {k e p : Nat}
    (hN : h.numPages < 2 ^ 31) (hr : (h.pageFlags m).RunsTo k e)
    (he : e < h.numPages) (hp : h.base k ≤ p) (hp' : p < h.base (k + 1)) :
    pageFreeTrace h m p = some ((closePrevPage h m (h.desc k)).modifyRange
      (fun _ => 0) (e + 1 - k) (h.desc k), some (h.desc e)) := by
  have hle := hr.le
  have hdesc : ∀ j, h.desc k + j = h.desc (k + j) := fun j => by
    unfold Heap.desc
    omega
  have hkeep : ∀ j, closePrevPage h m (h.desc k) (h.desc (k + j)) =
      m (h.desc (k + j)) := fun j => closePrevPage_of_le h m (by omega)
  have hend : k + (e - k) = e := by omega
  have hloop := pageFreeLoop_run (closePrevPage h m (h.desc k)) (h.desc k)
    (e - k) (by unfold walkFuel; omega : e - k < walkFuel)
    (fun j hj => by
      have htaken := hr.taken (k + j) (by omega) (by omega)
      rw [hdesc, isPageFree, hkeep, ← isPageFree]
      simpa [Heap.pageFlags] using htaken)
    (fun j hj => by
      rw [hdesc, isPageLast, hkeep, ← isPageLast]
      exact hr.inner (k + j) (by omega) (by omega))
    (by
      rw [hdesc, isPageLast, hkeep, ← isPageLast, hend]
      exact hr.last)
  rw [h.pageFreeTrace_inPage (by omega) hp hp', hloop, hdesc, hend,
    show e - k + 1 = e + 1 - k by omega]
  rfl

theorem setPageFlags_self {m : Memory} {page : Nat} {flags : Byte}
    (h : m page ||| flags = m page) : setPageFlags m page flags = m := by
  funext b
  rw [setPageFlags, Memory.modify_apply]
  split_ifs with hb
  · rw [hb, h]
  · rfl

theorem or_pageLast_of_last {x : Byte} (hx : (x &&& pageLast != 0) = true) :
    x ||| pageLast = x := by
  revert hx
  revert x
  decide

theorem Heap.TableEncodes.closePrevPage_free (he : h.TableEncodes m mal S)
    {k : Nat} (hk : k < h.numPages)
    (hfree : ∀ I ∈ S, k ∉ I) : closePrevPage h m (h.desc k) = m := by
  rw [closePrevPage_desc]
  split_ifs with hprev
  · obtain ⟨-, hk1, htaken⟩ := hprev
    apply setPageFlags_self
    have hmem : ∃ I ∈ S, k - 1 ∈ I := by
      by_contra hnone
      rw [(he.isPageFree_iff (by omega)).mpr fun I hI hkI =>
        hnone ⟨I, hI, hkI⟩] at htaken
      contradiction
    obtain ⟨I, hI, hkI⟩ := hmem
    -- page `k` is not in the run of page `k - 1`, which therefore ends before it
    have hhi : k - 1 + 1 = I.hi := by
      have := hfree I hI
      rw [Span.mem_iff] at *
      omega
    have hlast := (he.flags_of_mem hI hkI).2.2.1
    rw [hhi, decide_eq_true rfl] at hlast
    exact or_pageLast_of_last hlast
  · rfl

def Heap.cutRun (h : Heap) (m : Memory) (I : Span) (k : Nat) : Memory :=
  (closePrevPage h m (h.desc k)).modifyRange (fun _ => 0) (I.hi - k) (h.desc k)

theorem Heap.TableEncodes.closePrevPage_apply (he : h.TableEncodes m mal S)
    {I : Span} (hI : I ∈ S) {k : Nat} (hk : k ∈ I) (b : Nat) :
    closePrevPage h m (h.desc k) b =
      if I.lo < k ∧ b + 1 = h.desc k then m b ||| pageLast else m b := by
  have hkI := Span.mem_iff.mp hk
  have hfirst := (he.flags_of_mem hI hk).2.1
  rw [closePrevPage_desc, hfirst]
  by_cases hlo : I.lo < k
  · have hprev : k - 1 ∈ I := Span.mem_iff.mpr (by omega)
    rw [if_pos ⟨by simp; omega, by omega, (he.flags_of_mem hI hprev).1⟩,
      setPageFlags, Memory.modify_apply]
    have hiff : b = h.desc (k - 1) ↔ I.lo < k ∧ b + 1 = h.desc k := by
      unfold Heap.desc
      omega
    simp only [hiff]
  · rw [if_neg (by simp; omega), if_neg (by omega)]

theorem Heap.TableEncodes.cutRun_apply (he : h.TableEncodes m mal S)
    {I : Span} (hI : I ∈ S) {k : Nat} (hk : k ∈ I) (b : Nat) :
    h.cutRun m I k b =
      if h.desc k ≤ b ∧ b < h.desc I.hi then 0
      else if I.lo < k ∧ b + 1 = h.desc k then m b ||| pageLast
      else m b := by
  have hkI := Span.mem_iff.mp hk
  rw [Heap.cutRun, Memory.modifyRange_apply, he.closePrevPage_apply hI hk]
  have hiff : b < h.desc k + (I.hi - k) ↔ b < h.desc I.hi := by
    unfold Heap.desc
    omega
  simp only [hiff]

theorem Heap.TableEncodes.runsTo (he : h.TableEncodes m mal S) {I : Span}
    (hI : I ∈ S) {k : Nat} (hk : k ∈ I) :
    (h.pageFlags m).RunsTo k (I.hi - 1) := by
  have hkI := Span.mem_iff.mp hk
  have hflags : ∀ j, k ≤ j → j ≤ I.hi - 1 →
      isPageFree m (h.desc j) = false ∧
      isPageLast m (h.desc j) = decide (j + 1 = I.hi) := by
    intro j hkj hj
    have hmem := he.flags_of_mem hI (Span.mem_iff.mpr (by omega) : j ∈ I)
    exact ⟨hmem.1, hmem.2.2.1⟩
  refine ⟨by omega, fun j hkj hj => ?_, fun j hkj hj => ?_, ?_⟩
  · simp [Heap.pageFlags, (hflags j hkj hj).1]
  · exact (hflags j hkj (by omega)).2.trans (decide_eq_false (by omega))
  · exact (hflags _ (by omega) (le_refl _)).2.trans (decide_eq_true (by omega))

/-- `page_free` on an address in page `k` of the run `I` cuts the run off before
page `k`; its loop stops at the last page of the run. -/
theorem Heap.TableEncodes.pageFreeTrace_run (he : h.TableEncodes m mal S)
    (hS : Separated h.numPages S) (hN : h.numPages < 2 ^ 31) {I : Span}
    (hI : I ∈ S) {k : Nat} (hk : k ∈ I) {p : Nat} (hp : h.base k ≤ p)
    (hp' : p < h.base (k + 1)) :
    pageFreeTrace h m p =
      some (h.cutRun m I k, some (h.desc (I.hi - 1))) := by
  have hkI := Span.mem_iff.mp hk
  have hhi := hS.inside I hI
  rw [h.pageFreeTrace_of_runsTo hN (he.runsTo hI hk) (by omega) hp hp',
    show I.hi - 1 + 1 - k = I.hi - k by omega]
  rfl

theorem Heap.TableEncodes.pageFreeTrace_free (he : h.TableEncodes m mal S)
    {k : Nat} (hk : k < h.numPages) (hfree : ∀ I ∈ S, k ∉ I) {p : Nat}
    (hp : h.base k ≤ p) (hp' : p < h.base (k + 1)) :
    pageFreeTrace h m p = some (m, some (h.desc k)) := by
  rw [h.pageFreeTrace_inPage hk hp hp', he.closePrevPage_free hk hfree,
    show walkFuel = (2 ^ 64 - 1) + 1 from rfl,
    pageFreeLoop_free (he.flags_of_free hk hfree).1]
  rfl

theorem Heap.TableEncodes.cutRun (he : h.TableEncodes m mal S)
    (hS : Separated h.numPages S) {I : Span} (hI : I ∈ S) {k : Nat}
    (hk : k ∈ I) : h.TableEncodes (h.cutRun m I k) mal (truncate S I k) := by
  refine Encodes.cut he hS hI hk (fun j hj hjk => ?_) (fun j hj => ?_)
  · have hjI := Span.mem_iff.mp hj
    have hkI := Span.mem_iff.mp hk
    simp only [pageMark]
    rw [decide_eq_false (by omega : ¬j + 1 = k),
      decide_eq_false (by omega : ¬j + 1 = I.hi)]
  · rw [he.cutRun_apply hI hk]
    have hcut : (h.desc k ≤ h.desc j ∧ h.desc j < h.desc I.hi) ↔
        (k ≤ j ∧ j < I.hi) := by unfold Heap.desc; omega
    have hprev : (I.lo < k ∧ h.desc j + 1 = h.desc k) ↔
        (I.lo < k ∧ j + 1 = k) := by unfold Heap.desc; omega
    simp only [hcut, hprev]
    split_ifs with h1 h2
    · rfl
    · have hjI : j ∈ I := by
        rw [Span.mem_iff] at *
        omega
      have hbyte : m (h.desc j) = pageMark mal I j := he.held I hI j hjI
      rw [hbyte, pageMark, pageMark, h2.2]
      generalize decide (j = I.lo) = first, decide (k = I.hi) = last, mal j = x
      rw [decide_eq_true rfl]
      revert first last x
      decide
    · rfl

end Encoded

end XinOS.Page
