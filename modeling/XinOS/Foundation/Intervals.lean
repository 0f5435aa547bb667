import Mathlib.Data.Set.Insert
import Mathlib.Data.Finset.Card
import Mathlib.Order.Interval.Finset.Nat

/-!
# Tables that encode disjoint intervals

Allocators of fixed-size cells keep a table with one entry per cell: a blank
entry for a free cell, otherwise a mark that depends on the run the cell belongs
to.  This file says which set of intervals such a table encodes, and what marking
a free interval or cutting the end off a run does to that set.  Cells are natural
numbers; tables are functions, of which only the cells below a bound count.
-/

namespace XinOS.Foundation

/-- The cells from `lo` up to, not including, `hi`. -/
@[ext] structure Span where
  lo : Nat
  hi : Nat
  deriving DecidableEq, Repr

namespace Span

instance : Membership Nat Span := ⟨fun I k => I.lo ≤ k ∧ k < I.hi⟩

theorem mem_iff {k : Nat} {I : Span} : k ∈ I ↔ I.lo ≤ k ∧ k < I.hi := Iff.rfl

instance (k : Nat) (I : Span) : Decidable (k ∈ I) :=
  inferInstanceAs (Decidable (I.lo ≤ k ∧ k < I.hi))

def Apart (I J : Span) : Prop := I.hi ≤ J.lo ∨ J.hi ≤ I.lo

theorem Apart.symm {I J : Span} (h : I.Apart J) : J.Apart I := Or.symm h

theorem Apart.not_mem {I J : Span} (h : I.Apart J) {k : Nat} (hI : k ∈ I) :
    k ∉ J := by
  rw [mem_iff] at *
  unfold Apart at h
  omega

theorem apart_of_disjoint {I J : Span} (hI : I.lo < I.hi) (hJ : J.lo < J.hi)
    (h : ∀ k, k ∈ I → k ∉ J) : I.Apart J := by
  by_contra hn
  unfold Apart at hn
  have hmem : max I.lo J.lo ∈ I := mem_iff.mpr (by omega)
  exact h _ hmem (mem_iff.mpr (by omega))

end Span

structure Separated (N : Nat) (S : Set Span) : Prop where
  proper : ∀ I ∈ S, I.lo < I.hi
  inside : ∀ I ∈ S, I.hi ≤ N
  apart : ∀ I ∈ S, ∀ J ∈ S, I ≠ J → I.Apart J

namespace Separated

variable {N : Nat} {S : Set Span}

theorem empty : Separated N ∅ := ⟨by simp, by simp, by simp⟩

theorem unique (h : Separated N S) {I J : Span} (hI : I ∈ S) (hJ : J ∈ S)
    {k : Nat} (hkI : k ∈ I) (hkJ : k ∈ J) : I = J := by
  by_contra hne
  exact (h.apart I hI J hJ hne).not_mem hkI hkJ

theorem subset {T : Set Span} (h : Separated N S) (hT : T ⊆ S) :
    Separated N T :=
  ⟨fun I hI => h.proper I (hT hI), fun I hI => h.inside I (hT hI),
    fun I hI J hJ => h.apart I (hT hI) J (hT hJ)⟩

theorem insert (h : Separated N S) {I : Span} (hlt : I.lo < I.hi)
    (hN : I.hi ≤ N) (hfree : ∀ J ∈ S, ∀ k ∈ J, k ∉ I) :
    Separated N (insert I S) := by
  have hI : ∀ J ∈ S, J.Apart I := fun J hJ =>
    Span.apart_of_disjoint (h.proper J hJ) hlt (hfree J hJ)
  refine ⟨?_, ?_, ?_⟩
  · rintro J (rfl | hJ)
    · exact hlt
    · exact h.proper J hJ
  · rintro J (rfl | hJ)
    · exact hN
    · exact h.inside J hJ
  · rintro J (rfl | hJ) K (rfl | hK) hne
    · exact absurd rfl hne
    · exact (hI K hK).symm
    · exact hI J hJ
    · exact h.apart J hJ K hK hne

end Separated

/-- `S` with `I` cut off before the cell `k`; nothing of `I` stays if `k` is
its first cell. -/
def truncate (S : Set Span) (I : Span) (k : Nat) : Set Span :=
  {J | (J ∈ S ∧ J ≠ I) ∨ (I.lo < k ∧ J = ⟨I.lo, k⟩)}

theorem truncate_lo (S : Set Span) (I : Span) : truncate S I I.lo = S \ {I} := by
  ext J
  simp [truncate]

theorem Separated.truncate {N : Nat} {S : Set Span} (h : Separated N S)
    {I : Span} (hI : I ∈ S) {k : Nat} (hk : k ∈ I) :
    Separated N (truncate S I k) := by
  rw [Span.mem_iff] at hk
  have hN := h.inside I hI
  refine ⟨?_, ?_, ?_⟩
  · rintro J (⟨hJ, -⟩ | ⟨hlt, rfl⟩)
    · exact h.proper J hJ
    · exact hlt
  · rintro J (⟨hJ, -⟩ | ⟨-, rfl⟩)
    · exact h.inside J hJ
    · change k ≤ N
      omega
  · rintro J (⟨hJ, hJI⟩ | ⟨-, rfl⟩) K (⟨hK, hKI⟩ | ⟨-, rfl⟩) hne
    · exact h.apart J hJ K hK hne
    · have := h.apart J hJ I hI hJI
      unfold Span.Apart at *
      simp only
      omega
    · have := h.apart I hI K hK (Ne.symm hKI)
      unfold Span.Apart at *
      simp only
      omega
    · exact absurd rfl hne

structure SpanSet (N : Nat) where
  spans : Set Span
  separated : Separated N spans

namespace SpanSet

variable {N : Nat}

instance : Membership Span (SpanSet N) := ⟨fun S I => I ∈ S.spans⟩

def Free (S : SpanSet N) (k : Nat) : Prop := ∀ I ∈ S, k ∉ I

def empty : SpanSet N := ⟨∅, .empty⟩

def add (S : SpanSet N) (I : Span) (hlt : I.lo < I.hi) (hN : I.hi ≤ N)
    (hfree : ∀ k ∈ I, S.Free k) : SpanSet N :=
  ⟨insert I S.spans, S.separated.insert hlt hN
    fun J hJ k hkJ hkI => hfree k hkI J hJ hkJ⟩

def cut (S : SpanSet N) (I : Span) (hI : I ∈ S) (k : Nat) (hk : k ∈ I) :
    SpanSet N :=
  ⟨truncate S.spans I k, S.separated.truncate hI hk⟩

end SpanSet

/-! ## Tables -/

/-- Below `N` the table `t` is blank on the free cells, and carries the mark of
its span on every other cell. -/
structure Encodes {α : Type*} (blank : α) (mark : Span → Nat → α)
    (t : Nat → α) (N : Nat) (S : Set Span) : Prop where
  free : ∀ k < N, (∀ I ∈ S, k ∉ I) → t k = blank
  held : ∀ I ∈ S, ∀ k ∈ I, t k = mark I k

namespace Encodes

variable {α : Type*} {blank : α} {mark mark' : Span → Nat → α}
variable {t t' : Nat → α} {N : Nat} {S : Set Span}

theorem of_blank (h : ∀ k < N, t k = blank) : Encodes blank mark t N ∅ :=
  ⟨fun k hk _ => h k hk, by simp⟩

theorem congr (h : Encodes blank mark t N S) (hS : Separated N S)
    (ht : ∀ k < N, t' k = t k) : Encodes blank mark t' N S where
  free k hk hfree := (ht k hk).trans (h.free k hk hfree)
  held I hI k hk := by
    have hN := hS.inside I hI
    rw [ht k (by rw [Span.mem_iff] at hk; omega), h.held I hI k hk]

theorem congr_mark (h : Encodes blank mark t N S)
    (hmark : ∀ I ∈ S, ∀ k ∈ I, mark' I k = mark I k) :
    Encodes blank mark' t N S where
  free := h.free
  held I hI k hk := (h.held I hI k hk).trans (hmark I hI k hk).symm

theorem add (h : Encodes blank mark t N S) (hS : Separated N S) {I : Span}
    (hfree : ∀ J ∈ S, ∀ k ∈ J, k ∉ I)
    (ht : ∀ k < N, t' k = if k ∈ I then mark I k else t k)
    (hN : I.hi ≤ N) : Encodes blank mark t' N (insert I S) where
  free k hk hout := by
    rw [ht k hk, if_neg (hout I (.inl rfl))]
    exact h.free k hk fun J hJ => hout J (.inr hJ)
  held := by
    rintro J (rfl | hJ) k hk
    · rw [ht k (by rw [Span.mem_iff] at hk; omega), if_pos hk]
    · have hJN := hS.inside J hJ
      rw [ht k (by rw [Span.mem_iff] at hk; omega), if_neg (hfree J hJ k hk),
        h.held J hJ k hk]

/--
Cutting a run off before its cell `k`: the cells from `k` on become blank and
the cell before `k` takes the mark of the shortened run.  The marks of the other
cells of a run must not depend on where the run ends.
-/
theorem cut (h : Encodes blank mark t N S) (hS : Separated N S) {I : Span}
    (hI : I ∈ S) {k : Nat} (hk : k ∈ I)
    (hmark : ∀ j ∈ I, j + 1 < k → mark ⟨I.lo, k⟩ j = mark I j)
    (ht : ∀ j < N, t' j = if k ≤ j ∧ j < I.hi then blank
      else if I.lo < k ∧ j + 1 = k then mark ⟨I.lo, k⟩ j else t j) :
    Encodes blank mark t' N (truncate S I k) := by
  have hkI := Span.mem_iff.mp hk
  have hN := hS.inside I hI
  refine ⟨?_, ?_⟩
  · intro j hj hfree
    rw [ht j hj]
    split_ifs with hcut hlast
    · rfl
    · exact absurd (Span.mem_iff.mpr (by simp only; omega))
        (hfree ⟨I.lo, k⟩ (.inr ⟨hlast.1, rfl⟩))
    · refine h.free j hj fun J hJ hjJ => ?_
      by_cases hne : J = I
      · subst hne
        rw [Span.mem_iff] at hjJ
        exact hfree ⟨J.lo, k⟩ (.inr ⟨by omega, rfl⟩)
          (Span.mem_iff.mpr (by simp only; omega))
      · exact hfree J (.inl ⟨hJ, hne⟩) hjJ
  · rintro J (⟨hJ, hne⟩ | ⟨hlt, rfl⟩) j hj
    · have hJN := hS.inside J hJ
      have hjI : j ∉ I := (hS.apart J hJ I hI hne).not_mem hj
      rw [Span.mem_iff] at hj hjI
      rw [ht j (by omega), if_neg (by omega), if_neg (by omega),
        h.held J hJ j (Span.mem_iff.mpr hj)]
    · simp only [Span.mem_iff] at hj
      rw [ht j (by omega), if_neg (by omega)]
      split_ifs with hlast
      · rfl
      · have hjI : j ∈ I := Span.mem_iff.mpr (by omega)
        rw [h.held I hI j hjI, hmark j hjI (by omega)]

theorem remove (h : Encodes blank mark t N S) (hS : Separated N S) {I : Span}
    (hI : I ∈ S) (ht : ∀ j < N, t' j = if j ∈ I then blank else t j) :
    Encodes blank mark t' N (S \ {I}) := by
  have hlo : I.lo ∈ I := Span.mem_iff.mpr ⟨le_refl _, hS.proper I hI⟩
  rw [← truncate_lo]
  refine h.cut hS hI hlo (fun j hj hlt => ?_) (fun j hj => ?_)
  · rw [Span.mem_iff] at hj
    omega
  · rw [ht j hj, if_neg (by omega : ¬(I.lo < I.lo ∧ j + 1 = I.lo))]
    rfl

end Encodes

/-! ## Counting taken cells -/

def countBelow (N : Nat) (p : Nat → Bool) : Nat :=
  ((Finset.range N).filter fun k => p k = true).card

theorem countBelow_congr {N : Nat} {p q : Nat → Bool}
    (h : ∀ k < N, q k = p k) : countBelow N q = countBelow N p := by
  unfold countBelow
  congr 1
  refine Finset.filter_congr fun k hk => ?_
  rw [h k (Finset.mem_range.mp hk)]

theorem countBelow_le (N : Nat) (p : Nat → Bool) : countBelow N p ≤ N := by
  simpa [countBelow] using
    Finset.card_filter_le (Finset.range N) (fun k => p k = true)

theorem countBelow_eq_zero_iff (N : Nat) (p : Nat → Bool) :
    countBelow N p = 0 ↔ ∀ k < N, p k = false := by
  simp [countBelow, Finset.filter_eq_empty_iff]

theorem countBelow_add {N : Nat} {p q : Nat → Bool} {I : Span} (hN : I.hi ≤ N)
    (hfree : ∀ k ∈ I, p k = false)
    (hq : ∀ k < N, q k = (p k || decide (k ∈ I))) :
    countBelow N q = countBelow N p + (I.hi - I.lo) := by
  have hsplit : (Finset.range N).filter (fun k => q k = true) =
      (Finset.range N).filter (fun k => p k = true) ∪
        Finset.Ico I.lo I.hi := by
    ext k
    simp only [Finset.mem_filter, Finset.mem_range, Finset.mem_union,
      Finset.mem_Ico]
    constructor
    · rintro ⟨hk, ht⟩
      rw [hq k hk, Bool.or_eq_true, decide_eq_true_iff] at ht
      exact ht.imp (fun ht => ⟨hk, ht⟩) id
    · rintro (⟨hk, ht⟩ | hkI)
      · exact ⟨hk, by simp [hq k hk, ht]⟩
      · exact ⟨by omega, by simp [hq k (by omega), Span.mem_iff, hkI]⟩
  have hdisj : Disjoint ((Finset.range N).filter fun k => p k = true)
      (Finset.Ico I.lo I.hi) := by
    rw [Finset.disjoint_left]
    intro k hk hkI
    have hkp := hfree k (Finset.mem_Ico.mp hkI)
    simp [hkp] at hk
  rw [countBelow, hsplit, Finset.card_union_of_disjoint hdisj, Nat.card_Ico,
    countBelow]

end XinOS.Foundation
