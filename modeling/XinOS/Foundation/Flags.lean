import XinOS.Foundation.Intervals

/-!
# Tables of flagged cells

A cell of such a table may be marked as taken, and as the first and the last cell
of a run.  Nothing is said here about how a table came about: a table is linked if
a taken cell that is not last is followed by a taken cell that is not first, and
this alone makes the walk from a cell to the end of its run stay in the table and
in the run.
-/

namespace XinOS.Foundation

structure Flags where
  taken : Nat → Bool
  first : Nat → Bool
  last : Nat → Bool

namespace Flags

structure Linked (t : Flags) (N : Nat) : Prop where
  next : ∀ j < N, t.taken j = true → t.last j = false →
    j + 1 < N ∧ t.taken (j + 1) = true ∧ t.first (j + 1) = false
  first : ∀ j < N, t.first j = true → t.taken j = true

/-- Linked in both directions, with nothing marked outside the runs. -/
structure Tight (t : Flags) (N : Nat) : Prop extends Linked t N where
  prev : ∀ j < N, t.taken j = true → t.first j = false →
    1 ≤ j ∧ t.taken (j - 1) = true ∧ t.last (j - 1) = false
  blank : ∀ j < N, t.taken j = false → t.last j = false

structure RunsTo (t : Flags) (k e : Nat) : Prop where
  le : k ≤ e
  taken : ∀ j, k ≤ j → j ≤ e → t.taken j = true
  inner : ∀ j, k ≤ j → j < e → t.last j = false
  last : t.last e = true

def cut (t : Flags) (k e : Nat) : Flags where
  taken j := t.taken j && !decide (k ≤ j ∧ j ≤ e)
  first j := t.first j && !decide (k ≤ j ∧ j ≤ e)
  last j := t.last j && !decide (k ≤ j ∧ j ≤ e) ||
    decide (j + 1 = k) && !t.first k && t.taken j

def mark (t : Flags) (i n : Nat) : Flags where
  taken j := t.taken j || decide (i ≤ j ∧ j < i + n)
  first j := t.first j || decide (j = i)
  last j := t.last j || decide (j + 1 = i + n)

variable {t t' : Flags} {N k e i n : Nat}

theorem Linked.congr (h : t.Linked N)
    (ht : ∀ j < N, t'.taken j = t.taken j ∧ t'.first j = t.first j ∧
      t'.last j = t.last j) : t'.Linked N := by
  refine ⟨fun j hj htaken hlast => ?_, fun j hj hfirst => ?_⟩
  · rw [(ht j hj).1] at htaken
    rw [(ht j hj).2.2] at hlast
    obtain ⟨hlt, hnext⟩ := h.next j hj htaken hlast
    rw [(ht _ hlt).1, (ht _ hlt).2.1]
    exact ⟨hlt, hnext⟩
  · rw [(ht j hj).2.1] at hfirst
    rw [(ht j hj).1]
    exact h.first j hj hfirst

theorem Tight.congr (h : t.Tight N)
    (ht : ∀ j < N, t'.taken j = t.taken j ∧ t'.first j = t.first j ∧
      t'.last j = t.last j) : t'.Tight N := by
  refine ⟨h.toLinked.congr ht, fun j hj htaken hfirst => ?_,
    fun j hj htaken => ?_⟩
  · rw [(ht j hj).1] at htaken
    rw [(ht j hj).2.1] at hfirst
    rw [(ht (j - 1) (by omega)).1, (ht (j - 1) (by omega)).2.2]
    exact h.prev j hj htaken hfirst
  · rw [(ht j hj).1] at htaken
    rw [(ht j hj).2.2]
    exact h.blank j hj htaken

theorem Linked.addLast (h : t.Linked N)
    (ht : ∀ j < N, t'.taken j = t.taken j ∧ t'.first j = t.first j ∧
      (t.last j = true → t'.last j = true)) : t'.Linked N := by
  refine ⟨fun j hj htaken hlast => ?_, fun j hj hfirst => ?_⟩
  · rw [(ht j hj).1] at htaken
    have hlast' : t.last j = false := by
      by_contra hn
      rw [(ht j hj).2.2 (by simpa using hn)] at hlast
      contradiction
    obtain ⟨hlt, hnext⟩ := h.next j hj htaken hlast'
    rw [(ht _ hlt).1, (ht _ hlt).2.1]
    exact ⟨hlt, hnext⟩
  · rw [(ht j hj).2.1] at hfirst
    rw [(ht j hj).1]
    exact h.first j hj hfirst

/-! ## The end of a run -/

theorem RunsTo.eq_of_last {e' : Nat} (hr : t.RunsTo k e) (hle : k ≤ e')
    (hinner : ∀ j, k ≤ j → j < e' → t.last j = false) (hlast : t.last e' = true) :
    e = e' := by
  by_contra hne
  rcases Nat.lt_or_gt_of_ne hne with hlt | hgt
  · have hflag := hinner e hr.le hlt
    rw [hr.last] at hflag
    contradiction
  · have hflag := hr.inner e' hle hgt
    rw [hlast] at hflag
    contradiction

theorem RunsTo.unique {e' : Nat} (hr : t.RunsTo k e) (hr' : t.RunsTo k e') :
    e = e' :=
  hr.eq_of_last hr'.le hr'.inner hr'.last

theorem Linked.exists_runsTo (h : t.Linked N) (hk : k < N)
    (htaken : t.taken k = true) : ∃ e < N, t.RunsTo k e := by
  induction hd : N - k generalizing k with
  | zero => omega
  | succ d ih =>
      by_cases hlast : t.last k = true
      · refine ⟨k, hk, le_refl _, fun j hkj hj => ?_, fun j hkj hj => ?_, hlast⟩
        · rwa [show j = k by omega]
        · omega
      · have hlast' : t.last k = false := by simpa using hlast
        obtain ⟨hlt, hnext, -⟩ := h.next k hk htaken hlast'
        obtain ⟨e, he, hr⟩ := ih hlt hnext (by omega)
        have hle := hr.le
        refine ⟨e, he, by omega, fun j hkj hj => ?_, fun j hkj hj => ?_, hr.last⟩
        · rcases Nat.eq_or_lt_of_le hkj with rfl | hgt
          · exact htaken
          · exact hr.taken j hgt hj
        · rcases Nat.eq_or_lt_of_le hkj with rfl | hgt
          · exact hlast'
          · exact hr.inner j hgt hj

theorem Linked.not_first (h : t.Linked N) (hr : t.RunsTo k e) (he : e < N)
    {j : Nat} (hkj : k < j) (hj : j ≤ e) : t.first j = false := by
  have hnext := h.next (j - 1) (by omega) (hr.taken _ (by omega) (by omega))
    (hr.inner _ (by omega) (by omega))
  rw [Nat.sub_add_cancel (by omega)] at hnext
  exact hnext.2.2

theorem Linked.runsTo_inside (h : t.Linked N) (hr : t.RunsTo k e) (he : e < N)
    {I : Span} (hfirst : t.first I.lo = true) {j : Nat} (hj : j ∈ I)
    (hkj : k ≤ j) (hje : j ≤ e) : k ∈ I := by
  rw [Span.mem_iff] at *
  refine ⟨?_, by omega⟩
  by_contra hlt
  have := h.not_first hr he (by omega : k < I.lo) (by omega)
  rw [hfirst] at this
  contradiction

/-! ## Cutting and marking -/

theorem Linked.cut (h : t.Linked N) (hr : t.RunsTo k e) :
    (t.cut k e).Linked N := by
  refine ⟨fun j hj htaken hlast => ?_, fun j hj hfirst => ?_⟩
  · simp only [Flags.cut, Bool.and_eq_true, Bool.not_eq_true',
      decide_eq_false_iff_not, Bool.or_eq_false_iff] at htaken hlast ⊢
    obtain ⟨htj, hout⟩ := htaken
    obtain ⟨hlast, hprev⟩ := hlast
    rw [decide_eq_false hout, Bool.not_false, Bool.and_true] at hlast
    obtain ⟨hlt, hnext, hnf⟩ := h.next j hj htj hlast
    have hjk : j + 1 ≠ k := by
      rintro rfl
      simp [htj, hnf] at hprev
    exact ⟨hlt, ⟨hnext, by omega⟩, by simp [hnf]⟩
  · simp only [Flags.cut, Bool.and_eq_true] at hfirst ⊢
    exact ⟨h.first j hj hfirst.1, hfirst.2⟩

theorem Tight.cut (h : t.Tight N) (hr : t.RunsTo k e) : (t.cut k e).Tight N := by
  refine ⟨h.toLinked.cut hr, fun j hj htaken hfirst => ?_, fun j hj htaken => ?_⟩
  · simp only [Flags.cut, Bool.and_eq_true, Bool.not_eq_true',
      decide_eq_false_iff_not] at htaken
    obtain ⟨htj, hout⟩ := htaken
    simp only [Flags.cut, decide_eq_false hout, Bool.not_false,
      Bool.and_true] at hfirst
    obtain ⟨hj1, htp, hlp⟩ := h.prev j hj htj hfirst
    have hout' : ¬(k ≤ j - 1 ∧ j - 1 ≤ e) := by
      intro hin
      have hje : j - 1 = e := by omega
      rw [hje, hr.last] at hlp
      contradiction
    have hjk : ¬j - 1 + 1 = k := by
      have := hr.le
      omega
    simp only [Flags.cut, htp, hlp, decide_eq_false hout', decide_eq_false hjk]
    exact ⟨hj1, rfl, rfl⟩
  · simp only [Flags.cut] at htaken ⊢
    by_cases hin : k ≤ j ∧ j ≤ e
    · have hjk : ¬j + 1 = k := by omega
      simp [decide_eq_true hin, decide_eq_false hjk]
    · rw [decide_eq_false hin, Bool.not_false, Bool.and_true] at htaken
      simp [htaken, h.blank j hj htaken]

theorem Linked.mark (h : t.Linked N) (hN : i + n ≤ N)
    (hfree : ∀ j, i ≤ j → j < i + n → t.taken j = false) (hn : 1 ≤ n) :
    (t.mark i n).Linked N := by
  refine ⟨fun j hj htaken hlast => ?_, fun j hj hfirst => ?_⟩
  · simp only [Flags.mark, Bool.or_eq_true, decide_eq_true_iff,
      Bool.or_eq_false_iff, decide_eq_false_iff_not] at htaken hlast ⊢
    rcases htaken with htj | hin
    · obtain ⟨hlt, hnext, hnf⟩ := h.next j hj htj hlast.1
      refine ⟨hlt, .inl hnext, hnf, fun hji => ?_⟩
      rw [hji, hfree i (le_refl _) (by omega)] at hnext
      contradiction
    · refine ⟨by omega, .inr (by omega), ?_, by omega⟩
      by_contra hf
      have := h.first (j + 1) (by omega) (by simpa using hf)
      rw [hfree (j + 1) (by omega) (by omega)] at this
      contradiction
  · simp only [Flags.mark, Bool.or_eq_true, decide_eq_true_iff] at hfirst ⊢
    exact hfirst.imp (h.first j hj) fun hji => by omega

theorem Tight.mark (h : t.Tight N) (hN : i + n ≤ N)
    (hfree : ∀ j, i ≤ j → j < i + n → t.taken j = false) (hn : 1 ≤ n) :
    (t.mark i n).Tight N := by
  refine ⟨h.toLinked.mark hN hfree hn, fun j hj htaken hfirst => ?_,
    fun j hj htaken => ?_⟩
  · simp only [Flags.mark, Bool.or_eq_true, decide_eq_true_iff,
      Bool.or_eq_false_iff, decide_eq_false_iff_not] at htaken hfirst ⊢
    rcases htaken with htj | hin
    · obtain ⟨hj1, htp, hlp⟩ := h.prev j hj htj hfirst.1
      refine ⟨hj1, .inl htp, hlp, fun hji => ?_⟩
      rw [hfree (j - 1) (by omega) (by omega)] at htp
      contradiction
    · refine ⟨by omega, .inr (by omega), ?_, by omega⟩
      exact h.blank (j - 1) (by omega) (hfree _ (by omega) (by omega))
  · simp only [Flags.mark, Bool.or_eq_false_iff,
      decide_eq_false_iff_not] at htaken ⊢
    exact ⟨h.blank j hj htaken.1, by omega⟩

end Flags

end XinOS.Foundation
