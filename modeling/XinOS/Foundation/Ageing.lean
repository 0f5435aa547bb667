import XinOS.Foundation.LinkedList
import Mathlib.Algebra.BigOperators.Group.List.Basic
import Mathlib.Algebra.Order.Ring.Int

/-!
# Round robin with ageing

A queue is kept in order of a key.  At every turn its head is served, its key is
counted up to at most `cap`, and it goes back behind the elements whose key is at
most its new one.  An element whose key is at most `cap` waits for a time that
depends only on the keys in front of it.
-/

namespace XinOS.Foundation

variable {α : Type*} {cap : Int} {key : α → Int}
variable {x y : α} {l pre post : List α}

/-! ## Waiting times -/

/-- For how many turns an element with key `p` waits for those in `l`. -/
def waitFor (p : Int) (key : α → Int) (l : List α) : Nat :=
  (l.map fun y => (max 1 (p - key y)).toNat).sum

theorem waitFor_cons (p : Int) (key : α → Int) (y : α) (l : List α) :
    waitFor p key (y :: l) = (max 1 (p - key y)).toNat + waitFor p key l := rfl

theorem waitFor_eq (p : Int) (key : α → Int) (l : List α) :
    (waitFor p key l : Int) = (l.map fun y => max 1 (p - key y)).sum := by
  induction l with
  | nil => rfl
  | cons y l ih =>
      rw [waitFor_cons, List.map_cons, List.sum_cons, ← ih]
      omega

theorem waitFor_congr {p : Int} {key' : α → Int}
    (hkey : ∀ z ∈ l, key' z = key z) : waitFor p key' l = waitFor p key l := by
  unfold waitFor
  rw [List.map_congr_left fun z hz => by rw [hkey z hz]]

theorem waitFor_perm {p : Int} {l' : List α} (h : l'.Perm l) :
    waitFor p key l' = waitFor p key l :=
  (h.map _).sum_nat

theorem waitFor_eq_zero {p : Int} (h : waitFor p key l = 0) : l = [] := by
  cases l with
  | nil => rfl
  | cons y l =>
      rw [waitFor_cons] at h
      omega

/-! ## Turns -/

variable [DecidableEq α]

def age (cap n : Int) : Int := if n < cap then n + 1 else n

def turn (cap : Int) (key : α → Int) : List α → (α → Int) × List α
  | [] => (key, [])
  | y :: l =>
      let key' := Function.update key y (age cap (key y))
      (key', insertByKey key' y l)

def served (cap : Int) : Nat → (α → Int) → List α → List (Option α)
  | 0, _, _ => []
  | n + 1, key, l =>
      l.head? :: served cap n (turn cap key l).1 (turn cap key l).2

theorem turn_sorted (cap : Int) (h : l.Pairwise fun a b => key a ≤ key b)
    (hnodup : l.Nodup) :
    (turn cap key l).2.Pairwise fun a b =>
      (turn cap key l).1 a ≤ (turn cap key l).1 b := by
  cases l with
  | nil => exact .nil
  | cons y l =>
      have hy := (List.nodup_cons.mp hnodup).1
      exact insertByKey_sorted (sorted_congr (List.pairwise_cons.mp h).2
        fun z hz => update_of_mem hy hz _)

theorem turn_perm (cap : Int) (key : α → Int) (l : List α) :
    (turn cap key l).2.Perm l := by
  cases l with
  | nil => exact .nil
  | cons y l => exact insertByKey_perm _ _ _

theorem served_length (cap : Int) (n : Nat) (key : α → Int) (l : List α) :
    (served cap n key l).length = n := by
  induction n generalizing key l with
  | zero => rfl
  | succ n ih => rw [served, List.length_cons, ih]

/-- A turn of another element takes one off the waiting time of `x`: either the
element comes back in front of `x` with its key counted up, or it comes back
behind `x`, and then it was due to be served once more. -/
theorem turn_in_front (hsorted : (y :: (pre ++ x :: post)).Pairwise
      fun a b => key a ≤ key b)
    (hnodup : (y :: (pre ++ x :: post)).Nodup) (hcap : key x ≤ cap) :
    ∃ pre' post', (turn cap key (y :: (pre ++ x :: post))).2 = pre' ++ x :: post' ∧
      (turn cap key (y :: (pre ++ x :: post))).1 x = key x ∧
      waitFor (key x) key (y :: pre) =
        waitFor (key x) (turn cap key (y :: (pre ++ x :: post))).1 pre' + 1 := by
  obtain ⟨hhead, hrest⟩ := List.pairwise_cons.mp hsorted
  have hy := (List.nodup_cons.mp hnodup).1
  have hyx := hhead x (by simp)
  have hpre : ∀ z ∈ pre, key z ≤ key x := fun z hz =>
    (List.pairwise_append.mp hrest).2.2 z hz x (by simp)
  simp only [turn]
  set key' := Function.update key y (age cap (key y)) with hkey'
  have hself : key' y = age cap (key y) := Function.update_self ..
  have hother : ∀ z ∈ pre ++ x :: post, key' z = key z := fun z hz =>
    update_of_mem hy hz _
  have hx : key' x = key x := hother x (by simp)
  have hfront : waitFor (key x) key' pre = waitFor (key x) key pre :=
    waitFor_congr fun z hz => hother z (by simp [hz])
  by_cases hlt : key' y < key' x
  · refine ⟨insertByKey key' y pre, post, insertByKey_append_of_lt hlt pre, hx, ?_⟩
    rw [waitFor_perm (insertByKey_perm key' y pre), waitFor_cons, waitFor_cons,
      hfront, hself]
    rw [hself, hx] at hlt
    unfold age at *
    split_ifs at * <;> omega
  · refine ⟨pre, insertByKey key' y post, ?_, hx, ?_⟩
    · rw [insertByKey_append_of_le, insertByKey_cons_of_le (not_lt.mp hlt)]
      intro z hz
      rw [hother z (by simp [hz])]
      exact (hpre z hz).trans (hx ▸ not_lt.mp hlt)
    · rw [waitFor_cons, hfront]
      rw [hself, hx] at hlt
      unfold age at hlt
      split_ifs at hlt <;> omega

/-- An element whose key is at most the cap is served for the first time after
the turns that it waits for those in front of it. -/
theorem served_first (hsorted : (pre ++ x :: post).Pairwise
      fun a b => key a ≤ key b)
    (hnodup : (pre ++ x :: post).Nodup) (hcap : key x ≤ cap) :
    ∃ others, served cap (waitFor (key x) key pre + 1) key (pre ++ x :: post) =
      others ++ [some x] ∧ some x ∉ others := by
  generalize hn : waitFor (key x) key pre = n
  induction n generalizing key pre post with
  | zero =>
      obtain rfl := waitFor_eq_zero hn
      exact ⟨[], rfl, List.not_mem_nil⟩
  | succ n ih =>
      cases pre with
      | nil => exact absurd hn (by simp [waitFor])
      | cons y pre =>
          obtain ⟨pre', post', hqueue, hx, hwait⟩ :=
            turn_in_front hsorted hnodup hcap
          have hsorted' := turn_sorted cap hsorted hnodup
          have hnodup' := (turn_perm cap key _).nodup_iff.mpr hnodup
          rw [List.cons_append] at hsorted' hnodup' ⊢
          rw [hqueue] at hsorted' hnodup'
          obtain ⟨others, hserved, hnotMem⟩ := ih hsorted' hnodup'
            (by rw [hx]; exact hcap) (by rw [hx]; omega)
          refine ⟨some y :: others, ?_, ?_⟩
          · rw [served, hqueue, hserved]
            rfl
          · have hyx : x ≠ y := by
              rintro rfl
              exact (List.nodup_cons.mp hnodup).1 (by simp)
            simpa [hyx] using hnotMem

end XinOS.Foundation
