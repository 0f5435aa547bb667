import XinOS.Kernel.Scheduler
import XinOS.Kernel.TimerList

/-!
# Deleting a timer that is not there

`timer_delete` searches the list for its argument.  An empty list is left alone,
but at the end of any other one the search goes on with `it->next`.
-/

namespace XinOS.Kernel

open XinOS.Foundation

variable {w : Nat} {k : State w} {m : List Ptr}

/-- What `timer_delete(t)` should do to the list `m`: unlink and free `t` when it
is there, and nothing otherwise. -/
def DeletesOnly (k : State w) (m : List Ptr) (t : Option Ptr) : Prop :=
  (∀ s ∈ m, t = some s →
    ∃ k', timerDelete k t = .ok k' ∧
      Rearmed { k with liveTimers := k.liveTimers.erase s } k' ∧
      TimerList k' (m.erase s)) ∧
  ((∀ s ∈ m, t ≠ some s) → timerDelete k t = .ok k)

/-- The search must find its timer, unless it is not made. -/
theorem timerDelete_safe_iff (h : TimerList k m) (t : Option Ptr) :
    DeletesOnly k m t ↔ t = none ∨ m = [] ∨ ∃ s ∈ m, t = some s := by
  constructor
  · rintro ⟨-, habsent⟩
    by_contra! hnot
    obtain ⟨hnull, hm, hout⟩ := hnot
    obtain ⟨s, rfl⟩ := Option.ne_none_iff_exists'.mp hnull
    have hfail := h.timerDelete_absent hm fun hs => hout s hs rfl
    exact nomatch hfail.symm.trans (habsent hout)
  · intro hcases
    refine ⟨fun s hs heq => heq ▸ h.timerDelete_mem hs, fun habsent => ?_⟩
    rcases hcases with rfl | rfl | ⟨s, hs, heq⟩
    · exact TimerList.timerDelete_null k
    · exact h.timerDelete_nil t
    · exact absurd heq (habsent s hs)

/-- Deleting a timer twice is harmless only when it was the last one. -/
theorem TimerList.timerDelete_twice {k' : State w} {t : Ptr} (h : TimerList k m)
    (ht : t ∈ m) (hdelete : timerDelete k (some t) = .ok k') :
    timerDelete k' (some t) = .ok k' ↔ m = [t] := by
  obtain ⟨k₁, hdelete₁, -, hlist⟩ := h.timerDelete_mem ht
  obtain rfl : k₁ = k' := Except.ok.inj (hdelete₁.symm.trans hdelete)
  have hgone : t ∉ m.erase t := h.path.nodup.not_mem_erase
  constructor
  · intro hagain
    by_contra hm
    have hrest : m.erase t ≠ [] := by
      intro hnil
      have hperm := List.perm_cons_erase ht
      rw [hnil] at hperm
      exact hm (List.perm_singleton.mp hperm)
    exact nomatch (hlist.timerDelete_absent hrest hgone).symm.trans hagain
  · rintro rfl
    rw [List.erase_cons_head] at hlist
    exact hlist.timerDelete_nil _

def twoTimers : State 64 :=
  { boot (fun _ => blankTask)
      (Function.update (fun _ => blankTimer) 64
        { blankTimer with next := some 128 }) with
    firstTimer := some 64
    liveTimers := [64, 128] }

theorem twoTimers_list : TimerList twoTimers [64, 128] where
  path := ⟨rfl, rfl, rfl⟩
  address := by decide

theorem deleted_timer_deleted_again :
    ∃ k', timerDelete twoTimers (some 64) = .ok k' ∧ TimerList k' [128] ∧
      timerDelete k' (some 64) = .error .nullAccess ∧
      ¬DeletesOnly k' [128] (some 64) := by
  obtain ⟨k', hdelete, -, hlist⟩ := twoTimers_list.timerDelete_mem (t := 64)
    (by decide)
  have hfail := hlist.timerDelete_absent (by decide) (t := 64) (by decide)
  refine ⟨k', hdelete, hlist, hfail, fun honly => ?_⟩
  exact nomatch hfail.symm.trans (honly.2 (by decide))

theorem timerDelete_safe_iff_of_two :
    DeletesOnly twoTimers [64, 128] (some 128) :=
  (timerDelete_safe_iff twoTimers_list (some 128)).mpr (by decide)

end XinOS.Kernel
