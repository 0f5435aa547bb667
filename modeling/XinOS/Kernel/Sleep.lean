import XinOS.Kernel.Scheduler
import XinOS.Kernel.TimerSteps

/-!
# Sleeping tasks and the timers that wake them

`task_delay` puts the current task to sleep and creates a timer without a
function; the tick at which that timer is due wakes the task.
-/

namespace XinOS.Kernel

open XinOS.Foundation

variable {w : Nat} {k k' : State w} {l l' m m' : List Ptr}

def Wakes (k : State w) (t p : Ptr) : Prop :=
  (k.timer t).func = none ∧ (k.timer t).task = some p

def Asleep (k : State w) (p : Ptr) : Prop := (k.task p).state = .sleeping

/-- The timers of `m` without a function and the sleeping tasks of `l` come in
pairs. -/
structure Paired (k : State w) (l m : List Ptr) : Prop where
  owned : ∀ t ∈ m, ∃ p, (k.timer t).task = some p
  sound : ∀ t ∈ m, (k.timer t).func = none → ∃ p ∈ l, Wakes k t p ∧ Asleep k p
  complete : ∀ p ∈ l, Asleep k p → ∃ t ∈ m, Wakes k t p
  once : ∀ s ∈ m, ∀ t ∈ m, ∀ p, Wakes k s p → Wakes k t p → s = t

namespace Paired

variable (h : Paired k l m)
include h

theorem congr (hl : ∀ p, p ∈ l' ↔ p ∈ l)
    (hstate : ∀ p ∈ l, Asleep k' p ↔ Asleep k p)
    (hfunc : ∀ t ∈ m, (k'.timer t).func = (k.timer t).func)
    (htask : ∀ t ∈ m, (k'.timer t).task = (k.timer t).task) :
    Paired k' l' m := by
  have hwakes : ∀ t ∈ m, ∀ p, Wakes k' t p ↔ Wakes k t p := fun t ht p => by
    rw [Wakes, Wakes, hfunc t ht, htask t ht]
  constructor
  · intro t ht
    rw [htask t ht]
    exact h.owned t ht
  · intro t ht hnone
    obtain ⟨p, hp, hw, hsleep⟩ := h.sound t ht (hfunc t ht ▸ hnone)
    exact ⟨p, (hl p).mpr hp, (hwakes t ht p).mpr hw, (hstate p hp).mpr hsleep⟩
  · intro p hp hsleep
    have hp := (hl p).mp hp
    obtain ⟨t, ht, hw⟩ := h.complete p hp ((hstate p hp).mp hsleep)
    exact ⟨t, ht, (hwakes t ht p).mpr hw⟩
  · intro s hs t ht p hws hwt
    exact h.once s hs t ht p ((hwakes s hs p).mp hws) ((hwakes t ht p).mp hwt)

theorem addTask {x : Ptr} (hl : ∀ p, p ∈ l' ↔ p = x ∨ p ∈ l)
    (hx : ¬Asleep k x) : Paired k l' m where
  owned := h.owned
  sound := fun t ht hnone => by
    obtain ⟨p, hp, hcase⟩ := h.sound t ht hnone
    exact ⟨p, (hl p).mpr (.inr hp), hcase⟩
  complete := fun p hp hsleep => by
    rcases (hl p).mp hp with rfl | hp
    · exact absurd hsleep hx
    · exact h.complete p hp hsleep
  once := h.once

theorem removeTask {x : Ptr} (hl : ∀ p, p ∈ l' ↔ p ≠ x ∧ p ∈ l)
    (hx : ¬Asleep k x) : Paired k l' m where
  owned := h.owned
  sound := fun t ht hnone => by
    obtain ⟨p, hp, hw, hsleep⟩ := h.sound t ht hnone
    exact ⟨p, (hl p).mpr ⟨fun heq => hx (heq ▸ hsleep), hp⟩, hw, hsleep⟩
  complete := fun p hp hsleep => h.complete p ((hl p).mp hp).2 hsleep
  once := h.once

theorem addCallback {x cur : Ptr} (hm : ∀ t, t ∈ m' ↔ t = x ∨ t ∈ m)
    (hfunc : (k.timer x).func ≠ none) (htask : (k.timer x).task = some cur) :
    Paired k l m' where
  owned := fun t ht => by
    rcases (hm t).mp ht with rfl | ht
    · exact ⟨cur, htask⟩
    · exact h.owned t ht
  sound := fun t ht hnone => by
    rcases (hm t).mp ht with rfl | ht
    · exact absurd hnone hfunc
    · exact h.sound t ht hnone
  complete := fun p hp hsleep => by
    obtain ⟨t, ht, hw⟩ := h.complete p hp hsleep
    exact ⟨t, (hm t).mpr (.inr ht), hw⟩
  once := fun s hs t ht p hws hwt => by
    rcases (hm s).mp hs with rfl | hs
    · exact absurd hws.1 hfunc
    · rcases (hm t).mp ht with rfl | ht
      · exact absurd hwt.1 hfunc
      · exact h.once s hs t ht p hws hwt

theorem removeCallback {x : Ptr} (hm : ∀ t, t ∈ m' ↔ t ≠ x ∧ t ∈ m)
    (hfunc : (k.timer x).func ≠ none) : Paired k l m' where
  owned := fun t ht => h.owned t ((hm t).mp ht).2
  sound := fun t ht hnone => h.sound t ((hm t).mp ht).2 hnone
  complete := fun p hp hsleep => by
    obtain ⟨t, ht, hw⟩ := h.complete p hp hsleep
    exact ⟨t, (hm t).mpr ⟨fun heq => hfunc (heq ▸ hw.1), ht⟩, hw⟩
  once := fun s hs t ht p => h.once s ((hm s).mp hs).2 t ((hm t).mp ht).2 p

theorem sleep {x cur : Ptr} (hcur : cur ∈ l) (hawake : ¬Asleep k cur)
    (hm : ∀ t, t ∈ m' ↔ t = x ∨ t ∈ m) (hx : x ∉ m)
    (hstate : ∀ p ∈ l, Asleep k' p ↔ p = cur ∨ Asleep k p)
    (hnew : Wakes k' x cur)
    (hfunc : ∀ t ∈ m, (k'.timer t).func = (k.timer t).func)
    (htask : ∀ t ∈ m, (k'.timer t).task = (k.timer t).task) :
    Paired k' l m' := by
  have hwakes : ∀ t ∈ m, ∀ p, Wakes k' t p ↔ Wakes k t p := fun t ht p => by
    rw [Wakes, Wakes, hfunc t ht, htask t ht]
  -- The tasks that timers of `m` are to wake already sleep, so they are not `cur`.
  have hother : ∀ t ∈ m, ∀ p, Wakes k t p → p ≠ cur := by
    intro t ht p hw heq
    obtain ⟨q, -, hw', hsleep⟩ := h.sound t ht hw.1
    obtain rfl : p = q := Option.some.inj (hw.2.symm.trans hw'.2)
    exact hawake (heq ▸ hsleep)
  constructor
  · intro t ht
    rcases (hm t).mp ht with rfl | ht
    · exact ⟨cur, hnew.2⟩
    · rw [htask t ht]
      exact h.owned t ht
  · intro t ht hnone
    rcases (hm t).mp ht with rfl | ht
    · exact ⟨cur, hcur, hnew, (hstate cur hcur).mpr (.inl rfl)⟩
    · obtain ⟨p, hp, hw, hsleep⟩ := h.sound t ht (hfunc t ht ▸ hnone)
      exact ⟨p, hp, (hwakes t ht p).mpr hw, (hstate p hp).mpr (.inr hsleep)⟩
  · intro p hp hsleep
    rcases (hstate p hp).mp hsleep with rfl | hsleep
    · exact ⟨x, (hm x).mpr (.inl rfl), hnew⟩
    · obtain ⟨t, ht, hw⟩ := h.complete p hp hsleep
      exact ⟨t, (hm t).mpr (.inr ht), (hwakes t ht p).mpr hw⟩
  · intro s hs t ht p hws hwt
    have hcurOf : Wakes k' x p → p = cur := fun hw =>
      Option.some.inj (hw.2.symm.trans hnew.2)
    rcases (hm s).mp hs with rfl | hs <;> rcases (hm t).mp ht with rfl | ht
    · rfl
    · exact absurd (hcurOf hws) (hother t ht p ((hwakes t ht p).mp hwt))
    · exact absurd (hcurOf hwt) (hother s hs p ((hwakes s hs p).mp hws))
    · exact h.once s hs t ht p ((hwakes s hs p).mp hws) ((hwakes t ht p).mp hwt)

theorem wake {x cur : Ptr} (hx : x ∈ m) (hwake : Wakes k x cur)
    (hm : ∀ t, t ∈ m' ↔ t ≠ x ∧ t ∈ m)
    (hstate : ∀ p ∈ l, Asleep k' p ↔ p ≠ cur ∧ Asleep k p)
    (hfunc : ∀ t ∈ m, (k'.timer t).func = (k.timer t).func)
    (htask : ∀ t ∈ m, (k'.timer t).task = (k.timer t).task) :
    Paired k' l m' := by
  have hwakes : ∀ t ∈ m, ∀ p, Wakes k' t p ↔ Wakes k t p := fun t ht p => by
    rw [Wakes, Wakes, hfunc t ht, htask t ht]
  constructor
  · intro t ht
    have ht := ((hm t).mp ht).2
    rw [htask t ht]
    exact h.owned t ht
  · intro t ht hnone
    obtain ⟨hne, ht⟩ := (hm t).mp ht
    obtain ⟨p, hp, hw, hsleep⟩ := h.sound t ht (hfunc t ht ▸ hnone)
    have hcur : p ≠ cur := by
      rintro rfl
      exact hne (h.once t ht x hx p hw hwake)
    exact ⟨p, hp, (hwakes t ht p).mpr hw, (hstate p hp).mpr ⟨hcur, hsleep⟩⟩
  · intro p hp hsleep
    obtain ⟨hcur, hsleep⟩ := (hstate p hp).mp hsleep
    obtain ⟨t, ht, hw⟩ := h.complete p hp hsleep
    have hne : t ≠ x := by
      rintro rfl
      exact hcur (Option.some.inj (hw.2.symm.trans hwake.2))
    exact ⟨t, (hm t).mpr ⟨hne, ht⟩, (hwakes t ht p).mpr hw⟩
  · intro s hs t ht p hws hwt
    have hs := ((hm s).mp hs).2
    have ht := ((hm t).mp ht).2
    exact h.once s hs t ht p ((hwakes s hs p).mp hws) ((hwakes t ht p).mp hwt)

theorem asleep_iff {p : Ptr} (hp : p ∈ l) :
    Asleep k p ↔ ∃! t, t ∈ m ∧ Wakes k t p := by
  constructor
  · intro hsleep
    obtain ⟨t, ht, hw⟩ := h.complete p hp hsleep
    exact ⟨t, ⟨ht, hw⟩, fun s hs => h.once s hs.1 t ht p hs.2 hw⟩
  · rintro ⟨t, ⟨ht, hw⟩, -⟩
    obtain ⟨q, -, hw', hsleep⟩ := h.sound t ht hw.1
    obtain rfl : p = q := Option.some.inj (hw.2.symm.trans hw'.2)
    exact hsleep

end Paired

end XinOS.Kernel
