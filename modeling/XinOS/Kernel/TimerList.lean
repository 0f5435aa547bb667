import XinOS.Kernel.Timers

/-!
# The timer list

Timers are linked in and out like tasks, in order of their timeouts.  The
comparisons are unsigned.
-/

namespace XinOS.Kernel

open XinOS.Foundation

variable {w : Nat} {k k' : State w} {m pre post : List Ptr} {t : Ptr}

def State.deadline (k : State w) (t : Ptr) : Nat := (k.timer t).timeout.toNat

structure Rearmed (k k' : State w) : Prop where
  info : ∀ t, k'.timer t = { k.timer t with next := (k'.timer t).next }
  rest : k' = { k with timer := k'.timer, firstTimer := k'.firstTimer }

namespace Rearmed

theorem setTimerNext (k : State w) (t : Ptr) (q : Option Ptr) :
    Rearmed k (k.setTimerNext t q) := by
  refine ⟨fun r => ?_, rfl⟩
  by_cases hr : r = t <;> simp [State.setTimerNext, hr]

theorem trans {k'' : State w} (h : Rearmed k k') (h' : Rearmed k' k'') :
    Rearmed k k'' := by
  constructor
  · intro p
    rw [h'.info, h.info]
  · rw [h'.rest, h.rest]

variable (h : Rearmed k k')
include h

theorem deadline_eq : k'.deadline = k.deadline := by
  funext t
  rw [State.deadline, h.info, State.deadline]

theorem func_eq (t : Ptr) : (k'.timer t).func = (k.timer t).func := by
  rw [h.info]

theorem task_eq (t : Ptr) : (k'.timer t).task = (k.timer t).task := by
  rw [h.info]

end Rearmed

structure TimerList (k : State w) (m : List Ptr) : Prop where
  path : Path k.timerNext k.firstTimer m none
  address : ∀ t ∈ m, 0 < t ∧ t < 2 ^ 64

theorem TimerList.short (h : TimerList k m) : m.length < walkFuel :=
  length_lt_of_nodup h.path.nodup h.address (by decide)

structure TimerInv (k : State w) (m : List Ptr) : Prop where
  path : Path k.timerNext k.firstTimer m none
  nodup : m.Nodup
  sorted : m.Pairwise fun s t => k.deadline s ≤ k.deadline t
  live : m.Perm k.liveTimers
  address : ∀ t ∈ m, 0 < t ∧ t < 2 ^ 64

namespace TimerInv

theorem boot (task : Ptr → TaskInfo) (timer : Ptr → Timer w) :
    TimerInv (boot task timer) [] where
  path := rfl
  nodup := .nil
  sorted := .nil
  live := .nil
  address := by simp

theorem mem_live (h : TimerInv k m) : t ∈ k.liveTimers ↔ t ∈ m :=
  h.live.mem_iff.symm

theorem list (h : TimerInv k m) : TimerList k m := ⟨h.path, h.address⟩

theorem short (h : TimerInv k m) : m.length < walkFuel := h.list.short

theorem congr (h : TimerInv k m) (htimer : ∀ t ∈ m, k'.timer t = k.timer t)
    (hfirst : k'.firstTimer = k.firstTimer)
    (hlive : k'.liveTimers = k.liveTimers) : TimerInv k' m where
  path := hfirst ▸ h.path.congr fun t ht => congrArg Timer.next (htimer t ht)
  nodup := h.nodup
  sorted := sorted_congr h.sorted fun t ht => by
    rw [State.deadline, htimer t ht, State.deadline]
  live := hlive ▸ h.live
  address := h.address

end TimerInv

/-! ## `timer_create` -/

theorem insertTimer_spec (hpath : Path k.timerNext k.firstTimer m none)
    (hnodup : m.Nodup) (hshort : m.length < walkFuel) (ht : t ∉ m)
    (hnext : m = [] → k.timerNext t = none) :
    ∃ k', insertTimer k t = .ok k' ∧ Rearmed k k' ∧
      Path k'.timerNext k'.firstTimer (insertByKey k.deadline t m) none := by
  cases m with
  | nil =>
      have hfirst : k.firstTimer = none := hpath
      refine ⟨{ k with firstTimer := some t }, ?_, ⟨fun _ => rfl, rfl⟩,
        rfl, hnext rfl⟩
      rw [insertTimer, hfirst]
  | cons y rest =>
      have hfirst : k.firstTimer = some y := hpath.1
      by_cases hlt : k.deadline t < k.deadline y
      · refine ⟨{ k.setTimerNext t (some y) with firstTimer := some t }, ?_,
          ⟨(Rearmed.setTimerNext k t _).info, rfl⟩, ?_⟩
        · rw [insertTimer, hfirst]
          exact if_pos hlt
        · rw [insertByKey_front hlt]
          have hpath' := (hfirst ▸ hpath).insert_front ht
          rwa [← State.setTimerNext_timerNext] at hpath'
      · obtain ⟨l₁, z, l₂, hsplit, hinsert, hwalk⟩ :=
          (hfirst ▸ hpath).walk_place (not_lt.mp hlt) hshort
        refine ⟨(k.setTimerNext z (some t)).setTimerNext t l₂.head?, ?_,
          (Rearmed.setTimerNext k z _).trans (Rearmed.setTimerNext _ t _), ?_⟩
        · rw [insertTimer, hfirst]
          refine (if_neg hlt).trans ?_
          unfold State.deadline at hwalk
          simp only [BitVec.le_def, hwalk]
        · rw [hinsert]
          have hpath' := (hsplit ▸ hpath).insert_behind (hsplit ▸ hnodup)
            (hsplit ▸ ht)
          rwa [← State.setTimerNext_timerNext,
            ← State.setTimerNext_timerNext] at hpath'

theorem TimerInv.timerCreate_spec (h : TimerInv k m) (ht : t ∉ m)
    (haddr : 0 < t ∧ t < 2 ^ 64) (func : Option Nat) (args : Nat)
    (timeout : BitVec w) :
    ∃ k', timerCreate k t func args timeout = .ok k' ∧
      Rearmed (armTimer k t func args timeout) k' ∧
      TimerInv k' (insertByKey k'.deadline t m) := by
  have hother : ∀ s ∈ m, (armTimer k t func args timeout).timer s = k.timer s :=
    k.setTimer_of_notMem ht _
  have hsorted : m.Pairwise fun r s =>
      (armTimer k t func args timeout).deadline r ≤
        (armTimer k t func args timeout).deadline s :=
    sorted_congr h.sorted fun s hs => by
      rw [State.deadline, hother s hs, State.deadline]
  obtain ⟨k', hinsert, hrel, hpath⟩ := insertTimer_spec (t := t)
    (k := armTimer k t func args timeout)
    (h.path.congr fun s hs => congrArg Timer.next (hother s hs))
    h.nodup h.short ht fun _ => by simp [State.timerNext, armTimer]
  have hperm := insertByKey_perm k'.deadline t m
  refine ⟨k', hinsert, hrel,
    { path := ?_, nodup := ?_, sorted := ?_, live := ?_, address := ?_ }⟩
  · rwa [hrel.deadline_eq]
  · exact hperm.nodup_iff.mpr (List.nodup_cons.mpr ⟨ht, h.nodup⟩)
  · rw [hrel.deadline_eq]
    exact insertByKey_sorted hsorted
  · rw [hrel.rest]
    exact hperm.trans (h.live.cons t)
  · intro s hs
    rcases List.mem_cons.mp (hperm.mem_iff.mp hs) with rfl | hs
    · exact haddr
    · exact h.address s hs

/-! ## `timer_delete` -/

namespace TimerList

theorem timerDelete_mem (h : TimerList k m) (ht : t ∈ m) :
    ∃ k', timerDelete k (some t) = .ok k' ∧
      Rearmed { k with liveTimers := k.liveTimers.erase t } k' ∧
      TimerList k' (m.erase t) := by
  obtain ⟨pre, post, rfl⟩ := List.append_of_mem ht
  have hnodup := h.path.nodup
  have hnotMem : t ∉ pre ++ post := (List.nodup_middle.mp hnodup).notMem
  have herase : (pre ++ t :: post).erase t = pre ++ post :=
    erase_middle fun hmem => hnotMem (List.mem_append_left _ hmem)
  have haddr : ∀ s ∈ (pre ++ t :: post).erase t, 0 < s ∧ s < 2 ^ 64 :=
    fun s hs => h.address s (List.mem_of_mem_erase hs)
  rcases List.eq_nil_or_concat pre with rfl | ⟨front, y, rfl⟩
  · have hfirst : k.firstTimer = some t := h.path.1
    refine ⟨freeTimer { k with firstTimer := k.timerNext t } t, ?_,
      ⟨fun _ => rfl, rfl⟩, herase ▸ h.path.2, haddr⟩
    simp only [timerDelete, hfirst]
    exact if_pos rfl
  · rw [List.concat_eq_append] at *
    obtain ⟨first, hfirst⟩ := h.path.exists_head
    have hmem := h.path.head_mem (by simp) hfirst
    have hne : ∀ s ∈ front ++ [y], s ≠ t := fun s hs =>
      (List.nodup_append.mp hnodup).2.2 s hs t (by simp)
    have hwalk : walk k.timerNext (fun it => decide (it ≠ t)) walkFuel
        (some first) first = some (some t, (front ++ [y]).getLastD first) :=
      (hfirst ▸ h.path).walk_find (by simpa using hne) (by simp) h.short first
    rw [List.getLastD_concat] at hwalk
    have hrel : Rearmed { k with liveTimers := k.liveTimers.erase t }
        (freeTimer (k.setTimerNext y (k.timerNext t)) t) :=
      ⟨(Rearmed.setTimerNext k y _).info, rfl⟩
    refine ⟨_, ?_, hrel, ?_, haddr⟩
    · simp only [timerDelete, hfirst]
      refine (if_neg (hne first hmem).symm).trans ?_
      rw [hwalk]
    · have hpath := h.path
      rw [herase]
      rw [List.append_assoc, List.singleton_append] at hpath hnodup ⊢
      have := hpath.unlink_behind hnodup
      rwa [← State.setTimerNext_timerNext] at this

theorem timerDelete_null (k : State w) : timerDelete k none = .ok k := by
  cases hfirst : k.firstTimer <;> simp only [timerDelete, hfirst]

theorem timerDelete_nil (h : TimerList k []) (t : Option Ptr) :
    timerDelete k t = .ok k := by
  have hfirst : k.firstTimer = none := h.path
  simp only [timerDelete, hfirst]

/-- The loop runs off the end of a list without the timer, and `it->next` is read
there. -/
theorem timerDelete_absent (h : TimerList k m) (hm : m ≠ []) (ht : t ∉ m) :
    timerDelete k (some t) = .error .nullAccess := by
  obtain ⟨y, rest, rfl⟩ := List.exists_cons_of_ne_nil hm
  have hfirst : k.firstTimer = some y := h.path.1
  have hne : ∀ s ∈ y :: rest, s ≠ t := fun s hs heq => ht (heq ▸ hs)
  have hwalk : walk k.timerNext (fun it => decide (it ≠ t)) walkFuel
      (some y) y = some (none, (y :: rest).getLastD y) :=
    (hfirst ▸ h.path).walk_all (by simpa using hne) h.short y
  simp only [timerDelete, hfirst, deleteFrom, if_neg (hne y (by simp)).symm, hwalk]

end TimerList

theorem TimerInv.timerDelete_spec (h : TimerInv k m) (ht : t ∈ m) :
    ∃ k', timerDelete k (some t) = .ok k' ∧
      Rearmed { k with liveTimers := k.liveTimers.erase t } k' ∧
      TimerInv k' (m.erase t) := by
  obtain ⟨k', hdelete, hrel, hlist⟩ := h.list.timerDelete_mem ht
  refine ⟨k', hdelete, hrel,
    { path := hlist.path
      nodup := h.nodup.erase t
      sorted := ?_
      live := ?_
      address := hlist.address }⟩
  · rw [hrel.deadline_eq]
    exact h.sorted.sublist List.erase_sublist
  · rw [hrel.rest]
    exact h.live.erase t

end XinOS.Kernel
