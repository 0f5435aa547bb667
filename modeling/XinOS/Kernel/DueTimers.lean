import XinOS.Kernel.WakeUp

/-!
# The timers that are due at a tick

`timer_check` returns with the first task that it wakes.  What stands behind the
timer of that task waits for a later tick, due or not.
-/

namespace XinOS.Kernel

open XinOS.Foundation

variable {w : Nat} {s : Machine w} {k k' k₁ : State w} {l m : List Ptr}

/-- The timer is due when `timer_handler` has counted the tick. -/
def State.DueNext (k : State w) (t : Ptr) : Prop :=
  (k.timer t).timeout ≤ k.ticks + 1

instance (k : State w) (t : Ptr) : Decidable (k.DueNext t) :=
  inferInstanceAs (Decidable (_ ≤ _))

structure TickHandles (k : State w) (m : List Ptr) (calls : List (Nat × Nat))
    (k' : State w) : Prop where
  calls : calls = (m.filter fun t => decide (k.DueNext t)).filterMap k.callOf
  woken : ∀ t ∈ m, k.DueNext t → (k.timer t).func = none →
    ¬Linked k'.timerNext k'.firstTimer t ∧
      ∀ p, (k.timer t).task = some p → (k'.task p).state = .runnable

def HandlesDue (k : State w) (m : List Ptr) : Prop :=
  ∃ r k₁ calls k' c,
    timerCheck { k with ticks := k.ticks + 1 } = .ok (r, k₁, calls) ∧
      timerHandler k = .ok (k', c) ∧ TickHandles k m calls k'

/-- Nothing that is due stands behind a timer without a function that is due. -/
def SleeperLast (k : State w) (m : List Ptr) : Prop :=
  m.Pairwise fun t s => (k.timer t).func = none → k.DueNext t → ¬k.DueNext s

instance (k : State w) (m : List Ptr) : Decidable (SleeperLast k m) :=
  inferInstanceAs (Decidable (m.Pairwise _))

theorem handlesDue_iff {r : Option Ptr} {calls : List (Nat × Nat)} {c : Control}
    (hcheck : timerCheck { k with ticks := k.ticks + 1 } = .ok (r, k₁, calls))
    (hok : timerHandler k = .ok (k', c)) :
    HandlesDue k m ↔ TickHandles k m calls k' := by
  constructor
  · rintro ⟨r', k₂, calls', k₃, c', hcheck', hok', hhandles⟩
    cases hcheck.symm.trans hcheck'
    cases hok.symm.trans hok'
    exact hhandles
  · exact fun hhandles => ⟨r, k₁, calls, k', c, hcheck, hok, hhandles⟩

theorem filter_due {due late : List Ptr} (hdue : ∀ t ∈ due, k.DueNext t)
    (hlate : ∀ t ∈ late, ¬k.DueNext t) :
    (due ++ late).filter (fun t => decide (k.DueNext t)) = due := by
  rw [List.filter_append, List.filter_eq_self.mpr (by simpa using hdue),
    List.filter_eq_nil_iff.mpr (by simpa using hlate), List.append_nil]

theorem tickHandles_iff_of_woke {due late : List Ptr} {t p : Ptr}
    (hm : m = due ++ t :: late)
    (hdue : ∀ s ∈ due, k.DueNext s ∧ (k.timer s).func ≠ none)
    (ht : k.DueNext t) (hfunc : (k.timer t).func = none)
    (htask : (k.timer t).task = some p) (hpath : TimerInv k' (due ++ late))
    (hnodup : m.Nodup) (hwoke : (k'.task p).state = .runnable) :
    TickHandles k m (due.filterMap k.callOf) k' ↔ ∀ s ∈ late, ¬k.DueNext s := by
  subst hm
  have hcall : k.callOf t = none := by rw [State.callOf, hfunc]; rfl
  have hfront : due.filter (fun s => decide (k.DueNext s)) = due :=
    List.filter_eq_self.mpr (by simpa using fun s hs => (hdue s hs).1)
  have hcalls : ((due ++ t :: late).filter fun s =>
        decide (k.DueNext s)).filterMap k.callOf =
      due.filterMap k.callOf ++
        (late.filter fun s => decide (k.DueNext s)).filterMap k.callOf := by
    rw [List.filter_append, hfront, List.filter_cons_of_pos (by simpa using ht),
      List.filterMap_append, List.filterMap_cons_none hcall]
  constructor
  · intro hhandles s hs hsdue
    have hmem : s ∈ late.filter fun s => decide (k.DueNext s) :=
      List.mem_filter.mpr ⟨hs, by simpa using hsdue⟩
    cases hsfunc : (k.timer s).func with
    | none =>
        have hgone := (hhandles.woken s (by simp [hs]) hsdue hsfunc).1
        exact hgone (hpath.path.linked_iff.mpr (by simp [hs]))
    | some func =>
        have heq := hhandles.calls
        rw [hcalls, List.self_eq_append_right, List.filterMap_eq_nil_iff] at heq
        have hnone := heq s hmem
        rw [State.callOf, hsfunc] at hnone
        cases hnone
  · intro hlate
    constructor
    · rw [hcalls, List.filter_eq_nil_iff.mpr (by simpa using hlate),
        List.filterMap_nil, List.append_nil]
    · intro s hs hsdue hsfunc
      rcases List.mem_append.mp hs with hs | hs
      · exact absurd hsfunc (hdue s hs).2
      rcases List.mem_cons.mp hs with rfl | hs
      · refine ⟨fun hlinked => ?_, fun q hq => ?_⟩
        · exact (List.nodup_middle.mp hnodup).notMem
            (hpath.path.linked_iff.mp hlinked)
        · obtain rfl : p = q := Option.some.inj (htask.symm.trans hq)
          exact hwoke
      · exact absurd hsdue (hlate s hs)

theorem sleeperLast_iff_of_woke {due late : List Ptr} {t : Ptr}
    (hdue : ∀ s ∈ due, (k.timer s).func ≠ none) (ht : k.DueNext t)
    (hfunc : (k.timer t).func = none) :
    SleeperLast k (due ++ t :: late) ↔ ∀ s ∈ late, ¬k.DueNext s := by
  rw [SleeperLast, List.pairwise_append, List.pairwise_cons]
  constructor
  · rintro ⟨-, ⟨hbehind, -⟩, -⟩ s hs
    exact hbehind s hs hfunc ht
  · intro hlate
    refine ⟨?_, ⟨fun s hs _ _ => hlate s hs, ?_⟩, ?_⟩
    · exact List.pairwise_of_forall_mem_list fun s hs _ _ hnone =>
        absurd hnone (hdue s hs)
    · exact List.pairwise_of_forall_mem_list fun _ _ r hr _ _ => hlate r hr
    · exact fun s hs _ _ hnone => absurd hnone (hdue s hs)

theorem MachineInv.handlesDue_iff (h : MachineInv s l m) :
    HandlesDue s.kernel m ↔ SleeperLast s.kernel m := by
  obtain ⟨k', c, hok, -⟩ := h.timers.timerHandler_first h.tasksAsleep
  obtain ⟨r, k₁, calls, hcheck, hend⟩ := timerHandler_end hok
  rw [Kernel.handlesDue_iff hcheck hok]
  cases h.timers.nextTick.timerCheck_ok hcheck with
  | @all due late hm hdue hlate hk =>
      have hfunc : ∀ t ∈ m, s.kernel.DueNext t → (s.kernel.timer t).func ≠ none := by
        intro t ht htdue
        rw [hm] at ht
        rcases List.mem_append.mp ht with ht | ht
        · exact (hdue t ht).2
        · exact absurd htdue (hlate t ht)
      refine iff_of_true ⟨?_, ?_⟩ ?_
      · rw [hm, filter_due (k := s.kernel) (fun t ht => (hdue t ht).1) hlate]
        rfl
      · exact fun t ht htdue hnone => absurd hnone (hfunc t ht htdue)
      · exact List.pairwise_of_forall_mem_list fun t ht _ _ hnone htdue =>
          absurd hnone (hfunc t ht htdue)
  | @woke due late t p k₂ hm hdue ht hfunc htask hk hsleep hdelete =>
      subst hk
      cases hend with
      | woke hk =>
          obtain ⟨k₂, hdelete', hrel, htimers⟩ :=
            h.timers.nextTick.timerDelete_spec (t := t) (by simp [hm])
          obtain rfl : k₂ = k₁ := Except.ok.inj (hdelete'.symm.trans hdelete)
          have herase : m.erase t = due ++ late := by
            have hnodup := h.timers.nodup
            rw [hm] at hnodup ⊢
            exact erase_middle fun hmem =>
              (List.nodup_middle.mp hnodup).notMem (List.mem_append_left _ hmem)
          have hlists : TimerInv k' (due ++ late) := by
            rw [← herase, hk]
            exact htimers.congr (fun _ _ => rfl) rfl rfl
          have hwoke : (k'.task p).state = .runnable := by
            simp [hk, State.setTaskState]
          rw [hm, sleeperLast_iff_of_woke (k := s.kernel)
            (fun s hs => (hdue s hs).2) ht hfunc, ← hm]
          exact tickHandles_iff_of_woke hm hdue ht hfunc htask hlists
            h.timers.nodup hwoke

/-- In every reachable state, a tick handles all the timers that are due exactly if
nothing that is due stands behind a sleeping task's timer that is due. -/
theorem due_handled_iff (taskStack : Nat) {task : Ptr → TaskInfo}
    {timer : Ptr → Timer w}
    (h : Reaches (stepRel (MachineOp.step taskStack)) anyLabel
      (Machine.boot task timer) s) :
    ∃ m, Path s.kernel.timerNext s.kernel.firstTimer m none ∧
      (HandlesDue s.kernel m ↔ SleeperLast s.kernel m) := by
  obtain ⟨l, m, hinv⟩ := machineInv_of_reaches taskStack h
  exact ⟨m, hinv.timers.path, hinv.handlesDue_iff⟩

/-- Two tasks fall asleep at once, the first for one tick. -/
def twoSleepers (tick : BitVec 64) : Option (Machine 64) :=
  exec (MachineOp.step 4096)
    (Machine.boot (fun _ => blankTask) fun _ => blankTimer)
    [.createTask 256 (argsOf 100), .createTask 512 (argsOf 105), .yield,
      .softwareInterrupt, .sleep 1024 1, .softwareInterrupt, .sleep 2048 tick]

theorem path_twoSleepers {k : State 64} (h : k.firstTimer = some 1024 ∧
    k.timerNext 1024 = some 2048 ∧ k.timerNext 2048 = none) :
    Path k.timerNext k.firstTimer [1024, 2048] none := h

theorem due_handled_of_one :
    ∃ s, twoSleepers 2 = some s ∧
      ∃ m, Path s.kernel.timerNext s.kernel.firstTimer m none ∧
        HandlesDue s.kernel m := by
  obtain ⟨s, hrun, hs⟩ := (Option.any_eq_true (fun s : Machine 64 =>
    decide ((s.kernel.firstTimer = some 1024 ∧
      s.kernel.timerNext 1024 = some 2048 ∧ s.kernel.timerNext 2048 = none) ∧
      SleeperLast s.kernel [1024, 2048])) (twoSleepers 2)).mp (by decide +kernel)
  obtain ⟨hlist, hlast⟩ := of_decide_eq_true hs
  obtain ⟨m, hpath, hiff⟩ := due_handled_iff 4096
    (Reaches.exec .refl (fun _ _ _ => trivial) hrun)
  obtain rfl := hpath.unique (path_twoSleepers hlist)
  exact ⟨s, hrun, _, hpath, hiff.mpr hlast⟩

/-- Two tasks are due to wake at the same tick, and one of them sleeps on. -/
theorem second_sleeper_waits :
    ∃ s, twoSleepers 1 = some s ∧
      ∃ m, Path s.kernel.timerNext s.kernel.firstTimer m none ∧
        ¬HandlesDue s.kernel m := by
  obtain ⟨s, hrun, hs⟩ := (Option.any_eq_true (fun s : Machine 64 =>
    decide ((s.kernel.firstTimer = some 1024 ∧
      s.kernel.timerNext 1024 = some 2048 ∧ s.kernel.timerNext 2048 = none) ∧
      ¬SleeperLast s.kernel [1024, 2048])) (twoSleepers 1)).mp (by decide +kernel)
  obtain ⟨hlist, hlast⟩ := of_decide_eq_true hs
  obtain ⟨l, m, hinv⟩ := machineInv_of_reaches 4096
    (Reaches.exec .refl (fun _ _ _ => trivial) hrun)
  obtain rfl := hinv.timers.path.unique (path_twoSleepers hlist)
  exact ⟨s, hrun, _, hinv.timers.path, hinv.handlesDue_iff.not.mpr hlast⟩

end XinOS.Kernel
