import XinOS.Kernel.TaskSteps
import XinOS.Kernel.TimerList

/-!
# What the operations on timers do

The tick handler goes through the timers that are due.  It calls their functions,
up to the first one without a function: that timer is deleted and its task woken.
-/

namespace XinOS.Kernel

open XinOS.Foundation

variable {w : Nat} {k k' : State w} {l m : List Ptr}

theorem TaskInv.rearmed (h : TaskInv k l) (hrel : Rearmed k k') :
    TaskInv k' l := by
  rw [hrel.rest]
  exact h.congr (fun _ _ => rfl) rfl rfl rfl rfl

theorem TimerInv.relinked (h : TimerInv k m) (hrel : Relinked k k') :
    TimerInv k' m := by
  rw [hrel.rest]
  exact h.congr (fun _ _ => rfl) rfl rfl

theorem TimerInv.timerDelete_cases (h : TimerInv k m) {t : Option Ptr}
    (hok : timerDelete k t = .ok k') :
    k' = k ∨ ∃ s ∈ m,
      Rearmed { k with liveTimers := k.liveTimers.erase s } k' ∧
      TimerInv k' (m.erase s) := by
  cases t with
  | none => exact .inl (Except.ok.inj (hok.symm.trans (TimerList.timerDelete_null k)))
  | some t =>
      by_cases ht : t ∈ m
      · obtain ⟨k₁, hdel, hrel, hinv⟩ := h.timerDelete_spec ht
        obtain rfl : k₁ = k' := Except.ok.inj (hdel.symm.trans hok)
        exact .inr ⟨t, ht, hrel, hinv⟩
      · cases m with
        | nil => exact .inl (Except.ok.inj (hok.symm.trans (h.list.timerDelete_nil _)))
        | cons y rest =>
            have hfail := h.list.timerDelete_absent (by simp) ht
            exact nomatch hok.symm.trans hfail

/-! ## `timer_check` -/

/-- `timer_check` when the timer functions do something: `call func args` is what
the call makes of the state. -/
def timerCheckWith (call : Nat → Nat → State w → State w) :
    Nat → State w → Option Ptr →
    Except Fault (Option Ptr × State w × List (Nat × Nat))
  | 0, _, _ => .error .noReturn
  | _ + 1, k, none => .ok (none, k, [])
  | fuel + 1, k, some it =>
      if (k.timer it).timeout ≤ k.ticks then
        match (k.timer it).task with
        | none => .error .nullAccess
        | some task =>
            match (k.timer it).func with
            | none =>
                if (k.task task).state = .sleeping then
                  match timerDelete k (some it) with
                  | .error e => .error e
                  | .ok k => .ok (some task, k, [])
                else .error .nullCall
            | some func =>
                let args := (k.timer it).args
                let k := call func args k
                match timerCheckWith call fuel k (k.timerNext it) with
                | .error e => .error e
                | .ok (task, k, calls) => .ok (task, k, (func, args) :: calls)
      else .ok (none, k, [])

theorem timerCheckWith_id (fuel : Nat) (k : State w) (it : Option Ptr) :
    timerCheckWith (fun _ _ k => k) fuel k it = timerCheckLoop k fuel it := by
  induction fuel generalizing it with
  | zero => rfl
  | succ fuel ih =>
      cases it with
      | none => rfl
      | some it =>
          have hrest := ih (k.timerNext it)
          unfold timerCheckWith timerCheckLoop
          exact hrest ▸ rfl

/-- `k'` is `k` as far as `timer_check` looks at it: timers, ticks, and the
sleeping tasks of timers without a function. -/
structure Undisturbed (k k' : State w) : Prop where
  timer : ∀ t ∈ k.liveTimers, k'.timer t = k.timer t
  first : k'.firstTimer = k.firstTimer
  live : k'.liveTimers = k.liveTimers
  ticks : k'.ticks = k.ticks
  asleep : ∀ t ∈ k.liveTimers, (k.timer t).func = none →
    ∀ p, (k.timer t).task = some p → (k.task p).state = .sleeping →
      (k'.task p).state = .sleeping

theorem Undisturbed.refl (k : State w) : Undisturbed k k :=
  ⟨fun _ _ => rfl, rfl, rfl, rfl, fun _ _ _ _ _ h => h⟩

theorem Undisturbed.trans {k'' : State w} (h : Undisturbed k k')
    (h' : Undisturbed k' k'') : Undisturbed k k'' where
  timer := fun t ht => (h'.timer t (h.live ▸ ht)).trans (h.timer t ht)
  first := h'.first.trans h.first
  live := h'.live.trans h.live
  ticks := h'.ticks.trans h.ticks
  asleep := fun t ht hfunc p hp hsleep =>
    h'.asleep t (h.live ▸ ht) (by rwa [h.timer t ht]) p
      (by rwa [h.timer t ht]) (h.asleep t ht hfunc p hp hsleep)

theorem TimerInv.undisturbed (h : TimerInv k m) (hk : Undisturbed k k') :
    TimerInv k' m :=
  h.congr (fun t ht => hk.timer t (h.mem_live.mpr ht)) hk.first hk.live

structure Harmless (D : State w → State w → Prop)
    (call : Nat → Nat → State w → State w) : Prop where
  refl : ∀ k, D k k
  trans : ∀ k k' k'', D k k' → D k' k'' → D k k''
  undisturbed : ∀ k k', D k k' → Undisturbed k k'
  call : ∀ func args k, D k (call func args k)

theorem harmless_id : Harmless (w := w) Eq fun _ _ k => k where
  refl := fun _ => rfl
  trans := fun _ _ _ => Eq.trans
  undisturbed := fun k _ heq => heq ▸ Undisturbed.refl k
  call := fun _ _ _ => rfl

def State.Due (k : State w) (t : Ptr) : Prop := (k.timer t).timeout ≤ k.ticks

instance (k : State w) (t : Ptr) : Decidable (k.Due t) :=
  inferInstanceAs (Decidable (_ ≤ _))

def State.callOf (k : State w) (t : Ptr) : Option (Nat × Nat) :=
  (k.timer t).func.map fun func => (func, (k.timer t).args)

/-- What `timer_check` does with the timers of `m`: it calls those that are due,
to the end or up to the first one without a function. -/
inductive Checked (D : State w → State w → Prop) (k : State w) (m : List Ptr)
    (k' : State w) : Option Ptr → List (Nat × Nat) → Prop where
  | all (due late : List Ptr) (hm : m = due ++ late)
      (hdue : ∀ t ∈ due, k.Due t ∧ (k.timer t).func ≠ none)
      (hlate : ∀ t ∈ late, ¬k.Due t) (hk : D k k') :
      Checked D k m k' none (due.filterMap k.callOf)
  | woke (due late : List Ptr) {t p : Ptr} {k₁ : State w}
      (hm : m = due ++ t :: late)
      (hdue : ∀ t ∈ due, k.Due t ∧ (k.timer t).func ≠ none) (ht : k.Due t)
      (hfunc : (k.timer t).func = none) (htask : (k.timer t).task = some p)
      (hk : D k k₁) (hsleep : (k₁.task p).state = .sleeping)
      (hdelete : timerDelete k₁ (some t) = .ok k') :
      Checked D k m k' (some p) (due.filterMap k.callOf)

section Check

variable {D : State w → State w → Prop} {call : Nat → Nat → State w → State w}
variable {k₁ : State w} {pre post : List Ptr} {t : Ptr} {it r : Option Ptr}
variable {fuel : Nat} {calls : List (Nat × Nat)}

theorem Checked.cons {func : Nat} (hD : Harmless D call)
    (h : Checked D k₁ m k' r calls) (hk : D k k₁) (hlive : t ∈ k.liveTimers)
    (hm : ∀ s ∈ m, s ∈ k.liveTimers) (hdue : k.Due t)
    (hfunc : (k.timer t).func = some func) :
    Checked D k (t :: m) k' r ((func, (k.timer t).args) :: calls) := by
  have hsame := hD.undisturbed _ _ hk
  have hcall : k.callOf t = some (func, (k.timer t).args) := by
    rw [State.callOf, hfunc]
    rfl
  have hother : ∀ s ∈ m, k₁.timer s = k.timer s := fun s hs =>
    hsame.timer s (hm s hs)
  have hdueOf : ∀ s ∈ m, (k₁.Due s ↔ k.Due s) := fun s hs => by
    rw [State.Due, State.Due, hother s hs, hsame.ticks]
  have hcalls : ∀ due ⊆ m, (func, (k.timer t).args) :: due.filterMap k₁.callOf =
      (t :: due).filterMap k.callOf := by
    intro due hsub
    rw [List.filterMap_cons_some hcall]
    congr 1
    refine List.filterMap_congr fun s hs => ?_
    rw [State.callOf, State.callOf, hother s (hsub hs)]
  have hfront : ∀ due ⊆ m, (∀ s ∈ due, k₁.Due s ∧ (k₁.timer s).func ≠ none) →
      ∀ s ∈ t :: due, k.Due s ∧ (k.timer s).func ≠ none := by
    intro due hsub hall s hs
    rcases List.mem_cons.mp hs with rfl | hs
    · exact ⟨hdue, by simp [hfunc]⟩
    · rw [← hother s (hsub hs), ← hdueOf s (hsub hs)]
      exact hall s hs
  cases h with
  | @all due late hm' hall hlate hk' =>
      have hsub : due ⊆ m := fun s hs => by simp [hm', hs]
      rw [hcalls due hsub]
      refine .all (t :: due) late (by rw [hm']; rfl) (hfront due hsub hall) ?_
        (hD.trans _ _ _ hk hk')
      exact fun s hs => (hdueOf s (by simp [hm', hs])).not.mp (hlate s hs)
  | @woke due late s p k₂ hm' hall hs hsfunc hstask hk' hsleep hdelete =>
      have hsub : due ⊆ m := fun r hr => by simp [hm', hr]
      have hsm : s ∈ m := by simp [hm']
      rw [hcalls due hsub]
      rw [hdueOf s hsm] at hs
      rw [hother s hsm] at hsfunc hstask
      exact .woke (t :: due) late (by rw [hm']; rfl) (hfront due hsub hall) hs
        hsfunc hstask (hD.trans _ _ _ hk hk') hsleep hdelete

theorem TimerInv.not_due {rest : List Ptr} (h : TimerInv k (pre ++ t :: rest))
    (ht : ¬k.Due t) : ∀ s ∈ t :: rest, ¬k.Due s := by
  have hsorted := (List.pairwise_append.mp h.sorted).2.1
  intro s hs hdue
  have hle : k.deadline t ≤ k.deadline s := by
    rcases List.mem_cons.mp hs with rfl | hs
    · exact le_rfl
    · exact (List.pairwise_cons.mp hsorted).1 s hs
  exact ht (le_trans hle hdue)

theorem TimerInv.rest_undisturbed {rest : List Ptr} (h : TimerInv k (pre ++ t :: rest))
    (hrest : Path k.timerNext (k.timerNext t) rest none) (hk : Undisturbed k k') :
    TimerInv k' ((pre ++ [t]) ++ rest) ∧
      Path k'.timerNext (k'.timerNext t) rest none := by
  have hnext : ∀ s ∈ t :: rest, k'.timerNext s = k.timerNext s := fun s hs =>
    congrArg Timer.next (hk.timer s (h.mem_live.mpr (List.mem_append_right _ hs)))
  refine ⟨by simpa using h.undisturbed hk, ?_⟩
  rw [hnext t List.mem_cons_self]
  exact hrest.congr fun s hs => hnext s (List.mem_cons_of_mem _ hs)

theorem timerCheckWith_ok (hD : Harmless D call) (pre : List Ptr)
    (h : TimerInv k (pre ++ post))
    (hpath : Path k.timerNext it post none)
    (hok : timerCheckWith call fuel k it = .ok (r, k', calls)) :
    Checked D k post k' r calls := by
  induction fuel generalizing k it pre post calls with
  | zero => cases hok
  | succ fuel ih =>
      cases post with
      | nil =>
          obtain rfl : it = none := hpath
          cases hok
          exact .all [] [] rfl (by simp) (by simp) (hD.refl _)
      | cons t rest =>
          obtain ⟨rfl, hrest⟩ := hpath
          simp only [timerCheckWith] at hok
          split at hok
          swap
          · rename_i hdue
            cases hok
            exact .all [] (t :: rest) rfl (by simp)
              (h.not_due hdue) (hD.refl _)
          rename_i hdue
          split at hok
          · cases hok
          rename_i p htask
          split at hok
          · rename_i hfunc
            split at hok
            swap
            · cases hok
            rename_i hsleep
            split at hok
            · cases hok
            rename_i k₁ hdelete
            cases hok
            exact .woke [] rest rfl (by simp) hdue hfunc htask
              (hD.refl _) hsleep hdelete
          · rename_i func hfunc
            split at hok
            · cases hok
            rename_i hloop
            cases hok
            have hk := hD.call func (k.timer t).args k
            have hsame := hD.undisturbed _ _ hk
            have hlive : ∀ s ∈ t :: rest, s ∈ k.liveTimers := fun s hs =>
              h.mem_live.mpr (List.mem_append_right _ hs)
            obtain ⟨hinv, hpath⟩ := h.rest_undisturbed hrest hsame
            exact (ih (pre ++ [t]) hinv hpath hloop).cons hD hk (hlive t (by simp))
              (fun s hs => hlive s (by simp [hs])) hdue hfunc

def TasksAsleep (k : State w) (m : List Ptr) : Prop :=
  ∀ t ∈ m, ∃ p, (k.timer t).task = some p ∧
    ((k.timer t).func = none → (k.task p).state = .sleeping)

theorem TasksAsleep.undisturbed (h : TasksAsleep k m) (hk : Undisturbed k k')
    (hm : ∀ t ∈ m, t ∈ k.liveTimers) : TasksAsleep k' m := by
  intro t ht
  obtain ⟨p, hp, hsleep⟩ := h t ht
  rw [hk.timer t (hm t ht)]
  exact ⟨p, hp, fun hfunc => hk.asleep t (hm t ht) hfunc p hp (hsleep hfunc)⟩

theorem timerCheckWith_total (hD : Harmless D call) (pre : List Ptr)
    (h : TimerInv k (pre ++ post)) (hpath : Path k.timerNext it post none)
    (hfuel : post.length < fuel) (hasleep : TasksAsleep k post) :
    ∃ result, timerCheckWith call fuel k it = .ok result := by
  induction post generalizing k it pre fuel with
  | nil =>
      obtain ⟨fuel, rfl⟩ : ∃ f, fuel = f + 1 := ⟨fuel - 1, by simp at hfuel; omega⟩
      obtain rfl : it = none := hpath
      exact ⟨_, rfl⟩
  | cons t rest ih =>
      obtain ⟨fuel, rfl⟩ : ∃ f, fuel = f + 1 := ⟨fuel - 1, by simp at hfuel; omega⟩
      obtain ⟨rfl, hrest⟩ := hpath
      obtain ⟨p, hp, hsleep⟩ := hasleep t (by simp)
      have hlive : ∀ s ∈ t :: rest, s ∈ k.liveTimers := fun s hs =>
        h.mem_live.mpr (List.mem_append_right _ hs)
      by_cases hdue : (k.timer t).timeout ≤ k.ticks
      swap
      · exact ⟨_, by rw [timerCheckWith, if_neg hdue]⟩
      cases hfunc : (k.timer t).func with
      | none =>
          obtain ⟨k', hdelete, -⟩ := h.timerDelete_spec (t := t) (by simp)
          refine ⟨(some p, k', []), ?_⟩
          simp only [timerCheckWith, if_pos hdue, hp, hfunc, hsleep hfunc,
            if_true, hdelete]
      | some func =>
          have hsame := hD.undisturbed _ _ (hD.call func (k.timer t).args k)
          obtain ⟨hinv, hpath⟩ := h.rest_undisturbed hrest hsame
          obtain ⟨result, hrun⟩ := ih (pre ++ [t]) hinv hpath (by simpa using hfuel)
            (TasksAsleep.undisturbed (fun s hs => hasleep s (by simp [hs])) hsame
              fun s hs => hlive s (by simp [hs]))
          obtain ⟨task, k', calls⟩ := result
          refine ⟨(task, k', (func, (k.timer t).args) :: calls), ?_⟩
          simp only [timerCheckWith, if_pos hdue, hp, hfunc, hrun]

end Check

theorem TimerInv.timerCheck_ok (h : TimerInv k m) {r : Option Ptr}
    {calls : List (Nat × Nat)} (hok : timerCheck k = .ok (r, k', calls)) :
    Checked Eq k m k' r calls := by
  rw [timerCheck, ← timerCheckWith_id] at hok
  exact timerCheckWith_ok harmless_id [] h h.path hok

theorem TimerInv.timerCheck_total (h : TimerInv k m) (hasleep : TasksAsleep k m) :
    ∃ r k' calls, timerCheck k = .ok (r, k', calls) ∧
      Checked Eq k m k' r calls := by
  obtain ⟨⟨r, k', calls⟩, hok⟩ := timerCheckWith_total harmless_id [] h
    h.path h.short hasleep
  rw [timerCheckWith_id] at hok
  exact ⟨r, k', calls, hok, h.timerCheck_ok hok⟩

/-! ## `timer_handler` -/

inductive Ticked (k : State w) (m : List Ptr) (k' : State w) : Control → Prop where
  | woke {t p : Ptr} {k₁ : State w} (ht : t ∈ m) (hfunc : (k.timer t).func = none)
      (htask : (k.timer t).task = some p)
      (hsleep : (k.task p).state = .sleeping)
      (hdelete : timerDelete { k with ticks := k.ticks + 1 } (some t) = .ok k₁)
      (hk : k' = { k₁.setTaskState p .runnable with curTask := some p }) :
      Ticked k m k' .os
  | quiet {c : Control} (hc : c = .os ∨ c = .stay)
      (hk : k' = { k with
        ticks := k'.ticks, curTaskStartTick := k'.curTaskStartTick }) :
      Ticked k m k' c

theorem TimerInv.nextTick (h : TimerInv k m) :
    TimerInv { k with ticks := k.ticks + 1 } m :=
  h.congr (fun _ _ => rfl) rfl rfl

inductive TickEnd (k k' : State w) : Option Ptr → Control → Prop where
  | woke {p : Ptr}
      (hk : k' = { k.setTaskState p .runnable with curTask := some p }) :
      TickEnd k k' (some p) .os
  | idle (hcur : k.curTask = none) (hk : k' = k) : TickEnd k k' none .os
  | expired {cur : Ptr} (hcur : k.curTask = some cur)
      (hslice : (k.task cur).timeslice.toNat ≤
        (k.ticks - k.curTaskStartTick).toNat)
      (hk : k' = { k with curTaskStartTick := k.ticks }) :
      TickEnd k k' none .os
  | runs {cur : Ptr} (hcur : k.curTask = some cur)
      (hslice : ¬(k.task cur).timeslice.toNat ≤
        (k.ticks - k.curTaskStartTick).toNat)
      (hk : k' = k) : TickEnd k k' none .stay

theorem TickEnd.quiet {c : Control} (h : TickEnd k k' none c) :
    k' = { k with curTaskStartTick := k'.curTaskStartTick } ∧
      (c = .os ∨ c = .stay ∧ k'.curTaskStartTick = k.curTaskStartTick) ∧
      (k'.curTaskStartTick = k.curTaskStartTick ∨ k'.curTaskStartTick = k.ticks) := by
  cases h with
  | idle _ hk => exact ⟨by rw [hk], .inl rfl, .inl (by rw [hk])⟩
  | expired _ _ hk => exact ⟨by rw [hk], .inl rfl, .inr (by rw [hk])⟩
  | runs _ _ hk => exact ⟨by rw [hk], .inr ⟨rfl, by rw [hk]⟩, .inl (by rw [hk])⟩

theorem timerHandler_end {c : Control} (hok : timerHandler k = .ok (k', c)) :
    ∃ r k₁ calls, timerCheck { k with ticks := k.ticks + 1 } =
      .ok (r, k₁, calls) ∧ TickEnd k₁ k' r c := by
  simp only [timerHandler] at hok
  split at hok
  · cases hok
  · rename_i task k₁ calls hcheck
    cases hok
    exact ⟨_, _, _, hcheck, .woke rfl⟩
  · rename_i k₁ calls hcheck
    refine ⟨_, _, _, hcheck, ?_⟩
    split at hok
    · rename_i hcur
      cases hok
      exact .idle hcur rfl
    · rename_i cur hcur
      split at hok
      · rename_i hslice
        cases hok
        exact .expired hcur hslice rfl
      · rename_i hslice
        cases hok
        exact .runs hcur hslice rfl

theorem TimerInv.timerHandler_ok (h : TimerInv k m) {c : Control}
    (hok : timerHandler k = .ok (k', c)) : Ticked k m k' c := by
  obtain ⟨r, k₁, calls, hcheck, hend⟩ := timerHandler_end hok
  cases h.nextTick.timerCheck_ok hcheck with
  | all _ _ _ _ _ hk =>
      subst hk
      cases hend with
      | idle hcur hk => exact .quiet (.inl rfl) (by rw [hk])
      | expired hcur _ hk => exact .quiet (.inl rfl) (by rw [hk])
      | runs hcur _ hk => exact .quiet (.inr rfl) (by rw [hk])
  | woke _ _ hm _ _ hfunc htask hk hsleep hdelete =>
      subst hk
      cases hend with
      | woke hk => exact .woke (by simp [hm]) hfunc htask hsleep hdelete hk

/-- When the timers without a function belong to sleeping tasks, a tick does not
fail, and it wakes the task of the first such timer that is due. -/
theorem TimerInv.timerHandler_first (h : TimerInv k m)
    (hasleep : TasksAsleep k m) :
    ∃ k' c, timerHandler k = .ok (k', c) ∧
      ((∃ t ∈ m, (k.timer t).func = none ∧
          (k.timer t).timeout ≤ k.ticks + 1) →
        ∃ pre t post p, m = pre ++ t :: post ∧
          (∀ s ∈ pre, (k.timer s).func ≠ none) ∧ (k.timer t).func = none ∧
          (k.timer t).task = some p ∧ (k'.task p).state = .runnable) := by
  obtain ⟨r, k₁, calls, hcheck, hchecked⟩ := h.nextTick.timerCheck_total hasleep
  cases hchecked with
  | @all due late hm hdue hlate hk =>
      subst hk
      have hnone : ∀ k' : State w, (∃ t ∈ m, (k.timer t).func = none ∧
            (k.timer t).timeout ≤ k.ticks + 1) →
          ∃ pre t post p, m = pre ++ t :: post ∧
            (∀ s ∈ pre, (k.timer s).func ≠ none) ∧ (k.timer t).func = none ∧
            (k.timer t).task = some p ∧ (k'.task p).state = .runnable := by
        rintro k' ⟨t, ht, hfunc, htick⟩
        rw [hm] at ht
        rcases List.mem_append.mp ht with ht | ht
        · exact absurd hfunc (hdue t ht).2
        · exact absurd htick (hlate t ht)
      simp only [timerHandler, hcheck]
      cases hcur : k.curTask with
      | none => exact ⟨_, _, rfl, hnone _⟩
      | some cur =>
          dsimp only
          split
          · exact ⟨_, _, rfl, hnone _⟩
          · exact ⟨_, _, rfl, hnone _⟩
  | @woke due late t p k₂ hm hdue _ hfunc htask _ _ _ =>
      refine ⟨{ k₁.setTaskState p .runnable with curTask := some p }, .os, ?_,
        fun _ => ⟨due, t, late, p, hm, fun s hs => (hdue s hs).2, hfunc, htask, ?_⟩⟩
      · simp only [timerHandler, hcheck]
      · simp [State.setTaskState]

/-! ## `task_delay` -/

theorem TimerInv.taskDelay_spec (h : TimerInv k m) {cur t : Ptr}
    (hcur : k.curTask = some cur) (ht : t ∉ m)
    (haddr : 0 < t ∧ t < 2 ^ 64) (tick : BitVec w) :
    ∃ k', taskDelay k t tick = .ok k' ∧
      Rearmed { armTimer (k.setTaskState cur .sleeping) t none 0 tick with
        msip := true } k' ∧
      TimerInv k' (insertByKey k'.deadline t m) := by
  have h₁ : TimerInv (k.setTaskState cur .sleeping) m :=
    h.congr (fun _ _ => rfl) rfl rfl
  obtain ⟨k₁, hcreate, hrel, hinv⟩ := h₁.timerCreate_spec ht haddr none 0 tick
  refine ⟨taskYield k₁, ?_, ⟨hrel.info, ?_⟩,
    hinv.congr (fun _ _ => rfl) rfl rfl⟩
  · rw [taskDelay, hcur]
    simp only [hcreate]
  · rw [taskYield, hrel.rest]

end XinOS.Kernel
