import XinOS.Kernel.Hart

/-!
# Time slices

`timer_handler` measures the slice of the running task from `_cur_task_start_tick`.
That variable is set when a slice runs out, but not when a task begins to run because
the one before it slept, yielded, exited or made room for one that woke.
-/

namespace XinOS.Kernel

open XinOS.Foundation

variable {w : Nat} {l m : List Ptr}

structure Timed (w : Nat) where
  machine : Machine w
  since : BitVec w

variable {s s' : Timed w}

def Timed.boot (task : Ptr → TaskInfo) (timer : Ptr → Timer w) : Timed w where
  machine := Machine.boot task timer
  since := 0

/-- The machine makes a step; the tick counter does not wrap around. -/
def Timed.step (taskStack : Nat) (s : Timed w) (op : HartOp w) :
    Option (Timed w) :=
  if op.isTick ∧ 2 ^ w ≤ s.machine.kernel.ticks.toNat + 1 then none
  else (op.step taskStack s.machine).map fun machine =>
    { machine := machine
      since := if op.isSchedule then machine.kernel.ticks else s.since }

/-- What is measured begins no later than what is meant. -/
structure SliceInv (s : Timed w) : Prop where
  started : s.machine.kernel.curTaskStartTick.toNat ≤
    s.machine.kernel.ticks.toNat
  running : ∀ p, s.machine.running = some p →
    s.machine.kernel.curTask = some p ∧
      s.machine.kernel.curTaskStartTick.toNat ≤ s.since.toNat ∧
      s.since.toNat ≤ s.machine.kernel.ticks.toNat

theorem SliceInv.boot (task : Ptr → TaskInfo) (timer : Ptr → Timer w) :
    SliceInv (Timed.boot task timer) where
  started := le_rfl
  running := by simp [Timed.boot, Machine.boot]

theorem toNat_succ {x : BitVec w} (h : x.toNat + 1 < 2 ^ w) :
    (x + 1).toNat = x.toNat + 1 := by
  show (x + BitVec.ofNat w 1).toNat = _
  rw [BitVec.toNat_add, BitVec.toNat_ofNat, Nat.mod_eq_of_lt (by omega : 1 < 2 ^ w),
    Nat.mod_eq_of_lt h]

theorem SliceInv.clock {op : HartOp w} {machine : Machine w} (h : SliceInv s)
    (hwrap : op.isTick = true → s.machine.kernel.ticks.toNat + 1 < 2 ^ w)
    (hclock : Clock op.isTick op.isSchedule s.machine machine) :
    SliceInv { machine := machine
               since := if op.isSchedule then machine.kernel.ticks
                 else s.since } := by
  have hticks : s.machine.kernel.ticks.toNat ≤ machine.kernel.ticks.toNat := by
    rw [hclock.ticks]
    split
    · rename_i htick
      rw [toNat_succ (hwrap htick)]
      exact Nat.le_succ _
    · exact le_rfl
  have hstarted : machine.kernel.curTaskStartTick.toNat ≤
      machine.kernel.ticks.toNat := by
    rcases hclock.start with hsame | ⟨-, hnow⟩
    · rw [hsame]
      exact h.started.trans hticks
    · rw [hnow]
  refine ⟨hstarted, fun p hp => ?_⟩
  rcases hclock.runs p hp with ⟨hcur, hschedule⟩ |
    ⟨hrunning, hcur, hschedule, hstart⟩
  · simp only [hschedule, if_true]
    exact ⟨hcur, hstarted, le_rfl⟩
  · obtain ⟨hcur', hle, hle'⟩ := h.running p hrunning
    simp only [hschedule, Bool.false_eq_true, if_false]
    rw [hstart]
    exact ⟨hcur.trans hcur', hle, hle'.trans hticks⟩

theorem sliceInv_of_reaches (taskStack : Nat) {task : Ptr → TaskInfo}
    {timer : Ptr → Timer w}
    (h : Reaches (stepRel (Timed.step taskStack)) anyLabel
      (Timed.boot task timer) s) :
    SliceInv s ∧ ∃ l m, MachineLists s.machine l m := by
  refine Reaches.invariant
    (P := fun s => SliceInv s ∧ ∃ l m, MachineLists s.machine l m)
    ⟨SliceInv.boot task timer, [], [], MachineLists.boot task timer⟩ ?_ h
  rintro s op s' ⟨hinv, l, m, hlists⟩ - hstep
  rw [stepRel, Timed.step] at hstep
  split at hstep
  · cases hstep
  · rename_i hwrap
    obtain ⟨machine, hmachine, rfl⟩ := Option.map_eq_some_iff.mp hstep
    obtain ⟨l', m', change, hfollows, hclock, -⟩ :=
      HartOp.step_spec taskStack hlists hmachine
    exact ⟨hinv.clock (fun htick => not_le.mp fun hle => hwrap ⟨htick, hle⟩) hclock,
      l', m', hfollows.lists⟩

structure QuietTick (s : Timed w) (p : Ptr) (c : Control) : Prop where
  running : s.machine.running = some p
  room : s.machine.kernel.ticks.toNat + 1 < 2 ^ w
  quiet : ∃ k calls, timerCheck { s.machine.kernel with
    ticks := s.machine.kernel.ticks + 1 } = .ok (none, k, calls)
  ends : ∃ k, timerHandler s.machine.kernel = .ok (k, c)

/-- The ticks of which the task `p` has used `n`, when it is counted from `start`. -/
def ticksFrom (s : Timed w) (start : BitVec w) : Nat :=
  s.machine.kernel.ticks.toNat + 1 - start.toNat

def sliceOf (s : Timed w) (p : Ptr) : Nat :=
  (s.machine.kernel.task p).timeslice.toNat

theorem switched_out_iff (hinv : SliceInv s) (hlists : MachineLists s.machine l m)
    {p : Ptr} {c : Control} (h : QuietTick s p c) :
    c = .os ↔
      sliceOf s p ≤ ticksFrom s s.machine.kernel.curTaskStartTick := by
  obtain ⟨k, calls, hcheck⟩ := h.quiet
  obtain ⟨k', hok⟩ := h.ends
  obtain ⟨r, k₁, calls', hcheck', hend⟩ := timerHandler_end hok
  cases hcheck.symm.trans hcheck'
  have hcur := (hinv.running p h.running).1
  have hsub : (s.machine.kernel.ticks + 1 -
      s.machine.kernel.curTaskStartTick).toNat =
      ticksFrom s s.machine.kernel.curTaskStartTick := by
    rw [BitVec.toNat_sub_of_le, toNat_succ h.room]
    · rfl
    · rw [BitVec.le_def, toNat_succ h.room]
      exact hinv.started.trans (Nat.le_succ _)
  cases hlists.timers.nextTick.timerCheck_ok hcheck with
  | all _ _ _ _ _ hk =>
      subst hk
      rw [← hsub]
      cases hend with
      | idle hnone _ => exact absurd (hcur.symm.trans hnone) (by simp)
      | expired hcur' hslice _ =>
          obtain rfl := Option.some.inj (hcur.symm.trans hcur')
          exact iff_of_true rfl hslice
      | runs hcur' hslice _ =>
          obtain rfl := Option.some.inj (hcur.symm.trans hcur')
          exact iff_of_false (by simp) hslice

theorem SliceInv.ticksFrom_le {p : Ptr} (hinv : SliceInv s)
    (hrunning : s.machine.running = some p) :
    ticksFrom s s.since ≤ ticksFrom s s.machine.kernel.curTaskStartTick := by
  have := (hinv.running p hrunning).2.1
  unfold ticksFrom
  omega

/-- In every reachable state, a tick that wakes nobody takes the running task off
the hart exactly when its slice is used up, if and only if the slice has been
measured from its dispatch, or is used up either way, or neither way. -/
theorem slice_exact_iff (taskStack : Nat) {task : Ptr → TaskInfo}
    {timer : Ptr → Timer w} {p : Ptr} {c : Control}
    (h : Reaches (stepRel (Timed.step taskStack)) anyLabel
      (Timed.boot task timer) s) (htick : QuietTick s p c) :
    (c = .os ↔ sliceOf s p ≤ ticksFrom s s.since) ↔
      (s.machine.kernel.curTaskStartTick = s.since ∨
        ticksFrom s s.machine.kernel.curTaskStartTick < sliceOf s p ∨
        sliceOf s p ≤ ticksFrom s s.since) := by
  obtain ⟨hinv, l, m, hlists⟩ := sliceInv_of_reaches taskStack h
  have hle := hinv.ticksFrom_le htick.running
  rw [switched_out_iff hinv hlists htick]
  constructor
  · intro hiff
    by_cases hused : sliceOf s p ≤ ticksFrom s s.since
    · exact .inr (.inr hused)
    · exact .inr (.inl (not_le.mp (hiff.not.mpr hused)))
  · rintro (heq | hless | hused)
    · rw [heq]
    · exact iff_of_false (not_le.mpr hless) fun hused => by omega
    · exact iff_of_true (hused.trans hle) hused

theorem slice_never_overrun (taskStack : Nat) {task : Ptr → TaskInfo}
    {timer : Ptr → Timer w} {p : Ptr} {c : Control}
    (h : Reaches (stepRel (Timed.step taskStack)) anyLabel
      (Timed.boot task timer) s) (htick : QuietTick s p c)
    (hused : sliceOf s p ≤ ticksFrom s s.since) : c = .os := by
  obtain ⟨hinv, l, m, hlists⟩ := sliceInv_of_reaches taskStack h
  exact (switched_out_iff hinv hlists htick).mpr
    (hused.trans (hinv.ticksFrom_le htick.running))

def OnTime (s : Timed w) (op : HartOp w) : Prop :=
  op.isSchedule = true →
    s.machine.kernel.ticks = s.machine.kernel.curTaskStartTick

theorem started_at_dispatch (taskStack : Nat) {task : Ptr → TaskInfo}
    {timer : Ptr → Timer w}
    (h : Reaches (stepRel (Timed.step taskStack)) OnTime
      (Timed.boot task timer) s) :
    (∃ l m, MachineLists s.machine l m) ∧ ∀ p, s.machine.running = some p →
      s.machine.kernel.curTaskStartTick = s.since := by
  refine Reaches.invariant (P := fun s => (∃ l m, MachineLists s.machine l m) ∧
    ∀ p, s.machine.running = some p →
      s.machine.kernel.curTaskStartTick = s.since)
    ⟨⟨[], [], MachineLists.boot task timer⟩, by simp [Timed.boot, Machine.boot]⟩
    ?_ h
  rintro s op s' ⟨⟨l, m, hlists⟩, hsince⟩ hon hstep
  rw [stepRel, Timed.step] at hstep
  split at hstep
  · cases hstep
  obtain ⟨machine, hmachine, rfl⟩ := Option.map_eq_some_iff.mp hstep
  obtain ⟨l', m', change, hfollows, hclock, -⟩ :=
    HartOp.step_spec taskStack hlists hmachine
  refine ⟨⟨l', m', hfollows.lists⟩, fun p hp => ?_⟩
  rcases hclock.runs p hp with ⟨-, hschedule⟩ | ⟨hrunning, -, hschedule, hstart⟩
  · have htick : op.isTick = false := by
      cases op with
      | nullTimer => rfl
      | machine op => cases op <;> first | rfl | cases hschedule
    have hticks := hclock.ticks
    rw [if_neg (by simp [htick])] at hticks
    simp only [hschedule, if_true]
    rcases hclock.start with hsame | ⟨htrue, -⟩
    · rw [hsame, hticks, hon hschedule]
    · rw [htick] at htrue
      cases htrue
  · simp only [hschedule, Bool.false_eq_true, if_false]
    rw [hstart, hsince p hrunning]

/-- In runs that dispatch tasks only when a slice has run out, slices are exact. -/
theorem slice_exact_of_onTime (taskStack : Nat) {task : Ptr → TaskInfo}
    {timer : Ptr → Timer w} {p : Ptr} {c : Control}
    (h : Reaches (stepRel (Timed.step taskStack)) OnTime
      (Timed.boot task timer) s) (htick : QuietTick s p c) :
    c = .os ↔ sliceOf s p ≤ ticksFrom s s.since := by
  obtain ⟨⟨l, m, hlists⟩, hsince⟩ := started_at_dispatch taskStack h
  obtain ⟨hinv, -⟩ :=
    sliceInv_of_reaches taskStack (h.mono fun _ _ _ => trivial)
  rw [switched_out_iff hinv hlists htick, hsince p htick.running]

/-- The first task sleeps at tick 3, and the second one runs when `ticks` more have
come. -/
def secondTask (ticks : Nat) : Option (Timed 64) :=
  exec (Timed.step 4096) (Timed.boot (fun _ => blankTask) fun _ => blankTimer)
    ([.createTask 256 (argsOf 100), .createTask 512 (argsOf 105), .yield,
      .softwareInterrupt, .timerInterrupt, .timerInterrupt, .timerInterrupt,
      .sleep 1024 9, .softwareInterrupt].map HartOp.machine ++
      List.replicate ticks (.machine .timerInterrupt))

def EndsWith (s : Timed 64) (c : Control) : Prop :=
  s.machine.running = some 512 ∧ s.machine.kernel.ticks.toNat + 1 < 2 ^ 64 ∧
    (timerCheck { s.machine.kernel with
      ticks := s.machine.kernel.ticks + 1 }).toOption.map Prod.fst = some none ∧
    (timerHandler s.machine.kernel).toOption.map Prod.snd = some c

instance (s : Timed 64) (c : Control) : Decidable (EndsWith s c) :=
  inferInstanceAs (Decidable (_ ∧ _))

theorem exists_ok_of_map {α β : Type} {x : Except Fault α} {f : α → β} {b : β}
    (h : x.toOption.map f = some b) : ∃ a, x = .ok a ∧ f a = b := by
  cases x with
  | error e => cases h
  | ok a => exact ⟨a, rfl, Option.some.inj h⟩

theorem EndsWith.quietTick {s : Timed 64} {c : Control} (h : EndsWith s c) :
    QuietTick s 512 c := by
  obtain ⟨hrunning, hroom, hcheck, hend⟩ := h
  obtain ⟨⟨r, k, calls⟩, hcheck, rfl⟩ := exists_ok_of_map hcheck
  obtain ⟨⟨k', c'⟩, hok, rfl⟩ := exists_ok_of_map hend
  exact ⟨hrunning, hroom, ⟨k, calls, hcheck⟩, k', hok⟩

theorem slice_exact_of_first_tick :
    ∃ s, secondTask 0 = some s ∧
      (Control.stay = .os ↔ sliceOf s 512 ≤ ticksFrom s s.since) := by
  obtain ⟨s, hrun, hs⟩ := (Option.any_eq_true (fun s : Timed 64 =>
    decide (EndsWith s .stay ∧
      ticksFrom s s.machine.kernel.curTaskStartTick < sliceOf s 512))
    (secondTask 0)).mp (by decide +kernel)
  obtain ⟨hend, hless⟩ := of_decide_eq_true hs
  exact ⟨s, hrun, (slice_exact_iff 4096
    (Reaches.exec .refl (fun _ _ _ => trivial) hrun) hend.quietTick).mpr
    (.inr (.inl hless))⟩

/-- Two ticks after its dispatch a task with a slice of five loses the hart. -/
theorem slice_cut_short :
    ∃ s c, secondTask 1 = some s ∧ QuietTick s 512 c ∧
      ¬(c = .os ↔ sliceOf s 512 ≤ ticksFrom s s.since) := by
  obtain ⟨s, hrun, hs⟩ := (Option.any_eq_true (fun s : Timed 64 =>
    decide (EndsWith s .os ∧ ¬sliceOf s 512 ≤ ticksFrom s s.since))
    (secondTask 1)).mp (by decide +kernel)
  obtain ⟨hend, hless⟩ := of_decide_eq_true hs
  exact ⟨s, .os, hrun, hend.quietTick, fun hiff => hless (hiff.mp rfl)⟩

end XinOS.Kernel
