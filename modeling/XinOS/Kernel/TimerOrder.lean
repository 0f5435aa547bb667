import XinOS.Kernel.Scheduler
import XinOS.Kernel.TimerSteps

/-!
# The order of the timers

Timers are created, deleted and checked at any tick counts and in any order, and
their functions do anything but work on the list.  The list always holds the live
timers, by timeout and then by age, so the timers that are due come first in it.
-/

namespace XinOS.Kernel

open XinOS.Foundation

variable {w : Nat} {k k' : State w} {m : List Ptr} {t : Ptr}

theorem harmless {call : Nat → Nat → State w → State w}
    (h : ∀ func args k, Undisturbed k (call func args k)) :
    Harmless Undisturbed call where
  refl := Undisturbed.refl
  trans := fun _ _ _ => Undisturbed.trans
  undisturbed := fun _ _ h => h
  call := h

structure TimerOrder (k : State w) (m : List Ptr) : Prop extends TimerInv k m where
  age : ∀ v, m.filter (fun t => decide (k.deadline t = v)) =
    (k.liveTimers.filter fun t => decide (k.deadline t = v)).reverse

namespace TimerOrder

theorem boot (task : Ptr → TaskInfo) (timer : Ptr → Timer w) :
    TimerOrder (boot task timer) [] where
  toTimerInv := TimerInv.boot task timer
  age := fun _ => rfl

variable (h : TimerOrder k m)
include h

theorem undisturbed (hk : Undisturbed k k') : TimerOrder k' m where
  toTimerInv := h.toTimerInv.undisturbed hk
  age := fun v => by
    have hsame : ∀ t ∈ k.liveTimers, k'.deadline t = k.deadline t := fun t ht => by
      rw [State.deadline, hk.timer t ht, State.deadline]
    have hlist : m.filter (fun t => decide (k'.deadline t = v)) =
        m.filter fun t => decide (k.deadline t = v) :=
      List.filter_congr fun t ht => by rw [hsame t (h.mem_live.mpr ht)]
    have hlive : k.liveTimers.filter (fun t => decide (k'.deadline t = v)) =
        k.liveTimers.filter fun t => decide (k.deadline t = v) :=
      List.filter_congr fun t ht => by rw [hsame t ht]
    rw [hk.live, hlist, hlive, h.age v]

theorem create (ht : t ∉ m) (haddr : 0 < t ∧ t < 2 ^ 64)
    (func : Option Nat) (args : Nat) (timeout : BitVec w) :
    ∃ k' m', timerCreate k t func args timeout = .ok k' ∧ TimerOrder k' m' := by
  obtain ⟨k', hcreate, hrel, hinv⟩ :=
    h.timerCreate_spec ht haddr func args timeout
  have hlive : k'.liveTimers = t :: k.liveTimers := by rw [hrel.rest]; rfl
  have hother : ∀ s ∈ m, (armTimer k t func args timeout).timer s = k.timer s :=
    k.setTimer_of_notMem ht _
  have hsame : ∀ s ∈ m, k'.deadline s = k.deadline s := fun s hs => by
    rw [hrel.deadline_eq, State.deadline, hother s hs, State.deadline]
  have hsorted : m.Pairwise fun r s => k'.deadline r ≤ k'.deadline s :=
    sorted_congr h.sorted hsame
  refine ⟨k', _, hcreate, hinv, fun v => ?_⟩
  rw [insertByKey_filter hsorted v, hlive,
    List.filter_congr fun s hs => by rw [hsame s hs], h.age v]
  have hold : k.liveTimers.filter (fun s => decide (k'.deadline s = v)) =
      k.liveTimers.filter fun s => decide (k.deadline s = v) :=
    List.filter_congr fun s hs => by rw [hsame s (h.mem_live.mp hs)]
  by_cases hv : k'.deadline t = v <;> simp [hv, hold]

theorem delete (ht : t ∈ m) :
    ∃ k', timerDelete k (some t) = .ok k' ∧ TimerOrder k' (m.erase t) := by
  obtain ⟨k', hdelete, hrel, hinv⟩ := h.timerDelete_spec ht
  have hlive : k'.liveTimers = k.liveTimers.erase t := by rw [hrel.rest]
  refine ⟨k', hdelete, hinv, fun v => ?_⟩
  have hdeadline : k'.deadline = k.deadline := hrel.deadline_eq
  have hnodup : k.liveTimers.Nodup := h.live.nodup_iff.mp h.nodup
  have hage := congrArg (List.filter fun s => s != t) (h.age v)
  rw [List.filter_reverse, List.filter_filter, List.filter_filter] at hage
  rw [hlive, hdeadline, h.nodup.erase_eq_filter, hnodup.erase_eq_filter,
    List.filter_filter, List.filter_filter]
  simpa only [Bool.and_comm] using hage

theorem check {D : State w → State w → Prop} {r : Option Ptr}
    {calls : List (Nat × Nat)} (hD : ∀ k k', D k k' → Undisturbed k k')
    (hchecked : Checked D k m k' r calls) : ∃ m', TimerOrder k' m' := by
  cases hchecked with
  | all _ _ _ _ _ hk => exact ⟨m, h.undisturbed (hD _ _ hk)⟩
  | @woke due late t p k₁ hm _ _ _ _ hk _ hdelete =>
      obtain ⟨k₂, hdelete', horder⟩ :=
        (h.undisturbed (hD _ _ hk)).delete (t := t) (by simp [hm])
      obtain rfl : k₂ = k' := Except.ok.inj (hdelete'.symm.trans hdelete)
      exact ⟨_, horder⟩

end TimerOrder

/-! ## Runs -/

/-- Operations on timers, and `elsewhere`: what timers do not own changes. -/
inductive TimerOp (w : Nat) where
  | create (t : Ptr) (func : Option Nat) (args : Nat) (timeout : BitVec w)
  | delete (t : Ptr)
  | check (call : Nat → Nat → State w → State w)
  | elsewhere (task : Ptr → TaskInfo) (curTask : Option Ptr) (ticks : BitVec w)
  | overwrite (t : Ptr) (contents : Timer w)

/-- New timers are new objects, `timer_delete` gets a live timer, and the timer
functions that a check calls do not disturb it. -/
def TimerOp.Allowed (k : State w) : TimerOp w → Prop
  | .create t _ _ _ => k.Fresh t
  | .delete t => t ∈ k.liveTimers
  | .check call => ∀ func args k, Undisturbed k (call func args k)
  | .elsewhere _ _ _ => True
  | .overwrite t _ => t ∉ k.liveTimers

def TimerOp.run (k : State w) : TimerOp w → Except Fault (State w)
  | .create t func args timeout => timerCreate k t func args timeout
  | .delete t => timerDelete k (some t)
  | .check call =>
      (timerCheckWith call walkFuel k k.firstTimer).map fun r => r.2.1
  | .elsewhere task curTask ticks =>
      .ok { k with task := task, curTask := curTask, ticks := ticks }
  | .overwrite t contents => .ok (k.setTimer t contents)

def TimerOp.step (k : State w) (op : TimerOp w) (k' : State w) : Prop :=
  op.run k = .ok k'

theorem TimerOp.step_spec (h : TimerOrder k m) {op : TimerOp w}
    (hop : op.Allowed k) (hstep : op.step k k') : ∃ m', TimerOrder k' m' := by
  cases op with
  | create t func args timeout =>
      obtain ⟨k₁, m', hcreate, horder⟩ := h.create
        (fun hmem => hop.2.2.2 (h.mem_live.mpr hmem)) ⟨hop.1, hop.2.1⟩ func args
        timeout
      obtain rfl : k₁ = k' := Except.ok.inj (hcreate.symm.trans hstep)
      exact ⟨m', horder⟩
  | delete t =>
      obtain ⟨k₁, hdelete, horder⟩ := h.delete (h.mem_live.mp hop)
      obtain rfl : k₁ = k' := Except.ok.inj (hdelete.symm.trans hstep)
      exact ⟨_, horder⟩
  | check call =>
      obtain ⟨result, hrun, rfl⟩ := ok_of_map hstep
      exact h.check (fun _ _ hk => hk)
        (timerCheckWith_ok (harmless hop) [] h.toTimerInv h.path hrun)
  | elsewhere task curTask ticks =>
      cases hstep
      exact ⟨m, h.congr (fun _ _ => rfl) rfl rfl, h.age⟩
  | overwrite t contents =>
      cases hstep
      have hother := k.setTimer_of_notMem hop contents
      exact ⟨m, h.undisturbed ⟨hother, rfl, rfl, rfl, fun _ _ _ _ _ hs => hs⟩⟩

theorem TimerOp.run_total (h : TimerOrder k m) (hasleep : TasksAsleep k m)
    {op : TimerOp w} (hop : op.Allowed k) : ∃ k', op.step k k' := by
  cases op with
  | create t func args timeout =>
      obtain ⟨k', -, hcreate, -⟩ := h.create
        (fun hmem => hop.2.2.2 (h.mem_live.mpr hmem)) ⟨hop.1, hop.2.1⟩ func args
        timeout
      exact ⟨k', hcreate⟩
  | delete t => exact (h.delete (h.mem_live.mp hop)).imp fun _ hspec => hspec.1
  | check call =>
      obtain ⟨⟨r, k', calls⟩, hrun⟩ := timerCheckWith_total
        (harmless hop) [] h.toTimerInv h.path h.short hasleep
      exact ⟨k', by rw [TimerOp.step, TimerOp.run, hrun]; rfl⟩
  | elsewhere task curTask ticks => exact ⟨_, rfl⟩
  | overwrite t contents => exact ⟨_, rfl⟩

theorem timerOrder_of_reaches {task : Ptr → TaskInfo} {timer : Ptr → Timer w}
    (h : Reaches TimerOp.step TimerOp.Allowed (boot task timer) k) :
    ∃ m, TimerOrder k m := by
  refine Reaches.invariant (P := fun k => ∃ m, TimerOrder k m)
    ⟨[], TimerOrder.boot task timer⟩ ?_ h
  rintro k op k' ⟨m, horder⟩ hop hstep
  exact TimerOp.step_spec horder hop hstep

/-- The chain from `first_timer` has no cycle and is in order of the timeouts; it
holds the live timers, each once, and those of one timeout in the order in which
they were created.  `timer_check` finds the timers that are due in front of all
the others, and nothing fails unless it meets a timer without a function whose task
is awake, or a timer without a task. -/
theorem timers_in_order {task : Ptr → TaskInfo} {timer : Ptr → Timer w}
    (h : Reaches TimerOp.step TimerOp.Allowed (boot task timer) k) :
    ∃ m, Path k.timerNext k.firstTimer m none ∧ m.Nodup ∧
      (m.Pairwise fun s t => (k.timer s).timeout ≤ (k.timer t).timeout) ∧
      m.Perm k.liveTimers ∧
      (∀ timeout : BitVec w,
        m.filter (fun t => decide ((k.timer t).timeout = timeout)) =
          (k.liveTimers.filter fun t =>
            decide ((k.timer t).timeout = timeout)).reverse) ∧
      (∀ call r k' calls, (TimerOp.check call).Allowed k →
        timerCheckWith call walkFuel k k.firstTimer = .ok (r, k', calls) →
        Checked Undisturbed k m k' r calls) ∧
      (TasksAsleep k m → ∀ op : TimerOp w, op.Allowed k → ∃ k', op.step k k') := by
  obtain ⟨m, horder⟩ := timerOrder_of_reaches h
  refine ⟨m, horder.path, horder.nodup, horder.sorted, horder.live, ?_, ?_, ?_⟩
  · intro timeout
    have heq : ∀ t, ((k.timer t).timeout = timeout) =
        (k.deadline t = timeout.toNat) := fun t => by
      rw [State.deadline, BitVec.toNat_inj]
    simpa only [heq] using horder.age timeout.toNat
  · intro call r k' calls hop hrun
    exact timerCheckWith_ok (harmless hop) [] horder.toTimerInv
      horder.path hrun
  · exact fun hasleep _ hop => TimerOp.run_total horder hasleep hop

theorem timers_in_order_of_check :
    ∃ k : State 64, Reaches TimerOp.step TimerOp.Allowed
        (boot (fun _ => blankTask) fun _ => blankTimer) k ∧
      k.liveTimers = [768, 512] ∧
      ∃ m, Path k.timerNext k.firstTimer m none ∧ m.Perm k.liveTimers := by
  have hstart : Reaches TimerOp.step TimerOp.Allowed
      (boot (fun _ => blankTask) fun _ => (blankTimer : Timer 64))
      (boot (fun _ => blankTask) fun _ => blankTimer) := .refl
  have hcur := hstart.tail (i := TimerOp.elsewhere
      (fun _ => { blankTask with state := .sleeping }) (some 256) 7)
    (by trivial) rfl
  have hcall := hcur.tail (i := TimerOp.create 512 (some 4096) 0 3)
    (show State.Fresh _ _ by decide) rfl
  have hother := hcall.tail (i := TimerOp.create 768 (some 4096) 8 3)
    (show State.Fresh _ _ by decide) rfl
  have hsleep := hother.tail (i := TimerOp.create 1024 none 0 0)
    (show State.Fresh _ _ by decide) rfl
  have hcheck := hsleep.tail (i := TimerOp.check fun _ _ k => k)
    (fun _ _ k => .refl k) rfl
  obtain ⟨m, hpath, -, -, hlive, -⟩ := timers_in_order hcheck
  exact ⟨_, hcheck, rfl, m, hpath, hlive⟩

end XinOS.Kernel
