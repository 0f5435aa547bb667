import XinOS.Kernel.Hart

/-!
# Sleeping and waking under interrupts

When only `task_delay` creates timers without a function, and only timers with one
are deleted, sleeping tasks and timers that wake them stay paired.
-/

namespace XinOS.Kernel

open XinOS.Foundation

variable {w : Nat} {s s' : Machine w} {k k' : State w} {l l' m m' : List Ptr}

/-- New tasks do not sleep, and timers that `timer_create` makes or
`timer_delete` takes away have a function. -/
def Change.Regular (k k' : State w) : Change → Prop
  | .joined x => ¬Asleep k x
  | .armed x => (k'.timer x).func ≠ none
  | .disarmed x => (k.timer x).func ≠ none
  | _ => True

theorem Paired.effect {change : Change} (h : Paired k l m)
    (heffect : Effect k l m k' l' m' change) (hregular : change.Regular k k')
    (htimer : ∀ t ∈ m, k'.timer t =
      { k.timer t with next := (k'.timer t).next }) : Paired k' l' m' := by
  have hfunc : ∀ t ∈ m, (k'.timer t).func = (k.timer t).func := fun t ht => by
    rw [htimer t ht]
  have htask : ∀ t ∈ m, (k'.timer t).task = (k.timer t).task := fun t ht => by
    rw [htimer t ht]
  have hsame : (∀ p, Asleep k' p ↔ Asleep k p) → Paired k' l m := fun hstate =>
    h.congr (fun _ => Iff.rfl) (fun p _ => hstate p) hfunc htask
  cases heffect with
  | still hl hm hstate =>
      subst hm
      exact h.congr hl hstate hfunc htask
  | @joined x hl hx hm hstate =>
      subst hm
      exact (hsame hstate).addTask hl ((hstate x).not.mpr hregular)
  | @left x hl hx hm hstate =>
      subst hm
      exact (hsame hstate).removeTask hl ((hstate x).not.mpr hx)
  | armed hl hawake hm hx hnew hstate =>
      subst hl
      exact (hsame hstate).addCallback hm hregular hnew
  | slept hl hcur hawake hm hx hnew hstate =>
      subst hl
      exact h.sleep hcur hawake hm hx (fun p _ => hstate p) hnew hfunc htask
  | @disarmed x hl hx hm hstate =>
      subst hl
      refine (hsame hstate).removeCallback hm ?_
      rw [hfunc x hx]
      exact hregular
  | woke hl hx hwake hdue hm hstate =>
      subst hl
      exact h.wake hx hwake hm (fun q _ => hstate q) hfunc htask

structure MachineInv (s : Machine w) (l m : List Ptr) : Prop where
  tasks : TaskInv s.kernel l
  timers : TimerInv s.kernel m
  paired : Paired s.kernel l m
  current : ∀ p, s.running = some p → s.kernel.msip = false →
    s.kernel.curTask = some p ∧ p ∈ l ∧ ¬Asleep s.kernel p

namespace MachineInv

theorem boot (task : Ptr → TaskInfo) (timer : Ptr → Timer w) :
    MachineInv (Machine.boot task timer) [] [] where
  tasks := TaskInv.boot task timer
  timers := TimerInv.boot task timer
  paired := by constructor <;> simp
  current := by simp [Machine.boot]

variable (h : MachineInv s l m)
include h

theorem lists : MachineLists s l m := ⟨h.tasks, h.timers, h.current⟩

theorem follows {change : Change} (hstep : Follows s l m s' l' m' change)
    (hregular : change.Regular s.kernel s'.kernel) : MachineInv s' l' m' where
  tasks := hstep.lists.tasks
  timers := hstep.lists.timers
  paired := h.paired.effect hstep.effect hregular hstep.timer
  current := hstep.lists.current

theorem tasksAsleep : TasksAsleep s.kernel m := by
  intro t ht
  obtain ⟨p, hp⟩ := h.paired.owned t ht
  refine ⟨p, hp, fun hnone => ?_⟩
  obtain ⟨q, -, hw, hsleep⟩ := h.paired.sound t ht hnone
  obtain rfl : p = q := Option.some.inj (hp.symm.trans hw.2)
  exact hsleep

theorem run_spec (taskStack : Nat) {op : MachineOp w} (hop : op.Allowed s) :
    ∃ s' l' m', op.run taskStack s = .ok s' ∧ MachineInv s' l' m' := by
  cases op with
  | sleep t tick =>
      obtain ⟨k', m', hdelay, hstep, -⟩ := h.lists.sleep tick hop.1 hop.2
      exact ⟨_, l, m', by rw [MachineOp.run, hdelay]; rfl, h.follows hstep trivial⟩
  | yield => exact ⟨_, l, m, rfl, h.follows h.lists.yield trivial⟩
  | exit =>
      obtain ⟨k', l', x, hexit, hstep, -⟩ := h.lists.exit hop
      exact ⟨_, l', m, by rw [MachineOp.run, hexit]; rfl, h.follows hstep trivial⟩
  | createTask newTask args =>
      obtain ⟨k', l', r, change, hcreate, hstep, -, hchange⟩ :=
        h.lists.createTask taskStack hop.1
          (fun hroom => ⟨(hop.2 hroom).1, (hop.2 hroom).2.1⟩)
      refine ⟨_, l', m, by rw [MachineOp.run, hcreate]; rfl, h.follows hstep ?_⟩
      rcases hchange with rfl | ⟨rfl, hroom⟩
      · trivial
      · exact (hop.2 hroom).2.2
  | createTimer t func args timeout =>
      obtain ⟨k', m', hcreate, hstep, -, hfunc⟩ :=
        h.lists.createTimer (some func) args timeout hop.1 hop.2
      refine ⟨_, l, m', by rw [MachineOp.run, hcreate]; rfl, h.follows hstep ?_⟩
      simp [Change.Regular, hfunc]
  | deleteTimer t =>
      obtain ⟨k', m', hdelete, hstep, -⟩ := h.lists.deleteTimer hop.1 hop.2.1
      exact ⟨_, l, m', by rw [MachineOp.run, hdelete]; rfl,
        h.follows hstep hop.2.2⟩
  | softwareInterrupt =>
      obtain ⟨k', c, l', hsched, hstep, -⟩ := h.lists.softwareInterrupt
      exact ⟨_, l', m, by rw [MachineOp.run, hsched]; rfl, h.follows hstep trivial⟩
  | timerInterrupt =>
      obtain ⟨k', c, hok, -⟩ := h.timers.timerHandler_first h.tasksAsleep
      obtain ⟨m', change, hstep, hchange, -⟩ := h.lists.timerInterrupt hok
      refine ⟨_, l, m', by rw [MachineOp.run, hok]; rfl, h.follows hstep ?_⟩
      rcases hchange with rfl | ⟨t, rfl⟩ <;> trivial
  | overwriteTask p contents =>
      exact ⟨_, l, m, rfl, h.follows (h.lists.overwriteTask hop contents) trivial⟩
  | overwriteTimer t contents =>
      exact ⟨_, l, m, rfl, h.follows (h.lists.overwriteTimer hop contents) trivial⟩

end MachineInv

theorem machineInv_of_reaches (taskStack : Nat) {task : Ptr → TaskInfo}
    {timer : Ptr → Timer w}
    (h : Reaches (stepRel (MachineOp.step taskStack)) anyLabel
      (Machine.boot task timer) s) : ∃ l m, MachineInv s l m := by
  refine Reaches.invariant (P := fun s => ∃ l m, MachineInv s l m)
    ⟨[], [], MachineInv.boot task timer⟩ ?_ h
  rintro s op s' ⟨l, m, hinv⟩ - hstep
  obtain ⟨hop, hrun⟩ := guarded_eq_some.mp hstep
  obtain ⟨s₁, l', m', hrun₁, hinv'⟩ := hinv.run_spec taskStack hop
  obtain rfl : s₁ = s' := Except.ok.inj (hrun₁.symm.trans hrun)
  exact ⟨l', m', hinv'⟩

/-- In every reachable state a task sleeps exactly if one timer without a function
is to wake it, there are no other such timers, no allowed operation fails, the
task that executes is awake, and a tick wakes the task of the first timer without
a function when any such timer is due. -/
theorem wakeups_paired (taskStack : Nat) {task : Ptr → TaskInfo}
    {timer : Ptr → Timer w}
    (h : Reaches (stepRel (MachineOp.step taskStack)) anyLabel
      (Machine.boot task timer) s) :
    let k := s.kernel
    (∀ p, Linked k.taskNext k.firstTask p →
      ((k.task p).state = .sleeping ↔
        ∃! t, Linked k.timerNext k.firstTimer t ∧
          (k.timer t).func = none ∧ (k.timer t).task = some p)) ∧
    (∀ t, Linked k.timerNext k.firstTimer t → (k.timer t).func = none →
      ∃ p, (k.timer t).task = some p ∧ Linked k.taskNext k.firstTask p ∧
        (k.task p).state = .sleeping) ∧
    (∀ op : MachineOp w, op.Allowed s → ∃ s', op.step taskStack s = some s') ∧
    (∀ p, s.running = some p → k.msip = false →
      Linked k.taskNext k.firstTask p ∧ (k.task p).state ≠ .sleeping) ∧
    ∃ k' c, timerHandler k = .ok (k', c) ∧
      ((∃ t, Linked k.timerNext k.firstTimer t ∧ (k.timer t).func = none ∧
          (k.timer t).timeout ≤ k.ticks + 1) →
        ∃ pre t post p, Path k.timerNext k.firstTimer (pre ++ t :: post) none ∧
          (∀ r ∈ pre, (k.timer r).func ≠ none) ∧ (k.timer t).func = none ∧
          (k.timer t).task = some p ∧ (k'.task p).state = .runnable) := by
  obtain ⟨l, m, hinv⟩ := machineInv_of_reaches taskStack h
  simp only [hinv.tasks.path.linked_iff, hinv.timers.path.linked_iff]
  refine ⟨fun p hp => hinv.paired.asleep_iff hp, ?_, ?_, ?_, ?_⟩
  · intro t ht hnone
    obtain ⟨p, hp, hw, hsleep⟩ := hinv.paired.sound t ht hnone
    exact ⟨p, hw.2, hp, hsleep⟩
  · intro op hop
    obtain ⟨s', l', m', hrun, -⟩ := hinv.run_spec taskStack hop
    exact ⟨s', guarded_eq_some.mpr ⟨hop, hrun⟩⟩
  · intro p hp hmsip
    exact (hinv.current p hp hmsip).2
  · obtain ⟨k', c, hok, hfirst⟩ :=
      hinv.timers.timerHandler_first hinv.tasksAsleep
    refine ⟨k', c, hok, fun hdue => ?_⟩
    obtain ⟨pre, t, post, p, hm, hcase⟩ := hfirst hdue
    exact ⟨pre, t, post, p, hm ▸ hinv.timers.path, hcase⟩

theorem wakeups_paired_of_sleep :
    ∃ s, exec (MachineOp.step 4096)
        (Machine.boot (fun _ => blankTask) (fun _ => (blankTimer : Timer 64)))
        [.createTask 256 (argsOf 100), .yield, .softwareInterrupt,
          .sleep 512 1, .softwareInterrupt] = some s ∧
      ∃ k' c, timerHandler s.kernel = .ok (k', c) := by
  obtain ⟨s, hrun⟩ : ∃ s, exec (MachineOp.step 4096)
      (Machine.boot (fun _ => blankTask) (fun _ => (blankTimer : Timer 64)))
      [.createTask 256 (argsOf 100), .yield, .softwareInterrupt,
        .sleep 512 1, .softwareInterrupt] = some s :=
    Option.isSome_iff_exists.mp (by decide)
  obtain ⟨-, -, -, -, k', c, hok, -⟩ := wakeups_paired 4096
    (Reaches.exec .refl (fun _ _ _ => trivial) hrun)
  exact ⟨s, hrun, k', c, hok⟩

end XinOS.Kernel
