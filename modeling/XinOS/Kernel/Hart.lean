import XinOS.Kernel.Sleep

/-!
# One hart

The hart runs a task or the kernel's own loop.  A task that sleeps, yields or exits
raises the software interrupt, and executes nothing more until `schedule` has run;
the timer interrupt can come at any moment.
-/

namespace XinOS.Kernel

open XinOS.Foundation

variable {w : Nat} {l m : List Ptr}

/-- The state of the kernel, and the task that the hart runs; without one it runs
the kernel's loop. -/
structure Machine (w : Nat) where
  kernel : State w
  running : Option Ptr

variable {s s' : Machine w}

def Control.resume (running : Option Ptr) : Control → Option Ptr
  | .stay => running
  | .task p => some p
  | .os => none

inductive MachineOp (w : Nat) where
  | sleep (t : Ptr) (tick : BitVec w)
  | yield
  | exit
  | createTask (newTask : Ptr) (args : TaskArgs w)
  | createTimer (t : Ptr) (func : Nat) (args : Nat) (timeout : BitVec w)
  | deleteTimer (t : Ptr)
  | softwareInterrupt
  | timerInterrupt
  | overwriteTask (p : Ptr) (contents : TaskInfo)
  | overwriteTimer (t : Ptr) (contents : Timer w)

def Machine.Executes (s : Machine w) : Prop :=
  s.running ≠ none ∧ s.kernel.msip = false

instance (s : Machine w) : Decidable s.Executes :=
  inferInstanceAs (Decidable (_ ∧ _))

/-- Tasks act while they execute; `malloc` returns new objects, those of tasks
with a state other than `SLEEPING`; a deleted timer is live and has a function. -/
def MachineOp.Allowed (s : Machine w) : MachineOp w → Prop
  | .sleep t _ => s.Executes ∧ s.kernel.Fresh t
  | .yield => s.kernel.msip = false
  | .exit => s.Executes
  | .createTask newTask _ => s.kernel.msip = false ∧
      (s.kernel.tasksNum < maxTaskNum → s.kernel.Fresh newTask ∧
        0 < s.kernel.taskId.toInt ∧ (s.kernel.task newTask).state ≠ .sleeping)
  | .createTimer t _ _ _ => s.Executes ∧ s.kernel.Fresh t
  | .deleteTimer t => s.Executes ∧ t ∈ s.kernel.liveTimers ∧
      (s.kernel.timer t).func ≠ none
  | .softwareInterrupt => s.kernel.msip = true
  | .timerInterrupt => True
  | .overwriteTask p _ => p ∉ s.kernel.liveTasks
  | .overwriteTimer t _ => t ∉ s.kernel.liveTimers

instance (s : Machine w) : DecidablePred (MachineOp.Allowed s) := fun op => by
  cases op <;> unfold MachineOp.Allowed <;> infer_instance

def Machine.after (s : Machine w) (r : State w × Control) : Machine w where
  kernel := r.1
  running := r.2.resume s.running

def MachineOp.run (taskStack : Nat) (s : Machine w) :
    MachineOp w → Except Fault (Machine w)
  | .sleep t tick => (taskDelay s.kernel t tick).map ({ s with kernel := · })
  | .yield => .ok { s with kernel := taskYield s.kernel }
  | .exit => (taskExit s.kernel).map ({ s with kernel := · })
  | .createTask newTask args =>
      (taskCreate taskStack s.kernel newTask args).map
        ({ s with kernel := ·.2 })
  | .createTimer t func args timeout =>
      (timerCreate s.kernel t (some func) args timeout).map
        ({ s with kernel := · })
  | .deleteTimer t =>
      (timerDelete s.kernel (some t)).map ({ s with kernel := · })
  | .softwareInterrupt => (softwareInterruptHandler s.kernel).map s.after
  | .timerInterrupt => (timerHandler s.kernel).map s.after
  | .overwriteTask p contents =>
      .ok { s with kernel := s.kernel.setTask p contents }
  | .overwriteTimer t contents =>
      .ok { s with kernel := s.kernel.setTimer t contents }

def MachineOp.step (taskStack : Nat) (s : Machine w) (op : MachineOp w) :
    Option (Machine w) :=
  if op.Allowed s then (op.run taskStack s).toOption else none

def Machine.boot (task : Ptr → TaskInfo) (timer : Ptr → Timer w) :
    Machine w where
  kernel := Kernel.boot task timer
  running := none

structure MachineLists (s : Machine w) (l m : List Ptr) : Prop where
  tasks : TaskInv s.kernel l
  timers : TimerInv s.kernel m
  current : ∀ p, s.running = some p → s.kernel.msip = false →
    s.kernel.curTask = some p ∧ p ∈ l ∧ ¬Asleep s.kernel p

inductive Change where
  | still
  | joined (x : Ptr)
  | left (x : Ptr)
  | armed (x : Ptr)
  | slept (x : Ptr)
  | disarmed (x : Ptr)
  | woke (x : Ptr)

inductive Effect (k : State w) (l m : List Ptr) (k' : State w)
    (l' m' : List Ptr) : Change → Prop where
  | still (hl : ∀ p, p ∈ l' ↔ p ∈ l) (hm : m' = m)
      (hstate : ∀ p ∈ l, Asleep k' p ↔ Asleep k p) :
      Effect k l m k' l' m' .still
  | joined {x : Ptr} (hl : ∀ p, p ∈ l' ↔ p = x ∨ p ∈ l) (hx : x ∉ l)
      (hm : m' = m) (hstate : ∀ p, Asleep k' p ↔ Asleep k p) :
      Effect k l m k' l' m' (.joined x)
  | left {x : Ptr} (hl : ∀ p, p ∈ l' ↔ p ≠ x ∧ p ∈ l) (hx : ¬Asleep k x)
      (hm : m' = m) (hstate : ∀ p, Asleep k' p ↔ Asleep k p) :
      Effect k l m k' l' m' (.left x)
  | armed {x cur : Ptr} (hl : l' = l) (hawake : ¬Asleep k cur)
      (hm : ∀ t, t ∈ m' ↔ t = x ∨ t ∈ m) (hx : x ∉ m)
      (htask : (k'.timer x).task = some cur)
      (hstate : ∀ p, Asleep k' p ↔ Asleep k p) :
      Effect k l m k' l' m' (.armed x)
  | slept {x cur : Ptr} (hl : l' = l) (hcur : cur ∈ l) (hawake : ¬Asleep k cur)
      (hm : ∀ t, t ∈ m' ↔ t = x ∨ t ∈ m) (hx : x ∉ m) (hnew : Wakes k' x cur)
      (hstate : ∀ p, Asleep k' p ↔ p = cur ∨ Asleep k p) :
      Effect k l m k' l' m' (.slept x)
  | disarmed {x : Ptr} (hl : l' = l) (hx : x ∈ m)
      (hm : ∀ t, t ∈ m' ↔ t ≠ x ∧ t ∈ m)
      (hstate : ∀ p, Asleep k' p ↔ Asleep k p) :
      Effect k l m k' l' m' (.disarmed x)
  | woke {x p : Ptr} (hl : l' = l) (hx : x ∈ m) (hwake : Wakes k x p)
      (hdue : (k.timer x).timeout ≤ k'.ticks)
      (hm : ∀ t, t ∈ m' ↔ t ≠ x ∧ t ∈ m)
      (hstate : ∀ q, Asleep k' q ↔ q ≠ p ∧ Asleep k q) :
      Effect k l m k' l' m' (.woke x)

/-- An operation leads to lists again, leaves the timers as they are that stay, and
makes one change. -/
structure Follows (s : Machine w) (l m : List Ptr) (s' : Machine w)
    (l' m' : List Ptr) (change : Change) : Prop where
  lists : MachineLists s' l' m'
  timer : ∀ t ∈ m, s'.kernel.timer t =
    { s.kernel.timer t with next := (s'.kernel.timer t).next }
  effect : Effect s.kernel l m s'.kernel l' m' change

structure Steady (k k' : State w) : Prop where
  ticks : k'.ticks = k.ticks
  start : k'.curTaskStartTick = k.curTaskStartTick
  curTask : k'.curTask = k.curTask

structure Clock (ticking scheduling : Bool) (s s' : Machine w) : Prop where
  ticks : s'.kernel.ticks =
    if ticking then s.kernel.ticks + 1 else s.kernel.ticks
  start : s'.kernel.curTaskStartTick = s.kernel.curTaskStartTick ∨
    ticking = true ∧ s'.kernel.curTaskStartTick = s'.kernel.ticks
  runs : ∀ p, s'.running = some p → s'.kernel.curTask = some p ∧ scheduling = true ∨
    s.running = some p ∧ s'.kernel.curTask = s.kernel.curTask ∧
      scheduling = false ∧ s'.kernel.curTaskStartTick = s.kernel.curTaskStartTick

theorem Steady.clock {k' : State w} (h : Steady s.kernel k') :
    Clock false false s { s with kernel := k' } where
  ticks := h.ticks
  start := .inl h.start
  runs := fun _ hp => .inr ⟨hp, h.curTask, rfl, h.start⟩

namespace MachineLists

theorem boot (task : Ptr → TaskInfo) (timer : Ptr → Timer w) :
    MachineLists (Machine.boot task timer) [] [] where
  tasks := TaskInv.boot task timer
  timers := TimerInv.boot task timer
  current := by simp [Machine.boot]

variable (h : MachineLists s l m)
include h

theorem executes (hex : s.Executes) :
    ∃ cur, s.running = some cur ∧ s.kernel.curTask = some cur ∧ cur ∈ l ∧
      ¬Asleep s.kernel cur := by
  obtain ⟨p, hp⟩ := Option.ne_none_iff_exists'.mp hex.1
  exact ⟨p, hp, h.current p hp hex.2⟩

theorem notMem_timers {t : Ptr} (hfresh : s.kernel.Fresh t) : t ∉ m :=
  fun hmem => hfresh.2.2.2 (h.timers.mem_live.mpr hmem)

theorem sleep {t : Ptr} (tick : BitVec w) (hex : s.Executes)
    (hfresh : s.kernel.Fresh t) :
    ∃ k' m', taskDelay s.kernel t tick = .ok k' ∧
      Follows s l m { s with kernel := k' } l m' (.slept t) ∧
      Steady s.kernel k' ∧ (k'.timer t).task = s.kernel.curTask ∧
      (k'.timer t).timeout = s.kernel.ticks + tick := by
  obtain ⟨cur, -, hcur, hmem, hawake⟩ := h.executes hex
  have ht : t ∉ m := h.notMem_timers hfresh
  obtain ⟨k', hdelay, hrel, htimers⟩ :=
    h.timers.taskDelay_spec hcur ht ⟨hfresh.1, hfresh.2.1⟩ tick
  have htask : k'.task = (s.kernel.setTaskState cur .sleeping).task := by
    rw [hrel.rest]
    rfl
  have hmsip : k'.msip = true := by rw [hrel.rest]
  have htasks : TaskInv
      { armTimer (s.kernel.setTaskState cur .sleeping) t none 0 tick with
        msip := true } l :=
    (h.tasks.setTaskState cur .sleeping).congr (fun _ _ => rfl) rfl rfl rfl rfl
  have hold : ∀ r ∈ m, k'.timer r =
      { s.kernel.timer r with next := (k'.timer r).next } := by
    intro r hr
    have hne : r ≠ t := fun heq => ht (heq ▸ hr)
    rw [hrel.info r]
    simp [armTimer, State.setTaskState, State.setTask, hne]
  refine ⟨k', _, hdelay, ⟨⟨htasks.rearmed hrel, htimers, fun p _ hoff => ?_⟩, hold,
    .slept (x := t) rfl hmem hawake
      (fun r => (insertByKey_perm _ _ _).mem_iff.trans List.mem_cons) ht ?_
      fun p => ?_⟩, ?_, ?_, ?_⟩
  · rw [hmsip] at hoff
    cases hoff
  · simp [Wakes, hrel.func_eq, hrel.task_eq, armTimer, State.setTaskState,
      State.setTask, hcur]
  · by_cases hp : p = cur <;> simp [Asleep, htask, State.setTaskState, hp]
  · rw [hrel.rest]
    exact ⟨rfl, rfl, rfl⟩
  · simp [hrel.task_eq, armTimer, State.setTaskState, State.setTask]
  · rw [hrel.info]
    simp [armTimer, State.setTaskState, State.setTask]

theorem exit (hex : s.Executes) :
    ∃ k' l' x, taskExit s.kernel = .ok k' ∧
      Follows s l m { s with kernel := k' } l' m (.left x) ∧
      Steady s.kernel k' := by
  obtain ⟨cur, -, hcur, hmem, hawake⟩ := h.executes hex
  obtain ⟨k', hexit, hrel, htasks⟩ := h.tasks.taskExit_some hcur hmem
  have htimers : TimerInv { s.kernel with
      msip := true, liveTasks := s.kernel.liveTasks.erase cur } m :=
    h.timers.congr (fun _ _ => rfl) rfl rfl
  have hmsip : k'.msip = true := by rw [hrel.rest]
  refine ⟨k', _, cur, hexit, ⟨⟨htasks, htimers.relinked hrel, fun p _ hoff => ?_⟩,
    fun t _ => ?_, .left (fun p => h.tasks.nodup.mem_erase_iff) hawake rfl
      fun p => ?_⟩, ?_⟩
  · rw [hmsip] at hoff
    cases hoff
  · rw [hrel.rest]
  · rw [Asleep, hrel.state_eq, Asleep]
  · rw [hrel.rest]
    exact ⟨rfl, rfl, rfl⟩

theorem createTask (taskStack : Nat) {newTask : Ptr} {args : TaskArgs w}
    (hoff : s.kernel.msip = false) (hop : s.kernel.tasksNum < maxTaskNum →
      s.kernel.Fresh newTask ∧ 0 < s.kernel.taskId.toInt) :
    ∃ k' l' r c, taskCreate taskStack s.kernel newTask args = .ok (r, k') ∧
      Follows s l m { s with kernel := k' } l' m c ∧ Steady s.kernel k' ∧
      (c = .still ∨ c = .joined newTask ∧ s.kernel.tasksNum < maxTaskNum) := by
  by_cases hroom : l.length < maxTaskNum
  swap
  · exact ⟨s.kernel, l, -1, .still, h.tasks.taskCreate_full taskStack hroom _ _,
      ⟨h, fun _ _ => rfl, .still (fun _ => Iff.rfl) rfl fun _ _ => Iff.rfl⟩,
      ⟨rfl, rfl, rfl⟩, .inl rfl⟩
  have hcount : s.kernel.tasksNum < maxTaskNum := by
    rw [h.tasks.count]
    exact_mod_cast hroom
  obtain ⟨hfresh, hid⟩ := hop hcount
  have hnew : newTask ∉ l := fun hmem =>
    hfresh.2.2.1 (h.tasks.mem_live.mpr hmem)
  obtain ⟨k', -, hcreate, hrel, htasks⟩ :=
    h.tasks.taskCreate_room taskStack hroom hnew hid args
  have htimers : TimerInv (admitTask taskStack s.kernel newTask args) m :=
    h.timers.congr (fun _ _ => rfl) rfl rfl
  have hasleep : ∀ p, Asleep k' p ↔ Asleep s.kernel p := by
    intro p
    rw [Asleep, hrel.state_eq, Asleep]
    by_cases hp : p = newTask <;> simp [admitTask, startInfo, hp]
  have hmem : ∀ p, p ∈ insertByKey k'.number newTask l ↔ p = newTask ∨ p ∈ l :=
    fun p => (insertByKey_perm _ _ _).mem_iff.trans List.mem_cons
  refine ⟨k', _, 0, .joined newTask, hcreate,
    ⟨⟨htasks, htimers.relinked hrel, fun p hp _ => ?_⟩,
      fun t _ => ?_, .joined hmem hnew rfl hasleep⟩, ?_, .inr ⟨rfl, hcount⟩⟩
  · obtain ⟨hcur, hpl, hawake⟩ := h.current p hp hoff
    have hcur' : k'.curTask = s.kernel.curTask := by rw [hrel.rest]; rfl
    exact ⟨hcur'.trans hcur, (hmem p).mpr (.inr hpl), (hasleep p).not.mpr hawake⟩
  · rw [hrel.rest]
    rfl
  · rw [hrel.rest]
    exact ⟨rfl, rfl, rfl⟩

theorem createTimer {t : Ptr} (func : Option Nat) (args : Nat)
    (timeout : BitVec w) (hex : s.Executes) (hfresh : s.kernel.Fresh t) :
    ∃ k' m', timerCreate s.kernel t func args timeout = .ok k' ∧
      Follows s l m { s with kernel := k' } l m' (.armed t) ∧
      Steady s.kernel k' ∧ (k'.timer t).func = func := by
  obtain ⟨cur, -, hcur, -, hawake⟩ := h.executes hex
  have ht : t ∉ m := h.notMem_timers hfresh
  obtain ⟨k', hcreate, hrel, htimers⟩ :=
    h.timers.timerCreate_spec ht ⟨hfresh.1, hfresh.2.1⟩ func args timeout
  have htasks : TaskInv (armTimer s.kernel t func args timeout) l :=
    h.tasks.congr (fun _ _ => rfl) rfl rfl rfl rfl
  have htask : k'.task = s.kernel.task := by rw [hrel.rest]; rfl
  have hasleep : ∀ p, Asleep k' p ↔ Asleep s.kernel p := fun p => by
    rw [Asleep, htask, Asleep]
  have hold : ∀ r ∈ m, k'.timer r =
      { s.kernel.timer r with next := (k'.timer r).next } := by
    intro r hr
    have hne : r ≠ t := fun heq => ht (heq ▸ hr)
    rw [hrel.info r]
    simp [armTimer, hne]
  have hmem : ∀ r, r ∈ insertByKey k'.deadline t m ↔ r = t ∨ r ∈ m :=
    fun r => (insertByKey_perm _ _ _).mem_iff.trans List.mem_cons
  refine ⟨k', _, hcreate, ⟨⟨htasks.rearmed hrel, htimers, fun p hp hoff => ?_⟩,
    hold, .armed rfl hawake hmem ht ?_ hasleep⟩, ?_, ?_⟩
  · obtain ⟨hcur', hpl, hawake'⟩ := h.current p hp hex.2
    have hsame : k'.curTask = s.kernel.curTask := by rw [hrel.rest]; rfl
    exact ⟨hsame.trans hcur', hpl, (hasleep p).not.mpr hawake'⟩
  · simp [hrel.task_eq, armTimer, hcur]
  · rw [hrel.rest]
    exact ⟨rfl, rfl, rfl⟩
  · simp [hrel.func_eq, armTimer]

theorem deleteTimer {t : Ptr} (hex : s.Executes)
    (ht : t ∈ s.kernel.liveTimers) :
    ∃ k' m', timerDelete s.kernel (some t) = .ok k' ∧
      Follows s l m { s with kernel := k' } l m' (.disarmed t) ∧
      Steady s.kernel k' := by
  have ht := h.timers.mem_live.mp ht
  obtain ⟨k', hdelete, hrel, htimers⟩ := h.timers.timerDelete_spec ht
  have htasks : TaskInv { s.kernel with
      liveTimers := s.kernel.liveTimers.erase t } l :=
    h.tasks.congr (fun _ _ => rfl) rfl rfl rfl rfl
  have hasleep : ∀ p, Asleep k' p ↔ Asleep s.kernel p := fun p => by
    rw [Asleep, hrel.rest, Asleep]
  have hmem : ∀ r, r ∈ m.erase t ↔ r ≠ t ∧ r ∈ m := fun r =>
    h.timers.nodup.mem_erase_iff
  refine ⟨k', _, hdelete, ⟨⟨htasks.rearmed hrel, htimers, fun p hp hoff => ?_⟩,
    fun r _ => hrel.info r, .disarmed rfl ht hmem hasleep⟩, ?_⟩
  · obtain ⟨hcur, hpl, hawake⟩ := h.current p hp hex.2
    have hsame : k'.curTask = s.kernel.curTask := by rw [hrel.rest]
    exact ⟨hsame.trans hcur, hpl, (hasleep p).not.mpr hawake⟩
  · rw [hrel.rest]
    exact ⟨rfl, rfl, rfl⟩

theorem softwareInterrupt :
    ∃ k' c l', softwareInterruptHandler s.kernel = .ok (k', c) ∧
      Follows s l m (s.after (k', c)) l' m .still ∧
      Clock false true s (s.after (k', c)) := by
  have htasks : TaskInv { s.kernel with msip := false } l :=
    h.tasks.congr (fun _ _ => rfl) rfl rfl rfl rfl
  have htimers : TimerInv { s.kernel with msip := false } m :=
    h.timers.congr (fun _ _ => rfl) rfl rfl
  obtain ⟨k', l', c, hsched, hinv, hcase⟩ := htasks.schedule_cases
  refine ⟨k', c, l', hsched, ?_⟩
  cases hcase with
  | noTask _ hk hl' =>
      subst hk hl'
      exact ⟨⟨⟨hinv, htimers, by simp [Machine.after, Control.resume]⟩,
        fun _ _ => rfl, .still (fun _ => Iff.rfl) rfl fun _ _ => Iff.rfl⟩,
        rfl, .inl rfl, by simp [Machine.after, Control.resume]⟩
  | allSleep _ _ hk hl' =>
      subst hk hl'
      exact ⟨⟨⟨hinv, htimers.congr (fun _ _ => rfl) rfl rfl,
        by simp [Machine.after, Control.resume]⟩,
        fun _ _ => rfl, .still (fun _ => Iff.rfl) rfl fun _ _ => Iff.rfl⟩,
        rfl, .inl rfl, by simp [Machine.after, Control.resume]⟩
  | @run t k₁ ht hawake hrel hk hperm =>
      have htimers' : TimerInv (lowerPriority { s.kernel with msip := false } t)
          m := by
        rw [lowerPriority_eq]
        exact htimers.congr (fun _ _ => rfl) rfl rfl
      have htimer : k₁.timer = s.kernel.timer := by
        rw [hrel.rest, lowerPriority_eq]
      have hasleep : ∀ p, Asleep k₁ p ↔ Asleep s.kernel p := fun p => by
        rw [Asleep, hrel.state_eq, lowerPriority_state, Asleep]
      subst hk
      refine ⟨⟨⟨hinv, (htimers'.relinked hrel).congr (fun _ _ => rfl) rfl rfl,
        fun p hp _ => ?_⟩, fun r _ => ?_,
        .still (fun p => hperm.mem_iff) rfl fun p _ => hasleep p⟩, ?_, .inl ?_,
        fun p hp => ?_⟩
      · obtain rfl : t = p := Option.some.inj hp
        exact ⟨rfl, hperm.mem_iff.mpr ht, (hasleep t).not.mpr hawake⟩
      · show k₁.timer r = { s.kernel.timer r with next := (k₁.timer r).next }
        rw [htimer]
      · show k₁.ticks = s.kernel.ticks
        rw [hrel.rest, lowerPriority_eq]
      · show k₁.curTaskStartTick = s.kernel.curTaskStartTick
        rw [hrel.rest, lowerPriority_eq]
      · obtain rfl : t = p := Option.some.inj hp
        exact .inl ⟨rfl, rfl⟩

theorem timerInterrupt {k' : State w} {c : Control}
    (hok : timerHandler s.kernel = .ok (k', c)) :
    ∃ m' change, Follows s l m (s.after (k', c)) l m' change ∧
      (change = .still ∨ ∃ t, change = .woke t) ∧
      Clock true false s (s.after (k', c)) := by
  obtain ⟨r, k₁, calls, hcheck, hend⟩ := timerHandler_end hok
  have htasks : TaskInv { s.kernel with ticks := s.kernel.ticks + 1 } l :=
    h.tasks.congr (fun _ _ => rfl) rfl rfl rfl rfl
  cases h.timers.nextTick.timerCheck_ok hcheck with
  | all _ _ _ _ _ hk =>
      subst hk
      obtain ⟨hk, hc, hstart⟩ := hend.quiet
      have hticks : k'.ticks = s.kernel.ticks + 1 := by rw [hk]
      refine ⟨m, .still, ⟨⟨?_, ?_, fun p hp hoff => ?_⟩, fun t _ => ?_,
        .still (fun _ => Iff.rfl) rfl fun p _ => ?_⟩, .inl rfl, hticks, ?_,
        fun p hp => .inr ?_⟩
      · exact hk ▸ htasks.congr (fun _ _ => rfl) rfl rfl rfl rfl
      · exact hk ▸ h.timers.congr (fun _ _ => rfl) rfl rfl
      · have hrunning : s.running = some p := by
          rcases hc with rfl | ⟨rfl, -⟩
          · cases hp
          · exact hp
        rw [Machine.after, hk] at hoff ⊢
        exact h.current p hrunning hoff
      · rw [Machine.after, hk]
      · rw [Machine.after, hk]
        exact Iff.rfl
      · exact hstart.imp id fun heq => ⟨rfl, heq.trans hticks.symm⟩
      · rcases hc with rfl | ⟨rfl, hsame⟩
        · cases hp
        · refine ⟨hp, ?_, rfl, hsame⟩
          rw [Machine.after, hk]
  | @woke due late t p k₂ hm hdue ht hfunc htask hk hsleep hdelete =>
      subst hk
      cases hend with
      | woke hk =>
          have hmem : t ∈ m := by simp [hm]
          obtain ⟨k₂, hdelete', hrel, htimers⟩ :=
            h.timers.nextTick.timerDelete_spec hmem
          obtain rfl : k₂ = k₁ := Except.ok.inj (hdelete'.symm.trans hdelete)
          have htask₂ : k₂.task = s.kernel.task := by rw [hrel.rest]
          have htasks₂ : TaskInv k₂ l := htasks.congr
            (fun q _ => by rw [htask₂]) (by rw [hrel.rest]) (by rw [hrel.rest])
            (by rw [hrel.rest]) (by rw [hrel.rest])
          have hticks : k₂.ticks = s.kernel.ticks + 1 := by rw [hrel.rest]
          subst hk
          refine ⟨_, .woke t, ⟨⟨(htasks₂.setTaskState p .runnable).congr
            (fun _ _ => rfl) rfl rfl rfl rfl, htimers.congr (fun _ _ => rfl) rfl rfl,
            by simp [Machine.after, Control.resume]⟩, fun r _ => hrel.info r,
            .woke rfl hmem ⟨hfunc, htask⟩ (hticks ▸ ht)
              (fun r => h.timers.nodup.mem_erase_iff) fun q => ?_⟩, .inr ⟨t, rfl⟩,
              hticks, .inl ?_, by simp [Machine.after, Control.resume]⟩
          · by_cases hq : q = p <;>
              simp [Asleep, Machine.after, State.setTaskState, htask₂, hq]
          · show k₂.curTaskStartTick = s.kernel.curTaskStartTick
            rw [hrel.rest]

theorem yield : Follows s l m { s with kernel := taskYield s.kernel } l m
    .still where
  lists := ⟨h.tasks.congr (fun _ _ => rfl) rfl rfl rfl rfl,
    h.timers.congr (fun _ _ => rfl) rfl rfl, by simp [taskYield]⟩
  timer := fun _ _ => rfl
  effect := .still (fun _ => Iff.rfl) rfl fun _ _ => Iff.rfl

theorem overwriteTask {p : Ptr} (hp : p ∉ s.kernel.liveTasks)
    (contents : TaskInfo) :
    Follows s l m { s with kernel := s.kernel.setTask p contents } l m
      .still := by
  have hother := s.kernel.setTask_of_notMem (h.tasks.mem_live.not.mp hp) contents
  have hasleep : ∀ q ∈ l, Asleep (s.kernel.setTask p contents) q ↔
      Asleep s.kernel q := fun q hq => by rw [Asleep, hother q hq, Asleep]
  refine ⟨⟨h.tasks.congr hother rfl rfl rfl rfl,
    h.timers.congr (fun _ _ => rfl) rfl rfl, fun q hq hoff => ?_⟩,
    fun _ _ => rfl, .still (fun _ => Iff.rfl) rfl hasleep⟩
  obtain ⟨hcur, hmem, hawake⟩ := h.current q hq hoff
  exact ⟨hcur, hmem, (hasleep q hmem).not.mpr hawake⟩

theorem overwriteTimer {t : Ptr} (ht : t ∉ s.kernel.liveTimers)
    (contents : Timer w) :
    Follows s l m { s with kernel := s.kernel.setTimer t contents } l m
      .still := by
  have hother := s.kernel.setTimer_of_notMem
    (h.timers.mem_live.not.mp ht) contents
  exact ⟨⟨h.tasks.congr (fun _ _ => rfl) rfl rfl rfl rfl,
    h.timers.congr hother rfl rfl, h.current⟩, fun r hr => by rw [hother r hr],
    .still (fun _ => Iff.rfl) rfl fun _ _ => Iff.rfl⟩

end MachineLists

/-! ## Runs with any timers -/

/-- What can happen on the hart; a task may also create a timer without a
function. -/
inductive HartOp (w : Nat) where
  | machine (op : MachineOp w)
  | nullTimer (t : Ptr) (args : Nat) (timeout : BitVec w)

/-- New tasks may be in any state, and any live timer may be deleted. -/
def HartOp.Allowed (s : Machine w) : HartOp w → Prop
  | .machine (.createTask newTask _) => s.kernel.msip = false ∧
      (s.kernel.tasksNum < maxTaskNum →
        s.kernel.Fresh newTask ∧ 0 < s.kernel.taskId.toInt)
  | .machine (.deleteTimer t) => s.Executes ∧ t ∈ s.kernel.liveTimers
  | .machine op => op.Allowed s
  | .nullTimer t _ _ => s.Executes ∧ s.kernel.Fresh t

instance (s : Machine w) : DecidablePred (HartOp.Allowed s) := fun op => by
  cases op with
  | machine op => cases op <;> unfold HartOp.Allowed <;> infer_instance
  | nullTimer => unfold HartOp.Allowed; infer_instance

def HartOp.run (taskStack : Nat) (s : Machine w) :
    HartOp w → Except Fault (Machine w)
  | .machine op => op.run taskStack s
  | .nullTimer t args timeout =>
      (timerCreate s.kernel t none args timeout).map ({ s with kernel := · })

def HartOp.step (taskStack : Nat) (s : Machine w) (op : HartOp w) :
    Option (Machine w) :=
  if op.Allowed s then (op.run taskStack s).toOption else none

def HartOp.isTick : HartOp w → Bool
  | .machine .timerInterrupt => true
  | _ => false

theorem HartOp.step_of_machine {taskStack : Nat} {op : MachineOp w}
    (hstep : op.step taskStack s = some s') :
    (HartOp.machine op).step taskStack s = some s' := by
  obtain ⟨hop, hrun⟩ := guarded_eq_some.mp hstep
  refine guarded_eq_some.mpr ⟨?_, hrun⟩
  cases op with
  | createTask newTask args =>
      exact ⟨hop.1, fun hroom => ⟨(hop.2 hroom).1, (hop.2 hroom).2.1⟩⟩
  | deleteTimer t => exact ⟨hop.1, hop.2.1⟩
  | _ => exact hop

def HartOp.isSchedule : HartOp w → Bool
  | .machine .softwareInterrupt => true
  | _ => false

theorem HartOp.run_spec (taskStack : Nat) (h : MachineLists s l m)
    {op : HartOp w} (hop : op.Allowed s) (hrun : op.run taskStack s = .ok s') :
    ∃ l' m' change, Follows s l m s' l' m' change ∧
      Clock op.isTick op.isSchedule s s' ∧
      (op.isTick = false → ∀ t, change ≠ .woke t) := by
  cases op with
  | nullTimer t args timeout =>
      obtain ⟨k', m', hcreate, hstep, hsteady, -⟩ :=
        h.createTimer none args timeout hop.1 hop.2
      rw [HartOp.run, hcreate] at hrun
      cases hrun
      exact ⟨l, m', _, hstep, hsteady.clock, by simp⟩
  | machine op =>
      cases op with
      | sleep t tick =>
          obtain ⟨k', m', hdelay, hstep, hsteady, -⟩ :=
            h.sleep tick hop.1 hop.2
          rw [HartOp.run, MachineOp.run, hdelay] at hrun
          cases hrun
          exact ⟨l, m', _, hstep, hsteady.clock, by simp⟩
      | yield =>
          cases hrun
          exact ⟨l, m, _, h.yield, Steady.clock ⟨rfl, rfl, rfl⟩,
            by simp⟩
      | exit =>
          obtain ⟨k', l', x, hexit, hstep, hsteady⟩ := h.exit hop
          rw [HartOp.run, MachineOp.run, hexit] at hrun
          cases hrun
          exact ⟨l', m, _, hstep, hsteady.clock, by simp⟩
      | createTask newTask args =>
          obtain ⟨k', l', r, change, hcreate, hstep, hsteady, hchange⟩ :=
            h.createTask taskStack hop.1 hop.2
          rw [HartOp.run, MachineOp.run, hcreate] at hrun
          cases hrun
          refine ⟨l', m, change, hstep, hsteady.clock, fun _ => ?_⟩
          rcases hchange with rfl | ⟨rfl, -⟩ <;> simp
      | createTimer t func args timeout =>
          obtain ⟨k', m', hcreate, hstep, hsteady, -⟩ :=
            h.createTimer (some func) args timeout hop.1 hop.2
          rw [HartOp.run, MachineOp.run, hcreate] at hrun
          cases hrun
          exact ⟨l, m', _, hstep, hsteady.clock, by simp⟩
      | deleteTimer t =>
          obtain ⟨k', m', hdelete, hstep, hsteady⟩ := h.deleteTimer hop.1 hop.2
          rw [HartOp.run, MachineOp.run, hdelete] at hrun
          cases hrun
          exact ⟨l, m', _, hstep, hsteady.clock, by simp⟩
      | softwareInterrupt =>
          obtain ⟨k', c, l', hsched, hstep, hclock⟩ := h.softwareInterrupt
          rw [HartOp.run, MachineOp.run, hsched] at hrun
          cases hrun
          exact ⟨l', m, _, hstep, hclock, by simp⟩
      | timerInterrupt =>
          obtain ⟨⟨k', c⟩, htick, rfl⟩ := ok_of_map hrun
          obtain ⟨m', change, hstep, -, hclock⟩ := h.timerInterrupt htick
          exact ⟨l, m', change, hstep, hclock, by simp [HartOp.isTick]⟩
      | overwriteTask p contents =>
          cases hrun
          exact ⟨l, m, _, h.overwriteTask hop contents, Steady.clock ⟨rfl, rfl, rfl⟩,
            by simp⟩
      | overwriteTimer t contents =>
          cases hrun
          exact ⟨l, m, _, h.overwriteTimer hop contents, Steady.clock ⟨rfl, rfl, rfl⟩,
            by simp⟩

theorem HartOp.step_spec (taskStack : Nat) (h : MachineLists s l m)
    {op : HartOp w} (hstep : op.step taskStack s = some s') :
    ∃ l' m' change, Follows s l m s' l' m' change ∧
      Clock op.isTick op.isSchedule s s' ∧
      (op.isTick = false → ∀ t, change ≠ .woke t) := by
  obtain ⟨hop, hrun⟩ := guarded_eq_some.mp hstep
  exact HartOp.run_spec taskStack h hop hrun

theorem machineLists_of_reaches (taskStack : Nat) {task : Ptr → TaskInfo}
    {timer : Ptr → Timer w}
    (h : Reaches (stepRel (HartOp.step taskStack)) anyLabel
      (Machine.boot task timer) s) : ∃ l m, MachineLists s l m := by
  refine Reaches.invariant (P := fun s => ∃ l m, MachineLists s l m)
    ⟨[], [], MachineLists.boot task timer⟩ ?_ h
  rintro s op s' ⟨l, m, hlists⟩ - hstep
  obtain ⟨l', m', change, hfollows, -⟩ :=
    HartOp.step_spec taskStack hlists hstep
  exact ⟨l', m', hfollows.lists⟩

theorem reaches_hart {taskStack : Nat} {s₀ : Machine w}
    (h : Reaches (stepRel (MachineOp.step taskStack)) anyLabel s₀ s) :
    Reaches (stepRel (HartOp.step taskStack)) anyLabel s₀ s := by
  induction h with
  | refl => exact .refl
  | tail _ _ hstep ih =>
      exact ih.tail trivial (HartOp.step_of_machine hstep)

end XinOS.Kernel
