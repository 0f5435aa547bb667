import XinOS.Kernel.Scheduler
import XinOS.Kernel.TimerSteps

/-!
# References to freed tasks

`task_exit` frees the current task.  Timers may still refer to it, and so may
`cur_task` when no other task is left.
-/

namespace XinOS.Kernel

open XinOS.Foundation

variable {w : Nat} {k k' : State w} {l m : List Ptr}

inductive KernelOp (w : Nat) where
  | create (newTask : Ptr) (args : TaskArgs w)
  | createTimer (t : Ptr) (func : Option Nat) (args : Nat) (timeout : BitVec w)
  | deleteTimer (t : Option Ptr)
  | delay (t : Ptr) (tick : BitVec w)
  | timerInterrupt
  | exit
  | schedule
  | overwriteTask (p : Ptr) (contents : TaskInfo)
  | overwriteTimer (t : Ptr) (contents : Timer w)

/-- `malloc` returns new objects; only memory of no live object changes
otherwise. -/
def KernelOp.Allowed (k : State w) : KernelOp w → Prop
  | .create newTask _ =>
      k.tasksNum < maxTaskNum → k.Fresh newTask ∧ 0 < k.taskId.toInt
  | .createTimer t _ _ _ => k.Fresh t
  | .deleteTimer _ => True
  | .delay t _ => k.Fresh t
  | .timerInterrupt => True
  | .exit => True
  | .schedule => True
  | .overwriteTask p _ => p ∉ k.liveTasks
  | .overwriteTimer t _ => t ∉ k.liveTimers

instance (k : State w) : DecidablePred (KernelOp.Allowed k) := fun op => by
  cases op <;> unfold KernelOp.Allowed <;> infer_instance

def exitAndSchedule (k : State w) : Except Fault (State w) :=
  match taskExit k with
  | .error e => .error e
  | .ok k =>
      if k.msip then (softwareInterruptHandler k).map Prod.fst else .ok k

def KernelOp.run (taskStack : Nat) (k : State w) :
    KernelOp w → Except Fault (State w)
  | .create newTask args => (taskCreate taskStack k newTask args).map Prod.snd
  | .createTimer t func args timeout => timerCreate k t func args timeout
  | .deleteTimer t => timerDelete k t
  | .delay t tick => taskDelay k t tick
  | .timerInterrupt => (timerHandler k).map Prod.fst
  | .exit => exitAndSchedule k
  | .schedule => (softwareInterruptHandler k).map Prod.fst
  | .overwriteTask p contents => .ok (k.setTask p contents)
  | .overwriteTimer t contents => .ok (k.setTimer t contents)

def KernelOp.step (taskStack : Nat) (k : State w) (op : KernelOp w) :
    Option (State w) :=
  if op.Allowed k then (op.run taskStack k).toOption else none

def NoDangling (k : State w) : Prop :=
  (∀ p, k.curTask = some p → Linked k.taskNext k.firstTask p) ∧
    ∀ t, Linked k.timerNext k.firstTimer t →
      ∃ p, (k.timer t).task = some p ∧ Linked k.taskNext k.firstTask p

/-- A task exits while there is another one and no timer refers to it, and a task
creates the timers. -/
def KeepsTasks (k : State w) : KernelOp w → Prop
  | .exit => ∀ cur, k.curTask = some cur → 2 ≤ k.tasksNum ∧
      ∀ t, Linked k.timerNext k.firstTimer t → (k.timer t).task ≠ some cur
  | .createTimer _ _ _ _ => k.curTask ≠ none
  | _ => True

def Referenced (k : State w) (l m : List Ptr) : Prop :=
  (∀ p, k.curTask = some p → p ∈ l) ∧
    ∀ t ∈ m, ∃ p, (k.timer t).task = some p ∧ p ∈ l

theorem noDangling_iff (hl : TaskInv k l) (hm : TimerInv k m) :
    NoDangling k ↔ Referenced k l m := by
  simp only [NoDangling, Referenced, hl.path.linked_iff, hm.path.linked_iff]

structure StepExact (k' : State w) (l' m' : List Ptr) (Q : Prop) : Prop where
  tasks : TaskInv k' l'
  timers : TimerInv k' m'
  references : Referenced k' l' m' ↔ Q

theorem schedule_effect (hl : TaskInv k l) (hm : TimerInv k m) {c : Control}
    (hrun : softwareInterruptHandler k = .ok (k', c)) :
    ∃ l', TaskInv k' l' ∧ TimerInv k' m ∧ l'.Perm l ∧ k'.timer = k.timer ∧
      (l = [] ∧ k'.curTask = k.curTask ∨
        l ≠ [] ∧ ∀ p, k'.curTask = some p → p ∈ l) := by
  have hl₀ : TaskInv { k with msip := false } l :=
    hl.congr (fun _ _ => rfl) rfl rfl rfl rfl
  have hm₀ : TimerInv { k with msip := false } m :=
    hm.congr (fun _ _ => rfl) rfl rfl
  obtain ⟨k₁, l', c', hsched, hinv, hcase⟩ := hl₀.schedule_cases
  cases hsched.symm.trans hrun
  refine ⟨l', hinv, ?_⟩
  cases hcase with
  | noTask hnil hk hl' =>
      rw [hk, hl']
      exact ⟨hm₀, .refl l, rfl, .inl ⟨hnil, rfl⟩⟩
  | allSleep hne _ hk hl' =>
      rw [hk, hl']
      exact ⟨hm₀.congr (fun _ _ => rfl) rfl rfl, .refl l, rfl,
        .inr ⟨hne, by simp⟩⟩
  | @run t k₂ ht _ hrel hk hl' =>
      have htimer : k₂.timer = k.timer := by
        rw [hrel.rest, lowerPriority_eq]
      have hm₁ : TimerInv (lowerPriority { k with msip := false } t) m := by
        rw [lowerPriority_eq]
        exact hm₀.congr (fun _ _ => rfl) rfl rfl
      rw [hk]
      refine ⟨(hm₁.relinked hrel).congr (fun _ _ => rfl) rfl rfl, hl', htimer,
        .inr ⟨List.ne_nil_of_mem ht, fun p hp => ?_⟩⟩
      exact Option.some.inj hp ▸ ht

section Steps

variable (hl : TaskInv k l) (hm : TimerInv k m) (href : Referenced k l m)
include hl hm href

theorem create_exact (taskStack : Nat) {newTask : Ptr} {args : TaskArgs w}
    (hop : (KernelOp.create newTask args).Allowed k)
    (hrun : (KernelOp.create newTask args).run taskStack k = .ok k') :
    ∃ l', StepExact k' l' m True := by
  by_cases hroom : l.length < maxTaskNum
  · obtain ⟨hfresh, hid⟩ := hop (by rw [hl.count]; exact_mod_cast hroom)
    obtain ⟨k₁, -, hcreate, hrel, hinv⟩ := hl.taskCreate_room taskStack hroom
      (fun hmem => hfresh.2.2.1 (hl.mem_live.mpr hmem)) hid args
    rw [KernelOp.run, hcreate] at hrun
    obtain rfl : k₁ = k' := Except.ok.inj hrun
    have hsub : l ⊆ insertByKey k₁.number newTask l := fun p hp =>
      (insertByKey_perm _ _ _).mem_iff.mpr (by simp [hp])
    have hcur : k₁.curTask = k.curTask := by rw [hrel.rest]; rfl
    have htimer : k₁.timer = k.timer := by rw [hrel.rest]; rfl
    have hm' : TimerInv (admitTask taskStack k newTask args) m :=
      hm.congr (fun _ _ => rfl) rfl rfl
    refine ⟨_, hinv, hm'.relinked hrel,
      iff_true_intro ⟨fun p hp => hsub (href.1 p (hcur ▸ hp)), fun t ht => ?_⟩⟩
    obtain ⟨p, htask, hp⟩ := href.2 t ht
    exact ⟨p, htimer ▸ htask, hsub hp⟩
  · rw [KernelOp.run, hl.taskCreate_full taskStack hroom] at hrun
    cases hrun
    exact ⟨l, hl, hm, iff_true_intro href⟩

theorem createTimer_exact {t : Ptr} {func : Option Nat} {args : Nat}
    {timeout : BitVec w} (hfresh : k.Fresh t)
    (hrun : timerCreate k t func args timeout = .ok k') :
    ∃ m', StepExact k' l m' (k.curTask ≠ none) := by
  have ht : t ∉ m := fun hmem => hfresh.2.2.2 (hm.mem_live.mpr hmem)
  obtain ⟨k₁, hcreate, hrel, hinv⟩ :=
    hm.timerCreate_spec ht ⟨hfresh.1, hfresh.2.1⟩ func args timeout
  obtain rfl : k₁ = k' := Except.ok.inj (hcreate.symm.trans hrun)
  have hperm := insertByKey_perm k₁.deadline t m
  have hcur : k₁.curTask = k.curTask := by rw [hrel.rest]; rfl
  have hnew : (k₁.timer t).task = k.curTask := by
    simp [hrel.task_eq, armTimer]
  have hold : ∀ s ∈ m, (k₁.timer s).task = (k.timer s).task := by
    intro s hs
    have hne : s ≠ t := fun heq => ht (heq ▸ hs)
    simp [hrel.task_eq, armTimer, hne]
  have hl' : TaskInv (armTimer k t func args timeout) l :=
    hl.congr (fun _ _ => rfl) rfl rfl rfl rfl
  refine ⟨_, hl'.rearmed hrel, hinv, ?_, ?_⟩
  · intro href' hnone
    obtain ⟨p, hp, -⟩ := href'.2 t (hperm.mem_iff.mpr (by simp))
    rw [hnew, hnone] at hp
    cases hp
  · intro hsome
    obtain ⟨cur, hcur'⟩ := Option.ne_none_iff_exists'.mp hsome
    refine ⟨fun p hp => href.1 p (hcur ▸ hp), fun s hs => ?_⟩
    rcases List.mem_cons.mp (hperm.mem_iff.mp hs) with rfl | hs
    · exact ⟨cur, hnew.trans hcur', href.1 cur hcur'⟩
    · rw [hold s hs]
      exact href.2 s hs

theorem deleteTimer_exact {t : Option Ptr} (hrun : timerDelete k t = .ok k') :
    ∃ m', StepExact k' l m' True := by
  rcases hm.timerDelete_cases hrun with rfl | ⟨s, hs, hrel, hinv⟩
  · exact ⟨m, hl, hm, iff_true_intro href⟩
  · have hcur : k'.curTask = k.curTask := by rw [hrel.rest]
    have hl' : TaskInv { k with liveTimers := k.liveTimers.erase s } l :=
      hl.congr (fun _ _ => rfl) rfl rfl rfl rfl
    refine ⟨_, hl'.rearmed hrel, hinv,
      iff_true_intro ⟨fun p hp => href.1 p (hcur ▸ hp), fun r hr => ?_⟩⟩
    rw [hrel.task_eq]
    exact href.2 r (List.mem_of_mem_erase hr)

theorem delay_exact {t : Ptr} {tick : BitVec w} (hfresh : k.Fresh t)
    (hrun : taskDelay k t tick = .ok k') : ∃ m', StepExact k' l m' True := by
  cases hcur : k.curTask with
  | none =>
      rw [taskDelay, hcur] at hrun
      cases hrun
  | some cur =>
      have hm' : TimerInv (k.setTaskState cur .sleeping) m :=
        hm.congr (fun _ _ => rfl) rfl rfl
      simp only [taskDelay, hcur] at hrun
      split at hrun
      · cases hrun
      · rename_i k₁ hcreate
        cases hrun
        obtain ⟨m', hl', hm'', href'⟩ :=
          createTimer_exact (hl.setTaskState cur .sleeping) hm' href hfresh hcreate
        refine ⟨m', hl'.congr (fun _ _ => rfl) rfl rfl rfl rfl,
          hm''.congr (fun _ _ => rfl) rfl rfl, iff_true_intro ?_⟩
        exact href'.mpr (by rw [show (k.setTaskState cur .sleeping).curTask =
          some cur from hcur]; simp)

theorem tick_exact {c : Control} (hrun : timerHandler k = .ok (k', c)) :
    ∃ m', StepExact k' l m' True := by
  cases hm.timerHandler_ok hrun with
  | @woke t p k₁ ht hfunc htask hsleep hdelete hk =>
      have hm' : TimerInv { k with ticks := k.ticks + 1 } m :=
        hm.congr (fun _ _ => rfl) rfl rfl
      have hl' : TaskInv { k with ticks := k.ticks + 1 } l :=
        hl.congr (fun _ _ => rfl) rfl rfl rfl rfl
      obtain ⟨m', hl₁, hm₁, href₁⟩ := deleteTimer_exact hl' hm' href hdelete
      obtain ⟨q, hq, hmem⟩ := href.2 t ht
      obtain rfl : q = p := Option.some.inj (hq.symm.trans htask)
      subst hk
      refine ⟨m', (hl₁.setTaskState q .runnable).congr (fun _ _ => rfl)
        rfl rfl rfl rfl, hm₁.congr (fun _ _ => rfl) rfl rfl, iff_true_intro ⟨?_, ?_⟩⟩
      · intro r hr
        exact Option.some.inj hr ▸ hmem
      · exact (href₁.mpr trivial).2
  | quiet hc hk =>
      refine ⟨m, ?_, ?_, iff_true_intro ?_⟩
      · rw [hk]
        exact hl.congr (fun _ _ => rfl) rfl rfl rfl rfl
      · rw [hk]
        exact hm.congr (fun _ _ => rfl) rfl rfl
      · rw [hk]
        exact href

theorem schedule_exact {c : Control}
    (hrun : softwareInterruptHandler k = .ok (k', c)) :
    ∃ l', StepExact k' l' m True := by
  obtain ⟨l', hl', hm', hperm, htimer, hcur⟩ := schedule_effect hl hm hrun
  refine ⟨l', hl', hm', iff_true_intro ⟨fun p hp => hperm.mem_iff.mpr ?_, ?_⟩⟩
  · rcases hcur with ⟨-, hcur⟩ | ⟨-, hcur⟩
    · exact href.1 p (hcur ▸ hp)
    · exact hcur p hp
  · intro t ht
    obtain ⟨p, htask, hp⟩ := href.2 t ht
    exact ⟨p, htimer ▸ htask, hperm.mem_iff.mpr hp⟩

theorem exit_exact (hrun : exitAndSchedule k = .ok k') :
    ∃ l', StepExact k' l' m (∀ cur, k.curTask = some cur →
      2 ≤ k.tasksNum ∧ ∀ t ∈ m, (k.timer t).task ≠ some cur) := by
  cases hcur : k.curTask with
  | none =>
      simp only [exitAndSchedule, TaskInv.taskExit_none hcur] at hrun
      by_cases hmsip : k.msip = true
      · simp only [hmsip, if_true] at hrun
        obtain ⟨result, hsched, rfl⟩ := ok_of_map hrun
        obtain ⟨l', hexact⟩ := schedule_exact hl hm href hsched
        exact ⟨l', hexact.tasks, hexact.timers, by simpa using hexact.references⟩
      · rw [if_neg hmsip] at hrun
        cases hrun
        exact ⟨l, hl, hm, by simpa using href⟩
  | some cur =>
      obtain ⟨k₁, hexit, hrel, hl₁⟩ := hl.taskExit_some hcur (href.1 cur hcur)
      have hm₁ : TimerInv { k with
          msip := true, liveTasks := k.liveTasks.erase cur } m :=
        hm.congr (fun _ _ => rfl) rfl rfl
      have hmsip : k₁.msip = true := by rw [hrel.rest]
      have hcur₁ : k₁.curTask = some cur := by rw [hrel.rest]; exact hcur
      have htimer₁ : k₁.timer = k.timer := by rw [hrel.rest]
      simp only [exitAndSchedule, hexit, hmsip, if_true] at hrun
      obtain ⟨result, hsched, rfl⟩ := ok_of_map hrun
      obtain ⟨l', hl', hm', hperm, htimer, hcur'⟩ :=
        schedule_effect hl₁ (hm₁.relinked hrel) hsched
      refine ⟨l', hl', hm', ?_⟩
      have hmem : ∀ p, p ∈ l' ↔ p ≠ cur ∧ p ∈ l := fun p => by
        rw [hperm.mem_iff, hl.nodup.mem_erase_iff]
      have hlength := List.length_erase_of_mem (href.1 cur hcur)
      have hcount := hl.count
      simp only [Option.some.injEq, forall_eq']
      constructor
      · intro href'
        refine ⟨?_, fun t ht htask => ?_⟩
        · rcases hcur' with ⟨-, hsame⟩ | ⟨hne, -⟩
          · exact absurd rfl ((hmem cur).mp
              (href'.1 cur (hsame.trans hcur₁))).1
          · have := List.length_pos_iff.mpr hne
            omega
        · obtain ⟨p, hp, hpl⟩ := href'.2 t ht
          rw [htimer, htimer₁, htask] at hp
          exact ((hmem p).mp hpl).1 (Option.some.inj hp).symm
      · rintro ⟨htwo, hunused⟩
        refine ⟨fun p hp => ?_, fun t ht => ?_⟩
        · rcases hcur' with ⟨hnil, -⟩ | ⟨-, hlisted⟩
          · rw [hnil, List.length_nil] at hlength
            omega
          · exact hperm.mem_iff.mpr (hlisted p hp)
        · obtain ⟨p, hp, hpl⟩ := href.2 t ht
          refine ⟨p, by rw [htimer, htimer₁, hp], (hmem p).mpr ⟨?_, hpl⟩⟩
          exact fun heq => hunused t ht (heq ▸ hp)

end Steps

theorem noDangling_step (taskStack : Nat) {op : KernelOp w} (hl : TaskInv k l)
    (hm : TimerInv k m) (hgood : NoDangling k)
    (hstep : op.step taskStack k = some k') :
    ∃ l' m', StepExact k' l' m' (KeepsTasks k op) := by
  have href := (noDangling_iff hl hm).mp hgood
  obtain ⟨hop, hrun⟩ := guarded_eq_some.mp hstep
  cases op with
  | create newTask args =>
      obtain ⟨l', hexact⟩ := create_exact hl hm href taskStack hop hrun
      exact ⟨l', m, hexact⟩
  | createTimer t func args timeout =>
      obtain ⟨m', hexact⟩ := createTimer_exact hl hm href hop hrun
      exact ⟨l, m', hexact⟩
  | deleteTimer t =>
      obtain ⟨m', hexact⟩ := deleteTimer_exact hl hm href hrun
      exact ⟨l, m', hexact⟩
  | delay t ticks =>
      obtain ⟨m', hexact⟩ := delay_exact hl hm href hop hrun
      exact ⟨l, m', hexact⟩
  | timerInterrupt =>
      obtain ⟨result, htick, rfl⟩ := ok_of_map hrun
      obtain ⟨m', hexact⟩ := tick_exact hl hm href htick
      exact ⟨l, m', hexact⟩
  | exit =>
      obtain ⟨l', hexact⟩ := exit_exact hl hm href hrun
      refine ⟨l', m, hexact.tasks, hexact.timers, ?_⟩
      simpa only [KeepsTasks, hm.path.linked_iff] using hexact.references
  | schedule =>
      obtain ⟨result, hsched, rfl⟩ := ok_of_map hrun
      obtain ⟨l', hexact⟩ := schedule_exact hl hm href hsched
      exact ⟨l', m, hexact⟩
  | overwriteTask p contents =>
      cases hrun
      have hother := k.setTask_of_notMem (hl.mem_live.not.mp hop) contents
      exact ⟨l, m, hl.congr hother rfl rfl rfl rfl,
        hm.congr (fun _ _ => rfl) rfl rfl, iff_true_intro href⟩
  | overwriteTimer t contents =>
      cases hrun
      have hother := k.setTimer_of_notMem (hm.mem_live.not.mp hop) contents
      refine ⟨l, m, hl.congr (fun _ _ => rfl) rfl rfl rfl rfl,
        hm.congr hother rfl rfl, iff_true_intro ⟨href.1, fun s hs => ?_⟩⟩
      rw [hother s hs]
      exact href.2 s hs

/-- Along any run no reference to a freed task is left exactly if tasks exit only
while there is another one and no timer refers to them, and timers are created
only by tasks. -/
theorem no_dangling_iff (taskStack : Nat) (task : Ptr → TaskInfo)
    (timer : Ptr → Timer w) (ops : List (KernelOp w)) :
    Always (stepRel (KernelOp.step taskStack)) NoDangling (boot task timer) ops ↔
      Meets (stepRel (KernelOp.step taskStack)) KeepsTasks (boot task timer)
        ops := by
  refine always_iff_meets (J := fun k => ∃ l m, TaskInv k l ∧ TimerInv k m) ?_ ?_
    ⟨[], [], TaskInv.boot task timer, TimerInv.boot task timer⟩ ?_
  · rintro k op k' ⟨l, m, hl, hm⟩ hgood hstep
    obtain ⟨l', m', hexact⟩ := noDangling_step taskStack hl hm hgood hstep
    rw [noDangling_iff hexact.tasks hexact.timers]
    exact hexact.references
  · rintro k op k' ⟨l, m, hl, hm⟩ hgood - hstep
    obtain ⟨l', m', hexact⟩ := noDangling_step taskStack hl hm hgood hstep
    exact ⟨l', m', hexact.tasks, hexact.timers⟩
  · rw [noDangling_iff (TaskInv.boot task timer) (TimerInv.boot task timer)]
    exact ⟨fun p hp => absurd hp (by simp [boot]), by simp⟩

theorem last_task_dangles :
    ∃ k, exec (KernelOp.step 4096)
        (boot (fun _ => blankTask) (fun _ => (blankTimer : Timer 64)))
        [.create 256 (argsOf 100), .schedule, .exit] = some k ∧
      ¬NoDangling k := by
  refine ⟨_, rfl, fun hgood => ?_⟩
  obtain ⟨l, hpath, hmem⟩ := hgood.1 256 rfl
  cases l with
  | nil => exact List.not_mem_nil hmem
  | cons p l =>
      have hfirst : none = some p := hpath.1
      cases hfirst

end XinOS.Kernel
