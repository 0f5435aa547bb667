import XinOS.Foundation.Transition
import XinOS.Kernel.TaskSteps

/-!
# Runs of the scheduler

Tasks are created, chosen and exit in any order, and their states change at will.
Memory that holds no live task may change at any time.
-/

namespace XinOS.Kernel

open XinOS.Foundation

variable {w : Nat} {k k' : State w} {l : List Ptr}

inductive TaskOp (w : Nat) where
  | create (newTask : Ptr) (args : TaskArgs w)
  | pop
  | schedule
  | exit (cur : Ptr)
  | setState (task : Ptr) (s : TaskState)
  | overwrite (p : Ptr) (contents : TaskInfo)

/-- A created task gets a new object and an id that `int` can count to; the task
that exits, or whose state changes, is live. -/
def TaskOp.Allowed (k : State w) : TaskOp w → Prop
  | .create newTask _ =>
      k.tasksNum < maxTaskNum → k.Fresh newTask ∧ 0 < k.taskId.toInt
  | .pop => True
  | .schedule => True
  | .exit cur => cur ∈ k.liveTasks
  | .setState task _ => task ∈ k.liveTasks
  | .overwrite p _ => p ∉ k.liveTasks

instance (k : State w) : DecidablePred (TaskOp.Allowed k) := fun op => by
  cases op <;> unfold TaskOp.Allowed <;> infer_instance

def TaskOp.run (taskStack : Nat) (k : State w) :
    TaskOp w → Except Fault (State w)
  | .create newTask args => (taskCreate taskStack k newTask args).map Prod.snd
  | .pop => (popTask k).map Prod.snd
  | .schedule => (Kernel.schedule k).map Prod.fst
  | .exit cur => taskExit { k with curTask := some cur }
  | .setState task s => .ok (k.setTaskState task s)
  | .overwrite p contents => .ok (k.setTask p contents)

def TaskOp.step (taskStack : Nat) (k : State w) (op : TaskOp w) :
    Option (State w) :=
  if op.Allowed k then (op.run taskStack k).toOption else none

inductive TaskOp.Effect (taskStack : Nat) (k : State w) (l : List Ptr)
    (k' : State w) (l' : List Ptr) : TaskOp w → Prop where
  | created {newTask : Ptr} {args : TaskArgs w} (hroom : l.length < maxTaskNum)
      (hnew : newTask ∉ l) (hl' : l'.Perm (newTask :: l))
      (hrel : Relinked (admitTask taskStack k newTask args) k') :
      Effect taskStack k l k' l' (.create newTask args)
  | refused {newTask : Ptr} {args : TaskArgs w} (hfull : ¬l.length < maxTaskNum)
      (hk : k' = k) (hl' : l' = l) :
      Effect taskStack k l k' l' (.create newTask args)
  | kept {op : TaskOp w} (hop : ∀ newTask args, op ≠ .create newTask args)
      (hl' : l' ⊆ l) (hctx : ∀ p ∈ l', (k'.task p).ctx = (k.task p).ctx) :
      Effect taskStack k l k' l' op

theorem TaskOp.run_spec (taskStack : Nat) (h : TaskInv k l) {op : TaskOp w}
    (hop : op.Allowed k) :
    ∃ k' l', op.run taskStack k = .ok k' ∧ TaskInv k' l' ∧
      TaskOp.Effect taskStack k l k' l' op := by
  cases op with
  | create newTask args =>
      by_cases hroom : l.length < maxTaskNum
      · obtain ⟨hfresh, hid⟩ := hop (by rw [h.count]; exact_mod_cast hroom)
        have hnew : newTask ∉ l := fun hmem =>
          hfresh.2.2.1 (h.mem_live.mpr hmem)
        obtain ⟨k', -, hcreate, hrel, hinv⟩ :=
          h.taskCreate_room taskStack hroom hnew hid args
        exact ⟨k', _, by rw [TaskOp.run, hcreate]; rfl, hinv,
          .created hroom hnew (insertByKey_perm _ _ _) hrel⟩
      · refine ⟨k, l, ?_, h, .refused hroom rfl rfl⟩
        rw [TaskOp.run, h.taskCreate_full taskStack hroom]
        rfl
  | pop =>
      rcases h.popTask_cases with ⟨-, -, hpop⟩ |
        ⟨pre, t, post, k₁, k', rfl, -, -, -, -, hpop, hrel, hinv⟩
      · exact ⟨k, l, by rw [TaskOp.run, hpop]; rfl, h,
          .kept (by simp) (List.Subset.refl l) fun _ _ => rfl⟩
      · refine ⟨k', _, by rw [TaskOp.run, hpop]; rfl, hinv,
          .kept (by simp) ?_ fun p _ => by rw [hrel.ctx_eq, lowerPriority_ctx]⟩
        exact ((insertByKey_perm _ _ _).trans List.perm_middle.symm).subset
  | schedule =>
      obtain ⟨k', l', c, hsched, hinv, hcase⟩ := h.schedule_cases
      refine ⟨k', l', by rw [TaskOp.run, hsched]; rfl, hinv,
        .kept (by simp) ?_ ?_⟩
      · cases hcase with
        | noTask _ _ hl' => exact hl' ▸ List.Subset.refl _
        | allSleep _ _ _ hl' => exact hl' ▸ List.Subset.refl _
        | run _ _ _ _ hl' => exact hl'.subset
      · intro p _
        cases hcase with
        | noTask _ hk _ => rw [hk]
        | allSleep _ _ hk _ => rw [hk]
        | run _ _ hrel hk _ => rw [hk, hrel.ctx_eq, lowerPriority_ctx]
  | exit cur =>
      have hcur : TaskInv { k with curTask := some cur } l :=
        h.congr (fun _ _ => rfl) rfl rfl rfl rfl
      obtain ⟨k', hexit, hrel, hinv⟩ :=
        hcur.taskExit_some rfl (h.mem_live.mp hop)
      exact ⟨k', _, hexit, hinv, .kept (by simp) List.erase_subset
        fun p _ => hrel.ctx_eq p⟩
  | setState task s =>
      refine ⟨_, l, rfl, h.setTaskState task s,
        .kept (by simp) (List.Subset.refl l) fun p _ => ?_⟩
      by_cases hp : p = task <;> simp [State.setTaskState, hp]
  | overwrite p contents =>
      have hother : ∀ q ∈ l, (k.setTask p contents).task q = k.task q :=
        k.setTask_of_notMem (h.mem_live.not.mp hop) contents
      exact ⟨_, l, rfl, h.congr hother rfl rfl rfl rfl,
        .kept (by simp) (List.Subset.refl l) fun q hq => by rw [hother q hq]⟩

theorem TaskOp.step_spec (taskStack : Nat) (h : TaskInv k l) {op : TaskOp w}
    (hstep : op.step taskStack k = some k') :
    op.Allowed k ∧ ∃ l', TaskInv k' l' ∧
      TaskOp.Effect taskStack k l k' l' op := by
  obtain ⟨hop, hrun⟩ := guarded_eq_some.mp hstep
  obtain ⟨k₁, l', hrun₁, hinv, heffect⟩ := TaskOp.run_spec taskStack h hop
  obtain rfl : k₁ = k' := Except.ok.inj (hrun₁.symm.trans hrun)
  exact ⟨hop, l', hinv, heffect⟩

theorem taskInv_of_reaches (taskStack : Nat) {task : Ptr → TaskInfo}
    {timer : Ptr → Timer w}
    (h : Reaches (stepRel (TaskOp.step taskStack)) anyLabel (boot task timer) k) :
    ∃ l, TaskInv k l := by
  refine Reaches.invariant (P := fun k => ∃ l, TaskInv k l)
    ⟨[], TaskInv.boot task timer⟩ ?_ h
  rintro k₁ op k₂ ⟨l, hinv⟩ - hstep
  obtain ⟨-, l', hinv', -⟩ := TaskOp.step_spec taskStack hinv hstep
  exact ⟨l', hinv'⟩

/-! ## The scheduler's list -/

/-- `pop_task` took `t` out of the list `l`, where it was the first task that does
not sleep, and put it back somewhere. -/
structure Popped (k : State w) (l : List Ptr) (t : Ptr) (k' : State w) :
    Prop where
  awake : (k.task t).state ≠ .sleeping
  least : ∀ q ∈ l, (k.task q).state ≠ .sleeping →
    (k.task t).priority ≤ (k.task q).priority
  earliest : ∃ pre post, l = pre ++ t :: post ∧
    ∀ q ∈ pre, (k.task q).state = .sleeping
  order : ∃ l', Path k'.taskNext k'.firstTask l' none ∧ t ∈ l' ∧
    l'.erase t = l.erase t

theorem TaskInv.popped {pre post : List Ptr} {t : Ptr}
    (h : TaskInv k (pre ++ t :: post))
    (hpre : ∀ p ∈ pre, (k.task p).state = .sleeping)
    (ht : (k.task t).state ≠ .sleeping)
    (h' : TaskInv k' (insertByKey k'.number t (pre ++ post))) :
    Popped k (pre ++ t :: post) t k' where
  awake := ht
  least := by
    intro q hq hawake
    rcases List.mem_append.mp hq with hq | hq
    · exact absurd (hpre q hq) hawake
    · rcases List.mem_cons.mp hq with rfl | hq
      · exact le_rfl
      · exact (List.pairwise_cons.mp (List.pairwise_append.mp h.sorted).2.1).1 q hq
  earliest := ⟨pre, post, rfl, hpre⟩
  order := by
    have hnotMem : t ∉ pre ++ post := (List.nodup_middle.mp h.nodup).notMem
    refine ⟨_, h'.path, (insertByKey_perm _ _ _).mem_iff.mpr (by simp), ?_⟩
    rw [insertByKey_erase _ hnotMem,
      erase_middle fun hmem => hnotMem (List.mem_append_left _ hmem)]

/-- The list from `first_task` is the list of the live tasks, in order; nothing
that works on it fails, and `pop_task` chooses as it should. -/
theorem task_list_kept (taskStack : Nat) {task : Ptr → TaskInfo}
    {timer : Ptr → Timer w}
    (h : Reaches (stepRel (TaskOp.step taskStack)) anyLabel (boot task timer) k) :
    ∃ l, Path k.taskNext k.firstTask l none ∧ l.Nodup ∧ l.Perm k.liveTasks ∧
      (l.Pairwise fun p q => (k.task p).priority ≤ (k.task q).priority) ∧
      k.tasksNum = l.length ∧ 0 ≤ k.tasksNum ∧ k.tasksNum ≤ 10 ∧
      (∀ op : TaskOp w, op.Allowed k → ∃ k', op.step taskStack k = some k') ∧
      (∀ p args, (TaskOp.create p args).Allowed k → k.tasksNum < 10 →
        ∃ k', insertTask (admitTask taskStack k p args) p = .ok (0, k') ∧
          taskCreate taskStack k p args = .ok (0, k')) ∧
      ((∀ p ∈ l, (k.task p).state = .sleeping) ∧ popTask k = .ok (none, k) ∨
        (∃ p ∈ l, (k.task p).state ≠ .sleeping) ∧
          ∃ t k₁ k', takeTask k = .ok (some t, k₁) ∧
            insertTask k₁ t = .ok (0, k') ∧ popTask k = .ok (some t, k') ∧
            Popped k l t k') := by
  obtain ⟨l, hinv⟩ := taskInv_of_reaches taskStack h
  have hcount := hinv.count
  have hroom : l.length ≤ 10 := hinv.room
  refine ⟨l, hinv.path, hinv.nodup, hinv.live, hinv.sorted, hcount, by omega,
    by omega, ?_, ?_, ?_⟩
  · intro op hop
    obtain ⟨k', -, hrun, -, -⟩ := TaskOp.run_spec taskStack hinv hop
    exact ⟨k', guarded_eq_some.mpr ⟨hop, hrun⟩⟩
  · intro p args hop hlt
    obtain ⟨hfresh, hid⟩ := hop hlt
    obtain ⟨k', hinsert, hcreate, -⟩ := hinv.taskCreate_room taskStack
      (show l.length < 10 by omega)
      (fun hmem => hfresh.2.2.1 (hinv.mem_live.mpr hmem)) hid args
    exact ⟨k', hinsert, hcreate⟩
  · rcases hinv.popTask_cases with ⟨hall, -, hpop⟩ |
      ⟨pre, t, post, k₁, k', rfl, hpre, ht, htake, hinsert, hpop, -, hinv'⟩
    · exact .inl ⟨hall, hpop⟩
    · exact .inr ⟨⟨t, by simp, ht⟩, t, k₁, k', htake, hinsert, hpop,
        hinv.popped hpre ht hinv'⟩

def blankTask : TaskInfo where
  taskId := 0
  priority := 0
  state := .running
  timeslice := 0
  next := none
  ctx := { sp := 0, pc := 0, a0 := 0 }

def blankTimer : Timer w where
  func := none
  args := 0
  next := none
  timeout := 0
  task := none

def argsOf (priority : Int) : TaskArgs w where
  task := 4096
  param := none
  priority := priority
  timeslice := 5

theorem task_list_kept_of_pop :
    ∃ k, exec (TaskOp.step 4096)
        (boot (fun _ => blankTask) (fun _ => (blankTimer : Timer 64)))
        [.create 256 (argsOf 105), .create 512 (argsOf 100), .pop] = some k ∧
      ∃ l, Path k.taskNext k.firstTask l none ∧ l.Perm k.liveTasks := by
  obtain ⟨k, hrun⟩ : ∃ k, exec (TaskOp.step 4096)
      (boot (fun _ => blankTask) (fun _ => (blankTimer : Timer 64)))
      [.create 256 (argsOf 105), .create 512 (argsOf 100), .pop] = some k :=
    Option.isSome_iff_exists.mp (by decide)
  obtain ⟨l, hpath, -, hlive, -⟩ := task_list_kept 4096
    (Reaches.exec .refl (fun _ _ _ => trivial) hrun)
  exact ⟨k, hrun, l, hpath, hlive⟩

end XinOS.Kernel
