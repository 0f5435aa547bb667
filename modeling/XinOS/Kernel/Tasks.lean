import XinOS.Kernel.State

/-!
# The scheduler: sched.c

Tasks are kept in one list in order of their priority numbers, tasks of equal
number in order of arrival.
-/

namespace XinOS.Kernel

open XinOS.Foundation

variable {w : Nat}

def insertTask (k : State w) (newTask : Ptr) : Except Fault (Int × State w) :=
  match k.firstTask with
  | none =>
      if k.tasksNum = 0 then
        .ok (0, { k with firstTask := some newTask, tasksNum := k.tasksNum + 1 })
      else .ok (-1, k)
  | some first =>
      if (k.task newTask).priority < (k.task first).priority then
        let k := k.setTaskNext newTask (some first)
        .ok (0, { k with firstTask := some newTask, tasksNum := k.tasksNum + 1 })
      else
        match walk k.taskNext
          (fun it => decide ((k.task it).priority ≤ (k.task newTask).priority))
          walkFuel (some first) first with
        | none => .error .noReturn
        | some (it, prev) =>
            let k := k.setTaskNext prev (some newTask)
            let k := k.setTaskNext newTask it
            .ok (0, { k with tasksNum := k.tasksNum + 1 })

def lowerPriority (k : State w) (task : Ptr) : State w :=
  if (k.task task).priority < 256 then
    k.setTaskPriority task ((k.task task).priority + 1)
  else k

/-- The first half of `pop_task`: the first task that does not sleep leaves the
list. -/
def takeTask (k : State w) : Except Fault (Option Ptr × State w) :=
  match k.firstTask with
  | none => .ok (none, k)
  | some first =>
      match walk k.taskNext (fun it => decide ((k.task it).state = .sleeping))
        walkFuel (some first) first with
      | none => .error .noReturn
      | some (none, _) => .ok (none, k)
      | some (some task, prev) =>
          let k := lowerPriority k task
          let k := if (k.task task).taskId = (k.task first).taskId then
              { k with firstTask := k.taskNext first }
            else k.setTaskNext prev (k.taskNext task)
          .ok (some task, { k with tasksNum := k.tasksNum - 1 })

def popTask (k : State w) : Except Fault (Option Ptr × State w) :=
  match takeTask k with
  | .error e => .error e
  | .ok (none, k) => .ok (none, k)
  | .ok (some task, k) =>
      match insertTask k task with
      | .error e => .error e
      | .ok (_, k) => .ok (some task, k)

/-- `schedule`; `back_os` and `switch_to` do not return. -/
def schedule (k : State w) : Except Fault (State w × Control) :=
  if k.tasksNum ≤ 0 then .ok (k, .os)
  else
    match popTask k with
    | .error e => .error e
    | .ok (none, k) => .ok ({ k with curTask := none }, .os)
    | .ok (some task, k) => .ok ({ k with curTask := some task }, .task task)

def taskYield (k : State w) : State w := { k with msip := true }

def softwareInterruptHandler (k : State w) :
    Except Fault (State w × Control) :=
  schedule { k with msip := false }

def freeTask (k : State w) (p : Ptr) : State w :=
  { k with liveTasks := k.liveTasks.erase p }

/-- The first half of `task_exit`: the task `cur` leaves the list. -/
def unlinkTask (k : State w) (cur : Ptr) : Except Fault (State w) :=
  match k.firstTask with
  | none => .error .nullAccess
  | some first =>
      if (k.task cur).taskId = (k.task first).taskId then
        .ok { k with firstTask := k.taskNext first }
      else
        match walk k.taskNext
          (fun it => decide ((k.task it).taskId ≠ (k.task cur).taskId))
          walkFuel (some first) first with
        | none => .error .noReturn
        | some (_, prev) => .ok (k.setTaskNext prev (k.taskNext cur))

def taskExit (k : State w) : Except Fault (State w) :=
  match k.curTask with
  | none => .ok k
  | some cur =>
      match unlinkTask k cur with
      | .error e => .error e
      | .ok k =>
          let k := freeTask k cur
          .ok (taskYield { k with tasksNum := k.tasksNum - 1 })

def stackTop (taskStack : Nat) (row : Int) : Nat :=
  (taskStack + row * stackSize + (stackSize - 1)).toNat

/-- What `task_create` is called with; `timeslice` is wider than the field it
goes to on RV64. -/
structure TaskArgs (w : Nat) where
  task : Nat
  param : Option Nat
  priority : Int
  timeslice : BitVec w

/-- What `task_create` makes of the contents `old` of a new object.  It leaves
`state` as it is, and `a0` when there is no parameter. -/
def startInfo (taskStack : Nat) (k : State w) (old : TaskInfo)
    (a : TaskArgs w) : TaskInfo where
  taskId := k.taskId
  priority := a.priority
  state := old.state
  timeslice := a.timeslice.setWidth 32
  next := none
  ctx :=
    { sp := stackTop taskStack k.tasksNum
      pc := a.task
      a0 := a.param.getD old.ctx.a0 }

def admitTask (taskStack : Nat) (k : State w) (newTask : Ptr)
    (a : TaskArgs w) : State w :=
  { k.setTask newTask (startInfo taskStack k (k.task newTask) a) with
    taskId := k.taskId + 1
    liveTasks := newTask :: k.liveTasks }

/-- `task_create`; `malloc` returns `newTask`. -/
def taskCreate (taskStack : Nat) (k : State w) (newTask : Ptr)
    (a : TaskArgs w) : Except Fault (Int × State w) :=
  if k.tasksNum ≥ maxTaskNum then .ok (-1, k)
  else
    match insertTask (admitTask taskStack k newTask a) newTask with
    | .error e => .error e
    | .ok (r, k) => if r < 0 then .ok (-1, freeTask k newTask) else .ok (0, k)

end XinOS.Kernel
