import XinOS.Platform
import XinOS.Foundation.LinkedList

/-!
# Tasks, timers and the state of the kernel

The objects of sched.h and timer.h, the static variables of sched.c and timer.c,
and the two lists of the objects that `malloc` has handed out and `free` has not
taken back.  `w` is the width of a register.
-/

namespace XinOS.Kernel

open XinOS.Foundation

abbrev Ptr := Nat

inductive TaskState where
  | running
  | runnable
  | sleeping
  deriving DecidableEq, Repr

/-- The fields of `struct context` that `task_create` sets. -/
structure StartContext where
  sp : Nat
  pc : Nat
  a0 : Nat
  deriving DecidableEq, Repr

structure TaskInfo where
  taskId : CInt
  priority : Int
  state : TaskState
  timeslice : BitVec 32
  next : Option Ptr
  ctx : StartContext
  deriving DecidableEq, Repr

/-- `struct timer`; a null `func` marks the timer of a sleeping task. -/
structure Timer (w : Nat) where
  func : Option Nat
  args : Nat
  next : Option Ptr
  timeout : BitVec w
  task : Option Ptr
  deriving DecidableEq, Repr

inductive Fault where
  | nullAccess
  | nullCall
  | noReturn
  deriving DecidableEq, Repr

/-- The context that executes after a handler: the one that was interrupted, a
task that `switch_to` has loaded, or the kernel's own (`back_os`). -/
inductive Control where
  | stay
  | task (p : Ptr)
  | os
  deriving DecidableEq, Repr

structure State (w : Nat) where
  task : Ptr → TaskInfo
  timer : Ptr → Timer w
  firstTask : Option Ptr
  curTask : Option Ptr
  tasksNum : Int
  taskId : CInt
  firstTimer : Option Ptr
  ticks : BitVec w
  curTaskStartTick : BitVec w
  msip : Bool
  liveTasks : List Ptr
  liveTimers : List Ptr

def maxTaskNum : Nat := 10

def stackSize : Nat := 1024

def boot {w : Nat} (task : Ptr → TaskInfo) (timer : Ptr → Timer w) : State w where
  task := task
  timer := timer
  firstTask := none
  curTask := none
  tasksNum := 0
  taskId := 1
  firstTimer := none
  ticks := 0
  curTaskStartTick := 0
  msip := false
  liveTasks := []
  liveTimers := []

namespace State

variable {w : Nat} (k : State w)

def taskNext (p : Ptr) : Option Ptr := (k.task p).next

def timerNext (p : Ptr) : Option Ptr := (k.timer p).next

def setTask (p : Ptr) (t : TaskInfo) : State w :=
  { k with task := Function.update k.task p t }

def setTaskNext (p : Ptr) (q : Option Ptr) : State w :=
  k.setTask p { k.task p with next := q }

def setTaskState (p : Ptr) (s : TaskState) : State w :=
  k.setTask p { k.task p with state := s }

def setTaskPriority (p : Ptr) (n : Int) : State w :=
  k.setTask p { k.task p with priority := n }

def setTimer (p : Ptr) (t : Timer w) : State w :=
  { k with timer := Function.update k.timer p t }

def setTimerNext (p : Ptr) (q : Option Ptr) : State w :=
  k.setTimer p { k.timer p with next := q }

@[simp] theorem setTask_task (p : Ptr) (t : TaskInfo) :
    (k.setTask p t).task = Function.update k.task p t := rfl

@[simp] theorem setTimer_timer (p : Ptr) (t : Timer w) :
    (k.setTimer p t).timer = Function.update k.timer p t := rfl

theorem setTask_of_notMem {p : Ptr} {l : List Ptr} (hp : p ∉ l) (t : TaskInfo) :
    ∀ q ∈ l, (k.setTask p t).task q = k.task q :=
  fun _ hq => update_of_mem hp hq t

theorem setTimer_of_notMem {p : Ptr} {l : List Ptr} (hp : p ∉ l) (t : Timer w) :
    ∀ q ∈ l, (k.setTimer p t).timer q = k.timer q :=
  fun _ hq => update_of_mem hp hq t

theorem setTaskNext_taskNext (p : Ptr) (q : Option Ptr) :
    (k.setTaskNext p q).taskNext = Function.update k.taskNext p q := by
  funext r
  by_cases hr : r = p <;> simp [taskNext, setTaskNext, hr]

theorem setTimerNext_timerNext (p : Ptr) (q : Option Ptr) :
    (k.setTimerNext p q).timerNext = Function.update k.timerNext p q := by
  funext r
  by_cases hr : r = p <;> simp [timerNext, setTimerNext, hr]

/-- The address can be a result of `malloc`: a new object, not null. -/
def Fresh (p : Ptr) : Prop :=
  0 < p ∧ p < 2 ^ 64 ∧ p ∉ k.liveTasks ∧ p ∉ k.liveTimers

instance (p : Ptr) : Decidable (k.Fresh p) :=
  inferInstanceAs (Decidable (_ ∧ _))

end State

end XinOS.Kernel
