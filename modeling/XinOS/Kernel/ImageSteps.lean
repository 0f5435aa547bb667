import XinOS.Kernel.Hart
import XinOS.Kernel.Objects
import XinOS.Trap.Transparency

/-!
# The kernel in memory

The rest of sched.c and timer.c with the bytes of the objects and the calls of `free`,
and the hart that runs it: `trap_vector` saves the registers of whatever it interrupts
in the object that `mscratch` points into.  Only static variables are apart from
memory.
-/

namespace XinOS.Kernel

open XinOS.Foundation XinOS.Page XinOS.Trap

variable {b : Build}

def runnableState : Nat := 1

namespace Image

variable (k : Image b)

def taskNumber (p : Ptr) : CInt := BitVec.ofNat 32 (k.mem.load 4 (p + 0))

def taskState (p : Ptr) : Nat := k.mem.load 4 (p + stateField)

def taskTimeslice (p : Ptr) : BitVec 32 :=
  BitVec.ofNat 32 (k.mem.load 4 (p + timesliceField))

def setTaskState (p : Ptr) (v : Nat) : Image b :=
  { k with mem := k.mem.store 4 (p + stateField) v }

def raiseTaskPriority (p : Ptr) : Image b :=
  let n : CInt := BitVec.ofNat 32 (k.mem.load 4 (p + priorityField)) + 1
  { k with mem := k.mem.store 4 (p + priorityField) n.toNat }

def timerFunc (t : Ptr) : Option Nat := readPtr b k.mem (t + 0)

def timerArgs (t : Ptr) : Nat := k.mem.load (wordBytes b) (t + argsField b)

def timerTask (t : Ptr) : Option Ptr := readPtr b k.mem (t + timerTaskField b)

/-- `free`; its panics do not return. -/
def release (h : Heap) (p : Ptr) : Except Fault (Image b) :=
  match free h k.mem p with
  | .error _ => .error .noReturn
  | .ok m => .ok { k with mem := m }

/-! ## sched.c -/

def lowerPriority (task : Ptr) : Image b :=
  if k.taskPriority task < 256 then k.raiseTaskPriority task else k

/-- The first half of `pop_task`. -/
def takeTask : Except Fault (Option Ptr × Image b) :=
  match k.firstTask with
  | none => .ok (none, k)
  | some first =>
      match walk k.taskNext (fun it => decide (k.taskState it = sleepingState))
        walkFuel (some first) first with
      | none => .error .noReturn
      | some (none, _) => .ok (none, k)
      | some (some task, prev) =>
          let k := k.lowerPriority task
          let k := if k.taskNumber task = k.taskNumber first then
              { k with firstTask := k.taskNext first }
            else k.setTaskNext prev (k.taskNext task)
          .ok (some task, { k with tasksNum := k.tasksNum - 1 })

def popTask : Except Fault (Option Ptr × Image b) :=
  match k.takeTask with
  | .error e => .error e
  | .ok (none, k) => .ok (none, k)
  | .ok (some task, k) =>
      match k.insertTask task with
      | .error e => .error e
      | .ok (_, k) => .ok (some task, k)

def schedule : Except Fault (Image b × Control) :=
  if k.tasksNum.toInt ≤ 0 then .ok (k, .os)
  else
    match k.popTask with
    | .error e => .error e
    | .ok (none, k) => .ok ({ k with curTask := none }, .os)
    | .ok (some task, k) => .ok ({ k with curTask := some task }, .task task)

/-- The first half of `task_exit`. -/
def unlinkTask (cur : Ptr) : Except Fault (Image b) :=
  match k.firstTask with
  | none => .error .nullAccess
  | some first =>
      if k.taskNumber cur = k.taskNumber first then
        .ok { k with firstTask := k.taskNext first }
      else
        match walk k.taskNext (fun it => decide (k.taskNumber it ≠ k.taskNumber cur))
          walkFuel (some first) first with
        | none => .error .noReturn
        | some (_, prev) => .ok (k.setTaskNext prev (k.taskNext cur))

/-! ## timer.c -/

def deleteFrom (h : Heap) (first t : Ptr) : Except Fault (Image b) :=
  if t = first then { k with firstTimer := k.timerNext first }.release h t
  else
    match walk k.timerNext (fun it => decide (it ≠ t)) walkFuel (some first) first with
    | none => .error .noReturn
    | some (none, _) => .error .nullAccess
    | some (some it, prev) => (k.setTimerNext prev (k.timerNext it)).release h t

def timerDelete (h : Heap) (t : Option Ptr) : Except Fault (Image b) :=
  match k.firstTimer, t with
  | some first, some t => k.deleteFrom h first t
  | _, _ => .ok k

/-- The loop of `timer_check`.  The functions it calls touch neither tasks nor
timers. -/
def timerCheckLoop (h : Heap) : Nat → Option Ptr →
    Except Fault (Option Ptr × Image b × List (Nat × Nat))
  | 0, _ => .error .noReturn
  | _ + 1, none => .ok (none, k, [])
  | fuel + 1, some it =>
      if k.timerTimeout it ≤ k.ticks then
        -- `it->task->state`
        match deref (k.timerTask it) with
        | .error e => .error e
        | .ok task =>
            if k.taskState task = sleepingState ∧ k.timerFunc it = none then
              match k.timerDelete h (some it) with
              | .error e => .error e
              | .ok k => .ok (some task, k, [])
            else
              match k.timerFunc it with
              | none => .error .nullCall
              | some func =>
                  match timerCheckLoop h fuel (k.timerNext it) with
                  | .error e => .error e
                  | .ok (task, k', calls) =>
                      .ok (task, k', (func, k.timerArgs it) :: calls)
      else .ok (none, k, [])

def timerCheck (h : Heap) : Except Fault (Option Ptr × Image b × List (Nat × Nat)) :=
  k.timerCheckLoop h walkFuel k.firstTimer

end Image

/-! ## The hart -/

/-- Memory, the static variables, the pending software interrupt, and the task whose
context `mscratch` points to; without one that is the kernel's own. -/
structure MemoryHart (b : Build) where
  image : Image b
  curTaskStartTick : BitVec b.xlen
  msip : Bool
  running : Option Ptr

namespace MemoryHart

variable (s : MemoryHart b)

def taskDelay (h : Heap) (tick : BitVec b.xlen) : Except Fault (MemoryHart b) :=
  -- `cur_task->state`
  match deref s.image.curTask with
  | .error e => .error e
  | .ok cur =>
      match (s.image.setTaskState cur sleepingState).timerCreate h 0 0 tick with
      | .error e => .error e
      | .ok (_, k) => .ok { s with image := k, msip := true }

def taskExit (h : Heap) : Except Fault (MemoryHart b) :=
  match s.image.curTask with
  | none => .ok s
  | some cur =>
      match s.image.unlinkTask cur with
      | .error e => .error e
      | .ok k =>
          match k.release h cur with
          | .error e => .error e
          | .ok k =>
              .ok { s with image := { k with tasksNum := k.tasksNum - 1 }, msip := true }

def timerHandler (h : Heap) : Except Fault (MemoryHart b × Control) :=
  match { s.image with ticks := s.image.ticks + 1 }.timerCheck h with
  | .error e => .error e
  | .ok (some task, k, _) =>
      .ok ({ s with image :=
        { k.setTaskState task runnableState with curTask := some task } }, .os)
  | .ok (none, k, _) =>
      match k.curTask with
      | none => .ok ({ s with image := k }, .os)
      | some cur =>
          if (k.ticks - s.curTaskStartTick).toNat ≥ (k.taskTimeslice cur).toNat then
            .ok ({ s with image := k, curTaskStartTick := k.ticks }, .os)
          else .ok ({ s with image := k }, .stay)

def softwareInterruptHandler : Except Fault (MemoryHart b × Control) :=
  match s.image.schedule with
  | .error e => .error e
  | .ok (k, c) => .ok ({ s with image := k, msip := false }, c)

/-- The address in `mscratch`; `osTask` is that of `os_task`. -/
def context (osTask : Nat) : Nat := s.running.getD osTask + ctxField b

/-- `trap_vector` up to the call of `trap_handler`, with `f` interrupted. -/
def enterTrap (osTask : Nat) (f : Frame b) (cause : BitVec b.xlen) : MemoryHart b :=
  let hart : Core b :=
    { reg := f.reg
      csr := Function.update (fun _ => 0) .mscratch (BitVec.ofNat _ (s.context osTask))
      pc := f.pc
      mem := s.image.mem }
  { s with image := { s.image with mem := (enter hart cause).mem } }

def doSyscall (h : Heap) (ctx : Nat) : Except Fault (MemoryHart b) :=
  let callNum := s.image.mem.load (wordBytes b) (ctx + fieldOffset b .a7)
  let setResult (s : MemoryHart b) (v : BitVec b.xlen) : MemoryHart b :=
    { s with image := { s.image with
      mem := s.image.mem.store (wordBytes b) (ctx + fieldOffset b .a0) v.toNat } }
  if callNum = sysSleep then
    match s.taskDelay h
      (BitVec.ofNat _ (s.image.mem.load (wordBytes b) (ctx + fieldOffset b .a0))) with
    | .error e => .error e
    | .ok s => .ok (setResult s 0)
  else .ok (setResult s (-1))

def trapHandler (h : Heap) (ctx : Nat) (cause : BitVec b.xlen) :
    Except Fault (MemoryHart b × Control) :=
  match service cause with
  | .software => s.softwareInterruptHandler
  | .timer => s.timerHandler h
  | .external => .ok (s, .stay)
  | .unknown => .ok (s, .stay)
  | .syscall => (s.doSyscall h ctx).map (·, .stay)
  | .panic => .error .noReturn

def after (r : MemoryHart b × Control) : MemoryHart b :=
  { r.1 with running := r.2.resume s.running }

def Executes : Prop := s.running ≠ none ∧ s.msip = false

instance : Decidable s.Executes := inferInstanceAs (Decidable (_ ∧ _))

def InObject (x : Nat) : Prop :=
  (∃ p : Nat, Linked s.image.taskNext s.image.firstTask p ∧
    p ≤ x ∧ x < p + taskBytes b) ∨
  ∃ t : Nat, Linked s.image.timerNext s.image.firstTimer t ∧
    t ≤ x ∧ x < t + timerBytes b

end MemoryHart

/-- What a task, the kernel's loop or a device can make happen.  A trap carries the
registers that it interrupts. -/
inductive MemoryOp (b : Build) where
  | delay (tick : BitVec b.xlen)
  | yield
  | exit
  | createTask (a : Image.TaskCall b)
  | createTimer (func args timeout : BitVec b.xlen)
  | deleteTimer (t : Option Ptr)
  | trap (f : Frame b) (cause : BitVec b.xlen)
  | write (x : Nat) (v : Byte)

/-- Tasks act while they execute, and give their timers a function; ids do not
overflow; a trap has its reason, and no task makes one that ends in a panic; the
program writes to no object of the kernel and to no table of page.c. -/
def MemoryOp.Allowed (h : Heap) (s : MemoryHart b) : MemoryOp b → Prop
  | .delay _ => s.Executes
  | .yield => s.msip = false
  | .exit => s.Executes
  | .createTask _ => s.msip = false ∧
      (s.image.tasksNum.toInt < maxTaskNum → 0 < s.image.taskId.toInt)
  | .createTimer func _ _ => s.Executes ∧ func ≠ 0
  | .deleteTimer _ => s.Executes
  | .trap _ cause => service cause ≠ .panic ∧
      (service cause = .software → s.msip = true) ∧
      (service cause = .syscall → s.Executes)
  | .write x _ => ¬h.Metadata s.image.mem x ∧ ¬s.InObject x

def MemoryOp.run (h : Heap) (osTask taskStack : Nat) (s : MemoryHart b) :
    MemoryOp b → Except Fault (MemoryHart b)
  | .delay tick => s.taskDelay h tick
  | .yield => .ok { s with msip := true }
  | .exit => s.taskExit h
  | .createTask a =>
      (s.image.taskCreate h taskStack a).map fun r => { s with image := r.2 }
  | .createTimer func args timeout =>
      (s.image.timerCreate h func args timeout).map fun r => { s with image := r.2 }
  | .deleteTimer t => (s.image.timerDelete h t).map fun k => { s with image := k }
  | .trap f cause =>
      ((s.enterTrap osTask f cause).trapHandler h (s.context osTask) cause).map s.after
  | .write x v =>
      let m := s.image.mem.modify x fun _ => v
      .ok { s with image := { s.image with mem := m } }

/-- What the program writes itself is not followed, so that it need not be decided
where that is. -/
noncomputable instance (h : Heap) (s : MemoryHart b) :
    DecidablePred (MemoryOp.Allowed h s) := fun op => by
  cases op with
  | write x v => exact Classical.propDecidable _
  | _ => unfold MemoryOp.Allowed; infer_instance

noncomputable def MemoryOp.step (h : Heap) (osTask taskStack : Nat) (s : MemoryHart b)
    (op : MemoryOp b) : Option (MemoryHart b) :=
  if op.Allowed h s then (op.run h osTask taskStack s).toOption else none

def MemoryHart.boot (r : Board) (m : Memory) : MemoryHart r.build where
  image := Image.boot r m
  curTaskStartTick := 0
  msip := false
  running := none

end XinOS.Kernel
