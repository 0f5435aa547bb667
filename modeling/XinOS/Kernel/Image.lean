import XinOS.Kernel.Tasks
import XinOS.Kernel.Timers
import XinOS.Page.Malloc
import XinOS.Trap.Entry

/-!
# Creating tasks and timers in memory

`task_create` and `timer_create` once more, now with the bytes of the objects and the
call of `malloc`.  Lengths and offsets are those of the two builds.
-/

namespace XinOS.Kernel

open XinOS.Foundation XinOS.Page XinOS.Trap

variable {b : Build}

/-! ## `struct taskInfo` and `struct timer` -/

def priorityField : Nat := 4

def stateField : Nat := 8

def timesliceField : Nat := 12

def nextField : Nat := 16

def ctxField (b : Build) : Nat := nextField + wordBytes b

def taskBytes (b : Build) : Nat := ctxField b + contextBytes b

def sleepingState : Nat := 2

def argsField (b : Build) : Nat := wordBytes b

def timerNextField (b : Build) : Nat := 2 * wordBytes b

def timeoutField (b : Build) : Nat := 3 * wordBytes b

def timerTaskField (b : Build) : Nat := 4 * wordBytes b

def timerBytes (b : Build) : Nat := 5 * wordBytes b

/-! ## The static variables and memory -/

structure Image (b : Build) where
  mem : Memory
  firstTask : Option Ptr
  curTask : Option Ptr
  tasksNum : CInt
  taskId : CInt
  firstTimer : Option Ptr
  ticks : BitVec b.xlen

def readPtr (b : Build) (m : Memory) (a : Nat) : Option Ptr :=
  let v := m.load (wordBytes b) a
  if v = 0 then none else some v

def writePtr (b : Build) (m : Memory) (a : Nat) (p : Option Ptr) : Memory :=
  m.store (wordBytes b) a (p.getD 0)

def deref : Option Ptr → Except Fault Ptr
  | none => .error .nullAccess
  | some p => .ok p

namespace Image

variable (k : Image b)

def taskPriority (p : Ptr) : Int :=
  (BitVec.ofNat 32 (k.mem.load 4 (p + priorityField))).toInt

def taskNext (p : Ptr) : Option Ptr := readPtr b k.mem (p + nextField)

def setTaskNext (p : Ptr) (q : Option Ptr) : Image b :=
  { k with mem := writePtr b k.mem (p + nextField) q }

def timerTimeout (p : Ptr) : BitVec b.xlen :=
  BitVec.ofNat _ (k.mem.load (wordBytes b) (p + timeoutField b))

def timerNext (p : Ptr) : Option Ptr := readPtr b k.mem (p + timerNextField b)

def setTimerNext (p : Ptr) (q : Option Ptr) : Image b :=
  { k with mem := writePtr b k.mem (p + timerNextField b) q }

def Tasks (l : List Ptr) : Prop := Path k.taskNext k.firstTask l none

def Timers (l : List Ptr) : Prop := Path k.timerNext k.firstTimer l none

/-! ## timer.c -/

def insertTimer (t : Ptr) : Except Fault (Image b) :=
  match k.firstTimer with
  | none => .ok { k with firstTimer := some t }
  | some first =>
      if k.timerTimeout t < k.timerTimeout first then
        .ok { k.setTimerNext t (some first) with firstTimer := some t }
      else
        match walk k.timerNext
          (fun it => decide (k.timerTimeout it ≤ k.timerTimeout t))
          walkFuel (some first) first with
        | none => .error .noReturn
        | some (it, prev) => .ok ((k.setTimerNext prev (some t)).setTimerNext t it)

def timerWords (func args timeout : BitVec b.xlen) : List Memory.Word :=
  [⟨0, wordBytes b, func.toNat⟩,
    ⟨argsField b, wordBytes b, args.toNat⟩,
    ⟨timerTaskField b, wordBytes b, k.curTask.getD 0⟩,
    ⟨timeoutField b, wordBytes b, (k.ticks + timeout).toNat⟩,
    ⟨timerNextField b, wordBytes b, 0⟩]

def timerCreate (h : Heap) (func args timeout : BitVec b.xlen) :
    Except Fault (Option Ptr × Image b) :=
  let (t, m) := malloc h (timerBytes b) k.mem
  -- `t->func`
  match deref t with
  | .error e => .error e
  | .ok t =>
      let m := m.storeAll t (k.timerWords func args timeout)
      match { k with mem := m }.insertTimer t with
      | .error e => .error e
      | .ok k => .ok (some t, k)

/-! ## sched.c -/

def insertTask (newTask : Ptr) : Except Fault (Int × Image b) :=
  match k.firstTask with
  | none =>
      if k.tasksNum = 0 then
        .ok (0, { k with firstTask := some newTask, tasksNum := k.tasksNum + 1 })
      else .ok (-1, k)
  | some first =>
      if k.taskPriority newTask < k.taskPriority first then
        .ok (0, { k.setTaskNext newTask (some first) with
          firstTask := some newTask
          tasksNum := k.tasksNum + 1 })
      else
        match walk k.taskNext
          (fun it => decide (k.taskPriority it ≤ k.taskPriority newTask))
          walkFuel (some first) first with
        | none => .error .noReturn
        | some (it, prev) =>
            .ok (0, { (k.setTaskNext prev (some newTask)).setTaskNext newTask it with
              tasksNum := k.tasksNum + 1 })

structure TaskCall (b : Build) where
  task : BitVec b.xlen
  param : BitVec b.xlen
  priority : CInt
  timeslice : BitVec b.xlen

/-- The fields that `task_create` sets; `state` and most of `ctx` are not among
them. -/
def taskWords (taskStack : Nat) (a : TaskCall b) : List Memory.Word :=
  [⟨0, 4, k.taskId.toNat⟩,
    ⟨priorityField, 4, a.priority.toNat⟩,
    ⟨timesliceField, 4, (a.timeslice.setWidth 32).toNat⟩,
    ⟨nextField, wordBytes b, 0⟩,
    ⟨ctxField b + fieldOffset b .sp, wordBytes b,
      stackTop taskStack k.tasksNum.toInt⟩,
    ⟨ctxField b + pcField b, wordBytes b, a.task.toNat⟩] ++
  if a.param ≠ 0 then
    [⟨ctxField b + fieldOffset b .a0, wordBytes b, a.param.toNat⟩]
  else []

def taskCreate (h : Heap) (taskStack : Nat) (a : TaskCall b) :
    Except Fault (Int × Image b) :=
  if k.tasksNum.toInt ≥ maxTaskNum then .ok (-1, k)
  else
    let (newTask, m) := malloc h (taskBytes b) k.mem
    -- `new_task->task_id`
    match deref newTask with
    | .error e => .error e
    | .ok newTask =>
        let m := m.storeAll newTask (k.taskWords taskStack a)
        match { k with mem := m, taskId := k.taskId + 1 }.insertTask newTask with
        | .error e => .error e
        | .ok (r, k) =>
            if r < 0 then
              match free h k.mem newTask with
              | .error _ => .error .noReturn
              | .ok m => .ok (-1, { k with mem := m })
            else .ok (0, k)

end Image

def Image.boot (r : Board) (m : Memory) : Image r.build where
  mem := (pageInit r.toRegion m).2
  firstTask := none
  curTask := none
  tasksNum := 0
  taskId := 1
  firstTimer := none
  ticks := 0

/-! ## The fields that `task_create` sets -/

theorem task_sizes (b : Build) : ctxField b = 16 + wordBytes b ∧
    taskBytes b = 16 + 33 * wordBytes b ∧ (wordBytes b = 4 ∨ wordBytes b = 8) := by
  cases b <;> decide

theorem context_offsets (b : Build) :
    fieldOffset b .sp = wordBytes b ∧ fieldOffset b .a0 = 9 * wordBytes b ∧
      pcField b = 31 * wordBytes b := by
  cases b <;> decide

theorem taskBytes_small (b : Build) :
    1 ≤ taskBytes b ∧ taskBytes b ≤ allocableSize ∧
      blockTotal (taskBytes b) * mallocSize = taskBytes b ∧
      (blockTotal (taskBytes b) - 1) * mallocSize = taskBytes b - 4 := by
  cases b <;> decide

namespace Image

section Words

variable {k : Image b} {taskStack : Nat} {a : TaskCall b}

theorem taskWords_apart : (k.taskWords taskStack a).Pairwise Memory.Word.Apart := by
  obtain ⟨hsp, ha0, hpc⟩ := context_offsets b
  obtain ⟨hctx, -, hword⟩ := task_sizes b
  unfold taskWords
  split_ifs <;>
    simp only [List.cons_append, List.nil_append, List.append_nil, List.pairwise_cons,
      List.mem_cons, List.not_mem_nil, forall_eq_or_imp, or_false, forall_eq,
      Memory.Word.Apart, priorityField, timesliceField, nextField, hctx, hsp, ha0,
      hpc, List.Pairwise.nil, and_true, IsEmpty.forall_iff, implies_true] <;>
    omega

theorem forall_taskWords {P : Nat → Nat → Prop} (hinfo : P 0 4 ∧ P 4 4 ∧ P 12 4)
    (hnext : P 16 (wordBytes b)) (hsp : P (ctxField b + fieldOffset b .sp) (wordBytes b))
    (hpc : P (ctxField b + pcField b) (wordBytes b))
    (ha0 : a.param ≠ 0 → P (ctxField b + fieldOffset b .a0) (wordBytes b)) :
    ∀ f ∈ k.taskWords taskStack a, P f.offset f.size := by
  obtain ⟨hid, hpriority, htimeslice⟩ := hinfo
  intro f hf
  rcases List.mem_append.mp hf with hf | hf
  · simp only [List.mem_cons, List.not_mem_nil, or_false] at hf
    rcases hf with rfl | rfl | rfl | rfl | rfl | rfl <;> assumption
  · split_ifs at hf with hparam
    · obtain rfl := List.mem_singleton.mp hf
      exact ha0 hparam
    · cases hf

theorem taskWords_inside :
    ∀ f ∈ k.taskWords taskStack a, f.offset + f.size ≤ taskBytes b := by
  obtain ⟨hsp, ha0, hpc⟩ := context_offsets b
  obtain ⟨hctx, hsize, hword⟩ := task_sizes b
  apply forall_taskWords (P := fun o n => o + n ≤ taskBytes b) <;> omega

theorem stateField_unset : ∀ f ∈ k.taskWords taskStack a,
    f.offset + f.size ≤ stateField ∨ stateField + 4 ≤ f.offset := by
  obtain ⟨hctx, -, -⟩ := task_sizes b
  unfold stateField
  apply forall_taskWords (P := fun o n => o + n ≤ 8 ∨ 8 + 4 ≤ o) <;> omega

theorem nextWord_mem : ⟨nextField, wordBytes b, 0⟩ ∈ k.taskWords taskStack a := by
  simp [taskWords]

theorem pcWord_mem : ⟨ctxField b + pcField b, wordBytes b, a.task.toNat⟩ ∈
    k.taskWords taskStack a := by
  simp [taskWords]

theorem mem_timerWords {func args timeout : BitVec b.xlen} {f : Memory.Word}
    (hf : f ∈ k.timerWords func args timeout) :
    ∃ i < 5, f.offset = i * wordBytes b ∧ f.size = wordBytes b := by
  simp only [timerWords, List.mem_cons, List.not_mem_nil, or_false] at hf
  rcases hf with rfl | rfl | rfl | rfl | rfl
  · exact ⟨0, by decide, (Nat.zero_mul _).symm, rfl⟩
  · exact ⟨1, by decide, (Nat.one_mul _).symm, rfl⟩
  · exact ⟨4, by decide, rfl, rfl⟩
  · exact ⟨3, by decide, rfl, rfl⟩
  · exact ⟨2, by decide, rfl, rfl⟩

theorem timerWords_inside {func args timeout : BitVec b.xlen} :
    ∀ f ∈ k.timerWords func args timeout, f.offset + f.size ≤ timerBytes b := by
  intro f hf
  obtain ⟨i, hi, hoffset, hsize⟩ := mem_timerWords hf
  have hin : (i + 1) * wordBytes b ≤ 5 * wordBytes b := Nat.mul_le_mul_right _ hi
  rw [Nat.succ_mul] at hin
  rw [hoffset, hsize]
  exact hin

theorem timerWords_apart {func args timeout : BitVec b.xlen} :
    (k.timerWords func args timeout).Pairwise Memory.Word.Apart := by
  have hword := wordBytes_pos b
  simp only [timerWords, List.pairwise_cons, List.mem_cons, List.not_mem_nil,
    forall_eq_or_imp, or_false, forall_eq, Memory.Word.Apart, argsField,
    timerNextField, timeoutField, timerTaskField, List.Pairwise.nil, and_true,
    IsEmpty.forall_iff, implies_true]
  omega

end Words

end Image

def someTask : Image.TaskCall .rv64 where
  task := 0x80000100
  param := 0
  priority := 1
  timeslice := 3

end XinOS.Kernel
