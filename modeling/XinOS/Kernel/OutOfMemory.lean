import XinOS.Kernel.Image

/-!
# Creating tasks and timers without memory

Neither `task_create` nor `timer_create` looks at what `malloc` returns before it
writes the first field of the new object.
-/

namespace XinOS.Kernel

open XinOS.Foundation XinOS.Page XinOS.Trap

variable {b : Build}

namespace Image

def TimerRefused (h : Heap) (k : Image b) (func args timeout : BitVec b.xlen) : Prop :=
  ∃ k', k.timerCreate h func args timeout = .ok (none, k') ∧
    ∀ l, k'.Timers l ↔ k.Timers l

def TaskRefused (h : Heap) (taskStack : Nat) (k : Image b) (a : TaskCall b) : Prop :=
  ∃ k', k.taskCreate h taskStack a = .ok (-1, k') ∧ k'.tasksNum = k.tasksNum ∧
    ∀ l, k'.Tasks l ↔ k.Tasks l

variable {h : Heap} {k : Image b}

theorem timerCreate_of_null (hnull : (malloc h (timerBytes b) k.mem).1 = none)
    (func args timeout : BitVec b.xlen) :
    k.timerCreate h func args timeout = .error .nullAccess := by
  simp only [timerCreate, hnull, deref]

theorem taskCreate_full (hfull : k.tasksNum.toInt ≥ maxTaskNum) (taskStack : Nat)
    (a : TaskCall b) : k.taskCreate h taskStack a = .ok (-1, k) := by
  rw [taskCreate, if_pos hfull]

theorem taskCreate_of_null (hroom : k.tasksNum.toInt < maxTaskNum)
    (hnull : (malloc h (taskBytes b) k.mem).1 = none) (taskStack : Nat)
    (a : TaskCall b) : k.taskCreate h taskStack a = .error .nullAccess := by
  rw [taskCreate, if_neg (by omega)]
  simp only [hnull, deref]

end Image

/-- When `malloc` returns null, `timer_create` never says so, and `task_create` only
where there are too many tasks anyway: both go on to write through the pointer. -/
theorem out_of_memory_reported_iff (h : Heap) (taskStack : Nat) (k : Image b) :
    ((malloc h (timerBytes b) k.mem).1 = none → ∀ func args timeout,
      k.timerCreate h func args timeout = .error .nullAccess ∧
        ¬k.TimerRefused h func args timeout) ∧
    ((malloc h (taskBytes b) k.mem).1 = none → ∀ a,
      (k.TaskRefused h taskStack a ↔ k.tasksNum.toInt ≥ maxTaskNum) ∧
        (¬k.tasksNum.toInt ≥ maxTaskNum →
          k.taskCreate h taskStack a = .error .nullAccess)) := by
  constructor
  · intro hnull func args timeout
    have hfault := Image.timerCreate_of_null hnull func args timeout
    refine ⟨hfault, ?_⟩
    rintro ⟨k', hrefused, -⟩
    rw [hfault] at hrefused
    cases hrefused
  · intro hnull a
    have hfault : ¬k.tasksNum.toInt ≥ maxTaskNum →
        k.taskCreate h taskStack a = .error .nullAccess := fun hroom =>
      Image.taskCreate_of_null (not_le.mp hroom) hnull taskStack a
    refine ⟨⟨?_, fun hfull => ?_⟩, hfault⟩
    · rintro ⟨k', hrefused, -⟩
      by_contra hroom
      rw [hfault hroom] at hrefused
      cases hrefused
    · exact ⟨k, Image.taskCreate_full hfull taskStack a, rfl, fun _ => Iff.rfl⟩

/-- After boot, when `page_alloc` has handed out both pages. -/
def exhausted : Image .rv64 where
  mem := (pageAlloc twoPages.heap 2 (pageInit twoPages.toRegion fun _ => 0).2).2
  firstTask := none
  curTask := none
  tasksNum := 0
  taskId := 1
  firstTimer := none
  ticks := 0

theorem exhausted_malloc :
    (malloc twoPages.heap (timerBytes .rv64) exhausted.mem).1 = none ∧
      (malloc twoPages.heap (taskBytes .rv64) exhausted.mem).1 = none := by
  decide +kernel

theorem out_of_memory_reported_iff_of_exhausted :
    exhausted.timerCreate twoPages.heap 0 0 3 = .error .nullAccess ∧
      exhausted.taskCreate twoPages.heap 0x80001000 someTask = .error .nullAccess := by
  obtain ⟨htimer, htask⟩ := out_of_memory_reported_iff twoPages.heap 0x80001000 exhausted
  exact ⟨(htimer exhausted_malloc.1 0 0 3).1,
    (htask exhausted_malloc.2 someTask).2 (by decide)⟩

theorem out_of_memory_not_reported :
    ¬exhausted.TimerRefused twoPages.heap 0 0 3 ∧
      ¬exhausted.TaskRefused twoPages.heap 0x80001000 someTask := by
  have htimer := Image.timerCreate_of_null exhausted_malloc.1 0 0 3
  have htask := Image.taskCreate_of_null (show exhausted.tasksNum.toInt < maxTaskNum by
    decide) exhausted_malloc.2 0x80001000 someTask
  constructor
  · rintro ⟨k', hrefused, -⟩
    rw [htimer] at hrefused
    cases hrefused
  · rintro ⟨k', hrefused, -⟩
    rw [htask] at hrefused
    cases hrefused

end XinOS.Kernel
