import XinOS.Kernel.Scheduler

/-!
# The stacks of the tasks

`task_create` starts a task on the row of `task_stack` whose number is the number
of tasks there are.  That row is free as long as no task has exited before one
that was created earlier.
-/

namespace XinOS.Kernel

open XinOS.Foundation

variable {w : Nat} {k k' : State w} {l : List Ptr}

/-- The row of `task_stack` that a stack pointer points into. -/
def stackRow (taskStack sp : Nat) : Int := ((sp : Int) - taskStack) / stackSize

theorem stackRow_stackTop (taskStack n : Nat) :
    stackRow taskStack (stackTop taskStack n) = n := by
  simp only [stackRow, stackTop, stackSize]
  omega

def rowOf (taskStack : Nat) (k : State w) (p : Ptr) : Int :=
  stackRow taskStack (k.task p).ctx.sp

def OwnStacks (taskStack : Nat) (k : State w) : Prop :=
  ∀ p q, Linked k.taskNext k.firstTask p → Linked k.taskNext k.firstTask q →
    p ≠ q → rowOf taskStack k p ≠ rowOf taskStack k q

/-- A task is created only when no task of the list has the row that comes next. -/
def RowFree (taskStack : Nat) (k : State w) : TaskOp w → Prop
  | .create _ _ => k.tasksNum < maxTaskNum →
      ∀ p, Linked k.taskNext k.firstTask p →
        rowOf taskStack k p ≠ k.tasksNum
  | _ => True

theorem ownStacks_iff (taskStack : Nat) (h : TaskInv k l) :
    OwnStacks taskStack k ↔
      ∀ p ∈ l, ∀ q ∈ l, p ≠ q → rowOf taskStack k p ≠ rowOf taskStack k q := by
  simp only [OwnStacks, h.path.linked_iff]
  exact ⟨fun hown p hp q hq => hown p q hp hq,
    fun hown p q hp hq => hown p hp q hq⟩

theorem ownStacks_step (taskStack : Nat) {op : TaskOp w} (h : TaskInv k l)
    (hown : OwnStacks taskStack k) (hstep : op.step taskStack k = some k') :
    OwnStacks taskStack k' ↔ RowFree taskStack k op := by
  obtain ⟨-, l', hinv, heffect⟩ := TaskOp.step_spec taskStack h hstep
  rw [ownStacks_iff taskStack h] at hown
  rw [ownStacks_iff taskStack hinv]
  cases heffect with
  | @created newTask args hroom hnew hl' hrel =>
      have hold : ∀ p ∈ l, rowOf taskStack k' p = rowOf taskStack k p := by
        intro p hp
        have hne : p ≠ newTask := fun heq => hnew (heq ▸ hp)
        simp [rowOf, hrel.ctx_eq, admitTask, hne]
      have hrow : rowOf taskStack k' newTask = k.tasksNum := by
        rw [h.count]
        simp [rowOf, hrel.ctx_eq, admitTask, startInfo, h.count,
          stackRow_stackTop]
      have hnum : k.tasksNum < maxTaskNum := by
        rw [h.count]
        exact_mod_cast hroom
      simp only [RowFree, hnum, true_implies, h.path.linked_iff, hl'.mem_iff]
      constructor
      · intro hown' p hp
        have hne : p ≠ newTask := fun heq => hnew (heq ▸ hp)
        have := hown' p (by simp [hp]) newTask (by simp) hne
        rwa [hold p hp, hrow] at this
      · intro hfree p hp q hq hne
        rcases List.mem_cons.mp hp with hp | hp <;>
          rcases List.mem_cons.mp hq with hq | hq
        · exact absurd (hp.trans hq.symm) hne
        · rw [hp, hrow, hold q hq]
          exact (hfree q hq).symm
        · rw [hq, hrow, hold p hp]
          exact hfree p hp
        · rw [hold p hp, hold q hq]
          exact hown p hp q hq hne
  | refused hfull hk hl' =>
      subst hk hl'
      refine ⟨fun _ hnum => absurd ?_ hfull, fun _ => hown⟩
      rw [h.count] at hnum
      exact_mod_cast hnum
  | kept hop hl' hctx =>
      have hfree : RowFree taskStack k op := by
        cases op with
        | create newTask args => exact absurd rfl (hop newTask args)
        | _ => trivial
      refine ⟨fun _ => hfree, fun _ p hp q hq hne => ?_⟩
      simp only [rowOf, hctx p hp, hctx q hq]
      exact hown p (hl' hp) q (hl' hq) hne

/-- Along any run the tasks of the list have different rows exactly if every task
is created while the row that comes next is free. -/
theorem stacks_exclusive_iff (taskStack : Nat) (task : Ptr → TaskInfo)
    (timer : Ptr → Timer w) (ops : List (TaskOp w)) :
    Always (stepRel (TaskOp.step taskStack)) (OwnStacks taskStack)
        (boot task timer) ops ↔
      Meets (stepRel (TaskOp.step taskStack)) (RowFree taskStack)
        (boot task timer) ops := by
  refine always_iff_meets (J := fun k => ∃ l, TaskInv k l) ?_ ?_
    ⟨[], TaskInv.boot task timer⟩ ?_
  · rintro k op k' ⟨l, hinv⟩ hown hstep
    exact ownStacks_step taskStack hinv hown hstep
  · rintro k op k' ⟨l, hinv⟩ - - hstep
    obtain ⟨-, l', hinv', -⟩ := TaskOp.step_spec taskStack hinv hstep
    exact ⟨l', hinv'⟩
  · rw [ownStacks_iff taskStack (TaskInv.boot task timer)]
    simp

/-- Two tasks are created and the first one exits; the third one gets the row of
the second. -/
theorem stacks_shared :
    ∃ k, exec (TaskOp.step 4096)
        (boot (fun _ => blankTask) (fun _ => (blankTimer : Timer 64)))
        [.create 256 (argsOf 100), .create 512 (argsOf 105), .exit 256,
          .create 768 (argsOf 110)] = some k ∧
      ¬OwnStacks 4096 k := by
  refine ⟨_, rfl, fun hown => ?_⟩
  exact hown 512 768 ⟨[512, 768], ⟨rfl, rfl, rfl⟩, by simp⟩
    ⟨[512, 768], ⟨rfl, rfl, rfl⟩, by simp⟩ (by decide) (by decide)

end XinOS.Kernel
