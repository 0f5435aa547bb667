import XinOS.Foundation.Ageing
import XinOS.Kernel.Scheduler

/-!
# How long a task waits for the processor

When no task sleeps, `pop_task` takes the first task of the list and puts it back
with its priority number counted up to at most 256: it is a turn of an ageing
queue.  The waiting time of a task follows from that of the queue.
-/

namespace XinOS.Kernel

open XinOS.Foundation

variable {w : Nat} {k k' : State w} {l pre post : List Ptr} {x : Ptr}

structure ReadyQueue (k : State w) (l : List Ptr) : Prop extends TaskQueue k l where
  ids : l.Pairwise fun p q => (k.task p).taskId ≠ (k.task q).taskId
  awake : ∀ p ∈ l, (k.task p).state ≠ .sleeping

def popTasks : Nat → State w → Except Fault (List (Option Ptr) × State w)
  | 0, k => .ok ([], k)
  | n + 1, k =>
      match popTask k with
      | .error e => .error e
      | .ok (task, k) =>
          match popTasks n k with
          | .error e => .error e
          | .ok (tasks, k) => .ok (task :: tasks, k)

theorem lowerPriority_number (k : State w) (t : Ptr) :
    (lowerPriority k t).number =
      Function.update k.number t (age 256 (k.number t)) := by
  by_cases hlt : (k.task t).priority < 256
  · rw [lowerPriority, if_pos hlt, age, if_pos (show k.number t < 256 from hlt)]
    funext p
    by_cases hp : p = t <;> simp [State.number, State.setTaskPriority, hp]
  · rw [lowerPriority, if_neg hlt, age, if_neg (show ¬k.number t < 256 from hlt),
      Function.update_eq_self]

namespace ReadyQueue

theorem short (h : ReadyQueue k l) : l.length < walkFuel := by
  have hnodup : (l.map fun p => (k.task p).taskId.toNat).Nodup :=
    List.pairwise_map.mpr (h.ids.imp fun hne heq =>
      hne (BitVec.eq_of_toNat_eq heq))
  have hle := length_le_of_nodup (n := 2 ^ 32) hnodup fun n hn => by
    obtain ⟨p, -, rfl⟩ := List.mem_map.mp hn
    exact (k.task p).taskId.isLt
  rw [List.length_map] at hle
  exact hle.trans_lt (by decide)

theorem popTask_turn (h : ReadyQueue k l) :
    ∃ k', popTask k = .ok (l.head?, k') ∧
      k'.number = (turn 256 k.number l).1 ∧
      ReadyQueue k' (turn 256 k.number l).2 := by
  cases l with
  | nil =>
      have hfirst : k.firstTask = none := h.path
      exact ⟨k, by simp only [popTask, takeTask, hfirst]; rfl, rfl, h⟩
  | cons t l =>
      have hqueue₀ : TaskQueue k ([] ++ t :: l) := h.toTaskQueue
      obtain ⟨-, k', -, -, hpop, hrel, hqueue⟩ :=
        hqueue₀.popTask_some h.short h.ids (by simp) (h.awake t (by simp))
      have hnumber : k'.number = (turn 256 k.number (t :: l)).1 := by
        rw [hrel.number_eq, lowerPriority_number]
        rfl
      rw [List.nil_append, hnumber] at hqueue
      have hperm := turn_perm 256 k.number (t :: l)
      refine ⟨k', hpop, hnumber, hqueue, ?_, fun p hp => ?_⟩
      · simp only [hrel.taskId_eq, lowerPriority_taskId]
        exact (hperm.pairwise_iff fun hne => hne.symm).mpr h.ids
      · rw [hrel.state_eq, lowerPriority_state]
        exact h.awake p (hperm.mem_iff.mp hp)

/-- Calls of `pop_task` are turns of the ageing queue. -/
theorem popTasks_served (h : ReadyQueue k l) (n : Nat) :
    ∃ k', popTasks n k = .ok (served 256 n k.number l, k') := by
  induction n generalizing k l with
  | zero => exact ⟨k, rfl⟩
  | succ n ih =>
      obtain ⟨k₁, hpop, hnumber, hqueue⟩ := h.popTask_turn
      obtain ⟨k', hpops⟩ := ih hqueue
      refine ⟨k', ?_⟩
      rw [popTasks, hpop]
      simp only [hpops, hnumber]
      rfl

/-- A task with a priority number of at most 256 is first returned when each task
in front of it has been as often as its number is smaller, and at least once. -/
theorem waiting_time (h : ReadyQueue k (pre ++ x :: post))
    (hnumber : k.number x ≤ 256) :
    ∃ others k', popTasks (others.length + 1) k = .ok (others ++ [some x], k') ∧
      some x ∉ others ∧
      (others.length + 1 : Int) =
        1 + (pre.map fun y => max 1 (k.number x - k.number y)).sum := by
  obtain ⟨others, hserved, hnotMem⟩ :=
    served_first h.sorted h.path.nodup hnumber
  have hlength : others.length = waitFor (k.number x) k.number pre := by
    have := served_length 256 (waitFor (k.number x) k.number pre + 1) k.number
      (pre ++ x :: post)
    rw [hserved, List.length_append, List.length_singleton] at this
    omega
  obtain ⟨k', hpops⟩ := h.popTasks_served (others.length + 1)
  refine ⟨others, k', ?_, hnotMem, ?_⟩
  · rw [hpops, hlength, hserved]
  · rw [hlength, waitFor_eq, add_comm]

end ReadyQueue

def twoTasks : State 64 :=
  { boot
      (Function.update
        (Function.update (fun _ => blankTask) 64
          { blankTask with taskId := 1, priority := 3, next := some 128 })
        128 { blankTask with taskId := 2, priority := 5 })
      fun _ => blankTimer with
    firstTask := some 64
    tasksNum := 2
    taskId := 3
    liveTasks := [64, 128] }

theorem twoTasks_ready : ReadyQueue twoTasks [64, 128] where
  path := ⟨rfl, rfl, rfl⟩
  sorted := by decide
  count := rfl
  ids := by decide
  awake := by decide

theorem waiting_time_of_two :
    ∃ others k', popTasks (others.length + 1) twoTasks =
        .ok (others ++ [some 128], k') ∧ some 128 ∉ others ∧
      (others.length + 1 : Int) = 3 :=
  ReadyQueue.waiting_time
    (show ReadyQueue twoTasks ([64] ++ 128 :: []) from twoTasks_ready) (by decide)

end XinOS.Kernel
