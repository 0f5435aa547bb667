import XinOS.Kernel.Tasks

/-!
# The task list

Tasks are linked in and out of one list.  That changes `next` fields, the head
pointer and the counter, and nothing else; the list stays in order of the
priority numbers, and the counter stays its length.
-/

namespace XinOS.Kernel

open XinOS.Foundation

variable {w : Nat} {k k' k'' : State w} {l pre post : List Ptr}
variable {x first : Ptr}

def State.number (k : State w) (p : Ptr) : Int := (k.task p).priority

/-- `k'` is `k` up to the links and the counter of the task list. -/
structure Relinked (k k' : State w) : Prop where
  info : ∀ p, k'.task p = { k.task p with next := (k'.task p).next }
  rest : k' = { k with
    task := k'.task, firstTask := k'.firstTask, tasksNum := k'.tasksNum }

namespace Relinked

theorem trans (h : Relinked k k') (h' : Relinked k' k'') : Relinked k k'' := by
  constructor
  · intro p
    rw [h'.info, h.info]
  · rw [h'.rest, h.rest]

theorem setTaskNext (k : State w) (p : Ptr) (q : Option Ptr) :
    Relinked k (k.setTaskNext p q) := by
  refine ⟨fun r => ?_, rfl⟩
  by_cases hr : r = p <;> simp [State.setTaskNext, hr]

variable (h : Relinked k k')
include h

theorem taskId_eq (p : Ptr) : (k'.task p).taskId = (k.task p).taskId := by
  rw [h.info]

theorem number_eq : k'.number = k.number := by
  funext p
  rw [State.number, h.info, State.number]

theorem state_eq (p : Ptr) : (k'.task p).state = (k.task p).state := by
  rw [h.info]

theorem ctx_eq (p : Ptr) : (k'.task p).ctx = (k.task p).ctx := by
  rw [h.info]

end Relinked

structure TaskQueue (k : State w) (l : List Ptr) : Prop where
  path : Path k.taskNext k.firstTask l none
  sorted : l.Pairwise fun p q => k.number p ≤ k.number q
  count : k.tasksNum = l.length

structure TaskList (k : State w) (l : List Ptr) : Prop where
  path : Path k.taskNext k.firstTask l none
  nodup : l.Nodup
  sorted : l.Pairwise fun p q => k.number p ≤ k.number q
  count : k.tasksNum = l.length
  room : l.length ≤ maxTaskNum

theorem TaskList.short (h : TaskList k l) : l.length < walkFuel :=
  lt_of_le_of_lt h.room (by decide)

theorem TaskList.queue (h : TaskList k l) : TaskQueue k l :=
  ⟨h.path, h.sorted, h.count⟩

theorem TaskQueue.toList (h : TaskQueue k l) (hroom : l.length ≤ maxTaskNum) :
    TaskList k l :=
  ⟨h.path, h.path.nodup, h.sorted, h.count, hroom⟩

theorem TaskList.congr (h : TaskList k l) (htask : ∀ p ∈ l, k'.task p = k.task p)
    (hfirst : k'.firstTask = k.firstTask) (hcount : k'.tasksNum = k.tasksNum) :
    TaskList k' l where
  path := hfirst ▸ h.path.congr fun p hp => congrArg TaskInfo.next (htask p hp)
  nodup := h.nodup
  sorted := sorted_congr h.sorted fun p hp =>
    congrArg TaskInfo.priority (htask p hp)
  count := hcount ▸ h.count
  room := h.room

/-! ## Linking in -/

theorem TaskQueue.insertTask_spec (h : TaskQueue k l)
    (hshort : l.length < walkFuel) (hx : x ∉ l)
    (hnext : l = [] → k.taskNext x = none) :
    ∃ k', insertTask k x = .ok (0, k') ∧ Relinked k k' ∧
      TaskQueue k' (insertByKey k.number x l) := by
  have hperm := insertByKey_perm k.number x l
  have hsorted := insertByKey_sorted (x := x) h.sorted
  have assemble : ∀ k' : State w, Relinked k k' →
      k'.tasksNum = k.tasksNum + 1 →
      Path k'.taskNext k'.firstTask
        (insertByKey k.number x l) none →
      TaskQueue k' (insertByKey k.number x l) := by
    intro k' hrel hcount hpath
    refine ⟨hpath, ?_, ?_⟩
    · simpa only [hrel.number_eq] using hsorted
    · rw [hcount, h.count, hperm.length_eq, List.length_cons]
      rfl
  cases l with
  | nil =>
      have hfirst : k.firstTask = none := h.path
      refine ⟨{ k with firstTask := some x, tasksNum := k.tasksNum + 1 }, ?_, ?_, ?_⟩
      · simp [insertTask, hfirst, h.count]
      · exact ⟨fun _ => rfl, rfl⟩
      · exact assemble _ ⟨fun _ => rfl, rfl⟩ rfl ⟨rfl, hnext rfl⟩
  | cons y rest =>
      have hfirst : k.firstTask = some y := h.path.1
      by_cases hlt : k.number x < k.number y
      · refine ⟨{ k.setTaskNext x (some y) with
          firstTask := some x, tasksNum := k.tasksNum + 1 }, ?_, ?_, ?_⟩
        · rw [insertTask, hfirst]
          exact if_pos hlt
        · exact ⟨(Relinked.setTaskNext k x _).info, rfl⟩
        · refine assemble _ ⟨(Relinked.setTaskNext k x _).info, rfl⟩ rfl ?_
          rw [insertByKey_front hlt]
          have hpath := (hfirst ▸ h.path).insert_front hx
          rwa [← State.setTaskNext_taskNext] at hpath
      · obtain ⟨l₁, z, l₂, hsplit, hinsert, hwalk⟩ :=
          (hfirst ▸ h.path).walk_place (not_lt.mp hlt) hshort
        refine ⟨{ (k.setTaskNext z (some x)).setTaskNext x l₂.head? with
          tasksNum := k.tasksNum + 1 }, ?_, ?_, ?_⟩
        · rw [insertTask, hfirst]
          refine (if_neg hlt).trans ?_
          unfold State.number at hwalk
          rw [hwalk]
          rfl
        · exact ⟨((Relinked.setTaskNext k z _).trans
            (Relinked.setTaskNext _ x _)).info, rfl⟩
        · refine assemble _ ⟨((Relinked.setTaskNext k z _).trans
            (Relinked.setTaskNext _ x _)).info, rfl⟩ rfl ?_
          rw [hinsert]
          have hpath := (hsplit ▸ h.path).insert_behind (hsplit ▸ h.path.nodup)
            (hsplit ▸ hx)
          rwa [← State.setTaskNext_taskNext, ← State.setTaskNext_taskNext] at hpath

theorem insertTask_spec (h : TaskList k l) (hx : x ∉ l)
    (hroom : l.length < maxTaskNum) (hnext : l = [] → k.taskNext x = none) :
    ∃ k', insertTask k x = .ok (0, k') ∧ Relinked k k' ∧
      TaskList k' (insertByKey k.number x l) := by
  obtain ⟨k', hinsert, hrel, hqueue⟩ := h.queue.insertTask_spec h.short hx hnext
  refine ⟨k', hinsert, hrel, hqueue.toList ?_⟩
  rw [(insertByKey_perm k.number x l).length_eq, List.length_cons]
  exact hroom

/-! ## Linking out -/

theorem unlink_spec (hpath : Path k.taskNext k.firstTask (pre ++ x :: post) none)
    (hnodup : (pre ++ x :: post).Nodup)
    (hids : (pre ++ x :: post).Pairwise fun p q =>
      (k.task p).taskId ≠ (k.task q).taskId)
    (hfirst : k.firstTask = some first) :
    ∃ k', (if (k.task x).taskId = (k.task first).taskId then
        { k with firstTask := k.taskNext first }
      else k.setTaskNext (pre.getLastD first) (k.taskNext x)) = k' ∧
      Relinked k k' ∧ k'.tasksNum = k.tasksNum ∧
      Path k'.taskNext k'.firstTask (pre ++ post) none ∧
      k'.taskNext x = k.taskNext x := by
  rcases List.eq_nil_or_concat pre with rfl | ⟨front, y, rfl⟩
  · obtain rfl : x = first := Option.some.inj (hpath.1.symm.trans hfirst)
    exact ⟨_, if_pos rfl, ⟨fun _ => rfl, rfl⟩, rfl, hpath.2, rfl⟩
  · rw [List.concat_eq_append] at *
    have hmem := hpath.head_mem (by simp) hfirst
    have hid := (List.pairwise_append.mp hids).2.2 first hmem x (by simp)
    have hne := (List.nodup_append.mp hnodup).2.2 y (by simp) x (by simp)
    refine ⟨_, if_neg hid.symm, ?_, ?_, ?_, ?_⟩
    · exact Relinked.setTaskNext _ _ _
    · rfl
    · rw [List.append_assoc, List.singleton_append] at hpath hnodup ⊢
      rw [State.setTaskNext_taskNext, List.getLastD_concat]
      exact hpath.unlink_behind hnodup
    · rw [State.setTaskNext_taskNext, List.getLastD_concat,
        Function.update_of_ne hne.symm]

/-! ## Choosing a task -/

section LowerPriority

variable (k) (t p : Ptr)

theorem lowerPriority_eq :
    lowerPriority k t = { k with task := (lowerPriority k t).task } := by
  unfold lowerPriority
  split <;> rfl

theorem lowerPriority_info :
    ∃ n, (lowerPriority k t).task =
      Function.update k.task t { k.task t with priority := n } := by
  unfold lowerPriority
  split
  · exact ⟨_, rfl⟩
  · exact ⟨(k.task t).priority, (Function.update_eq_self t k.task).symm⟩

theorem lowerPriority_of_ne {p : Ptr} (hp : p ≠ t) :
    (lowerPriority k t).task p = k.task p := by
  obtain ⟨n, hn⟩ := lowerPriority_info k t
  rw [hn, Function.update_of_ne hp]

theorem lowerPriority_taskNext :
    (lowerPriority k t).taskNext = k.taskNext := by
  obtain ⟨n, hn⟩ := lowerPriority_info k t
  funext p
  by_cases hp : p = t <;> simp [State.taskNext, hn, hp]

theorem lowerPriority_taskId :
    ((lowerPriority k t).task p).taskId = (k.task p).taskId := by
  obtain ⟨n, hn⟩ := lowerPriority_info k t
  by_cases hp : p = t <;> simp [hn, hp]

theorem lowerPriority_state :
    ((lowerPriority k t).task p).state = (k.task p).state := by
  obtain ⟨n, hn⟩ := lowerPriority_info k t
  by_cases hp : p = t <;> simp [hn, hp]

theorem lowerPriority_ctx :
    ((lowerPriority k t).task p).ctx = (k.task p).ctx := by
  obtain ⟨n, hn⟩ := lowerPriority_info k t
  by_cases hp : p = t <;> simp [hn, hp]

end LowerPriority

theorem all_sleeping_or_first (k : State w) (l : List Ptr) :
    (∀ p ∈ l, (k.task p).state = .sleeping) ∨
      ∃ pre t post, l = pre ++ t :: post ∧
        (∀ p ∈ pre, (k.task p).state = .sleeping) ∧
        (k.task t).state ≠ .sleeping := by
  induction l with
  | nil => exact .inl (by simp)
  | cons p l ih =>
      by_cases hp : (k.task p).state = .sleeping
      · rcases ih with hall | ⟨pre, t, post, rfl, hpre, ht⟩
        · exact .inl (by simpa [hp] using hall)
        · exact .inr ⟨p :: pre, t, post, rfl, by simpa [hp] using hpre, ht⟩
      · exact .inr ⟨[], p, l, rfl, by simp, hp⟩

theorem takeTask_none (h : TaskList k l)
    (hall : ∀ p ∈ l, (k.task p).state = .sleeping) :
    takeTask k = .ok (none, k) := by
  cases l with
  | nil =>
      have hfirst : k.firstTask = none := h.path
      rw [takeTask, hfirst]
  | cons y rest =>
      have hfirst : k.firstTask = some y := h.path.1
      have hwalk : walk k.taskNext
          (fun it => decide ((k.task it).state = .sleeping))
          walkFuel (some y) y = some (none, (y :: rest).getLastD y) :=
        (hfirst ▸ h.path).walk_all (by simpa using hall) h.short y
      rw [takeTask, hfirst]
      simp only [hwalk]

theorem TaskQueue.takeTask_some {t : Ptr} (h : TaskQueue k (pre ++ t :: post))
    (hshort : (pre ++ t :: post).length < walkFuel)
    (hids : (pre ++ t :: post).Pairwise fun p q =>
      (k.task p).taskId ≠ (k.task q).taskId)
    (hpre : ∀ p ∈ pre, (k.task p).state = .sleeping)
    (ht : (k.task t).state ≠ .sleeping) :
    ∃ k', takeTask k = .ok (some t, k') ∧ Relinked (lowerPriority k t) k' ∧
      TaskQueue k' (pre ++ post) ∧ k'.taskNext t = k.taskNext t := by
  obtain ⟨first, hfirst⟩ := h.path.exists_head
  have hwalk : walk k.taskNext
      (fun it => decide ((k.task it).state = .sleeping))
      walkFuel (some first) first = some (some t, pre.getLastD first) :=
    (hfirst ▸ h.path).walk_find (by simpa using hpre) (by simpa using ht)
      hshort first
  obtain ⟨k₁, hk₁, hrel, hcount, hpath, hnext⟩ :=
    unlink_spec (k := lowerPriority k t) (x := t)
      (by rw [lowerPriority_taskNext, lowerPriority_eq]; exact h.path)
      h.path.nodup (by simpa only [lowerPriority_taskId] using hids)
      (by rw [lowerPriority_eq]; exact hfirst)
  have hcount₁ : k₁.tasksNum = (pre ++ post).length + 1 := by
    rw [hcount, lowerPriority_eq, h.count]
    simp [Int.add_assoc]
  have hsub : (pre ++ post).Sublist (pre ++ t :: post) :=
    List.Sublist.append_left (List.sublist_cons_self t post) pre
  have hnotMem : t ∉ pre ++ post := (List.nodup_middle.mp h.path.nodup).notMem
  have hnumber : ∀ p ∈ pre ++ post, k₁.number p = k.number p := by
    intro p hp
    rw [hrel.number_eq, State.number, lowerPriority_of_ne, State.number]
    exact fun heq => hnotMem (heq ▸ hp)
  refine ⟨{ k₁ with tasksNum := k₁.tasksNum - 1 }, ?_, ?_, ?_, ?_⟩
  · rw [takeTask, hfirst]
    simp only [hwalk, hk₁]
  · exact ⟨hrel.info, by rw [hrel.rest]⟩
  · refine ⟨hpath, ?_, ?_⟩
    · exact sorted_congr (h.sorted.sublist hsub) hnumber
    · show k₁.tasksNum - 1 = _
      omega
  · show k₁.taskNext t = _
    rw [hnext, lowerPriority_taskNext]

theorem TaskQueue.popTask_some {t : Ptr} (h : TaskQueue k (pre ++ t :: post))
    (hshort : (pre ++ t :: post).length < walkFuel)
    (hids : (pre ++ t :: post).Pairwise fun p q =>
      (k.task p).taskId ≠ (k.task q).taskId)
    (hpre : ∀ p ∈ pre, (k.task p).state = .sleeping)
    (ht : (k.task t).state ≠ .sleeping) :
    ∃ k₁ k', takeTask k = .ok (some t, k₁) ∧ insertTask k₁ t = .ok (0, k') ∧
      popTask k = .ok (some t, k') ∧ Relinked (lowerPriority k t) k' ∧
      TaskQueue k' (insertByKey k'.number t (pre ++ post)) := by
  obtain ⟨k₁, htake, hrel₁, hqueue₁, hnext⟩ := h.takeTask_some hshort hids hpre ht
  have hnotMem : t ∉ pre ++ post := (List.nodup_middle.mp h.path.nodup).notMem
  have hshort₁ : (pre ++ post).length < walkFuel := by
    simp only [List.length_append, List.length_cons] at *
    omega
  -- With the list empty `insert_task` leaves `next` of the task as it was.
  have hlast : pre ++ post = [] → k₁.taskNext t = none := by
    intro hnil
    obtain ⟨rfl, rfl⟩ := List.append_eq_nil_iff.mp hnil
    rw [hnext]
    exact h.path.2
  obtain ⟨k', hinsert, hrel, hqueue⟩ :=
    hqueue₁.insertTask_spec hshort₁ hnotMem hlast
  refine ⟨k₁, k', htake, hinsert, ?_, hrel₁.trans hrel, ?_⟩
  · rw [popTask, htake]
    simp only [hinsert]
  · rwa [hrel.number_eq]

theorem popTask_some {t : Ptr} (h : TaskList k (pre ++ t :: post))
    (hids : (pre ++ t :: post).Pairwise fun p q =>
      (k.task p).taskId ≠ (k.task q).taskId)
    (hpre : ∀ p ∈ pre, (k.task p).state = .sleeping)
    (ht : (k.task t).state ≠ .sleeping) :
    ∃ k₁ k', takeTask k = .ok (some t, k₁) ∧ insertTask k₁ t = .ok (0, k') ∧
      popTask k = .ok (some t, k') ∧ Relinked (lowerPriority k t) k' ∧
      TaskList k' (insertByKey k'.number t (pre ++ post)) := by
  obtain ⟨k₁, k', htake, hinsert, hpop, hrel, hqueue⟩ :=
    h.queue.popTask_some h.short hids hpre ht
  refine ⟨k₁, k', htake, hinsert, hpop, hrel, hqueue.toList ?_⟩
  rw [((insertByKey_perm _ _ _).trans List.perm_middle.symm).length_eq]
  exact h.room

end XinOS.Kernel
