import XinOS.Kernel.TaskList

/-!
# What the operations on tasks keep

The list of the tasks that `task_create` has made and `task_exit` has not freed is
the task list; ids tell its tasks apart.
-/

namespace XinOS.Kernel

open XinOS.Foundation

variable {w : Nat} {k k' : State w} {l : List Ptr} {x : Ptr}

structure TaskInv (k : State w) (l : List Ptr) : Prop extends TaskList k l where
  live : l.Perm k.liveTasks
  ids : l.Pairwise fun p q => (k.task p).taskId ≠ (k.task q).taskId
  below : 0 < k.taskId.toInt →
    ∀ p ∈ l, (k.task p).taskId.toInt < k.taskId.toInt

namespace TaskInv

theorem boot (task : Ptr → TaskInfo) (timer : Ptr → Timer w) :
    TaskInv (boot task timer) [] where
  path := rfl
  nodup := .nil
  sorted := .nil
  count := rfl
  room := Nat.zero_le _
  live := .nil
  ids := .nil
  below := by simp

theorem mem_live (h : TaskInv k l) {p : Ptr} : p ∈ k.liveTasks ↔ p ∈ l :=
  h.live.mem_iff.symm

theorem congr (h : TaskInv k l) (htask : ∀ p ∈ l, k'.task p = k.task p)
    (hfirst : k'.firstTask = k.firstTask) (hcount : k'.tasksNum = k.tasksNum)
    (hid : k'.taskId = k.taskId) (hlive : k'.liveTasks = k.liveTasks) :
    TaskInv k' l where
  toTaskList := h.toTaskList.congr htask hfirst hcount
  live := hlive ▸ h.live
  ids := h.ids.imp_of_mem fun {p q} hp hq hne => by
    rwa [htask p hp, htask q hq]
  below := fun hpos p hp => by
    rw [hid] at hpos ⊢
    rw [htask p hp]
    exact h.below hpos p hp

theorem setTaskState (h : TaskInv k l) (p : Ptr) (s : TaskState) :
    TaskInv (k.setTaskState p s) l := by
  have hnext : (k.setTaskState p s).taskNext = k.taskNext := by
    funext q
    by_cases hq : q = p <;> simp [State.taskNext, State.setTaskState, hq]
  have hnumber : (k.setTaskState p s).number = k.number := by
    funext q
    by_cases hq : q = p <;> simp [State.number, State.setTaskState, hq]
  have hid : ∀ q, ((k.setTaskState p s).task q).taskId = (k.task q).taskId := by
    intro q
    by_cases hq : q = p <;> simp [State.setTaskState, hq]
  exact
    { path := hnext ▸ h.path
      nodup := h.nodup
      sorted := hnumber ▸ h.sorted
      count := h.count
      room := h.room
      live := h.live
      ids := by simpa only [hid] using h.ids
      below := fun hpos q hq => by
        rw [hid]
        exact h.below hpos q hq }

/-! ## `pop_task` and `schedule` -/

theorem popTask_cases (h : TaskInv k l) :
    ((∀ p ∈ l, (k.task p).state = .sleeping) ∧
      takeTask k = .ok (none, k) ∧ popTask k = .ok (none, k)) ∨
      ∃ pre t post k₁ k', l = pre ++ t :: post ∧
        (∀ p ∈ pre, (k.task p).state = .sleeping) ∧
        (k.task t).state ≠ .sleeping ∧
        takeTask k = .ok (some t, k₁) ∧ insertTask k₁ t = .ok (0, k') ∧
        popTask k = .ok (some t, k') ∧ Relinked (lowerPriority k t) k' ∧
        TaskInv k' (insertByKey k'.number t (pre ++ post)) := by
  rcases all_sleeping_or_first k l with hall | ⟨pre, t, post, rfl, hpre, ht⟩
  · have htake := takeTask_none h.toTaskList hall
    exact .inl ⟨hall, htake, by rw [popTask, htake]⟩
  · obtain ⟨k₁, k', htake, hinsert, hpop, hrel, hlist⟩ :=
      popTask_some h.toTaskList h.ids hpre ht
    have hid : ∀ p, (k'.task p).taskId = (k.task p).taskId := fun p => by
      rw [hrel.taskId_eq, lowerPriority_taskId]
    have hperm : (insertByKey k'.number t (pre ++ post)).Perm
        (pre ++ t :: post) :=
      (insertByKey_perm _ _ _).trans List.perm_middle.symm
    refine .inr ⟨pre, t, post, k₁, k', rfl, hpre, ht, htake, hinsert, hpop, hrel,
      { toTaskList := hlist, live := ?_, ids := ?_, below := ?_ }⟩
    · rw [hrel.rest, lowerPriority_eq]
      exact hperm.trans h.live
    · simp only [hid]
      exact (hperm.pairwise_iff fun hne => hne.symm).mpr h.ids
    · intro hpos p hp
      have heq : k'.taskId = k.taskId := by rw [hrel.rest, lowerPriority_eq]
      rw [heq] at hpos ⊢
      rw [hid]
      exact h.below hpos p (hperm.mem_iff.mp hp)

inductive Scheduled (k : State w) (l : List Ptr) (k' : State w)
    (l' : List Ptr) : Control → Prop where
  | noTask (hl : l = []) (hk : k' = k) (hl' : l' = l) : Scheduled k l k' l' .os
  | allSleep (hl : l ≠ []) (hall : ∀ p ∈ l, (k.task p).state = .sleeping)
      (hk : k' = { k with curTask := none }) (hl' : l' = l) :
      Scheduled k l k' l' .os
  | run {t : Ptr} {k₁ : State w} (ht : t ∈ l)
      (hawake : (k.task t).state ≠ .sleeping)
      (hrel : Relinked (lowerPriority k t) k₁)
      (hk : k' = { k₁ with curTask := some t }) (hl' : l'.Perm l) :
      Scheduled k l k' l' (.task t)

theorem schedule_cases (h : TaskInv k l) :
    ∃ k' l' c, schedule k = .ok (k', c) ∧ TaskInv k' l' ∧
      Scheduled k l k' l' c := by
  by_cases hnum : k.tasksNum ≤ 0
  · have hl : l = [] := List.length_eq_zero_iff.mp (by
      have := h.count
      omega)
    exact ⟨k, l, .os, if_pos hnum, h, .noTask hl rfl rfl⟩
  · rcases h.popTask_cases with ⟨hall, -, hpop⟩ |
      ⟨pre, t, post, -, k₁, rfl, -, hawake, -, -, hpop, hrel, hinv⟩
    · have hl : l ≠ [] := by
        rintro rfl
        have := h.count
        simp only [List.length_nil] at this
        omega
      refine ⟨{ k with curTask := none }, l, .os, ?_, ?_,
        .allSleep hl hall rfl rfl⟩
      · rw [schedule, if_neg hnum, hpop]
      · exact h.congr (fun _ _ => rfl) rfl rfl rfl rfl
    · refine ⟨{ k₁ with curTask := some t }, _, .task t, ?_,
        hinv.congr (fun _ _ => rfl) rfl rfl rfl rfl,
        .run (by simp) hawake hrel rfl
          ((insertByKey_perm _ _ _).trans List.perm_middle.symm)⟩
      rw [schedule, if_neg hnum, hpop]

/-! ## `task_create` -/

theorem taskCreate_full (taskStack : Nat) (h : TaskInv k l)
    (hfull : ¬l.length < maxTaskNum) (x : Ptr) (a : TaskArgs w) :
    taskCreate taskStack k x a = .ok (-1, k) := by
  have := h.count
  exact if_pos (by omega)

theorem toInt_succ {n : CInt} (hn : 0 < n.toInt) (hsucc : 0 < (n + 1).toInt) :
    (n + 1).toInt = n.toInt + 1 := by
  have hlt := BitVec.toInt_lt (x := n)
  refine CInt.toInt_add_one (lt_of_le_of_ne (by omega) fun hmax => ?_)
  have hone : (1 : CInt).toInt = 1 := by decide
  have hwrap : ((2 : Int) ^ 31 - 1 + 1).bmod (2 ^ 32) = -2 ^ 31 := by decide
  rw [BitVec.toInt_add, hone, hmax, hwrap] at hsucc
  omega

theorem taskCreate_room (taskStack : Nat) (h : TaskInv k l)
    (hroom : l.length < maxTaskNum) (hx : x ∉ l) (hid : 0 < k.taskId.toInt)
    (a : TaskArgs w) :
    ∃ k', insertTask (admitTask taskStack k x a) x = .ok (0, k') ∧
      taskCreate taskStack k x a = .ok (0, k') ∧
      Relinked (admitTask taskStack k x a) k' ∧
      TaskInv k' (insertByKey k'.number x l) := by
  have hother : ∀ p ∈ l, (admitTask taskStack k x a).task p = k.task p :=
    k.setTask_of_notMem hx _
  have hnew : (admitTask taskStack k x a).task x =
      startInfo taskStack k (k.task x) a := Function.update_self _ _ _
  have hlist : TaskList (admitTask taskStack k x a) l :=
    h.toTaskList.congr hother rfl rfl
  obtain ⟨k', hinsert, hrel, hlist'⟩ := insertTask_spec hlist hx hroom
    fun _ => by rw [State.taskNext, hnew]; rfl
  have hperm := insertByKey_perm k'.number x l
  have hid' : k'.taskId = k.taskId + 1 := by rw [hrel.rest]; rfl
  refine ⟨k', hinsert, ?_, hrel,
    { toTaskList := ?_, live := ?_, ids := ?_, below := ?_ }⟩
  · have hnum : ¬k.tasksNum ≥ maxTaskNum := by
      have := h.count
      omega
    rw [taskCreate, if_neg hnum, hinsert]
    rfl
  · rwa [hrel.number_eq]
  · rw [hrel.rest]
    exact hperm.trans (h.live.cons x)
  · refine (hperm.pairwise_iff fun hne => hne.symm).mpr
      (List.pairwise_cons.mpr ⟨fun p hp => ?_, ?_⟩)
    · rw [hrel.taskId_eq, hrel.taskId_eq, hnew, hother p hp]
      have := h.below hid p hp
      exact fun heq : k.taskId = _ => by rw [heq] at this; omega
    · refine h.ids.imp_of_mem fun {p q} hp hq hne => ?_
      rwa [hrel.taskId_eq, hrel.taskId_eq, hother p hp, hother q hq]
  · intro hpos p hp
    rw [hid'] at hpos ⊢
    rw [toInt_succ hid hpos, hrel.taskId_eq]
    rcases List.mem_cons.mp (hperm.mem_iff.mp hp) with rfl | hp
    · rw [hnew]
      exact Int.lt_add_one_iff.mpr le_rfl
    · have := h.below hid p hp
      rw [hother p hp]
      omega

/-! ## `task_exit` -/

theorem taskExit_none (hcur : k.curTask = none) : taskExit k = .ok k := by
  rw [taskExit, hcur]

theorem unlinkTask_spec {pre post : List Ptr} {cur : Ptr}
    (h : TaskInv k (pre ++ cur :: post)) :
    ∃ k₁, unlinkTask k cur = .ok k₁ ∧ Relinked k k₁ ∧ k₁.tasksNum = k.tasksNum ∧
      Path k₁.taskNext k₁.firstTask (pre ++ post) none := by
  obtain ⟨first, hfirst⟩ := h.path.exists_head
  obtain ⟨k₁, hk₁, hrel, hcount, hpath, -⟩ :=
    unlink_spec h.path h.nodup h.ids hfirst
  refine ⟨k₁, ?_, hrel, hcount, hpath⟩
  rw [unlinkTask, hfirst]
  by_cases hid : (k.task cur).taskId = (k.task first).taskId
  · rw [if_pos hid] at hk₁
    simp only [if_pos hid, hk₁]
  · have hwalk : walk k.taskNext
        (fun it => decide ((k.task it).taskId ≠ (k.task cur).taskId))
        walkFuel (some first) first = some (some cur, pre.getLastD first) := by
      refine (hfirst ▸ h.path).walk_find (fun y hy => ?_) (by simp) h.short first
      simpa using (List.pairwise_append.mp h.ids).2.2 y hy cur (by simp)
    rw [if_neg hid] at hk₁
    simp only [if_neg hid, hwalk, hk₁]

theorem taskExit_some {cur : Ptr} (h : TaskInv k l) (hcur : k.curTask = some cur)
    (hmem : cur ∈ l) :
    ∃ k', taskExit k = .ok k' ∧
      Relinked { k with msip := true, liveTasks := k.liveTasks.erase cur } k' ∧
      TaskInv k' (l.erase cur) := by
  obtain ⟨pre, post, rfl⟩ := List.append_of_mem hmem
  obtain ⟨k₁, hunlink, hrel, hcount, hpath⟩ := h.unlinkTask_spec
  have hnotMem : cur ∉ pre ++ post := (List.nodup_middle.mp h.nodup).notMem
  have herase : (pre ++ cur :: post).erase cur = pre ++ post :=
    erase_middle fun hmem => hnotMem (List.mem_append_left _ hmem)
  have hsub : (pre ++ post).Sublist (pre ++ cur :: post) :=
    List.Sublist.append_left (List.sublist_cons_self cur post) pre
  refine ⟨taskYield { freeTask k₁ cur with tasksNum := k₁.tasksNum - 1 },
    ?_, ?_, ?_⟩
  · rw [taskExit, hcur]
    simp only [hunlink]
    rfl
  · refine ⟨hrel.info, ?_⟩
    rw [hrel.rest]
    rfl
  · rw [herase]
    have hlive : (taskYield { freeTask k₁ cur with
        tasksNum := k₁.tasksNum - 1 }).liveTasks = k.liveTasks.erase cur := by
      rw [hrel.rest]
      rfl
    refine
      { path := hpath
        nodup := h.nodup.sublist hsub
        sorted := ?_
        count := ?_
        room := hsub.length_le.trans h.room
        live := ?_
        ids := ?_
        below := ?_ }
    · show (pre ++ post).Pairwise fun p q => k₁.number p ≤ k₁.number q
      rw [hrel.number_eq]
      exact h.sorted.sublist hsub
    · show k₁.tasksNum - 1 = _
      rw [hcount, h.count]
      simp
      omega
    · rw [hlive, ← herase]
      exact h.live.erase cur
    · show (pre ++ post).Pairwise fun p q =>
        (k₁.task p).taskId ≠ (k₁.task q).taskId
      simp only [hrel.taskId_eq]
      exact h.ids.sublist hsub
    · intro hpos p hp
      have heq : k₁.taskId = k.taskId := by rw [hrel.rest]
      show (k₁.task p).taskId.toInt < k₁.taskId.toInt
      rw [hrel.taskId_eq, heq]
      exact h.below (heq ▸ hpos) p (hsub.subset hp)

end TaskInv

end XinOS.Kernel
