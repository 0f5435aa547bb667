import XinOS.Kernel.ImageSteps
import XinOS.Kernel.Recycled
import XinOS.Page.ObjectSteps

/-!
# What memory shows, function by function

The functions of sched.c and timer.c do with the bytes of objects what they do with
the objects, and fail alike.  On RV64 the heap holds the live objects and nothing
else, so that none of them writes to a table of page.c.
-/

namespace XinOS.Kernel

open XinOS.Foundation XinOS.Page XinOS.Trap

variable {b : Build}

/-! ## Fields -/

section Fields

variable {m m' : Memory} {p : Nat}

theorem readTask_storeState (v : Nat) :
    readTask b (m.store 4 (p + stateField) v) p =
      { readTask b m p with state := readState (v % 256 ^ 4) } := by
  obtain ⟨hctx, hsize, hword⟩ := task_sizes b
  have hload : ∀ n o, o + n ≤ stateField ∨ stateField + 4 ≤ o →
      (m.store 4 (p + stateField) v).load n (p + o) = m.load n (p + o) :=
    fun n o hout => Memory.load_store_apart m _ (by unfold stateField at *; omega)
  rw [readTask, readTask, Memory.load_store, hload 4 0 (.inl (by decide)),
    hload 4 priorityField (.inl (by decide)), hload 4 timesliceField (.inr (by decide)),
    readPtr_congr (hload _ nextField (.inr (by decide))),
    hload _ (ctxField b + fieldOffset b .sp) (by unfold stateField; omega),
    hload _ (ctxField b + pcField b) (by unfold stateField; omega),
    hload _ (ctxField b + fieldOffset b .a0) (by unfold stateField; omega)]

theorem readTask_storePriority (n : CInt) :
    readTask b (m.store 4 (p + priorityField) n.toNat) p =
      { readTask b m p with priority := n.toInt } := by
  obtain ⟨hctx, hsize, hword⟩ := task_sizes b
  have hload : ∀ k o, o + k ≤ priorityField ∨ priorityField + 4 ≤ o →
      (m.store 4 (p + priorityField) n.toNat).load k (p + o) = m.load k (p + o) :=
    fun k o hout => Memory.load_store_apart m _ (by unfold priorityField at *; omega)
  rw [readTask, readTask, Memory.load_store, ofNat_word rfl,
    hload 4 0 (.inl (by decide)), hload 4 stateField (.inr (by decide)),
    hload 4 timesliceField (.inr (by decide)),
    readPtr_congr (hload _ nextField (.inr (by decide))),
    hload _ (ctxField b + fieldOffset b .sp) (by unfold priorityField; omega),
    hload _ (ctxField b + pcField b) (by unfold priorityField; omega),
    hload _ (ctxField b + fieldOffset b .a0) (by unfold priorityField; omega)]

theorem readTask_context
    (hsame : ∀ x, p ≤ x → x < p + ctxField b → m' x = m x) :
    readTask b m' p = { readTask b m p with ctx := (readTask b m' p).ctx } := by
  obtain ⟨hctx, hsize, hword⟩ := task_sizes b
  have hload : ∀ n o, o + n ≤ ctxField b → m'.load n (p + o) = m.load n (p + o) :=
    fun n o hin => Memory.load_congr fun x hlo hhi => hsame x (by omega) (by omega)
  simp only [readTask]
  rw [hload 4 0 (by omega), hload 4 priorityField (by unfold priorityField; omega),
    hload 4 stateField (by unfold stateField; omega),
    hload 4 timesliceField (by unfold timesliceField; omega),
    readPtr_congr (hload _ nextField (by unfold nextField; omega))]

end Fields

/-! ## Writing to one task -/

section Writing

variable {k : Image b} {s : State b.xlen} {p : Nat}

theorem Depicts.setTask (hd : Depicts k s) (hs : Spread b s.liveTasks s.liveTimers)
    (hp : p ∈ s.liveTasks) {m : Memory}
    (hout : Memory.SameOutside p (p + taskBytes b) k.mem m) :
    Depicts { k with mem := m } (s.setTask p (readTask b m p)) := by
  refine { hd with task := fun r hr => ?_, timer := fun t ht => ?_ }
  · by_cases hrp : r = p
    · subst hrp
      exact Function.update_self ..
    · have hapart := hs.tasks p r hp hr (Ne.symm hrp)
      rw [State.setTask_task, Function.update_of_ne hrp, hd.task r hr]
      exact (readTask_congr fun x hlo hhi => hout x (by omega)).symm
  · have hapart := hs.across p t hp ht
    exact (hd.timer t ht).trans (readTimer_congr fun x hlo hhi => hout x (by omega)).symm

theorem sameOutside_task {n o size : Nat} (m : Memory) (v : Nat) (hin : o + n ≤ size) :
    Memory.SameOutside p (p + size) m (m.store n (p + o) v) :=
  (Memory.SameOutside.store m n (p + o) v).mono (by omega) (by omega)

theorem Depicts.setTaskState (hd : Depicts k s) (hs : Spread b s.liveTasks s.liveTimers)
    (hp : p ∈ s.liveTasks) {v : Nat} {st : TaskState} (hv : readState (v % 256 ^ 4) = st) :
    Depicts (k.setTaskState p v) (s.setTaskState p st) := by
  obtain ⟨hctx, hsize, hword⟩ := task_sizes b
  have hset := hd.setTask hs hp
    (sameOutside_task k.mem v (o := stateField) (n := 4) (by unfold stateField; omega))
  rw [readTask_storeState, ← hd.task p hp, hv] at hset
  exact hset

theorem Depicts.taskPriority (hd : Depicts k s) (hp : p ∈ s.liveTasks) :
    k.taskPriority p = (s.task p).priority := by
  rw [hd.task p hp]
  rfl

theorem Depicts.taskNext (hd : Depicts k s) (hp : p ∈ s.liveTasks) :
    k.taskNext p = s.taskNext p := by
  rw [State.taskNext, hd.task p hp]
  rfl

theorem Depicts.taskNumber (hd : Depicts k s) (hp : p ∈ s.liveTasks) :
    k.taskNumber p = (s.task p).taskId := by
  rw [hd.task p hp]
  rfl

theorem Depicts.taskTimeslice (hd : Depicts k s) (hp : p ∈ s.liveTasks) :
    k.taskTimeslice p = (s.task p).timeslice := by
  rw [hd.task p hp]
  rfl

theorem readState_eq_sleeping {v : Nat} : readState v = .sleeping ↔ v = sleepingState := by
  unfold readState
  split_ifs with h₁ h₂ <;> simp [h₁]

theorem Depicts.taskState_iff (hd : Depicts k s) (hp : p ∈ s.liveTasks) :
    k.taskState p = sleepingState ↔ (s.task p).state = .sleeping := by
  rw [hd.task p hp]
  exact readState_eq_sleeping.symm

theorem Depicts.timerNext (hd : Depicts k s) (hp : p ∈ s.liveTimers) :
    k.timerNext p = s.timerNext p := by
  rw [State.timerNext, hd.timer p hp]
  rfl

theorem Depicts.timerFields (hd : Depicts k s) (hp : p ∈ s.liveTimers) :
    k.timerTimeout p = (s.timer p).timeout ∧ k.timerTask p = (s.timer p).task ∧
      k.timerFunc p = (s.timer p).func ∧ k.timerArgs p = (s.timer p).args := by
  rw [hd.timer p hp]
  exact ⟨rfl, rfl, rfl, rfl⟩

theorem Depicts.lowerPriority (hd : Depicts k s)
    (hs : Spread b s.liveTasks s.liveTimers) (hp : p ∈ s.liveTasks) :
    Depicts (k.lowerPriority p) (lowerPriority s p) := by
  obtain ⟨hctx, hsize, hword⟩ := task_sizes b
  have hnumber := hd.taskPriority hp
  rw [Image.lowerPriority, Kernel.lowerPriority, hnumber]
  split_ifs with hlt
  · let n : CInt := BitVec.ofNat 32 (k.mem.load 4 (p + priorityField))
    have hn : (n + 1).toInt = (s.task p).priority + 1 := by
      rw [CInt.toInt_add_one, ← hnumber]
      · rfl
      · show k.taskPriority p < _
        omega
    have hset := hd.setTask hs hp (sameOutside_task k.mem (n + 1).toNat
      (o := priorityField) (n := 4) (by unfold priorityField; omega))
    rw [readTask_storePriority, ← hd.task p hp, hn] at hset
    exact hset
  · exact hd

/-! ## Static variables -/

theorem Depicts.setFirstTask (hd : Depicts k s) (q : Option Ptr) :
    Depicts { k with firstTask := q } { s with firstTask := q } :=
  { hd with firstTask := rfl }

theorem Depicts.setFirstTimer (hd : Depicts k s) (q : Option Ptr) :
    Depicts { k with firstTimer := q } { s with firstTimer := q } :=
  { hd with firstTimer := rfl }

theorem Depicts.setCurTask (hd : Depicts k s) (q : Option Ptr) :
    Depicts { k with curTask := q } { s with curTask := q } :=
  { hd with curTask := rfl }

theorem Depicts.countTick (hd : Depicts k s) :
    Depicts { k with ticks := k.ticks + 1 } { s with ticks := s.ticks + 1 } :=
  { hd with ticks := congrArg (· + 1) hd.ticks }

theorem Depicts.countDown (hd : Depicts k s) (hpos : 0 < s.tasksNum) :
    Depicts { k with tasksNum := k.tasksNum - 1 }
      { s with tasksNum := s.tasksNum - 1 } where
  task := hd.task
  timer := hd.timer
  firstTask := hd.firstTask
  curTask := hd.curTask
  tasksNum := by
    have hlt := BitVec.toInt_lt (x := k.tasksNum)
    have hone : (1 : CInt).toInt = 1 := by decide
    rw [hd.tasksNum] at hpos ⊢
    rw [CInt.toInt_sub (by omega) (by omega), hone]
  taskId := hd.taskId
  firstTimer := hd.firstTimer
  ticks := hd.ticks

theorem Depicts.restrict (hd : Depicts k s) {ps ts : List Ptr} {m : Memory}
    (hps : ps ⊆ s.liveTasks) (hts : ts ⊆ s.liveTimers)
    (htasks : ∀ q : Nat, q ∈ ps → ∀ x, q ≤ x → x < q + taskBytes b → m x = k.mem x)
    (htimers : ∀ t : Nat, t ∈ ts → ∀ x, t ≤ x → x < t + timerBytes b →
      m x = k.mem x) :
    Depicts { k with mem := m } { s with liveTasks := ps, liveTimers := ts } :=
  { hd with
    task := fun q hq => (hd.task q (hps hq)).trans (readTask_congr (htasks q hq)).symm
    timer := fun t ht => (hd.timer t (hts ht)).trans
      (readTimer_congr (htimers t ht)).symm }

end Writing

/-! ## Memory with a heap of objects -/

structure Guard where
  tasks : List Ptr
  mem : Memory

/-- Memory shows the state, the heap in it holds the live objects only, and guarded
tasks are live and keep their registers. -/
structure Resides (h : Heap) (g : Guard) (k : Image b) (s : State b.xlen) : Prop where
  depicts : Depicts k s
  heap : ObjectInv h ⟨k.mem, objects s.liveTasks s.liveTimers⟩
  live : ∀ q : Nat, q ∈ g.tasks → q ∈ s.liveTasks
  saved : ∀ q : Nat, q ∈ g.tasks → ∀ x, q + ctxField b ≤ x → x < q + taskBytes b →
    k.mem x = g.mem x

/-- A heap on RV64 whose page table fits into the space reserved for it. -/
structure Heap64 (h : Heap) : Prop where
  xlen : h.xlen = 64
  fits : h.TableFits

namespace Resides

variable {h : Heap} {g : Guard} {k k' : Image .rv64} {s s' : State Build.rv64.xlen}
variable {l m : List Nat} {p t : Nat} {q : Option Ptr}

theorem spread (hr : Resides h g k s) (hh : Heap64 h) :
    Spread .rv64 s.liveTasks s.liveTimers := objects_spread hh.xlen hr.heap

theorem offTables_task (hr : Resides h g k s) (hh : Heap64 h) (hp : p ∈ s.liveTasks)
    {x : Nat} (hlo : p ≤ x) (hhi : x < p + taskBytes .rv64) : ¬h.Metadata k.mem x :=
  hr.heap.offTables hh.fits (task_mem_objects hp) hlo hhi

theorem offTables_timer (hr : Resides h g k s) (hh : Heap64 h) (ht : t ∈ s.liveTimers)
    {x : Nat} (hlo : t ≤ x) (hhi : x < t + timerBytes .rv64) : ¬h.Metadata k.mem x :=
  hr.heap.offTables hh.fits (timer_mem_objects ht) hlo hhi

theorem step (hr : Resides h g k s) (hd : Depicts k' s')
    (hsame : SameTables h k.mem k'.mem)
    (hsaved : ∀ q : Nat, q ∈ g.tasks → q ∈ s.liveTasks → ∀ x, q + ctxField .rv64 ≤ x →
      x < q + taskBytes .rv64 → k'.mem x = k.mem x)
    (htasks : s'.liveTasks = s.liveTasks) (htimers : s'.liveTimers = s.liveTimers) :
    Resides h g k' s' where
  depicts := hd
  heap := by
    rw [htasks, htimers]
    exact hr.heap.sameTables hsame
  live := fun q hq => htasks ▸ hr.live q hq
  saved := fun q hq x hlo hhi =>
    (hsaved q hq (hr.live q hq) x hlo hhi).trans (hr.saved q hq x hlo hhi)

theorem stepTask (hr : Resides h g k s) (hh : Heap64 h) (hd : Depicts k' s')
    (hp : p ∈ s.liveTasks)
    (hout : Memory.SameOutside p (p + ctxField .rv64) k.mem k'.mem)
    (htasks : s'.liveTasks = s.liveTasks) (htimers : s'.liveTimers = s.liveTimers) :
    Resides h g k' s' := by
  have hctx : ctxField .rv64 ≤ taskBytes .rv64 := by decide
  refine hr.step hd (sameTables_of_outside (hout.mono le_rfl (by omega))
    fun _ hlo hhi => hr.offTables_task hh hp hlo hhi) (fun q _ hq x hlo hhi => ?_)
    htasks htimers
  by_cases hpq : p = q
  · exact hout x (by omega)
  · have hapart := (hr.spread hh).tasks p q hp hq hpq
    exact hout x (by omega)

theorem setTaskNext (hr : Resides h g k s) (hh : Heap64 h) (hp : p ∈ s.liveTasks)
    (hq : Storable .rv64 q) : Resides h g (k.setTaskNext p q) (s.setTaskNext p q) :=
  hr.stepTask hh (hr.depicts.setTaskNext (hr.spread hh) hp hq) hp
    (sameOutside_task k.mem _ (by decide)) rfl rfl

theorem setTaskState (hr : Resides h g k s) (hh : Heap64 h) (hp : p ∈ s.liveTasks)
    {v : Nat} {st : TaskState} (hv : readState (v % 256 ^ 4) = st) :
    Resides h g (k.setTaskState p v) (s.setTaskState p st) :=
  hr.stepTask hh (hr.depicts.setTaskState (hr.spread hh) hp hv) hp
    (sameOutside_task k.mem v (by decide)) rfl rfl

theorem lowerPriority (hr : Resides h g k s) (hh : Heap64 h) (hp : p ∈ s.liveTasks) :
    Resides h g (k.lowerPriority p) (lowerPriority s p) := by
  refine hr.stepTask hh (hr.depicts.lowerPriority (hr.spread hh) hp) hp ?_ ?_ ?_
  · unfold Image.lowerPriority
    split_ifs
    · exact sameOutside_task k.mem _ (by decide)
    · exact Memory.SameOutside.refl _ _ _
  all_goals rw [lowerPriority_eq]

theorem setTimerNext (hr : Resides h g k s) (hh : Heap64 h) (ht : t ∈ s.liveTimers)
    (hq : Storable .rv64 q) : Resides h g (k.setTimerNext t q) (s.setTimerNext t q) := by
  have hin : timerNextField .rv64 + wordBytes .rv64 ≤ timerBytes .rv64 := by decide
  have hout : Memory.SameOutside t (t + timerBytes .rv64) k.mem (k.setTimerNext t q).mem :=
    (Memory.SameOutside.store k.mem _ (t + timerNextField .rv64) (q.getD 0)).mono
      (by omega) (by omega)
  refine hr.step (hr.depicts.setTimerNext (hr.spread hh) ht hq)
    (sameTables_of_outside hout fun _ hlo hhi => hr.offTables_timer hh ht hlo hhi)
    (fun p _ hp x hlo hhi => ?_) rfl rfl
  have hapart := (hr.spread hh).across p t hp ht
  exact hout x (by omega)

theorem countDown (hr : Resides h g k s) (hpos : 0 < s.tasksNum) :
    Resides h g { k with tasksNum := k.tasksNum - 1 } { s with tasksNum := s.tasksNum - 1 } :=
  { hr with depicts := hr.depicts.countDown hpos }

theorem storable_task (hr : Resides h g k s) (hh : Heap64 h)
    (hq : ∀ p, q = some p → p ∈ s.liveTasks) : Storable .rv64 q :=
  fun p hp => (hr.spread hh).taskAddr p (hq p hp) p rfl

theorem storable_timer (hr : Resides h g k s) (hh : Heap64 h)
    (hq : ∀ t, q = some t → t ∈ s.liveTimers) : Storable .rv64 q :=
  fun t ht => (hr.spread hh).timerAddr t (hq t ht) t rfl

theorem walk_tasks (hr : Resides h g k s) (hlive : l ⊆ s.liveTasks) {first : Ptr}
    (hpath : Path s.taskNext (some first) l none) (cond cond' : Ptr → Bool)
    (hcond : ∀ r : Nat, r ∈ l → cond' r = cond r) :
    walk k.taskNext cond' walkFuel (some first) first =
      walk s.taskNext cond walkFuel (some first) first :=
  hpath.walk_congr (fun _ hr' => hr.depicts.taskNext (hlive hr')) hcond walkFuel first

theorem walk_timers (hr : Resides h g k s) (hlive : m ⊆ s.liveTimers) {first : Ptr}
    (hpath : Path s.timerNext (some first) m none) (cond : Ptr → Bool) :
    walk k.timerNext cond walkFuel (some first) first =
      walk s.timerNext cond walkFuel (some first) first :=
  hpath.walk_congr (fun _ hr' => hr.depicts.timerNext (hlive hr')) (fun _ _ => rfl) walkFuel
    first

end Resides

end XinOS.Kernel
