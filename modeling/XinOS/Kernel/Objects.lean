import XinOS.Kernel.Image
import XinOS.Kernel.TimerSteps
import XinOS.Page.ObjectHeap
import XinOS.Page.Unallocated

/-!
# Tasks and timers in memory

The state of the kernel that memory shows.  `task_create` and `timer_create` do in
memory what they do to the objects, as long as no two objects overlap.
-/

namespace XinOS.Kernel

open XinOS.Foundation XinOS.Page XinOS.Trap

variable {b : Build}

/-! ## Objects that are read from memory -/

/-- Only `SLEEPING` is ever compared with. -/
def readState (v : Nat) : TaskState :=
  if v = sleepingState then .sleeping else if v = 0 then .running else .runnable

def readTask (b : Build) (m : Memory) (p : Nat) : TaskInfo where
  taskId := BitVec.ofNat 32 (m.load 4 (p + 0))
  priority := (BitVec.ofNat 32 (m.load 4 (p + priorityField))).toInt
  state := readState (m.load 4 (p + stateField))
  timeslice := BitVec.ofNat 32 (m.load 4 (p + timesliceField))
  next := readPtr b m (p + nextField)
  ctx :=
    { sp := m.load (wordBytes b) (p + (ctxField b + fieldOffset b .sp))
      pc := m.load (wordBytes b) (p + (ctxField b + pcField b))
      a0 := m.load (wordBytes b) (p + (ctxField b + fieldOffset b .a0)) }

def readTimer (b : Build) (m : Memory) (p : Nat) : Timer b.xlen where
  func := readPtr b m (p + 0)
  args := m.load (wordBytes b) (p + argsField b)
  next := readPtr b m (p + timerNextField b)
  timeout := BitVec.ofNat _ (m.load (wordBytes b) (p + timeoutField b))
  task := readPtr b m (p + timerTaskField b)

def Storable (b : Build) (q : Option Ptr) : Prop :=
  ∀ p : Nat, q = some p → 0 < p ∧ p < 2 ^ b.xlen

section Reading

variable {m m' : Memory} {p : Nat} {q : Option Ptr}

theorem readPtr_congr {a : Nat}
    (hload : m'.load (wordBytes b) a = m.load (wordBytes b) a) :
    readPtr b m' a = readPtr b m a := by
  rw [readPtr, readPtr, hload]

theorem readTask_congr (hsame : ∀ x, p ≤ x → x < p + taskBytes b → m' x = m x) :
    readTask b m' p = readTask b m p := by
  obtain ⟨hsp, ha0, hpc⟩ := context_offsets b
  obtain ⟨hctx, hsize, hword⟩ := task_sizes b
  have hload : ∀ n o, o + n ≤ taskBytes b → m'.load n (p + o) = m.load n (p + o) :=
    fun n o hin => Memory.load_congr fun x hlo hhi => hsame x (by omega) (by omega)
  have hnext := hload (wordBytes b) nextField (by unfold nextField; omega)
  rw [readTask, readTask, readPtr_congr hnext, hload 4 0 (by omega),
    hload 4 priorityField (by unfold priorityField; omega),
    hload 4 stateField (by unfold stateField; omega),
    hload 4 timesliceField (by unfold timesliceField; omega),
    hload _ (ctxField b + fieldOffset b .sp) (by omega),
    hload _ (ctxField b + pcField b) (by omega),
    hload _ (ctxField b + fieldOffset b .a0) (by omega)]

theorem readTimer_congr (hsame : ∀ x, p ≤ x → x < p + timerBytes b → m' x = m x) :
    readTimer b m' p = readTimer b m p := by
  have hload : ∀ o, o + wordBytes b ≤ 5 * wordBytes b →
      m'.load (wordBytes b) (p + o) = m.load (wordBytes b) (p + o) :=
    fun o hin => Memory.load_congr fun x hlo hhi => hsame x (by omega) (by
      unfold timerBytes
      omega)
  rw [readTimer, readTimer, readPtr_congr (hload 0 (by omega)),
    hload (argsField b) (by unfold argsField; omega),
    readPtr_congr (hload (timerNextField b) (by unfold timerNextField; omega)),
    hload (timeoutField b) (by unfold timeoutField; omega),
    readPtr_congr (hload (timerTaskField b) (by unfold timerTaskField; omega))]

theorem readPtr_of_load {a : Nat} (hq : Storable b q)
    (hload : m.load (wordBytes b) a = q.getD 0 % 256 ^ wordBytes b) :
    readPtr b m a = q := by
  cases q with
  | none =>
      rw [Option.getD_none, Nat.zero_mod] at hload
      simp only [readPtr, hload, if_true]
  | some p =>
      obtain ⟨hpos, hlt⟩ := hq p rfl
      rw [Option.getD_some, pow_wordBytes, Nat.mod_eq_of_lt hlt] at hload
      simp only [readPtr, hload]
      rw [if_neg (by omega)]

theorem readPtr_writePtr (hq : Storable b q) (a : Nat) :
    readPtr b (writePtr b m a q) a = q :=
  readPtr_of_load hq (Memory.load_store ..)

theorem readTask_writeNext (hq : Storable b q) :
    readTask b (writePtr b m (p + nextField) q) p = { readTask b m p with next := q } := by
  obtain ⟨hsp, ha0, hpc⟩ := context_offsets b
  obtain ⟨hctx, hsize, hword⟩ := task_sizes b
  have hload : ∀ n o, o + n ≤ nextField ∨ ctxField b ≤ o →
      (writePtr b m (p + nextField) q).load n (p + o) = m.load n (p + o) :=
    fun n o hin => Memory.load_store_apart m _ (by unfold nextField at *; omega)
  rw [readTask, readTask, readPtr_writePtr hq, hload 4 0 (.inl (by decide)),
    hload 4 priorityField (.inl (by decide)), hload 4 stateField (.inl (by decide)),
    hload 4 timesliceField (.inl (by decide)),
    hload _ (ctxField b + fieldOffset b .sp) (by omega),
    hload _ (ctxField b + pcField b) (by omega),
    hload _ (ctxField b + fieldOffset b .a0) (by omega)]

theorem readTimer_writeNext (hq : Storable b q) :
    readTimer b (writePtr b m (p + timerNextField b) q) p =
      { readTimer b m p with next := q } := by
  have hload : ∀ o, o + wordBytes b ≤ 2 * wordBytes b ∨ 3 * wordBytes b ≤ o →
      (writePtr b m (p + timerNextField b) q).load (wordBytes b) (p + o) =
        m.load (wordBytes b) (p + o) :=
    fun o hin => Memory.load_store_apart m _ (by unfold timerNextField; omega)
  rw [readTimer, readTimer, readPtr_writePtr hq, readPtr_congr (hload 0 (by omega)),
    hload (argsField b) (by unfold argsField; omega),
    hload (timeoutField b) (by unfold timeoutField; omega),
    readPtr_congr (hload (timerTaskField b) (by unfold timerTaskField; omega))]

end Reading

/-! ## The state that memory shows -/

/-- Memory and the static variables show the objects of `s` and its lists. -/
structure Depicts (k : Image b) (s : State b.xlen) : Prop where
  task : ∀ p ∈ s.liveTasks, s.task p = readTask b k.mem p
  timer : ∀ t ∈ s.liveTimers, s.timer t = readTimer b k.mem t
  firstTask : s.firstTask = k.firstTask
  curTask : s.curTask = k.curTask
  tasksNum : s.tasksNum = k.tasksNum.toInt
  taskId : s.taskId = k.taskId
  firstTimer : s.firstTimer = k.firstTimer
  ticks : s.ticks = k.ticks

structure Spread (b : Build) (ps ts : List Ptr) : Prop where
  tasks : ∀ p q : Nat, p ∈ ps → q ∈ ps → p ≠ q →
    p + taskBytes b ≤ q ∨ q + taskBytes b ≤ p
  timers : ∀ t r : Nat, t ∈ ts → r ∈ ts → t ≠ r →
    t + timerBytes b ≤ r ∨ r + timerBytes b ≤ t
  across : ∀ p t : Nat, p ∈ ps → t ∈ ts →
    p + taskBytes b ≤ t ∨ t + timerBytes b ≤ p
  taskAddr : ∀ p ∈ ps, Storable b (some p)
  timerAddr : ∀ t ∈ ts, Storable b (some t)

section Links

variable {k : Image b} {s : State b.xlen} {l : List Nat} {p : Nat} {q : Option Ptr}

theorem Depicts.setTaskNext (hd : Depicts k s) (hs : Spread b s.liveTasks s.liveTimers)
    (hp : p ∈ s.liveTasks) (hq : Storable b q) :
    Depicts (k.setTaskNext p q) (s.setTaskNext p q) := by
  obtain ⟨hctx, hsize, hword⟩ := task_sizes b
  have hout : ∀ x, x < p ∨ p + taskBytes b ≤ x → (k.setTaskNext p q).mem x = k.mem x :=
    fun x hx => Memory.SameOutside.store k.mem _ (p + nextField) (q.getD 0) x (by
      unfold nextField
      omega)
  refine { hd with task := fun r hr => ?_, timer := fun t ht => ?_ }
  · by_cases hrp : r = p
    · subst hrp
      rw [State.setTaskNext, State.setTask_task, Function.update_self, hd.task r hr]
      exact (readTask_writeNext hq).symm
    · have hapart := hs.tasks p r hp hr (Ne.symm hrp)
      rw [State.setTaskNext, State.setTask_task, Function.update_of_ne hrp, hd.task r hr]
      exact (readTask_congr fun x hlo hhi => hout x (by omega)).symm
  · have hapart := hs.across p t hp ht
    exact (hd.timer t ht).trans (readTimer_congr fun x hlo hhi => hout x (by omega)).symm

theorem Depicts.setTimerNext (hd : Depicts k s) (hs : Spread b s.liveTasks s.liveTimers)
    (hp : p ∈ s.liveTimers) (hq : Storable b q) :
    Depicts (k.setTimerNext p q) (s.setTimerNext p q) := by
  have hout : ∀ x, x < p ∨ p + timerBytes b ≤ x → (k.setTimerNext p q).mem x = k.mem x :=
    fun x hx => Memory.SameOutside.store k.mem _ (p + timerNextField b) (q.getD 0) x (by
      unfold timerNextField
      unfold timerBytes at hx
      omega)
  refine { hd with task := fun r hr => ?_, timer := fun t ht => ?_ }
  · have hapart := hs.across r p hr hp
    exact (hd.task r hr).trans (readTask_congr fun x hlo hhi => hout x (by omega)).symm
  · by_cases htp : t = p
    · subst htp
      rw [State.setTimerNext, State.setTimer_timer, Function.update_self, hd.timer t ht]
      exact (readTimer_writeNext hq).symm
    · have hapart := hs.timers p t hp ht (Ne.symm htp)
      rw [State.setTimerNext, State.setTimer_timer, Function.update_of_ne htp,
        hd.timer t ht]
      exact (readTimer_congr fun x hlo hhi => hout x (by omega)).symm

theorem Depicts.insertTask (hd : Depicts k s) (hs : Spread b s.liveTasks s.liveTimers)
    (hlist : TaskList s l) (hroom : l.length < maxTaskNum) (hlive : l ⊆ s.liveTasks)
    (hp : p ∈ s.liveTasks) :
    ∃ k' s', k.insertTask p = .ok (0, k') ∧ insertTask s p = .ok (0, s') ∧
      Depicts k' s' := by
  have hcount : k.tasksNum.toInt = l.length := hd.tasksNum.symm.trans hlist.count
  have hsucc : s.tasksNum + 1 = (k.tasksNum + 1).toInt := by
    rw [CInt.toInt_add_one (by unfold maxTaskNum at hroom; omega), hd.tasksNum]
  have hnumber : ∀ q ∈ s.liveTasks, (s.task q).priority = k.taskPriority q := fun q hq => by
    rw [hd.task q hq]
    rfl
  rw [Image.insertTask, Kernel.insertTask, ← hd.firstTask]
  cases hfirst : s.firstTask with
  | none =>
      have hnil : l = [] := by
        have hhead := hlist.path.head_eq
        rw [hfirst] at hhead
        exact List.head?_eq_none_iff.mp hhead.symm
      have hzero : k.tasksNum = 0 := by
        rw [hnil] at hcount
        exact BitVec.eq_of_toInt_eq hcount
      have hzero' : s.tasksNum = 0 := by rw [hlist.count, hnil]; rfl
      simp only [hzero, hzero', if_true]
      exact ⟨_, _, rfl, rfl, { hd with
        firstTask := rfl
        tasksNum := show (0 + 1 : Int) = (0 + 1 : CInt).toInt by decide }⟩
  | some first =>
      have hpath : Path s.taskNext (some first) l none := hfirst ▸ hlist.path
      have hmem := hlive hpath.first_mem
      simp only [hnumber p hp, hnumber first hmem]
      by_cases hlt : k.taskPriority p < k.taskPriority first
      · simp only [if_pos hlt]
        have hlinked := hd.setTaskNext hs hp (hs.taskAddr first hmem)
        exact ⟨_, _, rfl, rfl, { hlinked with firstTask := rfl, tasksNum := hsucc }⟩
      · simp only [if_neg hlt]
        have hsearch : walk k.taskNext
            (fun it => decide (k.taskPriority it ≤ k.taskPriority p)) walkFuel
              (some first) first =
            walk s.taskNext (fun it => decide ((s.task it).priority ≤ k.taskPriority p))
              walkFuel (some first) first :=
          hpath.walk_congr (fun q hq => by rw [State.taskNext, hd.task q (hlive hq)]; rfl)
            (fun q hq => by rw [hnumber q (hlive hq)]) walkFuel first
        obtain ⟨it, prev, hwalk, hit, hprev⟩ := hpath.walk_ends
          (fun it => decide ((s.task it).priority ≤ k.taskPriority p)) hlist.short
        rw [hsearch, hwalk]
        have hbehind := hd.setTaskNext hs (hlive hprev) (hs.taskAddr p hp)
        have hlinked := hbehind.setTaskNext hs hp fun q hq =>
          hs.taskAddr q (hlive (hit q hq)) q rfl
        exact ⟨_, _, rfl, rfl, { hlinked with tasksNum := hsucc }⟩

theorem Depicts.insertTimer (hd : Depicts k s) (hs : Spread b s.liveTasks s.liveTimers)
    (hpath : Path s.timerNext s.firstTimer l none) (hshort : l.length < walkFuel)
    (hlive : l ⊆ s.liveTimers) (hp : p ∈ s.liveTimers) :
    ∃ k' s', k.insertTimer p = .ok k' ∧ insertTimer s p = .ok s' ∧ Depicts k' s' := by
  have htimeout : ∀ t ∈ s.liveTimers, (s.timer t).timeout = k.timerTimeout t :=
    fun t ht => by
      rw [hd.timer t ht]
      rfl
  rw [Image.insertTimer, Kernel.insertTimer, ← hd.firstTimer]
  cases hfirst : s.firstTimer with
  | none => exact ⟨_, _, rfl, rfl, { hd with firstTimer := rfl }⟩
  | some first =>
      rw [hfirst] at hpath
      have hmem := hlive hpath.first_mem
      simp only [htimeout p hp, htimeout first hmem]
      by_cases hlt : k.timerTimeout p < k.timerTimeout first
      · simp only [if_pos hlt]
        have hlinked := hd.setTimerNext hs hp (hs.timerAddr first hmem)
        exact ⟨_, _, rfl, rfl, { hlinked with firstTimer := rfl }⟩
      · simp only [if_neg hlt]
        have hsearch : walk k.timerNext
            (fun it => decide (k.timerTimeout it ≤ k.timerTimeout p)) walkFuel
              (some first) first =
            walk s.timerNext (fun it => decide ((s.timer it).timeout ≤ k.timerTimeout p))
              walkFuel (some first) first :=
          hpath.walk_congr (fun t ht => by rw [State.timerNext, hd.timer t (hlive ht)]; rfl)
            (fun t ht => by rw [htimeout t (hlive ht)]) walkFuel first
        obtain ⟨it, prev, hwalk, hit, hprev⟩ := hpath.walk_ends
          (fun it => decide ((s.timer it).timeout ≤ k.timerTimeout p)) hshort
        rw [hsearch, hwalk]
        have hbehind := hd.setTimerNext hs (hlive hprev) (hs.timerAddr p hp)
        exact ⟨_, _, rfl, rfl, hbehind.setTimerNext hs hp fun q hq =>
          hs.timerAddr q (hlive (hit q hq)) q rfl⟩

end Links

/-! ## New objects -/

def Image.TaskCall.args (a : Image.TaskCall b) : TaskArgs b.xlen where
  task := a.task.toNat
  param := if a.param = 0 then none else some a.param.toNat
  priority := a.priority.toInt
  timeslice := a.timeslice

/-- `malloc` has handed out `n` bytes at `p` that belong to no object, and all objects
are in `m` as they were in `m₀`. -/
structure NewObject (b : Build) (ps ts : List Ptr) (m₀ m : Memory) (p n : Nat) :
    Prop where
  addr : Storable b (some p)
  tasks : ∀ q : Nat, q ∈ ps → p + n ≤ q ∨ q + taskBytes b ≤ p
  timers : ∀ t : Nat, t ∈ ts → p + n ≤ t ∨ t + timerBytes b ≤ p
  keptTasks : ∀ q : Nat, q ∈ ps → ∀ x, q ≤ x → x < q + taskBytes b → m x = m₀ x
  keptTimers : ∀ t : Nat, t ∈ ts → ∀ x, t ≤ x → x < t + timerBytes b → m x = m₀ x

section Create

variable {k : Image b} {s : State b.xlen} {l : List Nat} {h : Heap} {m : Memory}
variable {p n taskStack : Nat}

theorem NewObject.depicts (hnew : NewObject b s.liveTasks s.liveTimers k.mem m p n)
    (hd : Depicts k s) {fields : List Memory.Word}
    (hin : ∀ f ∈ fields, f.offset + f.size ≤ n) :
    Depicts { k with mem := m.storeAll p fields } s := by
  have hout := Memory.SameOutside.storeAll m p hin
  refine { hd with task := fun q hq => ?_, timer := fun t ht => ?_ }
  · have hapart := hnew.tasks q hq
    refine (hd.task q hq).trans (readTask_congr fun x hlo hhi => ?_).symm
    exact (hout x (by omega)).trans (hnew.keptTasks q hq x hlo hhi)
  · have hapart := hnew.timers t ht
    refine (hd.timer t ht).trans (readTimer_congr fun x hlo hhi => ?_).symm
    exact (hout x (by omega)).trans (hnew.keptTimers t ht x hlo hhi)

theorem Spread.consTask {ps ts : List Ptr} {m₀ : Memory} (hs : Spread b ps ts)
    (hnew : NewObject b ps ts m₀ m p (taskBytes b)) : Spread b (p :: ps) ts where
  tasks := by
    intro q r hq hr hne
    rcases List.mem_cons.mp hq with hqp | hq' <;>
      rcases List.mem_cons.mp hr with hrp | hr'
    · exact absurd (hqp.trans hrp.symm) hne
    · exact hqp ▸ hnew.tasks r hr'
    · exact hrp ▸ (hnew.tasks q hq').symm
    · exact hs.tasks q r hq' hr' hne
  timers := hs.timers
  across := by
    intro q t hq ht
    rcases List.mem_cons.mp hq with rfl | hq
    · exact hnew.timers t ht
    · exact hs.across q t hq ht
  taskAddr := by
    intro q hq
    rcases List.mem_cons.mp hq with rfl | hq
    · exact hnew.addr
    · exact hs.taskAddr q hq
  timerAddr := hs.timerAddr

theorem Spread.consTimer {ps ts : List Ptr} {m₀ : Memory} (hs : Spread b ps ts)
    (hnew : NewObject b ps ts m₀ m p (timerBytes b)) : Spread b ps (p :: ts) where
  tasks := hs.tasks
  timers := by
    intro q r hq hr hne
    rcases List.mem_cons.mp hq with hqp | hq' <;>
      rcases List.mem_cons.mp hr with hrp | hr'
    · exact absurd (hqp.trans hrp.symm) hne
    · exact hqp ▸ hnew.timers r hr'
    · exact hrp ▸ (hnew.timers q hq').symm
    · exact hs.timers q r hq' hr' hne
  across := by
    intro q t hq ht
    rcases List.mem_cons.mp ht with rfl | ht
    · exact (hnew.tasks q hq).symm
    · exact hs.across q t hq ht
  taskAddr := hs.taskAddr
  timerAddr := by
    intro t ht
    rcases List.mem_cons.mp ht with rfl | ht
    · exact hnew.addr
    · exact hs.timerAddr t ht

theorem ofNat_word {w n : Nat} (hw : 256 ^ n = 2 ^ w) (v : BitVec w) :
    BitVec.ofNat w (v.toNat % 256 ^ n) = v := by
  rw [hw, Nat.mod_eq_of_lt v.isLt, BitVec.ofNat_toNat, BitVec.setWidth_eq]

theorem readTask_taskWords (hd : Depicts k s) (m : Memory) (p : Nat)
    (hstack : stackTop taskStack s.tasksNum < 2 ^ b.xlen) (a : Image.TaskCall b) :
    readTask b (m.storeAll p (k.taskWords taskStack a)) p =
      startInfo taskStack s (readTask b m p) a.args := by
  obtain ⟨hctx, hsize, hword⟩ := task_sizes b
  obtain ⟨hspOffset, ha0Offset, hpcOffset⟩ := context_offsets b
  have hpow := pow_wordBytes b
  let m' := m.storeAll p (k.taskWords taskStack a)
  have hset : ∀ f ∈ k.taskWords taskStack a,
      m'.load f.size (p + f.offset) = f.value % 256 ^ f.size :=
    fun f hf => Memory.load_storeAll m p Image.taskWords_apart hf
  have hid : m'.load 4 (p + 0) = _ :=
    hset ⟨0, 4, k.taskId.toNat⟩ (by simp [Image.taskWords])
  have hpriority : m'.load 4 (p + priorityField) = _ :=
    hset ⟨priorityField, 4, a.priority.toNat⟩ (by simp [Image.taskWords])
  have hstate : m'.load 4 (p + stateField) = m.load 4 (p + stateField) :=
    Memory.load_storeAll_apart m p Image.stateField_unset
  have htimeslice : m'.load 4 (p + timesliceField) = _ :=
    hset ⟨timesliceField, 4, (a.timeslice.setWidth 32).toNat⟩ (by simp [Image.taskWords])
  have hnext : m'.load (wordBytes b) (p + nextField) = 0 % _ :=
    hset ⟨nextField, wordBytes b, 0⟩ Image.nextWord_mem
  have hsp : m'.load (wordBytes b) (p + (ctxField b + fieldOffset b .sp)) =
      stackTop taskStack s.tasksNum := by
    rw [hset ⟨ctxField b + fieldOffset b .sp, wordBytes b,
      stackTop taskStack k.tasksNum.toInt⟩ (by simp [Image.taskWords]), hpow,
      ← hd.tasksNum, Nat.mod_eq_of_lt hstack]
  have hpc : m'.load (wordBytes b) (p + (ctxField b + pcField b)) = a.task.toNat := by
    rw [hset ⟨ctxField b + pcField b, wordBytes b, a.task.toNat⟩ Image.pcWord_mem, hpow,
      Nat.mod_eq_of_lt a.task.isLt]
  have ha0 : m'.load (wordBytes b) (p + (ctxField b + fieldOffset b .a0)) =
      a.args.param.getD (m.load (wordBytes b) (p + (ctxField b + fieldOffset b .a0))) := by
    by_cases hparam : a.param = 0
    · rw [Image.TaskCall.args, if_pos hparam, Option.getD_none]
      refine Memory.load_storeAll_apart m p ?_
      apply Image.forall_taskWords (P := fun o n =>
        o + n ≤ ctxField b + fieldOffset b .a0 ∨
          ctxField b + fieldOffset b .a0 + wordBytes b ≤ o) <;>
        first | exact fun hne => absurd hparam hne | omega
    · rw [Image.TaskCall.args, if_neg hparam, Option.getD_some,
        hset ⟨ctxField b + fieldOffset b .a0, wordBytes b, a.param.toNat⟩
          (by rw [Image.taskWords, if_pos hparam]; simp), hpow,
        Nat.mod_eq_of_lt a.param.isLt]
  rw [readTask, readPtr, hid, hpriority, hstate, htimeslice, hnext, hsp, hpc, ha0,
    ofNat_word rfl, ofNat_word rfl, ofNat_word rfl, Nat.zero_mod, if_pos rfl, ← hd.taskId]
  rfl

theorem Depicts.taskCreate (hd : Depicts k s) (hs : Spread b s.liveTasks s.liveTimers)
    (hlist : TaskList s l) (hlive : l ⊆ s.liveTasks)
    (hmalloc : malloc h (taskBytes b) k.mem = (some p, m))
    (hnew : NewObject b s.liveTasks s.liveTimers k.mem m p (taskBytes b))
    (hold : s.task p = readTask b m p)
    (hstack : taskStack + maxTaskNum * stackSize ≤ 2 ^ b.xlen) (a : Image.TaskCall b) :
    ∃ r k' s', k.taskCreate h taskStack a = .ok (r, k') ∧
      taskCreate taskStack s p a.args = .ok (r, s') ∧ Depicts k' s' := by
  have hcount : k.tasksNum.toInt = l.length := hd.tasksNum.symm.trans hlist.count
  rw [Image.taskCreate, Kernel.taskCreate, hd.tasksNum]
  by_cases hfull : k.tasksNum.toInt ≥ maxTaskNum
  · rw [if_pos hfull, if_pos hfull]
    exact ⟨_, _, _, rfl, rfl, hd⟩
  have hpos := (taskBytes_small b).1
  have hoff : p ∉ s.liveTasks := fun hmem => by
    have hapart := hnew.tasks p hmem
    omega
  have hroom : l.length < maxTaskNum := by omega
  have hstack' : stackTop taskStack s.tasksNum < 2 ^ b.xlen := by
    rw [hlist.count, stackTop]
    unfold maxTaskNum stackSize at *
    omega
  -- the state in which `insert_task` is called
  let k₀ : Image b :=
    { k with mem := m.storeAll p (k.taskWords taskStack a), taskId := k.taskId + 1 }
  have hother : ∀ q ∈ s.liveTasks, (admitTask taskStack s p a.args).task q = s.task q :=
    s.setTask_of_notMem hoff _
  have hfilled : Depicts { k with mem := m.storeAll p (k.taskWords taskStack a) } s :=
    hnew.depicts hd Image.taskWords_inside
  have hd₀ : Depicts k₀ (admitTask taskStack s p a.args) :=
    { hfilled with
      task := by
        intro q hq
        rcases List.mem_cons.mp hq with rfl | hq
        · exact (Function.update_self ..).trans (hold ▸
            (readTask_taskWords hd m q hstack' a).symm)
        · exact (hother q hq).trans (hfilled.task q hq)
      taskId := congrArg (· + 1) hd.taskId }
  have hlist₀ : TaskList (admitTask taskStack s p a.args) l :=
    hlist.congr (fun q hq => hother q (hlive hq)) rfl rfl
  obtain ⟨k', s', hinsert, hinsert', hd'⟩ := hd₀.insertTask (hs.consTask hnew) hlist₀
    hroom (fun q hq => List.mem_cons_of_mem _ (hlive hq)) List.mem_cons_self
  rw [if_neg hfull, if_neg hfull, hmalloc]
  simp only [deref, hinsert']
  rw [hinsert]
  exact ⟨_, _, _, rfl, rfl, hd'⟩

def toPtr (v : BitVec b.xlen) : Option Nat := if v = 0 then none else some v.toNat

theorem toPtr_storable (v : BitVec b.xlen) : Storable b (toPtr v) := by
  intro p hp
  rw [toPtr] at hp
  split_ifs at hp with hzero
  cases hp
  refine ⟨Nat.pos_of_ne_zero fun hv => hzero ?_, v.isLt⟩
  exact BitVec.eq_of_toNat_eq (hv.trans (Nat.zero_mod _).symm)

theorem toPtr_getD (v : BitVec b.xlen) : (toPtr v).getD 0 = v.toNat := by
  rw [toPtr]
  split_ifs with hzero
  · rw [hzero]
    exact (Nat.zero_mod _).symm
  · rfl

theorem readTimer_timerWords (hcur : Storable b k.curTask) (m : Memory) (p : Nat)
    (func args timeout : BitVec b.xlen) :
    readTimer b (m.storeAll p (k.timerWords func args timeout)) p =
      { func := toPtr func
        args := args.toNat
        task := k.curTask
        timeout := k.ticks + timeout
        next := none } := by
  have hpow := pow_wordBytes b
  let m' := m.storeAll p (k.timerWords func args timeout)
  have hset : ∀ f ∈ k.timerWords func args timeout,
      m'.load f.size (p + f.offset) = f.value % 256 ^ f.size :=
    fun f hf => Memory.load_storeAll m p Image.timerWords_apart hf
  have hfunc : readPtr b m' (p + 0) = toPtr func := by
    refine readPtr_of_load (toPtr_storable func) ?_
    rw [toPtr_getD]
    exact hset ⟨0, wordBytes b, func.toNat⟩ (by simp [Image.timerWords])
  have hargs : m'.load (wordBytes b) (p + argsField b) = args.toNat := by
    rw [hset ⟨argsField b, wordBytes b, args.toNat⟩ (by simp [Image.timerWords]), hpow,
      Nat.mod_eq_of_lt args.isLt]
  have htimeout : m'.load (wordBytes b) (p + timeoutField b) = _ :=
    hset ⟨timeoutField b, wordBytes b, (k.ticks + timeout).toNat⟩
      (by simp [Image.timerWords])
  have hnext : m'.load (wordBytes b) (p + timerNextField b) = 0 % _ :=
    hset ⟨timerNextField b, wordBytes b, 0⟩ (by simp [Image.timerWords])
  have htask : readPtr b m' (p + timerTaskField b) = k.curTask :=
    readPtr_of_load hcur (hset ⟨timerTaskField b, wordBytes b, k.curTask.getD 0⟩
      (by simp [Image.timerWords]))
  rw [readTimer, hfunc, hargs, htimeout, htask, readPtr, hnext, ofNat_word hpow,
    Nat.zero_mod, if_pos rfl]

theorem Depicts.timerCreate (hd : Depicts k s) (hs : Spread b s.liveTasks s.liveTimers)
    (hpath : Path s.timerNext s.firstTimer l none) (hshort : l.length < walkFuel)
    (hlive : l ⊆ s.liveTimers) (hcur : Storable b s.curTask)
    (hmalloc : malloc h (timerBytes b) k.mem = (some p, m))
    (hnew : NewObject b s.liveTasks s.liveTimers k.mem m p (timerBytes b))
    (func args timeout : BitVec b.xlen) :
    ∃ k' s', k.timerCreate h func args timeout = .ok (some p, k') ∧
      timerCreate s p (toPtr func) args.toNat timeout = .ok s' ∧ Depicts k' s' := by
  have hpos : 0 < timerBytes b := by
    have hword := wordBytes_pos b
    unfold timerBytes
    omega
  have hoff : p ∉ s.liveTimers := fun hmem => by
    have hapart := hnew.timers p hmem
    omega
  -- the state in which `insert_timer` is called
  let k₀ : Image b := { k with mem := m.storeAll p (k.timerWords func args timeout) }
  let s₀ : State b.xlen := armTimer s p (toPtr func) args.toNat timeout
  have hother : ∀ t ∈ s.liveTimers, s₀.timer t = s.timer t := s.setTimer_of_notMem hoff _
  have hfilled : Depicts k₀ s := hnew.depicts hd Image.timerWords_inside
  have hnewTimer : s₀.timer p = readTimer b k₀.mem p := by
    rw [readTimer_timerWords (hd.curTask ▸ hcur), ← hd.curTask, ← hd.ticks]
    exact Function.update_self ..
  have hd₀ : Depicts k₀ s₀ :=
    { hfilled with
      timer := by
        intro t ht
        rcases List.mem_cons.mp ht with rfl | ht
        · exact hnewTimer
        · exact (hother t ht).trans (hfilled.timer t ht) }
  have hpath₀ : Path s₀.timerNext s₀.firstTimer l none :=
    hpath.congr fun t ht => congrArg Timer.next (hother t (hlive ht))
  obtain ⟨k', s', hinsert, hinsert', hd'⟩ := hd₀.insertTimer (hs.consTimer hnew) hpath₀
    hshort (fun t ht => List.mem_cons_of_mem _ (hlive ht)) List.mem_cons_self
  refine ⟨k', s', ?_, hinsert', hd'⟩
  rw [Image.timerCreate, hmalloc]
  simp only [deref]
  rw [hinsert]

end Create

/-! ## Memory for new objects -/

theorem objects_storable {h : Heap} (hx : h.xlen = 64) {σ : HeapState}
    (hi : ObjectInv h σ) {a : Allocation} (ha : a ∈ σ.live) :
    Storable .rv64 (some a.addr) := by
  have hshaped := hi.heap.shaped a ha
  have hstart := h.allocStart_pos
  have hheap := hshaped.inHeap
  have hpage := (h.base_pageOf_le hheap).2
  have hlast := hshaped.first_le_last
  have hend : h.base (a.lastPage h + 1) ≤ h.allocEnd :=
    h.base_le_allocEnd (hi.heap.lastPage_lt ha)
  have hsucc : h.base (h.pageOf a.addr + 1) ≤ h.base (a.lastPage h + 1) := by
    unfold Heap.base pageSize
    omega
  have hspace := h.inSpace
  rw [hx] at hspace
  intro q hq
  cases hq
  exact ⟨by omega, show a.addr < 2 ^ 64 by omega⟩

theorem malloc_keeps_objects {h : Heap} (hfit : h.TableFits) {m₀ m : Memory}
    {live : List Allocation} {size p : Nat}
    (hi : ObjectInv h ⟨m, ⟨p, size⟩ :: live⟩) (heq : malloc h size m₀ = (some p, m))
    {a : Allocation} (ha : a ∈ live) {x : Nat} (hlo : a.addr ≤ x)
    (hhi : x < a.addr + a.size) : m x = m₀ x := by
  have hnew : (⟨p, size⟩ : Allocation) ∈ (⟨p, size⟩ : Allocation) :: live :=
    List.mem_cons_self
  have hold : a ∈ (⟨p, size⟩ : Allocation) :: live := List.mem_cons_of_mem _ ha
  obtain ⟨hpos, hsmall, -, -, -, hround⟩ := object_size (hi.objects _ hnew)
  obtain ⟨k, hk, i, hp, hfits, hsame, -⟩ := malloc_small_cases hfit hpos hsmall heq
  have hheap := (hi.heap.shaped a hold).inHeap
  refine hsame x (by omega) ?_
  by_contra htable
  -- the new object is in the page whose table has the byte
  have hpage : h.pageOf p = k := by
    have hsucc := h.base_succ k
    refine h.pageOf_eq (by omega) ?_
    unfold blockCount mallocSize at *
    unfold pageSize at hsucc
    omega
  have hmal : isMalloced m (h.desc k) = true :=
    (hi.heap.isMalloced_iff hk).mpr (blockPage_iff.mpr ⟨_, hnew,
      (usesBlocks_of_small hpos hsmall).1,
      ((hi.heap.shaped _ hnew).small_lastPage hsmall).trans hpage⟩)
  have hcount := (object_size (hi.objects a hold)).2.2.2.1
  have hreach := Page.outOfReach_iff.mp
    ((hi.heap.outOfReach_iff hfit hold hcount).mpr (hi.endOffset_ne hold))
  exact hreach x (Span.mem_iff.mpr ⟨hlo, hhi⟩) (.inr ⟨k, hk, hmal, by omega, by omega⟩)

/-- On RV64, where only tasks and timers are allocated, `malloc` hands out memory of
its own for each. -/
theorem malloc_newObject {h : Heap} (hx : h.xlen = 64) (hfit : h.TableFits)
    {m₀ m : Memory} {live : List Allocation} (hi : ObjectInv h ⟨m₀, live⟩)
    {ps ts : List Ptr} (hps : ∀ q ∈ ps, ⟨q, taskInfoSize⟩ ∈ live)
    (hts : ∀ t ∈ ts, ⟨t, timerSize⟩ ∈ live) {size p : Nat}
    (hsize : size = taskInfoSize ∨ size = timerSize)
    (heq : malloc h size m₀ = (some p, m)) :
    NewObject .rv64 ps ts m₀ m p size := by
  obtain ⟨hpos, hsmall, -⟩ := object_size hsize
  have hstep : heapStep h ⟨m₀, live⟩ (.malloc size) = some ⟨m, ⟨p, size⟩ :: live⟩ := by
    have hlt : size < 2 ^ h.xlen := by
      rw [hx]
      unfold allocableSize at hsmall
      omega
    simp only [heapStep, heq]
    rw [if_pos ⟨hpos, hlt⟩]
  have hi' : ObjectInv h ⟨m, ⟨p, size⟩ :: live⟩ := hi.step hfit (fun n hn => by
    cases hn
    exact hsize) hstep
  have hcounts : ∀ a ∈ (⟨p, size⟩ : Allocation) :: live, CountsPages a.size :=
    fun a ha => (object_size (hi'.objects a ha)).2.2.2.1
  have hranges := List.pairwise_cons.mp (hi'.heap.ranges_apart hcounts)
  have hapart : ∀ a ∈ live, p + size ≤ a.addr ∨ a.addr + a.size ≤ p := fun a ha =>
    hranges.1 a ha
  have hkept : ∀ a ∈ live, ∀ x, a.addr ≤ x → x < a.addr + a.size → m x = m₀ x :=
    fun a ha x hlo hhi => malloc_keeps_objects hfit hi' heq ha hlo hhi
  exact
    { addr := objects_storable hx hi' List.mem_cons_self
      tasks := fun q hq => hapart _ (hps q hq)
      timers := fun t ht => hapart _ (hts t ht)
      keptTasks := fun q hq => hkept _ (hps q hq)
      keptTimers := fun t ht => hkept _ (hts t ht) }

def objects (ps ts : List Ptr) : List Allocation :=
  ps.map (⟨·, taskInfoSize⟩) ++ ts.map (⟨·, timerSize⟩)

section Objects

variable {h : Heap} {m : Memory} {ps ts : List Ptr}

theorem task_mem_objects {p : Nat} (hp : p ∈ ps) : ⟨p, taskInfoSize⟩ ∈ objects ps ts :=
  List.mem_append_left _ (List.mem_map_of_mem hp)

theorem timer_mem_objects {t : Nat} (ht : t ∈ ts) : ⟨t, timerSize⟩ ∈ objects ps ts :=
  List.mem_append_right _ (List.mem_map_of_mem ht)

theorem objects_spread (hx : h.xlen = 64) (hi : ObjectInv h ⟨m, objects ps ts⟩) :
    Spread .rv64 ps ts := by
  have hcounts : ∀ a ∈ objects ps ts, CountsPages a.size :=
    fun a ha => (object_size (hi.objects a ha)).2.2.2.1
  have hranges := hi.heap.ranges_apart hcounts
  have hsymm : Std.Symm fun x y : Allocation => x.range.Apart y.range :=
    ⟨fun _ _ hxy => hxy.symm⟩
  exact
    { tasks := fun p q hp hq hne => hranges.forall (task_mem_objects hp)
        (task_mem_objects hq) fun heq => hne (congrArg Allocation.addr heq)
      timers := fun t r ht hr hne => hranges.forall (timer_mem_objects ht)
        (timer_mem_objects hr) fun heq => hne (congrArg Allocation.addr heq)
      across := fun p t hp ht => hranges.forall (task_mem_objects hp)
        (timer_mem_objects ht) fun heq =>
          absurd (congrArg Allocation.size heq) (show taskInfoSize ≠ timerSize by decide)
      taskAddr := fun p hp => objects_storable hx hi (task_mem_objects hp)
      timerAddr := fun t ht => objects_storable hx hi (timer_mem_objects ht) }

variable {k : Image .rv64} {s : State 64} {l : List Nat} {p : Nat}

/-- While only tasks and timers are allocated, `task_create` does in memory on RV64
what it does to the objects. -/
theorem taskCreate_in_memory (hx : h.xlen = 64) (hfit : h.TableFits) (hd : Depicts k s)
    (hi : ObjectInv h ⟨k.mem, objects s.liveTasks s.liveTimers⟩) (hl : TaskInv s l)
    {taskStack : Nat} (hstack : taskStack + maxTaskNum * stackSize ≤ 2 ^ 64)
    (hmalloc : malloc h (taskBytes .rv64) k.mem = (some p, m))
    (hold : s.task p = readTask .rv64 m p) (a : Image.TaskCall .rv64) :
    ∃ r k' s', k.taskCreate h taskStack a = .ok (r, k') ∧
      taskCreate taskStack s p a.args = .ok (r, s') ∧ Depicts k' s' := by
  have hnew := malloc_newObject hx hfit hi (fun _ hq => task_mem_objects hq)
    (fun _ ht => timer_mem_objects ht) (.inl rfl) hmalloc
  exact hd.taskCreate (objects_spread hx hi) hl.toTaskList (fun _ hq => hl.mem_live.mpr hq)
    hmalloc hnew hold hstack a

theorem timerCreate_in_memory (hx : h.xlen = 64) (hfit : h.TableFits) (hd : Depicts k s)
    (hi : ObjectInv h ⟨k.mem, objects s.liveTasks s.liveTimers⟩) (hm : TimerInv s l)
    (hcur : Storable .rv64 s.curTask)
    (hmalloc : malloc h (timerBytes .rv64) k.mem = (some p, m))
    (func args timeout : BitVec 64) :
    ∃ k' s', k.timerCreate h func args timeout = .ok (some p, k') ∧
      timerCreate s p (toPtr (b := .rv64) func) args.toNat timeout = .ok s' ∧
      Depicts k' s' := by
  have hnew := malloc_newObject hx hfit hi (fun _ hq => task_mem_objects hq)
    (fun _ ht => timer_mem_objects ht) (.inr rfl) hmalloc
  exact hd.timerCreate (objects_spread hx hi) hm.path hm.short
    (fun _ ht => hm.mem_live.mpr ht)
    hcur hmalloc hnew func args timeout

end Objects

end XinOS.Kernel
