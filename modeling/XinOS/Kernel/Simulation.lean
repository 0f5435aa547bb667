import XinOS.Kernel.Saving
import XinOS.Kernel.Tracking

/-!
# The kernel in memory follows the machine

Whatever the hart does to the bytes of memory, the machine does to its objects.  The
one place where memory is used after `free` is harmless: `trap_vector` goes on saving
the registers of a task in the object that `task_exit` has given back, up to the
software interrupt that is already pending, and until then nothing is allocated.
-/

namespace XinOS.Kernel

open XinOS.Foundation XinOS.Page XinOS.Trap

variable {h : Heap} {g : Guard} {osTask taskStack : Nat} {s s' : MemoryHart .rv64}
variable {a a' : Machine Build.rv64.xlen} {ps ts ps' ts' : List Ptr} {p : Nat}

/-- Room for a task that registers can be saved in without harm: it is in no table,
whatever memory holds, and in no object. -/
structure Spare (b : Build) (h : Heap) (ps ts : List Ptr) (p : Nat) : Prop where
  offTables : ∀ (m : Memory) (x : Nat), p ≤ x → x < p + taskBytes b →
    ¬h.Metadata m x
  inSpace : p + taskBytes b ≤ 2 ^ b.xlen
  tasks : ∀ q : Nat, q ∈ ps →
    p + taskBytes b ≤ q ∨ q + taskBytes b ≤ p
  timers : ∀ t : Nat, t ∈ ts →
    p + taskBytes b ≤ t ∨ t + timerBytes b ≤ p

/-- `os_task` and `task_stack` are static variables, which os.ld puts below the
heap. -/
structure Statics (b : Build) (h : Heap) (osTask taskStack : Nat) : Prop where
  osTask : osTask + taskBytes b ≤ h.heapStart
  taskStack : taskStack + maxTaskNum * stackSize ≤ h.heapStart

theorem Heap64.below (hh : Heap64 h) :
    h.heapStart ≤ h.allocStart ∧ h.heapStart ≤ 2 ^ 64 := by
  have hreserve := h.reserve
  have hend := h.allocEnd_eq
  have hspace := h.inSpace
  rw [hh.xlen] at hspace
  omega

theorem Spare.mono (hs : Spare .rv64 h ps ts p) (htasks : ps' ⊆ ps) (htimers : ts' ⊆ ts) :
    Spare .rv64 h ps' ts' p :=
  { hs with
    tasks := fun q hq => hs.tasks q (htasks hq)
    timers := fun t ht => hs.timers t (htimers ht) }

namespace Resides

variable {k : Image .rv64} {s s' : State Build.rv64.xlen} {p : Nat}

theorem inHeap (hr : Resides h g k s) (hh : Heap64 h) {o : Allocation}
    (ho : o ∈ objects s.liveTasks s.liveTimers) :
    h.allocStart ≤ o.addr ∧ o.addr + o.size ≤ 2 ^ 64 := by
  have hs := hr.heap.heap.shaped o ho
  have hheld : o.addr + o.size ≤ (o.held h).hi :=
    hs.range_le_held (object_size (hr.heap.objects o ho)).2.2.2.1
  have hpage := hs.held_hi
  have hend : h.base (o.lastPage h + 1) ≤ h.allocEnd :=
    h.base_le_allocEnd (hr.heap.heap.lastPage_lt ho)
  have hspace := h.inSpace
  rw [hh.xlen] at hspace
  exact ⟨hs.inHeap, by omega⟩

theorem spare_static (hr : Resides h g k s) (hh : Heap64 h)
    (hp : p + taskBytes .rv64 ≤ h.heapStart) :
    Spare .rv64 h s.liveTasks s.liveTimers p := by
  obtain ⟨hbelow, hspace⟩ := hh.below
  refine ⟨fun m x _ hhi => h.offTables_below (by omega), show _ ≤ 2 ^ 64 by omega,
    fun q hq => ?_, fun t ht => ?_⟩
  · have hheap : h.allocStart ≤ q := (hr.inHeap hh (task_mem_objects hq)).1
    exact .inl (by omega)
  · have hheap : h.allocStart ≤ t := (hr.inHeap hh (timer_mem_objects ht)).1
    exact .inl (by omega)

theorem saveSpare (hr : Resides h g k s) (hs : Spare .rv64 h s.liveTasks s.liveTimers p)
    {m : Memory} (hout : Memory.SameOutside p (p + taskBytes .rv64) k.mem m) :
    Resides h g { k with mem := m } s := by
  have htask : ∀ q : Nat, q ∈ s.liveTasks → ∀ x, q ≤ x → x < q + taskBytes .rv64 →
      m x = k.mem x := fun q hq x hlo hhi => by
    have hapart := hs.tasks q hq
    exact hout x (by omega)
  refine hr.step { hr.depicts with task := fun q hq => ?_, timer := fun t ht => ?_ }
    (sameTables_of_outside hout (hs.offTables k.mem))
    (fun q _ hq x hlo hhi => htask q hq x (by omega) hhi) rfl rfl
  · exact (hr.depicts.task q hq).trans (readTask_congr (htask q hq)).symm
  · have hapart := hs.timers t ht
    exact (hr.depicts.timer t ht).trans
      (readTimer_congr fun x hlo hhi => hout x (by omega)).symm

theorem saveTask (hr : Resides h g k s) (hh : Heap64 h) (hp : p ∈ s.liveTasks)
    (hg : p ∉ g.tasks) {m : Memory}
    (hout : Memory.SameOutside (p + ctxField .rv64) (p + taskBytes .rv64) k.mem m) :
    Resides h g { k with mem := m } (s.saveContext p (readTask .rv64 m p).ctx) := by
  have hwhole : Memory.SameOutside p (p + taskBytes .rv64) k.mem m :=
    hout.mono (Nat.le_add_right _ _) le_rfl
  have hd := hr.depicts.setTask (hr.spread hh) hp hwhole
  rw [readTask_context fun x hlo hhi => hout x (.inl hhi), ← hr.depicts.task p hp] at hd
  refine hr.step hd (sameTables_of_outside hwhole fun _ hlo hhi =>
    hr.offTables_task hh hp hlo hhi) (fun q hq hlive x hlo hhi => ?_) rfl rfl
  have hapart := (hr.spread hh).tasks p q hp hlive fun heq => hg (heq ▸ hq)
  exact hwhole x (by omega)

theorem spare_freed (hr : Resides h g k s) (hh : Heap64 h) (hp : p ∈ s.liveTasks)
    (htasks : s'.liveTasks ⊆ s.liveTasks) (hoff : p ∉ s'.liveTasks)
    (htimers : s'.liveTimers ⊆ s.liveTimers) :
    Spare .rv64 h s'.liveTasks s'.liveTimers p := by
  have hs := hr.spread hh
  have hmem : (⟨p, taskInfoSize⟩ : Allocation) ∈ objects s.liveTasks s.liveTimers :=
    task_mem_objects hp
  refine ⟨fun m x hlo hhi => hr.heap.offTables_ever hh.fits hmem hlo hhi m, ?_,
    fun q hq => ?_, fun t ht => hs.across p t hp (htimers ht)⟩
  · exact (hr.inHeap hh hmem).2
  · exact hs.tasks p q hp (htasks hq) fun heq => hoff (heq ▸ hq)

end Resides

theorem unlinkTask_live {w : Nat} {s s' : State w} {p : Ptr}
    (hok : unlinkTask s p = .ok s') : s'.tasksNum = s.tasksNum ∧
      s'.liveTasks = s.liveTasks ∧ s'.liveTimers = s.liveTimers := by
  rw [unlinkTask] at hok
  split at hok
  · cases hok
  · split_ifs at hok
    · cases hok
      exact ⟨rfl, rfl, rfl⟩
    · split at hok <;> cases hok
      exact ⟨rfl, rfl, rfl⟩

namespace MemoryHart

variable {b : Build} (s : MemoryHart b)

theorem enterTrap_eq (osTask : Nat) (f : Frame b) (cause : BitVec b.xlen) :
    s.enterTrap osTask f cause = { s with image :=
      { s.image with mem := (s.enterTrap osTask f cause).image.mem } } := rfl

theorem after_stay {s s' : MemoryHart b} (hrunning : s'.running = s.running) :
    s.after (s', .stay) = s' := by
  rw [after, Control.resume, ← hrunning]

theorem enterTrap_spec (hfits : s.context osTask + contextBytes b ≤ 2 ^ b.xlen)
    (f : Frame b) (cause : BitVec b.xlen) :
    Holds (s.enterTrap osTask f cause).image.mem
        (BitVec.ofNat b.xlen (s.context osTask)) f ∧
      Memory.SameOutside (s.context osTask) (s.context osTask + contextBytes b)
        s.image.mem (s.enterTrap osTask f cause).image.mem := by
  have hbytes : 0 < contextBytes b := by
    have hword := wordBytes_pos b
    have hsize := pcField_add b
    omega
  let hart : Core b :=
    { reg := f.reg
      csr := Function.update (fun _ => 0) .mscratch (BitVec.ofNat _ (s.context osTask))
      pc := f.pc
      mem := s.image.mem }
  have hcsr : hart.csr .mscratch = BitVec.ofNat b.xlen (s.context osTask) := by
    simp only [hart, Function.update_self]
  have hscratch : (hart.csr .mscratch).toNat = s.context osTask := by
    rw [hcsr, BitVec.toNat_ofNat]
    exact Nat.mod_eq_of_lt (by omega)
  have hfit : Fits (hart.csr .mscratch) := by
    rw [Fits, hscratch]
    exact hfits
  obtain ⟨hholds, hout, -⟩ := enter_spec hart cause hfit
  rw [hscratch] at hout
  rw [hcsr] at hholds
  exact ⟨hholds, hout⟩

theorem enterTrap_outside (hfits : s.context osTask + contextBytes b ≤ 2 ^ b.xlen)
    (f : Frame b) (cause : BitVec b.xlen) :
    Memory.SameOutside (s.context osTask) (s.context osTask + contextBytes b)
      s.image.mem (s.enterTrap osTask f cause).image.mem :=
  (s.enterTrap_spec hfits f cause).2

end MemoryHart

/-! ## The relation -/

def Housed {b : Build} (h : Heap) (k : State b.xlen) (p : Nat) : Prop :=
  p ∈ k.liveTasks ∨ Spare b h k.liveTasks k.liveTimers p

def Guard.none : Guard := ⟨[], fun _ => 0⟩

def Guard.Spares (g : Guard) (running : Option Ptr) : Prop :=
  ∀ p, running = some p → p ∉ g.tasks

/-- Memory shows the machine, and there is a place for the registers of what runs. -/
structure Shows {b : Build} (h : Heap) (g : Guard) (s : MemoryHart b)
    (a : Machine b.xlen) : Prop where
  resides : Resides h g s.image a.kernel
  start : a.kernel.curTaskStartTick = s.curTaskStartTick
  msip : a.kernel.msip = s.msip
  running : a.running = s.running
  lists : ∃ l m, MachineOwed a l m
  home : ∀ p, a.running = some p → Housed h a.kernel p

def Followed {b : Build} (h : Heap) (g : Guard) (taskStack : Nat) (a : Machine b.xlen)
    (s : MemoryHart b) : Prop :=
  ∃ a', Shows h g s a' ∧ Reaches (stepRel (SavingOp.step taskStack)) anyLabel a a'

theorem MachineOwed.home {l m : List Ptr} (hl : MachineOwed a l m)
    (hoff : a.kernel.msip = false) :
    ∀ p, a.running = some p → Housed h a.kernel p :=
  fun p hp => .inl (hl.tasks.mem_live.mpr (hl.current p hp hoff).2.1)

/-! ## What can fail -/

def Image.Unlisted {b : Build} (k : Image b) : Option Ptr → Prop
  | none => False
  | some t => k.firstTimer ≠ none ∧ ¬Linked k.timerNext k.firstTimer t

def MemoryHart.SleepsInVain {b : Build} (h : Heap) (s : MemoryHart b) (ctx : Nat) : Prop :=
  s.image.mem.load (wordBytes b) (ctx + fieldOffset b .a7) = sysSleep ∧
    (malloc h (timerBytes b) s.image.mem).1 = none

/-- `malloc` has no room for what the operation is to create, or the timer to delete is
not on a list that has others. -/
def MemoryOp.Lacks {b : Build} (h : Heap) (s : MemoryHart b) : MemoryOp b → Prop
  | .delay _ => (malloc h (timerBytes b) s.image.mem).1 = none
  | .createTask _ => s.image.tasksNum.toInt < maxTaskNum ∧
      (malloc h (taskBytes b) s.image.mem).1 = none
  | .createTimer _ _ _ => (malloc h (timerBytes b) s.image.mem).1 = none
  | .deleteTimer t => s.image.Unlisted t
  | .trap f cause => service cause = .syscall ∧ (f.reg .a7).toNat = sysSleep ∧
      (malloc h (timerBytes b) s.image.mem).1 = none
  | .yield => False
  | .exit => False
  | .write _ _ => False

namespace Shows

theorem executes (hs : Shows h g s a) (hex : s.Executes) : a.Executes := by
  rw [Machine.Executes, hs.running, hs.msip]
  exact hex

theorem unguard (hs : Shows h g s a) : Shows h .none s a :=
  { hs with resides := { hs.resides with
      live := by simp [Guard.none]
      saved := by simp [Guard.none] } }

theorem guard (hs : Shows h g s a) (hp : p ∈ a.kernel.liveTasks) :
    Shows h ⟨[p], s.image.mem⟩ s a :=
  { hs with resides := { hs.resides with
      live := by simpa using hp
      saved := fun _ _ _ _ _ => rfl } }

theorem stay (hs : Shows h g s a) : Followed h g taskStack a s := ⟨a, hs, .refl⟩

theorem byOp (hs : Shows h g s a) (taskStack : Nat) {op : SavingOp Build.rv64.xlen}
    (hop : op.Allowed a)
    (hrun : op.run taskStack a = .ok a') (hresides : Resides h g s'.image a'.kernel)
    (hstart : a'.kernel.curTaskStartTick = s'.curTaskStartTick)
    (hmsip : a'.kernel.msip = s'.msip) (hrunning : a'.running = s'.running)
    (hhome : a'.kernel.msip = true →
      ∀ p, a'.running = some p → Housed h a'.kernel p) :
    Shows h g s' a' ∧ Reaches (stepRel (SavingOp.step taskStack)) anyLabel a a' := by
  obtain ⟨l, m, hl⟩ := hs.lists
  obtain ⟨a₁, l', m', hrun₁, hl'⟩ := hl.run_spec taskStack hop
  obtain rfl : a₁ = a' := Except.ok.inj (hrun₁.symm.trans hrun)
  refine ⟨⟨hresides, hstart, hmsip, hrunning, ⟨l', m', hl'⟩, ?_⟩,
    Reaches.tail .refl trivial (guarded_eq_some.mpr ⟨hop, hrun⟩)⟩
  cases hon : a₁.kernel.msip with
  | true => exact hhome hon
  | false => exact hl'.home hon

theorem andThen (hs : Followed h g taskStack a s)
    (hnext : ∀ a', Shows h g s a' → Followed h g taskStack a' s') :
    Followed h g taskStack a s' := by
  obtain ⟨a₁, hs₁, hrun⟩ := hs
  obtain ⟨a₂, hs₂, hrun'⟩ := hnext a₁ hs₁
  exact ⟨a₂, hs₂, hrun.trans hrun'⟩

/-! ## Saving registers -/

/-- The context in `mscratch` is that of a live task or of a spare one. -/
theorem context_cases (hs : Shows h g s a) (hh : Heap64 h)
    (hst : Statics .rv64 h osTask taskStack) :
    ∃ p, s.context osTask = p + ctxField .rv64 ∧
      (s.running = some p ∧ p ∈ a.kernel.liveTasks ∨
        Spare .rv64 h a.kernel.liveTasks a.kernel.liveTimers p) := by
  cases hrun : s.running with
  | none =>
      exact ⟨osTask, by rw [MemoryHart.context, hrun]; rfl,
        .inr (hs.resides.spare_static hh hst.osTask)⟩
  | some p =>
      refine ⟨p, by rw [MemoryHart.context, hrun]; rfl, ?_⟩
      exact (hs.home p (hs.running.trans hrun)).imp (fun hlive => ⟨rfl, hlive⟩) id

theorem context_end (p : Nat) :
    p + ctxField .rv64 + contextBytes .rv64 = p + taskBytes .rv64 := Nat.add_assoc ..

theorem saveRunning (hs : Shows h g s a) (taskStack : Nat) (hh : Heap64 h)
    (hrun : s.running = some p)
    (hlive : p ∈ a.kernel.liveTasks) (hg : p ∉ g.tasks) {m : Memory}
    (hout : Memory.SameOutside (p + ctxField .rv64) (p + taskBytes .rv64) s.image.mem m) :
    ∃ a', Shows h g { s with image := { s.image with mem := m } } a' ∧
      Reaches (stepRel (SavingOp.step taskStack)) anyLabel a a' ∧
      a'.kernel.liveTasks = a.kernel.liveTasks := by
  have hp := hs.running.trans hrun
  let op : SavingOp Build.rv64.xlen := .save p (readTask .rv64 m p).ctx
  obtain ⟨hs', hreach⟩ : Shows h g { s with image := { s.image with mem := m } }
      { a with kernel := a.kernel.saveContext p (readTask .rv64 m p).ctx } ∧
      Reaches (stepRel (SavingOp.step taskStack)) anyLabel a
        { a with kernel := a.kernel.saveContext p (readTask .rv64 m p).ctx } :=
    hs.byOp taskStack (show op.Allowed a from hp) rfl
      (hs.resides.saveTask hh hlive hg hout) hs.start hs.msip hs.running fun _ q hq => by
        obtain rfl : p = q := Option.some.inj (hp.symm.trans hq)
        exact .inl hlive
  exact ⟨_, hs', hreach, rfl⟩

theorem save (hs : Shows h g s a) (hh : Heap64 h)
    (hst : Statics .rv64 h osTask taskStack) (hg : g.Spares s.running) {m : Memory}
    (hout : Memory.SameOutside (s.context osTask)
      (s.context osTask + contextBytes .rv64) s.image.mem m) :
    Followed h g taskStack a { s with image := { s.image with mem := m } } := by
  obtain ⟨p, hctx, ⟨hrun, hlive⟩ | hspare⟩ := hs.context_cases hh hst
  all_goals rw [hctx, context_end] at hout
  · obtain ⟨a', hs', hreach, -⟩ := hs.saveRunning taskStack hh hrun hlive (hg p hrun) hout
    exact ⟨a', hs', hreach⟩
  · have hwhole := hout.mono (Nat.le_add_right _ _) le_rfl
    exact Shows.stay { hs with resides := hs.resides.saveSpare hspare hwhole }

theorem context_fits (hs : Shows h g s a) (hh : Heap64 h)
    (hst : Statics .rv64 h osTask taskStack) :
    s.context osTask + contextBytes .rv64 ≤ 2 ^ 64 := by
  obtain ⟨p, hctx, ⟨-, hlive⟩ | hspare⟩ := hs.context_cases hh hst
  all_goals rw [hctx, context_end]
  · exact (hs.resides.inHeap hh (task_mem_objects hlive)).2
  · exact hspare.inSpace

theorem context_offTables (hs : Shows h g s a) (hh : Heap64 h)
    (hst : Statics .rv64 h osTask taskStack) {x : Nat} (hlo : s.context osTask ≤ x)
    (hhi : x < s.context osTask + contextBytes .rv64) : ¬h.Metadata s.image.mem x := by
  obtain ⟨p, hctx, ⟨-, hlive⟩ | hspare⟩ := hs.context_cases hh hst
  all_goals rw [hctx] at hlo
  all_goals rw [hctx, context_end] at hhi
  · exact hs.resides.offTables_task hh hlive (by omega) hhi
  · exact hspare.offTables _ x (by omega) hhi

theorem enterTrap (hs : Shows h g s a) (hh : Heap64 h)
    (hst : Statics .rv64 h osTask taskStack) (hg : g.Spares s.running) (f : Frame .rv64)
    (cause : BitVec Build.rv64.xlen) :
    Followed h g taskStack a (s.enterTrap osTask f cause) := by
  rw [MemoryHart.enterTrap_eq]
  exact hs.save hh hst hg (s.enterTrap_outside (hs.context_fits hh hst) f cause)

/-! ## sched.c and timer.c -/

theorem toPtr_zero : toPtr (0 : BitVec Build.rv64.xlen) = none := rfl

theorem delay (hs : Shows h g s a) (hh : Heap64 h) (taskStack : Nat) (hex : s.Executes)
    (tick : BitVec Build.rv64.xlen) :
    (∃ s', s.taskDelay h tick = .ok s' ∧ s'.running = s.running ∧
      (malloc h (timerBytes .rv64) s.image.mem).1 ≠ none ∧ Followed h g taskStack a s') ∨
    (s.taskDelay h tick = .error .nullAccess ∧
      (malloc h (timerBytes .rv64) s.image.mem).1 = none) := by
  obtain ⟨l, m, hl⟩ := hs.lists
  have hexa := hs.executes hex
  obtain ⟨cur, hrun, hcur, hmem, -⟩ := hl.executes hexa
  have hlive := hl.tasks.mem_live.mpr hmem
  have hcur' : s.image.curTask = some cur := hs.resides.depicts.curTask ▸ hcur
  have hset : Resides h g (s.image.setTaskState cur sleepingState)
      (a.kernel.setTaskState cur .sleeping) := hs.resides.setTaskState hh hlive (by decide)
  have htimers : TimerInv (a.kernel.setTaskState cur .sleeping) m :=
    hl.timers.congr (fun _ _ => rfl) rfl rfl
  have hsame : SameTables h s.image.mem (s.image.setTaskState cur sleepingState).mem :=
    sameTables_of_outside (sameOutside_task s.image.mem _ (by decide))
      fun _ hlo hhi => hs.resides.offTables_task hh hlive hlo hhi
  have hfull : (malloc h (timerBytes .rv64) _).1 = none ↔ _ :=
    hsame.malloc_none_iff (by decide) (by decide)
  rcases hmalloc : malloc h (timerBytes .rv64)
    (s.image.setTaskState cur sleepingState).mem with ⟨_ | t, mem⟩
  · refine .inr ⟨?_, hfull.mp (by rw [hmalloc])⟩
    rw [MemoryHart.taskDelay, hcur']
    simp only [deref, Image.timerCreate, hmalloc]
  · obtain ⟨hfresh, k', s₁, hcreate, hcreate', hr', htasks, -⟩ :=
      hset.timerCreate hh htimers (fun p hp => by
        obtain rfl : cur = p := Option.some.inj (hcur.symm.trans hp)
        exact hlive) hmalloc 0 0 tick
    obtain ⟨k₁, -, hdelay, -, hsteady, -⟩ := hl.sleep tick hexa hfresh
    have hdelay' : taskDelay a.kernel t tick = .ok (taskYield s₁) := by
      rw [toPtr_zero] at hcreate'
      simp only [Kernel.taskDelay, hcur]
      rw [show timerCreate _ t none 0 tick = .ok s₁ from hcreate']
    obtain rfl : k₁ = taskYield s₁ := Except.ok.inj (hdelay.symm.trans hdelay')
    let op : SavingOp Build.rv64.xlen := .machine (.sleep t tick)
    refine .inl ⟨{ s with image := k', msip := true }, ?_, rfl,
      hfull.not.mp (by simp [hmalloc]), { a with kernel := taskYield s₁ },
      hs.byOp taskStack (show op.Allowed a from ⟨hexa, hfresh⟩)
        ?_ ?_ ?_ rfl hs.running fun _ p hp => ?_⟩
    · rw [MemoryHart.taskDelay, hcur']
      simp only [deref]
      rw [hcreate]
    · rw [SavingOp.run, MachineOp.run, hdelay']
      rfl
    · exact { hr' with depicts := { hr'.depicts with task := hr'.depicts.task } }
    · exact hsteady.start.trans hs.start
    · obtain rfl : cur = p := Option.some.inj (hrun.symm.trans hp)
      exact .inl (show cur ∈ s₁.liveTasks from htasks ▸ hlive)

theorem exit (hs : Shows h g s a) (hh : Heap64 h) (hg : g.Spares s.running)
    (hex : s.Executes) :
    ∃ s', s.taskExit h = .ok s' ∧ Followed h g taskStack a s' := by
  obtain ⟨l, m, hl⟩ := hs.lists
  have hexa := hs.executes hex
  obtain ⟨cur, hrun, hcur, hmem, -⟩ := hl.executes hexa
  have hlive := hl.tasks.mem_live.mpr hmem
  have hcur' : s.image.curTask = some cur := hs.resides.depicts.curTask ▸ hcur
  obtain ⟨k', l', x, hexit, -, hsteady⟩ := hl.exit hexa
  have hunlink := hs.resides.unlinkTask hh hl.tasks hmem
  have hexit' := hexit
  rw [taskExit, hcur] at hexit'
  dsimp only at hexit'
  split at hexit'
  · cases hexit'
  · next s₁ hok =>
      obtain ⟨k₁, hok', hr₁⟩ := hunlink.of_right hok
      obtain ⟨hnum, htasks, htimers⟩ := unlinkTask_live hok
      obtain ⟨k₂, hfree, hr₂⟩ := hr₁.freeTask hh (htasks ▸ hlive)
        (hg cur (hs.running ▸ hrun))
      have hpos : 0 < (freeTask s₁ cur).tasksNum := by
        have hcount := hl.tasks.count
        have hlen := List.length_pos_of_mem hmem
        show 0 < s₁.tasksNum
        omega
      have hr₃ := hr₂.countDown hpos
      have hnodup : a.kernel.liveTasks.Nodup := hl.tasks.live.nodup_iff.mp hl.tasks.nodup
      let k₃ := { freeTask s₁ cur with tasksNum := s₁.tasksNum - 1 }
      obtain rfl : k' = taskYield k₃ := (Except.ok.inj hexit').symm
      let op : SavingOp Build.rv64.xlen := .machine .exit
      refine ⟨{ s with
        image := { k₂ with tasksNum := k₂.tasksNum - 1 }, msip := true }, ?_,
        { a with kernel := taskYield k₃ }, hs.byOp taskStack (show op.Allowed a from hexa)
        (by rw [SavingOp.run, MachineOp.run, hexit]; rfl) ?_
        (hsteady.start.trans hs.start) rfl hs.running fun _ p hp => ?_⟩
      · rw [MemoryHart.taskExit, hcur']
        simp only [hok', hfree]
      · exact { hr₃ with depicts := { hr₃.depicts with task := hr₃.depicts.task } }
      · obtain rfl : cur = p := Option.some.inj (hrun.symm.trans hp)
        refine .inr (hs.resides.spare_freed hh hlive ?_ ?_ ?_)
        · exact fun q hq => htasks ▸ List.mem_of_mem_erase hq
        · exact fun hq => (htasks ▸ hnodup : s₁.liveTasks.Nodup).not_mem_erase hq
        · exact fun q hq => htimers ▸ hq

theorem createTask_room (hs : Shows h g s a) (hh : Heap64 h)
    (hst : Statics .rv64 h osTask taskStack) (hoff : s.msip = false)
    (hid : 0 < s.image.taskId.toInt) (hroom : s.image.tasksNum.toInt < maxTaskNum)
    {mem : Memory} (hmalloc : malloc h (taskBytes .rv64) s.image.mem = (some p, mem))
    (c : Image.TaskCall .rv64) :
    ∃ k' a', s.image.taskCreate h taskStack c = .ok (0, k') ∧
      Shows h g { s with image := k' } a' ∧
      Reaches (stepRel (SavingOp.step taskStack)) anyLabel a a' ∧
      p ∈ a'.kernel.liveTasks ∧
      (a'.kernel.task p).ctx.sp = stackTop taskStack s.image.tasksNum.toInt ∧
      (a'.kernel.task p).ctx.pc = c.task.toNat ∧
      (c.param ≠ 0 → (a'.kernel.task p).ctx.a0 = c.param.toNat) := by
  obtain ⟨l, m, hl⟩ := hs.lists
  have hoffa : a.kernel.msip = false := hs.msip.trans hoff
  have hstack : taskStack + maxTaskNum * stackSize ≤ 2 ^ 64 :=
    hst.taskStack.trans hh.below.2
  have hrooma : a.kernel.tasksNum < maxTaskNum := by
    rw [hs.resides.depicts.tasksNum]
    exact hroom
  obtain ⟨hfresh, k', s₁, hcreate, hcreate', hr', hmsip, hlive, hctx⟩ :=
    hs.resides.taskCreate hh hl.tasks hstack hrooma hmalloc c
  -- the object first holds what is in memory there
  have hold : p ∉ a.kernel.liveTasks := hfresh.2.2.1
  let blank : SavingOp Build.rv64.xlen :=
    .machine (.overwriteTask p (readTask .rv64 mem p))
  let a₁ : Machine Build.rv64.xlen :=
    { a with kernel := a.kernel.setTask p (readTask .rv64 mem p) }
  obtain ⟨hs₁, hrun₁⟩ : Shows h g s a₁ ∧
      Reaches (stepRel (SavingOp.step taskStack)) anyLabel a a₁ := hs.byOp taskStack
    (show blank.Allowed a from hold) rfl (hs.resides.overwriteTask hold _) hs.start
    hs.msip hs.running fun _ => hs.home
  obtain ⟨l₁, m₁, hl₁⟩ := hs₁.lists
  have hida : 0 < a.kernel.taskId.toInt := by
    rw [hs.resides.depicts.taskId]
    exact hid
  obtain ⟨k₁, -, r, -, hcreate₁, -, hsteady, -⟩ :=
    @MachineLists.createTask _ _ _ _ hl₁.toMachineLists taskStack p c.args hoffa
      fun _ => ⟨hfresh, hida⟩
  obtain ⟨rfl, rfl⟩ : 0 = r ∧ s₁ = k₁ :=
    Prod.mk.inj (Except.ok.inj (hcreate'.symm.trans hcreate₁))
  let op : SavingOp Build.rv64.xlen := .machine (.createTask p c.args)
  have hmsip' : s₁.msip = s.msip := hmsip.trans hs.msip
  obtain ⟨hs₂, hrun₂⟩ : Shows h g { s with image := k' } { a with kernel := s₁ } ∧
      Reaches (stepRel (SavingOp.step taskStack)) anyLabel a₁ { a with kernel := s₁ } :=
    hs₁.byOp taskStack (show op.Allowed a₁ from ⟨hoffa, fun _ => ⟨hfresh, hida⟩⟩)
    (by rw [SavingOp.run, MachineOp.run, hcreate']; rfl) hr'
    (hsteady.start.trans hs.start) hmsip' hs.running
    fun hon => absurd hon (by simp [hmsip', hoff])
  refine ⟨k', { a with kernel := s₁ }, hcreate, hs₂, hrun₁.trans hrun₂, hlive, ?_, ?_,
    fun hparam => ?_⟩
  · rw [hctx, startInfo, State.setTask, hs.resides.depicts.tasksNum]
  · rw [hctx, startInfo, Image.TaskCall.args]
  · rw [hctx, startInfo, Image.TaskCall.args, if_neg hparam, Option.getD_some]

theorem createTask (hs : Shows h g s a) (hh : Heap64 h)
    (hst : Statics .rv64 h osTask taskStack) (hoff : s.msip = false)
    (hid : s.image.tasksNum.toInt < maxTaskNum → 0 < s.image.taskId.toInt)
    (c : Image.TaskCall .rv64) :
    (∃ r k', s.image.taskCreate h taskStack c = .ok (r, k') ∧
      ¬(s.image.tasksNum.toInt < maxTaskNum ∧
        (malloc h (taskBytes .rv64) s.image.mem).1 = none) ∧
      Followed h g taskStack a { s with image := k' }) ∨
    (s.image.taskCreate h taskStack c = .error .nullAccess ∧
      s.image.tasksNum.toInt < maxTaskNum ∧
      (malloc h (taskBytes .rv64) s.image.mem).1 = none) := by
  by_cases hroom : s.image.tasksNum.toInt ≥ maxTaskNum
  · exact .inl ⟨-1, s.image, by rw [Image.taskCreate, if_pos hroom],
      fun hfull => absurd hfull.1 hroom.not_gt, hs.stay⟩
  rcases hmalloc : malloc h (taskBytes .rv64) s.image.mem with ⟨_ | p, mem⟩
  · refine .inr ⟨?_, not_le.mp hroom, rfl⟩
    rw [Image.taskCreate, if_neg hroom]
    simp only [hmalloc, deref]
  · have hlt := not_le.mp hroom
    obtain ⟨k', a', hcreate, hs', hreach, -⟩ :=
      hs.createTask_room hh hst hoff (hid hlt) hlt hmalloc c
    exact .inl ⟨0, k', hcreate, by simp, a', hs', hreach⟩

theorem createTimer (hs : Shows h g s a) (hh : Heap64 h) (hex : s.Executes)
    {func : BitVec Build.rv64.xlen} (hfunc : func ≠ 0)
    (args timeout : BitVec Build.rv64.xlen) :
    (∃ t k', s.image.timerCreate h func args timeout = .ok (t, k') ∧
      (malloc h (timerBytes .rv64) s.image.mem).1 ≠ none ∧
      Followed h g taskStack a { s with image := k' }) ∨
    (s.image.timerCreate h func args timeout = .error .nullAccess ∧
      (malloc h (timerBytes .rv64) s.image.mem).1 = none) := by
  obtain ⟨l, m, hl⟩ := hs.lists
  have hexa := hs.executes hex
  obtain ⟨cur, hrun, hcur, hmem, -⟩ := hl.executes hexa
  have hlive := hl.tasks.mem_live.mpr hmem
  rcases hmalloc : malloc h (timerBytes .rv64) s.image.mem with ⟨_ | t, mem⟩
  · refine .inr ⟨?_, rfl⟩
    simp only [Image.timerCreate, hmalloc, deref]
  · obtain ⟨hfresh, k', s₁, hcreate, hcreate', hr', -, hmsip⟩ :=
      hs.resides.timerCreate hh hl.timers (fun p hp => by
        obtain rfl : cur = p := Option.some.inj (hcur.symm.trans hp)
        exact hlive) hmalloc func args timeout
    have hptr : toPtr func = some func.toNat := if_neg hfunc
    rw [hptr] at hcreate'
    obtain ⟨k₁, -, hcreate₁, -, hsteady, -⟩ :=
      hl.createTimer (some func.toNat) args.toNat timeout hexa hfresh
    obtain rfl : s₁ = k₁ := Except.ok.inj (hcreate'.symm.trans hcreate₁)
    have hmsip' : s₁.msip = s.msip := hmsip.trans hs.msip
    let op : SavingOp Build.rv64.xlen :=
      .machine (.createTimer t func.toNat args.toNat timeout)
    refine .inl ⟨some t, k', hcreate, by simp, { a with kernel := s₁ },
      hs.byOp taskStack (show op.Allowed a from ⟨hexa, hfresh⟩) ?_ hr'
        (hsteady.start.trans hs.start) hmsip' hs.running
        fun hon => absurd hon (by simp [hmsip', hex.2])⟩
    rw [SavingOp.run, MachineOp.run, hcreate₁]
    rfl

/-- `timer_delete` without a timer, or without any timer on the list, does nothing. -/
theorem deleteTimer (hs : Shows h g s a) (hh : Heap64 h) (hex : s.Executes)
    (t : Option Ptr) :
    (∃ k', s.image.timerDelete h t = .ok k' ∧ ¬s.image.Unlisted t ∧
      Followed h g taskStack a { s with image := k' }) ∨
    (s.image.timerDelete h t = .error .nullAccess ∧ s.image.Unlisted t) := by
  obtain ⟨l, m, hl⟩ := hs.lists
  have hagree := hs.resides.timerDelete hh hl.timers t
  have hnone : timerDelete a.kernel t = .ok a.kernel → ¬s.image.Unlisted t →
      ∃ k', s.image.timerDelete h t = .ok k' ∧ ¬s.image.Unlisted t ∧
        Followed h g taskStack a { s with image := k' } := fun hok hlisted => by
    obtain ⟨k', hok', hr'⟩ := hagree.of_right hok
    exact ⟨k', hok', hlisted, Shows.stay { hs with resides := hr' }⟩
  have htimers := hs.resides.timers hl.timers.path fun _ ht => hl.timers.mem_live.mpr ht
  cases t with
  | none => exact .inl (hnone (TimerList.timerDelete_null _) fun hun => hun.elim)
  | some t =>
      by_cases hmem : t ∈ m
      · obtain ⟨s₁, hdelete, hrel, -⟩ := hl.timers.timerDelete_spec hmem
        obtain ⟨k', hok', hr'⟩ := hagree.of_right hdelete
        have hmsip : s₁.msip = s.msip := by
          rw [hrel.rest]
          exact hs.msip
        have hstart : s₁.curTaskStartTick = s.curTaskStartTick := by
          rw [hrel.rest]
          exact hs.start
        let op : SavingOp Build.rv64.xlen := .machine (.deleteTimer t)
        refine .inl ⟨k', hok', fun hun => hun.2 (htimers.linked_iff.mpr hmem),
          { a with kernel := s₁ }, hs.byOp taskStack
            (show op.Allowed a from ⟨hs.executes hex, hl.timers.mem_live.mpr hmem⟩)
            ?_ hr' hstart hmsip hs.running fun hon => absurd hon (by simp [hmsip, hex.2])⟩
        rw [SavingOp.run, MachineOp.run, hdelete]
        rfl
      · cases m with
        | nil =>
            have hempty : s.image.firstTimer = none := htimers
            exact .inl (hnone (hl.timers.list.timerDelete_nil _) fun hun => hun.1 hempty)
        | cons y rest =>
            have habsent := hl.timers.list.timerDelete_absent (by simp) hmem
            have hfirst : s.image.firstTimer = some y := htimers.1
            exact .inr ⟨hagree.of_right_error habsent, by simp [hfirst],
              htimers.linked_iff.not.mpr hmem⟩

theorem yield (hs : Shows h g s a) (hoff : s.msip = false) :
    Followed h g taskStack a { s with msip := true } := by
  have hr : Resides h g s.image (taskYield a.kernel) :=
    { hs.resides with
      depicts := { hs.resides.depicts with task := hs.resides.depicts.task } }
  let op : SavingOp Build.rv64.xlen := .machine .yield
  exact ⟨_, hs.byOp taskStack (show op.Allowed a from hs.msip.trans hoff) rfl hr
    hs.start rfl hs.running fun _ => hs.home⟩

theorem write (hs : Shows h g s a) {x : Nat} {v : Byte} (hoff : ¬h.Metadata s.image.mem x)
    (hout : ¬s.InObject x) :
    Followed h g taskStack a { s with image :=
      { s.image with mem := s.image.mem.modify x fun _ => v } } := by
  obtain ⟨l, m, hl⟩ := hs.lists
  have htasks := hs.resides.tasks hl.tasks.path fun _ hq => hl.tasks.mem_live.mpr hq
  have htimers := hs.resides.timers hl.timers.path fun _ ht => hl.timers.mem_live.mpr ht
  have hother : ∀ y, y ≠ x → s.image.mem.modify x (fun _ => v) y = s.image.mem y :=
    fun y hy => Memory.modify_of_ne hy
  have htask : ∀ q : Nat, q ∈ a.kernel.liveTasks → ∀ y, q ≤ y →
      y < q + taskBytes .rv64 → s.image.mem.modify x (fun _ => v) y = s.image.mem y := by
    intro q hq y hlo hhi
    refine hother y ?_
    rintro rfl
    exact hout (.inl ⟨q, htasks.linked_iff.mpr (hl.tasks.mem_live.mp hq), hlo, hhi⟩)
  refine Shows.stay { hs with resides := (hs.resides.step
    { hs.resides.depicts with task := fun q hq => ?_, timer := fun t ht => ?_ }
    (sameTables_iff.mpr fun y hy => hother y ?_)
    (fun q _ hq y hlo hhi => htask q hq y (by omega) hhi) rfl rfl) }
  · exact (hs.resides.depicts.task q hq).trans (readTask_congr (htask q hq)).symm
  · refine (hs.resides.depicts.timer t ht).trans
      (readTimer_congr fun y hlo hhi => hother y ?_).symm
    rintro rfl
    exact hout (.inr ⟨t, htimers.linked_iff.mpr (hl.timers.mem_live.mp ht), hlo, hhi⟩)
  · rintro rfl
    exact hoff hy

/-! ## Interrupts -/

theorem softwareInterrupt (hs : Shows h g s a) (hh : Heap64 h) (hon : s.msip = true) :
    ∃ r, s.softwareInterruptHandler = .ok r ∧ Followed h g taskStack a (s.after r) := by
  obtain ⟨l, m, hl⟩ := hs.lists
  let k : State Build.rv64.xlen := { a.kernel with msip := false }
  have hr : Resides h g s.image k :=
    { hs.resides with
      depicts := { hs.resides.depicts with task := hs.resides.depicts.task } }
  have htasks : TaskInv k l := hl.tasks.congr (fun _ _ => rfl) rfl rfl rfl rfl
  obtain ⟨k', l', c, hsched, -, hcase⟩ := htasks.schedule_cases
  obtain ⟨⟨k₁, c₁⟩, hsched', hr', rfl⟩ := (hr.schedule hh htasks).of_right hsched
  have hrest : k'.msip = false ∧ k'.curTaskStartTick = s.curTaskStartTick := by
    cases hcase with
    | noTask _ hk => exact hk ▸ ⟨rfl, hs.start⟩
    | allSleep _ _ hk => exact hk ▸ ⟨rfl, hs.start⟩
    | run _ _ hrel hk =>
        rw [hk, hrel.rest, lowerPriority_eq]
        exact ⟨rfl, hs.start⟩
  let op : SavingOp Build.rv64.xlen := .machine .softwareInterrupt
  refine ⟨({ s with image := k₁, msip := false }, c₁),
    by rw [MemoryHart.softwareInterruptHandler, hsched'], a.after (k', c₁),
    hs.byOp taskStack (show op.Allowed a from hs.msip.trans hon) ?_ hr' hrest.2 hrest.1 ?_
      fun hon' => absurd hon' (by simp [Machine.after, hrest.1])⟩
  · rw [SavingOp.run, MachineOp.run, softwareInterruptHandler, hsched]
    rfl
  · exact congrArg (c₁.resume ·) hs.running

/-- The machine can take over what memory holds for the current task. -/
theorem syncCurTask (hs : Shows h g s a) (taskStack : Nat) :
    ∃ a', Shows h g s a' ∧ Reaches (stepRel (SavingOp.step taskStack)) anyLabel a a' ∧
      ∀ cur, a'.kernel.curTask = some cur →
        a'.kernel.task cur = readTask .rv64 s.image.mem cur := by
  cases hcur : a.kernel.curTask with
  | none => exact ⟨a, hs, .refl, fun cur h => nomatch hcur.symm.trans h⟩
  | some cur =>
      by_cases hlive : cur ∈ a.kernel.liveTasks
      · refine ⟨a, hs, .refl, fun p hp => ?_⟩
        obtain rfl : cur = p := Option.some.inj (hcur.symm.trans hp)
        exact hs.resides.depicts.task cur hlive
      · let op : SavingOp Build.rv64.xlen :=
          .machine (.overwriteTask cur (readTask .rv64 s.image.mem cur))
        obtain ⟨hs', hrun⟩ := hs.byOp taskStack
          (show op.Allowed a from hlive) rfl (hs.resides.overwriteTask hlive _) hs.start
          hs.msip hs.running fun _ => hs.home
        refine ⟨_, hs', hrun, fun p hp => ?_⟩
        obtain rfl : cur = p := Option.some.inj (hcur.symm.trans hp)
        exact Function.update_self ..

theorem timerInterrupt (hs : Shows h g s a) (hh : Heap64 h) :
    ∃ r, s.timerHandler h = .ok r ∧ Followed h g taskStack a (s.after r) := by
  obtain ⟨a₁, hs₁, hrun₁, hcurrent⟩ := hs.syncCurTask taskStack
  suffices hnext : ∃ r, s.timerHandler h = .ok r ∧ Followed h g taskStack a₁ (s.after r) by
    obtain ⟨r, hr, a₂, hs₂, hrun₂⟩ := hnext
    exact ⟨r, hr, a₂, hs₂, hrun₁.trans hrun₂⟩
  obtain ⟨l, m, hl⟩ := hs₁.lists
  let k : State Build.rv64.xlen := { a₁.kernel with ticks := a₁.kernel.ticks + 1 }
  have hr : Resides h g { s.image with ticks := s.image.ticks + 1 } k :=
    { hs₁.resides with depicts := hs₁.resides.depicts.countTick }
  have hwakes : WakesLive k m := fun t ht hnone p hp =>
    hl.tasks.mem_live.mpr (hl.owed.asleep ht ⟨hnone, hp⟩).1
  have hcheck := hr.timerCheck hh hl.timers.nextTick hwakes
  obtain ⟨k', c, hok, -⟩ := hl.timers.timerHandler_first hl.tasksAsleep
  let op : SavingOp Build.rv64.xlen := .machine .timerInterrupt
  have hnobody : ∀ {k : State Build.rv64.xlen}, k.msip = true →
      ∀ p, none = some p → Housed h k p := fun _ p hp =>
    absurd hp.symm (Option.some_ne_none p)
  have hstep : op.run taskStack a₁ = .ok (a₁.after (k', c)) := by
    rw [SavingOp.run, MachineOp.run, hok]
    rfl
  rw [Kernel.timerHandler] at hok
  split at hok
  · cases hok
  · next q k₁ calls hfound =>
      obtain ⟨⟨_, k₂, calls⟩, hfound', hch⟩ := hcheck.of_right hfound
      obtain rfl := hch.task
      have hlive : q ∈ k₁.liveTasks := hch.tasks ▸ hch.live q rfl
      have hset : Resides h g (k₂.setTaskState q runnableState)
          (k₁.setTaskState q .runnable) :=
        hch.resides.setTaskState hh hlive (by decide)
      cases hok
      refine ⟨({ s with
          image := { k₂.setTaskState q runnableState with curTask := some q } }, .os),
        by rw [MemoryHart.timerHandler, hfound'], _,
        hs₁.byOp taskStack (show op.Allowed a₁ from trivial) hstep
          { hset with depicts := hset.depicts.setCurTask (some q) } (hch.start.trans hs₁.start)
          (hch.msip.trans hs₁.msip) rfl hnobody⟩
  · next k₁ calls hquiet =>
      obtain ⟨⟨_, k₂, calls⟩, hquiet', hch⟩ := hcheck.of_right hquiet
      obtain rfl := hch.task
      obtain ⟨hk₂, hk₁⟩ := hch.quiet rfl
      dsimp only at hk₁ hk₂
      subst hk₁ hk₂
      cases hnow : k.curTask with
      | none =>
          have hnow' : s.image.curTask = none := hr.depicts.curTask ▸ hnow
          simp only [hnow] at hok
          cases hok
          refine ⟨({ s with
              image := { s.image with ticks := s.image.ticks + 1 } }, .os), ?_, _,
            hs₁.byOp taskStack (show op.Allowed a₁ from trivial) hstep hr hs₁.start
              hs₁.msip rfl hnobody⟩
          rw [MemoryHart.timerHandler, hquiet']
          simp only [hnow']
      | some cur =>
          have hnow' : s.image.curTask = some cur := hr.depicts.curTask ▸ hnow
          have hslice : (k.task cur).timeslice = s.image.taskTimeslice cur :=
            congrArg TaskInfo.timeslice (hcurrent cur hnow)
          simp only [hnow, hslice, hr.depicts.ticks, show k.curTaskStartTick =
            s.curTaskStartTick from hs₁.start] at hok
          split_ifs at hok with hover
          · cases hok
            refine ⟨({ s with
                image := { s.image with ticks := s.image.ticks + 1 }
                curTaskStartTick := s.image.ticks + 1 }, .os), ?_, _,
              hs₁.byOp taskStack (show op.Allowed a₁ from trivial) hstep
                { hr with
                  depicts := { hr.depicts with curTask := hnow'.symm, ticks := rfl } } rfl
                hs₁.msip rfl hnobody⟩
            rw [MemoryHart.timerHandler, hquiet']
            simp only [hnow']
            exact if_pos hover
          · cases hok
            refine ⟨({ s with
                image := { s.image with ticks := s.image.ticks + 1 } }, .stay), ?_, _,
              hs₁.byOp taskStack (show op.Allowed a₁ from trivial) hstep hr hs₁.start
                hs₁.msip hs₁.running fun _ => hs₁.home⟩
            rw [MemoryHart.timerHandler, hquiet']
            simp only [hnow']
            exact if_neg hover

theorem syscall (hs : Shows h g s a) (hh : Heap64 h)
    (hst : Statics .rv64 h osTask taskStack) (hg : g.Spares s.running)
    (hex : s.Executes) :
    (∃ s', s.doSyscall h (s.context osTask) = .ok s' ∧ s'.running = s.running ∧
      ¬s.SleepsInVain h (s.context osTask) ∧ Followed h g taskStack a s') ∨
    (s.doSyscall h (s.context osTask) = .error .nullAccess ∧
      s.SleepsInVain h (s.context osTask)) := by
  -- the result goes to `a0` of the context
  have hresult : ∀ (s : MemoryHart .rv64) (a : Machine Build.rv64.xlen) (v : Nat),
      Shows h g s a → g.Spares s.running →
      Followed h g taskStack a { s with image := { s.image with
        mem := s.image.mem.store (wordBytes .rv64)
          (s.context osTask + fieldOffset .rv64 .a0) v } } := fun s a v hs hg => by
    have hfield := fieldOffset_lt .rv64 .a0
    have hsize := pcField_add .rv64
    exact hs.save hh hst hg ((Memory.SameOutside.store _ _ _ v).mono (by omega) (by omega))
  simp only [MemoryHart.doSyscall, MemoryHart.SleepsInVain]
  split_ifs with hsleep
  · rcases hs.delay hh taskStack hex (BitVec.ofNat _ (s.image.mem.load
      (wordBytes .rv64) (s.context osTask + fieldOffset .rv64 .a0))) with
      ⟨s₁, hdelay, hrunning, hroom, hfollow⟩ | ⟨hfail, hfull⟩
    · have hctx : s₁.context osTask = s.context osTask := by
        rw [MemoryHart.context, hrunning, MemoryHart.context]
      rw [hdelay]
      exact .inl ⟨_, rfl, hrunning, fun hvain => hroom hvain.2, andThen hfollow
        fun a₁ hs₁ => hctx ▸ hresult s₁ a₁ _ hs₁ (hrunning ▸ hg)⟩
    · rw [hfail]
      exact .inr ⟨rfl, hsleep, hfull⟩
  · exact .inl ⟨_, rfl, rfl, fun hvain => hsleep hvain.1, hresult s a _ hs hg⟩

theorem trapHandler (hs : Shows h g s a) (hh : Heap64 h)
    (hst : Statics .rv64 h osTask taskStack) {cause : BitVec Build.rv64.xlen}
    (hg : service cause = .syscall → g.Spares s.running) (hpanic : service cause ≠ .panic)
    (hsoftware : service cause = .software → s.msip = true)
    (hsyscall : service cause = .syscall → s.Executes) :
    (∃ r, s.trapHandler h (s.context osTask) cause = .ok r ∧
      ¬(service cause = .syscall ∧ s.SleepsInVain h (s.context osTask)) ∧
      Followed h g taskStack a (s.after r)) ∨
    (s.trapHandler h (s.context osTask) cause = .error .nullAccess ∧
      service cause = .syscall ∧ s.SleepsInVain h (s.context osTask)) := by
  rw [MemoryHart.trapHandler]
  cases hserve : service cause with
  | software =>
      obtain ⟨r, hok, hfollow⟩ := hs.softwareInterrupt hh (hsoftware hserve)
      exact .inl ⟨r, hok, by simp, hfollow⟩
  | timer =>
      obtain ⟨r, hok, hfollow⟩ := hs.timerInterrupt hh
      exact .inl ⟨r, hok, by simp, hfollow⟩
  | external => exact .inl ⟨_, rfl, by simp, MemoryHart.after_stay rfl ▸ hs.stay⟩
  | unknown => exact .inl ⟨_, rfl, by simp, MemoryHart.after_stay rfl ▸ hs.stay⟩
  | panic => exact absurd hserve hpanic
  | syscall =>
      rcases hs.syscall hh hst (hg hserve) (hsyscall hserve) with
        ⟨s₁, hok, hrunning, hroom, hfollow⟩ | ⟨hfail, hvain⟩
      · exact .inl ⟨(s₁, .stay), by rw [hok]; rfl, fun hvain => hroom hvain.2,
          (MemoryHart.after_stay hrunning).symm ▸ hfollow⟩
      · exact .inr ⟨by rw [hfail]; rfl, rfl, hvain⟩

/-- The call number is that of the interrupted registers, and saving them does not change
what `malloc` finds. -/
theorem sleepsInVain_iff (hs : Shows h g s a) (hh : Heap64 h)
    (hst : Statics .rv64 h osTask taskStack) (f : Frame .rv64)
    (cause : BitVec Build.rv64.xlen) :
    (s.enterTrap osTask f cause).SleepsInVain h (s.context osTask) ↔
      (f.reg .a7).toNat = sysSleep ∧
        (malloc h (timerBytes .rv64) s.image.mem).1 = none := by
  have hfits := hs.context_fits hh hst
  obtain ⟨hholds, hout⟩ := s.enterTrap_spec hfits f cause
  have hsame : SameTables h s.image.mem (s.enterTrap osTask f cause).image.mem :=
    sameTables_of_outside hout fun _ hlo hhi => hs.context_offTables hh hst hlo hhi
  have hctx : (BitVec.ofNat Build.rv64.xlen (s.context osTask)).toNat =
      s.context osTask := by
    have hpos := wordBytes_pos .rv64
    have hsize := pcField_add .rv64
    exact (BitVec.toNat_ofNat ..).trans
      (Nat.mod_eq_of_lt (show s.context osTask < 2 ^ 64 by omega))
  have hcall := hholds.regs .a7 (mem_contextFields .a7)
  rw [hctx] at hcall
  rw [MemoryHart.SleepsInVain, hcall]
  exact and_congr_right fun _ => hsame.malloc_none_iff (by decide) (by decide)

theorem trap (hs : Shows h g s a) (hh : Heap64 h) (hst : Statics .rv64 h osTask taskStack)
    (hg : g.Spares s.running) (f : Frame .rv64) {cause : BitVec Build.rv64.xlen}
    (hop : (MemoryOp.trap f cause).Allowed h s) :
    (∃ s', (MemoryOp.trap f cause).run h osTask taskStack s = .ok s' ∧
      ¬(MemoryOp.trap f cause).Lacks h s ∧ Followed h g taskStack a s') ∨
    ((MemoryOp.trap f cause).run h osTask taskStack s = .error .nullAccess ∧
      (MemoryOp.trap f cause).Lacks h s) := by
  obtain ⟨hpanic, hsoftware, hsyscall⟩ := hop
  have hvain := hs.sleepsInVain_iff hh hst f cause
  obtain ⟨a₁, hs₁, hrun₁⟩ := hs.enterTrap hh hst hg f cause
  have hctx : s.context osTask = (s.enterTrap osTask f cause).context osTask := rfl
  have hafter : ∀ r, (s.enterTrap osTask f cause).after r = s.after r := fun _ => rfl
  rw [MemoryOp.run, hctx]
  rcases hs₁.trapHandler hh hst (fun _ => hg) hpanic hsoftware hsyscall with
    ⟨r, hok, hroom, a₂, hs₂, hrun₂⟩ | ⟨hfail, hserve, hfull⟩
  · exact .inl ⟨s.after r, by rw [hok]; rfl, fun hlacks =>
      hroom ⟨hlacks.1, hvain.mpr hlacks.2⟩, a₂, hafter r ▸ hs₂, hrun₁.trans hrun₂⟩
  · exact .inr ⟨by rw [hfail]; rfl, hserve, hvain.mp hfull⟩

/-! ## Any operation -/

theorem follow (hs : Shows h g s a) (hh : Heap64 h)
    (hst : Statics .rv64 h osTask taskStack) (hg : g.Spares s.running)
    {op : MemoryOp .rv64} (hop : op.Allowed h s) :
    (∃ s', op.run h osTask taskStack s = .ok s' ∧ ¬op.Lacks h s ∧
      Followed h g taskStack a s') ∨
      (op.run h osTask taskStack s = .error .nullAccess ∧ op.Lacks h s) := by
  cases op with
  | delay tick =>
      exact (hs.delay hh taskStack hop tick).imp
        (fun ⟨s', hok, _, hroom, hfollow⟩ => ⟨s', hok, hroom, hfollow⟩) id
  | yield => exact .inl ⟨_, rfl, id, hs.yield hop⟩
  | exit =>
      obtain ⟨s', hok, hfollow⟩ := hs.exit hh hg hop
      exact .inl ⟨s', hok, id, hfollow⟩
  | createTask c =>
      refine (hs.createTask hh hst hop.1 hop.2 c).imp (fun ⟨r, k', hok, hroom, hfollow⟩ =>
        ⟨_, ?_, hroom, hfollow⟩) fun ⟨hfail, hfull⟩ => ⟨?_, hfull⟩
      · rw [MemoryOp.run, hok]
        rfl
      · rw [MemoryOp.run, hfail]
        rfl
  | createTimer func args timeout =>
      refine (hs.createTimer hh hop.1 hop.2 args timeout).imp (fun
        ⟨t, k', hok, hroom, hfollow⟩ => ⟨_, ?_, hroom, hfollow⟩)
        fun ⟨hfail, hfull⟩ => ⟨?_, hfull⟩
      · rw [MemoryOp.run, hok]
        rfl
      · rw [MemoryOp.run, hfail]
        rfl
  | deleteTimer t =>
      refine (hs.deleteTimer hh hop t).imp (fun ⟨k', hok, hlisted, hfollow⟩ =>
        ⟨_, ?_, hlisted, hfollow⟩) fun ⟨hfail, habsent⟩ => ⟨?_, habsent⟩
      · rw [MemoryOp.run, hok]
        rfl
      · rw [MemoryOp.run, hfail]
        rfl
  | trap f cause => exact hs.trap hh hst hg f hop
  | write x v => exact .inl ⟨_, rfl, id, hs.write hop.1 hop.2⟩

end Shows

end XinOS.Kernel
