import XinOS.Kernel.WakeUp
import XinOS.Trap.Handler

/-!
# How long a task sleeps

The timer of a sleeping task is due when the tick counter has reached its timeout,
which `timer_create` computes in the width of the counter.
-/

namespace XinOS.Kernel

open XinOS.Foundation

variable {w : Nat} {s s' : Machine w} {l l' m m' : List Ptr} {p : Ptr}
variable {D : Set (BitVec w)}

/-- `do_syscall` of the current task, as far as the kernel's lists go; a call of
`malloc` in it returns `t`. -/
def doSyscall (k : State w) (callNum a0 : BitVec w) (t : Ptr) :
    Except Fault (State w) :=
  if callNum.toNat = Trap.sysSleep then taskDelay k t a0 else .ok k

structure Napping (s : Machine w) (l m : List Ptr) (p : Ptr) (D : Set (BitVec w)) :
    Prop where
  mem : p ∈ l
  asleep : Asleep s.kernel p
  timeout : ∀ t ∈ m, Wakes s.kernel t p → (s.kernel.timer t).timeout ∈ D

theorem Napping.follows {change : Change} (h : Napping s l m p D)
    (hstep : Follows s l m s' l' m' change)
    (hearly : ∀ t, change = .woke t → ∀ d ∈ D, ¬d ≤ s'.kernel.ticks) :
    Napping s' l' m' p D := by
  have hold : ∀ t ∈ m, Wakes s'.kernel t p →
      (s'.kernel.timer t).timeout ∈ D := by
    intro t ht hwakes
    rw [Wakes, hstep.timer t ht] at hwakes
    rw [hstep.timer t ht]
    exact h.timeout t ht hwakes
  have hasleep := h.asleep
  cases hstep.effect with
  | still hl hm hstate =>
      exact ⟨(hl p).mpr h.mem, (hstate p h.mem).mpr hasleep, hm ▸ hold⟩
  | joined hl hx hm hstate =>
      exact ⟨(hl p).mpr (.inr h.mem), (hstate p).mpr hasleep, hm ▸ hold⟩
  | left hl hx hm hstate =>
      exact ⟨(hl p).mpr ⟨fun heq => hx (heq ▸ hasleep), h.mem⟩,
        (hstate p).mpr hasleep, hm ▸ hold⟩
  | armed hl hawake hm hx htask hstate =>
      refine ⟨hl ▸ h.mem, (hstate p).mpr hasleep, fun t ht hwakes => ?_⟩
      rcases (hm t).mp ht with rfl | ht
      · exact absurd (Option.some.inj (htask.symm.trans hwakes.2) ▸ hasleep) hawake
      · exact hold t ht hwakes
  | slept hl hcur hawake hm hx hnew hstate =>
      refine ⟨hl ▸ h.mem, (hstate p).mpr (.inr hasleep), fun t ht hwakes => ?_⟩
      rcases (hm t).mp ht with rfl | ht
      · exact absurd (Option.some.inj (hnew.2.symm.trans hwakes.2) ▸ hasleep)
          hawake
      · exact hold t ht hwakes
  | disarmed hl hx hm hstate =>
      exact ⟨hl ▸ h.mem, (hstate p).mpr hasleep,
        fun t ht => hold t ((hm t).mp ht).2⟩
  | @woke x q hl hx hwake hdue hm hstate =>
      have hne : p ≠ q := by
        rintro rfl
        exact hearly x rfl _ (h.timeout x hx hwake) hdue
      exact ⟨hl ▸ h.mem, (hstate p).mpr ⟨hne, hasleep⟩,
        fun t ht => hold t ((hm t).mp ht).2⟩

def tickCount (ops : List (HartOp w)) : Nat := ops.countP HartOp.isTick

/-- The timeout `d` is not reached in the ticks of a delay of `n` from `T` on but the
last. -/
def Unreached (T n d : BitVec w) : Prop :=
  ∀ j, 1 ≤ j → j < n.toNat → ¬d ≤ T + BitVec.ofNat w j

theorem Napping.run {taskStack : Nat} {T n : BitVec w} {j : Nat}
    {ops : List (HartOp w)} (hlists : MachineLists s l m)
    (h : Napping s l m p {d | Unreached T n d})
    (hticks : s.kernel.ticks = T + BitVec.ofNat w j)
    (hrun : exec (HartOp.step taskStack) s ops = some s')
    (hcount : j + tickCount ops < n.toNat) : Asleep s'.kernel p := by
  induction ops generalizing s l m j with
  | nil =>
      cases hrun
      exact h.asleep
  | cons op ops ih =>
      simp only [exec, Option.bind_eq_some_iff] at hrun
      obtain ⟨s₁, hstep, hrest⟩ := hrun
      obtain ⟨l', m', change, hfollows, hclock, hquiet⟩ :=
        HartOp.step_spec taskStack hlists hstep
      rw [tickCount, List.countP_cons] at hcount
      by_cases htick : op.isTick = true
      · have hnext := hclock.ticks
        rw [if_pos htick] at hnext
        rw [if_pos htick, ← tickCount] at hcount
        have hticks₁ : s₁.kernel.ticks = T + BitVec.ofNat w (j + 1) := by
          rw [hnext, hticks, BitVec.ofNat_add, BitVec.add_assoc]
          rfl
        refine ih hfollows.lists (h.follows hfollows fun _ _ d hd => ?_) hticks₁ hrest
          (by omega)
        rw [hticks₁]
        exact hd (j + 1) (by omega) (by omega)
      · have hsame := hclock.ticks
        rw [if_neg htick] at hsame hcount
        rw [← tickCount] at hcount
        exact ih hfollows.lists
          (h.follows hfollows fun t heq =>
            absurd heq (hquiet (Bool.eq_false_of_not_eq_true htick) t))
          (hsame.trans hticks) hrest (by omega)

/-! ## Timeouts and the width of the counter -/

section Width

variable {T n : BitVec w}

/-- No wrap-around happens, there is no tick before the last, or counter and
timeout wrap around together. -/
def InTime (T n : BitVec w) : Prop :=
  T.toNat + n.toNat < 2 ^ w ∨ n.toNat ≤ 1 ∨ T.toNat + 1 = 2 ^ w

theorem InTime.unreached (h : InTime T n) : Unreached T n (T + n) := by
  intro j hpos hj hle
  have hT := T.isLt
  have hn := n.isLt
  have hofNat : (BitVec.ofNat w j).toNat = j := by
    rw [BitVec.toNat_ofNat, Nat.mod_eq_of_lt (hj.trans hn)]
  rw [BitVec.le_def, BitVec.toNat_add, BitVec.toNat_add, hofNat] at hle
  rcases h with hsum | hone | hlast
  · rw [Nat.mod_eq_of_lt hsum, Nat.mod_eq_of_lt (by omega)] at hle
    omega
  · omega
  · have hwrap : ∀ i, 1 ≤ i → i < 2 ^ w → (T.toNat + i) % 2 ^ w = i - 1 := by
      intro i hi hlt
      rw [show T.toNat + i = i - 1 + 2 ^ w by omega, Nat.add_mod_right,
        Nat.mod_eq_of_lt (by omega)]
    rw [hwrap n.toNat (by omega) hn, hwrap j hpos (hj.trans hn)] at hle
    omega

theorem due_of_not_inTime (h : ¬InTime T n) : 1 < n.toNat ∧ T + n ≤ T + 1 := by
  simp only [InTime, not_or, not_lt, not_le] at h
  obtain ⟨hsum, hone, hlast⟩ := h
  have hT := T.isLt
  have hn := n.isLt
  have h1 : (1 : BitVec w).toNat = 1 := by
    show (BitVec.ofNat w 1).toNat = 1
    rw [BitVec.toNat_ofNat, Nat.mod_eq_of_lt (by omega)]
  refine ⟨hone, ?_⟩
  rw [BitVec.le_def, BitVec.toNat_add, BitVec.toNat_add, h1,
    Nat.mod_eq_sub_mod hsum, Nat.mod_eq_of_lt (by omega),
    Nat.mod_eq_of_lt (by omega)]
  omega

end Width

/-! ## Sleeping through -/

/-- A task that sleeps from the tick count `T` on for `n` ticks still sleeps after any
run with fewer timer interrupts, in every reachable state in which the timers without a
function that are the task's already have timeouts in `D`. -/
def SleepsOn (taskStack : Nat) (T n : BitVec w) (D : Set (BitVec w)) : Prop :=
  ∀ (task : Ptr → TaskInfo) (timer : Ptr → Timer w) (s s' : Machine w)
    (k : State w) (p t : Ptr) (callNum : BitVec w) (ops : List (HartOp w)),
    Reaches (stepRel (HartOp.step taskStack)) anyLabel
      (Machine.boot task timer) s →
    s.kernel.ticks = T → s.running = some p → s.Executes → s.kernel.Fresh t →
    (∀ r, Linked s.kernel.timerNext s.kernel.firstTimer r → Wakes s.kernel r p →
      (s.kernel.timer r).timeout ∈ D) →
    callNum.toNat = Trap.sysSleep → doSyscall s.kernel callNum n t = .ok k →
    exec (HartOp.step taskStack) { s with kernel := k } ops = some s' →
    tickCount ops < n.toNat → (s'.kernel.task p).state = .sleeping

theorem sleepsOn_of_unreached (taskStack : Nat) {T n : BitVec w} (h : InTime T n)
    (hD : ∀ d ∈ D, Unreached T n d) : SleepsOn taskStack T n D := by
  intro task timer s s' k p t callNum ops hreach hticks hrunning hex hfresh hown
    hcall hsyscall hrun hcount
  obtain ⟨l, m, hlists⟩ := machineLists_of_reaches taskStack hreach
  rw [doSyscall, if_pos hcall] at hsyscall
  obtain ⟨k', m', hdelay, hfollows, hsteady, htask, htimeout⟩ :=
    hlists.sleep n hex hfresh
  obtain rfl : k' = k := Except.ok.inj (hdelay.symm.trans hsyscall)
  obtain ⟨hcurTask, hmem, -⟩ := hlists.current p hrunning hex.2
  have hnap : Napping { s with kernel := k' } l m' p {d | Unreached T n d} := by
    cases hfollows.effect with
    | @slept x cur hl hcur hawake hm hx hnew hstate =>
        have heq : cur = p := by
          rw [hnew.2, hcurTask] at htask
          exact Option.some.inj htask
        refine ⟨hmem, (hstate p).mpr (.inl heq.symm), fun r hr hwakes => ?_⟩
        rcases (hm r).mp hr with rfl | hr
        · rw [htimeout, hticks]
          exact h.unreached
        · rw [Wakes, hfollows.timer r hr] at hwakes
          rw [hfollows.timer r hr]
          exact hD _ (hown r (hlists.timers.path.linked_iff.mpr hr) hwakes)
  refine hnap.run (j := 0) hfollows.lists ?_ hrun (by omega)
  exact (hsteady.ticks.trans hticks).trans (BitVec.add_zero T).symm

/-! ## Woken too early -/

def emptyTask (_ : Ptr) : TaskInfo := blankTask

def idleAt (T : BitVec w) : Machine w where
  kernel := { Kernel.boot emptyTask (fun _ => blankTimer) with ticks := T }
  running := none

theorem idleAt_reached (taskStack : Nat) (j : Nat) :
    Reaches (stepRel (MachineOp.step taskStack)) anyLabel
      (Machine.boot emptyTask fun _ => (blankTimer : Timer w))
      (idleAt (BitVec.ofNat w j)) := by
  induction j with
  | zero => exact .refl
  | succ j ih =>
      have hstep : MachineOp.step taskStack (idleAt (BitVec.ofNat w j))
          .timerInterrupt = some (idleAt (BitVec.ofNat w j + 1)) := rfl
      rw [BitVec.ofNat_add]
      exact ih.tail trivial hstep

theorem runs_alone (taskStack : Nat) (T : BitVec w) :
    ∃ s, exec (MachineOp.step taskStack) (idleAt T)
        [.createTask 256 (argsOf 100), .yield, .softwareInterrupt] = some s ∧
      s.kernel.ticks = T ∧ s.running = some 256 ∧ s.kernel.msip = false ∧
      s.kernel.curTask = some 256 ∧ s.kernel.firstTimer = none ∧
      s.kernel.liveTasks = [256] ∧ s.kernel.liveTimers = [] :=
  ⟨_, rfl, rfl, rfl, rfl, rfl, rfl, rfl, rfl⟩

theorem runs_with_timer (taskStack : Nat) (T d : BitVec w) :
    ∃ s, exec (HartOp.step taskStack) (idleAt T)
        [.machine (.createTask 256 (argsOf 100)), .machine .yield,
          .machine .softwareInterrupt, .nullTimer 768 0 (d - T)] = some s ∧
      s.kernel.ticks = T ∧ s.running = some 256 ∧ s.kernel.msip = false ∧
      s.kernel.liveTasks = [256] ∧ s.kernel.liveTimers = [768] ∧
      Path s.kernel.timerNext s.kernel.firstTimer [768] none ∧
      Wakes s.kernel 768 256 ∧ (s.kernel.timer 768).timeout = T + (d - T) :=
  ⟨_, rfl, rfl, rfl, rfl, rfl, rfl, ⟨rfl, rfl⟩, ⟨rfl, rfl⟩, rfl⟩

section Early

variable {j : Nat}

theorem MachineLists.tick_wakes (taskStack : Nat) (h : MachineLists s l m)
    (hall : ∀ r ∈ m, Wakes s.kernel r p) (hasleep : Asleep s.kernel p)
    (hdue : ∃ r ∈ m, (s.kernel.timer r).timeout ≤ s.kernel.ticks + 1) :
    ∃ s', HartOp.step taskStack s (.machine .timerInterrupt) = some s' ∧
      (s'.kernel.task p).state = .runnable := by
  obtain ⟨k', c, hok, hfirst⟩ := h.timers.timerHandler_first
    fun r hr => ⟨p, (hall r hr).2, fun _ => hasleep⟩
  obtain ⟨r, hr, hreached⟩ := hdue
  obtain ⟨pre, t, post, q, hsplit, -, -, htask, hwoke⟩ :=
    hfirst ⟨r, hr, (hall r hr).1, hreached⟩
  obtain rfl : q = p :=
    Option.some.inj (htask.symm.trans (hall t (by simp [hsplit])).2)
  refine ⟨s.after (k', c), guarded_eq_some.mpr ⟨trivial, ?_⟩, hwoke⟩
  rw [HartOp.run, MachineOp.run, hok]
  rfl

theorem MachineLists.tick_quiet (taskStack : Nat) (h : MachineLists s l m)
    (hall : ∀ r ∈ m, Wakes s.kernel r p) (hasleep : Asleep s.kernel p) (hmem : p ∈ l)
    (hlate : ∀ r ∈ m, ¬(s.kernel.timer r).timeout ≤ s.kernel.ticks + 1) :
    ∃ s', HartOp.step taskStack s (.machine .timerInterrupt) = some s' ∧
      MachineLists s' l m ∧ (∀ r ∈ m, Wakes s'.kernel r p) ∧ Asleep s'.kernel p ∧
      (∀ r ∈ m, (s'.kernel.timer r).timeout = (s.kernel.timer r).timeout) ∧
      s'.kernel.ticks = s.kernel.ticks + 1 := by
  obtain ⟨k', c, hok, -⟩ := h.timers.timerHandler_first
    fun r hr => ⟨p, (hall r hr).2, fun _ => hasleep⟩
  obtain ⟨m', change, hfollows, hchange, hclock⟩ := h.timerInterrupt hok
  have hticks : (s.after (k', c)).kernel.ticks = s.kernel.ticks + 1 := hclock.ticks
  have hstep : HartOp.step taskStack s (.machine .timerInterrupt) =
      some (s.after (k', c)) := by
    refine guarded_eq_some.mpr ⟨trivial, ?_⟩
    rw [HartOp.run, MachineOp.run, hok]
    rfl
  cases hfollows.effect with
  | still hl hm hstate =>
      subst hm
      refine ⟨_, hstep, hfollows.lists, fun r hr => ?_, (hstate p hmem).mpr hasleep,
        fun r hr => ?_, hticks⟩
      · rw [Wakes, hfollows.timer r hr]
        exact hall r hr
      · rw [hfollows.timer r hr]
  | woke hl hx hwake hdue hm hstate => exact absurd (hticks ▸ hdue) (hlate _ hx)
  | joined => simp at hchange
  | left => simp at hchange
  | armed => simp at hchange
  | slept => simp at hchange
  | disarmed => simp at hchange

theorem MachineLists.woken_within (taskStack : Nat) (h : MachineLists s l m)
    (hall : ∀ r ∈ m, Wakes s.kernel r p) (hasleep : Asleep s.kernel p) (hmem : p ∈ l)
    (hdue : ∃ r ∈ m,
      (s.kernel.timer r).timeout ≤ s.kernel.ticks + BitVec.ofNat w (j + 1)) :
    ∃ i ≤ j, ∃ s', exec (HartOp.step taskStack) s
        (List.replicate (i + 1) (.machine .timerInterrupt)) = some s' ∧
      (s'.kernel.task p).state = .runnable := by
  induction j generalizing s with
  | zero =>
      obtain ⟨s', hstep, hwoke⟩ := h.tick_wakes taskStack hall hasleep hdue
      exact ⟨0, le_rfl, s', by simp [exec, hstep], hwoke⟩
  | succ j ih =>
      by_cases hnow : ∃ r ∈ m, (s.kernel.timer r).timeout ≤ s.kernel.ticks + 1
      · obtain ⟨s', hstep, hwoke⟩ := h.tick_wakes taskStack hall hasleep hnow
        exact ⟨0, Nat.zero_le _, s', by simp [exec, hstep], hwoke⟩
      · obtain ⟨s₁, hstep, h₁, hall₁, hasleep₁, hsame, hticks⟩ :=
          h.tick_quiet taskStack hall hasleep hmem fun r hr hle => hnow ⟨r, hr, hle⟩
        obtain ⟨r, hr, hreached⟩ := hdue
        have hdue₁ : ∃ r ∈ m, (s₁.kernel.timer r).timeout ≤
            s₁.kernel.ticks + BitVec.ofNat w (j + 1) := by
          refine ⟨r, hr, ?_⟩
          rw [hsame r hr, hticks, BitVec.add_assoc]
          rwa [Nat.add_comm, BitVec.ofNat_add] at hreached
        obtain ⟨i, hi, s', hrun, hwoke⟩ := ih h₁ hall₁ hasleep₁ hdue₁
        refine ⟨i + 1, Nat.succ_le_succ hi, s', ?_, hwoke⟩
        rw [List.replicate_succ, exec, hstep]
        exact hrun

/-- When the timers are those of the task alone and one of them is due before the last
tick, or the one of the delay itself, the task is woken early. -/
theorem not_sleepsOn_of_due (taskStack : Nat) {T n : BitVec w} {t : Ptr}
    {task : Ptr → TaskInfo} {timer : Ptr → Timer w}
    (hreach : Reaches (stepRel (HartOp.step taskStack)) anyLabel
      (Machine.boot task timer) s) (hlists : MachineLists s l m)
    (hticks : s.kernel.ticks = T) (hrunning : s.running = some p) (hex : s.Executes)
    (hfresh : s.kernel.Fresh t) (hall : ∀ r ∈ m, Wakes s.kernel r p)
    (hD : ∀ r ∈ m, (s.kernel.timer r).timeout ∈ D) (hj : j + 1 < n.toNat)
    (hdue : T + n ≤ T + BitVec.ofNat w (j + 1) ∨ ∃ r ∈ m,
      (s.kernel.timer r).timeout ≤ T + BitVec.ofNat w (j + 1)) :
    ¬SleepsOn taskStack T n D := by
  intro hsleeps
  obtain ⟨k, m', hdelay, hfollows, hsteady, htask, htimeout⟩ :=
    hlists.sleep n hex hfresh
  obtain ⟨hcur, hmem, -⟩ := hlists.current p hrunning hex.2
  have hticks' : k.ticks = T := hsteady.ticks.trans hticks
  obtain ⟨i, hi, s', hrun, hwoke⟩ : ∃ i ≤ j, ∃ s', exec (HartOp.step taskStack)
      { s with kernel := k } (List.replicate (i + 1) (.machine .timerInterrupt)) =
        some s' ∧ (s'.kernel.task p).state = .runnable := by
    cases hfollows.effect with
    | @slept _ cur hl hcur' hawake hm hx hnew hstate =>
        have hwakes : Wakes k t p := ⟨hnew.1, htask.trans hcur⟩
        obtain rfl : cur = p := Option.some.inj (hnew.2.symm.trans hwakes.2)
        refine hfollows.lists.woken_within taskStack (fun r hr => ?_)
          ((hstate cur).mpr (.inl rfl)) hmem ?_
        · rcases (hm r).mp hr with rfl | hr
          · exact hwakes
          · rw [Wakes, hfollows.timer r hr]
            exact hall r hr
        · rw [hticks']
          rcases hdue with hdue | ⟨r, hr, hdue⟩
          · refine ⟨t, (hm t).mpr (.inl rfl), ?_⟩
            rw [htimeout, hticks]
            exact hdue
          · refine ⟨r, (hm r).mpr (.inr hr), ?_⟩
            rw [hfollows.timer r hr]
            exact hdue
  have hcall : (BitVec.ofNat w 1).toNat = Trap.sysSleep := by
    have hlast := n.isLt
    rw [BitVec.toNat_ofNat]
    exact Nat.mod_eq_of_lt (by omega)
  have hasleep := hsleeps task timer s s' k p t (BitVec.ofNat w 1) _ hreach hticks
    hrunning hex hfresh (fun r hr _ => hD r (hlists.timers.path.linked_iff.mp hr)) hcall
    (by rw [doSyscall, if_pos hcall, hdelay]) hrun
    (by simp only [tickCount, List.countP_replicate, HartOp.isTick, if_true]; omega)
  rw [hwoke] at hasleep
  cases hasleep

end Early

theorem idleAt_reached_hart (taskStack : Nat) (T : BitVec w) :
    Reaches (stepRel (HartOp.step taskStack)) anyLabel
      (Machine.boot emptyTask fun _ => (blankTimer : Timer w)) (idleAt T) := by
  have hidle := reaches_hart (idleAt_reached (w := w) taskStack T.toNat)
  rwa [BitVec.ofNat_toNat, BitVec.setWidth_eq] at hidle

theorem inTime_of_sleepsOn (taskStack : Nat) {T n : BitVec w}
    (h : SleepsOn taskStack T n D) : InTime T n := by
  by_contra hnot
  obtain ⟨hone, hdue⟩ := due_of_not_inTime hnot
  obtain ⟨s, hrun, hticks, hrunning, hoff, -, hfirst, hliveTasks, hliveTimers⟩ :=
    runs_alone taskStack T
  have hreach := Reaches.exec (idleAt_reached taskStack T.toNat) (fun _ _ _ => trivial)
    (by rwa [BitVec.ofNat_toNat, BitVec.setWidth_eq])
  obtain ⟨l, m, hlists⟩ := machineLists_of_reaches taskStack (reaches_hart hreach)
  obtain rfl : m = [] := hlists.timers.path.unique (hfirst ▸ rfl)
  exact not_sleepsOn_of_due taskStack (t := 512) (reaches_hart hreach) hlists hticks
    hrunning ⟨by simp [hrunning], hoff⟩
    ⟨by decide, by decide, by simp [hliveTasks], by simp [hliveTimers]⟩ (by simp)
    (by simp) (j := 0) hone (.inl hdue) h

theorem unreached_of_sleepsOn (taskStack : Nat) {T n d : BitVec w}
    (h : SleepsOn taskStack T n D) (hd : d ∈ D) : Unreached T n d := by
  intro j hpos hj hle
  obtain ⟨j, rfl⟩ : ∃ i, j = i + 1 := ⟨j - 1, by omega⟩
  obtain ⟨s, hrun, hticks, hrunning, hoff, hliveTasks, hliveTimers, hpath, hwakes,
    htimeout⟩ := runs_with_timer taskStack T d
  rw [BitVec.add_comm, BitVec.sub_add_cancel] at htimeout
  have hreach := Reaches.exec (idleAt_reached_hart taskStack T) (fun _ _ _ => trivial)
    hrun
  obtain ⟨l, m, hlists⟩ := machineLists_of_reaches taskStack hreach
  obtain rfl : m = [768] := hlists.timers.path.unique hpath
  exact not_sleepsOn_of_due taskStack (t := 512) hreach hlists hticks hrunning
    ⟨by simp [hrunning], hoff⟩
    ⟨by decide, by decide, by simp [hliveTasks], by simp [hliveTimers]⟩
    (by simpa using hwakes) (by simpa [htimeout] using hd) hj
    (.inr ⟨768, by simp, htimeout ▸ hle⟩) h

/-- No task is woken early exactly for delays that end before the counter wraps around,
or after at most one tick, or that begin right in front of the wrap-around, and when no
timer without a function that was the task's before is due in a tick before the last. -/
theorem no_early_wake_iff (taskStack : Nat) (T n : BitVec w) (D : Set (BitVec w)) :
    SleepsOn taskStack T n D ↔
      (T.toNat + n.toNat < 2 ^ w ∨ n.toNat ≤ 1 ∨ T.toNat + 1 = 2 ^ w) ∧
        ∀ d ∈ D, ∀ j, 1 ≤ j → j < n.toNat → ¬d ≤ T + BitVec.ofNat w j :=
  ⟨fun h => ⟨inTime_of_sleepsOn taskStack h,
    fun _ hd => unreached_of_sleepsOn taskStack h hd⟩,
    fun ⟨hintime, hD⟩ => sleepsOn_of_unreached taskStack hintime hD⟩

/-- At tick 1, the longest delay on RV64 is over at the next tick, also without other
timers. -/
theorem longest_nap_ends : ¬SleepsOn 4096 (1 : BitVec 64) (-1) ∅ :=
  fun h => absurd (inTime_of_sleepsOn 4096 h) (by unfold InTime; decide)

end XinOS.Kernel
