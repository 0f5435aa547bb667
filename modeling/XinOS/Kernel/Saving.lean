import XinOS.Kernel.WakeUp

/-!
# The hart with the registers that it saves

`trap_vector` saves the registers of a task in the object of that task.  New tasks may
be in any state and any live timer may be deleted, so a task can sleep for ever; but no
timer without a function is left over for a task that does not sleep.
-/

namespace XinOS.Kernel

open XinOS.Foundation

variable {w : Nat} {s s' : Machine w} {k k' : State w} {l l' m m' : List Ptr}

/-- Every timer belongs to a task, and those without a function to different tasks of
`l`, which sleep. -/
structure Owed (k : State w) (l m : List Ptr) : Prop where
  owned : ∀ t ∈ m, ∃ p, (k.timer t).task = some p
  sound : ∀ t ∈ m, (k.timer t).func = none → ∃ p ∈ l, Wakes k t p ∧ Asleep k p
  once : ∀ s ∈ m, ∀ t ∈ m, ∀ p, Wakes k s p → Wakes k t p → s = t

namespace Owed

variable (h : Owed k l m)
include h

theorem asleep {t p : Ptr} (ht : t ∈ m) (hw : Wakes k t p) : p ∈ l ∧ Asleep k p := by
  obtain ⟨q, hq, hw', hsleep⟩ := h.sound t ht hw.1
  obtain rfl : p = q := Option.some.inj (hw.2.symm.trans hw'.2)
  exact ⟨hq, hsleep⟩

theorem keep (hm : m' ⊆ m)
    (hfunc : ∀ t ∈ m, (k'.timer t).func = (k.timer t).func)
    (htask : ∀ t ∈ m, (k'.timer t).task = (k.timer t).task)
    (hsleep : ∀ t ∈ m', ∀ p ∈ l, Wakes k t p → Asleep k p → p ∈ l' ∧ Asleep k' p) :
    Owed k' l' m' := by
  have hwakes : ∀ t ∈ m, ∀ p, Wakes k' t p ↔ Wakes k t p := fun t ht p => by
    rw [Wakes, Wakes, hfunc t ht, htask t ht]
  refine ⟨fun t ht => ?_, fun t ht hnone => ?_, fun s hs t ht p hws hwt => ?_⟩
  · rw [htask t (hm ht)]
    exact h.owned t (hm ht)
  · obtain ⟨p, hp, hw, hasleep⟩ := h.sound t (hm ht) (hfunc t (hm ht) ▸ hnone)
    obtain ⟨hp', hasleep'⟩ := hsleep t ht p hp hw hasleep
    exact ⟨p, hp', (hwakes t (hm ht) p).mpr hw, hasleep'⟩
  · exact h.once s (hm hs) t (hm ht) p ((hwakes s (hm hs) p).mp hws)
      ((hwakes t (hm ht) p).mp hwt)

theorem cons {x cur : Ptr} (hm : ∀ t, t ∈ m' ↔ t = x ∨ t ∈ m)
    (htask : (k.timer x).task = some cur)
    (hnew : (k.timer x).func = none →
      cur ∈ l ∧ Asleep k cur ∧ ∀ t ∈ m, ¬Wakes k t cur) : Owed k l m' := by
  have hcur : ∀ p, Wakes k x p → p = cur := fun p hw =>
    Option.some.inj (hw.2.symm.trans htask)
  refine ⟨fun t ht => ?_, fun t ht hnone => ?_, fun s hs t ht p hws hwt => ?_⟩
  · rcases (hm t).mp ht with rfl | ht
    · exact ⟨cur, htask⟩
    · exact h.owned t ht
  · rcases (hm t).mp ht with rfl | ht
    · obtain ⟨hmem, hsleep, -⟩ := hnew hnone
      exact ⟨cur, hmem, ⟨hnone, htask⟩, hsleep⟩
    · exact h.sound t ht hnone
  · rcases (hm s).mp hs with rfl | hs <;> rcases (hm t).mp ht with rfl | ht
    · rfl
    · exact absurd (hcur p hws ▸ hwt) ((hnew hws.1).2.2 t ht)
    · exact absurd (hcur p hwt ▸ hws) ((hnew hwt.1).2.2 s hs)
    · exact h.once s hs t ht p hws hwt

/-- No change leaves a timer behind, when `timer_create` gets a function. -/
theorem effect {change : Change} (heffect : Effect k l m k' l' m' change)
    (hregular : ∀ x, change = .armed x → (k'.timer x).func ≠ none)
    (htimer : ∀ t ∈ m, k'.timer t = { k.timer t with next := (k'.timer t).next }) :
    Owed k' l' m' := by
  have hfunc : ∀ t ∈ m, (k'.timer t).func = (k.timer t).func := fun t ht => by
    rw [htimer t ht]
  have htask : ∀ t ∈ m, (k'.timer t).task = (k.timer t).task := fun t ht => by
    rw [htimer t ht]
  have hself : m ⊆ m := fun _ ht => ht
  cases heffect with
  | still hl hm hstate =>
      subst hm
      exact h.keep hself hfunc htask fun _ _ p hp _ hsleep =>
        ⟨(hl p).mpr hp, (hstate p hp).mpr hsleep⟩
  | joined hl hx hm hstate =>
      subst hm
      exact h.keep hself hfunc htask fun _ _ p hp _ hsleep =>
        ⟨(hl p).mpr (.inr hp), (hstate p).mpr hsleep⟩
  | left hl hx hm hstate =>
      subst hm
      refine h.keep hself hfunc htask fun _ _ p hp _ hsleep =>
        ⟨(hl p).mpr ⟨?_, hp⟩, (hstate p).mpr hsleep⟩
      rintro rfl
      exact hx hsleep
  | @armed x cur hl hawake hm hx hnew hstate =>
      subst hl
      have hkeep : Owed k' l' m := h.keep hself hfunc htask fun _ _ p hp _ hsleep =>
        ⟨hp, (hstate p).mpr hsleep⟩
      exact hkeep.cons hm hnew fun hnone => absurd hnone (hregular x rfl)
  | @slept x cur hl hcur hawake hm hx hnew hstate =>
      subst hl
      have hkeep : Owed k' l' m := h.keep hself hfunc htask fun _ _ p hp _ hsleep =>
        ⟨hp, (hstate p).mpr (.inr hsleep)⟩
      refine hkeep.cons hm hnew.2 fun _ => ⟨hcur, (hstate cur).mpr (.inl rfl), ?_⟩
      -- a timer of `m` that wakes `cur` was there when `cur` was awake
      intro t ht hw
      exact hawake (h.asleep ht ⟨hfunc t ht ▸ hw.1, htask t ht ▸ hw.2⟩).2
  | @disarmed x hl hx hm hstate =>
      subst hl
      exact h.keep (fun t ht => ((hm t).mp ht).2) hfunc htask fun _ _ p hp _ hsleep =>
        ⟨hp, (hstate p).mpr hsleep⟩
  | @woke x p hl hx hwake hdue hm hstate =>
      subst hl
      refine h.keep (fun t ht => ((hm t).mp ht).2) hfunc htask fun t ht q hq hw hsleep =>
        ⟨hq, (hstate q).mpr ⟨?_, hsleep⟩⟩
      -- only `x` was to wake `p`
      rintro rfl
      obtain ⟨hne, ht⟩ := (hm t).mp ht
      exact hne (h.once t ht x hx q hw hwake)

end Owed

/-! ## Saved registers -/

def State.saveContext (k : State w) (p : Ptr) (ctx : StartContext) : State w :=
  k.setTask p { k.task p with ctx := ctx }

theorem State.saveContext_task (k : State w) (p : Ptr) (ctx : StartContext) (q : Ptr) :
    (k.saveContext p ctx).task q =
      { k.task q with ctx := ((k.saveContext p ctx).task q).ctx } := by
  by_cases hq : q = p <;> simp [saveContext, hq]

theorem TaskInv.saveContext (h : TaskInv k l) (p : Ptr) (ctx : StartContext) :
    TaskInv (k.saveContext p ctx) l := by
  have htask := k.saveContext_task p ctx
  have hnext : (k.saveContext p ctx).taskNext = k.taskNext := by
    funext q
    rw [State.taskNext, htask q]
    rfl
  have hnumber : (k.saveContext p ctx).number = k.number := by
    funext q
    rw [State.number, htask q]
    rfl
  have hid : ∀ q, ((k.saveContext p ctx).task q).taskId = (k.task q).taskId := fun q => by
    rw [htask q]
  exact
    { path := hnext ▸ h.path
      nodup := h.nodup
      sorted := hnumber ▸ h.sorted
      count := h.count
      room := h.room
      live := h.live
      ids := by simpa only [hid] using h.ids
      below := fun hpos q hq => by
        rw [hid]
        exact h.below hpos q hq }

inductive SavingOp (w : Nat) where
  | machine (op : MachineOp w)
  | save (p : Ptr) (ctx : StartContext)

def SavingOp.Allowed (s : Machine w) : SavingOp w → Prop
  | .machine op => (HartOp.machine op).Allowed s
  | .save p _ => s.running = some p

instance (s : Machine w) : DecidablePred (SavingOp.Allowed s) := fun op => by
  cases op <;> unfold SavingOp.Allowed <;> infer_instance

def SavingOp.run (taskStack : Nat) (s : Machine w) :
    SavingOp w → Except Fault (Machine w)
  | .machine op => op.run taskStack s
  | .save p ctx => .ok { s with kernel := s.kernel.saveContext p ctx }

def SavingOp.step (taskStack : Nat) (s : Machine w) (op : SavingOp w) :
    Option (Machine w) :=
  if op.Allowed s then (op.run taskStack s).toOption else none

structure MachineOwed (s : Machine w) (l m : List Ptr) : Prop extends
    MachineLists s l m where
  owed : Owed s.kernel l m

namespace MachineOwed

theorem boot (task : Ptr → TaskInfo) (timer : Ptr → Timer w) :
    MachineOwed (Machine.boot task timer) [] [] where
  toMachineLists := MachineLists.boot task timer
  owed := by constructor <;> simp

variable (h : MachineOwed s l m)
include h

theorem follows {change : Change} (hstep : Follows s l m s' l' m' change)
    (hregular : ∀ x, change = .armed x → (s'.kernel.timer x).func ≠ none) :
    MachineOwed s' l' m' :=
  ⟨hstep.lists, h.owed.effect hstep.effect hregular hstep.timer⟩

theorem tasksAsleep : TasksAsleep s.kernel m := by
  intro t ht
  obtain ⟨p, hp⟩ := h.owed.owned t ht
  exact ⟨p, hp, fun hnone => (h.owed.asleep ht ⟨hnone, hp⟩).2⟩

theorem run_spec (taskStack : Nat) {op : SavingOp w} (hop : op.Allowed s) :
    ∃ s' l' m', op.run taskStack s = .ok s' ∧ MachineOwed s' l' m' := by
  cases op with
  | save p ctx =>
      have hsleep : ∀ q, Asleep (s.kernel.saveContext p ctx) q ↔ Asleep s.kernel q :=
        fun q => by rw [Asleep, State.saveContext_task, Asleep]
      refine ⟨_, l, m, rfl, ⟨h.tasks.saveContext p ctx,
        h.timers.congr (fun _ _ => rfl) rfl rfl, fun q hq hoff => ?_⟩,
        h.owed.keep (fun _ ht => ht) (fun _ _ => rfl) (fun _ _ => rfl)
          fun _ _ q hq _ hasleep => ⟨hq, (hsleep q).mpr hasleep⟩⟩
      obtain ⟨hcur, hmem, hawake⟩ := h.current q hq hoff
      exact ⟨hcur, hmem, (hsleep q).not.mpr hawake⟩
  | machine op =>
      cases op with
      | sleep t tick =>
          obtain ⟨k', m', hdelay, hstep, -⟩ := h.sleep tick hop.1 hop.2
          exact ⟨_, l, m', by rw [SavingOp.run, MachineOp.run, hdelay]; rfl,
            h.follows hstep fun _ => Change.noConfusion⟩
      | yield => exact ⟨_, l, m, rfl, h.follows h.yield fun _ => Change.noConfusion⟩
      | exit =>
          obtain ⟨k', l', x, hexit, hstep, -⟩ := h.exit hop
          exact ⟨_, l', m, by rw [SavingOp.run, MachineOp.run, hexit]; rfl,
            h.follows hstep fun _ => Change.noConfusion⟩
      | createTask newTask args =>
          obtain ⟨k', l', r, change, hcreate, hstep, -, hchange⟩ :=
            h.createTask taskStack hop.1 hop.2
          refine ⟨_, l', m, by rw [SavingOp.run, MachineOp.run, hcreate]; rfl,
            h.follows hstep ?_⟩
          rcases hchange with rfl | ⟨rfl, -⟩ <;> exact fun _ => Change.noConfusion
      | createTimer t func args timeout =>
          obtain ⟨k', m', hcreate, hstep, -, hfunc⟩ :=
            h.createTimer (some func) args timeout hop.1 hop.2
          refine ⟨_, l, m', by rw [SavingOp.run, MachineOp.run, hcreate]; rfl,
            h.follows hstep fun x hx => ?_⟩
          cases hx
          simp [hfunc]
      | deleteTimer t =>
          obtain ⟨k', m', hdelete, hstep, -⟩ := h.deleteTimer hop.1 hop.2
          exact ⟨_, l, m', by rw [SavingOp.run, MachineOp.run, hdelete]; rfl,
            h.follows hstep fun _ => Change.noConfusion⟩
      | softwareInterrupt =>
          obtain ⟨k', c, l', hsched, hstep, -⟩ := h.softwareInterrupt
          exact ⟨_, l', m, by rw [SavingOp.run, MachineOp.run, hsched]; rfl,
            h.follows hstep fun _ => Change.noConfusion⟩
      | timerInterrupt =>
          obtain ⟨k', c, hok, -⟩ := h.timers.timerHandler_first h.tasksAsleep
          obtain ⟨m', change, hstep, hchange, -⟩ := h.timerInterrupt hok
          refine ⟨_, l, m', by rw [SavingOp.run, MachineOp.run, hok]; rfl,
            h.follows hstep ?_⟩
          rcases hchange with rfl | ⟨t, rfl⟩ <;> exact fun _ => Change.noConfusion
      | overwriteTask p contents =>
          exact ⟨_, l, m, rfl, h.follows (h.overwriteTask hop contents)
            fun _ => Change.noConfusion⟩
      | overwriteTimer t contents =>
          exact ⟨_, l, m, rfl, h.follows (h.overwriteTimer hop contents)
            fun _ => Change.noConfusion⟩

end MachineOwed

end XinOS.Kernel
