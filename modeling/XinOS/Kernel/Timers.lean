import XinOS.Kernel.Tasks

/-!
# Software timers: timer.c

Timers are kept in one list in order of their timeouts.  A sleeping task is woken
by a timer without a function.
-/

namespace XinOS.Kernel

open XinOS.Foundation

variable {w : Nat}

def insertTimer (k : State w) (t : Ptr) : Except Fault (State w) :=
  match k.firstTimer with
  | none => .ok { k with firstTimer := some t }
  | some first =>
      if (k.timer t).timeout < (k.timer first).timeout then
        .ok { k.setTimerNext t (some first) with firstTimer := some t }
      else
        match walk k.timerNext
          (fun it => decide ((k.timer it).timeout ≤ (k.timer t).timeout))
          walkFuel (some first) first with
        | none => .error .noReturn
        | some (it, prev) =>
            let k := k.setTimerNext prev (some t)
            .ok (k.setTimerNext t it)

def armTimer (k : State w) (t : Ptr) (func : Option Nat) (args : Nat)
    (timeout : BitVec w) : State w :=
  { k.setTimer t
      { func := func
        args := args
        task := k.curTask
        timeout := k.ticks + timeout
        next := none } with
    liveTimers := t :: k.liveTimers }

/-- `timer_create`; `malloc` returns `t`. -/
def timerCreate (k : State w) (t : Ptr) (func : Option Nat) (args : Nat)
    (timeout : BitVec w) : Except Fault (State w) :=
  insertTimer (armTimer k t func args timeout) t

def freeTimer (k : State w) (p : Ptr) : State w :=
  { k with liveTimers := k.liveTimers.erase p }

/-- `timer_delete` of a timer, when the list begins with `first`. -/
def deleteFrom (k : State w) (first t : Ptr) : Except Fault (State w) :=
  if t = first then
    .ok (freeTimer { k with firstTimer := k.timerNext first } t)
  else
    match walk k.timerNext (fun it => decide (it ≠ t)) walkFuel
      (some first) first with
    | none => .error .noReturn
    | some (none, _) => .error .nullAccess
    | some (some it, prev) =>
        .ok (freeTimer (k.setTimerNext prev (k.timerNext it)) t)

def timerDelete (k : State w) (t : Option Ptr) : Except Fault (State w) :=
  match k.firstTimer, t with
  | some first, some t => deleteFrom k first t
  | _, _ => .ok k

/-- `task_delay`; the call of `timer_create` gets the object `t`. -/
def taskDelay (k : State w) (t : Ptr) (tick : BitVec w) :
    Except Fault (State w) :=
  match k.curTask with
  | none => .error .nullAccess
  | some cur =>
      match timerCreate (k.setTaskState cur .sleeping) t none 0 tick with
      | .error e => .error e
      | .ok k => .ok (taskYield k)

/-- The loop of `timer_check`: the task to wake, and the calls that were made of
timer functions.  The functions touch neither tasks nor timers. -/
def timerCheckLoop (k : State w) : Nat → Option Ptr →
    Except Fault (Option Ptr × State w × List (Nat × Nat))
  | 0, _ => .error .noReturn
  | _ + 1, none => .ok (none, k, [])
  | fuel + 1, some it =>
      if (k.timer it).timeout ≤ k.ticks then
        match (k.timer it).task with
        | none => .error .nullAccess
        | some task =>
            match (k.timer it).func with
            | none =>
                if (k.task task).state = .sleeping then
                  match timerDelete k (some it) with
                  | .error e => .error e
                  | .ok k => .ok (some task, k, [])
                else .error .nullCall
            | some func =>
                match timerCheckLoop k fuel (k.timerNext it) with
                | .error e => .error e
                | .ok (task, k', calls) =>
                    .ok (task, k', (func, (k.timer it).args) :: calls)
      else .ok (none, k, [])

def timerCheck (k : State w) :
    Except Fault (Option Ptr × State w × List (Nat × Nat)) :=
  timerCheckLoop k walkFuel k.firstTimer

def timerHandler (k : State w) : Except Fault (State w × Control) :=
  match timerCheck { k with ticks := k.ticks + 1 } with
  | .error e => .error e
  | .ok (some task, k, _) =>
      .ok ({ k.setTaskState task .runnable with curTask := some task }, .os)
  | .ok (none, k, _) =>
      match k.curTask with
      | none => .ok (k, .os)
      | some cur =>
          if (k.ticks - k.curTaskStartTick).toNat ≥
              (k.task cur).timeslice.toNat then
            .ok ({ k with curTaskStartTick := k.ticks }, .os)
          else .ok (k, .stay)

end XinOS.Kernel
