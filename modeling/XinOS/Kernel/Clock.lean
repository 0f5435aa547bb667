import XinOS.Kernel.Naps
import XinOS.Kernel.Slices

/-!
# The hardware timer: timer.c

`mtime` counts ten million a second, and the timer interrupt is pending as long as
`mtimecmp` is not above it.  `timer_load` sets `mtimecmp` relative to the time at which it
is called, so that the tick count falls behind the clock; it never gets ahead of it.  The
registers are read and written at once, as on RV64.
-/

namespace XinOS.Kernel

open XinOS.Foundation

def clintTimebaseFreq : Nat := 10000000

def timerInterval : CInt := BitVec.ofNat 32 clintTimebaseFreq

structure Clint where
  mtime : BitVec 64
  mtimecmp : BitVec 64

def timerLoad (c : Clint) (interval : CInt) : Clint :=
  { c with mtimecmp := c.mtime + interval.signExtend 64 }

structure Clocked where
  machine : Machine 64
  clint : Clint

/-- `mtime` counts on; the timer interrupt is taken, and so much time passes until
`timer_load`; anything else happens on the hart. -/
inductive ClockOp where
  | pass
  | timer (spent : Nat)
  | other (op : HartOp 64)

def ClockOp.time : ClockOp → Nat
  | .pass => 1
  | .timer spent => spent
  | .other _ => 0

def ClockOp.step (taskStack : Nat) (s : Clocked) : ClockOp → Option Clocked
  | .pass => some { s with clint := { s.clint with mtime := s.clint.mtime + 1 } }
  | .timer spent =>
      if s.clint.mtimecmp ≤ s.clint.mtime then
        (HartOp.step taskStack s.machine (.machine .timerInterrupt)).map fun machine =>
          { machine := machine
            clint := timerLoad
              { s.clint with mtime := s.clint.mtime + BitVec.ofNat 64 spent }
              timerInterval }
      else none
  | .other op =>
      if op.isTick then none
      else (op.step taskStack s.machine).map fun machine => { s with machine := machine }

def Clocked.boot (task : Ptr → TaskInfo) (timer : Ptr → Timer 64) (clint : Clint) :
    Clocked where
  machine := Machine.boot task timer
  clint := timerLoad clint timerInterval

/-- `mtime` is far from its end, which is 58000 years after its start. -/
def BeforeWrap (s : Clocked) (op : ClockOp) : Prop :=
  s.clint.mtime.toNat + op.time + clintTimebaseFreq < 2 ^ 64

/-- No timer interrupt is more than `late` behind `mtimecmp` when it is over. -/
def Prompt (late : Nat) (s : Clocked) (op : ClockOp) : Prop :=
  BeforeWrap s op ∧ s.clint.mtime.toNat + op.time ≤ s.clint.mtimecmp.toNat + late

variable {s s' u : Clocked} {op : ClockOp} {taskStack : Nat}

/-! ## One step -/

theorem timerLoad_toNat {c : Clint}
    (hfit : c.mtime.toNat + clintTimebaseFreq < 2 ^ 64) :
    (timerLoad c timerInterval).mtimecmp.toNat =
      c.mtime.toNat + clintTimebaseFreq := by
  have hinterval : (timerInterval.signExtend 64).toNat = clintTimebaseFreq := by decide
  rw [timerLoad, BitVec.toNat_add, hinterval, Nat.mod_eq_of_lt hfit]

theorem mtime_add {x : BitVec 64} {n : Nat} (hfit : x.toNat + n < 2 ^ 64) :
    (x + BitVec.ofNat 64 n).toNat = x.toNat + n := by
  rw [BitVec.toNat_add, BitVec.toNat_ofNat, Nat.add_mod_mod, Nat.mod_eq_of_lt hfit]

inductive ClockChange (taskStack : Nat) (s s' : Clocked) : ClockOp → Prop where
  | pass (hmachine : s'.machine = s.machine)
      (htime : s'.clint.mtime.toNat = s.clint.mtime.toNat + 1)
      (hcmp : s'.clint.mtimecmp = s.clint.mtimecmp) : ClockChange taskStack s s' .pass
  | timer (spent : Nat)
      (hstep : HartOp.step taskStack s.machine (.machine .timerInterrupt) =
        some s'.machine)
      (hdue : s.clint.mtimecmp.toNat ≤ s.clint.mtime.toNat)
      (htime : s'.clint.mtime.toNat = s.clint.mtime.toNat + spent)
      (hcmp : s'.clint.mtimecmp.toNat = s'.clint.mtime.toNat + clintTimebaseFreq) :
      ClockChange taskStack s s' (.timer spent)
  | other (op : HartOp 64) (hstep : op.step taskStack s.machine = some s'.machine)
      (htick : op.isTick = false) (hclint : s'.clint = s.clint) :
      ClockChange taskStack s s' (.other op)

theorem ClockOp.step_change (hfit : BeforeWrap s op)
    (hstep : op.step taskStack s = some s') : ClockChange taskStack s s' op := by
  cases op with
  | pass =>
      cases hstep
      simp only [BeforeWrap, ClockOp.time] at hfit
      exact .pass rfl (mtime_add (n := 1) (by omega)) rfl
  | timer spent =>
      simp only [ClockOp.step] at hstep
      split_ifs at hstep with hdue
      obtain ⟨machine, hmachine, rfl⟩ := Option.map_eq_some_iff.mp hstep
      simp only [BeforeWrap, ClockOp.time] at hfit
      have htime := mtime_add (x := s.clint.mtime) (n := spent) (by omega)
      refine .timer spent hmachine (BitVec.le_def.mp hdue) htime (timerLoad_toNat ?_)
      dsimp only
      rw [htime]
      exact hfit
  | other op =>
      simp only [ClockOp.step] at hstep
      split_ifs at hstep with htick
      obtain ⟨machine, hmachine, rfl⟩ := Option.map_eq_some_iff.mp hstep
      exact .other op hmachine (Bool.eq_false_of_not_eq_true htick) rfl

/-! ## Runs -/

/-- `n` timer interrupts have been taken between `s` and `u`: the first one not before
`mtimecmp`, and each of the others an interval after the one before, at least. -/
structure Interrupted (s u : Clocked) (n : Nat) : Prop where
  mono : s.clint.mtime.toNat ≤ u.clint.mtime.toNat
  waiting : n = 0 → u.clint.mtimecmp = s.clint.mtimecmp
  spaced : ∀ d, n = d + 1 →
    max s.clint.mtime.toNat s.clint.mtimecmp.toNat + d * clintTimebaseFreq ≤
      u.clint.mtime.toNat
  reloaded : ∀ d, n = d + 1 →
    max s.clint.mtime.toNat s.clint.mtimecmp.toNat + (d + 1) * clintTimebaseFreq ≤
      u.clint.mtimecmp.toNat

theorem Interrupted.refl (s : Clocked) : Interrupted s s 0 :=
  ⟨le_rfl, fun _ => rfl, fun d h => absurd h (Nat.succ_ne_zero d).symm,
    fun d h => absurd h (Nat.succ_ne_zero d).symm⟩

theorem Interrupted.pass {n : Nat} (h : Interrupted s s' n)
    (htime : s'.clint.mtime.toNat ≤ u.clint.mtime.toNat)
    (hcmp : u.clint.mtimecmp = s'.clint.mtimecmp) : Interrupted s u n :=
  ⟨h.mono.trans htime, fun hn => hcmp.trans (h.waiting hn),
    fun d hd => (h.spaced d hd).trans htime, fun d hd => hcmp ▸ h.reloaded d hd⟩

theorem Interrupted.timer {n : Nat} (h : Interrupted s s' n)
    (hdue : s'.clint.mtimecmp.toNat ≤ s'.clint.mtime.toNat)
    (htime : s'.clint.mtime.toNat ≤ u.clint.mtime.toNat)
    (hcmp : u.clint.mtimecmp.toNat = u.clint.mtime.toNat + clintTimebaseFreq) :
    Interrupted s u (n + 1) := by
  have hfirst : max s.clint.mtime.toNat s.clint.mtimecmp.toNat +
      n * clintTimebaseFreq ≤ s'.clint.mtime.toNat := by
    cases n with
    | zero =>
        have hsame := h.waiting rfl
        rw [Nat.zero_mul, Nat.add_zero]
        exact max_le h.mono (hsame ▸ hdue)
    | succ d => exact (h.reloaded d rfl).trans hdue
  refine ⟨h.mono.trans htime, fun hn => absurd hn (Nat.succ_ne_zero n), fun d hd => ?_,
    fun d hd => ?_⟩
  · obtain rfl : n = d := Nat.succ.inj hd
    exact hfirst.trans htime
  · obtain rfl : n = d := Nat.succ.inj hd
    rw [hcmp, Nat.add_mul, Nat.one_mul, ← Nat.add_assoc]
    exact Nat.add_le_add_right (hfirst.trans htime) _

variable {task : Ptr → TaskInfo} {timer : Ptr → Timer 64} {clint : Clint}

/-- How far `mtimecmp` and `mtime` are, at most, when no interrupt is late. -/
structure Lagging (late start : Nat) (s : Clocked) : Prop where
  mtimecmp : s.clint.mtimecmp.toNat ≤
    start + (s.machine.kernel.ticks.toNat + 1) * clintTimebaseFreq +
      s.machine.kernel.ticks.toNat * late
  mtime : s.clint.mtime.toNat ≤ s.clint.mtimecmp.toNat + late

theorem Lagging.step {late start : Nat} {l m : List Ptr} (h : Lagging late start s)
    (hlists : MachineLists s.machine l m)
    (hroom : s.machine.kernel.ticks.toNat + 1 < 2 ^ 64) (hok : Prompt late s op)
    (hstep : op.step taskStack s = some s') : Lagging late start s' := by
  obtain ⟨hfit, hprompt⟩ := hok
  have hcmp := h.mtimecmp
  cases ClockOp.step_change hfit hstep with
  | pass hmachine htime hcmp' =>
      refine ⟨by rw [hmachine, hcmp']; exact hcmp, ?_⟩
      rw [htime, hcmp']
      exact hprompt
  | timer spent hmachine hdue htime hcmp' =>
      obtain ⟨-, -, -, -, hclock, -⟩ := HartOp.step_spec taskStack hlists hmachine
      have hticks : s'.machine.kernel.ticks.toNat = s.machine.kernel.ticks.toNat + 1 := by
        rw [hclock.ticks, HartOp.isTick, if_pos rfl]
        exact toNat_succ hroom
      simp only [ClockOp.time] at hprompt
      refine ⟨?_, by omega⟩
      rw [hcmp', hticks]
      simp only [Nat.add_mul, Nat.one_mul] at hcmp ⊢
      omega
  | other op hmachine htick hclint =>
      obtain ⟨-, -, -, -, hclock, -⟩ := HartOp.step_spec taskStack hlists hmachine
      have hticks := hclock.ticks
      rw [htick, if_neg Bool.false_ne_true] at hticks
      exact ⟨by rw [hclint, hticks]; exact hcmp, by rw [hclint]; exact h.mtime⟩

end XinOS.Kernel
