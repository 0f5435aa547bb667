import XinOS.Trap.Context

/-!
# Traps and system calls: trap.c and syscall.c

What `trap_handler` does depends on the cause alone.  It returns to `trap_vector`, or
it loads another context and never returns.
-/

namespace XinOS.Trap

open XinOS.Foundation

variable {b : Build} {w : Nat}

/-- `MXLEN` of platform.h, the same for both builds. -/
def mxlen : Nat := 32

def interruptBit : CInt := 1 <<< (mxlen - 1)

def isInterrupt (cause : BitVec w) : Bool :=
  cause &&& interruptBit.signExtend w ≠ 0

def causeCode (cause : BitVec w) : BitVec w :=
  cause &&& (~~~interruptBit).signExtend w

inductive Service where
  | software
  | timer
  | external
  | unknown
  | syscall
  | panic
  deriving DecidableEq, Repr

def service (cause : BitVec w) : Service :=
  if isInterrupt cause then
    match (causeCode cause).toNat with
    | 3 => .software
    | 7 => .timer
    | 11 => .external
    | _ => .unknown
  else
    match (causeCode cause).toNat with
    | 8 => .syscall
    | 9 => .syscall
    | 11 => .syscall
    | _ => .panic

/-- Whether a branch can return, and whether it can switch to another context:
`schedule` always does, `timer_handler` may call `back_os`. -/
def Service.Ends {α : Type} : Service → Option α → Prop
  | .software, next => next ≠ none
  | .timer, _ => True
  | .external, next => next = none
  | .unknown, next => next = none
  | .syscall, next => next = none
  | .panic, _ => False

def sysSleep : Nat := 1

def syscallResult (callNum : BitVec w) : BitVec w :=
  if callNum.toNat = sysSleep then 0 else -1

/-- `do_syscall`, as far as `ctx` goes. -/
def doSyscall (ctx : BitVec b.xlen) (m : Memory) : Memory :=
  let callNum := m.load (wordBytes b) (ctx.toNat + fieldOffset b .a7)
  m.store (wordBytes b) (ctx.toNat + fieldOffset b .a0)
    (syscallResult (BitVec.ofNat b.xlen callNum)).toNat

/-- `trap_handler`, as far as its result and `ctx` go. -/
def trapHandler (epc cause ctx : BitVec b.xlen) (m : Memory) :
    BitVec b.xlen × Memory :=
  if service cause = .syscall then (epc + 4, doSyscall ctx m) else (epc, m)

/-- What an interrupted context is to get back: a system call replaces `a0` and
goes past the `ecall`. -/
def Frame.afterTrap (cause : BitVec b.xlen) (f : Frame b) : Frame b :=
  if service cause = .syscall then
    ⟨Function.update f.reg .a0 (syscallResult (f.reg .a7)), f.pc + 4⟩
  else f

theorem afterTrap_of_ne {cause : BitVec b.xlen} (h : service cause ≠ .syscall)
    (f : Frame b) : f.afterTrap cause = f := if_neg h

theorem afterTrap_t6 (cause : BitVec b.xlen) (f : Frame b) :
    (f.afterTrap cause).reg .t6 = f.reg .t6 := by
  unfold Frame.afterTrap
  split
  · simp
  · rfl

theorem doSyscall_regs {m : Memory} {ctx : BitVec b.xlen} {f : Frame b}
    (h : Holds m ctx f) :
    FrameHolds (wordBytes b) (fieldOffset b) (doSyscall ctx m) ctx.toNat
      contextFields (Function.update f.reg .a0 (syscallResult (f.reg .a7))) := by
  intro r hr
  have hcall : BitVec.ofNat b.xlen (m.load (wordBytes b)
      (ctx.toNat + fieldOffset b .a7)) = f.reg .a7 := by
    rw [h.regs .a7 (mem_contextFields .a7), BitVec.ofNat_toNat, BitVec.setWidth_eq]
  simp only [doSyscall, hcall]
  by_cases heq : r = .a0
  · subst heq
    rw [Function.update_self]
    exact Memory.load_store_self _ _ (by rw [pow_wordBytes]; exact BitVec.isLt _)
  · have hsep := apart_fieldOffset b r .a0 heq
    rw [Function.update_of_ne heq, Memory.load_store_apart _ _ (by omega)]
    exact h.regs r hr

theorem doSyscall_sameOutside (m : Memory) (ctx : BitVec b.xlen) :
    Memory.SameOutside ctx.toNat (ctx.toNat + contextBytes b) m
      (doSyscall ctx m) := by
  have hfield := fieldOffset_lt b .a0
  have hsize := pcField_add b
  exact (Memory.SameOutside.store _ _ _ _).mono (by omega) (by omega)

theorem trapHandler_regs {m : Memory} {ctx : BitVec b.xlen} {f : Frame b}
    (h : Holds m ctx f) (epc cause : BitVec b.xlen) :
    FrameHolds (wordBytes b) (fieldOffset b) (trapHandler epc cause ctx m).2
      ctx.toNat contextFields (f.afterTrap cause).reg := by
  unfold trapHandler Frame.afterTrap
  split
  · exact doSyscall_regs h
  · exact h.regs

theorem trapHandler_epc (f : Frame b) (cause ctx : BitVec b.xlen) (m : Memory) :
    (trapHandler f.pc cause ctx m).1 = (f.afterTrap cause).pc := by
  unfold trapHandler Frame.afterTrap
  split <;> rfl

end XinOS.Trap
