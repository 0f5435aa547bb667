import XinOS.Platform
import XinOS.Foundation.Machine

/-!
# Saving and restoring contexts: entry.S

The macros `reg_save` and `reg_restore`, the code of `trap_vector` before and after
its call of `trap_handler`, and `switch_to`, for both builds.
-/

namespace XinOS.Trap

open XinOS.Foundation

/-- The general registers; `x0` is always zero. -/
inductive Reg where
  | ra | sp | gp | tp | t0 | t1 | t2 | s0 | s1 | a0 | a1 | a2 | a3 | a4 | a5 | a6
  | a7 | s2 | s3 | s4 | s5 | s6 | s7 | s8 | s9 | s10 | s11 | t3 | t4 | t5 | t6
  deriving DecidableEq, Repr

inductive Csr where
  | mscratch
  | mepc
  | mcause
  deriving DecidableEq, Repr

def wordBytes : Build → Nat
  | .rv32 => 4
  | .rv64 => 8

abbrev Core (b : Build) := Hart Reg Csr b.xlen

/-! ## `struct context` -/

/-- The registers of `struct context`, in order; `pc` follows them. -/
def contextFields : List Reg :=
  [.ra, .sp, .gp, .tp, .t0, .t1, .t2, .s0, .s1, .a0, .a1, .a2, .a3, .a4, .a5, .a6,
    .a7, .s2, .s3, .s4, .s5, .s6, .s7, .s8, .s9, .s10, .s11, .t3, .t4, .t5, .t6]

def fieldOffset (b : Build) (r : Reg) : Nat :=
  wordBytes b * contextFields.idxOf r

def pcField (b : Build) : Nat := wordBytes b * contextFields.length

def contextBytes (b : Build) : Nat := wordBytes b * (contextFields.length + 1)

/-! ## The code -/

def saveOffsets : Build → List (Reg × Nat)
  | .rv32 =>
      [(.ra, 0), (.sp, 4), (.gp, 8), (.tp, 12), (.t0, 16), (.t1, 20), (.t2, 24),
        (.s0, 28), (.s1, 32), (.a0, 36), (.a1, 40), (.a2, 44), (.a3, 48),
        (.a4, 52), (.a5, 56), (.a6, 60), (.a7, 64), (.s2, 68), (.s3, 72),
        (.s4, 76), (.s5, 80), (.s6, 84), (.s7, 88), (.s8, 92), (.s9, 96),
        (.s10, 100), (.s11, 104), (.t3, 108), (.t4, 112), (.t5, 116)]
  | .rv64 =>
      [(.ra, 0), (.sp, 8), (.gp, 16), (.tp, 24), (.t0, 32), (.t1, 40), (.t2, 48),
        (.s0, 56), (.s1, 64), (.a0, 72), (.a1, 80), (.a2, 88), (.a3, 96),
        (.a4, 104), (.a5, 112), (.a6, 120), (.a7, 128), (.s2, 136), (.s3, 144),
        (.s4, 152), (.s5, 160), (.s6, 168), (.s7, 176), (.s8, 184), (.s9, 192),
        (.s10, 200), (.s11, 208), (.t3, 216), (.t4, 224), (.t5, 232)]

def restoreOffsets : Build → List (Reg × Nat)
  | .rv32 =>
      [(.ra, 0), (.sp, 4), (.gp, 8), (.tp, 12), (.t0, 16), (.t1, 20), (.t2, 24),
        (.s0, 28), (.s1, 32), (.a0, 36), (.a1, 40), (.a2, 44), (.a3, 48),
        (.a4, 52), (.a5, 56), (.a6, 60), (.a7, 64), (.s2, 68), (.s3, 72),
        (.s4, 76), (.s5, 80), (.s6, 84), (.s7, 88), (.s8, 92), (.s9, 96),
        (.s10, 100), (.s11, 104), (.t3, 108), (.t4, 112), (.t5, 116), (.t6, 120)]
  | .rv64 =>
      [(.ra, 0), (.sp, 8), (.gp, 16), (.tp, 24), (.t0, 32), (.t1, 40), (.t2, 48),
        (.s0, 56), (.s1, 64), (.a0, 72), (.a1, 80), (.a2, 88), (.a3, 96),
        (.a4, 104), (.a5, 112), (.a6, 120), (.a7, 128), (.s2, 136), (.s3, 144),
        (.s4, 152), (.s5, 160), (.s6, 168), (.s7, 176), (.s8, 184), (.s9, 192),
        (.s10, 200), (.s11, 208), (.t3, 216), (.t4, 224), (.t5, 232)]

def regSave (b : Build) (base : Reg) : List (Instr Reg Csr) :=
  (saveOffsets b).map fun (r, offset) => .store r base offset

def regRestore (b : Build) (base : Reg) : List (Instr Reg Csr) :=
  (restoreOffsets b).map fun (r, offset) => .load r base offset

def t6Offset : Build → Nat
  | .rv32 => 120
  | .rv64 => 240

def pcOffset : Build → Nat
  | .rv32 => 124
  | .rv64 => 248

/-- `trap_vector` behind `reg_save`, up to the call of `trap_handler`. -/
def trapArguments (b : Build) : List (Instr Reg Csr) :=
  [.mv .t5 .t6,
    .csrr .t6 .mscratch,
    .store .t6 .t5 (t6Offset b),
    .csrr .a0 .mepc,
    .store .a0 .t5 (pcOffset b),
    .csrw .mscratch .t5,
    .csrr .a0 .mepc,
    .csrr .a1 .mcause,
    .csrr .a2 .mscratch]

/-- `trap_vector` up to the call of `trap_handler`. -/
def trapEntry (b : Build) : List (Instr Reg Csr) :=
  .csrrw .t6 .mscratch .t6 :: (regSave b .t6 ++ trapArguments b)

/-- `trap_vector` from the call of `trap_handler` to `mret`. -/
def trapReturn (b : Build) : List (Instr Reg Csr) :=
  [.csrw .mepc .a0, .csrr .t6 .mscratch] ++ regRestore b .t6

def switchTo (b : Build) : List (Instr Reg Csr) :=
  [.csrw .mscratch .a0,
    .load .a1 .a0 (pcOffset b),
    .csrw .mepc .a1,
    .mv .t6 .a0] ++ regRestore b .t6

def takeTrap {b : Build} (h : Core b) (cause : BitVec b.xlen) : Core b :=
  (h.setCsr .mepc h.pc).setCsr .mcause cause

def mret {b : Build} (h : Core b) : Core b := { h with pc := h.csr .mepc }

/-! ## The tables agree -/

def savedRegs : List Reg := contextFields.take 30

theorem saveOffsets_eq (b : Build) :
    saveOffsets b = savedRegs.map fun r => (r, fieldOffset b r) := by
  cases b <;> rfl

/-- What `reg_restore` loads besides: its base, on RV32 only. -/
def restoredLast : Build → List Reg
  | .rv32 => [.t6]
  | .rv64 => []

theorem restoreOffsets_eq (b : Build) :
    restoreOffsets b =
      (savedRegs ++ restoredLast b).map fun r => (r, fieldOffset b r) := by
  cases b <;> rfl

theorem t6Offset_eq (b : Build) : t6Offset b = fieldOffset b .t6 := by
  cases b <;> rfl

theorem pcOffset_eq (b : Build) : pcOffset b = pcField b := by
  cases b <;> rfl

theorem mem_savedRegs {r : Reg} : r ∈ savedRegs ↔ r ≠ .t6 := by
  cases r <;> decide

theorem nodup_savedRegs : savedRegs.Nodup := by decide

theorem wordBytes_pos (b : Build) : 0 < wordBytes b := by
  cases b <;> decide

theorem pow_wordBytes (b : Build) : 256 ^ wordBytes b = 2 ^ b.xlen := by
  cases b <;> rfl

theorem fieldOffset_lt (b : Build) (r : Reg) :
    fieldOffset b r + wordBytes b ≤ pcField b := by
  cases b <;> cases r <;> decide

theorem pcField_add (b : Build) : pcField b + wordBytes b = contextBytes b := by
  cases b <;> decide

theorem apart_fieldOffset (b : Build) : Apart (wordBytes b) (fieldOffset b) := by
  intro r s hne
  have hidx : contextFields.idxOf r ≠ contextFields.idxOf s := by
    intro heq
    refine hne ((List.idxOf_inj ?_).mp heq)
    cases r <;> decide
  cases b <;> simp only [fieldOffset, wordBytes] <;> omega

end XinOS.Trap
