import Mathlib.Data.BitVec

/-!
# Build targets and machine integers

The Makefile builds the kernel for RV32 or RV64 (`arch`).  Registers, pointers,
`size_t` and the tick counters have `xlen` bits; `int` has 32 bits on both.
-/

namespace XinOS

inductive Build where
  | rv32
  | rv64
  deriving DecidableEq, Repr

def Build.xlen : Build → Nat
  | .rv32 => 32
  | .rv64 => 64

/-- A C `int`; its value is `toInt`. -/
abbrev CInt := BitVec 32

theorem CInt.toInt_ofNat {n : Nat} (hn : n < 2 ^ 31) :
    (BitVec.ofNat 32 n).toInt = n := by
  rw [BitVec.toInt_ofNat', Int.bmod_eq_of_le] <;> omega

theorem CInt.toInt_sub {x y : CInt} (hlo : -2 ^ 31 ≤ x.toInt - y.toInt)
    (hhi : x.toInt - y.toInt < 2 ^ 31) : (x - y).toInt = x.toInt - y.toInt := by
  rw [BitVec.toInt_sub, Int.bmod_eq_of_le] <;> omega

theorem CInt.toInt_add_one {x : CInt} (hx : x.toInt < 2 ^ 31 - 1) :
    (x + 1).toInt = x.toInt + 1 := by
  have hlo := BitVec.le_toInt x
  have hone : (1 : CInt).toInt = 1 := by decide
  rw [BitVec.toInt_add, hone, Int.bmod_eq_of_le] <;> omega

/--
Fuel for the loops that walk through memory one cell or one object at a time.
Both targets address at most `2 ^ 64` bytes, so a walk of this length that
neither stopped nor returned to where it has been does not exist.
-/
def walkFuel : Nat := 2 ^ 64

end XinOS
