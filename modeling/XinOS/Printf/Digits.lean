import Mathlib.Data.Nat.Digits.Lemmas
import XinOS.Printf.Format

/-!
# The characters of a number

The loops of `%d` and `%x` as lists of characters, and what the machine arithmetic
of `long` makes of each character.
-/

namespace XinOS.Printf

open XinOS.Foundation

variable {w : Nat}

def digitChars : Nat → BitVec w → List Byte
  | 0, _ => []
  | i + 1, num => digitChars i (num.sdiv 10) ++ [digitChar num]

/-- What `%d` prints; the most negative number is its own negation. -/
def decimalText (num : BitVec w) : List Byte :=
  if num.slt 0 then char '-' :: digitChars (countDigits w (-num)) (-num)
  else digitChars (countDigits w num) num

def hexText : Nat → BitVec w → List Byte
  | 0, _ => []
  | i + 1, num => hexChar (num.sshiftRight (4 * i) &&& 15).toNat :: hexText i num

theorem digitChars_length (i : Nat) (num : BitVec w) :
    (digitChars i num).length = i := by
  induction i generalizing num with
  | zero => rfl
  | succ i ih => rw [digitChars, List.length_append, ih, List.length_singleton]

/-! ## Signed arithmetic -/

theorem tmod_ten_bounds (i : Int) : -10 < i.tmod 10 ∧ i.tmod 10 < 10 := by
  have habs : (i.tmod 10).natAbs = i.natAbs % 10 := Int.natAbs_tmod i 10
  omega

section Signed

variable (hw : 8 ≤ w)
include hw

theorem two_pow_large : (256 : Int) ≤ 2 ^ w := by
  have hpow : 2 ^ 8 ≤ 2 ^ w := Nat.pow_le_pow_right (by omega) hw
  exact_mod_cast hpow

theorem toInt_small {n : Nat} (hn : n < 2 ^ 7) : (BitVec.ofNat w n).toInt = n := by
  have hlarge := two_pow_large hw
  rw [BitVec.toInt_ofNat', Int.bmod_eq_of_le] <;> push_cast <;> omega

theorem toInt_ten : (10 : BitVec w).toInt = 10 := toInt_small hw (by decide)

theorem toInt_div_ten (num : BitVec w) :
    (num.sdiv 10).toInt = num.toInt.tdiv 10 := by
  have hlarge := two_pow_large hw
  have hten := toInt_ten hw
  have hne : (10 : BitVec w) ≠ -1#w := by
    intro heq
    have hone : (-1#w).toInt = -1 := by
      rw [BitVec.toInt_neg, toInt_small hw (by decide), Int.bmod_eq_of_le] <;>
        push_cast <;> omega
    rw [heq, hone] at hten
    omega
  rw [BitVec.toInt_sdiv_of_ne_or_ne _ _ (.inr hne), hten]

/-- The sign of the remainder is that of the number. -/
theorem digitChar_toNat (num : BitVec w) :
    ((digitChar num).toNat : Int) = 48 + num.toInt.tmod 10 := by
  have hlarge := two_pow_large hw
  have hrem : (num.srem 10).toInt = num.toInt.tmod 10 := by
    rw [BitVec.toInt_srem, toInt_ten hw]
  have hbounds := tmod_ten_bounds num.toInt
  have hsum : (48 + num.srem 10).toInt = 48 + num.toInt.tmod 10 := by
    rw [BitVec.toInt_add, hrem, show (48 : BitVec w).toInt = 48 from
      toInt_small hw (by decide), Int.bmod_eq_of_le] <;> push_cast <;> omega
  have hlt : ((48 + num.srem 10).toNat : Int) < 2 ^ w := by
    exact_mod_cast (48 + num.srem 10).isLt
  rw [BitVec.toInt_eq_toNat_cond] at hsum
  rw [digitChar, BitVec.toNat_setWidth]
  push_cast at hsum
  split_ifs at hsum <;> omega

theorem digitChar_ne_zero (num : BitVec w) : digitChar num ≠ 0 := by
  intro hzero
  have htoNat := digitChar_toNat hw num
  have hbounds := tmod_ten_bounds num.toInt
  rw [hzero] at htoNat
  simp only [BitVec.ofNat_eq_ofNat, BitVec.toNat_ofNat, Nat.zero_mod,
    Nat.cast_zero] at htoNat
  omega

end Signed

theorem hexChar_ne_zero : ∀ d < 16, hexChar d ≠ 0 := by decide

theorem fifteen_toNat (hw : 4 ≤ w) : (15 : BitVec w).toNat = 15 := by
  have hpow : 2 ^ 4 ≤ 2 ^ w := Nat.pow_le_pow_right (by decide) hw
  exact (BitVec.toNat_ofNat 15 w).trans (Nat.mod_eq_of_lt (by omega))

theorem nibble_lt (hw : 8 ≤ w) (num : BitVec w) (i : Nat) :
    (num.sshiftRight (4 * i) &&& 15).toNat < 16 := by
  have hle : (num.sshiftRight (4 * i) &&& 15).toNat ≤ (15 : BitVec w).toNat := by
    rw [BitVec.toNat_and]
    exact Nat.and_le_right
  have hfifteen := fifteen_toNat (show 4 ≤ w by omega)
  omega

theorem digitChars_visible (hw : 8 ≤ w) (i : Nat) (num : BitVec w) :
    0 ∉ digitChars i num := by
  induction i generalizing num with
  | zero => exact List.not_mem_nil
  | succ i ih =>
      rw [digitChars, List.mem_append, not_or, List.mem_singleton]
      exact ⟨ih _, (digitChar_ne_zero hw num).symm⟩

end XinOS.Printf
