import XinOS.Foundation.Memory
import Mathlib.Data.List.Nodup

/-!
# Straight-line machine code

A hart with general registers `R`, control registers `C` and a byte memory, and
the instructions with which kernels save and restore registers.  Words have `n`
bytes, and registers `w` bits.
-/

namespace XinOS.Foundation

variable {R C : Type} {w : Nat}

structure Hart (R C : Type) (w : Nat) where
  reg : R → BitVec w
  csr : C → BitVec w
  pc : BitVec w
  mem : Memory

inductive Instr (R C : Type) where
  | store (src base : R) (offset : Nat)
  | load (dst base : R) (offset : Nat)
  | mv (dst src : R)
  | csrrw (dst : R) (csr : C) (src : R)
  | csrr (dst : R) (csr : C)
  | csrw (csr : C) (src : R)

namespace Hart

def address (h : Hart R C w) (base : R) (offset : Nat) : Nat :=
  (h.reg base + BitVec.ofNat w offset).toNat

theorem address_eq {h : Hart R C w} {base : R} {o size : Nat}
    (hfit : (h.reg base).toNat + size ≤ 2 ^ w) (ho : o < size) :
    h.address base o = (h.reg base).toNat + o := by
  rw [address, BitVec.toNat_add, BitVec.toNat_ofNat,
    Nat.mod_eq_of_lt (show o < 2 ^ w by omega), Nat.mod_eq_of_lt (by omega)]

section Setters

variable (h : Hart R C w) (r : R) (c : C) (v : BitVec w) (m : Memory)

def setMem : Hart R C w := { h with mem := m }

@[simp] theorem setMem_reg : (h.setMem m).reg = h.reg := rfl

@[simp] theorem setMem_csr : (h.setMem m).csr = h.csr := rfl

@[simp] theorem setMem_mem : (h.setMem m).mem = m := rfl

section Register

variable [DecidableEq R]

def setReg : Hart R C w := { h with reg := Function.update h.reg r v }

@[simp] theorem setReg_reg :
    (h.setReg r v).reg = Function.update h.reg r v := rfl

@[simp] theorem setReg_csr : (h.setReg r v).csr = h.csr := rfl

@[simp] theorem setReg_mem : (h.setReg r v).mem = h.mem := rfl

end Register

section Control

variable [DecidableEq C]

def setCsr : Hart R C w := { h with csr := Function.update h.csr c v }

@[simp] theorem setCsr_reg : (h.setCsr c v).reg = h.reg := rfl

@[simp] theorem setCsr_csr :
    (h.setCsr c v).csr = Function.update h.csr c v := rfl

@[simp] theorem setCsr_mem : (h.setCsr c v).mem = h.mem := rfl

end Control

end Setters

variable [DecidableEq R] [DecidableEq C]

def exec (n : Nat) (h : Hart R C w) : Instr R C → Hart R C w
  | .store src base offset =>
      h.setMem (h.mem.store n (h.address base offset) (h.reg src).toNat)
  | .load dst base offset =>
      h.setReg dst (BitVec.ofNat w (h.mem.load n (h.address base offset)))
  | .mv dst src => h.setReg dst (h.reg src)
  | .csrrw dst csr src =>
      (h.setCsr csr (h.reg src)).setReg dst (h.csr csr)
  | .csrr dst csr => h.setReg dst (h.csr csr)
  | .csrw csr src => h.setCsr csr (h.reg src)

def run (n : Nat) (h : Hart R C w) (program : List (Instr R C)) : Hart R C w :=
  program.foldl (exec n) h

theorem run_append (n : Nat) (h : Hart R C w) (p q : List (Instr R C)) :
    h.run n (p ++ q) = (h.run n p).run n q :=
  List.foldl_append

theorem run_cons (n : Nat) (h : Hart R C w) (i : Instr R C)
    (p : List (Instr R C)) : h.run n (i :: p) = (h.exec n i).run n p := rfl

@[simp] theorem run_nil (n : Nat) (h : Hart R C w) : h.run n [] = h := rfl

end Hart

/-! ## Register files in memory -/

section Frames

variable [DecidableEq R] [DecidableEq C] {n : Nat} {offset : R → Nat}

/-- The word for `r` in the frame at `a` is `v r`, for the registers of `rs`. -/
def FrameHolds (n : Nat) (offset : R → Nat) (m : Memory) (a : Nat)
    (rs : List R) (v : R → BitVec w) : Prop :=
  ∀ r ∈ rs, m.load n (a + offset r) = (v r).toNat

def Apart (n : Nat) (offset : R → Nat) : Prop :=
  ∀ r s, r ≠ s → offset r + n ≤ offset s ∨ offset s + n ≤ offset r

/-- Storing registers writes their words to the frame, and only there. -/
theorem Hart.run_stores (h : Hart R C w) {base : R} {size : Nat}
    (hw : 256 ^ n = 2 ^ w) (hfit : (h.reg base).toNat + size ≤ 2 ^ w)
    (hn : 0 < n) (hin : ∀ r, offset r + n ≤ size) (hapart : Apart n offset)
    {rs : List R} (hnodup : rs.Nodup) :
    ∃ m, h.run n (rs.map fun r => .store r base (offset r)) = h.setMem m ∧
      FrameHolds n offset m (h.reg base).toNat rs h.reg ∧
      (∀ r, r ∉ rs → m.load n ((h.reg base).toNat + offset r) =
        h.mem.load n ((h.reg base).toNat + offset r)) ∧
      Memory.SameOutside (h.reg base).toNat ((h.reg base).toNat + size) h.mem m := by
  induction rs generalizing h with
  | nil => exact ⟨h.mem, rfl, by simp [FrameHolds], fun _ _ => rfl,
      Memory.SameOutside.refl _ _ _⟩
  | cons r rs ih =>
      obtain ⟨hr, hnodup⟩ := List.nodup_cons.mp hnodup
      have hroom := hin r
      have haddr := Hart.address_eq hfit (show offset r < size by omega)
      have hexec : h.exec n (.store r base (offset r)) =
          h.setMem (h.mem.store n ((h.reg base).toNat + offset r)
            (h.reg r).toNat) := by
        rw [Hart.exec, haddr]
      obtain ⟨m, hrun, hholds, hother, hsame⟩ := ih
        (h := h.setMem (h.mem.store n ((h.reg base).toNat + offset r)
          (h.reg r).toNat)) hfit hnodup
      have hself := h.mem.load_store_self ((h.reg base).toNat + offset r)
        (v := (h.reg r).toNat) (n := n) (by rw [hw]; exact (h.reg r).isLt)
      refine ⟨m, ?_, ?_, ?_, ?_⟩
      · rw [List.map_cons, Hart.run_cons, hexec, hrun]
        rfl
      · intro s hs
        rcases List.mem_cons.mp hs with rfl | hs
        · exact (hother s hr).trans hself
        · exact hholds s hs
      · intro s hs
        have hne : r ≠ s := fun heq => hs (by simp [heq])
        have hsep := hapart r s hne
        refine (hother s fun hmem => hs (by simp [hmem])).trans ?_
        show (h.mem.store n ((h.reg base).toNat + offset r) _).load n
          ((h.reg base).toNat + offset s) = _
        exact h.mem.load_store_apart _ (by omega)
      · refine Memory.SameOutside.trans ?_ hsame
        exact (Memory.SameOutside.store _ _ _ _).mono (by omega) (by omega)

theorem Hart.run_loads (h : Hart R C w) {base : R} {size : Nat}
    {v : R → BitVec w} (hfit : (h.reg base).toNat + size ≤ 2 ^ w) (hn : 0 < n)
    (hin : ∀ r, offset r + n ≤ size) {rs : List R} (hbase : base ∉ rs)
    (hholds : FrameHolds n offset h.mem (h.reg base).toNat rs v) :
    ∃ reg, h.run n (rs.map fun r => .load r base (offset r)) =
        { h with reg := reg } ∧
      (∀ r ∈ rs, reg r = v r) ∧ ∀ r, r ∉ rs → reg r = h.reg r := by
  induction rs generalizing h with
  | nil => exact ⟨h.reg, rfl, by simp, fun _ _ => rfl⟩
  | cons r rs ih =>
      have hroom := hin r
      have hne : base ≠ r := fun heq => hbase (by simp [heq])
      have hload : h.exec n (.load r base (offset r)) = h.setReg r (v r) := by
        rw [Hart.exec, Hart.address_eq hfit (show offset r < size by omega),
          hholds r (by simp), BitVec.ofNat_toNat, BitVec.setWidth_eq]
      have hreg : (h.setReg r (v r)).reg base = h.reg base :=
        Function.update_of_ne hne _ _
      obtain ⟨reg, hrun, hin', hout⟩ := ih (h := h.setReg r (v r))
        (by rwa [hreg]) (fun hmem => hbase (by simp [hmem]))
        (by rw [hreg]; exact fun s hs => hholds s (by simp [hs]))
      refine ⟨reg, ?_, ?_, ?_⟩
      · rw [List.map_cons, Hart.run_cons, hload, hrun]
        rfl
      · intro s hs
        by_cases hmem : s ∈ rs
        · exact hin' s hmem
        · obtain rfl : s = r := (List.mem_cons.mp hs).resolve_right hmem
          rw [hout s hmem]
          exact Function.update_self _ _ _
      · intro s hs
        have hsr : s ≠ r := fun heq => hs (by simp [heq])
        rw [hout s fun hmem => hs (by simp [hmem])]
        exact Function.update_of_ne hsr _ _

end Frames

end XinOS.Foundation
