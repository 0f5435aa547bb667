import Mathlib.Data.List.MinMax
import Mathlib.Logic.Function.Basic
import Mathlib.Data.BitVec

/-!
# The interrupt controller: plic.c

What the PLIC keeps of its sources for machine mode of the one hart: priorities, enable
bits, the threshold, which sources have an interrupt pending, and which have been claimed
and not completed.
-/

namespace XinOS.Console

def uart0Irq : Nat := 10

/-- `VIRT_PLIC_NUM_SOURCES` -/
def numSources : Nat := 127

structure Plic where
  priority : Nat → BitVec 32
  menable : Nat → BitVec 32
  mthreshold : BitVec 32
  pending : Nat → Bool
  claimed : Nat → Bool

namespace Plic

variable (p : Plic)

def enabled (irq : Nat) : Bool := (p.menable (irq / 32)).getLsbD (irq % 32)

/-- A source with priority 0 is off. -/
def candidates : List Nat :=
  (List.range (numSources + 1)).filter fun irq =>
    decide (irq ≠ 0) && p.pending irq && p.enabled irq && decide (0 < p.priority irq)

def notifies : Bool := p.candidates.any fun irq => decide (p.mthreshold < p.priority irq)

def claim (irq : Nat) : Plic :=
  { p with
    pending := Function.update p.pending irq false
    claimed := Function.update p.claimed irq true }

/-- A source has something to report; one that is being served waits. -/
def report (irq : Nat) : Plic :=
  if p.claimed irq then p else { p with pending := Function.update p.pending irq true }

end Plic

/-! ## plic.c -/

def plicInit (p : Plic) : Plic :=
  let p := { p with priority := Function.update p.priority uart0Irq 1 }
  let menable := p.menable 0
  let p := { p with menable := Function.update p.menable 0 (menable ||| 1 <<< uart0Irq) }
  { p with mthreshold := 0 }

/-- `plic_claim`: the candidate of the highest priority, the first one among equals, or 0.
It is not pending any more. -/
def plicClaim (p : Plic) : Nat × Plic :=
  match p.candidates.argmax (fun irq => (p.priority irq).toNat) with
  | none => (0, p)
  | some irq => (irq, p.claim irq)

def plicComplete (p : Plic) (irq : Nat) : Plic :=
  { p with claimed := Function.update p.claimed irq false }

namespace Plic

variable {p : Plic} {irq : Nat}

structure Ready (p : Plic) : Prop where
  enabled : p.enabled uart0Irq = true
  priority : p.priority uart0Irq = 1
  mthreshold : p.mthreshold = 0

theorem plicInit_ready (p : Plic) : (plicInit p).Ready where
  enabled := by
    have hbit : ∀ x : BitVec 32, (x ||| 1 <<< uart0Irq).getLsbD 10 = true := by
      intro x
      simp [uart0Irq]
    exact hbit (p.menable 0)
  priority := by simp [plicInit]
  mthreshold := rfl

theorem mem_candidates : irq ∈ p.candidates ↔
    (0 < irq ∧ irq ≤ numSources) ∧ p.pending irq = true ∧ p.enabled irq = true ∧
      0 < p.priority irq := by
  simp only [candidates, List.mem_filter, List.mem_range, Bool.and_eq_true,
    decide_eq_true_eq]
  constructor
  · rintro ⟨hlt, ⟨⟨hne, hpending⟩, henabled⟩, hpriority⟩
    exact ⟨⟨by omega, by omega⟩, hpending, henabled, hpriority⟩
  · rintro ⟨⟨hpos, hle⟩, hpending, henabled, hpriority⟩
    exact ⟨by omega, ⟨⟨by omega, hpending⟩, henabled⟩, hpriority⟩

theorem Ready.candidate (h : p.Ready) (hpending : p.pending uart0Irq = true) :
    uart0Irq ∈ p.candidates :=
  mem_candidates.mpr ⟨by decide, hpending, h.enabled, by rw [h.priority]; decide⟩

theorem Ready.notifies (h : p.Ready) (hpending : p.pending uart0Irq = true) :
    p.notifies = true :=
  List.any_eq_true.mpr ⟨uart0Irq, h.candidate hpending, by
    rw [h.mthreshold, h.priority]
    decide⟩

theorem plicClaim_cases (p : Plic) :
    (p.candidates = [] ∧ plicClaim p = (0, p)) ∨
    ∃ irq, irq ∈ p.candidates ∧ (∀ j ∈ p.candidates, p.priority j ≤ p.priority irq) ∧
      plicClaim p = (irq, p.claim irq) := by
  rw [plicClaim]
  cases hbest : p.candidates.argmax fun irq => (p.priority irq).toNat with
  | none => exact .inl ⟨List.argmax_eq_none.mp hbest, rfl⟩
  | some irq =>
      exact .inr ⟨irq, List.argmax_mem hbest, fun j hj => List.le_of_mem_argmax hj hbest,
        rfl⟩

theorem Ready.claim (h : p.Ready) (irq : Nat) : (p.claim irq).Ready :=
  ⟨h.enabled, h.priority, h.mthreshold⟩

theorem Ready.report (h : p.Ready) (irq : Nat) : (p.report irq).Ready := by
  unfold Plic.report
  split_ifs
  · exact h
  · exact ⟨h.enabled, h.priority, h.mthreshold⟩

theorem report_claimed (p : Plic) (irq : Nat) : (p.report irq).claimed = p.claimed := by
  unfold report
  split_ifs <;> rfl

end Plic

end XinOS.Console
