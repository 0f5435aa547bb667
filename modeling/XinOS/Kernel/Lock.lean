import XinOS.Platform
import XinOS.Foundation.Transition
import Mathlib.Logic.Function.Basic

/-!
# Spinlocks: lock.c

Tasks share one `lock_t` and can be preempted between any two of their accesses to
it.  The lock is held to refine a mutex, which has one owner or none: a task owns
it from the swap that finds it free, before it has looked at the result.
-/

namespace XinOS.Kernel

open XinOS.Foundation

variable {ι : Type}

/-! ## The lock and its users -/

/-- Where a task stands in `lock_acquire`: in front of `atomic_swap`, or with its
result in front of the test of the loop. -/
inductive LockPoint where
  | outside
  | swap
  | test (swapped : CInt)
  deriving DecidableEq, Repr

/-- `holds`: a call of `lock_acquire` has returned and `lock_free` has not stored
yet. -/
structure LockUser where
  point : LockPoint
  holds : Bool
  deriving DecidableEq, Repr

structure LockState (ι : Type) where
  locked : CInt
  user : ι → LockUser

inductive LockOp (ι : Type) where
  | acquire (i : ι)
  | swap (i : ι)
  | test (i : ι)
  | free (i : ι)

/-- The result of `atomic_swap`, and what it leaves in the lock. -/
def atomicSwap (locked : CInt) : CInt × CInt := (locked, 1)

namespace LockState

def init : LockState ι where
  locked := 0
  user := fun _ => ⟨.outside, false⟩

variable [DecidableEq ι] (s : LockState ι) (i : ι)

def setUser (u : LockUser) : LockState ι :=
  { s with user := Function.update s.user i u }

def acquire : Option (LockState ι) :=
  if (s.user i).point = .outside then
    some (s.setUser i { s.user i with point := .swap })
  else none

def swap : Option (LockState ι) :=
  if (s.user i).point = .swap then
    let (result, locked) := atomicSwap s.locked
    some { s.setUser i { s.user i with point := .test result } with
      locked := locked }
  else none

def test : Option (LockState ι) :=
  match (s.user i).point with
  | .test result =>
      if result ≠ 0 then some (s.setUser i { s.user i with point := .swap })
      else some (s.setUser i ⟨.outside, true⟩)
  | _ => none

def free : Option (LockState ι) :=
  if (s.user i).point = .outside ∧ (s.user i).holds = true then
    some { s.setUser i { s.user i with holds := false } with locked := 0 }
  else none

end LockState

def LockOp.step [DecidableEq ι] (s : LockState ι) : LockOp ι → Option (LockState ι)
  | .acquire i => s.acquire i
  | .swap i => s.swap i
  | .test i => s.test i
  | .free i => s.free i

/-! ## The mutex -/

inductive MutexOp (ι : Type) where
  | take (i : ι)
  | release (i : ι)

def MutexOp.step [DecidableEq ι] (owner : Option ι) : MutexOp ι → Option (Option ι)
  | .take i => if owner = none then some (some i) else none
  | .release i => if owner = some i then some none else none

/-- The task holds the lock, or it is about to see that it does. -/
def LockUser.Owns (u : LockUser) : Prop :=
  u.holds = true ∨ u.point = .test 0

structure LockOwner (s : LockState ι) (o : Option ι) : Prop where
  owner : ∀ i, (s.user i).Owns ↔ o = some i
  locked : s.locked = if o = none then 0 else 1

theorem LockOwner.init : LockOwner (LockState.init : LockState ι) none where
  owner := by simp [LockUser.Owns, LockState.init]
  locked := rfl

section Steps

variable [DecidableEq ι] {s s' : LockState ι} {o : Option ι} {i : ι}

theorem LockState.setUser_owns (u : LockUser) (j : ι) :
    ((s.setUser i u).user j).Owns ↔
      j = i ∧ u.Owns ∨ j ≠ i ∧ (s.user j).Owns := by
  by_cases hj : j = i
  · subst hj
    simp [LockState.setUser]
  · simp [LockState.setUser, hj]

namespace LockOwner

theorem setUser (h : LockOwner s o) {u : LockUser}
    (hu : u.Owns ↔ (s.user i).Owns) : LockOwner (s.setUser i u) o where
  owner := fun j => by
    rw [← h.owner j, LockState.setUser_owns, hu]
    by_cases hj : j = i
    · subst hj
      simp
    · simp [hj]
  locked := h.locked

theorem swap (h : LockOwner s o) (hstep : s.swap i = some s') :
    ∃ o', LockOwner s' o' ∧
      Reaches (stepRel MutexOp.step) anyLabel o o' := by
  simp only [LockState.swap, atomicSwap] at hstep
  split at hstep
  · rename_i hpoint
    cases hstep
    cases o with
    | none =>
        -- The swap finds 0: the task owns the lock before it tests the result.
        have hzero : s.locked = 0 := h.locked
        have hnew : LockUser.Owns { s.user i with point := .test s.locked } :=
          .inr (congrArg LockPoint.test hzero)
        refine ⟨some i, ⟨fun j => ?_, rfl⟩,
          Reaches.refl.tail (i := .take i) trivial rfl⟩
        refine (LockState.setUser_owns _ j).trans ?_
        rw [h.owner j, Option.some.injEq]
        simp [hnew, eq_comm]
    | some j =>
        have hone : s.locked = 1 := h.locked
        have hkept := h.setUser (i := i)
          (u := { s.user i with point := .test s.locked })
          (by simp [LockUser.Owns, hpoint, hone])
        exact ⟨some j, ⟨hkept.owner, rfl⟩, .refl⟩
  · cases hstep

theorem test (h : LockOwner s o) (hstep : s.test i = some s') :
    LockOwner s' o := by
  simp only [LockState.test] at hstep
  split at hstep
  · rename_i result hpoint
    split at hstep
    · rename_i hresult
      cases hstep
      have hne : result ≠ 0#32 := hresult
      exact h.setUser (by simp [LockUser.Owns, hpoint, hne])
    · rename_i hresult
      cases hstep
      have howns : (s.user i).Owns :=
        .inr (hpoint.trans (congrArg LockPoint.test (not_not.mp hresult)))
      exact h.setUser ⟨fun _ => howns, fun _ => .inl rfl⟩
  · cases hstep

theorem free (h : LockOwner s o) (hstep : s.free i = some s') :
    o = some i ∧ LockOwner s' none := by
  simp only [LockState.free] at hstep
  split at hstep
  · rename_i hcond
    obtain ⟨hpoint, hholds⟩ := hcond
    cases hstep
    have ho : o = some i := (h.owner i).mp (.inl hholds)
    have hnew : ¬LockUser.Owns { s.user i with holds := false } := by
      simp [LockUser.Owns, hpoint]
    refine ⟨ho, ⟨fun j => ?_, rfl⟩⟩
    refine (LockState.setUser_owns _ j).trans ?_
    rw [h.owner j, ho, Option.some.injEq]
    simp [hnew, eq_comm]
  · cases hstep

theorem step (h : LockOwner s o) {op : LockOp ι} (hstep : op.step s = some s') :
    ∃ o', LockOwner s' o' ∧
      Reaches (stepRel MutexOp.step) anyLabel o o' := by
  cases op with
  | acquire i =>
      simp only [LockOp.step, LockState.acquire] at hstep
      split at hstep
      · rename_i hpoint
        cases hstep
        exact ⟨o, h.setUser (by simp [LockUser.Owns, hpoint]), .refl⟩
      · cases hstep
  | swap i => exact h.swap hstep
  | test i => exact ⟨o, h.test hstep, .refl⟩
  | free i =>
      obtain ⟨rfl, hfree⟩ := h.free hstep
      exact ⟨none, hfree,
        Reaches.refl.tail (i := .release i) trivial (if_pos rfl)⟩

end LockOwner

/-- The lock refines the mutex. -/
theorem lockOwner_of_reaches
    (h : Reaches (stepRel LockOp.step) anyLabel LockState.init s) :
    ∃ o, LockOwner s o ∧ Reaches (stepRel MutexOp.step) anyLabel none o :=
  h.simulates LockOwner.init fun _ _ _ _ hsim _ hstep => hsim.step hstep

/-- At most one task is past `lock_acquire` and not past `lock_free`, and the lock
is taken while one is. -/
theorem lock_exclusive
    (h : Reaches (stepRel LockOp.step) anyLabel LockState.init s) :
    (∀ i j, (s.user i).holds = true → (s.user j).holds = true → i = j) ∧
      ∀ i, (s.user i).holds = true → s.locked = 1 := by
  obtain ⟨o, hsim, -⟩ := lockOwner_of_reaches h
  have howner : ∀ i, (s.user i).holds = true → o = some i := fun i hi =>
    (hsim.owner i).mp (.inl hi)
  refine ⟨fun i j hi hj => ?_, fun i hi => ?_⟩
  · exact Option.some.inj ((howner i hi).symm.trans (howner j hj))
  · rw [hsim.locked, howner i hi]
    rfl

theorem lock_exclusive_of_preempted :
    ∃ s : LockState Nat, exec LockOp.step LockState.init
        [.acquire 1, .acquire 2, .swap 1, .swap 2, .test 2, .test 1] = some s ∧
      (s.user 1).holds = true ∧ s.locked = 1 := by
  obtain ⟨s, hrun, hholds⟩ : ∃ s : LockState Nat,
      exec LockOp.step LockState.init
        [.acquire 1, .acquire 2, .swap 1, .swap 2, .test 2, .test 1] = some s ∧
      (s.user 1).holds = true := ⟨_, rfl, rfl⟩
  exact ⟨s, hrun, hholds,
    (lock_exclusive (Reaches.exec .refl (fun _ _ _ => trivial) hrun)).2 1 hholds⟩

end Steps

end XinOS.Kernel
