import XinOS.Kernel.MemoryRuns

/-!
# Preemption seen from a task, in memory

A task that has been interrupted finds its registers again, whatever the other tasks
and the kernel have done in between: nothing they do writes to a context of the list
but that of the task that runs.
-/

namespace XinOS.Kernel

open XinOS.Foundation XinOS.Page XinOS.Trap

variable {h : Heap} {osTask taskStack : Nat}

def MemoryHart.Listed {b : Build} (s : MemoryHart b) (p : Nat) : Prop :=
  Linked s.image.taskNext s.image.firstTask p

def contextOf (b : Build) (p : Nat) : BitVec b.xlen := BitVec.ofNat _ (p + ctxField b)

def WhileAway {b : Build} (p : Nat) (s : MemoryHart b) (_ : MemoryOp b) : Prop :=
  s.running ≠ some p

theorem Shows.listed_iff {g : Guard} {s : MemoryHart .rv64} {a : Machine Build.rv64.xlen}
    (hs : Shows h g s a) {p : Nat} : s.Listed p ↔ p ∈ a.kernel.liveTasks := by
  obtain ⟨l, m, hl⟩ := hs.lists
  have htasks := hs.resides.tasks hl.tasks.path fun _ hq => hl.tasks.mem_live.mpr hq
  rw [MemoryHart.Listed, htasks.linked_iff, hl.tasks.mem_live]

section Away

variable {s s' : MemoryHart .rv64} {a : Machine Build.rv64.xlen} {p : Nat}

theorem contextOf_toNat (hs : Shows h .none s a) (hh : Heap64 h) (hp : s.Listed p) :
    (contextOf .rv64 p).toNat = p + ctxField .rv64 ∧ Fits (contextOf .rv64 p) := by
  have hlast : p + taskBytes .rv64 ≤ 2 ^ 64 :=
    (hs.resides.inHeap hh (task_mem_objects (hs.listed_iff.mp hp))).2
  have hend := Shows.context_end p
  have hpos := wordBytes_pos .rv64
  have hsize := pcField_add .rv64
  have htoNat : (contextOf .rv64 p).toNat = p + ctxField .rv64 :=
    (BitVec.toNat_ofNat ..).trans (Nat.mod_eq_of_lt (show _ < 2 ^ 64 by omega))
  refine ⟨htoNat, ?_⟩
  rw [Fits, htoNat]
  exact hend.trans_le hlast

theorem Shows.guarded {m : Memory} (hs : Shows h ⟨[p], m⟩ s a)
    (hctx : (contextOf .rv64 p).toNat = p + ctxField .rv64) :
    s.Listed p ∧ SameContext (contextOf .rv64 p) m s.image.mem := by
  refine ⟨hs.listed_iff.mpr (hs.resides.live p (by simp)), fun x hlo hhi => ?_⟩
  rw [hctx] at hlo hhi
  rw [Shows.context_end] at hhi
  exact hs.resides.saved p (by simp) x hlo hhi

theorem Shows.kept_of_step (hs : Shows h .none s a) (hh : Heap64 h)
    (hst : Statics .rv64 h osTask taskStack) (hp : s.Listed p)
    (haway : s.running ≠ some p) {op : MemoryOp .rv64}
    (hstep : MemoryOp.step h osTask taskStack s op = some s') :
    Followed h .none taskStack a s' ∧ s'.Listed p ∧
      SameContext (contextOf .rv64 p) s.image.mem s'.image.mem := by
  obtain ⟨hop, hok⟩ := guarded_eq_some.mp hstep
  have hg : Guard.Spares ⟨[p], s.image.mem⟩ s.running := fun q hq hmem => by
    obtain rfl : q = p := List.mem_singleton.mp hmem
    exact haway hq
  rcases (hs.guard (hs.listed_iff.mp hp)).follow hh hst hg hop with
    ⟨s₁, hok', -, a', hs', hreach⟩ | ⟨hfail, -⟩
  · obtain rfl : s₁ = s' := Except.ok.inj (hok'.symm.trans hok)
    exact ⟨⟨a', hs'.unguard, hreach⟩, hs'.guarded (contextOf_toNat hs hh hp).1⟩
  · exact absurd (hfail.symm.trans hok) (by simp)

theorem Shows.kept (hs : Shows h .none s a) (hh : Heap64 h)
    (hst : Statics .rv64 h osTask taskStack) (hp : s.Listed p)
    (hrun : Reaches (stepRel (MemoryOp.step h osTask taskStack)) (WhileAway p) s s') :
    s'.Listed p ∧ SameContext (contextOf .rv64 p) s.image.mem s'.image.mem := by
  have hkept := hrun.invariant
    (P := fun t => (∃ c, Shows h .none t c) ∧ t.Listed p ∧
      SameContext (contextOf .rv64 p) s.image.mem t.image.mem)
    ⟨⟨a, hs⟩, hp, SameContext.refl _ _⟩ ?_
  · exact hkept.2
  · rintro t op u ⟨⟨c, hc⟩, hlisted, hsame⟩ haway hstep
    obtain ⟨⟨c', hc', -⟩, hlisted', hsame'⟩ :=
      hc.kept_of_step hh hst hlisted haway hstep
    exact ⟨⟨c', hc'⟩, hlisted', fun x hlo hhi =>
      (hsame' x hlo hhi).trans (hsame x hlo hhi)⟩

/-! ## Being interrupted -/

end Away

/-! ## From boot on -/

section Resume

variable {b : Build} {s s₁ s₂ : MemoryHart b} {a : Machine b.xlen} {p : Nat}

end Resume

section Boot

variable {r : Board} {m₀ : Memory} {s s₁ s₂ : MemoryHart r.build} {p : Nat}

end Boot

/-! ## Two tasks -/

section TwoTasks

end TwoTasks

end XinOS.Kernel
