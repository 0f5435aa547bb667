import XinOS.Kernel.Image
import XinOS.Page.Metadata
import XinOS.Page.Unallocated
import XinOS.Trap.Transparency

/-!
# New tasks in recycled memory

`malloc` does not clear the memory it hands out, and `task_create` leaves the state of
the new task and most of its registers as they are there.
-/

namespace XinOS.Kernel

open XinOS.Foundation XinOS.Page XinOS.Trap

variable {b : Build} {h : Heap}

namespace Image

/-! ## The list of tasks -/

structure TasksTaken (h : Heap) (k : Image b) (l : List Nat) : Prop where
  tasks : k.Tasks l
  taken : ∀ q ∈ l, ∀ x, q + timesliceField ≤ x → x ≤ q + ctxField b → h.Taken k.mem x

section Create

variable {k k' : Image b} {l : List Nat} {taskStack : Nat} {a : TaskCall b}
variable {p q : Nat} {m : Memory}

theorem setTaskNext_mem (k : Image b) (q : Nat) (r : Option Ptr) {x : Nat}
    (hx : x < q + nextField ∨ q + ctxField b ≤ x) :
    (k.setTaskNext q r).mem x = k.mem x := by
  have hsame := Memory.SameOutside.store k.mem (wordBytes b) (q + nextField) (r.getD 0)
  exact hsame x (by rwa [Nat.add_assoc])

theorem insertTask_mem (htasks : k.Tasks l) {r : Int}
    (hins : k.insertTask p = .ok (r, k')) {x : Nat}
    (hx : ∀ q, q = p ∨ q ∈ l → x < q + nextField ∨ q + ctxField b ≤ x) :
    k'.mem x = k.mem x := by
  rw [insertTask] at hins
  cases hfirst : k.firstTask with
  | none =>
      rw [hfirst] at hins
      dsimp only at hins
      split_ifs at hins <;> cases hins <;> rfl
  | some first =>
      rw [hfirst] at hins
      dsimp only at hins
      split_ifs at hins
      · cases hins
        exact k.setTaskNext_mem p _ (hx p (.inl rfl))
      · split at hins
        · cases hins
        · next it prev hwalk =>
            have hpath : Path k.taskNext (some first) l none := hfirst ▸ htasks
            have hprev : prev ∈ l := by
              rcases hpath.walk_prev hwalk with rfl | hmem
              · exact hpath.first_mem
              · exact hmem
            cases hins
            show ((k.setTaskNext prev (some p)).setTaskNext p it).mem x = k.mem x
            rw [setTaskNext_mem _ p _ (hx p (.inl rfl)),
              setTaskNext_mem _ prev _ (hx prev (.inr hprev))]

theorem TasksTaken.apart (hlist : k.TasksTaken h l) (hfit : h.TableFits)
    (heq : malloc h (taskBytes b) k.mem = (some p, m)) (hq : q ∈ l) :
    p + taskBytes b ≤ q + nextField ∨ q + ctxField b ≤ p := by
  obtain ⟨hpos, hsmall, -, hlast⟩ := taskBytes_small b
  obtain ⟨hctx, hsize, hword⟩ := task_sizes b
  by_contra hout
  unfold nextField at hout
  -- a byte of the list that is in a block which was free
  have hfree := malloc_small_unallocated hfit hpos hsmall heq
    (x := max p (q + timesliceField)) (le_max_left _ _) (by
      rw [hlast]
      unfold timesliceField
      omega)
  have htaken := hlist.taken q hq (max p (q + timesliceField)) (le_max_right _ _) (by
    unfold timesliceField
    omega)
  exact htaken.not_unallocated hfree.1

theorem TasksTaken.kept (hlist : k.TasksTaken h l) (hfit : h.TableFits)
    (heq : malloc h (taskBytes b) k.mem = (some p, m)) (hq : q ∈ l) {x : Nat}
    (hlo : q + nextField ≤ x) (hhi : x < q + ctxField b) :
    m.storeAll p (k.taskWords taskStack a) x = k.mem x := by
  obtain ⟨hpos, hsmall, -, -⟩ := taskBytes_small b
  have hapart := hlist.apart hfit heq hq
  have htaken : ∀ y, q + 12 ≤ y → y ≤ q + ctxField b → h.Taken k.mem y :=
    hlist.taken q hq
  unfold nextField at hlo hapart
  rw [Memory.SameOutside.storeAll m p taskWords_inside x (by omega)]
  exact malloc_small_taken hfit hpos hsmall heq (htaken x (by omega) (by omega))
    (htaken (x + 1) (by omega) (by omega))

theorem taskNext_congr (hsame : ∀ x, q + nextField ≤ x → x < q + ctxField b →
    k'.mem x = k.mem x) : k'.taskNext q = k.taskNext q := by
  have hload : k'.mem.load (wordBytes b) (q + nextField) =
      k.mem.load (wordBytes b) (q + nextField) :=
    Memory.load_congr fun x hlo hhi => hsame x hlo (by rwa [Nat.add_assoc] at hhi)
  rw [taskNext, taskNext, readPtr, hload]
  rfl

theorem taskCreate_mem (hlist : k.TasksTaken h l) (hfit : h.TableFits)
    (hcreate : k.taskCreate h taskStack a = .ok (0, k')) :
    ∃ p m, malloc h (taskBytes b) k.mem = (some p, m) ∧
      ∀ x, p ≤ x → x < p + taskBytes b → (x < p + nextField ∨ p + ctxField b ≤ x) →
        k'.mem x = m.storeAll p (k.taskWords taskStack a) x := by
  obtain ⟨hctx, hsize, hword⟩ := task_sizes b
  rw [taskCreate] at hcreate
  split_ifs at hcreate
  · cases hcreate
  generalize hmalloc : malloc h (taskBytes b) k.mem = r at hcreate
  obtain ⟨_ | p, m⟩ := r
  · cases hcreate
  simp only [deref] at hcreate
  split at hcreate
  · cases hcreate
  · next r k₁ hins =>
      split_ifs at hcreate
      · split at hcreate <;> cases hcreate
      · cases hcreate
        let k₀ : Image b :=
          { k with mem := m.storeAll p (k.taskWords taskStack a), taskId := k.taskId + 1 }
        have htasks : k₀.Tasks l := by
          exact hlist.tasks.congr fun q hq => taskNext_congr fun y hlo hhi =>
            hlist.kept hfit hmalloc hq hlo hhi
        refine ⟨p, m, rfl, fun x hlo hhi hx => insertTask_mem htasks hins fun q hq => ?_⟩
        rcases hq with rfl | hq
        · exact hx
        · have hapart := hlist.apart hfit hmalloc hq
          omega

/-- The fields of a new task: those that `task_create` sets, and the others, which
hold what was in memory before. -/
structure Filled (k k' : Image b) (taskStack : Nat) (a : TaskCall b) (p : Nat) :
    Prop where
  set : ∀ f ∈ k.taskWords taskStack a, f.offset ≠ nextField →
    k'.mem.load f.size (p + f.offset) = f.value % 256 ^ f.size
  left : ∀ n o, 0 < n → o + n + 4 ≤ taskBytes b →
    (∀ f ∈ k.taskWords taskStack a, f.offset + f.size ≤ o ∨ o + n ≤ f.offset) →
      k'.mem.load n (p + o) = k.mem.load n (p + o)

theorem taskCreate_fields (hlist : k.TasksTaken h l) (hfit : h.TableFits)
    (hcreate : k.taskCreate h taskStack a = .ok (0, k')) :
    ∃ p, (malloc h (taskBytes b) k.mem).1 = some p ∧
      p + taskBytes b ≤ h.allocEnd ∧ Filled k k' taskStack a p := by
  obtain ⟨hpos, hsmall, htotal, hlast⟩ := taskBytes_small b
  obtain ⟨hctx, hsize, hword⟩ := task_sizes b
  obtain ⟨p, m, hmalloc, hmem⟩ := taskCreate_mem hlist hfit hcreate
  have hnext : ⟨nextField, wordBytes b, 0⟩ ∈ k.taskWords taskStack a := nextWord_mem
  refine ⟨p, by rw [hmalloc], ?_, fun f hf hne => ?_, fun n o hn hin hout => ?_⟩
  · have hheap := malloc_small_inHeap hfit hpos hsmall hmalloc
    omega
  · have hroom := taskWords_inside f hf
    have hapart : f.offset + f.size ≤ nextField ∨ ctxField b ≤ f.offset :=
      taskWords_apart.forall hf hnext fun heq => hne (congrArg Memory.Word.offset heq)
    rw [← Memory.load_storeAll m p taskWords_apart hf]
    exact Memory.load_congr fun x hlo hhi => hmem x (by omega) (by omega) (by omega)
  · have hlink : ctxField b ≤ o ∨ o + n ≤ nextField := hout _ hnext
    calc k'.mem.load n (p + o)
        = (m.storeAll p (k.taskWords taskStack a)).load n (p + o) :=
          Memory.load_congr fun x hlo hhi => hmem x (by omega) (by omega) (by omega)
      _ = m.load n (p + o) := Memory.load_storeAll_apart m p hout
      _ = k.mem.load n (p + o) := Memory.load_congr fun x hlo hhi =>
          (malloc_small_unallocated hfit hpos hsmall hmalloc (by omega)
            (by rw [hlast]; omega)).2

end Create

end Image

/-! ## What `switch_to` loads -/

def loadedRegs (b : Build) : List Reg := (restoreOffsets b).map Prod.fst

theorem restored_eq_iff_loaded {c : BitVec b.xlen} {f f' : Frame b} :
    restored c f' = restored c f ↔ ∀ r ∈ loadedRegs b, f'.reg r = f.reg r := by
  cases b with
  | rv32 =>
      have hall : ∀ r, r ∈ loadedRegs .rv32 := fun r => by cases r <;> decide
      exact funext_iff.trans ⟨fun heq r _ => heq r, fun heq r => heq r (hall r)⟩
  | rv64 =>
      have hother : ∀ r, r ∈ loadedRegs .rv64 ↔ r ≠ .t6 := fun r => by
        cases r <;> decide
      simp only [hother, restored]
      constructor
      · intro heq r hr
        have hreg := congrFun heq r
        rwa [Function.update_of_ne hr, Function.update_of_ne hr] at hreg
      · intro heq
        funext r
        by_cases hr : r = .t6
        · rw [hr, Function.update_self, Function.update_self]
        · rw [Function.update_of_ne hr, Function.update_of_ne hr, heq r hr]

/-- Whatever the hart held before, after `switch_to` to the context at `c` it holds
the same with `m₁` in memory as with `m₂`. -/
def SameSwitch (c : BitVec b.xlen) (m₁ m₂ : Memory) : Prop :=
  ∀ h₁ h₂ : Core b, h₁.mem = m₁ → h₂.mem = m₂ → h₁.reg .a0 = c → h₂.reg .a0 = c →
    frame (switchAway h₂) = frame (switchAway h₁)

theorem sameSwitch_iff {c : BitVec b.xlen} (hfit : Fits c) {m₁ m₂ : Memory} :
    SameSwitch c m₁ m₂ ↔
      (∀ r ∈ loadedRegs b, m₂.load (wordBytes b) (c.toNat + fieldOffset b r) =
        m₁.load (wordBytes b) (c.toNat + fieldOffset b r)) ∧
      m₂.load (wordBytes b) (c.toNat + pcField b) =
        m₁.load (wordBytes b) (c.toNat + pcField b) := by
  have hswitch : ∀ h : Core b, h.reg .a0 = c → frame (switchAway h) =
      ⟨restored c (System.readFrame h.mem c), (System.readFrame h.mem c).pc⟩ := by
    rintro h rfl
    exact (switchAway_spec h hfit (holds_readFrame h.mem _)).1
  have hword : ∀ a, BitVec.ofNat b.xlen (m₂.load (wordBytes b) a) =
      BitVec.ofNat b.xlen (m₁.load (wordBytes b) a) ↔
        m₂.load (wordBytes b) a = m₁.load (wordBytes b) a := by
    intro a
    have hlt : ∀ m : Memory, m.load (wordBytes b) a < 2 ^ b.xlen := fun m =>
      pow_wordBytes b ▸ m.load_lt _ a
    refine ⟨fun heq => ?_, congrArg _⟩
    have htoNat := congrArg BitVec.toNat heq
    rwa [BitVec.toNat_ofNat, BitVec.toNat_ofNat, Nat.mod_eq_of_lt (hlt _),
      Nat.mod_eq_of_lt (hlt _)] at htoNat
  have hframes : SameSwitch c m₁ m₂ ↔
      restored c (System.readFrame m₂ c) = restored c (System.readFrame m₁ c) ∧
        (System.readFrame m₂ c).pc = (System.readFrame m₁ c).pc := by
    constructor
    · intro hsame
      let hart : Memory → Core b := fun m =>
        { reg := fun _ => c, csr := fun _ => 0, pc := 0, mem := m }
      have heq := hsame (hart m₁) (hart m₂) rfl rfl rfl rfl
      rw [hswitch _ rfl, hswitch _ rfl] at heq
      have hpc := congrArg Frame.pc heq
      exact ⟨congrArg Frame.reg heq, hpc⟩
    · rintro ⟨hregs, hpc⟩ h₁ h₂ rfl rfl hc₁ hc₂
      rw [hswitch h₁ hc₁, hswitch h₂ hc₂, hregs, hpc]
  rw [hframes, restored_eq_iff_loaded]
  exact and_congr (forall₂_congr fun r _ => hword _) (hword _)

/-! ## Two runs -/

def ctxAddr (b : Build) (p : Nat) : BitVec b.xlen := BitVec.ofNat _ (p + ctxField b)

structure SameStart (b : Build) (p : Nat) (m₁ m₂ : Memory) : Prop where
  taskId : m₂.load 4 p = m₁.load 4 p
  priority : m₂.load 4 (p + priorityField) = m₁.load 4 (p + priorityField)
  state : m₂.load 4 (p + stateField) = m₁.load 4 (p + stateField)
  awake : m₁.load 4 (p + stateField) ≠ sleepingState
  timeslice : m₂.load 4 (p + timesliceField) = m₁.load 4 (p + timesliceField)
  registers : SameSwitch (ctxAddr b p) m₁ m₂

def unsetRegs (a : Image.TaskCall b) : List Reg :=
  (loadedRegs b).filter fun r => r ≠ .sp ∧ (r = .a0 → a.param = 0)

theorem mem_unsetRegs {a : Image.TaskCall b} {r : Reg} :
    r ∈ unsetRegs a ↔ r ∈ loadedRegs b ∧ r ≠ .sp ∧ (r = .a0 → a.param = 0) := by
  rw [unsetRegs, List.mem_filter, decide_eq_true_iff]

theorem mem_unsetRegs_or (k : Image b) (taskStack : Nat) (a : Image.TaskCall b) {r : Reg}
    (hr : r ∈ loadedRegs b) : r ∈ unsetRegs a ∨ ∃ v,
      ⟨ctxField b + fieldOffset b r, wordBytes b, v⟩ ∈ k.taskWords taskStack a := by
  rw [mem_unsetRegs]
  by_cases hsp : r = .sp
  · subst hsp
    exact .inr ⟨stackTop taskStack k.tasksNum.toInt, by simp [Image.taskWords]⟩
  · by_cases ha0 : r = .a0 → a.param = 0
    · exact .inl ⟨hr, hsp, ha0⟩
    · obtain ⟨rfl, hparam⟩ := Classical.not_imp.mp ha0
      refine .inr ⟨a.param.toNat, ?_⟩
      rw [Image.taskWords, if_pos hparam]
      simp

theorem unsetRegs_apart {k : Image b} {taskStack : Nat} {a : Image.TaskCall b} {r : Reg}
    (hr : r ∈ unsetRegs a) : ∀ f ∈ k.taskWords taskStack a,
      f.offset + f.size ≤ ctxField b + fieldOffset b r ∨
        ctxField b + fieldOffset b r + wordBytes b ≤ f.offset := by
  obtain ⟨-, hsp, ha0⟩ := mem_unsetRegs.mp hr
  obtain ⟨hctx, -, -⟩ := task_sizes b
  have hsp' := apart_fieldOffset b r .sp hsp
  have hpc := fieldOffset_lt b r
  apply Image.forall_taskWords (P := fun o n => o + n ≤ ctxField b + fieldOffset b r ∨
    ctxField b + fieldOffset b r + wordBytes b ≤ o)
  · omega
  · omega
  · omega
  · omega
  · intro hparam
    have ha0' := apart_fieldOffset b r .a0 fun heq => hparam (ha0 heq)
    omega

/-- The old bytes agree where `task_create` leaves them, and are not those of a
sleeping task. -/
structure SameLeftovers (a : Image.TaskCall b) (p : Nat) (m₁ m₂ : Memory) : Prop where
  state : m₂.load 4 (p + stateField) = m₁.load 4 (p + stateField)
  awake : m₁.load 4 (p + stateField) ≠ sleepingState
  registers : ∀ r ∈ unsetRegs a,
    m₂.load (wordBytes b) (p + (ctxField b + fieldOffset b r)) =
      m₁.load (wordBytes b) (p + (ctxField b + fieldOffset b r))

section Filled

variable {k₁ k₂ k₁' k₂' : Image b} {taskStack : Nat} {a : Image.TaskCall b} {p : Nat}
variable (h₁ : k₁.Filled k₁' taskStack a p) (h₂ : k₂.Filled k₂' taskStack a p)
variable (hwords : k₂.taskWords taskStack a = k₁.taskWords taskStack a)
include h₁ h₂ hwords

theorem Image.Filled.set_same {f : Memory.Word} (hf : f ∈ k₁.taskWords taskStack a)
    (hne : f.offset ≠ nextField) :
    k₂'.mem.load f.size (p + f.offset) = k₁'.mem.load f.size (p + f.offset) :=
  (h₂.set f (hwords ▸ hf) hne).trans (h₁.set f hf hne).symm

omit h₂ hwords in
theorem Image.Filled.state_left : k₁'.mem.load 4 (p + stateField) =
    k₁.mem.load 4 (p + stateField) := by
  obtain ⟨-, hsize, hword⟩ := task_sizes b
  exact h₁.left 4 stateField (by decide) (by unfold stateField; omega)
    Image.stateField_unset

omit h₂ hwords in
theorem Image.Filled.reg_left {r : Reg} (hr : r ∈ unsetRegs a) :
    k₁'.mem.load (wordBytes b) (p + (ctxField b + fieldOffset b r)) =
      k₁.mem.load (wordBytes b) (p + (ctxField b + fieldOffset b r)) := by
  obtain ⟨hctx, hsize, hword⟩ := task_sizes b
  obtain ⟨-, -, hpc⟩ := context_offsets b
  have hlast := fieldOffset_lt b r
  exact h₁.left _ _ (by omega) (by omega) (unsetRegs_apart hr)

theorem Image.Filled.sameSwitch_iff (hspace : p + taskBytes b < 2 ^ b.xlen) :
    SameSwitch (ctxAddr b p) k₁'.mem k₂'.mem ↔ ∀ r ∈ unsetRegs a,
      k₂.mem.load (wordBytes b) (p + (ctxField b + fieldOffset b r)) =
        k₁.mem.load (wordBytes b) (p + (ctxField b + fieldOffset b r)) := by
  obtain ⟨hctx, hsize, hword⟩ := task_sizes b
  have hroom : ctxField b + contextBytes b = taskBytes b := rfl
  have haddr : (ctxAddr b p).toNat = p + ctxField b := by
    rw [ctxAddr, BitVec.toNat_ofNat, Nat.mod_eq_of_lt (by omega)]
  have hfits : Fits (ctxAddr b p) := by
    rw [Fits, haddr]
    omega
  have hne : ∀ o, ctxField b + o ≠ nextField := fun o => by
    unfold nextField
    omega
  have hpc : k₂'.mem.load (wordBytes b) (p + (ctxField b + pcField b)) =
      k₁'.mem.load (wordBytes b) (p + (ctxField b + pcField b)) :=
    h₁.set_same h₂ hwords Image.pcWord_mem (hne _)
  rw [XinOS.Kernel.sameSwitch_iff hfits, haddr]
  simp only [Nat.add_assoc]
  constructor
  · rintro ⟨hregs, -⟩ r hr
    rw [← h₁.reg_left hr, ← h₂.reg_left hr]
    exact hregs r (mem_unsetRegs.mp hr).1
  · intro hold
    refine ⟨fun r hr => ?_, hpc⟩
    rcases mem_unsetRegs_or k₁ taskStack a hr with hr | ⟨v, hv⟩
    · rw [h₁.reg_left hr, h₂.reg_left hr]
      exact hold r hr
    · exact h₁.set_same h₂ hwords hv (hne _)

end Filled

structure Image.SameAllocated (h : Heap) (k₁ k₂ : Image b) : Prop where
  statics : k₂ = { k₁ with mem := k₂.mem }
  bytes : h.SameAllocated k₁.mem k₂.mem

theorem Image.SameAllocated.tasksTaken {k₁ k₂ : Image b} {l : List Nat}
    (hsame : k₁.SameAllocated h k₂) (hfit : h.TableFits)
    (hlist : k₁.TasksTaken h l) : k₂.TasksTaken h l where
  tasks := by
    have hfirst : k₂.firstTask = k₁.firstTask := by rw [hsame.statics]
    rw [Image.Tasks, hfirst]
    refine hlist.tasks.congr fun q hq => Image.taskNext_congr fun x hlo hhi => ?_
    have hfields : timesliceField ≤ nextField := by decide
    exact hsame.bytes x (hlist.taken q hq x (by omega) (by omega)).not_unallocated
  taken := fun q hq x hlo hhi => hsame.bytes.taken hfit (hlist.taken q hq x hlo hhi)

theorem Image.taskCreate_first {k : Image b} {p : Nat} (hfirst : k.firstTask = none)
    (hnum : k.tasksNum = 0) (hmalloc : (malloc h (taskBytes b) k.mem).1 = some p)
    (taskStack : Nat) (a : Image.TaskCall b) :
    ∃ k', k.taskCreate h taskStack a = .ok (0, k') := by
  rw [Image.taskCreate, if_neg (by rw [hnum]; decide)]
  simp only [hmalloc, deref, Image.insertTask, hfirst, hnum, if_true]
  exact ⟨_, rfl⟩

/-- Two runs of `task_create` that find the same but for unallocated bytes create their
tasks at the same address, and the same task exactly if the bytes there that it leaves
were the same before. -/
theorem new_task_same_iff (r : Board) (taskStack : Nat) {k₁ k₂ k₁' k₂' : Image r.build}
    {l : List Nat} {a : Image.TaskCall r.build} (hlist : k₁.TasksTaken r.heap l)
    (hsame : k₁.SameAllocated r.heap k₂)
    (h₁ : k₁.taskCreate r.heap taskStack a = .ok (0, k₁'))
    (h₂ : k₂.taskCreate r.heap taskStack a = .ok (0, k₂')) :
    ∃ p, (malloc r.heap (taskBytes r.build) k₁.mem).1 = some p ∧
      (malloc r.heap (taskBytes r.build) k₂.mem).1 = some p ∧
      (SameStart r.build p k₁'.mem k₂'.mem ↔ SameLeftovers a p k₁.mem k₂.mem) := by
  obtain ⟨hpos, hsmall, -, -⟩ := taskBytes_small r.build
  obtain ⟨hctx, hsize, hword⟩ := task_sizes r.build
  have hfit := r.tableFits
  obtain ⟨p, hp, hend, hfilled₁⟩ := Image.taskCreate_fields hlist hfit h₁
  obtain ⟨p₂, hp₂, -, hfilled₂⟩ :=
    Image.taskCreate_fields (hsame.tasksTaken hfit hlist) hfit h₂
  have hmalloc := hsame.bytes.malloc hfit hpos hsmall
  obtain rfl : p₂ = p := Option.some.inj (hp₂.symm.trans (hmalloc.trans hp))
  have hwords : k₂.taskWords taskStack a = k₁.taskWords taskStack a := by
    rw [hsame.statics]
    rfl
  have hspace : r.heap.allocEnd < 2 ^ r.build.xlen := r.heap.inSpace
  have hset := fun f => hfilled₁.set_same hfilled₂ hwords (f := f)
  have hregs := hfilled₁.sameSwitch_iff hfilled₂ hwords (by omega)
  refine ⟨p₂, hp, hp₂, fun hstart => ?_, fun hleft => ?_⟩
  · refine ⟨?_, ?_, hregs.mp hstart.registers⟩
    · rw [← hfilled₁.state_left, ← hfilled₂.state_left]
      exact hstart.state
    · rw [← hfilled₁.state_left]
      exact hstart.awake
  · exact
      { taskId := hset ⟨0, 4, k₁.taskId.toNat⟩ (by simp [Image.taskWords])
          (show 0 ≠ 16 by decide)
        priority := hset ⟨priorityField, 4, a.priority.toNat⟩
          (by simp [Image.taskWords]) (show 4 ≠ 16 by decide)
        state := by
          rw [hfilled₁.state_left, hfilled₂.state_left]
          exact hleft.state
        awake := by
          rw [hfilled₁.state_left]
          exact hleft.awake
        timeslice := hset ⟨timesliceField, 4, (a.timeslice.setWidth 32).toNat⟩
          (by simp [Image.taskWords]) (show 12 ≠ 16 by decide)
        registers := hregs.mpr hleft.registers }

theorem Image.boot_mem (r : Board) (m : Memory) (x : Nat) :
    (Image.boot r m).mem x =
      if r.heap.heapStart ≤ x ∧ x < r.heap.heapStart + r.heap.numPages then 0
      else m x :=
  Memory.modifyRange_apply ..

theorem Image.boot_same (r : Board) {m₁ m₂ : Memory}
    (hsame : ∀ x, x < r.heap.allocStart ∨ r.heap.allocEnd ≤ x → m₂ x = m₁ x) :
    (Image.boot r m₁).SameAllocated r.heap (Image.boot r m₂) where
  statics := rfl
  bytes := by
    intro x hx
    rw [Image.boot_mem, Image.boot_mem]
    split_ifs
    · rfl
    · refine hsame x ?_
      by_contra hheap
      have hlo : r.heap.allocStart ≤ x := by omega
      have hpage := r.heap.pageOf_lt hlo (by omega)
      have hdesc : (Image.boot r m₁).mem (r.heap.desc (r.heap.pageOf x)) = 0 := by
        rw [Image.boot_mem, if_pos (by unfold Heap.desc; omega)]
      obtain ⟨hbase, hbase'⟩ := r.heap.base_pageOf_le hlo
      refine hx ⟨_, hpage, hbase, hbase', ?_⟩
      simp [isMalloced, isPageFree, hdesc]

theorem Image.boot_malloc (r : Board) (m : Memory) (hN : 1 ≤ r.heap.numPages) :
    (malloc r.heap (taskBytes r.build) (Image.boot r m).mem).1 =
      some (r.heap.base 0) := by
  obtain ⟨hpos, hsmall, -, -⟩ := taskBytes_small r.build
  exact malloc_first r.toRegion m hN hpos hsmall

theorem Image.boot_taskCreate (r : Board) (m : Memory) (hN : 1 ≤ r.heap.numPages)
    (taskStack : Nat) (a : Image.TaskCall r.build) :
    ∃ k', (Image.boot r m).taskCreate r.heap taskStack a = .ok (0, k') :=
  Image.taskCreate_first rfl rfl (Image.boot_malloc r m hN) taskStack a

theorem Image.boot_tasksTaken (r : Board) (m : Memory) :
    (Image.boot r m).TasksTaken r.heap [] :=
  ⟨rfl, by simp⟩

def clearBut (x : Nat) (v : Byte) : Memory := Memory.modify (fun _ => 0) x fun _ => v

theorem clearBut_of_ne {x y : Nat} {v : Byte} (hne : y ≠ x) : clearBut x v y = 0 :=
  Memory.modify_of_ne hne

theorem twoPages_bounds : 1 ≤ twoPages.heap.numPages ∧
    twoPages.heap.base 0 = 0x80008000 ∧ twoPages.heap.allocStart = 0x80008000 ∧
    twoPages.heap.allocEnd = 0x8000A000 := by
  decide +kernel

theorem boot_same_clearBut {x : Nat} (hlo : 0x80008000 ≤ x) (hhi : x < 0x8000A000)
    (v : Byte) : (Image.boot twoPages fun _ => 0).SameAllocated twoPages.heap
      (Image.boot twoPages (clearBut x v)) := by
  obtain ⟨-, -, hstart, hend⟩ := twoPages_bounds
  refine Image.boot_same twoPages fun y hy => clearBut_of_ne ?_
  omega

theorem new_task_same_iff_of_boot :
    ∃ k₁' k₂', (Image.boot twoPages fun _ => 0).taskCreate twoPages.heap 0x80001000
        someTask = .ok (0, k₁') ∧
      (Image.boot twoPages (clearBut 0x80008200 7)).taskCreate twoPages.heap 0x80001000
        someTask = .ok (0, k₂') ∧
      SameStart .rv64 0x80008000 k₁'.mem k₂'.mem := by
  obtain ⟨hN, hbase, hstart, hend⟩ := twoPages_bounds
  obtain ⟨k₁', h₁⟩ := Image.boot_taskCreate twoPages (fun _ => 0) hN 0x80001000 someTask
  obtain ⟨k₂', h₂⟩ := Image.boot_taskCreate twoPages (clearBut 0x80008200 7) hN
    0x80001000 someTask
  obtain ⟨p, hp, -, hiff⟩ := new_task_same_iff twoPages 0x80001000
    (Image.boot_tasksTaken twoPages fun _ => 0)
    (boot_same_clearBut (by decide) (by decide) 7) h₁ h₂
  rw [Image.boot_malloc twoPages _ hN, hbase] at hp
  obtain rfl := Option.some.inj hp
  refine ⟨k₁', k₂', h₁, h₂, hiff.mpr ?_⟩
  have hload : ∀ n o, o + n ≤ 280 →
      (Image.boot twoPages (clearBut 0x80008200 7)).mem.load n (0x80008000 + o) =
        (Image.boot twoPages fun _ => 0).mem.load n (0x80008000 + o) := by
    intro n o ho
    refine Memory.load_congr fun x hlo hhi => ?_
    rw [Image.boot_mem, Image.boot_mem, clearBut_of_ne (by omega)]
  refine ⟨hload 4 stateField (by decide), by decide +kernel, fun r _ => hload _ _ ?_⟩
  obtain ⟨hctx, -, -⟩ := task_sizes twoPages.build
  obtain ⟨-, -, hpc⟩ := context_offsets twoPages.build
  have hlast := fieldOffset_lt twoPages.build r
  have hword : wordBytes twoPages.build = 8 := rfl
  omega

/-- A leftover makes the new task a sleeping one. -/
theorem new_task_asleep :
    ∃ k₁' k₂', (Image.boot twoPages fun _ => 0).TasksTaken twoPages.heap [] ∧
      (Image.boot twoPages fun _ => 0).SameAllocated twoPages.heap
        (Image.boot twoPages (clearBut 0x80008008 2)) ∧
      (Image.boot twoPages fun _ => 0).taskCreate twoPages.heap 0x80001000
        someTask = .ok (0, k₁') ∧
      (Image.boot twoPages (clearBut 0x80008008 2)).taskCreate twoPages.heap 0x80001000
        someTask = .ok (0, k₂') ∧
      k₂'.mem.load 4 (0x80008000 + stateField) = sleepingState ∧
      ¬SameStart .rv64 0x80008000 k₁'.mem k₂'.mem := by
  obtain ⟨hN, hbase, -, -⟩ := twoPages_bounds
  obtain ⟨k₁', h₁⟩ := Image.boot_taskCreate twoPages (fun _ => 0) hN 0x80001000 someTask
  obtain ⟨k₂', h₂⟩ := Image.boot_taskCreate twoPages (clearBut 0x80008008 2) hN
    0x80001000 someTask
  obtain ⟨p, hp, -, hfilled⟩ := Image.taskCreate_fields
    (Image.boot_tasksTaken twoPages _) twoPages.tableFits h₂
  have hp' := Image.boot_malloc twoPages (clearBut 0x80008008 2) hN
  rw [hbase] at hp'
  obtain rfl : p = 0x80008000 := Option.some.inj (hp.symm.trans hp')
  have hleft : (Image.boot twoPages (clearBut 0x80008008 2)).mem.load 4
      (0x80008000 + stateField) = sleepingState := by
    decide +kernel
  have hasleep := hfilled.state_left.trans hleft
  refine ⟨k₁', k₂', Image.boot_tasksTaken twoPages _,
    boot_same_clearBut (by decide) (by decide) 2, h₁, h₂, hasleep, fun hsame => ?_⟩
  exact hsame.awake (hsame.state.symm.trans hasleep)

end XinOS.Kernel
