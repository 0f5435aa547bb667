import XinOS.Trap.Entry

/-!
# What the code of entry.S does

Entering the kernel saves all registers and the program counter in the context that
`mscratch` points to.  Leaving it loads them from there, but for `t6` on RV64.
-/

namespace XinOS.Trap

open XinOS.Foundation

variable {b : Build}

@[ext] structure Frame (b : Build) where
  reg : Reg → BitVec b.xlen
  pc : BitVec b.xlen

def frame (h : Core b) : Frame b := ⟨h.reg, h.pc⟩

theorem frame_reg (h : Core b) : (frame h).reg = h.reg := rfl

structure Holds (m : Memory) (c : BitVec b.xlen) (f : Frame b) : Prop where
  regs : FrameHolds (wordBytes b) (fieldOffset b) m c.toNat contextFields f.reg
  pc : m.load (wordBytes b) (c.toNat + pcField b) = f.pc.toNat

def Fits (c : BitVec b.xlen) : Prop := c.toNat + contextBytes b ≤ 2 ^ b.xlen

instance (c : BitVec b.xlen) : Decidable (Fits c) :=
  inferInstanceAs (Decidable (_ ≤ _))

def SameContext (c : BitVec b.xlen) (m m' : Memory) : Prop :=
  ∀ a, c.toNat ≤ a → a < c.toNat + contextBytes b → m' a = m a

theorem SameContext.refl (c : BitVec b.xlen) (m : Memory) : SameContext c m m :=
  fun _ _ _ => rfl

theorem mem_contextFields (r : Reg) : r ∈ contextFields := by
  cases r <;> decide

theorem Holds.congr {m m' : Memory} {c : BitVec b.xlen} {f : Frame b}
    (h : Holds m c f) (hsame : SameContext c m m') : Holds m' c f := by
  have hsize := pcField_add b
  constructor
  · intro r hr
    have hfield := fieldOffset_lt b r
    rw [← h.regs r hr]
    exact Memory.load_congr fun a hlo hhi => hsame a (by omega) (by omega)
  · rw [← h.pc]
    exact Memory.load_congr fun a hlo hhi => hsame a (by omega) (by omega)

/-! ## Entering the kernel -/

def enter (h : Core b) (cause : BitVec b.xlen) : Core b :=
  (takeTrap h cause).run (wordBytes b) (trapEntry b)

theorem run_trapArguments (h : Core b) (hfit : Fits (h.reg .t6)) :
    ∃ h', h.run (wordBytes b) (trapArguments b) = h' ∧
      h'.mem = ((h.mem.store (wordBytes b)
          ((h.reg .t6).toNat + fieldOffset b .t6) (h.csr .mscratch).toNat).store
        (wordBytes b) ((h.reg .t6).toNat + pcField b) (h.csr .mepc).toNat) ∧
      h'.csr .mscratch = h.reg .t6 ∧ h'.reg .a0 = h.csr .mepc ∧
      h'.reg .a1 = h.csr .mcause ∧ h'.reg .a2 = h.reg .t6 := by
  have hpos := wordBytes_pos b
  have hsize := pcField_add b
  have hfield := fieldOffset_lt b .t6
  have haddr : ∀ (g : Core b) (o : Nat), g.reg .t5 = h.reg .t6 →
      o < contextBytes b → g.address .t5 o = (h.reg .t6).toNat + o := by
    intro g o hg ho
    have hfit' : (g.reg .t5).toNat + contextBytes b ≤ 2 ^ b.xlen := hg ▸ hfit
    rw [Hart.address_eq hfit' ho, hg]
  refine ⟨_, rfl, ?_, ?_, ?_, ?_, ?_⟩
  · simp only [trapArguments, Hart.run_cons, Hart.run_nil, Hart.exec,
      t6Offset_eq, pcOffset_eq]
    rw [haddr _ _ (by simp [Hart.setReg]) (by omega),
      haddr _ _ (by simp [Hart.setReg, Hart.setMem]) (by omega)]
    simp [Hart.setReg, Hart.setCsr, Hart.setMem]
  all_goals simp [trapArguments, Hart.run_cons, Hart.exec, Hart.setReg,
    Hart.setCsr, Hart.setMem]

/-- The interrupted registers are in the context that `mscratch` points to, and no
other memory has changed. -/
theorem enter_spec (h : Core b) (cause : BitVec b.xlen)
    (hfit : Fits (h.csr .mscratch)) :
    Holds (enter h cause).mem (h.csr .mscratch) (frame h) ∧
      Memory.SameOutside (h.csr .mscratch).toNat
        ((h.csr .mscratch).toNat + contextBytes b) h.mem (enter h cause).mem ∧
      (enter h cause).csr .mscratch = h.csr .mscratch ∧
      (enter h cause).reg .a0 = h.pc ∧ (enter h cause).reg .a1 = cause ∧
      (enter h cause).reg .a2 = h.csr .mscratch := by
  have hpos := wordBytes_pos b
  have hsize := pcField_add b
  have hfield := fieldOffset_lt b .t6
  -- `t6` now points to the context, and `mscratch` keeps the old `t6`.
  let h₁ : Core b := (takeTrap h cause).exec (wordBytes b) (.csrrw .t6 .mscratch .t6)
  have ht6 : h₁.reg .t6 = h.csr .mscratch := by
    simp [h₁, Hart.exec, Hart.setReg, Hart.setCsr, takeTrap]
  have hreg : ∀ r, r ≠ .t6 → h₁.reg r = h.reg r := by
    intro r hr
    simp [h₁, Hart.exec, Hart.setReg, Hart.setCsr, takeTrap, hr]
  have hscratch : h₁.csr .mscratch = h.reg .t6 := by
    simp [h₁, Hart.exec, Hart.setReg, Hart.setCsr, takeTrap]
  have hepc : h₁.csr .mepc = h.pc := by
    simp [h₁, Hart.exec, Hart.setReg, Hart.setCsr, takeTrap]
  have hcause : h₁.csr .mcause = cause := by
    simp [h₁, Hart.exec, Hart.setReg, Hart.setCsr, takeTrap]
  have hin : ∀ r, fieldOffset b r + wordBytes b ≤ contextBytes b := fun r => by
    have := fieldOffset_lt b r
    omega
  have hfit₁ : (h₁.reg .t6).toNat + contextBytes b ≤ 2 ^ b.xlen := ht6 ▸ hfit
  obtain ⟨m, hrun, hholds, -, hsame⟩ := h₁.run_stores (pow_wordBytes b) hfit₁
    hpos hin (apart_fieldOffset b) nodup_savedRegs
  obtain ⟨h₂, hrun₂, hmem, hscratch₂, ha0, ha1, ha2⟩ :=
    run_trapArguments (h₁.setMem m) hfit₁
  have henter : enter h cause = h₂ := by
    rw [enter, trapEntry, Hart.run_cons, Hart.run_append, ← hrun₂, ← hrun,
      regSave, saveOffsets_eq, List.map_map]
    rfl
  rw [henter]
  have hmem₂ : h₂.mem = (m.store (wordBytes b)
      ((h.csr .mscratch).toNat + fieldOffset b .t6) (h.reg .t6).toNat).store
        (wordBytes b) ((h.csr .mscratch).toNat + pcField b) h.pc.toNat := by
    rw [← ht6, ← hscratch, ← hepc]
    exact hmem
  rw [ht6] at hholds hsame
  refine ⟨⟨fun r _ => ?_, ?_⟩, ?_, hscratch₂.trans ht6, ha0.trans hepc,
    ha1.trans hcause, ha2.trans ht6⟩
  · have hr := fieldOffset_lt b r
    rw [hmem₂, Memory.load_store_apart _ _ (by omega)]
    by_cases heq : r = .t6
    · subst heq
      exact Memory.load_store_self _ _ (by rw [pow_wordBytes]; exact (h.reg .t6).isLt)
    · have hsep := apart_fieldOffset b r .t6 heq
      rw [Memory.load_store_apart _ _ (by omega), hholds r (mem_savedRegs.mpr heq),
        hreg r heq]
      rfl
  · rw [hmem₂]
    exact Memory.load_store_self _ _ (by rw [pow_wordBytes]; exact h.pc.isLt)
  · have hfirst : Memory.SameOutside (h.csr .mscratch).toNat
        ((h.csr .mscratch).toNat + contextBytes b) m
        (m.store (wordBytes b) ((h.csr .mscratch).toNat + fieldOffset b .t6)
          (h.reg .t6).toNat) :=
      (Memory.SameOutside.store _ _ _ _).mono (by omega) (by omega)
    rw [hmem₂]
    exact (hsame.trans hfirst).trans
      ((Memory.SameOutside.store _ _ _ _).mono (by omega) (by omega))

/-! ## Leaving the kernel -/

/-- What a context holds, as `reg_restore` gives it back: RV64 leaves the address
of the context in `t6`. -/
def restored (c : BitVec b.xlen) (f : Frame b) : Reg → BitVec b.xlen :=
  match b with
  | .rv32 => f.reg
  | .rv64 => Function.update f.reg .t6 c

theorem restored_t6 (c : BitVec Build.rv64.xlen) (f : Frame .rv64) :
    restored c f .t6 = c := by
  simp [restored]

theorem restored_eq_iff (c : BitVec b.xlen) (f : Frame b) :
    restored c f = f.reg ↔ b = .rv32 ∨ f.reg .t6 = c := by
  cases b with
  | rv32 => simp [restored]
  | rv64 =>
      constructor
      · intro h
        right
        rw [← h]
        exact Function.update_self Reg.t6 c f.reg
      · rintro (h | h)
        · cases h
        · rw [restored, ← h, Function.update_eq_self]

theorem run_regRestore (h : Core b) {c : BitVec b.xlen} {f : Frame b}
    (ht6 : h.reg .t6 = c) (hfit : Fits c)
    (hholds : FrameHolds (wordBytes b) (fieldOffset b) h.mem c.toNat contextFields
      f.reg) :
    h.run (wordBytes b) (regRestore b .t6) = { h with reg := restored c f } := by
  have hpos := wordBytes_pos b
  have hsize := pcField_add b
  have hin : ∀ r, fieldOffset b r + wordBytes b ≤ contextBytes b := fun r => by
    have := fieldOffset_lt b r
    omega
  subst ht6
  obtain ⟨reg, hrun, hloaded, hother⟩ := h.run_loads hfit hpos hin
    (show Reg.t6 ∉ savedRegs by decide)
    fun r _ => hholds r (mem_contextFields r)
  have hreg : ∀ r, r ≠ .t6 → reg r = f.reg r := fun r hr =>
    hloaded r (mem_savedRegs.mpr hr)
  have ht6 : reg .t6 = h.reg .t6 := hother .t6 (by decide)
  have hlist : regRestore b .t6 =
      (savedRegs.map fun r => .load r .t6 (fieldOffset b r)) ++
        (restoredLast b).map fun r => .load r .t6 (fieldOffset b r) := by
    rw [regRestore, restoreOffsets_eq, List.map_map, ← List.map_append]
    rfl
  rw [hlist, Hart.run_append, hrun]
  cases b with
  | rv32 =>
      have haddr : ({ h with reg := reg } : Core .rv32).address .t6
          (fieldOffset .rv32 .t6) = (h.reg .t6).toNat + fieldOffset .rv32 .t6 := by
        rw [Hart.address_eq (show (reg .t6).toNat + contextBytes .rv32 ≤ _ from
          ht6 ▸ hfit) (by decide)]
        exact congrArg (fun v => v.toNat + fieldOffset .rv32 .t6) ht6
      rw [restoredLast, List.map_singleton, Hart.run_cons, Hart.run_nil, Hart.exec,
        haddr,
        hholds .t6 (mem_contextFields .t6), BitVec.ofNat_toNat,
        BitVec.setWidth_eq, Hart.setReg, restored]
      congr 1
      funext r
      by_cases hr : r = .t6
      · rw [hr, Function.update_self]
      · exact (Function.update_of_ne hr _ _).trans (hreg r hr)
  | rv64 =>
      rw [restoredLast, List.map_nil, Hart.run_nil, restored]
      congr 1
      funext r
      by_cases hr : r = .t6
      · rw [hr, Function.update_self, ht6]
      · rw [Function.update_of_ne hr, hreg r hr]

def leave (h : Core b) : Core b := mret (h.run (wordBytes b) (trapReturn b))

theorem leave_spec (h : Core b) {f : Frame b} (hfit : Fits (h.csr .mscratch))
    (hholds : FrameHolds (wordBytes b) (fieldOffset b) h.mem
      (h.csr .mscratch).toNat contextFields f.reg) :
    frame (leave h) = ⟨restored (h.csr .mscratch) f, h.reg .a0⟩ ∧
      (leave h).mem = h.mem ∧ (leave h).csr .mscratch = h.csr .mscratch := by
  let h₁ : Core b := (h.setCsr .mepc (h.reg .a0)).setReg .t6 (h.csr .mscratch)
  have hrun : h.run (wordBytes b) (trapReturn b) =
      { h₁ with reg := restored (h.csr .mscratch) f } := by
    rw [trapReturn, Hart.run_append]
    exact run_regRestore h₁ (by simp [h₁]) hfit hholds
  rw [leave, hrun]
  refine ⟨?_, rfl, by simp [mret, h₁]⟩
  simp [frame, mret, h₁]

def switchAway (h : Core b) : Core b := mret (h.run (wordBytes b) (switchTo b))

theorem switchAway_spec (h : Core b) {f : Frame b} (hfit : Fits (h.reg .a0))
    (hholds : Holds h.mem (h.reg .a0) f) :
    frame (switchAway h) = ⟨restored (h.reg .a0) f, f.pc⟩ ∧
      (switchAway h).mem = h.mem ∧
      (switchAway h).csr .mscratch = h.reg .a0 := by
  have hpos := wordBytes_pos b
  have hsize := pcField_add b
  let h₀ : Core b := h.setCsr .mscratch (h.reg .a0)
  let h₁ : Core b :=
    ((h₀.setReg .a1 f.pc).setCsr .mepc f.pc).setReg .t6 (h.reg .a0)
  have hload : h₀.exec (wordBytes b) (.load .a1 .a0 (pcOffset b)) =
      h₀.setReg .a1 f.pc := by
    have haddr : h₀.address .a0 (pcField b) = (h.reg .a0).toNat + pcField b :=
      Hart.address_eq (show (h₀.reg .a0).toNat + contextBytes b ≤ _ from hfit)
        (by omega)
    rw [Hart.exec, pcOffset_eq, haddr, show h₀.mem = h.mem from rfl, hholds.pc,
      BitVec.ofNat_toNat, BitVec.setWidth_eq]
  have hrun : h.run (wordBytes b) (switchTo b) =
      { h₁ with reg := restored (h.reg .a0) f } := by
    have hfront : h.run (wordBytes b) [.csrw .mscratch .a0,
        .load .a1 .a0 (pcOffset b), .csrw .mepc .a1, .mv .t6 .a0] = h₁ := by
      rw [Hart.run_cons, Hart.run_cons]
      rw [show h.exec (wordBytes b) (.csrw .mscratch .a0) = h₀ from rfl, hload]
      simp [Hart.run_cons, Hart.exec, h₁, h₀]
    rw [switchTo, Hart.run_append, hfront]
    exact run_regRestore h₁ (by simp [h₁]) hfit hholds.regs
  rw [switchAway, hrun]
  refine ⟨?_, rfl, by simp [mret, h₁, h₀]⟩
  simp [frame, mret, h₁]

end XinOS.Trap
