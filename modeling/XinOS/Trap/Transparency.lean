import XinOS.Foundation.Transition
import XinOS.Trap.Handler

/-!
# Traps and switches seen from a task

Any number of contexts share the hart.  A trap saves the context that executes, and
in the end the hart executes this context or another one again.
-/

namespace XinOS.Trap

open XinOS.Foundation

variable {b : Build}

/-- The hart, the contexts there are, and what each of them is to get back when it
executes next; for the one that executes, what it executes with. -/
structure System (b : Build) where
  hart : Core b
  live : List (BitVec b.xlen)
  due : BitVec b.xlen → Frame b

inductive Event (b : Build) where
  | trap (cause : BitVec b.xlen) (next : Option (BitVec b.xlen))
      (reg : Reg → BitVec b.xlen) (mem : Memory)
  | execute (f : Frame b) (mem : Memory)
  | create (c : BitVec b.xlen) (mem : Memory)
  | discard (c : BitVec b.xlen)

def Clear (c d : BitVec b.xlen) : Prop :=
  c.toNat + contextBytes b ≤ d.toNat ∨ d.toNat + contextBytes b ≤ c.toNat

namespace System

variable (s : System b)

def current : BitVec b.xlen := s.hart.csr .mscratch

/-- `trap_handler` leaves the saved contexts as they are, apart from what
`do_syscall` does; `reg` and `mem` are what it leaves otherwise.  Tasks do not touch
the contexts of others. -/
def Allowed : Event b → Prop
  | .trap cause next _ mem => (service cause).Ends next ∧
      (∀ d, next = some d → d ∈ s.live) ∧
      ∀ c ∈ s.live, SameContext c (enter s.hart cause).mem mem
  | .execute _ mem => ∀ c ∈ s.live, c ≠ s.current → SameContext c s.hart.mem mem
  | .create c mem => Fits c ∧ (∀ d ∈ s.live, Clear c d) ∧
      ∀ d ∈ s.live, d ≠ s.current → SameContext d s.hart.mem mem
  | .discard c => c ≠ s.current

def afterTrap (cause : BitVec b.xlen) (next : Option (BitVec b.xlen))
    (reg : Reg → BitVec b.xlen) (mem : Memory) : Core b :=
  let h := enter s.hart cause
  let r := trapHandler (h.reg .a0) (h.reg .a1) (h.reg .a2) mem
  match next with
  | none => leave { h with reg := Function.update reg .a0 r.1, mem := r.2 }
  | some d => switchAway { h with reg := Function.update reg .a0 d, mem := r.2 }

def readFrame (mem : Memory) (c : BitVec b.xlen) : Frame b where
  reg r := BitVec.ofNat b.xlen (mem.load (wordBytes b) (c.toNat + fieldOffset b r))
  pc := BitVec.ofNat b.xlen (mem.load (wordBytes b) (c.toNat + pcField b))

def after : Event b → System b
  | .trap cause next reg mem =>
      { s with
        hart := s.afterTrap cause next reg mem
        due := Function.update s.due s.current
          ((frame s.hart).afterTrap cause) }
  | .execute f mem =>
      { s with
        hart := { s.hart with reg := f.reg, pc := f.pc, mem := mem }
        due := Function.update s.due s.current f }
  | .create c mem =>
      { hart := s.hart.setMem mem
        live := c :: s.live
        due := Function.update s.due c (readFrame mem c) }
  | .discard c => { s with live := s.live.erase c }

end System

def Step (s : System b) (e : Event b) (s' : System b) : Prop :=
  s.Allowed e ∧ s' = s.after e

def System.boot (hart : Core b) : System b where
  hart := hart
  live := [hart.csr .mscratch]
  due := fun _ => frame hart

structure Saved (s : System b) : Prop where
  mem_live : s.current ∈ s.live
  fits : ∀ c ∈ s.live, Fits c
  clear : ∀ c ∈ s.live, ∀ d ∈ s.live, c ≠ d → Clear c d
  holds : ∀ c ∈ s.live, c ≠ s.current → Holds s.hart.mem c (s.due c)

theorem sameContext_of_clear {c d : BitVec b.xlen} {m m' : Memory}
    (h : Memory.SameOutside c.toNat (c.toNat + contextBytes b) m m')
    (hclear : Clear c d) : SameContext d m m' := by
  intro a hlo hhi
  unfold Clear at hclear
  exact h a (by omega)

theorem holds_readFrame (mem : Memory) (c : BitVec b.xlen) :
    Holds mem c (System.readFrame mem c) := by
  have hlt : ∀ a, mem.load (wordBytes b) a < 2 ^ b.xlen := fun a =>
    pow_wordBytes b ▸ mem.load_lt _ a
  constructor
  · intro r _
    exact (BitVec.toNat_ofNat ..).symm ▸ (Nat.mod_eq_of_lt (hlt _)).symm
  · exact (BitVec.toNat_ofNat ..).symm ▸ (Nat.mod_eq_of_lt (hlt _)).symm

section Trap

variable {s : System b} {cause : BitVec b.xlen} {next : Option (BitVec b.xlen)}
variable {reg : Reg → BitVec b.xlen} {mem : Memory}

theorem Saved.holds_all (h : Saved s)
    (hok : s.Allowed (.trap cause next reg mem)) :
    ∀ c ∈ s.live,
      Holds mem c (Function.update s.due s.current (frame s.hart) c) := by
  obtain ⟨hholds, hsame, -⟩ := enter_spec s.hart cause (h.fits _ h.mem_live)
  intro c hc
  refine Holds.congr ?_ (hok.2.2 c hc)
  by_cases heq : c = s.current
  · rw [heq, Function.update_self]
    exact hholds
  · rw [Function.update_of_ne heq]
    exact (h.holds c hc heq).congr (sameContext_of_clear hsame
      (h.clear _ h.mem_live c hc (Ne.symm heq)))

theorem trapHandler_sameOutside (epc cause ctx : BitVec b.xlen) (m : Memory) :
    Memory.SameOutside ctx.toNat (ctx.toNat + contextBytes b) m
      (trapHandler epc cause ctx m).2 := by
  unfold trapHandler
  split
  · exact doSyscall_sameOutside m ctx
  · exact Memory.SameOutside.refl _ _ m

theorem Saved.return_spec (h : Saved s)
    (hok : s.Allowed (.trap cause none reg mem)) :
    let s' := s.after (.trap cause none reg mem)
    s'.current = s.current ∧
      frame s'.hart = ⟨restored s.current (s'.due s.current),
        (s'.due s.current).pc⟩ ∧ Saved s' := by
  have hall := h.holds_all hok
  have hfit := h.fits _ h.mem_live
  obtain ⟨-, -, hscratch, ha0, ha1, ha2⟩ := enter_spec s.hart cause hfit
  have hcur := hall _ h.mem_live
  rw [Function.update_self] at hcur
  let r := trapHandler (frame s.hart).pc cause s.current mem
  let h₁ : Core b := { enter s.hart cause with
    reg := Function.update reg .a0 r.1, mem := r.2 }
  have hafter : (s.after (.trap cause none reg mem)).hart = leave h₁ := by
    rw [System.after, System.afterTrap, ha0, ha1, ha2]
    rfl
  have hcsr : h₁.csr .mscratch = s.current := hscratch
  have hepc : h₁.reg .a0 = ((frame s.hart).afterTrap cause).pc :=
    (Function.update_self Reg.a0 r.1 reg).trans (trapHandler_epc _ _ _ _)
  obtain ⟨hframe, hmem, hcsr'⟩ :=
    leave_spec h₁ (f := (frame s.hart).afterTrap cause) (hcsr ▸ hfit)
      (hcsr ▸ trapHandler_regs hcur _ _)
  have hcurrent : (s.after (.trap cause none reg mem)).current = s.current := by
    rw [System.current, hafter, hcsr', hcsr]
  have hdue : (s.after (.trap cause none reg mem)).due s.current =
      (frame s.hart).afterTrap cause := Function.update_self _ _ _
  refine ⟨hcurrent, ?_, ?_⟩
  · rw [hafter, hframe, hdue, hcsr, hepc]
  · refine ⟨hcurrent.symm ▸ h.mem_live, h.fits, h.clear, fun c hc hne => ?_⟩
    rw [hcurrent] at hne
    have hc' := hall c hc
    rw [Function.update_of_ne hne] at hc'
    have hdue' : (s.after (.trap cause none reg mem)).due c = s.due c :=
      Function.update_of_ne hne _ _
    rw [hafter, hmem, hdue']
    exact hc'.congr (sameContext_of_clear (trapHandler_sameOutside _ _ _ _)
      (h.clear _ h.mem_live c hc (Ne.symm hne)))

theorem Saved.switch_spec {d : BitVec b.xlen} (h : Saved s)
    (hok : s.Allowed (.trap cause (some d) reg mem)) :
    let s' := s.after (.trap cause (some d) reg mem)
    s'.current = d ∧ frame s'.hart = ⟨restored d (s'.due d), (s'.due d).pc⟩ ∧
      Saved s' := by
  have hall := h.holds_all hok
  have hd := hok.2.1 d rfl
  have hservice : service cause ≠ .syscall := by
    intro heq
    have hends := hok.1
    rw [heq] at hends
    cases hends
  have hdue : (s.after (.trap cause (some d) reg mem)).due =
      Function.update s.due s.current (frame s.hart) := by
    rw [System.after, afterTrap_of_ne hservice]
  let h₁ : Core b := { enter s.hart cause with
    reg := Function.update reg .a0 d, mem := mem }
  have ha0 : h₁.reg .a0 = d := Function.update_self Reg.a0 d reg
  have ha1 : (enter s.hart cause).reg .a1 = cause :=
    (enter_spec s.hart cause (h.fits _ h.mem_live)).2.2.2.2.1
  have hafter : (s.after (.trap cause (some d) reg mem)).hart = switchAway h₁ := by
    rw [System.after, System.afterTrap, ha1, trapHandler, if_neg hservice]
  obtain ⟨hframe, hmem, hcsr⟩ :=
    switchAway_spec h₁ (f := Function.update s.due s.current (frame s.hart) d)
      (ha0 ▸ h.fits d hd) (ha0 ▸ hall d hd)
  have hcurrent : (s.after (.trap cause (some d) reg mem)).current = d := by
    rw [System.current, hafter, hcsr, ha0]
  refine ⟨hcurrent, ?_, ?_⟩
  · rw [hafter, hframe, hdue, ha0]
  · refine ⟨hcurrent.symm ▸ hd, h.fits, h.clear, fun c hc _ => ?_⟩
    rw [hafter, hmem, hdue]
    exact hall c hc

theorem Saved.trap_spec (h : Saved s)
    (hok : s.Allowed (.trap cause next reg mem)) :
    let s' := s.after (.trap cause next reg mem)
    let c := next.getD s.current
    s'.current = c ∧ frame s'.hart = ⟨restored c (s'.due c), (s'.due c).pc⟩ ∧
      Saved s' := by
  cases next with
  | none => exact h.return_spec hok
  | some d => exact h.switch_spec hok

end Trap

/-! ## Runs -/

theorem Saved.step {s s' : System b} {e : Event b} (h : Saved s)
    (hstep : Step s e s') : Saved s' := by
  obtain ⟨hok, rfl⟩ := hstep
  cases e with
  | trap cause next reg mem => exact (h.trap_spec hok).2.2
  | execute f mem =>
      refine ⟨h.mem_live, h.fits, h.clear, fun c hc hne => ?_⟩
      have hdue : (s.after (.execute f mem)).due c = s.due c :=
        Function.update_of_ne hne _ _
      rw [hdue]
      exact (h.holds c hc hne).congr (hok c hc hne)
  | create c mem =>
      obtain ⟨hfit, hclear, hsame⟩ := hok
      have hpos : 0 < contextBytes b := by cases b <;> decide
      have hnotMem : c ∉ s.live := fun hmem => by
        have := hclear c hmem
        unfold Clear at this
        omega
      refine ⟨List.mem_cons_of_mem _ h.mem_live, ?_, ?_, ?_⟩
      · intro d hd
        rcases List.mem_cons.mp hd with rfl | hd
        · exact hfit
        · exact h.fits d hd
      · intro d hd e he hne
        rcases List.mem_cons.mp hd with hd | hd <;>
          rcases List.mem_cons.mp he with he | he
        · exact absurd (hd.trans he.symm) hne
        · exact hd ▸ hclear e he
        · exact he ▸ (hclear d hd).symm
        · exact h.clear d hd e he hne
      · intro d hd hne
        rcases List.mem_cons.mp hd with rfl | hd
        · have hdue : (s.after (.create d mem)).due d = System.readFrame mem d :=
            Function.update_self _ _ _
          rw [hdue]
          exact holds_readFrame mem d
        · have hdc : d ≠ c := fun heq => hnotMem (heq ▸ hd)
          have hdue : (s.after (.create c mem)).due d = s.due d :=
            Function.update_of_ne hdc _ _
          rw [hdue]
          exact (h.holds d hd hne).congr (hsame d hd hne)
  | discard c =>
      refine ⟨(List.mem_erase_of_ne (Ne.symm hok)).mpr h.mem_live,
        fun d hd => h.fits d (List.mem_of_mem_erase hd),
        fun d hd e he => h.clear d (List.mem_of_mem_erase hd) e
          (List.mem_of_mem_erase he),
        fun d hd => h.holds d (List.mem_of_mem_erase hd)⟩

theorem saved_boot {hart : Core b} (hfit : Fits (hart.csr .mscratch)) :
    Saved (System.boot hart) where
  mem_live := by simp [System.boot, System.current]
  fits := by simpa [System.boot] using hfit
  clear := by simp [System.boot]
  holds := by simp [System.boot, System.current]

theorem saved_of_reaches {hart : Core b} (hfit : Fits (hart.csr .mscratch))
    {s : System b} (h : Reaches Step anyLabel (System.boot hart) s) : Saved s :=
  h.invariant (saved_boot hfit) fun _ _ _ hsaved _ hstep => hsaved.step hstep

theorem due_kept {s s' : System b} {e : Event b} {c : BitVec b.xlen}
    (hstep : Step s e s') (hlive : c ∈ s.live) (hne : c ≠ s.current) :
    s'.due c = s.due c := by
  obtain ⟨hok, rfl⟩ := hstep
  cases e with
  | trap cause next reg mem => exact Function.update_of_ne hne _ _
  | execute f mem => exact Function.update_of_ne hne _ _
  | create d mem =>
      have hpos : 0 < contextBytes b := by cases b <;> decide
      have hclear := hok.2.1 c hlive
      refine Function.update_of_ne (fun heq => ?_) _ _
      rw [heq, Clear] at hclear
      omega
  | discard d => rfl

/-- However many others have executed since, a context gets back what it was
interrupted with. -/
theorem due_of_reaches {s s' : System b} {c : BitVec b.xlen} (hlive : c ∈ s.live)
    (h : Reaches Step (fun t e => c ≠ t.current ∧ e ≠ .discard c) s s') :
    c ∈ s'.live ∧ s'.due c = s.due c := by
  refine h.invariant (P := fun t => c ∈ t.live ∧ t.due c = s.due c)
    ⟨hlive, rfl⟩ ?_
  rintro t e u ⟨hmem, hdue⟩ ⟨hne, hkept⟩ hstep
  refine ⟨?_, (due_kept hstep hmem hne).trans hdue⟩
  obtain ⟨-, rfl⟩ := hstep
  cases e with
  | trap cause next reg mem => exact hmem
  | execute f mem => exact hmem
  | create d mem => exact List.mem_cons_of_mem d hmem
  | discard d =>
      exact (List.mem_erase_of_ne fun heq => hkept (by rw [heq])).mpr hmem

def System.interruptedT6 (s : System b) (c : BitVec b.xlen) : BitVec b.xlen :=
  if c = s.current then s.hart.reg .t6 else (s.due c).reg .t6

/-- After any run, a trap ends with a context that executes with exactly what it is
due if and only if the build is RV32, or `t6` of this context was its own address. -/
theorem resumption_exact {hart : Core b} (hfit : Fits (hart.csr .mscratch))
    {s s' : System b} {cause : BitVec b.xlen} {next : Option (BitVec b.xlen)}
    {reg : Reg → BitVec b.xlen} {mem : Memory}
    (h : Reaches Step anyLabel (System.boot hart) s)
    (hstep : Step s (.trap cause next reg mem) s') :
    (s'.current = next.getD s.current ∧
        frame s'.hart = s'.due (next.getD s.current)) ↔
      (b = .rv32 ∨
        s.interruptedT6 (next.getD s.current) = next.getD s.current) := by
  have hsaved := saved_of_reaches hfit h
  obtain ⟨hok, rfl⟩ := hstep
  obtain ⟨hcurrent, hframe, -⟩ := hsaved.trap_spec hok
  generalize next.getD s.current = c at *
  have ht6 : ((s.after (.trap cause next reg mem)).due c).reg .t6 =
      s.interruptedT6 c := by
    by_cases heq : c = s.current
    · have hdue : (s.after (.trap cause next reg mem)).due c =
          (frame s.hart).afterTrap cause := heq ▸ Function.update_self _ _ _
      rw [hdue, afterTrap_t6, System.interruptedT6, if_pos heq, frame]
    · have hdue : (s.after (.trap cause next reg mem)).due c = s.due c :=
        Function.update_of_ne heq _ _
      rw [hdue, System.interruptedT6, if_neg heq]
  rw [hframe, ← ht6, ← restored_eq_iff]
  constructor
  · rintro ⟨-, hsame⟩
    exact congrArg Frame.reg hsame
  · intro hreg
    exact ⟨hcurrent, by rw [hreg]⟩

def System.quietTrap (s : System b) (cause : BitVec b.xlen)
    (next : Option (BitVec b.xlen)) : Event b :=
  .trap cause next (fun _ => 0) (enter s.hart cause).mem

theorem System.quietTrap_step {s : System b} {cause : BitVec b.xlen}
    {next : Option (BitVec b.xlen)} (hends : (service cause).Ends next)
    (hlive : ∀ d, next = some d → d ∈ s.live) :
    Step s (s.quietTrap cause next) (s.after (s.quietTrap cause next)) :=
  ⟨⟨hends, hlive, fun c _ => SameContext.refl c _⟩, rfl⟩

theorem System.quietTrap_due (s : System b) {cause : BitVec b.xlen}
    (h : service cause ≠ .syscall) (next : Option (BitVec b.xlen)) :
    (s.after (s.quietTrap cause next)).due =
      Function.update s.due s.current (frame s.hart) :=
  congrArg (Function.update s.due s.current) (afterTrap_of_ne h (frame s.hart))

/-- The context at 4096, all whose registers are 7. -/
def sevens (b : Build) : Core b where
  reg := fun _ => 7
  csr := fun _ => 4096
  pc := 32768
  mem := fun _ => 0

def plainTrap (cause : BitVec b.xlen) : Event b :=
  (System.boot (sevens b)).quietTrap cause none

theorem plainTrap_step {cause : BitVec b.xlen} (h : service cause = .timer) :
    Step (System.boot (sevens b)) (plainTrap cause)
      ((System.boot (sevens b)).after (plainTrap cause)) :=
  System.quietTrap_step (by rw [h]; trivial) (by simp)

/-- A second context is created at 8192. -/
def twoContexts : System .rv32 :=
  (System.boot (sevens .rv32)).after (.create 8192 (sevens .rv32).mem)

/-- A timer interrupt leads from the first context to the second one, -/
def firstPreempted : System .rv32 :=
  twoContexts.after (twoContexts.quietTrap 0x80000007 (some 8192))

/-- which changes all its registers, -/
def secondRuns : System .rv32 :=
  firstPreempted.after (.execute ⟨fun _ => 9, 65536⟩ firstPreempted.hart.mem)

/-- and a software interrupt leads back to the first one, -/
def firstResumed : System .rv32 :=
  secondRuns.after (secondRuns.quietTrap 0x80000003 (some 4096))

/-- which an external interrupt returns to. -/
def firstAgain : System .rv32 :=
  firstResumed.after (firstResumed.quietTrap 0x8000000B none)

theorem twoContexts_step :
    Step (System.boot (sevens .rv32)) (.create 8192 (sevens .rv32).mem) twoContexts := by
  refine ⟨⟨by decide, ?_, fun c _ _ => SameContext.refl c _⟩, rfl⟩
  intro d hd
  obtain rfl := List.mem_singleton.mp hd
  exact .inr (by decide)

theorem firstPreempted_step :
    Step twoContexts (twoContexts.quietTrap 0x80000007 (some 8192)) firstPreempted :=
  System.quietTrap_step trivial (by simp [twoContexts, System.after])

theorem secondRuns_step : Step firstPreempted
    (.execute ⟨fun _ => 9, 65536⟩ firstPreempted.hart.mem) secondRuns :=
  ⟨fun c _ _ => SameContext.refl c _, rfl⟩

theorem secondRuns_live : secondRuns.live = [8192, 4096] := rfl

theorem firstResumed_step : Step secondRuns
    (secondRuns.quietTrap 0x80000003 (some 4096)) firstResumed :=
  System.quietTrap_step (Option.some_ne_none _) (by simp [secondRuns_live])

theorem firstAgain_step :
    Step firstResumed (firstResumed.quietTrap 0x8000000B none) firstAgain :=
  System.quietTrap_step rfl (by simp)

theorem twoContexts_reached :
    Reaches Step anyLabel (System.boot (sevens .rv32)) twoContexts :=
  .tail .refl trivial twoContexts_step

theorem secondRuns_reached :
    Reaches Step anyLabel (System.boot (sevens .rv32)) secondRuns :=
  (twoContexts_reached.tail trivial firstPreempted_step).tail trivial secondRuns_step

theorem secondRuns_current : secondRuns.current = 8192 :=
  ((saved_of_reaches (by decide) twoContexts_reached).trap_spec firstPreempted_step.1).1

theorem secondRuns_due : secondRuns.due 4096 = frame (sevens .rv32) := by
  have haway : Reaches Step (fun t e => 4096 ≠ t.current ∧ e ≠ .discard 4096)
      firstPreempted secondRuns := by
    refine .tail .refl ⟨?_, ?_⟩ secondRuns_step
    · rw [show firstPreempted.current = 8192 from secondRuns_current]
      decide
    · exact fun heq => nomatch heq
  exact (due_of_reaches (by decide) haway).2

/-- Through `switch_to` and through `trap_vector`, the first context gets back all that
it was interrupted with. -/
theorem resumption_exact_of_tick :
    (firstResumed.current = 4096 ∧ frame firstResumed.hart = frame (sevens .rv32)) ∧
      firstAgain.current = 4096 ∧ frame firstAgain.hart = frame (sevens .rv32) := by
  have hfit : Fits ((sevens .rv32).csr .mscratch) := by decide
  have hswitch := (resumption_exact hfit secondRuns_reached firstResumed_step).mpr
    (.inl rfl)
  have hreturn := (resumption_exact hfit
    (secondRuns_reached.tail trivial firstResumed_step) firstAgain_step).mpr (.inl rfl)
  have hback : firstResumed.due 4096 = frame (sevens .rv32) := by
    rw [firstResumed, System.quietTrap_due _ (by decide), Function.update_of_ne,
      secondRuns_due]
    rw [secondRuns_current]
    decide
  have hframe : frame firstResumed.hart = frame (sevens .rv32) := hswitch.2.trans hback
  have hagain : firstAgain.due firstResumed.current = frame (sevens .rv32) := by
    rw [firstAgain, System.quietTrap_due _ (by decide), Function.update_self, hframe]
  exact ⟨⟨hswitch.1, hframe⟩, hreturn.1.trans hswitch.1, hreturn.2.trans hagain⟩

theorem Saved.t6_after {s : System .rv64} {cause : BitVec Build.rv64.xlen}
    {reg : Reg → BitVec Build.rv64.xlen} {mem : Memory} (h : Saved s)
    (hok : s.Allowed (.trap cause none reg mem)) :
    (s.after (.trap cause none reg mem)).hart.reg .t6 = s.current := by
  have hreg := congrArg Frame.reg (h.return_spec hok).2.1
  rw [frame_reg] at hreg
  simp only [hreg, restored_t6]

theorem sevens_t6 {cause : BitVec Build.rv64.xlen}
    (h : service cause = .timer) :
    ((System.boot (sevens .rv64)).after (plainTrap cause)).hart.reg .t6 =
      4096 :=
  Saved.t6_after (saved_boot (by decide)) (plainTrap_step h).1

theorem t6_overwritten :
    ∃ s', Step (System.boot (sevens .rv64)) (plainTrap 0x8000000000000007) s' ∧
      (System.boot (sevens .rv64)).hart.reg .t6 = 7 ∧
      s'.hart.reg .t6 = 4096 :=
  ⟨_, plainTrap_step (by decide), rfl, sevens_t6 (by decide)⟩

end XinOS.Trap
