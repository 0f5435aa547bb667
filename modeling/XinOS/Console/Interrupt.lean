import XinOS.Console.OutBuf
import XinOS.Console.Plic
import XinOS.Console.Uart

/-!
# The console: uart.c, printf.c and trap.c

The serial port, the interrupt controller, `external_interrupt_handler`, and everything
else that prints, one access to a register or to `out_buf` at a time.  The handler runs
with interrupts off, so that no other code comes between its accesses; the others can
interrupt each other between any two of theirs.
-/

namespace XinOS.Console

open XinOS.Foundation
open XinOS.Printf (char outBufSize)

/-- The next access of `external_interrupt_handler`: `plic_claim`; in `uart_getc` to `LSR`
or `RHR`; in `uart_putc(c)` to `LSR` or `THR`, with `rest` to put after that;
`plic_complete(irq)`. -/
inductive Handler where
  | idle
  | claim
  | poll
  | read
  | put (irq : Nat) (c : Byte) (rest : List Byte)
  | store (irq : Nat) (c : Byte) (rest : List Byte)
  | complete (irq : Nat)
  deriving DecidableEq, Repr

/-- Where `uart_puts` reads on: in a text that no one changes, or in `out_buf`. -/
inductive Rest where
  | text (l : List Byte)
  | outBuf (pos : Nat)
  deriving DecidableEq, Repr

/-- The next access of other code: in `_vsnprintf` to `out_buf`; in `uart_puts` to
`out_buf`, for the test of the loop and for `uart_putc`; in `uart_putc(c)` to `LSR` or
`THR`. -/
inductive Printer where
  | quiet
  | fill (i : Nat) (c : Byte) (rest : List (Nat × Byte))
  | load (pos : Nat)
  | fetch (pos : Nat)
  | put (c : Byte) (rest : Rest)
  | store (c : Byte) (rest : Rest)
  deriving DecidableEq, Repr

inductive Writer where
  | echo
  | notice
  | printer (id : Nat)
  deriving DecidableEq, Repr

/-- The devices and the code; `inTrap` is the printer that has interrupts off because it is
the handler of another trap.  What follows `printers` is what has happened so far: the
characters that came in, those that `uart_ier` has read, what was asked of each printer,
what has been written to `THR`, accepted and lost there, and sent; the sources that
`plic_claim` returned and that were completed. -/
structure Terminal where
  uart : Uart
  plic : Plic
  outBuf : Memory
  handler : Handler
  inTrap : Option Nat
  printers : Nat → Printer
  arrived : List Byte
  taken : List Byte
  asked : Nat → List Byte
  written : List (Writer × Byte)
  accepted : List (Writer × Byte)
  lost : List (Writer × Byte)
  sent : List Byte
  claims : List Nat
  completes : List Nat

/-- What the devices, the handler and a printer can do.  A printer may be any task, the
kernel, or the handler of another trap, from `trap` to `mret`; it begins `uart_puts` of a
constant, or `printf` of a line, which assigns the characters in some order.  `report` is
the PLIC hearing of a source. -/
inductive Event where
  | arrive (c : Byte)
  | transmit
  | report (irq : Nat)
  | interrupt
  | handler
  | trap (id : Nat)
  | mret
  | puts (id : Nat) (bytes : List Byte)
  | printf (id : Nat) (line : Line) (writes : List (Nat × Byte))
  | printer (id : Nat)

def writer (irq : Nat) : Writer := if irq = uart0Irq then .echo else .notice

/-- Where `uart_puts` begins, or goes on after a character; behind the last one `uart_ier`
turns to the next character, and the message is followed by `plic_complete`. -/
def Handler.puts (irq : Nat) : List Byte → Handler
  | c :: rest => .put irq c rest
  | [] => if irq = uart0Irq then .poll else .complete irq

def Handler.got (num : CInt) : Handler :=
  if num = -1 then .complete uart0Irq
  else .puts uart0Irq (echo (num.setWidth 8))

def Printer.puts : Rest → Printer
  | .text (c :: l) => .put c (.text l)
  | .text [] => .quiet
  | .outBuf pos => .load pos

def Printer.fills : List (Nat × Byte) → Printer
  | (i, c) :: rest => .fill i c rest
  | [] => .load 0

namespace Terminal

variable (s : Terminal)

def write (who : Writer) (c : Byte) : Terminal :=
  let s' := { s with
    uart := s.uart.writeReg rhr c
    written := s.written ++ [(who, c)] }
  if s.uart.latch = false ∧ s.uart.holding = none then
    { s' with accepted := s.accepted ++ [(who, c)] }
  else { s' with lost := s.lost ++ [(who, c)] }

/-- `external_interrupt_handler`; `text irq` is the line about an unexpected source, which
`printf` writes to `out_buf` first. -/
def stepHandler (text : Nat → Line) : Option Terminal :=
  match s.handler with
  | .idle => none
  | .claim =>
      let (irq, plic) := plicClaim s.plic
      if irq = 0 then some { s with plic := plic, handler := .idle }
      else if irq = uart0Irq then
        some { s with plic := plic, claims := s.claims ++ [irq], handler := .poll }
      else
        some { s with
          plic := plic
          claims := s.claims ++ [irq]
          outBuf := perform s.outBuf (text irq).writes
          handler := .puts irq (text irq).bytes }
  | .poll =>
      let (status, uart) := s.uart.readReg lsr
      if status &&& lsrRxReady ≠ 0 then some { s with uart := uart, handler := .read }
      else some { s with uart := uart, handler := .got (-1) }
  | .read =>
      let (c, uart) := s.uart.readReg rhr
      some { s with
        uart := uart
        taken := s.taken ++ [c]
        handler := .got (c.setWidth 32) }
  | .put irq c rest =>
      let (status, uart) := s.uart.readReg lsr
      if status &&& lsrTxIdle = 0 then some { s with uart := uart }
      else some { s with uart := uart, handler := .store irq c rest }
  | .store irq c rest => some { s.write (writer irq) c with handler := .puts irq rest }
  | .complete irq =>
      some { s with
        plic := plicComplete s.plic irq
        completes := s.completes ++ [irq]
        handler := .idle }

def stepPrinter (id : Nat) : Option Terminal :=
  match s.printers id with
  | .quiet => none
  | .fill i c rest =>
      some { s with
        outBuf := Function.update s.outBuf i c
        printers := Function.update s.printers id (.fills rest) }
  | .load pos =>
      some { s with
        printers := Function.update s.printers id
          (if s.outBuf pos = 0 then .quiet else .fetch pos) }
  | .fetch pos =>
      some { s with
        printers := Function.update s.printers id
          (.put (s.outBuf pos) (.outBuf (pos + 1))) }
  | .put c rest =>
      let (status, uart) := s.uart.readReg lsr
      if status &&& lsrTxIdle = 0 then some { s with uart := uart }
      else
        some { s with
          uart := uart
          printers := Function.update s.printers id (.store c rest) }
  | .store c rest =>
      some { s.write (.printer id) c with
        printers := Function.update s.printers id (.puts rest) }

/-- It is this printer that the hart executes. -/
def Runs (id : Nat) : Prop :=
  s.handler = .idle ∧ (s.inTrap = none ∨ s.inTrap = some id)

instance (id : Nat) : Decidable (s.Runs id) := inferInstanceAs (Decidable (_ ∧ _))

def step (text : Nat → Line) (s : Terminal) : Event → Option Terminal
  | .arrive c =>
      some { s with
        uart := { s.uart with received := s.uart.received ++ [c] }
        arrived := s.arrived ++ [c] }
  | .transmit =>
      match s.uart.holding with
      | none => none
      | some c =>
          some { s with uart := { s.uart with holding := none }, sent := s.sent ++ [c] }
  | .report irq =>
      if irq = uart0Irq ∧ s.uart.asksFor = false then none
      else some { s with plic := s.plic.report irq }
  | .interrupt =>
      if s.handler = .idle ∧ s.inTrap = none ∧ s.plic.notifies then
        some { s with handler := .claim }
      else none
  | .handler => s.stepHandler text
  | .trap id =>
      if s.handler = .idle ∧ s.inTrap = none ∧ s.printers id = .quiet then
        some { s with inTrap := some id }
      else none
  | .mret =>
      match s.inTrap with
      | none => none
      | some id => if s.printers id = .quiet then some { s with inTrap := none } else none
  | .puts id bytes =>
      if s.Runs id ∧ s.printers id = .quiet then
        some { s with
          printers := Function.update s.printers id (.puts (.text bytes))
          asked := Function.update s.asked id (s.asked id ++ bytes) }
      else none
  | .printf id line writes =>
      if s.Runs id ∧ s.printers id = .quiet ∧ writes.Perm line.writes then
        some { s with
          printers := Function.update s.printers id (.fills writes)
          asked := Function.update s.asked id (s.asked id ++ line.bytes) }
      else none
  | .printer id => if s.Runs id then s.stepPrinter id else none

def boot (uart : Uart) (plic : Plic) (outBuf : Memory) : Terminal where
  uart := uartInit uart
  plic := plicInit plic
  outBuf := outBuf
  handler := .idle
  inTrap := none
  printers := fun _ => .quiet
  arrived := []
  taken := []
  asked := fun _ => []
  written := []
  accepted := []
  lost := []
  sent := []
  claims := []
  completes := []

end Terminal

/-! ## Small facts -/

theorem Printer.puts_ne (r : Rest) (c : Byte) (rest : Rest) :
    Printer.puts r ≠ .store c rest := by
  rcases r with (- | ⟨d, l⟩) | pos <;> simp [puts]

theorem Printer.fills_ne (writes : List (Nat × Byte)) (c : Byte) (rest : Rest) :
    Printer.fills writes ≠ .store c rest := by
  cases writes <;> simp [fills]

section Write

variable (s : Terminal) (who : Writer) (c : Byte)

@[simp] theorem Terminal.write_written :
    (s.write who c).written = s.written ++ [(who, c)] := by
  unfold write
  split_ifs <;> rfl

@[simp] theorem Terminal.write_printers : (s.write who c).printers = s.printers := by
  unfold write
  split_ifs <;> rfl

@[simp] theorem Terminal.write_outBuf : (s.write who c).outBuf = s.outBuf := by
  unfold write
  split_ifs <;> rfl

@[simp] theorem Terminal.write_asked : (s.write who c).asked = s.asked := by
  unfold write
  split_ifs <;> rfl

@[simp] theorem Terminal.write_inTrap : (s.write who c).inTrap = s.inTrap := by
  unfold write
  split_ifs <;> rfl

@[simp] theorem Terminal.write_plic : (s.write who c).plic = s.plic := by
  unfold write
  split_ifs <;> rfl

@[simp] theorem Terminal.write_claims : (s.write who c).claims = s.claims := by
  unfold write
  split_ifs <;> rfl

@[simp] theorem Terminal.write_completes :
    (s.write who c).completes = s.completes := by
  unfold write
  split_ifs <;> rfl

end Write

namespace Terminal

variable {s : Terminal}

theorem write_accepted (hlatch : s.uart.latch = false) (hfree : s.uart.holding = none)
    (who : Writer) (c : Byte) : s.write who c =
      { s with
        uart := { s.uart with holding := some c }
        written := s.written ++ [(who, c)]
        accepted := s.accepted ++ [(who, c)] } := by
  rw [write, if_pos ⟨hlatch, hfree⟩, Uart.writeReg_thr hlatch hfree]

theorem write_lost (hlatch : s.uart.latch = false) (hfull : s.uart.holding ≠ none)
    (who : Writer) (c : Byte) : s.write who c =
      { s with
        written := s.written ++ [(who, c)]
        lost := s.lost ++ [(who, c)] } := by
  rw [write, if_neg fun h => hfull h.2, Uart.writeReg_thr_full hlatch hfull]

theorem write_cases (hlatch : s.uart.latch = false) (who : Writer) (c : Byte) :
    (s.uart.holding = none ∧ s.write who c =
      { s with
        uart := { s.uart with holding := some c }
        written := s.written ++ [(who, c)]
        accepted := s.accepted ++ [(who, c)] }) ∨
    (s.uart.holding ≠ none ∧ s.write who c =
      { s with
        written := s.written ++ [(who, c)]
        lost := s.lost ++ [(who, c)] }) := by
  by_cases hfree : s.uart.holding = none
  · exact .inl ⟨hfree, write_accepted hlatch hfree who c⟩
  · exact .inr ⟨hfree, write_lost hlatch hfree who c⟩

end Terminal

/-! ## What a step changes -/

section Steps

variable {text : Nat → Line} {s s' : Terminal} {e : Event}

inductive Change (text : Nat → Line) (s : Terminal) : Event → Terminal → Prop where
  | arrive (c : Byte) : Change text s (.arrive c)
      { s with
        uart := { s.uart with received := s.uart.received ++ [c] }
        arrived := s.arrived ++ [c] }
  | transmit (c : Byte) (hfull : s.uart.holding = some c) : Change text s .transmit
      { s with uart := { s.uart with holding := none }, sent := s.sent ++ [c] }
  | report (irq : Nat) : Change text s (.report irq) { s with plic := s.plic.report irq }
  | interrupt (hat : s.handler = .idle) (hon : s.inTrap = none) :
      Change text s .interrupt { s with handler := .claim }
  | trap (id : Nat) (hat : s.handler = .idle) : Change text s (.trap id)
      { s with inTrap := some id }
  | mret (hon : s.inTrap ≠ none) : Change text s .mret { s with inTrap := none }
  | nothing (hat : s.handler = .claim) : Change text s .handler { s with handler := .idle }
  | serve (hat : s.handler = .claim) (hirq : uart0Irq ∈ s.plic.candidates) :
      Change text s .handler
        { s with
          plic := s.plic.claim uart0Irq
          claims := s.claims ++ [uart0Irq]
          handler := .poll }
  | unexpected (irq : Nat) (hat : s.handler = .claim) (hirq : irq ∈ s.plic.candidates)
      (hne : irq ≠ uart0Irq) (hclaim : (plicClaim s.plic).1 = irq) :
      Change text s .handler
        { s with
          plic := s.plic.claim irq
          claims := s.claims ++ [irq]
          outBuf := perform s.outBuf (text irq).writes
          handler := .puts irq (text irq).bytes }
  | ready (hat : s.handler = .poll) (hsome : s.uart.received ≠ []) :
      Change text s .handler { s with handler := .read }
  | drained (hat : s.handler = .poll) (hnone : s.uart.received = []) :
      Change text s .handler { s with handler := .complete uart0Irq }
  | read (c : Byte) (rest : List Byte) (hat : s.handler = .read)
      (hrx : s.uart.received = c :: rest) : Change text s .handler
        { s with
          uart := { s.uart with received := rest, last := c }
          taken := s.taken ++ [c]
          handler := .puts uart0Irq (echo c) }
  | misread (hat : s.handler = .read) (hrx : s.uart.received = []) :
      Change text s .handler
        { s with
          taken := s.taken ++ [s.uart.last]
          handler := .puts uart0Irq (echo s.uart.last) }
  | wait (irq : Nat) (c : Byte) (rest : List Byte) (hat : s.handler = .put irq c rest)
      (hfull : s.uart.holding ≠ none) : Change text s .handler s
  | free (irq : Nat) (c : Byte) (rest : List Byte) (hat : s.handler = .put irq c rest)
      (hfree : s.uart.holding = none) : Change text s .handler
        { s with handler := .store irq c rest }
  | store (irq : Nat) (c : Byte) (rest : List Byte) (hat : s.handler = .store irq c rest) :
      Change text s .handler { s.write (writer irq) c with handler := .puts irq rest }
  | complete (irq : Nat) (hat : s.handler = .complete irq) : Change text s .handler
        { s with
          plic := plicComplete s.plic irq
          completes := s.completes ++ [irq]
          handler := .idle }
  | puts (id : Nat) (bytes : List Byte) (hat : s.handler = .idle)
      (hquiet : s.printers id = .quiet) : Change text s (.puts id bytes)
        { s with
          printers := Function.update s.printers id (.puts (.text bytes))
          asked := Function.update s.asked id (s.asked id ++ bytes) }
  | printf (id : Nat) (line : Line) (writes : List (Nat × Byte))
      (hat : s.handler = .idle) (hquiet : s.printers id = .quiet)
      (hperm : writes.Perm line.writes) : Change text s (.printf id line writes)
        { s with
          printers := Function.update s.printers id (.fills writes)
          asked := Function.update s.asked id (s.asked id ++ line.bytes) }
  | fill (id i : Nat) (c : Byte) (rest : List (Nat × Byte)) (hat : s.handler = .idle)
      (hfill : s.printers id = .fill i c rest) : Change text s (.printer id)
        { s with
          outBuf := Function.update s.outBuf i c
          printers := Function.update s.printers id (.fills rest) }
  | ended (id pos : Nat) (hat : s.handler = .idle) (hload : s.printers id = .load pos)
      (hzero : s.outBuf pos = 0) : Change text s (.printer id)
        { s with printers := Function.update s.printers id .quiet }
  | load (id pos : Nat) (hat : s.handler = .idle) (hload : s.printers id = .load pos)
      (hne : s.outBuf pos ≠ 0) : Change text s (.printer id)
        { s with printers := Function.update s.printers id (.fetch pos) }
  | fetch (id pos : Nat) (hat : s.handler = .idle) (hfetch : s.printers id = .fetch pos) :
      Change text s (.printer id)
        { s with
          printers := Function.update s.printers id
            (.put (s.outBuf pos) (.outBuf (pos + 1))) }
  | printerWait (id : Nat) (c : Byte) (rest : Rest) (hat : s.handler = .idle)
      (hput : s.printers id = .put c rest) : Change text s (.printer id) s
  | printerFree (id : Nat) (c : Byte) (rest : Rest) (hat : s.handler = .idle)
      (hput : s.printers id = .put c rest) (hfree : s.uart.holding = none) :
      Change text s (.printer id)
        { s with printers := Function.update s.printers id (.store c rest) }
  | printerStore (id : Nat) (c : Byte) (rest : Rest) (hat : s.handler = .idle)
      (hstore : s.printers id = .store c rest) : Change text s (.printer id)
        { s.write (.printer id) c with
          printers := Function.update s.printers id (.puts rest) }

theorem Handler.got_byte (c : Byte) :
    Handler.got (c.setWidth 32) = .puts uart0Irq (echo c) := by
  have hne : (c.setWidth 32 : CInt) ≠ -1 := by
    revert c
    decide
  have hcut : (c.setWidth 32 : CInt).setWidth 8 = c := by
    rw [BitVec.setWidth_setWidth_of_le _ (by decide), BitVec.setWidth_eq]
  rw [got, if_neg hne, hcut]

theorem Terminal.stepHandler_change (hlatch : s.uart.latch = false)
    (hstep : s.stepHandler text = some s') : Change text s .handler s' := by
  rw [Terminal.stepHandler] at hstep
  cases hat : s.handler with
  | idle => simp [hat] at hstep
  | claim =>
      simp only [hat] at hstep
      rcases Plic.plicClaim_cases s.plic with ⟨-, hclaim⟩ | ⟨irq, hirq, -, hclaim⟩
      · rw [hclaim] at hstep
        cases hstep
        exact .nothing hat
      · have hpos : irq ≠ 0 := by
          have hrange := (Plic.mem_candidates.mp hirq).1
          omega
        have hfirst : (plicClaim s.plic).1 = irq := congrArg Prod.fst hclaim
        rw [hclaim] at hstep
        simp only [hpos, if_false] at hstep
        split_ifs at hstep with huart <;> cases hstep
        · subst huart
          exact .serve hat hirq
        · exact .unexpected irq hat hirq huart hfirst
  | poll =>
      simp only [hat] at hstep
      split_ifs at hstep with hrx <;> cases hstep
      · exact .ready hat (Uart.rxReady_iff.mp hrx)
      · exact .drained hat (not_not.mp fun hne => hrx (Uart.rxReady_iff.mpr hne))
  | read =>
      simp only [hat] at hstep
      cases hrx : s.uart.received with
      | nil =>
          rw [Uart.readReg_rhr_empty hlatch hrx, Handler.got_byte] at hstep
          cases hstep
          exact .misread hat hrx
      | cons c rest =>
          rw [Uart.readReg_rhr hlatch hrx, Handler.got_byte] at hstep
          cases hstep
          exact .read c rest hat hrx
  | put irq c rest =>
      simp only [hat] at hstep
      split_ifs at hstep with hfull
      · obtain rfl : s = s' := by
          rw [← hat] at hstep
          exact Option.some.inj hstep
        exact .wait irq c rest hat (Uart.txIdle_iff.mp hfull)
      · cases hstep
        exact .free irq c rest hat (not_not.mp fun hne => hfull (Uart.txIdle_iff.mpr hne))
  | store irq c rest =>
      simp only [hat] at hstep
      cases hstep
      exact .store irq c rest hat
  | complete irq =>
      simp only [hat] at hstep
      cases hstep
      exact .complete irq hat

theorem Terminal.stepPrinter_change {id : Nat} (hat : s.handler = .idle)
    (hstep : s.stepPrinter id = some s') : Change text s (.printer id) s' := by
  rw [Terminal.stepPrinter] at hstep
  cases hprinter : s.printers id with
  | quiet => simp [hprinter] at hstep
  | fill i c rest =>
      simp only [hprinter] at hstep
      cases hstep
      exact .fill id i c rest hat hprinter
  | load pos =>
      simp only [hprinter] at hstep
      split_ifs at hstep with hzero <;> cases hstep
      · exact .ended id pos hat hprinter hzero
      · exact .load id pos hat hprinter hzero
  | fetch pos =>
      simp only [hprinter] at hstep
      cases hstep
      exact .fetch id pos hat hprinter
  | put c rest =>
      simp only [hprinter] at hstep
      split_ifs at hstep with hfull <;> cases hstep
      · exact .printerWait id c rest hat hprinter
      · exact .printerFree id c rest hat hprinter
          (not_not.mp fun hne => hfull (Uart.txIdle_iff.mpr hne))
  | store c rest =>
      simp only [hprinter] at hstep
      cases hstep
      exact .printerStore id c rest hat hprinter

theorem Terminal.runs_of_step {id : Nat} (hstep : s.step text (.printer id) = some s') :
    s.Runs id := by
  by_contra hother
  rw [Terminal.step, if_neg hother] at hstep
  cases hstep

theorem Terminal.quiet_of_trap {id : Nat} (hstep : s.step text (.trap id) = some s') :
    s.printers id = .quiet := by
  rw [Terminal.step] at hstep
  split_ifs at hstep with hat
  exact hat.2.2

theorem Terminal.step_change (hlatch : s.uart.latch = false)
    (hstep : s.step text e = some s') : Change text s e s' := by
  cases e with
  | arrive c =>
      cases hstep
      exact .arrive c
  | transmit =>
      rw [Terminal.step] at hstep
      cases hfull : s.uart.holding with
      | none => simp [hfull] at hstep
      | some c =>
          simp only [hfull] at hstep
          cases hstep
          exact .transmit c hfull
  | report irq =>
      rw [Terminal.step] at hstep
      split_ifs at hstep
      cases hstep
      exact .report irq
  | interrupt =>
      rw [Terminal.step] at hstep
      split_ifs at hstep with hat
      cases hstep
      exact .interrupt hat.1 hat.2.1
  | handler => exact Terminal.stepHandler_change hlatch hstep
  | trap id =>
      rw [Terminal.step] at hstep
      split_ifs at hstep with hat
      cases hstep
      exact .trap id hat.1
  | mret =>
      rw [Terminal.step] at hstep
      cases hon : s.inTrap with
      | none => simp [hon] at hstep
      | some id =>
          simp only [hon] at hstep
          split_ifs at hstep
          cases hstep
          exact .mret (by simp [hon])
  | puts id bytes =>
      rw [Terminal.step] at hstep
      split_ifs at hstep with hat
      cases hstep
      exact .puts id bytes hat.1.1 hat.2
  | printf id line writes =>
      rw [Terminal.step] at hstep
      split_ifs at hstep with hat
      cases hstep
      exact .printf id line writes hat.1.1 hat.2.1 hat.2.2
  | printer id =>
      rw [Terminal.step] at hstep
      split_ifs at hstep with hat
      exact Terminal.stepPrinter_change hat.1 hstep

end Steps

end XinOS.Console
