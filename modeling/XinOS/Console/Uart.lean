import XinOS.Printf.Format

/-!
# The serial port: uart.c

The 16550 at `UART0`: the registers that uart.c uses and the bytes on their way through
it.  Several registers share an offset; bit 7 of `LCR` and the direction of the access
say which one is meant.
-/

namespace XinOS.Console

open XinOS.Foundation
open XinOS.Printf (char)

/-! ## Registers -/

/-- `RHR`, `THR` and `DLL`. -/
def rhr : Nat := 0

def ier : Nat := 1

def lcr : Nat := 3

def lsr : Nat := 5

def lsrTxIdle : Byte := 1#8 <<< 5

def lsrRxReady : Byte := 1#8 <<< 0

/-- `received` has been received and not been read, `last` is what `RHR` reads as without
that, `holding` waits in `THR` to be sent, and `status` has the bits of `LSR` that uart.c
does not look at. -/
structure Uart where
  ier : Byte
  lcr : Byte
  dll : Byte
  dlm : Byte
  received : List Byte
  last : Byte
  holding : Option Byte
  status : Byte

namespace Uart

variable (u : Uart)

def latch : Bool := u.lcr.getLsbD 7

def lineStatus : Byte :=
  u.status &&& ~~~(lsrTxIdle ||| lsrRxReady) |||
    (if u.holding = none then lsrTxIdle else 0) |||
    (if u.received = [] then 0 else lsrRxReady)

def readReg (reg : Nat) : Byte × Uart :=
  if reg = Console.rhr then
    if u.latch then (u.dll, u)
    else
      match u.received with
      | [] => (u.last, u)
      | c :: rest => (c, { u with received := rest, last := c })
  else if reg = Console.ier then (if u.latch then u.dlm else u.ier, u)
  else if reg = Console.lcr then (u.lcr, u)
  else if reg = Console.lsr then (u.lineStatus, u)
  else (0, u)

/-- `uart_write_reg(reg, v)`; a full `THR` accepts nothing. -/
def writeReg (reg : Nat) (v : Byte) : Uart :=
  if reg = Console.rhr then
    if u.latch then { u with dll := v }
    else if u.holding = none then { u with holding := some v }
    else u
  else if reg = Console.ier then
    if u.latch then { u with dlm := v } else { u with ier := v &&& 0x0F }
  else if reg = Console.lcr then { u with lcr := v }
  else u

def asksFor : Bool := u.ier.getLsbD 0 && !u.received.isEmpty

structure PoweredUp : Prop where
  ier : u.ier = 0
  lcr : u.lcr = 0
  received : u.received = []
  holding : u.holding = none

structure Ready : Prop where
  latch : u.latch = false
  ier : u.ier = 1

variable {u}

theorem rxReady_iff : u.lineStatus &&& lsrRxReady ≠ 0 ↔ u.received ≠ [] := by
  unfold lineStatus lsrRxReady lsrTxIdle
  generalize u.status = x
  split_ifs with hthr hrx hrx <;>
    simp only [hrx, ne_eq, not_true_eq_false, not_false_eq_true, iff_true, iff_false] <;>
    revert x <;> decide

theorem txIdle_iff : u.lineStatus &&& lsrTxIdle = 0 ↔ u.holding ≠ none := by
  unfold lineStatus lsrRxReady lsrTxIdle
  generalize u.status = x
  split_ifs with hthr hrx hrx <;>
    simp only [hthr, ne_eq, not_true_eq_false, not_false_eq_true, iff_true, iff_false] <;>
    revert x <;> decide

theorem readReg_rhr (hlatch : u.latch = false) {c : Byte} {rest : List Byte}
    (hrx : u.received = c :: rest) :
    u.readReg rhr = (c, { u with received := rest, last := c }) := by
  simp [readReg, hlatch, hrx]

theorem readReg_rhr_empty (hlatch : u.latch = false) (hrx : u.received = []) :
    u.readReg rhr = (u.last, u) := by
  simp [readReg, hlatch, hrx]

theorem writeReg_thr (hlatch : u.latch = false) (hfree : u.holding = none) (v : Byte) :
    u.writeReg rhr v = { u with holding := some v } := by
  simp [writeReg, hlatch, hfree]

theorem writeReg_thr_full (hlatch : u.latch = false) (hfull : u.holding ≠ none)
    (v : Byte) : u.writeReg rhr v = u := by
  simp [writeReg, hlatch, hfull]

end Uart

/-! ## uart.c -/

def uartInit (u : Uart) : Uart :=
  let u := u.writeReg ier 0x00
  let (c, u) := u.readReg lcr
  let u := u.writeReg lcr (c ||| 1#8 <<< 7)
  let u := u.writeReg rhr 0x03
  let u := u.writeReg ier 0x00
  let u := u.writeReg lcr 0x03
  let (c, u) := u.readReg ier
  u.writeReg ier (c ||| 1#8 <<< 0)

/-- What `uart_ier` puts out for a character. -/
def echo (c : Byte) : List Byte :=
  if c = char '\r' ∨ c = char '\n' then [char '\r', char '\n']
  else if c = 127 ∨ c = 8 then [8, char ' ', 8]
  else [c]

/-- `uart_init` leaves what has been received and what is to be sent alone, and sets the
divisor to 3 and eight bits without parity.  A divisor latch that is open when it begins
keeps it from turning the other interrupts off. -/
theorem uartInit_eq (u : Uart) : uartInit u =
    { u with
      ier := ((if u.latch then u.ier else 0) ||| 1) &&& 0x0F
      lcr := 3
      dll := 3
      dlm := 0 } := by
  obtain ⟨ier₀, lcr₀, dll₀, dlm₀, rx, last, thr, status⟩ := u
  have hopen : ∀ c : Byte, (c ||| 1#8 <<< 7).getLsbD 7 = true := by decide
  have hclosed : (0x03 : Byte).getLsbD 7 = false := by decide
  cases hlatch : lcr₀.getLsbD 7 <;>
    simp only [uartInit, Uart.writeReg, Uart.readReg, Uart.latch, rhr, ier, lcr, hopen,
      hclosed, hlatch, reduceIte, reduceCtorEq, Nat.reduceEqDiff] <;> rfl

/-- Only the interrupt for what has been received is on after `uart_init`, exactly if the
divisor latch was closed or the others were off. -/
theorem uartInit_ready_iff (u : Uart) :
    (uartInit u).Ready ↔ u.latch = false ∨ u.ier &&& 0x0E = 0 := by
  have hbits : ∀ c : Byte, (c ||| 1) &&& 0x0F = 1 ↔ c &&& 0x0E = 0 := by decide
  have hlatch : (uartInit u).latch = false := by
    rw [uartInit_eq]
    exact (by decide : (3 : Byte).getLsbD 7 = false)
  rw [uartInit_eq] at hlatch ⊢
  constructor
  · intro hready
    have hier := (hbits _).mp hready.ier
    cases hu : u.latch with
    | false => exact .inl rfl
    | true =>
        rw [hu, if_pos rfl] at hier
        exact .inr hier
  · intro hcase
    refine ⟨hlatch, (hbits _).mpr ?_⟩
    rcases hcase with hu | hu
    · rw [hu, if_neg Bool.false_ne_true]
      rfl
    · split_ifs
      · exact hu
      · rfl

end XinOS.Console
