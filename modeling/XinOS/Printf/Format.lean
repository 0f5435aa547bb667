import XinOS.Platform
import XinOS.Foundation.Memory

/-!
# `_vsnprintf` and `_vprintf`: printf.c

The loop of `_vsnprintf` reads the format byte by byte; `format` and `longarg` say
where in a conversion it is.  `w` is the width of `long`, `size_t` and pointers.
A call whose arguments do not match the format has no defined result.
-/

namespace XinOS.Printf

open XinOS.Foundation

variable {w : Nat}

structure CString where
  bytes : List Byte
  nonzero : 0 ∉ bytes

/-- An argument behind the format; a pointer is passed like a `long`. -/
inductive Arg (w : Nat) where
  | int (v : CInt)
  | long (v : BitVec w)
  | str (s : CString)

def char (c : Char) : Byte := BitVec.ofNat 8 c.toNat

/-- The variables of `_vsnprintf`: `out` is the buffer, unless it is null, and
`args` what `va_arg` has not read yet.  `text` is none of them; it holds the
characters printed so far, also those for which the buffer has no room. -/
structure Printer (w : Nat) where
  out : Option Memory
  n : BitVec w
  pos : BitVec w
  format : Bool
  longarg : Bool
  args : List (Arg w)
  text : List Byte

namespace Printer

variable (p : Printer w)

def put (i : BitVec w) (c : Byte) : Printer w :=
  { p with out := p.out.map fun m =>
      if i < p.n then m.modify i.toNat fun _ => c else m }

def emit (c : Byte) : Printer w :=
  { p.put p.pos c with pos := p.pos + 1, text := p.text ++ [c] }

def emitAll (l : List Byte) : Printer w := l.foldl emit p

def close : Printer w := { p with longarg := false, format := false }

/-- `long num = (longarg ? va_arg(vl, long) : va_arg(vl, int));` -/
def takeNumber : Option (BitVec w × Printer w) :=
  match p.longarg, p.args with
  | true, .long v :: args => some (v, { p with args := args })
  | false, .int v :: args => some (v.signExtend w, { p with args := args })
  | _, _ => none

end Printer

/-! ## `%d` -/

/-- `for (long i = num; i != 0; i /= 10, ++digits);` -/
def countDigits : Nat → BitVec w → Nat
  | 0, _ => 0
  | fuel + 1, i => if i = 0 then 0 else countDigits fuel (i.sdiv 10) + 1

/-- `'0' + (num % 10)`, cut to a `char`. -/
def digitChar (num : BitVec w) : Byte := (48 + num.srem 10).setWidth 8

/-- The loop that writes the digits backwards, from `i - 1` down to 0; the
characters are collected as well. -/
def writeDigits : Nat → BitVec w → Printer w → List Byte → Printer w × List Byte
  | 0, _, p, chars => (p, chars)
  | i + 1, num, p, chars =>
      writeDigits i (num.sdiv 10)
        (p.put (p.pos + BitVec.ofNat w i) (digitChar num)) (digitChar num :: chars)

def printDigits (num : BitVec w) (p : Printer w) : Printer w :=
  let digits := countDigits w num
  let r := writeDigits digits num p []
  { r.1 with pos := p.pos + BitVec.ofNat w digits, text := p.text ++ r.2 }

def printDecimal (num : BitVec w) (p : Printer w) : Printer w :=
  if num.slt 0 then (printDigits (-num) (p.emit (char '-'))).close
  else (printDigits num p).close

/-! ## `%x` -/

def hexChar (d : Nat) : Byte :=
  BitVec.ofNat 8 (if d < 10 then 48 + d else 97 + d - 10)

def printHexDigits : Nat → BitVec w → Printer w → Printer w
  | 0, _, p => p
  | i + 1, num, p =>
      printHexDigits i num
        (p.emit (hexChar (num.sshiftRight (4 * i) &&& 15).toNat))

def printHex (p : Printer w) : Option (Printer w) :=
  let hexDigits := 2 * if p.longarg then w / 8 else 4
  p.takeNumber.map fun r => (printHexDigits hexDigits r.1 r.2).close

/-! ## The loop over the format -/

def printString (p : Printer w) : Option (Printer w) :=
  match p.args with
  | .str s :: args => some (({ p with args := args }).emitAll s.bytes).close
  | _ => none

def step (p : Printer w) (c : Byte) : Option (Printer w) :=
  if p.format then
    if c = char 'd' then p.takeNumber.map fun r => printDecimal r.1 r.2
    else if c = char 'l' then some { p with longarg := true }
    else if c = char 'p' then
      -- falls through to the case of `x`
      printHex ((({ p with longarg := true }).emit (char '0')).emit (char 'x'))
    else if c = char 'x' then printHex p
    else if c = char 's' then printString p
    else if c = char 'c' then some (p.emit c).close
    else some p
  else if c = char '%' then some { p with format := true }
  else some (p.emit c)

def run (p : Printer w) (s : List Byte) : Option (Printer w) := s.foldlM step p

def terminate (p : Printer w) : Option Memory :=
  p.out.map fun m =>
    if p.pos < p.n then m.modify p.pos.toNat fun _ => 0
    else if p.n ≠ 0 then m.modify (p.n - 1).toNat fun _ => 0
    else m

def start (out : Option Memory) (n : BitVec w) (args : List (Arg w)) :
    Printer w where
  out := out
  n := n
  pos := 0
  format := false
  longarg := false
  args := args
  text := []

structure Printed (w : Nat) where
  value : CInt
  out : Option Memory
  args : List (Arg w)
  text : List Byte

def vsnprintf (out : Option Memory) (n : BitVec w) (s : CString)
    (args : List (Arg w)) : Option (Printed w) :=
  (run (start out n args) s.bytes).map fun p =>
    { value := p.pos.setWidth 32
      out := terminate p
      args := p.args
      text := p.text }

/-! ## `_vprintf` -/

def outBufSize : Nat := 1024

def uartPuts (m : Memory) : Nat → Nat → Option (List Byte)
  | 0, _ => none
  | fuel + 1, a =>
      if m a = 0 then some []
      else (uartPuts m fuel (a + 1)).map (m a :: ·)

inductive Reply where
  /-- `output string size overflow` -/
  | overflow
  | sent (bytes : List Byte) (outBuf : Memory)

def vprintf (outBuf : Memory) (s : CString) (args : List (Arg w)) :
    Option Reply :=
  match vsnprintf none (-1) s args with
  | none => none
  | some r =>
      let size : BitVec w := (r.value + 1).signExtend w
      if size ≥ BitVec.ofNat w outBufSize then some .overflow
      else
        match vsnprintf (some outBuf) size s args with
        | some ⟨_, some buf, _, _⟩ => (uartPuts buf walkFuel 0).map (.sent · buf)
        | _ => none

end XinOS.Printf
