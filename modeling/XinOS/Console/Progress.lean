import XinOS.Console.Printing

/-!
# What the console can always do

Whatever has happened, the devices and the handler can bring everything that came in to
its end by themselves, once another trap that is being handled has put out what it began
to print: no interrupt gets lost between two reads of the port, and no character waits for
another one to come in.
-/

namespace XinOS.Console

open XinOS.Foundation
open XinOS.Printf (char outBufSize)

variable {text : Nat → Line} {s t : Terminal}

/-- No character comes in, no other source reports anything, and no code prints but the
handlers. -/
def Settling (s : Terminal) : Event → Prop
  | .transmit => True
  | .report irq => irq = uart0Irq
  | .interrupt => True
  | .handler => True
  | .mret => True
  | .printer id => s.inTrap = some id
  | _ => False

abbrev Settles (text : Nat → Line) : Terminal → (Terminal → Prop) → Prop :=
  CanReach (stepRel (Terminal.step text)) Settling

structure Steady (s : Terminal) : Prop where
  sound : Sound s
  bounded : Bounded s

theorem Steady.step {e : Event} (h : Steady s) (hstep : s.step text e = some t) :
    Steady t :=
  ⟨h.sound.step hstep,
    h.bounded.change (Terminal.step_change h.sound.heard.uart.latch hstep)⟩

theorem Settles.steady {Q : Terminal → Prop} (h : Settles text s Q) (hs : Steady s) :
    Settles text s fun t => Steady t ∧ Q t :=
  h.keeping hs fun _ _ _ hP _ hstep => hP.step hstep

/-! ## Single steps -/

section Steps

variable (text)

section Printer

variable {id : Nat}

end Printer

end Steps

/-! ## Another trap -/

structure Trapped (id : Nat) (s t : Terminal) : Prop where
  steady : Steady t
  inTrap : t.inTrap = some id
  arrived : t.arrived = s.arrived

section Printer

variable {id : Nat}

theorem Trapped.refl (hs : Steady s) (hin : s.inTrap = some id) : Trapped id s s :=
  ⟨hs, hin, rfl⟩

theorem Trapped.runs (h : Trapped id s t) : t.Runs id :=
  ⟨h.steady.sound.served.alone.resolve_left (by simp [h.inTrap]), .inr h.inTrap⟩

theorem Trapped.next {u : Terminal} {Q : Terminal → Prop} (h : Trapped id s t)
    (hstep : t.step text (.printer id) = some u) (hin : u.inTrap = t.inTrap)
    (harrived : u.arrived = t.arrived) (hrest : Trapped id s u → Settles text u Q) :
    Settles text t Q :=
  .next (i := .printer id) h.inTrap hstep (hrest ⟨h.steady.step hstep, hin.trans h.inTrap,
    harrived.trans h.arrived⟩)

end Printer

structure Unmoved (s t : Terminal) : Prop where
  arrived : t.arrived = s.arrived
  inTrap : t.inTrap = s.inTrap
  received : t.uart.received = s.uart.received
  plic : t.plic = s.plic

theorem Unmoved.after {u : Terminal} (h' : Unmoved t u) (h : Unmoved s t) :
    Unmoved s u :=
  ⟨h'.arrived.trans h.arrived, h'.inTrap.trans h.inTrap, h'.received.trans h.received,
    h'.plic.trans h.plic⟩

structure Finished (s t : Terminal) : Prop where
  handler : t.handler = .idle
  arrived : t.arrived = s.arrived
  inTrap : t.inTrap = s.inTrap

theorem Finished.after {u : Terminal} (h' : Finished t u)
    (harrived : t.arrived = s.arrived) (hin : t.inTrap = s.inTrap) : Finished s u :=
  ⟨h'.handler, h'.arrived.trans harrived, h'.inTrap.trans hin⟩

end XinOS.Console
