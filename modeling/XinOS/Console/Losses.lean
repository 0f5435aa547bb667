import XinOS.Console.Interrupt
import XinOS.Foundation.Transition

/-!
# What gets lost at `THR`

`uart_putc` looks at `LSR` and then writes to `THR`.  Code that is interrupted between the
two can find `THR` full again; the handler of a trap cannot.
-/

namespace XinOS.Console

open XinOS.Foundation

variable {text : Nat → Line} {s s' : Terminal} {e : Event}
variable {s₀ : Terminal} {events after : List Event} {id : Nat}

def Interferes (id : Nat) (e : Event) : Prop :=
  e = .interrupt ∨ ∃ j, j ≠ id ∧ e = .printer j

/-- The last access of the printer is a look at `LSR` that finds `THR` empty, and `after`
has happened since. -/
def Looked (text : Nat → Line) (s₀ : Terminal) (id : Nat) (events after : List Event) :
    Prop :=
  ∃ before t c rest, events = before ++ .printer id :: after ∧
    exec (Terminal.step text) s₀ before = some t ∧ t.printers id = .put c rest ∧
    t.uart.holding = none ∧ .printer id ∉ after

/-- Between the look of a printer at `LSR` and its write to `THR` either nothing has
happened to `THR`, or other code got the hart, and then it is not the handler of a trap
that is about to write. -/
def Poised (text : Nat → Line) (s₀ : Terminal) (events : List Event) (s : Terminal) : Prop :=
  ∀ id c rest, s.printers id = .store c rest →
    ∃ after, Looked text s₀ id events after ∧
      (s.handler = .idle ∧ s.uart.holding = none ∨
        s.inTrap ≠ some id ∧ ∃ e ∈ after, Interferes id e)

theorem Looked.snoc (h : Looked text s₀ id events after) (hne : e ≠ .printer id) :
    Looked text s₀ id (events ++ [e]) (after ++ [e]) := by
  obtain ⟨before, t, c, rest, hevents, hrun, hput, hfree, hlast⟩ := h
  refine ⟨before, t, c, rest, by simp [hevents], hrun, hput, hfree, ?_⟩
  simpa [hlast] using hne.symm

theorem Change.printers {c : Byte} {rest : Rest} (hchange : Change text s e s')
    (hstore : s'.printers id = .store c rest) :
    (s.printers id = .store c rest ∧ e ≠ .printer id) ∨
      (e = .printer id ∧ s.printers id = .put c rest ∧ s.uart.holding = none ∧
        s'.handler = .idle ∧ s'.uart.holding = none) := by
  have hmoved : ∀ {j : Nat} {p : Printer}, (∀ d l, p ≠ .store d l) →
      Function.update s.printers j p id = .store c rest →
      s.printers id = .store c rest ∧ j ≠ id := by
    intro j p hp hstore
    by_cases hj : id = j
    · subst hj
      rw [Function.update_self] at hstore
      exact absurd hstore (hp c rest)
    · rw [Function.update_of_ne hj] at hstore
      exact ⟨hstore, Ne.symm hj⟩
  have hother : ∀ {j : Nat} {p : Printer}, (∀ d l, p ≠ .store d l) →
      Function.update s.printers j p id = .store c rest →
      s.printers id = .store c rest ∧ Event.printer j ≠ .printer id :=
    fun hp hstore => (hmoved hp hstore).imp_right fun hj heq => hj (Event.printer.inj heq)
  cases hchange with
  | puts j bytes hat hquiet => exact .inl ⟨(hmoved (Printer.puts_ne _) hstore).1, by simp⟩
  | printf j line writes hat hquiet hperm =>
      exact .inl ⟨(hmoved (Printer.fills_ne _) hstore).1, by simp⟩
  | fill j i c rest hat hfill => exact .inl (hother (Printer.fills_ne _) hstore)
  | ended j pos hat hload hzero => exact .inl (hother (by simp) hstore)
  | load j pos hat hload hne => exact .inl (hother (by simp) hstore)
  | fetch j pos hat hfetch => exact .inl (hother (by simp) hstore)
  | printerWait j d rest' hat hput =>
      refine .inl ⟨hstore, fun heq => ?_⟩
      rw [Event.printer.inj heq, hstore] at hput
      cases hput
  | printerFree j d rest' hat hput hfree =>
      by_cases hj : id = j
      · subst hj
        dsimp only at hstore
        rw [Function.update_self] at hstore
        cases hstore
        exact .inr ⟨rfl, hput, hfree, hat, hfree⟩
      · dsimp only at hstore
        rw [Function.update_of_ne hj] at hstore
        exact .inl ⟨hstore, fun heq => hj (Event.printer.inj heq).symm⟩
  | printerStore j d rest' hat hstore' => exact .inl (hother (Printer.puts_ne _) hstore)
  | store irq d rest' hat =>
      rw [Terminal.write_printers] at hstore
      exact .inl ⟨hstore, by simp⟩
  | _ => exact .inl ⟨hstore, by simp⟩

theorem Change.port (hchange : Change text s e s') (hat : s.handler = .idle)
    (hfree : s.uart.holding = none) :
    (s'.handler = .idle ∧ s'.uart.holding = none) ∨ e = .interrupt ∨
      ∃ j, e = .printer j := by
  by_cases hhandler : e = .handler
  · subst hhandler
    cases hchange <;> simp_all
  · cases hchange with
    | arrive c => exact .inl ⟨hat, hfree⟩
    | transmit c hfull => exact .inl ⟨hat, rfl⟩
    | report irq => exact .inl ⟨hat, hfree⟩
    | trap j hat' => exact .inl ⟨hat, hfree⟩
    | mret hin => exact .inl ⟨hat, hfree⟩
    | puts j bytes hat' hquiet => exact .inl ⟨hat, hfree⟩
    | printf j line writes hat' hquiet hperm => exact .inl ⟨hat, hfree⟩
    | interrupt hat' hoff => exact .inr (.inl rfl)
    | fill j i c rest hat' hfill => exact .inr (.inr ⟨j, rfl⟩)
    | ended j pos hat' hload hzero => exact .inr (.inr ⟨j, rfl⟩)
    | load j pos hat' hload hne => exact .inr (.inr ⟨j, rfl⟩)
    | fetch j pos hat' hfetch => exact .inr (.inr ⟨j, rfl⟩)
    | printerWait j c rest hat' hput => exact .inr (.inr ⟨j, rfl⟩)
    | printerFree j c rest hat' hput hfree' => exact .inr (.inr ⟨j, rfl⟩)
    | printerStore j c rest hat' hstore => exact .inr (.inr ⟨j, rfl⟩)
    | _ => exact absurd rfl hhandler

theorem Change.inTrap (hchange : Change text s e s') :
    s'.inTrap = s.inTrap ∨ s'.inTrap = none ∨ ∃ j, e = .trap j ∧ s'.inTrap = some j := by
  cases hchange with
  | trap j hat => exact .inr (.inr ⟨j, rfl, rfl⟩)
  | mret hin => exact .inr (.inl rfl)
  | store irq c rest hat => exact .inl (s.write_inTrap (writer irq) c)
  | printerStore j c rest hat hstore => exact .inl (s.write_inTrap (.printer j) c)
  | _ => exact .inl rfl

theorem Poised.step (h : Poised text s₀ events s) (hlatch : s.uart.latch = false)
    (hrun : exec (Terminal.step text) s₀ events = some s)
    (hstep : s.step text e = some s') : Poised text s₀ (events ++ [e]) s' := by
  intro id c rest hstore
  have hchange := Terminal.step_change hlatch hstep
  rcases hchange.printers hstore with ⟨hold, hne⟩ | ⟨rfl, hput, hfree, hat', hfree'⟩
  · obtain ⟨after, hlooked, hcase⟩ := h id c rest hold
    -- a trap is not entered in the middle of what its handler prints
    have hin : s.inTrap ≠ some id → s'.inTrap ≠ some id := by
      intro hout hin'
      rcases hchange.inTrap with hsame | hnone | ⟨j, rfl, hj⟩
      · exact hout (hsame.symm.trans hin')
      · cases hnone.symm.trans hin'
      · obtain rfl : j = id := Option.some.inj (hj.symm.trans hin')
        cases hold.symm.trans (Terminal.quiet_of_trap hstep)
    refine ⟨after ++ [e], hlooked.snoc hne, ?_⟩
    rcases hcase with ⟨hat, hfree⟩ | ⟨hout, i, hi, hinter⟩
    · rcases hchange.port hat hfree with hkept | rfl | ⟨j, rfl⟩
      · exact .inl hkept
      · cases hchange with
        | interrupt hat' hon =>
            exact .inr ⟨by simp [hon], .interrupt, by simp, .inl rfl⟩
      · have hj : j ≠ id := fun heq => hne (congrArg Event.printer heq)
        have hout : s.inTrap ≠ some id := by
          rcases (Terminal.runs_of_step hstep).2 with hnone | hsome
          · simp [hnone]
          · simpa [hsome] using hj
        exact .inr ⟨hin hout, .printer j, by simp, .inr ⟨j, hj, rfl⟩⟩
    · exact .inr ⟨hin hout, i, List.mem_append_left _ hi, hinter⟩
  · exact ⟨[], ⟨events, s, c, rest, rfl, hrun, hput, hfree, by simp⟩, .inl ⟨hat', hfree'⟩⟩

/-- The printer was interrupted between its look at `LSR` and its write to `THR`, which
is next, and it is not the handler of a trap. -/
def Overtaken (text : Nat → Line) (s₀ : Terminal) (events : List Event) (s : Terminal)
    (id : Nat) : Prop :=
  s.inTrap ≠ some id ∧
    ∃ after, Looked text s₀ id events after ∧ ∃ e ∈ after, Interferes id e

theorem Poised.lost (h : Poised text s₀ events s) (hlatch : s.uart.latch = false)
    (hkept : ∀ irq c rest, s.handler = .store irq c rest → s.uart.holding = none)
    (hstep : s.step text e = some s') :
    s'.lost = s.lost ∨ ∃ id c, e = .printer id ∧
      s'.lost = s.lost ++ [(.printer id, c)] ∧ Overtaken text s₀ events s id := by
  cases Terminal.step_change hlatch hstep with
  | store irq c rest hat =>
      rw [Terminal.write_accepted hlatch (hkept irq c rest hat)]
      exact .inl rfl
  | printerStore id c rest hat hstore =>
      rcases Terminal.write_cases hlatch (.printer id) c with ⟨-, hwrite⟩ | ⟨hfull, hwrite⟩
      · rw [hwrite]
        exact .inl rfl
      · obtain ⟨after, hlooked, ⟨-, hfree⟩ | ⟨hout, hinter⟩⟩ := h id c rest hstore
        · exact absurd hfree hfull
        · exact .inr ⟨id, c, rfl, by rw [hwrite], hout, after, hlooked, hinter⟩
  | _ => exact .inl rfl

end XinOS.Console
