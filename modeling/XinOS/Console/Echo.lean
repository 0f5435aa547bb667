import XinOS.Console.Losses

/-!
# What the handler keeps

However interrupts, arriving characters, sent characters and other printing code follow
each other: `uart_ier` reads every character once and in order, puts out its echo in
full, and completes what it has claimed.
-/

namespace XinOS.Console

open XinOS.Foundation
open XinOS.Printf (char)

variable {text : Nat → Line} {s s' : Terminal} {e : Event}

def bytesOf (who : Writer) (l : List (Writer × Byte)) : List Byte :=
  (l.filter fun w => decide (w.1 = who)).map Prod.snd

@[simp] theorem bytesOf_nil (who : Writer) : bytesOf who [] = [] := rfl

@[simp] theorem bytesOf_append (who : Writer) (l l' : List (Writer × Byte)) :
    bytesOf who (l ++ l') = bytesOf who l ++ bytesOf who l' := by
  simp [bytesOf]

theorem bytesOf_self (who : Writer) (c : Byte) : bytesOf who [(who, c)] = [c] := by
  simp [bytesOf]

theorem bytesOf_other {who who' : Writer} (hne : who' ≠ who) (c : Byte) :
    bytesOf who [(who', c)] = [] := by
  simp [bytesOf, hne]

def Handler.owed : Handler → List Byte
  | .put irq c rest => if irq = uart0Irq then c :: rest else []
  | .store irq c rest => if irq = uart0Irq then c :: rest else []
  | _ => []

def Handler.serves : Handler → Option Nat
  | .idle => none
  | .claim => none
  | .poll => some uart0Irq
  | .read => some uart0Irq
  | .put irq _ _ => some irq
  | .store irq _ _ => some irq
  | .complete irq => some irq

@[simp] theorem Handler.owed_puts (irq : Nat) (l : List Byte) :
    (Handler.puts irq l).owed = if irq = uart0Irq then l else [] := by
  cases l with
  | nil => by_cases h : irq = uart0Irq <;> simp [puts, owed, h]
  | cons c rest => rfl

@[simp] theorem Handler.serves_puts (irq : Nat) (l : List Byte) :
    (Handler.puts irq l).serves = some irq := by
  cases l with
  | nil => by_cases h : irq = uart0Irq <;> simp [puts, serves, h]
  | cons c rest => rfl

theorem Handler.puts_ne (irq : Nat) (l : List Byte) :
    Handler.puts irq l ≠ .read ∧ ∀ j c rest, Handler.puts irq l ≠ .store j c rest := by
  cases l with
  | nil => by_cases h : irq = uart0Irq <;> simp [puts, h]
  | cons c rest => simp [puts]

/-! ## Interrupts -/

structure Served (s : Terminal) : Prop where
  plic : s.plic.Ready
  claimed : ∀ irq, s.plic.claimed irq = true ↔ s.handler.serves = some irq
  claims : s.claims = s.completes ++ s.handler.serves.toList
  alone : s.inTrap = none ∨ s.handler = .idle

namespace Served

theorem goOn (h : Served s) (hbusy : s.handler ≠ .idle)
    (hserves : s'.handler.serves = s.handler.serves) (hplic : s'.plic = s.plic)
    (hclaims : s'.claims = s.claims) (hcompletes : s'.completes = s.completes)
    (htrap : s'.inTrap = s.inTrap) : Served s' := by
  refine ⟨hplic ▸ h.plic, fun irq => ?_, ?_, .inl (htrap.trans (h.alone.resolve_right hbusy))⟩
  · rw [hplic, hserves]
    exact h.claimed irq
  · rw [hclaims, hcompletes, hserves]
    exact h.claims

theorem claim (h : Served s) (hat : s.handler = .claim) (irq : Nat)
    (hserves : s'.handler.serves = some irq) (hplic : s'.plic = s.plic.claim irq)
    (hclaims : s'.claims = s.claims ++ [irq]) (hcompletes : s'.completes = s.completes)
    (htrap : s'.inTrap = s.inTrap) : Served s' := by
  have hnone : s.handler.serves = none := by
    rw [hat]
    rfl
  have halone : s.inTrap = none := h.alone.resolve_right (by simp [hat])
  refine ⟨hplic ▸ h.plic.claim irq, fun j => ?_, ?_, .inl (htrap.trans halone)⟩
  · rw [hserves, hplic, Option.some.injEq]
    by_cases hj : j = irq
    · rw [hj]
      exact iff_of_true (Function.update_self _ _ _) rfl
    · have hother : (s.plic.claim irq).claimed j = s.plic.claimed j :=
        Function.update_of_ne hj _ _
      rw [hother, h.claimed j, hnone]
      exact iff_of_false (by simp) (Ne.symm hj)
  · rw [hserves, hclaims, hcompletes, h.claims, hnone]
    simp

theorem complete (h : Served s) {irq : Nat} (hat : s.handler = .complete irq) :
    Served { s with
      plic := plicComplete s.plic irq
      completes := s.completes ++ [irq]
      handler := .idle } := by
  have hserves : s.handler.serves = some irq := by
    rw [hat]
    rfl
  refine ⟨⟨h.plic.enabled, h.plic.priority, h.plic.mthreshold⟩, fun j => ?_, ?_, .inr rfl⟩
  · refine iff_of_false ?_ (by simp [Handler.serves])
    by_cases hj : j = irq
    · simp [plicComplete, hj]
    · have hfree : s.plic.claimed j ≠ true := fun hclaimed =>
        hj (Option.some.inj (((h.claimed j).mp hclaimed).symm.trans hserves))
      simpa [plicComplete, hj] using hfree
  · rw [h.claims, hserves]
    simp [Handler.serves]

theorem change (h : Served s) (hchange : Change text s e s') : Served s' := by
  cases hchange with
  | arrive c => exact ⟨h.plic, h.claimed, h.claims, h.alone⟩
  | transmit c hfull => exact ⟨h.plic, h.claimed, h.claims, h.alone⟩
  | report irq =>
      exact ⟨h.plic.report irq, fun j => by rw [Plic.report_claimed]; exact h.claimed j,
        h.claims, h.alone⟩
  | interrupt hat hoff =>
      refine ⟨h.plic, fun irq => (h.claimed irq).trans (by rw [hat]; rfl), ?_, .inl hoff⟩
      rw [h.claims, hat]
      rfl
  | trap id hat => exact ⟨h.plic, h.claimed, h.claims, .inr hat⟩
  | mret hin => exact ⟨h.plic, h.claimed, h.claims, .inl rfl⟩
  | nothing hat => exact h.goOn (by simp [hat]) (by rw [hat]; rfl) rfl rfl rfl rfl
  | serve hat hirq => exact h.claim hat uart0Irq rfl rfl rfl rfl rfl
  | unexpected irq hat hirq hne hfirst =>
      exact h.claim hat irq (Handler.serves_puts irq _) rfl rfl rfl rfl
  | ready hat hsome => exact h.goOn (by simp [hat]) (by rw [hat]; rfl) rfl rfl rfl rfl
  | drained hat hnone => exact h.goOn (by simp [hat]) (by rw [hat]; rfl) rfl rfl rfl rfl
  | read c rest hat hrx =>
      exact h.goOn (by simp [hat]) (by rw [hat, Handler.serves_puts]; rfl) rfl rfl rfl rfl
  | misread hat hrx =>
      exact h.goOn (by simp [hat]) (by rw [hat, Handler.serves_puts]; rfl) rfl rfl rfl rfl
  | wait irq c rest hat hfull => exact h
  | free irq c rest hat hfree =>
      exact h.goOn (by simp [hat]) (by rw [hat]; rfl) rfl rfl rfl rfl
  | store irq c rest hat =>
      exact h.goOn (by simp [hat]) (by rw [hat, Handler.serves_puts]; rfl)
        (s.write_plic ..) (s.write_claims ..) (s.write_completes ..) (s.write_inTrap ..)
  | complete irq hat => exact h.complete hat
  | puts id bytes hat hquiet => exact ⟨h.plic, h.claimed, h.claims, h.alone⟩
  | printf id line writes hat hquiet hperm => exact ⟨h.plic, h.claimed, h.claims, h.alone⟩
  | fill id i c rest hat hfill => exact ⟨h.plic, h.claimed, h.claims, h.alone⟩
  | ended id pos hat hload hzero => exact ⟨h.plic, h.claimed, h.claims, h.alone⟩
  | load id pos hat hload hne => exact ⟨h.plic, h.claimed, h.claims, h.alone⟩
  | fetch id pos hat hfetch => exact ⟨h.plic, h.claimed, h.claims, h.alone⟩
  | printerWait id c rest hat hput => exact h
  | printerFree id c rest hat hput hfree => exact ⟨h.plic, h.claimed, h.claims, h.alone⟩
  | printerStore id c rest hat hstore =>
      unfold Terminal.write
      split_ifs <;> exact ⟨h.plic, h.claimed, h.claims, h.alone⟩

end Served

/-! ## Input -/

structure Heard (s : Terminal) : Prop where
  uart : s.uart.Ready
  input : s.arrived = s.taken ++ s.uart.received
  reading : s.handler = .read → s.uart.received ≠ []
  storing : ∀ irq c rest, s.handler = .store irq c rest → s.uart.holding = none
  echoed : bytesOf .echo s.written ++ s.handler.owed = s.taken.flatMap echo
  kept : ∀ w ∈ s.lost, ∃ id, w.1 = .printer id

theorem writer_echo {irq : Nat} : writer irq = .echo ↔ irq = uart0Irq := by
  unfold writer
  split_ifs with h <;> simp [h]

namespace Heard

/-- Nothing is read, written or lost. -/
theorem goOn (h : Heard s) (huart : s'.uart = s.uart) (harrived : s'.arrived = s.arrived)
    (htaken : s'.taken = s.taken) (hwritten : s'.written = s.written)
    (hlost : s'.lost = s.lost) (howed : s'.handler.owed = s.handler.owed)
    (hreading : s'.handler = .read → s.uart.received ≠ [])
    (hstoring : ∀ irq c rest, s'.handler = .store irq c rest → s.uart.holding = none) :
    Heard s' := by
  refine ⟨huart ▸ h.uart, ?_, huart ▸ hreading, huart ▸ hstoring, ?_, hlost ▸ h.kept⟩
  · rw [harrived, htaken, huart]
    exact h.input
  · rw [hwritten, htaken, howed]
    exact h.echoed

theorem change (h : Heard s) (hchange : Change text s e s') : Heard s' := by
  have hlatch := h.uart.latch
  cases hchange with
  | arrive c =>
      exact ⟨⟨hlatch, h.uart.ier⟩, by
        dsimp only
        rw [h.input, List.append_assoc], by simp, h.storing, h.echoed, h.kept⟩
  | transmit c hfull =>
      exact ⟨⟨hlatch, h.uart.ier⟩, h.input, h.reading, fun _ _ _ _ => rfl, h.echoed,
        h.kept⟩
  | report irq => exact ⟨h.uart, h.input, h.reading, h.storing, h.echoed, h.kept⟩
  | trap id hat => exact ⟨h.uart, h.input, h.reading, h.storing, h.echoed, h.kept⟩
  | mret hin => exact ⟨h.uart, h.input, h.reading, h.storing, h.echoed, h.kept⟩
  | interrupt hat hoff =>
      exact h.goOn rfl rfl rfl rfl rfl (by rw [hat]; rfl) (by simp) (by simp)
  | nothing hat => exact h.goOn rfl rfl rfl rfl rfl (by rw [hat]; rfl) (by simp) (by simp)
  | serve hat hirq =>
      exact h.goOn rfl rfl rfl rfl rfl (by rw [hat]; rfl) (by simp) (by simp)
  | unexpected irq hat hirq hne hfirst =>
      obtain ⟨hread, hstore⟩ := Handler.puts_ne irq (text irq).bytes
      refine h.goOn rfl rfl rfl rfl rfl ?_ (fun hat' => absurd hat' hread)
        fun j c rest hat' => absurd hat' (hstore j c rest)
      rw [Handler.owed_puts, if_neg hne, hat]
      rfl
  | ready hat hsome =>
      exact h.goOn rfl rfl rfl rfl rfl (by rw [hat]; rfl) (fun _ => hsome) (by simp)
  | drained hat hnone =>
      exact h.goOn rfl rfl rfl rfl rfl (by rw [hat]; rfl) (by simp) (by simp)
  | read c rest hat hrx =>
      have howed := h.echoed
      rw [hat] at howed
      obtain ⟨hread, hstore⟩ := Handler.puts_ne uart0Irq (echo c)
      refine ⟨⟨hlatch, h.uart.ier⟩, ?_, fun hat' => absurd hat' hread,
        fun j d rest hat' => absurd hat' (hstore j d rest), ?_, h.kept⟩
      · rw [h.input, hrx]
        simp
      · have hdone : bytesOf .echo s.written = s.taken.flatMap echo := by
          simpa [Handler.owed] using howed
        rw [Handler.owed_puts, if_pos rfl, List.flatMap_append, ← hdone]
        simp
  | misread hat hrx => exact absurd hrx (h.reading hat)
  | wait irq c rest hat hfull => exact h
  | free irq c rest hat hfree =>
      exact h.goOn rfl rfl rfl rfl rfl (by rw [hat]; rfl) (by simp) fun _ _ _ _ => hfree
  | store irq c rest hat =>
      have howed := h.echoed
      rw [hat] at howed
      obtain ⟨hread, hstore⟩ := Handler.puts_ne irq rest
      rw [Terminal.write_accepted hlatch (h.storing irq c rest hat)]
      refine ⟨⟨hlatch, h.uart.ier⟩, h.input, fun hat' => absurd hat' hread,
        fun j d rest' hat' => absurd hat' (hstore j d rest'), ?_, h.kept⟩
      dsimp only
      rw [← howed, bytesOf_append, Handler.owed_puts, List.append_assoc, Handler.owed]
      congr 1
      split_ifs with hirq
      · rw [writer_echo.mpr hirq, bytesOf_self]
        rfl
      · rw [bytesOf_other (writer_echo.not.mpr hirq)]
        rfl
  | complete irq hat =>
      exact h.goOn rfl rfl rfl rfl rfl (by rw [hat]; rfl) (by simp) (by simp)
  | puts id bytes hat hquiet =>
      exact ⟨h.uart, h.input, h.reading, h.storing, h.echoed, h.kept⟩
  | printf id line writes hat hquiet hperm =>
      exact ⟨h.uart, h.input, h.reading, h.storing, h.echoed, h.kept⟩
  | fill id i c rest hat hfill =>
      exact ⟨h.uart, h.input, h.reading, h.storing, h.echoed, h.kept⟩
  | ended id pos hat hload hzero =>
      exact ⟨h.uart, h.input, h.reading, h.storing, h.echoed, h.kept⟩
  | load id pos hat hload hne =>
      exact ⟨h.uart, h.input, h.reading, h.storing, h.echoed, h.kept⟩
  | fetch id pos hat hfetch =>
      exact ⟨h.uart, h.input, h.reading, h.storing, h.echoed, h.kept⟩
  | printerWait id c rest hat hput => exact h
  | printerFree id c rest hat hput hfree =>
      exact ⟨h.uart, h.input, h.reading, h.storing, h.echoed, h.kept⟩
  | printerStore id c rest hat hstore =>
      have hother : bytesOf .echo [(Writer.printer id, c)] = [] :=
        bytesOf_other (by simp) c
      rcases Terminal.write_cases hlatch (.printer id) c with ⟨-, hwrite⟩ | ⟨-, hwrite⟩ <;>
        rw [hwrite]
      · refine ⟨⟨hlatch, h.uart.ier⟩, h.input, h.reading, by simp [hat], ?_, h.kept⟩
        dsimp only
        rw [bytesOf_append, hother, List.append_nil]
        exact h.echoed
      · refine ⟨h.uart, h.input, h.reading, h.storing, ?_, ?_⟩
        · dsimp only
          rw [bytesOf_append, hother, List.append_nil]
          exact h.echoed
        · intro w hw
          rcases List.mem_append.mp hw with hw | hw
          · exact h.kept w hw
          · exact ⟨id, congrArg Prod.fst (List.mem_singleton.mp hw)⟩

end Heard

/-! ## Output -/

/-- What is accepted goes out in order; only a loss comes between what someone writes and
what is accepted. -/
structure Sent (s : Terminal) : Prop where
  sent : s.accepted.map Prod.snd = s.sent ++ s.uart.holding.toList
  kept : ∀ who, bytesOf who s.lost = [] → bytesOf who s.accepted = bytesOf who s.written

theorem Sent.write (h : Sent s) (hlatch : s.uart.latch = false) (who : Writer)
    (c : Byte) : Sent (s.write who c) := by
  rcases Terminal.write_cases hlatch who c with ⟨hfree, hwrite⟩ | ⟨-, hwrite⟩ <;>
    rw [hwrite]
  · refine ⟨?_, fun who' hnone => ?_⟩
    · have hsent := h.sent
      rw [hfree] at hsent
      simp [hsent]
    · dsimp only
      rw [bytesOf_append, bytesOf_append, h.kept who' hnone]
  · refine ⟨h.sent, fun who' hnone => ?_⟩
    dsimp only at hnone ⊢
    rw [bytesOf_append] at hnone
    obtain ⟨hold, hnew⟩ := List.append_eq_nil_iff.mp hnone
    rw [bytesOf_append, hnew, List.append_nil, h.kept who' hold]

theorem Sent.change (h : Sent s) (hlatch : s.uart.latch = false)
    (hchange : Change text s e s') : Sent s' := by
  cases hchange with
  | transmit c hfull =>
      refine ⟨?_, h.kept⟩
      rw [h.sent, hfull]
      simp
  | store irq c rest hat =>
      have hsent := h.write hlatch (writer irq) c
      exact ⟨hsent.sent, hsent.kept⟩
  | printerStore id c rest hat hstore =>
      have hsent := h.write hlatch (.printer id) c
      exact ⟨hsent.sent, hsent.kept⟩
  | arrive c => exact ⟨h.sent, h.kept⟩
  | report irq => exact ⟨h.sent, h.kept⟩
  | interrupt hat hoff => exact ⟨h.sent, h.kept⟩
  | trap id hat => exact ⟨h.sent, h.kept⟩
  | mret hin => exact ⟨h.sent, h.kept⟩
  | nothing hat => exact ⟨h.sent, h.kept⟩
  | serve hat hirq => exact ⟨h.sent, h.kept⟩
  | unexpected irq hat hirq hne hfirst => exact ⟨h.sent, h.kept⟩
  | ready hat hsome => exact ⟨h.sent, h.kept⟩
  | drained hat hnone => exact ⟨h.sent, h.kept⟩
  | read c rest hat hrx => exact ⟨h.sent, h.kept⟩
  | misread hat hrx => exact ⟨h.sent, h.kept⟩
  | wait irq c rest hat hfull => exact h
  | free irq c rest hat hfree => exact ⟨h.sent, h.kept⟩
  | complete irq hat => exact ⟨h.sent, h.kept⟩
  | puts id bytes hat hquiet => exact ⟨h.sent, h.kept⟩
  | printf id line writes hat hquiet hperm => exact ⟨h.sent, h.kept⟩
  | fill id i c rest hat hfill => exact ⟨h.sent, h.kept⟩
  | ended id pos hat hload hzero => exact ⟨h.sent, h.kept⟩
  | load id pos hat hload hne => exact ⟨h.sent, h.kept⟩
  | fetch id pos hat hfetch => exact ⟨h.sent, h.kept⟩
  | printerWait id c rest hat hput => exact h
  | printerFree id c rest hat hput hfree => exact ⟨h.sent, h.kept⟩

/-! ## Runs -/

section Boot

variable {u : Uart} {p : Plic} {m : Memory} {ok : Terminal → Event → Prop}

structure Sound (s : Terminal) : Prop where
  served : Served s
  heard : Heard s
  sent : Sent s

theorem Sound.step (h : Sound s) (hstep : s.step text e = some s') : Sound s' := by
  have hlatch := h.heard.uart.latch
  have hchange := Terminal.step_change hlatch hstep
  exact ⟨h.served.change hchange, h.heard.change hchange, h.sent.change hlatch hchange⟩

theorem sound_boot (hu : u.PoweredUp) (hp : ∀ irq, p.claimed irq = false) :
    Sound (Terminal.boot u p m) := by
  have hinit := uartInit_eq u
  have hlatch : u.latch = false := by
    rw [Uart.latch, hu.lcr]
    decide
  have hready : (uartInit u).Ready := (uartInit_ready_iff u).mpr (.inl hlatch)
  have hrx : (uartInit u).received = [] := by rw [hinit]; exact hu.received
  have hthr : (uartInit u).holding = none := by rw [hinit]; exact hu.holding
  refine ⟨⟨Plic.plicInit_ready p, fun irq => ?_, rfl, .inl rfl⟩,
    ⟨hready, ?_, ?_, ?_, rfl, ?_⟩, ⟨?_, fun _ _ => rfl⟩⟩
  · exact iff_of_false (by simp [Terminal.boot, plicInit, hp])
      (by simp [Terminal.boot, Handler.serves])
  · simp [Terminal.boot, hrx]
  · simp [Terminal.boot]
  · simp [Terminal.boot]
  · simp [Terminal.boot]
  · simp [Terminal.boot, hthr]

theorem Sound.of_reaches (hs : Sound s)
    (hrun : Reaches (stepRel (Terminal.step text)) ok s s') : Sound s' :=
  hrun.invariant hs fun _ _ _ h _ hstep => h.step hstep

theorem Sound.echo_accepted (h : Sound s) :
    bytesOf .echo s.accepted ++ s.handler.owed = s.taken.flatMap echo := by
  have hnone : bytesOf .echo s.lost = [] := by
    refine List.map_eq_nil_iff.mpr (List.filter_eq_nil_iff.mpr fun w hw => ?_)
    obtain ⟨id, hid⟩ := h.heard.kept w hw
    simp [hid]
  rw [h.sent.kept _ hnone]
  exact h.heard.echoed

def coldUart : Uart where
  ier := 0
  lcr := 0
  dll := 0
  dlm := 0
  received := []
  last := 0
  holding := none
  status := 0

def coldPlic : Plic where
  priority := fun _ => 0
  menable := fun _ => 0
  mthreshold := 0
  pending := fun _ => false
  claimed := fun _ => false

theorem coldUart_poweredUp : coldUart.PoweredUp := ⟨rfl, rfl, rfl, rfl⟩

def unexpectedLine (irq : Nat) : Line := unexpectedText .rv64 (BitVec.ofNat 32 irq)

theorem keys_hit : ∃ s : Terminal,
    exec (Terminal.step unexpectedLine) (Terminal.boot coldUart coldPlic fun _ => 0)
      [.arrive (char '\r'), .report uart0Irq, .interrupt, .handler, .handler,
        .arrive (char 'x'), .handler, .handler, .handler] = some s ∧
      s.handler = .put uart0Irq (char '\n') [] ∧ s.taken = [char '\r'] ∧
      s.arrived = [char '\r', char 'x'] ∧ s.uart.holding = some (char '\r') := by
  have hrun : (exec (Terminal.step unexpectedLine)
      (Terminal.boot coldUart coldPlic fun _ => 0)
      [.arrive (char '\r'), .report uart0Irq, .interrupt, .handler, .handler,
        .arrive (char 'x'), .handler, .handler, .handler]).any (fun s =>
      decide (s.handler = .put uart0Irq (char '\n') [] ∧ s.taken = [char '\r'] ∧
        s.arrived = [char '\r', char 'x'] ∧ s.uart.holding = some (char '\r'))) := by
    decide +kernel
  obtain ⟨s, hexec, hs⟩ := (Option.any_eq_true _ _).mp hrun
  exact ⟨s, hexec, of_decide_eq_true hs⟩

/-- Whatever happens, `uart_ier` has read every character that came in once and in order,
but for those that still wait, and has put out their echoes in full, but for the rest of
the one that it is putting out; the bytes that were accepted are sent in order; nothing of
the handler is lost, and of other code only what it writes when it has been interrupted
between its look at `LSR` and the write. -/
theorem console_echoes (text : Nat → Line) (hu : u.PoweredUp)
    (hp : ∀ irq, p.claimed irq = false) {events : List Event}
    (hrun : exec (Terminal.step text) (Terminal.boot u p m) events = some s) :
    s.arrived = s.taken ++ s.uart.received ∧
      bytesOf .echo s.accepted ++ s.handler.owed = s.taken.flatMap echo ∧
      s.accepted.map Prod.snd = s.sent ++ s.uart.holding.toList ∧
      (∀ w ∈ s.lost, ∃ id, w.1 = .printer id) ∧
      ∀ e s', s.step text e = some s' → s'.lost = s.lost ∨
        ∃ id c, e = .printer id ∧ s'.lost = s.lost ++ [(.printer id, c)] ∧
          Overtaken text (Terminal.boot u p m) events s id := by
  obtain ⟨hs, hpoised⟩ := exec_invariant
    (P := fun taken t => Sound t ∧ Poised text (Terminal.boot u p m) taken t)
    ⟨sound_boot hu hp, by simp [Poised, Terminal.boot]⟩
    (fun taken t e v htaken h hstep =>
      ⟨h.1.step hstep, h.2.step h.1.heard.uart.latch htaken hstep⟩) hrun
  exact ⟨hs.heard.input, hs.echo_accepted, hs.sent.sent, hs.heard.kept,
    fun _ _ hstep => hpoised.lost hs.heard.uart.latch hs.heard.storing hstep⟩

theorem console_echoes_of_keys : ∃ s : Terminal,
    s.arrived = [char '\r', char 'x'] ∧ s.taken = [char '\r'] ∧
      s.uart.received = [char 'x'] ∧
      bytesOf .echo s.accepted ++ [char '\n'] = [char '\r'].flatMap echo := by
  obtain ⟨s, hexec, hat, htaken, harrived, -⟩ := keys_hit
  obtain ⟨hinput, hecho, -⟩ := console_echoes unexpectedLine coldUart_poweredUp
    (fun _ => rfl) hexec
  rw [harrived, htaken] at hinput
  rw [hat, htaken] at hecho
  exact ⟨s, harrived, htaken, (List.cons.inj hinput).2.symm, hecho⟩

/-- A key is hit while a task is about to write: its byte is lost. -/
example : (exec (Terminal.step unexpectedLine)
    (Terminal.boot coldUart coldPlic fun _ => 0)
    ([.puts 0 [char 'a'], .printer 0, .arrive (char 'k'), .report uart0Irq, .interrupt] ++
      List.replicate 7 .handler ++ [.printer 0])).map Terminal.lost =
    some [(.printer 0, char 'a')] := by
  decide +kernel

/-- Whatever happens, every source that `plic_claim` returned is completed once, in
order, before the next one is claimed, and none stays claimed when the handler is
done. -/
theorem claims_completed (text : Nat → Line) (hu : u.PoweredUp)
    (hp : ∀ irq, p.claimed irq = false)
    (hrun : Reaches (stepRel (Terminal.step text)) anyLabel (Terminal.boot u p m) s) :
    s.claims = s.completes ++ s.handler.serves.toList ∧
      (∀ irq, s.plic.claimed irq = true ↔ s.handler.serves = some irq) ∧
      (s.handler = .read → s.uart.received ≠ []) := by
  obtain ⟨hserved, hheard, -⟩ := (sound_boot hu hp).of_reaches hrun
  exact ⟨hserved.claims, hserved.claimed, hheard.reading⟩

theorem claims_completed_of_keys : ∃ s : Terminal,
    s.handler = .put uart0Irq (char '\n') [] ∧ s.claims = s.completes ++ [uart0Irq] ∧
      s.plic.claimed uart0Irq = true := by
  obtain ⟨s, hexec, hat, -⟩ := keys_hit
  obtain ⟨hclaims, hclaimed, -⟩ := claims_completed unexpectedLine coldUart_poweredUp
    (fun _ => rfl) (Reaches.exec .refl (fun _ _ _ => trivial) hexec)
  have hserves : s.handler.serves = some uart0Irq := by
    rw [hat]
    rfl
  rw [hserves] at hclaims
  exact ⟨s, hat, hclaims, (hclaimed uart0Irq).mpr hserves⟩

end Boot

end XinOS.Console
