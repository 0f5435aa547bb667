import XinOS.Console.Echo

/-!
# Printing: printf.c and uart.c

Any code can be interrupted while it prints, between looking at `LSR` and writing to
`THR` as well as while its text stands in `out_buf`.  No access leaves the buffer even so.
Where neither is disturbed, every text is put out as it was asked for.
-/

namespace XinOS.Console

open XinOS.Foundation
open XinOS.Printf (char outBufSize)

variable {text : Nat → Line} {s s' : Terminal} {e : Event}

/-! ## The bounds of the buffer -/

def Rest.Within : Rest → Prop
  | .text _ => True
  | .outBuf pos => pos < outBufSize

/-- The accesses to `out_buf` that are left stay inside; the last byte is only read. -/
def Printer.Within : Printer → Prop
  | .quiet => True
  | .fill i c rest => ∀ w ∈ (i, c) :: rest, w.1 < outBufSize - 1
  | .load pos => pos < outBufSize
  | .fetch pos => pos < outBufSize - 1
  | .put _ rest => rest.Within
  | .store _ rest => rest.Within

@[simp] theorem Printer.within_puts {rest : Rest} :
    (Printer.puts rest).Within ↔ rest.Within := by
  rcases rest with (- | ⟨c, l⟩) | pos <;> rfl

theorem Printer.within_fills {writes : List (Nat × Byte)}
    (hwrites : ∀ w ∈ writes, w.1 < outBufSize - 1) : (Printer.fills writes).Within := by
  cases writes with
  | nil => exact (by decide : 0 < outBufSize)
  | cons w rest => exact hwrites

theorem perform_last {m : Memory} {writes : List (Nat × Byte)}
    (hwrites : ∀ w ∈ writes, w.1 < outBufSize - 1) :
    perform m writes (outBufSize - 1) = m (outBufSize - 1) :=
  perform_of_notMem fun w hw => (hwrites w hw).ne

/-- The last byte ends every text that has lost its own end to another call. -/
structure Bounded (s : Terminal) : Prop where
  last : s.outBuf (outBufSize - 1) = 0
  within : ∀ id, (s.printers id).Within

theorem Bounded.update (h : Bounded s) {id : Nat} {p : Printer} (hp : p.Within) (j : Nat) :
    (Function.update s.printers id p j).Within := by
  by_cases hj : j = id
  · subst hj
    rw [Function.update_self]
    exact hp
  · rw [Function.update_of_ne hj]
    exact h.within j

theorem Bounded.change (h : Bounded s) (hchange : Change text s e s') : Bounded s' := by
  cases hchange with
  | arrive c => exact ⟨h.last, h.within⟩
  | transmit c hfull => exact ⟨h.last, h.within⟩
  | report irq => exact ⟨h.last, h.within⟩
  | interrupt hat hoff => exact ⟨h.last, h.within⟩
  | trap id hat => exact ⟨h.last, h.within⟩
  | mret hin => exact ⟨h.last, h.within⟩
  | nothing hat => exact ⟨h.last, h.within⟩
  | serve hat hirq => exact ⟨h.last, h.within⟩
  | unexpected irq hat hirq hne hfirst =>
      exact ⟨(perform_last fun _ hw => (text irq).writes_lt hw).trans h.last, h.within⟩
  | ready hat hsome => exact ⟨h.last, h.within⟩
  | drained hat hnone => exact ⟨h.last, h.within⟩
  | read c rest hat hrx => exact ⟨h.last, h.within⟩
  | misread hat hrx => exact ⟨h.last, h.within⟩
  | wait irq c rest hat hfull => exact h
  | free irq c rest hat hfree => exact ⟨h.last, h.within⟩
  | store irq c rest hat => exact ⟨by simpa using h.last, by simpa using h.within⟩
  | complete irq hat => exact ⟨h.last, h.within⟩
  | puts id bytes hat hquiet =>
      exact ⟨h.last, h.update (Printer.within_puts.mpr trivial)⟩
  | printf id line writes hat hquiet hperm =>
      have hwrites : ∀ w ∈ writes, w.1 < outBufSize - 1 := fun w hw =>
        line.writes_lt (hperm.subset hw)
      exact ⟨h.last, h.update (Printer.within_fills hwrites)⟩
  | fill id i c rest hat hfill =>
      have hid := h.within id
      rw [hfill] at hid
      refine ⟨?_, h.update (Printer.within_fills fun w hw => hid w (by simp [hw]))⟩
      exact (Function.update_of_ne (hid (i, c) (by simp)).ne' _ _).trans h.last
  | ended id pos hat hload hzero => exact ⟨h.last, h.update trivial⟩
  | load id pos hat hload hne =>
      -- the byte that was read is not the last one, which is 0
      have hid : pos < outBufSize := by simpa [hload, Printer.Within] using h.within id
      have hlast : pos ≠ outBufSize - 1 := fun hpos => hne (hpos ▸ h.last)
      exact ⟨h.last, h.update (show pos < outBufSize - 1 by omega)⟩
  | fetch id pos hat hfetch =>
      have hid : pos < outBufSize - 1 := by
        simpa [hfetch, Printer.Within] using h.within id
      exact ⟨h.last, h.update (show pos + 1 < outBufSize by omega)⟩
  | printerWait id c rest hat hput => exact h
  | printerFree id c rest hat hput hfree =>
      have hid := h.within id
      rw [hput] at hid
      exact ⟨h.last, h.update hid⟩
  | printerStore id c rest hat hstore =>
      have hid := h.within id
      rw [hstore] at hid
      exact ⟨by simpa using h.last, h.update (Printer.within_puts.mpr hid)⟩

/-! ## Undisturbed printing -/

def Rest.InBuffer : Rest → Prop
  | .text _ => False
  | .outBuf _ => True

def Printer.UsesBuffer : Printer → Prop
  | .quiet => False
  | .fill _ _ _ => True
  | .load _ => True
  | .fetch _ => True
  | .put _ rest => rest.InBuffer
  | .store _ rest => rest.InBuffer

/-- Between looking at `LSR` and writing to `THR` no interrupt comes, and no other printer
gets its turn; during a call of `printf` no other one begins. -/
structure Undisturbed (s : Terminal) (e : Event) : Prop where
  port : ∀ id c rest, s.printers id = .store c rest →
    e ≠ .interrupt ∧ ∀ j, e = .printer j → j = id
  buffer : ∀ id, (s.printers id).UsesBuffer →
    (∀ j line writes, e ≠ .printf j line writes) ∧
      (e = .handler → s.handler = .claim →
        (plicClaim s.plic).1 = 0 ∨ (plicClaim s.plic).1 = uart0Irq)

structure Unhurt (s : Terminal) : Prop where
  storing : ∀ id c rest, s.printers id = .store c rest →
    s.handler = .idle ∧ s.uart.holding = none
  lost : s.lost = []

theorem Unhurt.printer (h : Unhurt s) {id : Nat} {p : Printer} {asked : Nat → List Byte}
    {m : Memory} (hp : ∀ c rest, p ≠ .store c rest) :
    Unhurt { s with
      outBuf := m
      printers := Function.update s.printers id p
      asked := asked } := by
  refine ⟨fun j c rest hstore => ?_, h.lost⟩
  by_cases hj : j = id
  · subst hj
    dsimp only at hstore
    rw [Function.update_self] at hstore
    exact absurd hstore (hp c rest)
  · dsimp only at hstore
    rw [Function.update_of_ne hj] at hstore
    exact h.storing j c rest hstore

theorem Unhurt.change (h : Unhurt s) (hheard : Heard s) (hok : Undisturbed s e)
    (hchange : Change text s e s') : Unhurt s' := by
  have hlatch := hheard.uart.latch
  -- while the handler is at work no printer is about to write
  have hbusy : s.handler ≠ .idle → ∀ id c rest, s.printers id ≠ .store c rest :=
    fun hne id c rest hstore => hne (h.storing id c rest hstore).1
  have hserve : ∀ {s'' : Terminal}, s.handler ≠ .idle → s''.printers = s.printers →
      s''.lost = s.lost → Unhurt s'' := fun hne hp hl =>
    ⟨fun id c rest hstore => absurd (hp ▸ hstore) (hbusy hne id c rest), hl ▸ h.lost⟩
  cases hchange with
  | arrive c => exact ⟨h.storing, h.lost⟩
  | transmit c hfull =>
      exact ⟨fun id c rest hstore => ⟨(h.storing id c rest hstore).1, rfl⟩, h.lost⟩
  | report irq => exact ⟨h.storing, h.lost⟩
  | trap id hat => exact ⟨h.storing, h.lost⟩
  | mret hin => exact ⟨h.storing, h.lost⟩
  | interrupt hat hoff =>
      exact ⟨fun id c rest hstore => absurd rfl (hok.port id c rest hstore).1, h.lost⟩
  | nothing hat => exact hserve (by simp [hat]) rfl rfl
  | serve hat hirq => exact hserve (by simp [hat]) rfl rfl
  | unexpected irq hat hirq hne hfirst => exact hserve (by simp [hat]) rfl rfl
  | ready hat hsome => exact hserve (by simp [hat]) rfl rfl
  | drained hat hnone => exact hserve (by simp [hat]) rfl rfl
  | read c rest hat hrx => exact hserve (by simp [hat]) rfl rfl
  | misread hat hrx => exact hserve (by simp [hat]) rfl rfl
  | wait irq c rest hat hfull => exact h
  | free irq c rest hat hfree => exact hserve (by simp [hat]) rfl rfl
  | store irq c rest hat =>
      rw [Terminal.write_accepted hlatch (hheard.storing irq c rest hat)]
      exact hserve (by simp [hat]) rfl rfl
  | complete irq hat => exact hserve (by simp [hat]) rfl rfl
  | puts id bytes hat hquiet => exact h.printer (Printer.puts_ne _)
  | printf id line writes hat hquiet hperm => exact h.printer (Printer.fills_ne _)
  | fill id i c rest hat hfill => exact h.printer (Printer.fills_ne _)
  | ended id pos hat hload hzero => exact h.printer (by simp)
  | load id pos hat hload hne => exact h.printer (by simp)
  | fetch id pos hat hfetch => exact h.printer (by simp)
  | printerWait id c rest hat hput => exact h
  | printerFree id c rest hat hput hfree =>
      exact ⟨fun _ _ _ _ => ⟨hat, hfree⟩, h.lost⟩
  | printerStore id c rest hat hstore =>
      rw [Terminal.write_accepted hlatch (h.storing id c rest hstore).2]
      refine ⟨fun j d rest' hstore' => ?_, h.lost⟩
      by_cases hj : j = id
      · subst hj
        dsimp only at hstore'
        rw [Function.update_self] at hstore'
        exact absurd hstore' (Printer.puts_ne _ _ _)
      · dsimp only at hstore'
        rw [Function.update_of_ne hj] at hstore'
        exact absurd ((hok.port j d rest' hstore').2 id rfl).symm hj

/-! ### What stands in the buffer -/

def Rest.Owes (m : Memory) : Rest → List Byte → Prop
  | .text l, l' => l' = l
  | .outBuf pos, l' => Spelt m pos l'

/-- What a printer will still put out if no one else changes the buffer. -/
def Printer.Owes (m : Memory) : Printer → List Byte → Prop
  | .quiet, l => l = []
  | .fill i c rest, l => Spelt (perform m ((i, c) :: rest)) 0 l
  | .load pos, l => Spelt m pos l
  | .fetch pos, l => ∃ l', l = m pos :: l' ∧ Spelt m (pos + 1) l'
  | .put c rest, l => ∃ l', l = c :: l' ∧ rest.Owes m l'
  | .store c rest, l => ∃ l', l = c :: l' ∧ rest.Owes m l'

namespace Printer

variable {m m' : Memory} {l : List Byte}

theorem owes_puts {rest : Rest} : (Printer.puts rest).Owes m l ↔ rest.Owes m l := by
  rcases rest with (- | ⟨c, l'⟩) | pos
  · rfl
  · constructor
    · rintro ⟨l'', rfl, rfl⟩
      rfl
    · rintro rfl
      exact ⟨l', rfl, rfl⟩
  · rfl

theorem owes_fills {writes : List (Nat × Byte)} :
    (Printer.fills writes).Owes m l ↔ Spelt (perform m writes) 0 l := by
  cases writes <;> rfl

theorem usesBuffer_puts {rest : Rest} :
    (Printer.puts rest).UsesBuffer ↔ rest.InBuffer := by
  rcases rest with (- | ⟨c, l⟩) | pos <;> rfl

theorem Owes.elsewhere {p : Printer} (h : p.Owes m l) (hp : ¬p.UsesBuffer) :
    p.Owes m' l := by
  cases p with
  | quiet => exact h
  | fill i c rest => exact absurd trivial hp
  | load pos => exact absurd trivial hp
  | fetch pos => exact absurd trivial hp
  | put c rest =>
      cases rest with
      | text l' => exact h
      | outBuf pos => exact absurd trivial hp
  | store c rest =>
      cases rest with
      | text l' => exact h
      | outBuf pos => exact absurd trivial hp

end Printer

/-- At most one call of `printf` is under way, and what each printer has written and what
it will still put out is what was asked of it. -/
structure Whole (s : Terminal) : Prop where
  single : ∀ i j, (s.printers i).UsesBuffer → (s.printers j).UsesBuffer → i = j
  owes : ∀ id, ∃ l, (s.printers id).Owes s.outBuf l ∧
    bytesOf (.printer id) s.written ++ l = s.asked id

theorem Whole.printer (h : Whole s) {id : Nat} {p : Printer}
    (hprinters : s'.printers = Function.update s.printers id p)
    (hbuffer : s'.outBuf = s.outBuf ∨ (s.printers id).UsesBuffer)
    (huses : p.UsesBuffer → ∀ j, (s.printers j).UsesBuffer → j = id)
    (howes : ∃ l, p.Owes s'.outBuf l ∧
      bytesOf (.printer id) s'.written ++ l = s'.asked id)
    (hothers : ∀ j, j ≠ id → bytesOf (.printer j) s'.written =
      bytesOf (.printer j) s.written ∧ s'.asked j = s.asked j) : Whole s' := by
  have hself : s'.printers id = p := by rw [hprinters, Function.update_self]
  have hother : ∀ j, j ≠ id → s'.printers j = s.printers j := fun j hj => by
    rw [hprinters, Function.update_of_ne hj]
  constructor
  · intro i j hi hj
    by_cases hii : i = id <;> by_cases hjj : j = id
    · rw [hii, hjj]
    · rw [hother j hjj] at hj
      rw [hii, hself] at hi
      exact absurd (huses hi j hj) hjj
    · rw [hother i hii] at hi
      rw [hjj, hself] at hj
      exact absurd (huses hj i hi) hii
    · rw [hother i hii] at hi
      rw [hother j hjj] at hj
      exact h.single i j hi hj
  · intro j
    by_cases hj : j = id
    · rw [hj, hself]
      exact howes
    · obtain ⟨l, hl, hasked⟩ := h.owes j
      obtain ⟨hwritten, hsame⟩ := hothers j hj
      refine ⟨l, ?_, by rw [hwritten, hsame]; exact hasked⟩
      rw [hother j hj]
      rcases hbuffer with hbuffer | hbuffer
      · exact hbuffer ▸ hl
      · exact hl.elsewhere fun hj' => hj (h.single j id hj' hbuffer)

theorem Whole.change (h : Whole s) (hok : Undisturbed s e)
    (hchange : Change text s e s') : Whole s' := by
  have hstay : ∀ {s'' : Terminal}, s''.printers = s.printers → s''.outBuf = s.outBuf →
      s''.asked = s.asked →
      (∀ id, bytesOf (.printer id) s''.written = bytesOf (.printer id) s.written) →
      Whole s'' := by
    intro s'' hp hb ha hw
    exact ⟨hp ▸ h.single, fun id => by rw [hp, hb, ha, hw]; exact h.owes id⟩
  cases hchange with
  | arrive c => exact hstay rfl rfl rfl fun _ => rfl
  | transmit c hfull => exact hstay rfl rfl rfl fun _ => rfl
  | report irq => exact hstay rfl rfl rfl fun _ => rfl
  | interrupt hat hoff => exact hstay rfl rfl rfl fun _ => rfl
  | trap id hat => exact hstay rfl rfl rfl fun _ => rfl
  | mret hin => exact hstay rfl rfl rfl fun _ => rfl
  | nothing hat => exact hstay rfl rfl rfl fun _ => rfl
  | serve hat hirq => exact hstay rfl rfl rfl fun _ => rfl
  | unexpected irq hat hirq hne hfirst =>
      -- no call of `printf` is under way then
      have hnone : ∀ id, ¬(s.printers id).UsesBuffer := by
        intro id hid
        have hpos : irq ≠ 0 := Nat.pos_iff_ne_zero.mp (Plic.mem_candidates.mp hirq).1.1
        rcases (hok.buffer id hid).2 rfl hat with hzero | huart
        · exact hpos (hfirst.symm.trans hzero)
        · exact hne (hfirst.symm.trans huart)
      refine ⟨h.single, fun id => ?_⟩
      obtain ⟨l, hl, hasked⟩ := h.owes id
      exact ⟨l, hl.elsewhere (hnone id), hasked⟩
  | ready hat hsome => exact hstay rfl rfl rfl fun _ => rfl
  | drained hat hnone => exact hstay rfl rfl rfl fun _ => rfl
  | read c rest hat hrx => exact hstay rfl rfl rfl fun _ => rfl
  | misread hat hrx => exact hstay rfl rfl rfl fun _ => rfl
  | wait irq c rest hat hfull => exact h
  | free irq c rest hat hfree => exact hstay rfl rfl rfl fun _ => rfl
  | store irq c rest hat =>
      refine hstay (s.write_printers ..) (s.write_outBuf ..) (s.write_asked ..) fun id => ?_
      have hne : writer irq ≠ .printer id := by
        unfold writer
        split_ifs <;> simp
      dsimp only
      rw [Terminal.write_written, bytesOf_append, bytesOf_other hne, List.append_nil]
  | complete irq hat => exact hstay rfl rfl rfl fun _ => rfl
  | puts id bytes hat hquiet =>
      obtain ⟨l, hl, hasked⟩ := h.owes id
      rw [hquiet] at hl
      obtain rfl : l = [] := hl
      refine h.printer rfl (.inl rfl) (fun huses => (Printer.usesBuffer_puts.mp huses).elim)
        ⟨bytes, Printer.owes_puts.mpr rfl, ?_⟩
        fun j hj => ⟨rfl, Function.update_of_ne hj _ _⟩
      dsimp only
      rw [Function.update_self, ← hasked, List.append_nil]
  | printf id line writes hat hquiet hperm =>
      obtain ⟨l, hl, hasked⟩ := h.owes id
      rw [hquiet] at hl
      obtain rfl : l = [] := hl
      refine h.printer rfl (.inl rfl)
        (fun _ j hj => absurd rfl ((hok.buffer j hj).1 id line writes))
        ⟨line.bytes, Printer.owes_fills.mpr (line.spelt _ hperm), ?_⟩
        fun j hj => ⟨rfl, Function.update_of_ne hj _ _⟩
      dsimp only
      rw [Function.update_self, ← hasked, List.append_nil]
  | fill id i c rest hat hfill =>
      have huses : (s.printers id).UsesBuffer := by
        rw [hfill]
        trivial
      obtain ⟨l, hl, hasked⟩ := h.owes id
      rw [hfill] at hl
      exact h.printer rfl (.inr huses) (fun _ j hj => h.single j id hj huses)
        ⟨l, Printer.owes_fills.mpr hl, hasked⟩ fun _ _ => ⟨rfl, rfl⟩
  | ended id pos hat hload hzero =>
      obtain ⟨l, hl, hasked⟩ := h.owes id
      rw [hload] at hl
      have hnil : l = [] := by
        cases l with
        | nil => rfl
        | cons c l => exact absurd (hl.2.1.symm.trans hzero) hl.1
      exact h.printer rfl (.inl rfl) False.elim ⟨l, hnil, hasked⟩ fun _ _ => ⟨rfl, rfl⟩
  | load id pos hat hload hne =>
      have huses : (s.printers id).UsesBuffer := by
        rw [hload]
        trivial
      obtain ⟨l, hl, hasked⟩ := h.owes id
      rw [hload] at hl
      refine h.printer rfl (.inl rfl) (fun _ j hj => h.single j id hj huses)
        ⟨l, ?_, hasked⟩ fun _ _ => ⟨rfl, rfl⟩
      cases l with
      | nil => exact absurd hl hne
      | cons c l => exact ⟨l, by rw [hl.2.1], hl.2.2⟩
  | fetch id pos hat hfetch =>
      have huses : (s.printers id).UsesBuffer := by
        rw [hfetch]
        trivial
      obtain ⟨l, hl, hasked⟩ := h.owes id
      rw [hfetch] at hl
      exact h.printer rfl (.inl rfl) (fun _ j hj => h.single j id hj huses)
        ⟨l, hl, hasked⟩ fun _ _ => ⟨rfl, rfl⟩
  | printerWait id c rest hat hput => exact h
  | printerFree id c rest hat hput hfree =>
      obtain ⟨l, hl, hasked⟩ := h.owes id
      have hsame := fun j => h.single j id
      rw [hput] at hl hsame
      exact h.printer rfl (.inl rfl) (fun huses j hj => hsame j hj huses)
        ⟨l, hl, hasked⟩ fun _ _ => ⟨rfl, rfl⟩
  | printerStore id c rest hat hstore =>
      have hb := s.write_outBuf (.printer id) c
      obtain ⟨l, hl, hasked⟩ := h.owes id
      have hsame := fun j => h.single j id
      rw [hstore] at hl hsame
      obtain ⟨l', rfl, hl'⟩ := hl
      refine h.printer rfl (.inl hb)
        (fun huses j hj => hsame j hj (Printer.usesBuffer_puts.mp huses))
        ⟨l', Printer.owes_puts.mpr (hb ▸ hl'), ?_⟩ fun j hj => ⟨?_, ?_⟩
      · dsimp only
        rw [Terminal.write_written, Terminal.write_asked, bytesOf_append, bytesOf_self,
          ← hasked, List.append_assoc]
        rfl
      · dsimp only
        rw [Terminal.write_written, bytesOf_append,
          bytesOf_other (by simpa using Ne.symm hj), List.append_nil]
      · exact congrFun (s.write_asked ..) j

section Boot

variable {u : Uart} {p : Plic} {m : Memory}

/-- However calls of `printf` interrupt each other, every access to `out_buf` stays inside
it, and its last byte stays 0. -/
theorem printf_stays_inside (text : Nat → Line) (hu : u.PoweredUp)
    (hp : ∀ irq, p.claimed irq = false) (hlast : m (outBufSize - 1) = 0)
    (hrun : Reaches (stepRel (Terminal.step text)) anyLabel (Terminal.boot u p m) s) :
    s.outBuf (outBufSize - 1) = 0 ∧
      (∀ id i c rest, s.printers id = .fill i c rest → i < outBufSize - 1) ∧
      (∀ id pos, s.printers id = .load pos → pos < outBufSize) ∧
      ∀ id pos, s.printers id = .fetch pos → pos < outBufSize - 1 := by
  have hinv : Sound s ∧ Bounded s := by
    refine hrun.invariant (P := fun t => Sound t ∧ Bounded t)
      ⟨sound_boot hu hp, hlast, fun _ => trivial⟩ ?_
    intro t e v h _ hstep
    exact ⟨h.1.step hstep,
      h.2.change (Terminal.step_change h.1.heard.uart.latch hstep)⟩
  obtain ⟨-, hbounded⟩ := hinv
  refine ⟨hbounded.last, fun id i c rest hfill => ?_, fun id pos hload => ?_,
    fun id pos hfetch => ?_⟩
  · have hid := hbounded.within id
    rw [hfill] at hid
    exact hid (i, c) (by simp)
  · have hid := hbounded.within id
    rwa [hload] at hid
  · have hid := hbounded.within id
    rwa [hfetch] at hid

def lineAb : Line := ⟨[char 'a', char 'b'], by decide, by decide⟩

def lineXyz : Line := ⟨[char 'x', char 'y', char 'z'], by decide, by decide⟩

def interruptedPrintf : List Event :=
  [.printf 0 lineAb lineAb.writes] ++ List.replicate 7 (.printer 0) ++
    [.transmit, .printf 1 lineXyz lineXyz.writes] ++ List.replicate 4 (.printer 1)

theorem printf_stays_inside_of_interrupted : ∃ s : Terminal,
    exec (Terminal.step unexpectedLine) (Terminal.boot coldUart coldPlic fun _ => 0)
      interruptedPrintf = some s ∧ s.printers 0 = .load 1 ∧ s.printers 1 = .load 0 ∧
      s.outBuf (outBufSize - 1) = 0 := by
  have hrun : (exec (Terminal.step unexpectedLine)
      (Terminal.boot coldUart coldPlic fun _ => 0) interruptedPrintf).any (fun s =>
      decide (s.printers 0 = .load 1 ∧ s.printers 1 = .load 0)) := by
    decide +kernel
  obtain ⟨s, hexec, hs⟩ := (Option.any_eq_true _ _).mp hrun
  have hprinters := of_decide_eq_true hs
  obtain ⟨hlast, -⟩ := printf_stays_inside unexpectedLine coldUart_poweredUp
    (fun _ => rfl) rfl (Reaches.exec .refl (fun _ _ _ => trivial) hexec)
  exact ⟨s, hexec, hprinters.1, hprinters.2, hlast⟩

/-- Where the port and the buffer are not disturbed, no byte is lost, and every printer has
what was asked of it accepted in order, all of it when it is done. -/
theorem undisturbed_output (text : Nat → Line) (hu : u.PoweredUp)
    (hp : ∀ irq, p.claimed irq = false)
    (hrun : Reaches (stepRel (Terminal.step text)) Undisturbed (Terminal.boot u p m) s) :
    s.lost = [] ∧
      ∀ id, bytesOf (.printer id) s.accepted <+: s.asked id ∧
        (s.printers id = .quiet → bytesOf (.printer id) s.accepted = s.asked id) := by
  have hinv : Sound s ∧ Unhurt s ∧ Whole s := by
    refine hrun.invariant (P := fun t => Sound t ∧ Unhurt t ∧ Whole t)
      ⟨sound_boot hu hp, ⟨by simp [Terminal.boot], rfl⟩,
        fun _ _ hi => hi.elim, fun _ => ⟨[], rfl, rfl⟩⟩ ?_
    intro t e v h hok hstep
    have hlatch := h.1.heard.uart.latch
    have hchange := Terminal.step_change hlatch hstep
    exact ⟨h.1.step hstep, h.2.1.change h.1.heard hok hchange,
      h.2.2.change hok hchange⟩
  obtain ⟨hsound, hunhurt, hwhole⟩ := hinv
  refine ⟨hunhurt.lost, fun id => ?_⟩
  obtain ⟨l, hl, hasked⟩ := hwhole.owes id
  rw [hsound.sent.kept _ (by rw [hunhurt.lost]; rfl), ← hasked]
  refine ⟨List.prefix_append _ _, fun hquiet => ?_⟩
  rw [hquiet] at hl
  rw [show l = [] from hl, List.append_nil]

/-- Otherwise the rest of an interrupted line comes from the other one. -/
example : (exec (Terminal.step unexpectedLine)
    (Terminal.boot coldUart coldPlic fun _ => 0)
    (interruptedPrintf ++ List.replicate 4 (.printer 0))).map
      (fun s => bytesOf (.printer 0) s.accepted) = some [char 'a', char 'y'] := by
  decide +kernel

theorem Terminal.step_others {id j : Nat} (hj : j ≠ id)
    (hstep : s.step text (.printer id) = some s') : s'.printers j = s.printers j := by
  rw [Terminal.step] at hstep
  split_ifs at hstep
  rw [Terminal.stepPrinter] at hstep
  cases hprinter : s.printers id with
  | quiet => simp [hprinter] at hstep
  | fill i c rest =>
      simp only [hprinter] at hstep
      cases hstep
      exact Function.update_of_ne hj _ _
  | load pos =>
      simp only [hprinter] at hstep
      cases hstep
      exact Function.update_of_ne hj _ _
  | fetch pos =>
      simp only [hprinter] at hstep
      cases hstep
      exact Function.update_of_ne hj _ _
  | put c rest =>
      simp only [hprinter] at hstep
      split_ifs at hstep <;> cases hstep
      · rfl
      · exact Function.update_of_ne hj _ _
  | store c rest =>
      simp only [hprinter] at hstep
      cases hstep
      exact Function.update_of_ne hj _ _

theorem reaches_alone {id n : Nat} (hquiet : ∀ j, j ≠ id → s.printers j = .quiet)
    (hexec : exec (Terminal.step text) s (List.replicate n (.printer id)) = some s') :
    Reaches (stepRel (Terminal.step text)) Undisturbed s s' := by
  induction n generalizing s with
  | zero =>
      cases hexec
      exact .refl
  | succ n ih =>
      obtain ⟨t, hstep, hrest⟩ := Option.bind_eq_some_iff.mp hexec
      have hok : Undisturbed s (.printer id) := by
        refine ⟨fun j c rest hstore => ⟨by simp, fun i hi => ?_⟩,
          fun _ _ => ⟨by simp, by simp⟩⟩
        have hj : j = id := by
          by_contra hj
          rw [hquiet j hj] at hstore
          cases hstore
        cases hi
        exact hj.symm
      have hfirst : Reaches (stepRel (Terminal.step text)) Undisturbed s t :=
        .tail .refl hok hstep
      exact hfirst.trans
        (ih (fun j hj => (Terminal.step_others hj hstep).trans (hquiet j hj)) hrest)

theorem undisturbed_output_of_line : ∃ s : Terminal,
    s.printers 0 = .quiet ∧ s.lost = [] ∧
      bytesOf (.printer 0) s.accepted = [char 'a'] := by
  let line : Line := ⟨[char 'a'], by decide, by decide⟩
  let s₀ := Terminal.boot coldUart coldPlic fun _ => 0
  let s₁ : Terminal := { s₀ with
    printers := Function.update s₀.printers 0 (.fills line.writes)
    asked := Function.update s₀.asked 0 line.bytes }
  have hok : Undisturbed s₀ (.printf 0 line line.writes) := by
    refine ⟨fun _ _ _ hstore => ?_, fun _ huses => False.elim huses⟩
    cases hstore
  have hstart : Reaches (stepRel (Terminal.step unexpectedLine)) Undisturbed s₀ s₁ :=
    .tail .refl hok rfl
  have hrun : (exec (Terminal.step unexpectedLine) s₁
      (List.replicate 7 (.printer 0))).any (fun s =>
        decide (s.printers 0 = .quiet ∧ s.asked 0 = [char 'a'])) := by
    decide +kernel
  obtain ⟨s, hexec, hs⟩ := (Option.any_eq_true _ _).mp hrun
  obtain ⟨hquiet, hasked⟩ := of_decide_eq_true hs
  have halone := reaches_alone (fun j hj => Function.update_of_ne hj _ _) hexec
  obtain ⟨hlost, hall⟩ := undisturbed_output unexpectedLine coldUart_poweredUp
    (fun _ => rfl) (hstart.trans halone)
  exact ⟨s, hquiet, hlost, ((hall 0).2 hquiet).trans hasked⟩

end Boot

end XinOS.Console
