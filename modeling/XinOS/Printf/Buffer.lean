import XinOS.Printf.Digits

/-!
# The two passes of `_vprintf`

What `_vsnprintf` prints does not depend on the buffer, and the buffer receives
what fits of it.  `Emits` says what a piece of the run does to text, position and
buffer at once; such pieces compose.
-/

namespace XinOS.Printf

open XinOS.Foundation

variable {w : Nat} {p p' p'' : Printer w} {l l' : List Byte}

/-! ## The text does not depend on the buffer -/

def Printer.blind (p : Printer w) : Printer w := { p with out := none, n := 0 }

theorem takeNumber_blind (p : Printer w) :
    p.blind.takeNumber = p.takeNumber.map fun r => (r.1, r.2.blind) := by
  obtain ⟨out, n, pos, format, longarg, args, text⟩ := p
  cases longarg <;> rcases args with - | ⟨- | - | -, args⟩ <;> rfl

theorem emitAll_blind (p : Printer w) (l : List Byte) :
    p.blind.emitAll l = (p.emitAll l).blind := by
  induction l generalizing p with
  | nil => rfl
  | cons c l ih => exact ih (p.emit c)

theorem writeDigits_blind (i : Nat) (num : BitVec w) (p : Printer w)
    (chars : List Byte) :
    writeDigits i num p.blind chars =
      ((writeDigits i num p chars).1.blind, (writeDigits i num p chars).2) := by
  induction i generalizing num p chars with
  | zero => rfl
  | succ i ih =>
      exact ih _ (p.put (p.pos + BitVec.ofNat w i) (digitChar num)) _

theorem printDigits_blind (num : BitVec w) (p : Printer w) :
    printDigits num p.blind = (printDigits num p).blind := by
  simp only [printDigits, writeDigits_blind]
  rfl

theorem printDecimal_blind (num : BitVec w) (p : Printer w) :
    printDecimal num p.blind = (printDecimal num p).blind := by
  have hminus : p.blind.emit (char '-') = (p.emit (char '-')).blind := rfl
  unfold printDecimal
  split
  · rw [hminus, printDigits_blind]
    rfl
  · rw [printDigits_blind]
    rfl

theorem printHexDigits_blind (i : Nat) (num : BitVec w) (p : Printer w) :
    printHexDigits i num p.blind = (printHexDigits i num p).blind := by
  induction i generalizing p with
  | zero => rfl
  | succ i ih =>
      exact ih (p.emit (hexChar (num.sshiftRight (4 * i) &&& 15).toNat))

theorem printHex_blind (p : Printer w) :
    printHex p.blind = (printHex p).map Printer.blind := by
  unfold printHex
  rw [takeNumber_blind, Option.map_map, Option.map_map]
  congr 1
  funext r
  simp only [Function.comp, printHexDigits_blind]
  rfl

theorem printString_blind (p : Printer w) :
    printString p.blind = (printString p).map Printer.blind := by
  obtain ⟨out, n, pos, format, longarg, args, text⟩ := p
  rcases args with - | ⟨- | - | s, args⟩
  · rfl
  · rfl
  · rfl
  · have hall := emitAll_blind
      (⟨out, n, pos, format, longarg, args, text⟩ : Printer w) s.bytes
    exact congrArg (fun p => some (Printer.close p)) hall

theorem step_blind (p : Printer w) (c : Byte) :
    step p.blind c = (step p c).map Printer.blind := by
  have hhex := printHex_blind p
  have hptr := printHex_blind
    ((({ p with longarg := true }).emit (char '0')).emit (char 'x'))
  have hstring := printString_blind p
  have hdecimal : (p.blind.takeNumber.map fun r => printDecimal r.1 r.2) =
      (p.takeNumber.map fun r => printDecimal r.1 r.2).map Printer.blind := by
    rw [takeNumber_blind, Option.map_map, Option.map_map]
    congr 1
    funext r
    exact printDecimal_blind r.1 r.2
  unfold step
  show (if p.format = true then _ else _) = _
  split_ifs <;> first | rfl | assumption

theorem run_blind (p : Printer w) (s : List Byte) :
    run p.blind s = (run p s).map Printer.blind := by
  induction s generalizing p with
  | nil => rfl
  | cons c s ih =>
      simp only [run, List.foldlM_cons] at ih ⊢
      rw [step_blind]
      cases step p c with
      | none => rfl
      | some p' => exact ih p'

/-! ## What reaches the buffer -/

/-- The characters `l` are written from index `a` on, as far as they lie below
`n`. -/
def overlay (n a : Nat) (l : List Byte) (m : Memory) : Memory :=
  fun j => if a ≤ j ∧ j < a + l.length ∧ j < n then l[j - a]?.getD 0 else m j

theorem overlay_nil (n a : Nat) (m : Memory) : overlay n a [] m = m := by
  funext j
  rw [overlay, if_neg (by simp; omega)]

theorem overlay_append (n a : Nat) (l l' : List Byte) (m : Memory) :
    overlay n (a + l.length) l' (overlay n a l m) = overlay n a (l ++ l') m := by
  funext j
  simp only [overlay, List.length_append]
  by_cases hback : a + l.length ≤ j ∧ j < a + l.length + l'.length ∧ j < n
  · rw [if_pos hback, if_pos (by omega), List.getElem?_append_right (by omega),
      Nat.sub_sub]
  · rw [if_neg hback]
    by_cases hfront : a ≤ j ∧ j < a + l.length ∧ j < n
    · rw [if_pos hfront, if_pos (by omega), List.getElem?_append_left (by omega)]
    · rw [if_neg hfront, if_neg (by omega)]

theorem overlay_singleton (n a : Nat) (c : Byte) (m : Memory) :
    overlay n a [c] m = if a < n then m.modify a fun _ => c else m := by
  funext j
  simp only [overlay, List.length_singleton]
  split_ifs with hin hlt hlt
  · rw [Memory.modify_apply, if_pos (by omega), Nat.le_antisymm (by omega) hin.1,
      Nat.sub_self]
    rfl
  · omega
  · exact (Memory.modify_of_ne (by omega)).symm
  · rfl

theorem overlay_comm (n a a' : Nat) (l l' : List Byte) (m : Memory)
    (h : a + l.length ≤ a' ∨ a' + l'.length ≤ a) :
    overlay n a l (overlay n a' l' m) = overlay n a' l' (overlay n a l m) := by
  funext j
  simp only [overlay]
  split_ifs <;> first | rfl | omega

def Within (n : Nat) : Option Memory → Option Memory → Prop
  | none, none => True
  | some m, some m' => ∀ j, n ≤ j → m' j = m j
  | _, _ => False

theorem Within.refl (n : Nat) (out : Option Memory) : Within n out out := by
  cases out with
  | none => trivial
  | some m => exact fun _ _ => rfl

theorem Within.trans {n : Nat} {out out' out'' : Option Memory}
    (h : Within n out out') (h' : Within n out' out'') : Within n out out'' := by
  cases out <;> cases out' <;> cases out'' <;> try trivial
  exact fun j hj => (h' j hj).trans (h j hj)

theorem Within.map {n : Nat} (out : Option Memory) {f : Memory → Memory}
    (hf : ∀ m j, n ≤ j → f m j = m j) : Within n out (out.map f) := by
  cases out with
  | none => trivial
  | some m => exact hf m

theorem put_within (p : Printer w) (i : BitVec w) (c : Byte) :
    Within p.n.toNat p.out (p.put i c).out := by
  refine Within.map p.out fun m j hj => ?_
  split_ifs with hlt
  · rw [BitVec.lt_def] at hlt
    exact Memory.modify_of_ne (by omega)
  · rfl

structure Emits (p : Printer w) (l : List Byte) (p' : Printer w) : Prop where
  text : p'.text = p.text ++ l
  pos : p'.pos = p.pos + BitVec.ofNat w l.length
  n : p'.n = p.n
  out : p.pos.toNat + l.length ≤ 2 ^ w →
    p'.out = p.out.map (overlay p.n.toNat p.pos.toNat l)
  within : Within p.n.toNat p.out p'.out
  visible : 0 ∉ l

namespace Emits

theorem refl (p : Printer w) : Emits p [] p where
  text := (List.append_nil _).symm
  pos := (BitVec.add_zero _).symm
  n := rfl
  out := fun _ => by
    cases p.out with
    | none => rfl
    | some m => exact congrArg some (overlay_nil _ _ m).symm
  within := Within.refl _ _
  visible := List.not_mem_nil

theorem of_same (htext : p'.text = p.text) (hpos : p'.pos = p.pos)
    (hn : p'.n = p.n) (hout : p'.out = p.out) : Emits p [] p' := by
  have h := Emits.refl p
  exact ⟨htext ▸ h.text, hpos ▸ h.pos, hn, hout ▸ h.out, hout ▸ h.within,
    h.visible⟩

theorem trans (h : Emits p l p') (h' : Emits p' l' p'') :
    Emits p (l ++ l') p'' where
  text := by rw [h'.text, h.text, List.append_assoc]
  pos := by
    rw [h'.pos, h.pos, List.length_append, BitVec.ofNat_add, BitVec.add_assoc]
  n := h'.n.trans h.n
  out := fun hfit => by
    rw [List.length_append] at hfit
    rcases List.eq_nil_or_concat l' with rfl | ⟨front, c, rfl⟩
    · have hnil := h'.out (by have := p'.pos.isLt; simp; omega)
      rw [List.append_nil, hnil, h.out (by simpa using hfit)]
      cases p.out with
      | none => rfl
      | some m => exact congrArg some (overlay_nil _ _ _)
    · rw [List.concat_eq_append, List.length_append, List.length_singleton] at *
      have hpos : p'.pos.toNat = p.pos.toNat + l.length := by
        rw [h.pos, BitVec.toNat_add, BitVec.toNat_ofNat, Nat.add_mod_mod,
          Nat.mod_eq_of_lt (by omega)]
      rw [h'.out (by rw [hpos, List.length_append, List.length_singleton]; omega),
        h.out (by omega), h.n, hpos]
      cases p.out with
      | none => rfl
      | some m => exact congrArg some (overlay_append _ _ _ _ m)
  within := h.within.trans (h.n ▸ h'.within)
  visible := by
    rw [List.mem_append]
    exact not_or.mpr ⟨h.visible, h'.visible⟩

theorem emit (p : Printer w) {c : Byte} (hc : c ≠ 0) : Emits p [c] (p.emit c) where
  text := rfl
  pos := rfl
  n := rfl
  out := fun _ => by
    show p.out.map _ = _
    congr 1
    funext m
    rw [overlay_singleton]
    rfl
  within := put_within p p.pos c
  visible := by simpa using hc.symm

theorem emitAll (p : Printer w) {l : List Byte} (hl : 0 ∉ l) :
    Emits p l (p.emitAll l) := by
  induction l generalizing p with
  | nil => exact .refl p
  | cons c l ih =>
      rw [List.mem_cons, not_or] at hl
      exact (Emits.emit p (Ne.symm hl.1)).trans (ih (p.emit c) hl.2)

theorem close (h : Emits p l p') : Emits p l p'.close :=
  ⟨h.text, h.pos, h.n, h.out, h.within, h.visible⟩

end Emits

/-! ## What the conversions print -/

theorem writeDigits_eq (i : Nat) (num : BitVec w) (p : Printer w)
    (chars : List Byte) :
    ∃ out, writeDigits i num p chars =
        ({ p with out := out }, digitChars i num ++ chars) ∧
      (p.pos.toNat + i ≤ 2 ^ w →
        out = p.out.map (overlay p.n.toNat p.pos.toNat (digitChars i num))) ∧
      Within p.n.toNat p.out out := by
  induction i generalizing num p chars with
  | zero => exact ⟨p.out, rfl, (Emits.refl p).out, Within.refl _ _⟩
  | succ i ih =>
      obtain ⟨out, heq, hout, hwithin⟩ := ih (num.sdiv 10)
        (p.put (p.pos + BitVec.ofNat w i) (digitChar num)) (digitChar num :: chars)
      refine ⟨out, ?_, fun hfit => ?_, (put_within p _ _).trans hwithin⟩
      · rw [writeDigits, heq, digitChars, List.append_assoc]
        rfl
      · have hindex : (p.pos + BitVec.ofNat w i).toNat =
            p.pos.toNat + (digitChars i (num.sdiv 10)).length := by
          rw [digitChars_length, BitVec.toNat_add, BitVec.toNat_ofNat,
            Nat.add_mod_mod, Nat.mod_eq_of_lt (by omega)]
        rw [hout (by show p.pos.toNat + i ≤ _; omega), digitChars]
        show (p.out.map _).map _ = _
        rw [Option.map_map]
        congr 1
        funext m
        simp only [Function.comp, BitVec.lt_def, hindex, ← overlay_singleton]
        rw [← overlay_append]
        exact overlay_comm _ _ _ _ _ m (.inl le_rfl)

theorem printDigits_emits (hw : 8 ≤ w) (num : BitVec w) (p : Printer w) :
    Emits p (digitChars (countDigits w num) num) (printDigits num p) := by
  obtain ⟨out, heq, hout, hwithin⟩ := writeDigits_eq (countDigits w num) num p []
  rw [List.append_nil] at heq
  simp only [printDigits, heq]
  refine ⟨rfl, ?_, rfl, fun hfit => ?_, hwithin, digitChars_visible hw _ _⟩
  · rw [digitChars_length]
  · rw [digitChars_length] at hfit
    exact hout hfit

theorem printDecimal_emits (hw : 8 ≤ w) (num : BitVec w) (p : Printer w) :
    Emits p (decimalText num) (printDecimal num p) := by
  unfold printDecimal decimalText
  split
  · exact ((Emits.emit p (by decide)).trans (printDigits_emits hw _ _)).close
  · exact (printDigits_emits hw _ _).close

theorem printHexDigits_emits (hw : 8 ≤ w) (i : Nat) (num : BitVec w)
    (p : Printer w) : Emits p (hexText i num) (printHexDigits i num p) := by
  induction i generalizing p with
  | zero => exact .refl p
  | succ i ih =>
      have hchar := hexChar_ne_zero _ (nibble_lt hw num i)
      exact (Emits.emit p hchar).trans (ih _)

theorem takeNumber_some {num : BitVec w} (h : p.takeNumber = some (num, p')) :
    ∃ a args, p.args = a :: args ∧ p' = { p with args := args } := by
  unfold Printer.takeNumber at h
  split at h
  · cases h
    exact ⟨_, _, by assumption, rfl⟩
  · cases h
    exact ⟨_, _, by assumption, rfl⟩
  · cases h

theorem takeNumber_emits {num : BitVec w} (h : p.takeNumber = some (num, p')) :
    Emits p [] p' := by
  obtain ⟨a, args, -, rfl⟩ := takeNumber_some h
  exact .of_same rfl rfl rfl rfl

theorem printHex_emits (hw : 8 ≤ w) (h : printHex p = some p') :
    ∃ l, Emits p l p' := by
  obtain ⟨⟨num, q⟩, hq, rfl⟩ := Option.map_eq_some_iff.mp h
  exact ⟨_, ((takeNumber_emits hq).trans (printHexDigits_emits hw _ num q)).close⟩

theorem printString_emits (h : printString p = some p') : ∃ l, Emits p l p' := by
  unfold printString at h
  split at h
  · rename_i s args hargs
    cases h
    have hread : Emits p [] { p with args := args } := .of_same rfl rfl rfl rfl
    exact ⟨_, (hread.trans (Emits.emitAll _ s.nonzero)).close⟩
  · cases h

/-- A step prints some characters, at the end of the text and, as far as there is
room, of the buffer. -/
theorem step_emits (hw : 8 ≤ w) {c : Byte} (hc : c ≠ 0) (h : step p c = some p') :
    ∃ l, Emits p l p' := by
  unfold step at h
  split_ifs at h
  · obtain ⟨⟨num, q⟩, hq, rfl⟩ := Option.map_eq_some_iff.mp h
    exact ⟨_, (takeNumber_emits hq).trans (printDecimal_emits hw num q)⟩
  · cases h
    exact ⟨[], .of_same rfl rfl rfl rfl⟩
  · obtain ⟨l, hl⟩ := printHex_emits hw h
    have hlong : Emits p [] { p with longarg := true } := .of_same rfl rfl rfl rfl
    have hzero := Emits.emit { p with longarg := true }
      (show char '0' ≠ 0 by decide)
    have hx := Emits.emit ({ p with longarg := true }.emit (char '0'))
      (show char 'x' ≠ 0 by decide)
    exact ⟨_, hlong.trans (hzero.trans (hx.trans hl))⟩
  · exact printHex_emits hw h
  · exact printString_emits h
  · cases h
    exact ⟨_, (Emits.emit p hc).close⟩
  · cases h
    exact ⟨[], .refl p⟩
  · cases h
    exact ⟨[], .of_same rfl rfl rfl rfl⟩
  · cases h
    exact ⟨_, Emits.emit p hc⟩

theorem run_emits (hw : 8 ≤ w) {s : List Byte} (hs : 0 ∉ s)
    (h : run p s = some p') : ∃ l, Emits p l p' := by
  induction s generalizing p with
  | nil =>
      cases h
      exact ⟨[], .refl _⟩
  | cons c s ih =>
      rw [List.mem_cons, not_or] at hs
      simp only [run, List.foldlM_cons] at h ih
      obtain ⟨q, hstep, hrest⟩ := Option.bind_eq_some_iff.mp h
      obtain ⟨l, hl⟩ := step_emits hw (Ne.symm hs.1) hstep
      obtain ⟨l', hl'⟩ := ih hs.2 hrest
      exact ⟨l ++ l', hl.trans hl'⟩

end XinOS.Printf
