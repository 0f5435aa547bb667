import XinOS.Printf.Pieces

/-!
# What the buffer and `uart_puts` get

The number of characters is counted in a `size_t`.  As long as it fits, the
measuring pass returns the length of the text, and the writing pass leaves the
text, cut to the size of the buffer, with a null byte behind it.
-/

namespace XinOS.Printf

open XinOS.Foundation

variable {w : Nat} {s : CString} {args : List (Arg w)}

/-- The memory after `text` has been written to a buffer of `n` bytes: what fits of
it, and a null byte. -/
def truncated (n : Nat) (text : List Byte) (m : Memory) : Memory :=
  fun j =>
    if j < text.length ∧ j + 1 < n then text[j]?.getD 0
    else if j = min text.length (n - 1) ∧ 1 ≤ n then 0
    else m j

theorem overlay_modify_eq {n L : Nat} {text : List Byte} (m : Memory)
    (hL : L = min text.length (n - 1)) (hn : 1 ≤ n) :
    (overlay n 0 text m).modify L (fun _ => 0) = truncated n text m := by
  funext j
  rw [Memory.modify_apply, truncated, overlay]
  by_cases hj : j = L
  · rw [if_pos hj, if_neg (by omega), if_pos (by omega)]
  · rw [if_neg hj, if_neg (by omega : ¬(j = min text.length (n - 1) ∧ 1 ≤ n))]
    by_cases hin : j < text.length ∧ j + 1 < n
    · rw [if_pos (by omega), if_pos hin, Nat.sub_zero]
    · rw [if_neg (by omega), if_neg hin]

theorem toNat_pos {n : BitVec w} (hn : n ≠ 0) : 0 < n.toNat := by
  rw [Nat.pos_iff_ne_zero]
  exact fun hzero => hn (BitVec.eq_of_toNat_eq hzero)

theorem toNat_pred {n : BitVec w} (hn : n ≠ 0) : (n - 1).toNat = n.toNat - 1 := by
  have hpositive := toNat_pos hn
  have hlt := n.isLt
  have hone : (1 : BitVec w).toNat = 1 := by
    show 1 % 2 ^ w = 1
    exact Nat.mod_eq_of_lt (by omega)
  rw [BitVec.toNat_sub, hone,
    show 2 ^ w - 1 + n.toNat = n.toNat - 1 + 2 ^ w by omega, Nat.add_mod_right,
    Nat.mod_eq_of_lt (by omega)]

theorem terminate_eq {p : Printer w} {out : Option Memory}
    (hpos : p.pos.toNat = p.text.length)
    (hout : p.out = out.map (overlay p.n.toNat 0 p.text)) :
    terminate p = out.map (truncated p.n.toNat p.text) := by
  rw [terminate, hout, Option.map_map]
  congr 1
  funext m
  simp only [Function.comp, BitVec.lt_def, hpos]
  by_cases hroom : p.text.length < p.n.toNat
  · rw [if_pos hroom]
    exact overlay_modify_eq m (by omega) (by omega)
  · rw [if_neg hroom]
    by_cases hn : p.n = 0
    · rw [if_neg (by simpa using hn), hn]
      funext j
      simp [truncated, overlay]
    · have hpositive := toNat_pos hn
      rw [if_pos hn, toNat_pred hn]
      exact overlay_modify_eq m (by omega) hpositive

theorem terminate_within (p : Printer w) :
    Within p.n.toNat p.out (terminate p) := by
  refine Within.map p.out fun m j hj => ?_
  split_ifs with hlt hn
  · rw [BitVec.lt_def] at hlt
    exact Memory.modify_of_ne (by omega)
  · rw [toNat_pred hn]
    have hpositive := toNat_pos hn
    exact Memory.modify_of_ne (by omega)
  · rfl

theorem run_start {out₀ : Option Memory} {n₀ : BitVec w} {r₀ : Printed w}
    (hw : 8 ≤ w) (hdefined : vsnprintf out₀ n₀ s args = some r₀)
    (out : Option Memory) (n : BitVec w) :
    ∃ p, run (start out n args) s.bytes = some p ∧
      Emits (start out n args) r₀.text p ∧ p.args = r₀.args := by
  obtain ⟨p₀, hrun₀, rfl⟩ := Option.map_eq_some_iff.mp hdefined
  have hblind := run_blind (start out₀ n₀ args) s.bytes
  have hsame := run_blind (start out n args) s.bytes
  rw [show (start out₀ n₀ args).blind = (start out n args).blind from rfl, hsame,
    hrun₀] at hblind
  obtain ⟨p, hrun, heq⟩ := Option.map_eq_some_iff.mp hblind
  obtain ⟨l, hl⟩ := run_emits hw s.nonzero hrun
  have htext := congrArg Printer.text heq
  have hargs := congrArg Printer.args heq
  obtain rfl : l = p₀.text := hl.text.symm.trans htext
  exact ⟨p, hrun, hl, hargs⟩

/-- Every pass over the same format and arguments prints the same text and returns
its length. -/
theorem vsnprintf_eq {out₀ : Option Memory} {n₀ : BitVec w} {r₀ : Printed w}
    (hw : 32 ≤ w) (hdefined : vsnprintf out₀ n₀ s args = some r₀)
    (out : Option Memory) (n : BitVec w) :
    ∃ out', vsnprintf out n s args = some
        { value := BitVec.ofNat 32 r₀.text.length
          out := out'
          args := r₀.args
          text := r₀.text } ∧
      Within n.toNat out out' ∧
      (r₀.text.length < 2 ^ w → out' = out.map (truncated n.toNat r₀.text)) := by
  obtain ⟨p, hrun, hemits, hargs⟩ := run_start (by omega) hdefined out n
  have htext : p.text = r₀.text := hemits.text
  have hpos : p.pos = BitVec.ofNat w r₀.text.length :=
    hemits.pos.trans (BitVec.zero_add _)
  have hn : p.n = n := hemits.n
  refine ⟨terminate p, ?_, ?_, fun hlen => ?_⟩
  · rw [vsnprintf, hrun, Option.map_some, hargs, htext, hpos,
      BitVec.setWidth_ofNat_of_le hw]
  · have hend := terminate_within p
    rw [hn] at hend
    exact hemits.within.trans hend
  · have hlength : p.pos.toNat = p.text.length := by
      rw [hpos, htext, BitVec.toNat_ofNat, Nat.mod_eq_of_lt hlen]
    have hout : p.out = out.map (overlay n.toNat 0 r₀.text) :=
      hemits.out (by
        rw [show (start out n args).pos.toNat = 0 from Nat.zero_mod _]
        omega)
    have hend := terminate_eq hlength (by rw [hn, htext]; exact hout)
    rwa [hn, htext] at hend

/-! ## `_vprintf` -/

theorem uartPuts_eq {m : Memory} {text : List Byte} {a fuel : Nat}
    (hfuel : text.length < fuel) (hvisible : 0 ∉ text)
    (htext : ∀ j, (hj : j < text.length) → m (a + j) = text[j])
    (hend : m (a + text.length) = 0) : uartPuts m fuel a = some text := by
  induction text generalizing a fuel with
  | nil =>
      obtain ⟨fuel, rfl⟩ : ∃ f, fuel = f + 1 := ⟨fuel - 1, by simp at hfuel; omega⟩
      rw [uartPuts, if_pos (by simpa using hend)]
  | cons c text ih =>
      obtain ⟨fuel, rfl⟩ : ∃ f, fuel = f + 1 := ⟨fuel - 1, by simp at hfuel; omega⟩
      have hfirst : m a = c := htext 0 (by simp)
      rw [List.mem_cons, not_or] at hvisible
      have hrest : uartPuts m fuel (a + 1) = some text := by
        refine ih (by simpa using hfuel) hvisible.2 (fun j hj => ?_) ?_
        · rw [Nat.add_assoc, Nat.add_comm 1 j]
          exact htext (j + 1) (by simpa using hj)
        · rwa [Nat.add_assoc, Nat.add_comm 1]
      rw [uartPuts, hfirst, if_neg (Ne.symm hvisible.1), hrest]
      rfl

theorem size_toNat (hw : 32 ≤ w) {L : Nat} (hL : L < 2 ^ 31) :
    L + 1 < outBufSize ∧
        ((BitVec.ofNat 32 L + 1).signExtend w).toNat = L + 1 ∨
      outBufSize ≤ L + 1 ∧
        outBufSize ≤ ((BitVec.ofNat 32 L + 1).signExtend w).toNat := by
  have hsum : BitVec.ofNat 32 L + 1 = BitVec.ofNat 32 (L + 1) :=
    (BitVec.ofNat_add L 1).symm
  have hextend := BitVec.toNat_signExtend (BitVec.ofNat 32 L + 1) (v := w)
  have hwidth : ((BitVec.ofNat 32 L + 1).setWidth w).toNat = L + 1 := by
    rw [BitVec.toNat_setWidth_of_le hw, hsum, BitVec.toNat_ofNat,
      Nat.mod_eq_of_lt (by omega)]
  by_cases hroom : L + 1 < outBufSize
  · have hmsb : (BitVec.ofNat 32 L + 1).msb = false := by
      rw [hsum, BitVec.msb_eq_false_iff_two_mul_lt, BitVec.toNat_ofNat,
        Nat.mod_eq_of_lt (by omega)]
      unfold outBufSize at hroom
      omega
    refine .inl ⟨hroom, ?_⟩
    rw [hextend, hwidth, hmsb]
    rfl
  · exact .inr ⟨by omega, by omega⟩

theorem vprintf_eq {out₀ : Option Memory} {n₀ : BitVec w} {r₀ : Printed w}
    (hw : 32 ≤ w) (hdefined : vsnprintf out₀ n₀ s args = some r₀)
    (hlen : r₀.text.length < 2 ^ 31) (outBuf : Memory) :
    vprintf outBuf s args =
      if r₀.text.length + 1 < outBufSize then
        some (.sent r₀.text (truncated (r₀.text.length + 1) r₀.text outBuf))
      else some .overflow := by
  have hpow : 2 ^ 32 ≤ 2 ^ w := Nat.pow_le_pow_right (by omega) hw
  have hpass : ∀ out n, vsnprintf out n s args = some
      { value := BitVec.ofNat 32 r₀.text.length
        out := out.map (truncated n.toNat r₀.text)
        args := r₀.args
        text := r₀.text } := fun out n => by
    obtain ⟨out', hcall, -, hout⟩ := vsnprintf_eq hw hdefined out n
    rw [hcall, hout (by omega)]
  have hlimit : (BitVec.ofNat w outBufSize).toNat = outBufSize := by
    unfold outBufSize
    rw [BitVec.toNat_ofNat, Nat.mod_eq_of_lt (by omega)]
  obtain ⟨p, hrun, hemits, -⟩ := run_start (by omega) hdefined none 0
  simp only [vprintf, hpass, ge_iff_le, BitVec.le_def, hlimit]
  rcases size_toNat hw hlen with ⟨hroom, hsize⟩ | ⟨hfull, hsize⟩
  · rw [if_pos hroom, if_neg (by omega), hsize]
    simp only [Option.map_some]
    have hputs : uartPuts (truncated (r₀.text.length + 1) r₀.text outBuf)
        walkFuel 0 = some r₀.text := by
      refine uartPuts_eq ?_ hemits.visible (fun j hj => ?_) ?_
      · unfold outBufSize at hroom
        unfold walkFuel
        omega
      · rw [Nat.zero_add, truncated, if_pos (by omega), List.getElem?_eq_getElem hj]
        rfl
      · rw [Nat.zero_add, truncated, if_neg (by omega), if_pos (by omega)]
    rw [hputs]
    rfl
  · rw [if_pos hsize, if_neg (by omega)]

/-! ## The two passes -/

structure Holds (n : Nat) (text : List Byte) (m m' : Memory) : Prop where
  outside : ∀ j, n ≤ j → m' j = m j
  front : ∀ j, (hj : j < text.length) → j + 1 < n → m' j = text[j]
  ended : 1 ≤ n → m' (min text.length (n - 1)) = 0

theorem truncated_holds (n : Nat) (text : List Byte) (m : Memory) :
    Holds n text m (truncated n text m) where
  outside := fun j hj => by rw [truncated, if_neg (by omega), if_neg (by omega)]
  front := fun j hj hn => by
    rw [truncated, if_pos ⟨hj, hn⟩, List.getElem?_eq_getElem hj]
    rfl
  ended := fun hn => by rw [truncated, if_neg (by omega), if_pos ⟨rfl, hn⟩]

/-- The measuring and the writing pass agree, and `_vprintf` sends what it
measured. -/
theorem printf_passes_agree (b : Build) {s : CString} {args : List (Arg b.xlen)}
    {out₀ : Option Memory} {n₀ : BitVec b.xlen} {r₀ : Printed b.xlen}
    (hdefined : vsnprintf out₀ n₀ s args = some r₀) :
    (∀ out n, ∃ r, vsnprintf out n s args = some r ∧ r.text = r₀.text ∧
      r.value = r₀.value ∧ r.value = BitVec.ofNat 32 r.text.length ∧
      Within n.toNat out r.out ∧
      (r₀.text.length < 2 ^ b.xlen → ∀ m, out = some m →
        ∃ m', r.out = some m' ∧ Holds n.toNat r₀.text m m')) ∧
    (r₀.text.length < 2 ^ 31 → ∀ outBuf,
      (outBufSize ≤ r₀.text.length + 1 → vprintf outBuf s args = some .overflow) ∧
      (r₀.text.length + 1 < outBufSize →
        ∃ outBuf', vprintf outBuf s args = some (.sent r₀.text outBuf') ∧
          ∀ j, outBufSize ≤ j → outBuf' j = outBuf j)) := by
  have hw : 32 ≤ b.xlen := by cases b <;> decide
  refine ⟨fun out n => ?_, fun hlen outBuf => ?_⟩
  · obtain ⟨out', hcall, hwithin, hout⟩ := vsnprintf_eq hw hdefined out n
    obtain ⟨out₁, hcall₀, -, -⟩ := vsnprintf_eq hw hdefined out₀ n₀
    have hvalue := congrArg Printed.value
      (Option.some.inj (hcall₀.symm.trans hdefined))
    refine ⟨_, hcall, rfl, hvalue, rfl, hwithin, fun hlen m hm => ?_⟩
    refine ⟨_, ?_, truncated_holds n.toNat r₀.text m⟩
    rw [hout hlen, hm, Option.map_some]
  · have hprint := vprintf_eq hw hdefined hlen outBuf
    refine ⟨fun hfull => ?_, fun hroom => ?_⟩
    · rw [hprint, if_neg (by omega)]
    · rw [hprint, if_pos hroom]
      exact ⟨_, rfl, fun j hj => (truncated_holds _ _ outBuf).outside j (by omega)⟩

def okFormat : CString := ⟨[char 'o', char 'k'], by decide⟩

theorem printf_passes_agree_of_ok :
    ∃ r : Printed 64, vsnprintf (some fun _ => 0xFF) 2#64 okFormat [] = some r ∧
      r.value = 2 ∧ ∃ m', r.out = some m' ∧
        Holds 2 [char 'o', char 'k'] (fun _ => 0xFF) m' := by
  have hdefined : vsnprintf none 0#64 okFormat [] =
      some ⟨2, none, [], [char 'o', char 'k']⟩ := rfl
  obtain ⟨r, hcall, -, hvalue, -, -, hholds⟩ :=
    (printf_passes_agree .rv64 hdefined).1 (some fun _ => 0xFF) 2#64
  obtain ⟨m', hout, hm'⟩ := hholds (by decide) _ rfl
  exact ⟨r, hcall, hvalue, m', hout, hm'⟩

def stringPieces (k : Nat) (s : CString) : List (Piece w) :=
  List.replicate k (.conv .s (.str s) trivial)

def lastPiece : Piece w := .literal (char 'c') (by decide) (by decide)

/-- When the text is as long as the address space of RV32, the position in the
buffer is back at its start. -/
theorem run_full {s : CString} {k : Nat} (hfull : k * s.bytes.length = 2 ^ 32)
    (out : Option Memory) (n : BitVec 32) :
    ∃ p, run (start out n (List.replicate k (.str s)))
        (Piece.format (w := 32) (stringPieces k s)).bytes = some p ∧
      Emits (start out n (List.replicate k (.str s)))
        (List.replicate k s.bytes).flatten p ∧ p.AtText ∧ p.pos = 0 := by
  have hargs : (start out n (List.replicate k (.str s))).args =
      (stringPieces k s).flatMap Piece.args ++ [] := by
    rw [List.append_nil, stringPieces, List.flatMap_replicate]
    exact List.flatten_replicate_singleton.symm
  obtain ⟨p, hrun, htext, -, hat⟩ := run_pieces (by decide) ⟨rfl, rfl⟩ _
    (fun piece hpiece => by rw [List.eq_of_mem_replicate hpiece]; rfl) hargs
  obtain ⟨l, hemits⟩ := run_emits (by decide) (CString.nonzero _) hrun
  rw [hemits.text, stringPieces, List.flatMap_replicate] at htext
  obtain rfl := List.append_cancel_left htext
  refine ⟨p, hrun, hemits, hat, ?_⟩
  have hlength : ((List.replicate k s.bytes).flatten).length = 2 ^ 32 := by
    rw [List.length_flatten, List.map_replicate, List.sum_replicate_nat, hfull]
  have hpos := hemits.pos
  rw [show (Piece.conv Conv.s (Arg.str s) trivial : Piece 32).text = s.bytes from rfl,
    hlength] at hpos
  exact hpos

def repeated (n : Nat) : CString where
  bytes := List.replicate (n + 1) (char 'a')
  nonzero := by
    rw [List.mem_replicate, not_and]
    exact fun _ => by decide

theorem first_character_overwritten {n : Nat} (hfull : 64 * (n + 1) = 2 ^ 32) :
    ∃ (r : Printed 32) (m' : Memory),
      vsnprintf (some fun _ => 0xFF) 2#32
        (Piece.format (w := 32) (stringPieces 64 (repeated n) ++ [lastPiece]))
        (List.replicate 64 (.str (repeated n))) = some r ∧
      r.out = some m' ∧ r.value = 1 ∧ r.text[0]? = some (char 'a') ∧
      m' 0 = char 'c' ∧ ¬Holds 2 r.text (fun _ => 0xFF) m' := by
  have hlength : (repeated n).bytes.length = n + 1 := List.length_replicate
  obtain ⟨p, hrun, hemits, hat, hpos⟩ := run_full (hlength ▸ hfull)
    (some fun _ => 0xFF) 2#32
  have hlast : run (start (some fun _ => 0xFF) 2#32 (List.replicate 64 (.str (repeated n))))
      (Piece.format (w := 32) (stringPieces 64 (repeated n) ++ [lastPiece])).bytes =
        some (p.emit (char 'c')) := by
    show run _ ((stringPieces 64 (repeated n) ++ [lastPiece]).flatMap Piece.bytes) = _
    simp only [Piece.format] at hrun
    rw [List.flatMap_append, run_append, hrun, Option.bind_some,
      List.flatMap_singleton, lastPiece, Piece.bytes, run_single, step,
      if_neg (by simp [hat.1]), if_neg (by decide)]
  have hfirst : (p.emit (char 'c')).text[0]? = some (char 'a') := by
    have htext : p.text = (List.replicate 64 (repeated n).bytes).flatten :=
      hemits.text
    rw [Printer.emit, htext]
    rfl
  obtain ⟨m, hout⟩ : ∃ m, p.out = some m := by
    have hwithin := hemits.within
    cases hout : p.out with
    | none =>
        rw [hout] at hwithin
        exact hwithin.elim
    | some m => exact ⟨m, rfl⟩
  have hend : terminate (p.emit (char 'c')) =
      some ((m.modify 0 fun _ => char 'c').modify 1 fun _ => 0) := by
    have hn : p.n = 2#32 := hemits.n
    rw [terminate, Printer.emit, Printer.put, hout, hpos, hn]
    rfl
  have hzero : (m.modify 0 fun _ => char 'c').modify 1 (fun _ => 0) 0 = char 'c' := rfl
  refine ⟨_, (m.modify 0 fun _ => char 'c').modify 1 fun _ => 0,
    by rw [vsnprintf, hlast]; rfl, hend, ?_, hfirst, hzero, fun hholds => ?_⟩
  · show ((p.emit (char 'c')).pos).setWidth 32 = 1
    rw [Printer.emit, hpos]
    rfl
  · obtain ⟨hlt, hchar⟩ := List.getElem?_eq_some_iff.mp hfirst
    have hkept := hholds.front 0 hlt (by decide)
    rw [hzero, hchar] at hkept
    exact absurd hkept (by decide)

/-- A string of 64 MiB is printed 64 times on RV32: the position wraps around to 0,
and the next character takes the place of the first one. -/
theorem long_text_lost :
    ∃ (r : Printed 32) (m' : Memory),
      vsnprintf (some fun _ => 0xFF) 2#32
        (Piece.format (w := 32) (stringPieces 64 (repeated (2 ^ 26 - 1)) ++ [lastPiece]))
        (List.replicate 64 (.str (repeated (2 ^ 26 - 1)))) = some r ∧
      r.out = some m' ∧ r.value = 1 ∧ r.text[0]? = some (char 'a') ∧
      m' 0 = char 'c' ∧ ¬Holds 2 r.text (fun _ => 0xFF) m' :=
  first_character_overwritten (by decide)

end XinOS.Printf
