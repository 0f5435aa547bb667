import Mathlib.Algebra.Order.BigOperators.Group.List
import XinOS.Printf.Numbers

/-!
# Conversions and arguments in step

A format of pieces prints one rendering after the other, unless one of its numbers is
printed wrongly or it has a `%c`, which prints its own letter and leaves its argument
to the next conversion.
-/

namespace XinOS.Printf

open XinOS.Foundation

variable {w : Nat}

/-! ## Renderings -/

def decimal (v : Int) : List Byte := if v = 0 then [char '0'] else signed v

theorem decimal_isDecimal (v : Int) : IsDecimal (decimal v) v := by
  rw [decimal]
  split
  · next hv =>
      refine ⟨[char '0'], ⟨?_, by simp, fun _ => rfl⟩, .inl ⟨rfl, hv⟩⟩
      intro c hc
      rw [List.mem_singleton.mp hc]
      exact ⟨by decide, by decide⟩
  · next hv => exact signed_isDecimal hv

namespace Piece

def rendering : Piece w → List Byte
  | .literal c _ _ => [c]
  | .conv .d (.int v) _ => decimal v.toInt
  | .conv .ld (.long v) _ => decimal v.toInt
  | .conv .x (.int v) _ => hexadecimal 8 v.toNat
  | .conv .lx (.long v) _ => hexadecimal (2 * (w / 8)) v.toNat
  | .conv .p (.long v) _ => char '0' :: char 'x' :: hexadecimal (2 * (w / 8)) v.toNat
  | .conv .s (.str s) _ => s.bytes
  | .conv .c (.int v) _ => [v.setWidth 8]
  | .conv _ _ _ => []

def Sound : Piece w → Prop
  | .conv .d (.int v) _ => v ≠ 0 ∧ v.signExtend w ≠ BitVec.intMin w
  | .conv .ld (.long v) _ => v ≠ 0 ∧ v ≠ BitVec.intMin w
  | .conv .c _ _ => False
  | _ => True

end Piece

/-! ## What is printed against the rendering -/

/-- Also the digits of the most negative number are as many as they should be. -/
theorem decimalText_length (hw : 8 ≤ w) (num : BitVec w) :
    (decimalText num).length = (signed num.toInt).length := by
  have hcount : ∀ v : BitVec w, (digitChars (countDigits w v) v).length =
      (numeral v.toInt.natAbs).length := by
    intro v
    rw [digitChars_length, countDigits_eq hw (natAbs_lt_pow v hw), numeral,
      List.length_map, List.length_reverse]
  have hneg : (-num).toInt.natAbs = num.toInt.natAbs := by
    by_cases hmin : num = BitVec.intMin w
    · rw [hmin, BitVec.neg_intMin]
    · rw [BitVec.toInt_neg_of_ne_intMin hmin, Int.natAbs_neg]
  unfold decimalText signed
  simp only [slt_zero_iff]
  split
  · rw [List.length_cons, List.length_cons, hcount, hneg]
  · exact hcount num

theorem decimalText_length_le (hw : 8 ≤ w) (num : BitVec w) :
    (decimalText num).length ≤ (decimal num.toInt).length := by
  rw [decimalText_length hw, decimal]
  split
  · next hzero =>
      rw [hzero]
      decide
  · exact le_rfl

theorem decimalText_eq_decimal_iff (b : Build) (num : BitVec b.xlen) :
    decimalText num = decimal num.toInt ↔ num ≠ 0 ∧ num ≠ BitVec.intMin b.xlen := by
  have hw : 8 ≤ b.xlen := by cases b <;> decide
  constructor
  · intro heq
    rw [← decimalText_isDecimal_iff, heq]
    exact decimal_isDecimal _
  · rintro ⟨hzero, hmin⟩
    have hvalue : num.toInt ≠ 0 := fun h =>
      hzero (BitVec.eq_of_toInt_eq (h.trans BitVec.toInt_zero.symm))
    rw [decimalText_eq hw hmin, if_neg hzero, decimal, if_neg hvalue]

namespace Piece

theorem text_length_le (b : Build) (piece : Piece b.xlen) :
    piece.text.length ≤ piece.rendering.length := by
  have hw : 8 ≤ b.xlen := by cases b <;> decide
  have hwidth : 32 ≤ b.xlen := by cases b <;> decide
  cases piece with
  | literal c visible other => exact le_rfl
  | conv v a takes =>
      cases v <;> cases a <;> try exact takes.elim
      case d.int v =>
        have hle := decimalText_length_le hw (v.signExtend b.xlen)
        rwa [BitVec.toInt_signExtend_of_le hwidth] at hle
      case ld.long v => exact decimalText_length_le hw v
      case x.int v => exact (congrArg List.length (hexText_int hwidth v)).le
      case lx.long v => exact (congrArg List.length (hexText_long b v)).le
      case p.long v =>
        exact Nat.succ_le_succ (Nat.succ_le_succ
          (congrArg List.length (hexText_long b v)).le)
      case s.str s => exact le_rfl
      case c.int v => exact le_rfl

theorem sound_iff (b : Build) (piece : Piece b.xlen) :
    piece.Sound ↔ piece.reads = piece.args.length ∧ piece.text = piece.rendering := by
  have hwidth : 32 ≤ b.xlen := by cases b <;> decide
  cases piece with
  | literal c visible other => exact ⟨fun _ => ⟨rfl, rfl⟩, fun _ => trivial⟩
  | conv v a takes =>
      cases v <;> cases a <;> try exact takes.elim
      case d.int v =>
        have hiff := decimalText_eq_decimal_iff b (v.signExtend b.xlen)
        rw [BitVec.toInt_signExtend_of_le hwidth, Ne, signExtend_eq_zero hwidth] at hiff
        exact hiff.symm.trans ⟨fun h => ⟨rfl, h⟩, And.right⟩
      case ld.long v =>
        have hiff := decimalText_eq_decimal_iff b v
        exact hiff.symm.trans ⟨fun h => ⟨rfl, h⟩, And.right⟩
      case x.int v => exact ⟨fun _ => ⟨rfl, hexText_int hwidth v⟩, fun _ => trivial⟩
      case lx.long v => exact ⟨fun _ => ⟨rfl, hexText_long b v⟩, fun _ => trivial⟩
      case p.long v =>
        have htext := congrArg (fun ds => char '0' :: char 'x' :: ds) (hexText_long b v)
        exact ⟨fun _ => ⟨rfl, htext⟩, fun _ => trivial⟩
      case s.str s => exact ⟨fun _ => ⟨rfl, rfl⟩, fun _ => trivial⟩
      case c.int v => exact ⟨False.elim, fun h => absurd h.1 Nat.zero_ne_one⟩

theorem reads_le (piece : Piece w) : piece.reads ≤ piece.args.length := by
  cases piece with
  | literal c visible other => exact le_rfl
  | conv v a takes => cases v <;> first | exact le_rfl | exact Nat.zero_le _

end Piece

/-! ## Formats -/

theorem eq_of_flatMap_eq {α β : Type} {f g : α → List β} {l : List α}
    (hle : ∀ a ∈ l, (f a).length ≤ (g a).length) (heq : l.flatMap f = l.flatMap g) :
    ∀ a ∈ l, f a = g a := by
  induction l with
  | nil => simp
  | cons a l ih =>
      have hhead := hle a (by simp)
      have htail : ∀ a' ∈ l, (f a').length ≤ (g a').length := fun a' ha' =>
        hle a' (by simp [ha'])
      have hsum : (l.flatMap f).length ≤ (l.flatMap g).length := by
        rw [List.length_flatMap, List.length_flatMap]
        exact List.sum_le_sum htail
      have htotal := congrArg List.length heq
      simp only [List.flatMap_cons, List.length_append] at htotal heq
      obtain ⟨hfirst, hrest⟩ := List.append_inj heq (by omega)
      intro a' ha'
      rcases List.mem_cons.mp ha' with rfl | ha'
      · exact hfirst
      · exact ih htail hrest a' ha'

theorem reads_eq_of_rest {l : List (Piece w)} (hw : 8 ≤ w) {rest : List (Arg w)}
    {out : Option Memory} {n : BitVec w} {r : Printed w}
    (hr : vsnprintf out n (Piece.format l) (l.flatMap Piece.args ++ rest) = some r)
    (hrest : r.args = rest) : ∀ piece ∈ l, piece.reads = piece.args.length := by
  obtain ⟨p, hrun, rfl⟩ := Option.map_eq_some_iff.mp hr
  have hcount := run_pieces_reads hw ⟨rfl, rfl⟩ l hrun
  have htotal : (l.map Piece.reads).sum = (l.map fun piece => piece.args.length).sum := by
    have hargs : p.args.length = rest.length := congrArg List.length hrest
    have hstart : (start out n (l.flatMap Piece.args ++ rest)).args.length =
        (l.map fun piece => piece.args.length).sum + rest.length := by
      rw [start, List.length_append, List.length_flatMap]
    omega
  intro piece hpiece
  by_contra hne
  have hlt := List.sum_lt_sum Piece.reads (fun piece => piece.args.length)
    (fun piece _ => piece.reads_le) ⟨piece, hpiece, lt_of_le_of_ne piece.reads_le hne⟩
  omega

/-- Every call of `_vsnprintf` for the pieces reads one argument for each conversion
and prints the renderings in their order. -/
def InStep (l : List (Piece w)) (rest : List (Arg w)) : Prop :=
  ∀ out n, ∃ r,
    vsnprintf out n (Piece.format l) (l.flatMap Piece.args ++ rest) = some r ∧
      r.args = rest ∧ r.text = l.flatMap Piece.rendering

theorem conversions_in_step_iff (b : Build) (l : List (Piece b.xlen))
    (rest : List (Arg b.xlen)) : InStep l rest ↔ ∀ piece ∈ l, piece.Sound := by
  have hw : 8 ≤ b.xlen := by cases b <;> decide
  constructor
  · intro hstep piece hpiece
    obtain ⟨r, hr, hargs, htext⟩ := hstep none 0
    have hreads := reads_eq_of_rest hw hr hargs
    obtain ⟨r', hr', htext', -⟩ := vsnprintf_pieces hw l hreads rest none 0
    obtain rfl : r = r' := Option.some.inj (hr.symm.trans hr')
    have heq := eq_of_flatMap_eq (fun piece _ => piece.text_length_le b)
      (htext'.symm.trans htext)
    exact (piece.sound_iff b).mpr ⟨hreads piece hpiece, heq piece hpiece⟩
  · intro hsound out n
    have hboth := fun piece hpiece => (Piece.sound_iff b piece).mp (hsound piece hpiece)
    obtain ⟨r, hr, htext, hargs⟩ :=
      vsnprintf_pieces hw l (fun piece hpiece => (hboth piece hpiece).1) rest out n
    refine ⟨r, hr, hargs, htext.trans ?_⟩
    exact List.flatMap_congr fun piece hpiece => (hboth piece hpiece).2

def charThenNumber : List (Piece 64) :=
  [.conv .c (.int 65) trivial, .conv .d (.int 7) trivial]

/-- The character is not printed, and its code is taken for the number behind it. -/
theorem char_taken_for_number : ¬InStep charThenNumber [] := by
  intro hstep
  obtain ⟨r, hr, -, htext⟩ := hstep none 0
  have hrun : (vsnprintf none 0 (Piece.format charThenNumber)
      (charThenNumber.flatMap Piece.args ++ [])).map Printed.text =
        some [char 'c', char '6', char '5'] := by
    decide +kernel
  rw [hr, Option.map_some, htext] at hrun
  have hletter : char 'A' = char 'c' := congrArg (·.headD 0) (Option.some.inj hrun)
  exact absurd hletter (by decide)

end XinOS.Printf
