import XinOS.Printf.Buffer

/-!
# Formats made of literals and conversions

A format of the seven conversions that `_vsnprintf` knows is a list of pieces, each
conversion with its argument.  Between two pieces the parser is in its first state.
-/

namespace XinOS.Printf

open XinOS.Foundation

variable {w : Nat} {p p' : Printer w} {rest : List (Arg w)}

inductive Conv where
  | d
  | ld
  | x
  | lx
  | p
  | s
  | c
  deriving DecidableEq, Repr

def Conv.bytes : Conv → List Byte
  | .d => [char '%', char 'd']
  | .ld => [char '%', char 'l', char 'd']
  | .x => [char '%', char 'x']
  | .lx => [char '%', char 'l', char 'x']
  | .p => [char '%', char 'p']
  | .s => [char '%', char 's']
  | .c => [char '%', char 'c']

theorem Conv.bytes_visible (v : Conv) : 0 ∉ v.bytes := by
  cases v <;> decide

/-- The conversion is for an argument of this type; a character is passed as an
`int`. -/
def Conv.Takes : Conv → Arg w → Prop
  | .d, .int _ => True
  | .x, .int _ => True
  | .c, .int _ => True
  | .ld, .long _ => True
  | .lx, .long _ => True
  | .p, .long _ => True
  | .s, .str _ => True
  | _, _ => False

/-- A part of a format; a literal is any character but `%`. -/
inductive Piece (w : Nat) where
  | literal (c : Byte) (visible : c ≠ 0) (other : c ≠ char '%')
  | conv (v : Conv) (a : Arg w) (takes : v.Takes a)

namespace Piece

def bytes : Piece w → List Byte
  | .literal c _ _ => [c]
  | .conv v _ _ => v.bytes

def args : Piece w → List (Arg w)
  | .literal _ _ _ => []
  | .conv _ a _ => [a]

def text : Piece w → List Byte
  | .literal c _ _ => [c]
  | .conv .d (.int v) _ => decimalText (v.signExtend w)
  | .conv .ld (.long v) _ => decimalText v
  | .conv .x (.int v) _ => hexText 8 (v.signExtend w)
  | .conv .lx (.long v) _ => hexText (2 * (w / 8)) v
  | .conv .p (.long v) _ => char '0' :: char 'x' :: hexText (2 * (w / 8)) v
  | .conv .s (.str s) _ => s.bytes
  | .conv .c _ _ => [char 'c']
  | .conv _ _ _ => []

def reads : Piece w → Nat
  | .literal _ _ _ => 0
  | .conv .c _ _ => 0
  | .conv _ _ _ => 1

end Piece

/-! ## One conversion -/

def Printer.AtText (p : Printer w) : Prop := p.format = false ∧ p.longarg = false

theorem run_append (p : Printer w) (s s' : List Byte) :
    run p (s ++ s') = (run p s).bind (run · s') := by
  simp only [run, List.foldlM_append]
  rfl

theorem run_cons (p : Printer w) (c : Byte) (s : List Byte) :
    run p (c :: s) = (step p c).bind (run · s) := by
  simp only [run, List.foldlM_cons]
  rfl

theorem run_single (p : Printer w) (c : Byte) : run p [c] = step p c := by
  rw [run_cons]
  cases step p c <;> rfl

theorem run_percent (hformat : p.format = false) (s : List Byte) :
    run p (char '%' :: s) = run { p with format := true } s := by
  rw [run_cons, step, if_neg (by simp [hformat]), if_pos rfl]
  rfl

section Step

variable (hformat : p.format = true)
include hformat

theorem step_d :
    step p (char 'd') = p.takeNumber.map fun r => printDecimal r.1 r.2 := by
  rw [step, if_pos hformat, if_pos rfl]

theorem step_l : step p (char 'l') = some { p with longarg := true } := by
  rw [step, if_pos hformat, if_neg (by decide), if_pos rfl]

theorem step_p : step p (char 'p') =
    printHex ((({ p with longarg := true }).emit (char '0')).emit (char 'x')) := by
  rw [step, if_pos hformat, if_neg (by decide), if_neg (by decide), if_pos rfl]

theorem step_x : step p (char 'x') = printHex p := by
  rw [step, if_pos hformat, if_neg (by decide), if_neg (by decide),
    if_neg (by decide), if_pos rfl]

theorem step_s : step p (char 's') = printString p := by
  rw [step, if_pos hformat, if_neg (by decide), if_neg (by decide),
    if_neg (by decide), if_neg (by decide), if_pos rfl]

theorem step_c : step p (char 'c') = some (p.emit (char 'c')).close := by
  rw [step, if_pos hformat, if_neg (by decide), if_neg (by decide),
    if_neg (by decide), if_neg (by decide), if_neg (by decide), if_pos rfl]

end Step

structure Prints (p : Printer w) (l : List Byte) (args : List (Arg w))
    (p' : Printer w) : Prop where
  text : p'.text = p.text ++ l
  args : p'.args = args
  atText : p'.AtText

theorem printDecimal_prints (hw : 8 ≤ w) (num : BitVec w) (p : Printer w) :
    Prints p (decimalText num) p.args (printDecimal num p) := by
  have hdigits : ∀ (num : BitVec w) (q : Printer w),
      (printDigits num q).args = q.args := fun num q => by
    obtain ⟨out, heq, -⟩ := writeDigits_eq (countDigits w num) num q []
    rw [printDigits, heq]
  refine ⟨(printDecimal_emits hw num p).text, ?_, ?_⟩
  · unfold printDecimal
    split
    · exact hdigits _ _
    · exact hdigits _ _
  · unfold printDecimal
    split <;> exact ⟨rfl, rfl⟩

theorem printHexDigits_args (i : Nat) (num : BitVec w) (p : Printer w) :
    (printHexDigits i num p).args = p.args := by
  induction i generalizing p with
  | zero => rfl
  | succ i ih => exact ih _

theorem emitAll_args (p : Printer w) (l : List Byte) :
    (p.emitAll l).args = p.args := by
  induction l generalizing p with
  | nil => rfl
  | cons c l ih => exact ih _

theorem emitAll_text (p : Printer w) (l : List Byte) :
    (p.emitAll l).text = p.text ++ l := by
  induction l generalizing p with
  | nil => exact (List.append_nil _).symm
  | cons c l ih =>
      refine (ih (p.emit c)).trans ?_
      exact List.append_assoc p.text [c] l

theorem printHex_prints (hw : 8 ≤ w) {num : BitVec w} {q : Printer w}
    (h : p.takeNumber = some (num, q)) :
    ∃ p', printHex p = some p' ∧
      Prints p (hexText (2 * if p.longarg then w / 8 else 4) num) q.args p' := by
  refine ⟨(printHexDigits (2 * if p.longarg then w / 8 else 4) num q).close, ?_, ?_,
    printHexDigits_args _ _ q, rfl, rfl⟩
  · rw [printHex, h]
    rfl
  have htext := (takeNumber_emits h).text
  rw [List.append_nil] at htext
  rw [← htext]
  exact (printHexDigits_emits hw _ num q).text

theorem takeNumber_int (hlong : p.longarg = false) {v : CInt}
    (hargs : p.args = .int v :: rest) :
    p.takeNumber = some (v.signExtend w, { p with args := rest }) := by
  simp only [Printer.takeNumber, hlong, hargs]

theorem takeNumber_long (hlong : p.longarg = true) {v : BitVec w}
    (hargs : p.args = .long v :: rest) :
    p.takeNumber = some (v, { p with args := rest }) := by
  simp only [Printer.takeNumber, hlong, hargs]

section Conversions

variable (hw : 8 ≤ w) (hp : p.AtText)
include hp

theorem run_c : ∃ p', run p Conv.c.bytes = some p' ∧
    Prints p [char 'c'] p.args p' := by
  refine ⟨(({ p with format := true }).emit (char 'c')).close, ?_, rfl, rfl, rfl, rfl⟩
  rw [Conv.bytes, run_percent hp.1, run_single, step_c rfl]

theorem run_s {s : CString} (hargs : p.args = .str s :: rest) :
    ∃ p', run p Conv.s.bytes = some p' ∧ Prints p s.bytes rest p' := by
  refine ⟨((({ p with format := true, args := rest }).emitAll s.bytes)).close, ?_,
    emitAll_text _ _, emitAll_args _ _, rfl, rfl⟩
  rw [Conv.bytes, run_percent hp.1, run_single, step_s rfl]
  simp only [printString, hargs]

include hw

theorem run_d {v : CInt} (hargs : p.args = .int v :: rest) :
    ∃ p', run p Conv.d.bytes = some p' ∧
      Prints p (decimalText (v.signExtend w)) rest p' := by
  have htake := takeNumber_int (p := { p with format := true }) hp.2 hargs
  obtain ⟨htext, hrest, hat⟩ := printDecimal_prints hw (v.signExtend w)
    { p with format := true, args := rest }
  refine ⟨_, ?_, htext, hrest, hat⟩
  rw [Conv.bytes, run_percent hp.1, run_single, step_d rfl, htake]
  rfl

theorem run_ld {v : BitVec w} (hargs : p.args = .long v :: rest) :
    ∃ p', run p Conv.ld.bytes = some p' ∧ Prints p (decimalText v) rest p' := by
  have htake := takeNumber_long (p := { p with format := true, longarg := true })
    rfl hargs
  obtain ⟨htext, hrest, hat⟩ := printDecimal_prints hw v
    { p with format := true, longarg := true, args := rest }
  refine ⟨_, ?_, htext, hrest, hat⟩
  rw [Conv.bytes, run_percent hp.1, run_cons, step_l rfl, Option.bind_some,
    run_single, step_d rfl, htake]
  rfl

theorem run_x {v : CInt} (hargs : p.args = .int v :: rest) :
    ∃ p', run p Conv.x.bytes = some p' ∧
      Prints p (hexText 8 (v.signExtend w)) rest p' := by
  have htake := takeNumber_int (p := { p with format := true }) hp.2 hargs
  obtain ⟨p', hhex, htext, hrest, hat⟩ := printHex_prints hw htake
  rw [if_neg (by simp [hp.2])] at htext
  refine ⟨p', ?_, htext, hrest, hat⟩
  rw [Conv.bytes, run_percent hp.1, run_single, step_x rfl, hhex]

theorem run_lx {v : BitVec w} (hargs : p.args = .long v :: rest) :
    ∃ p', run p Conv.lx.bytes = some p' ∧
      Prints p (hexText (2 * (w / 8)) v) rest p' := by
  have htake := takeNumber_long (p := { p with format := true, longarg := true })
    rfl hargs
  obtain ⟨p', hhex, htext, hrest, hat⟩ := printHex_prints hw htake
  refine ⟨p', ?_, htext, hrest, hat⟩
  rw [Conv.bytes, run_percent hp.1, run_cons, step_l rfl, Option.bind_some,
    run_single, step_x rfl, hhex]

theorem run_p {v : BitVec w} (hargs : p.args = .long v :: rest) :
    ∃ p', run p Conv.p.bytes = some p' ∧
      Prints p (char '0' :: char 'x' :: hexText (2 * (w / 8)) v) rest p' := by
  have hprefix : ((({ p with format := true, longarg := true }).emit
      (char '0')).emit (char 'x')).args = .long v :: rest := hargs
  have htake := takeNumber_long rfl hprefix
  obtain ⟨p', hhex, htext, hrest, hat⟩ := printHex_prints hw htake
  refine ⟨p', ?_, htext.trans ?_, hrest, hat⟩
  · rw [Conv.bytes, run_percent hp.1, run_single, step_p rfl, hhex]
  · show p.text ++ [char '0'] ++ [char 'x'] ++ _ = _
    rw [List.append_assoc, List.append_assoc]
    rfl

end Conversions

theorem run_piece (hw : 8 ≤ w) (hp : p.AtText) (piece : Piece w)
    (hargs : p.args = piece.args ++ rest) :
    ∃ p', run p piece.bytes = some p' ∧
      Prints p piece.text (p.args.drop piece.reads) p' := by
  have hrest : ∀ a, p.args = a :: rest → p.args.drop 1 = rest := fun a h => by
    rw [h]
    rfl
  cases piece with
  | literal c visible other =>
      refine ⟨p.emit c, ?_, rfl, rfl, hp⟩
      rw [Piece.bytes, run_single, step, if_neg (by simp [hp.1]), if_neg other]
  | conv v a takes =>
      rw [Piece.args, List.singleton_append] at hargs
      cases v <;> cases a <;> first | exact takes.elim | skip
      case d.int v => exact hrest _ hargs ▸ run_d hw hp hargs
      case ld.long v => exact hrest _ hargs ▸ run_ld hw hp hargs
      case x.int v => exact hrest _ hargs ▸ run_x hw hp hargs
      case lx.long v => exact hrest _ hargs ▸ run_lx hw hp hargs
      case p.long v => exact hrest _ hargs ▸ run_p hw hp hargs
      case s.str s => exact hrest _ hargs ▸ run_s hp hargs
      case c.int v => exact run_c hp

/-! ## What a conversion reads -/

theorem printHex_reads (h : printHex p = some p') :
    p'.AtText ∧ p'.args.length + 1 = p.args.length := by
  obtain ⟨⟨num, q⟩, hq, rfl⟩ := Option.map_eq_some_iff.mp h
  obtain ⟨a, args, hargs, rfl⟩ := takeNumber_some hq
  refine ⟨⟨rfl, rfl⟩, ?_⟩
  show (printHexDigits _ _ _).args.length + 1 = _
  rw [printHexDigits_args, hargs, List.length_cons]

theorem printString_reads (h : printString p = some p') :
    p'.AtText ∧ p'.args.length + 1 = p.args.length := by
  unfold printString at h
  split at h
  · rename_i s args hargs
    cases h
    refine ⟨⟨rfl, rfl⟩, ?_⟩
    show (Printer.emitAll _ _).args.length + 1 = _
    rw [emitAll_args, hargs, List.length_cons]
  · cases h

theorem printDecimal_reads (hw : 8 ≤ w)
    (h : (p.takeNumber.map fun r => printDecimal r.1 r.2) = some p') :
    p'.AtText ∧ p'.args.length + 1 = p.args.length := by
  obtain ⟨⟨num, q⟩, hq, rfl⟩ := Option.map_eq_some_iff.mp h
  obtain ⟨a, args, hargs, rfl⟩ := takeNumber_some hq
  have hprints := printDecimal_prints hw num { p with args := args }
  refine ⟨hprints.atText, ?_⟩
  rw [hprints.args, hargs, List.length_cons]

/-- Whatever the arguments are, a piece reads as many of them as it does when they
match. -/
theorem run_piece_reads (hw : 8 ≤ w) (hp : p.AtText) (piece : Piece w)
    (h : run p piece.bytes = some p') :
    p'.AtText ∧ p'.args.length + piece.reads = p.args.length := by
  cases piece with
  | literal c visible other =>
      rw [Piece.bytes, run_single, step, if_neg (by simp [hp.1]), if_neg other] at h
      cases h
      exact ⟨hp, rfl⟩
  | conv v a takes =>
      simp only [Piece.bytes] at h
      cases v with
      | d =>
          rw [Conv.bytes, run_percent hp.1, run_single, step_d rfl] at h
          have hread := printDecimal_reads hw h
          exact hread
      | ld =>
          rw [Conv.bytes, run_percent hp.1, run_cons, step_l rfl, Option.bind_some,
            run_single, step_d rfl] at h
          have hread := printDecimal_reads hw h
          exact hread
      | x =>
          rw [Conv.bytes, run_percent hp.1, run_single, step_x rfl] at h
          have hread := printHex_reads h
          exact hread
      | lx =>
          rw [Conv.bytes, run_percent hp.1, run_cons, step_l rfl, Option.bind_some,
            run_single, step_x rfl] at h
          have hread := printHex_reads h
          exact hread
      | p =>
          rw [Conv.bytes, run_percent hp.1, run_single, step_p rfl] at h
          have hread := printHex_reads h
          exact hread
      | s =>
          rw [Conv.bytes, run_percent hp.1, run_single, step_s rfl] at h
          have hread := printString_reads h
          exact hread
      | c =>
          rw [Conv.bytes, run_percent hp.1, run_single, step_c rfl] at h
          cases h
          exact ⟨⟨rfl, rfl⟩, rfl⟩

/-! ## Whole formats -/

namespace Piece

theorem bytes_visible (piece : Piece w) : 0 ∉ piece.bytes := by
  cases piece with
  | literal c visible other => simpa [bytes] using visible.symm
  | conv v a takes => exact v.bytes_visible

def format (l : List (Piece w)) : CString where
  bytes := l.flatMap bytes
  nonzero := by
    simp only [List.mem_flatMap, not_exists, not_and]
    exact fun piece _ => piece.bytes_visible

end Piece

theorem run_pieces (hw : 8 ≤ w) (hp : p.AtText) (l : List (Piece w))
    (hreads : ∀ piece ∈ l, piece.reads = piece.args.length)
    (hargs : p.args = l.flatMap Piece.args ++ rest) :
    ∃ p', run p (Piece.format l).bytes = some p' ∧
      Prints p (l.flatMap Piece.text) rest p' := by
  simp only [Piece.format]
  induction l generalizing p with
  | nil => exact ⟨p, rfl, (List.append_nil _).symm, hargs, hp⟩
  | cons piece l ih =>
      rw [List.flatMap_cons, List.append_assoc] at hargs
      obtain ⟨q, hrun, htext, hrest, hat⟩ := run_piece hw hp piece hargs
      rw [hargs, hreads piece (by simp), List.drop_left] at hrest
      obtain ⟨p', hrun', htext', hrest', hat'⟩ :=
        ih hat (fun r hr => hreads r (by simp [hr])) hrest
      refine ⟨p', ?_, ?_, hrest', hat'⟩
      · rw [List.flatMap_cons, run_append, hrun]
        exact hrun'
      · rw [htext', htext, List.append_assoc, List.flatMap_cons]

theorem run_pieces_reads (hw : 8 ≤ w) (hp : p.AtText) (l : List (Piece w))
    (h : run p (Piece.format l).bytes = some p') :
    p'.args.length + (l.map Piece.reads).sum = p.args.length := by
  simp only [Piece.format] at h
  induction l generalizing p with
  | nil =>
      cases h
      rfl
  | cons piece l ih =>
      rw [List.flatMap_cons, run_append] at h
      obtain ⟨q, hrun, hrest⟩ := Option.bind_eq_some_iff.mp h
      obtain ⟨hat, hread⟩ := run_piece_reads hw hp piece hrun
      have := ih hat hrest
      rw [List.map_cons, List.sum_cons]
      omega

end XinOS.Printf
