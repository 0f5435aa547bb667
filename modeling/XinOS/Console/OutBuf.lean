import XinOS.Printf.Numbers

/-!
# `out_buf`: printf.c

All calls of `printf` share one buffer.  `_vsnprintf` assigns the characters of its text
and the null byte to it, each of them once, and `uart_puts` then reads them one by one;
nothing keeps another call from doing the same meanwhile.
-/

namespace XinOS.Console

open XinOS.Foundation
open XinOS.Printf (char outBufSize)

structure Line where
  bytes : List Byte
  visible : 0 ∉ bytes
  short : bytes.length + 1 < outBufSize

def assignments : Nat → List Byte → List (Nat × Byte)
  | pos, [] => [(pos, 0)]
  | pos, c :: l => (pos, c) :: assignments (pos + 1) l

def Line.writes (line : Line) : List (Nat × Byte) := assignments 0 line.bytes

def perform (m : Memory) (writes : List (Nat × Byte)) : Memory :=
  writes.foldl (fun m w => Function.update m w.1 w.2) m

def Spelt (m : Memory) : Nat → List Byte → Prop
  | pos, [] => m pos = 0
  | pos, c :: l => c ≠ 0 ∧ m pos = c ∧ Spelt m (pos + 1) l

theorem perform_of_notMem {m : Memory} {writes : List (Nat × Byte)} {i : Nat}
    (hi : ∀ w ∈ writes, w.1 ≠ i) : perform m writes i = m i := by
  induction writes generalizing m with
  | nil => rfl
  | cons w writes ih =>
      have hne : i ≠ w.1 := Ne.symm (hi w (by simp))
      exact (ih fun v hv => hi v (by simp [hv])).trans (Function.update_of_ne hne _ _)

theorem assignments_range {pos : Nat} {l : List Byte} {w : Nat × Byte}
    (hw : w ∈ assignments pos l) : pos ≤ w.1 ∧ w.1 ≤ pos + l.length := by
  induction l generalizing pos with
  | nil =>
      rw [List.mem_singleton.mp hw]
      exact ⟨le_rfl, le_rfl⟩
  | cons c l ih =>
      rcases List.mem_cons.mp hw with rfl | hw
      · exact ⟨le_rfl, by simp⟩
      · have hrange := ih hw
        simp only [List.length_cons]
        omega

theorem assignments_nodup (pos : Nat) (l : List Byte) :
    ((assignments pos l).map Prod.fst).Nodup := by
  induction l generalizing pos with
  | nil => simp [assignments]
  | cons c l ih =>
      refine List.nodup_cons.mpr ⟨fun hmem => ?_, ih (pos + 1)⟩
      obtain ⟨w, hw, hpos⟩ := List.mem_map.mp hmem
      have hrange := assignments_range hw
      dsimp only at hpos
      omega

theorem perform_spelt {m : Memory} {pos : Nat} {l : List Byte} (hl : 0 ∉ l) :
    Spelt (perform m (assignments pos l)) pos l := by
  induction l generalizing m pos with
  | nil => exact Function.update_self _ _ _
  | cons c l ih =>
      rw [List.mem_cons, not_or] at hl
      refine ⟨Ne.symm hl.1, ?_, ih hl.2⟩
      have hlater : ∀ w ∈ assignments (pos + 1) l, w.1 ≠ pos := by
        intro w hw
        have hrange := assignments_range hw
        omega
      exact (perform_of_notMem hlater).trans (Function.update_self _ _ _)

theorem perform_perm {m : Memory} {writes writes' : List (Nat × Byte)}
    (hperm : writes.Perm writes') (hnodup : (writes'.map Prod.fst).Nodup) :
    perform m writes = perform m writes' := by
  have hkeys : (writes.map Prod.fst).Nodup := (hperm.map Prod.fst).nodup_iff.mpr hnodup
  refine hperm.foldl_eq' (fun x hx y hy z => ?_) m
  by_cases hxy : x.1 = y.1
  · rw [List.inj_on_of_nodup_map hkeys hx hy hxy]
  · exact Function.update_comm hxy _ _ _

theorem Line.spelt (line : Line) {writes : List (Nat × Byte)} (m : Memory)
    (hperm : writes.Perm line.writes) : Spelt (perform m writes) 0 line.bytes := by
  rw [perform_perm hperm (assignments_nodup 0 line.bytes)]
  exact perform_spelt line.visible

/-- No assignment of a call reaches the last byte of the buffer. -/
theorem Line.writes_lt (line : Line) {w : Nat × Byte} (hw : w ∈ line.writes) :
    w.1 < outBufSize - 1 := by
  have hrange := assignments_range hw
  have hshort := line.short
  omega

/-! ## What `_vprintf` does to the buffer -/

theorem perform_assignments (m : Memory) (pos : Nat) (l : List Byte) (j : Nat) :
    perform m (assignments pos l) j =
      if pos ≤ j ∧ j < pos + l.length then l[j - pos]?.getD 0
      else if j = pos + l.length then 0
      else m j := by
  induction l generalizing m pos with
  | nil =>
      rw [if_neg (by simp)]
      exact Function.update_apply m pos 0 j
  | cons c l ih =>
      refine (ih (Function.update m pos c) (pos + 1)).trans ?_
      rw [List.length_cons, show pos + 1 + l.length = pos + (l.length + 1) by omega]
      by_cases hj : j = pos
      · subst hj
        rw [if_neg (by omega), if_neg (by omega), if_pos (by omega), Nat.sub_self,
          Function.update_self]
        rfl
      · rw [Function.update_of_ne hj]
        by_cases hin : pos + 1 ≤ j ∧ j < pos + (l.length + 1)
        · rw [if_pos hin, if_pos (by omega), show j - pos = j - (pos + 1) + 1 by omega,
            List.getElem?_cons_succ]
        · rw [if_neg hin, if_neg (by omega : ¬(pos ≤ j ∧ j < pos + (l.length + 1)))]

section

open Printf

variable {w : Nat}

theorem vprintf_line (hw : 32 ≤ w) {s : CString} {args : List (Arg w)}
    {out₀ : Option Memory} {n₀ : BitVec w} {r : Printed w}
    (hdefined : vsnprintf out₀ n₀ s args = some r)
    (hroom : r.text.length + 1 < outBufSize) (outBuf : Memory) :
    ∃ line : Line, line.bytes = r.text ∧
      vprintf outBuf s args = some (.sent line.bytes (perform outBuf line.writes)) := by
  obtain ⟨p, -, hemits, -⟩ := run_start (by omega) hdefined none 0
  refine ⟨⟨r.text, hemits.visible, hroom⟩, rfl, ?_⟩
  have hlen : r.text.length < 2 ^ 31 := by
    unfold outBufSize at hroom
    omega
  rw [vprintf_eq hw hdefined hlen, if_pos hroom]
  congr 2
  funext j
  rw [Line.writes, perform_assignments, truncated]
  simp only [Nat.zero_le, Nat.zero_add, true_and, Nat.sub_zero, Nat.add_sub_cancel,
    Nat.min_self, Nat.add_lt_add_iff_right, and_self]
  simp

theorem countDigits_le (fuel : Nat) (i : BitVec w) : countDigits fuel i ≤ fuel := by
  induction fuel generalizing i with
  | zero => exact le_rfl
  | succ fuel ih =>
      rw [countDigits]
      split_ifs
      · exact Nat.zero_le _
      · exact Nat.succ_le_succ (ih _)

theorem decimalText_length_le_width (num : BitVec w) :
    (decimalText num).length ≤ w + 1 := by
  rw [decimalText]
  split_ifs
  · rw [List.length_cons, digitChars_length]
    exact Nat.succ_le_succ (countDigits_le _ _)
  · rw [digitChars_length]
    exact (countDigits_le _ _).trans (Nat.le_succ w)

def literals (l : List Byte) (hl : ∀ c ∈ l, c ≠ 0 ∧ c ≠ char '%') : List (Piece w) :=
  l.attach.map fun c => .literal c.1 (hl c.1 c.2).1 (hl c.1 c.2).2

section Literals

variable (l : List Byte) (hl : ∀ c ∈ l, c ≠ 0 ∧ c ≠ char '%')

theorem literals_bytes : (literals l hl : List (Piece w)).flatMap Piece.bytes = l := by
  rw [literals, List.flatMap_map]
  exact List.map_eq_flatMap.symm.trans (List.attach_map_subtype_val l)

theorem literals_text : (literals l hl : List (Piece w)).flatMap Piece.text = l := by
  rw [literals, List.flatMap_map]
  exact List.map_eq_flatMap.symm.trans (List.attach_map_subtype_val l)

theorem literals_args : (literals l hl : List (Piece w)).flatMap Piece.args = [] := by
  rw [literals, List.flatMap_map]
  exact List.flatMap_eq_nil_iff.mpr fun _ _ => rfl

theorem literals_reads {piece : Piece w} (hpiece : piece ∈ literals l hl) :
    piece.reads = piece.args.length := by
  obtain ⟨c, -, rfl⟩ := List.mem_map.mp hpiece
  rfl

end Literals

/-! ## The message about an unexpected source -/

def beforeIrq : List Byte := "unexpected interrupt irq = ".toList.map char

def afterIrq : List Byte := [char '\n']

def unexpectedFormat : CString where
  bytes := beforeIrq ++ Conv.d.bytes ++ afterIrq
  nonzero := by decide

/-- What `printf(unexpectedFormat, irq)` puts out. -/
def unexpectedText (b : Build) (irq : CInt) : Line where
  bytes := beforeIrq ++ decimalText (irq.signExtend b.xlen) ++ afterIrq
  visible := by
    have hw : 8 ≤ b.xlen := by cases b <;> decide
    have hdigits : 0 ∉ decimalText (irq.signExtend b.xlen) :=
      (printDecimal_emits hw _ (start none 0 [])).visible
    have hends : 0 ∉ beforeIrq ∧ 0 ∉ afterIrq := by decide
    simp only [List.mem_append, not_or]
    exact ⟨⟨hends.1, hdigits⟩, hends.2⟩
  short := by
    have hdigits := decimalText_length_le_width (irq.signExtend b.xlen)
    have hw : b.xlen ≤ 64 := by cases b <;> decide
    have hends : beforeIrq.length = 27 ∧ afterIrq.length = 1 := by decide
    rw [List.length_append, List.length_append, hends.1, hends.2]
    unfold outBufSize
    omega

theorem vprintf_unexpected (b : Build) (irq : CInt) (outBuf : Memory) :
    vprintf (w := b.xlen) outBuf unexpectedFormat [.int irq] =
      some (.sent (unexpectedText b irq).bytes
        (perform outBuf (unexpectedText b irq).writes)) := by
  have hw : 32 ≤ b.xlen := by cases b <;> decide
  have hbefore : ∀ c ∈ beforeIrq, c ≠ 0 ∧ c ≠ char '%' := by decide
  have hafter : ∀ c ∈ afterIrq, c ≠ 0 ∧ c ≠ char '%' := by decide
  let number : Piece b.xlen := .conv .d (.int irq) trivial
  let pieces := literals beforeIrq hbefore ++ number :: literals afterIrq hafter
  have hreads : ∀ piece ∈ pieces, piece.reads = piece.args.length := by
    intro piece hpiece
    rcases List.mem_append.mp hpiece with hpiece | hpiece
    · exact literals_reads _ _ hpiece
    · rcases List.mem_cons.mp hpiece with rfl | hpiece
      · rfl
      · exact literals_reads _ _ hpiece
  obtain ⟨r, hdefined, htext, -⟩ :=
    vsnprintf_pieces (by omega) pieces hreads [] none 0
  have hformat : Piece.format pieces = unexpectedFormat := by
    simp only [Piece.format, pieces, List.flatMap_append, List.flatMap_cons,
      literals_bytes, unexpectedFormat, List.append_assoc]
    rfl
  have hargs : pieces.flatMap Piece.args ++ [] = [.int irq] := by
    simp only [pieces, List.flatMap_append, List.flatMap_cons, literals_args]
    rfl
  have htext' : r.text = (unexpectedText b irq).bytes := by
    rw [htext]
    simp only [pieces, List.flatMap_append, List.flatMap_cons, literals_text,
      unexpectedText, List.append_assoc]
    rfl
  rw [hformat, hargs] at hdefined
  obtain ⟨line, hline, hcall⟩ := vprintf_line hw hdefined
    (htext' ▸ (unexpectedText b irq).short) outBuf
  obtain rfl : line = unexpectedText b irq := by
    obtain ⟨bytes, _, _⟩ := line
    cases hline.trans htext'
    rfl
  exact hcall

end

end XinOS.Console
