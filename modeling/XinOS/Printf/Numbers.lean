import XinOS.Printf.Bounds

/-!
# Numbers that decode back

Hexadecimal numbers always do.  The loop of `%d` that counts the digits finds none
in 0, and the most negative `long` stays negative when its sign is changed.
-/

namespace XinOS.Printf

open XinOS.Foundation

variable {w : Nat}

/-! ## Numerals -/

def IsDigit (c : Byte) : Prop := 48 ≤ c.toNat ∧ c.toNat ≤ 57

def decimalValue (ds : List Byte) : Nat :=
  Nat.ofDigits 10 (ds.reverse.map fun c => c.toNat - 48)

structure Numeral (ds : List Byte) : Prop where
  digits : ∀ c ∈ ds, IsDigit c
  nonempty : ds ≠ []
  leading : ds.head? = some (char '0') → ds = [char '0']

def IsDecimal (text : List Byte) (v : Int) : Prop :=
  ∃ ds, Numeral ds ∧
    (text = ds ∧ v = decimalValue ds ∨
      text = char '-' :: ds ∧ v = -decimalValue ds)

def IsHexDigit (c : Byte) : Prop :=
  IsDigit c ∨ 97 ≤ c.toNat ∧ c.toNat ≤ 102

def hexValue (c : Byte) : Nat := if c.toNat ≤ 57 then c.toNat - 48 else c.toNat - 87

structure IsHex (text : List Byte) (k v : Nat) : Prop where
  length : text.length = k
  digits : ∀ c ∈ text, IsHexDigit c
  value : Nat.ofDigits 16 (text.reverse.map hexValue) = v

/-! ## Decimal digits -/

def digit (d : Nat) : Byte := BitVec.ofNat 8 (48 + d)

theorem digit_toNat {d : Nat} (hd : d < 10) : (digit d).toNat = 48 + d := by
  rw [digit, BitVec.toNat_ofNat, Nat.mod_eq_of_lt (by omega)]

def numeral (n : Nat) : List Byte := (Nat.digits 10 n).reverse.map digit

theorem numeral_value (n : Nat) : decimalValue (numeral n) = n := by
  have hback : (numeral n).reverse.map (fun c => c.toNat - 48) = Nat.digits 10 n := by
    rw [numeral, ← List.map_reverse, List.reverse_reverse, List.map_map]
    refine (List.map_congr_left fun d hd => ?_).trans (List.map_id _)
    have hlt := Nat.digits_lt_base (by decide) hd
    show (digit d).toNat - 48 = d
    rw [digit_toNat hlt, Nat.add_sub_cancel_left]
  rw [decimalValue, hback, Nat.ofDigits_digits]

theorem numeral_numeral {n : Nat} (hn : n ≠ 0) : Numeral (numeral n) where
  digits := fun c hc => by
    obtain ⟨d, hd, rfl⟩ := List.mem_map.mp hc
    have hlt := Nat.digits_lt_base (by decide) (List.mem_reverse.mp hd)
    rw [IsDigit, digit_toNat hlt]
    omega
  nonempty := by
    simpa [numeral, Nat.digits_ne_nil_iff_ne_zero] using hn
  leading := fun hhead => by
    have hne : Nat.digits 10 n ≠ [] := Nat.digits_ne_nil_iff_ne_zero.mpr hn
    have hlast := Nat.getLast_digit_ne_zero 10 hn
    have hlt := Nat.digits_lt_base (by decide) (List.getLast_mem hne)
    rw [numeral, List.head?_map, List.head?_reverse, List.getLast?_eq_some_getLast hne,
      Option.map_some] at hhead
    have hzero := congrArg BitVec.toNat (Option.some.inj hhead)
    rw [digit_toNat hlt, show (char '0').toNat = 48 by decide] at hzero
    omega

theorem countDigits_eq (hw : 8 ≤ w) {fuel : Nat} {i : BitVec w}
    (hfuel : i.toInt.natAbs < 10 ^ fuel) :
    countDigits fuel i = (Nat.digits 10 i.toInt.natAbs).length := by
  induction fuel generalizing i with
  | zero =>
      have hzero : i.toInt.natAbs = 0 := by omega
      rw [hzero]
      rfl
  | succ fuel ih =>
      rw [countDigits]
      by_cases hi : i = 0
      · rw [if_pos hi, hi]
        simp
      · have hne : i.toInt.natAbs ≠ 0 := by
          rw [Ne, Int.natAbs_eq_zero]
          exact fun h => hi (BitVec.eq_of_toInt_eq (h.trans BitVec.toInt_zero.symm))
        have hdiv : (i.sdiv 10).toInt.natAbs = i.toInt.natAbs / 10 := by
          rw [toInt_div_ten hw, Int.natAbs_tdiv]
          rfl
        rw [if_neg hi, ih (by rw [hdiv]; rw [pow_succ] at hfuel; omega), hdiv,
          Nat.digits_def' (by decide) (by omega : 0 < i.toInt.natAbs),
          List.length_cons]

theorem natAbs_lt_pow (num : BitVec w) (hw : 8 ≤ w) :
    num.toInt.natAbs < 10 ^ w := by
  have hlo := BitVec.le_toInt num
  have hhi := BitVec.toInt_lt (x := num)
  have hpow : 2 ^ (w - 1) < 10 ^ w :=
    (Nat.pow_le_pow_right (by decide) (Nat.sub_le w 1)).trans_lt
      (Nat.pow_lt_pow_left (by decide) (by omega))
  have hle : (num.toInt.natAbs : Int) ≤ 2 ^ (w - 1) := by omega
  exact (Int.ofNat_le.mp (by exact_mod_cast hle)).trans_lt hpow

theorem digitChars_eq (hw : 8 ≤ w) {num : BitVec w} (hnum : 0 ≤ num.toInt) {k : Nat}
    (hk : k = (Nat.digits 10 num.toInt.natAbs).length) :
    digitChars k num = numeral num.toInt.natAbs := by
  induction k generalizing num with
  | zero =>
      rw [numeral, List.length_eq_zero_iff.mp hk.symm]
      rfl
  | succ k ih =>
      have hne : num.toInt.natAbs ≠ 0 := by
        intro h
        rw [h] at hk
        simp at hk
      have hdigits := Nat.digits_def' (b := 10) (by decide)
        (by omega : 0 < num.toInt.natAbs)
      have hdiv : (num.sdiv 10).toInt = num.toInt.tdiv 10 := toInt_div_ten hw num
      have hnext : (num.sdiv 10).toInt.natAbs = num.toInt.natAbs / 10 := by
        rw [hdiv, Int.natAbs_tdiv]
        rfl
      have hchar : digitChar num = digit (num.toInt.natAbs % 10) := by
        have htoNat := digitChar_toNat hw num
        rw [Int.tmod_eq_emod_of_nonneg hnum] at htoNat
        apply BitVec.eq_of_toNat_eq
        rw [digit_toNat (by omega)]
        omega
      rw [digitChars, ih (by rw [hdiv]; exact Int.tdiv_nonneg hnum (by decide))
        (by rw [hnext]; rw [hdigits] at hk; simpa using hk), hnext, hchar, numeral,
        numeral, hdigits, List.reverse_cons, List.map_append]
      rfl

/-! ## What `%d` prints -/

def signed (v : Int) : List Byte :=
  if v < 0 then char '-' :: numeral v.natAbs else numeral v.natAbs

theorem signed_isDecimal {v : Int} (hv : v ≠ 0) : IsDecimal (signed v) v := by
  have hnumeral := numeral_numeral (Int.natAbs_ne_zero.mpr hv)
  refine ⟨numeral v.natAbs, hnumeral, ?_⟩
  rw [signed, numeral_value]
  split
  · exact .inr ⟨rfl, by omega⟩
  · exact .inl ⟨rfl, by omega⟩

theorem slt_zero_iff (num : BitVec w) : num.slt 0 = true ↔ num.toInt < 0 := by
  rw [BitVec.slt_iff_toInt_lt, BitVec.ofNat_eq_ofNat, BitVec.toInt_zero]

theorem decimalText_eq (hw : 8 ≤ w) {num : BitVec w} (hmin : num ≠ BitVec.intMin w) :
    decimalText num = if num = 0 then [] else signed num.toInt := by
  have hchars : ∀ v : BitVec w, 0 ≤ v.toInt →
      digitChars (countDigits w v) v = numeral v.toInt.natAbs := fun v hv =>
    digitChars_eq hw hv (countDigits_eq hw (natAbs_lt_pow v hw))
  have hneg := BitVec.toInt_neg_of_ne_intMin hmin
  unfold decimalText signed
  simp only [slt_zero_iff]
  by_cases hzero : num = 0
  · subst hzero
    rw [if_pos rfl, BitVec.ofNat_eq_ofNat, BitVec.toInt_zero, if_neg (by decide),
      hchars _ (by rw [BitVec.toInt_zero]), BitVec.toInt_zero]
    rfl
  · rw [if_neg hzero]
    split
    · rw [hchars _ (by rw [hneg]; omega), hneg, Int.natAbs_neg]
    · exact hchars _ (by omega)

/-- Its last digit has the value -8: the character is a parenthesis. -/
theorem decimalText_intMin (b : Build) :
    ∃ front, decimalText (BitVec.intMin b.xlen) = front ++ [40] := by
  have hlast : digitChar (BitVec.intMin b.xlen) = 40 := by
    cases b <;> decide +kernel
  have hneg : (BitVec.intMin b.xlen).slt 0 = true := by cases b <;> decide +kernel
  obtain ⟨k, hk⟩ : ∃ k, countDigits b.xlen (BitVec.intMin b.xlen) = k + 1 := by
    cases b
    · exact ⟨9, by decide +kernel⟩
    · exact ⟨18, by decide +kernel⟩
  rw [decimalText, if_pos hneg, BitVec.neg_intMin, hk, digitChars, hlast]
  exact ⟨_, (List.cons_append ..).symm⟩

theorem IsDecimal.char_eq {text : List Byte} {v : Int} (h : IsDecimal text v)
    {c : Byte} (hc : c ∈ text) : c = char '-' ∨ IsDigit c := by
  obtain ⟨ds, hds, ⟨rfl, -⟩ | ⟨rfl, -⟩⟩ := h
  · exact .inr (hds.digits c hc)
  · rcases List.mem_cons.mp hc with rfl | hc
    · exact .inl rfl
    · exact .inr (hds.digits c hc)

theorem decimalText_isDecimal_iff (b : Build) (num : BitVec b.xlen) :
    IsDecimal (decimalText num) num.toInt ↔
      num ≠ 0 ∧ num ≠ BitVec.intMin b.xlen := by
  have hw : 8 ≤ b.xlen := by cases b <;> decide
  constructor
  · intro hdecimal
    constructor
    · rintro rfl
      have hmin : (0 : BitVec b.xlen) ≠ BitVec.intMin b.xlen := by
        cases b <;> decide
      rw [decimalText_eq hw hmin, if_pos rfl] at hdecimal
      obtain ⟨ds, hds, ⟨h, -⟩ | ⟨h, -⟩⟩ := hdecimal
      · exact hds.nonempty h.symm
      · cases h
    · rintro rfl
      obtain ⟨front, hfront⟩ := decimalText_intMin b
      rcases hdecimal.char_eq (c := 40) (by rw [hfront]; simp) with h | h
      · exact absurd h (by decide)
      · exact absurd h.1 (by decide)
  · rintro ⟨hzero, hmin⟩
    rw [decimalText_eq hw hmin, if_neg hzero]
    refine signed_isDecimal fun h => hzero ?_
    exact BitVec.eq_of_toInt_eq (h.trans BitVec.toInt_zero.symm)

/-! ## What `%x` prints -/

theorem fifteen_getLsbD (j : Nat) :
    (15 : BitVec w).getLsbD j = (decide (j < w) && decide (j < 4)) := by
  have hmask : Nat.testBit 15 j = decide (j < 4) := Nat.testBit_two_pow_sub_one 4 j
  rw [BitVec.ofNat_eq_ofNat, BitVec.getLsbD_ofNat, hmask]

/-- The arithmetic shift brings the sign in only above the digit. -/
theorem nibble_eq (num : BitVec w) {i : Nat} (hi : 4 * i + 4 ≤ w) :
    (num.sshiftRight (4 * i) &&& 15).toNat = num.toNat / 16 ^ i % 16 := by
  have hlogical : num.sshiftRight (4 * i) &&& 15 = num >>> (4 * i) &&& 15 := by
    apply BitVec.eq_of_getLsbD_eq
    intro j hj
    rw [BitVec.getLsbD_and, BitVec.getLsbD_and, fifteen_getLsbD,
      BitVec.getLsbD_sshiftRight, BitVec.getLsbD_ushiftRight]
    by_cases hlow : j < 4
    · simp [hj, hlow, show 4 * i + j < w by omega]
    · simp [hlow]
  have hmod : ∀ m, m &&& 15 = m % 16 := fun m => Nat.and_two_pow_sub_one_eq_mod m 4
  have hpow : 2 ^ (4 * i) = 16 ^ i := pow_mul 2 4 i
  rw [hlogical, BitVec.toNat_and, fifteen_toNat (by omega), hmod,
    BitVec.toNat_ushiftRight, Nat.shiftRight_eq_div_pow, hpow]

theorem hexChar_spec : ∀ d < 16, IsHexDigit (hexChar d) ∧ hexValue (hexChar d) = d := by
  unfold IsHexDigit IsDigit
  decide

def hexadecimal : Nat → Nat → List Byte
  | 0, _ => []
  | k + 1, v => hexChar (v / 16 ^ k % 16) :: hexadecimal k v

theorem hexadecimal_isHex (k v : Nat) : IsHex (hexadecimal k v) k (v % 16 ^ k) := by
  induction k with
  | zero => exact ⟨rfl, by simp [hexadecimal], by simp [hexadecimal, Nat.mod_one]⟩
  | succ k ih =>
      obtain ⟨hlength, hdigits, hvalue⟩ := ih
      obtain ⟨hdigit, hback⟩ := hexChar_spec (v / 16 ^ k % 16)
        (Nat.mod_lt _ (by decide))
      rw [hexadecimal]
      refine ⟨by rw [List.length_cons, hlength], ?_, ?_⟩
      · intro c hc
        rcases List.mem_cons.mp hc with rfl | hc
        · exact hdigit
        · exact hdigits c hc
      · rw [List.reverse_cons, List.map_append, Nat.ofDigits_append, hvalue,
          List.length_map, List.length_reverse, hlength, List.map_singleton, hback,
          Nat.ofDigits_singleton, Nat.mod_pow_succ]

theorem hexadecimal_mod {j k : Nat} (hj : j ≤ k) (v : Nat) :
    hexadecimal j (v % 16 ^ k) = hexadecimal j v := by
  induction j with
  | zero => rfl
  | succ j ih =>
      have hsplit : 16 ^ k = 16 ^ j * 16 ^ (k - j) := by
        rw [← pow_add, Nat.add_sub_cancel' (by omega)]
      have hdvd : 16 ∣ 16 ^ (k - j) := dvd_pow_self 16 (by omega)
      rw [hexadecimal, hexadecimal, ih (by omega), hsplit, Nat.mod_mul_right_div_self,
        Nat.mod_mod_of_dvd _ hdvd]

theorem hexText_eq (num : BitVec w) {k : Nat} (hk : 4 * k ≤ w) :
    hexText k num = hexadecimal k num.toNat := by
  induction k with
  | zero => rfl
  | succ k ih =>
      rw [hexText, hexadecimal, nibble_eq num (show 4 * k + 4 ≤ w by omega),
        ih (by omega)]

/-! ## Numbers and their conversions -/

inductive Number (w : Nat) where
  | d (v : CInt)
  | ld (v : BitVec w)
  | x (v : CInt)
  | lx (v : BitVec w)
  | p (v : BitVec w)

namespace Number

def piece : Number w → Piece w
  | d v => .conv .d (.int v) trivial
  | ld v => .conv .ld (.long v) trivial
  | x v => .conv .x (.int v) trivial
  | lx v => .conv .lx (.long v) trivial
  | p v => .conv .p (.long v) trivial

def Spells (text : List Byte) : Number w → Prop
  | d v => IsDecimal text v.toInt
  | ld v => IsDecimal text v.toInt
  | x v => IsHex text 8 v.toNat
  | lx v => IsHex text (2 * (w / 8)) v.toNat
  | p v => ∃ ds, text = char '0' :: char 'x' :: ds ∧ IsHex ds (2 * (w / 8)) v.toNat

def Printable : Number w → Prop
  | d v => v ≠ 0 ∧ v.signExtend w ≠ BitVec.intMin w
  | ld v => v ≠ 0 ∧ v ≠ BitVec.intMin w
  | _ => True

/-- Every call of `_vsnprintf` for the conversion of the number prints the number. -/
def DecodesBack (n : Number w) : Prop :=
  ∀ out size, ∃ r, vsnprintf out size (Piece.format [n.piece]) n.piece.args = some r ∧
    n.Spells r.text

end Number

/-- A format in which every piece reads its own argument prints their texts. -/
theorem vsnprintf_pieces (hw : 8 ≤ w) (l : List (Piece w))
    (hreads : ∀ piece ∈ l, piece.reads = piece.args.length) (rest : List (Arg w))
    (out : Option Memory) (n : BitVec w) :
    ∃ r, vsnprintf out n (Piece.format l) (l.flatMap Piece.args ++ rest) = some r ∧
      r.text = l.flatMap Piece.text ∧ r.args = rest := by
  obtain ⟨p, hrun, htext, hargs, -⟩ := run_pieces hw
    (p := start out n (l.flatMap Piece.args ++ rest)) ⟨rfl, rfl⟩ l hreads rfl
  exact ⟨_, by rw [vsnprintf, hrun]; rfl, htext, hargs⟩

theorem Number.decodesBack_iff_spells (hw : 8 ≤ w) (n : Number w) :
    n.DecodesBack ↔ n.Spells n.piece.text := by
  have hreads : ∀ piece ∈ [n.piece], piece.reads = piece.args.length := by
    intro piece hpiece
    rw [List.mem_singleton.mp hpiece]
    cases n <;> rfl
  have hcall := vsnprintf_pieces hw [n.piece] hreads []
  simp only [List.flatMap_singleton, List.append_nil] at hcall
  constructor
  · intro hback
    obtain ⟨r, hr, hspells⟩ := hback none 0
    obtain ⟨r', hr', htext, -⟩ := hcall none 0
    obtain rfl : r = r' := Option.some.inj (hr.symm.trans hr')
    rwa [htext] at hspells
  · intro hspells out size
    obtain ⟨r, hr, htext, -⟩ := hcall out size
    exact ⟨r, hr, by rwa [htext]⟩

/-! ## An `int` is printed as a `long` -/

theorem signExtend_eq_zero (hw : 32 ≤ w) {v : CInt} : v.signExtend w = 0 ↔ v = 0 := by
  rw [← BitVec.toInt_inj, BitVec.toInt_signExtend_of_le hw, BitVec.ofNat_eq_ofNat,
    BitVec.toInt_zero, ← BitVec.toInt_inj, BitVec.ofNat_eq_ofNat, BitVec.toInt_zero]

theorem signExtend_toNat_mod (hw : 32 ≤ w) (v : CInt) :
    (v.signExtend w).toNat % 16 ^ 8 = v.toNat := by
  have hback : (v.signExtend w).setWidth 32 = v := by
    apply BitVec.eq_of_getLsbD_eq
    intro j hj
    have hlong : j < w := by omega
    simp only [BitVec.getLsbD_setWidth, BitVec.getLsbD_signExtend, hj, hlong,
      decide_true, Bool.true_and, if_true]
  exact (BitVec.toNat_setWidth 32 _).symm.trans (congrArg BitVec.toNat hback)

theorem hexText_int (hw : 32 ≤ w) (v : CInt) :
    hexText 8 (v.signExtend w) = hexadecimal 8 v.toNat := by
  rw [hexText_eq _ (by omega), ← hexadecimal_mod le_rfl, signExtend_toNat_mod hw]

theorem hexText_long (b : Build) (v : BitVec b.xlen) :
    hexText (2 * (b.xlen / 8)) v = hexadecimal (2 * (b.xlen / 8)) v.toNat :=
  hexText_eq v (by cases b <;> decide)

theorem hexadecimal_int (v : CInt) : IsHex (hexadecimal 8 v.toNat) 8 v.toNat := by
  have hlt : v.toNat < 16 ^ 8 := v.isLt
  have hhex := hexadecimal_isHex 8 v.toNat
  rwa [Nat.mod_eq_of_lt hlt] at hhex

theorem hexadecimal_long (b : Build) (v : BitVec b.xlen) :
    IsHex (hexadecimal (2 * (b.xlen / 8)) v.toNat) (2 * (b.xlen / 8)) v.toNat := by
  have hlt : v.toNat < 16 ^ (2 * (b.xlen / 8)) := by
    cases b <;> exact v.isLt
  have hhex := hexadecimal_isHex (2 * (b.xlen / 8)) v.toNat
  rwa [Nat.mod_eq_of_lt hlt] at hhex

/-- Hexadecimal numbers decode back, and decimal ones except 0 and the most negative
`long`. -/
theorem number_decodes_back_iff (b : Build) (n : Number b.xlen) :
    n.DecodesBack ↔ n.Printable := by
  have hw : 8 ≤ b.xlen := by cases b <;> decide
  have hwidth : 32 ≤ b.xlen := by cases b <;> decide
  rw [n.decodesBack_iff_spells hw]
  cases n with
  | d v =>
      have hspells := decimalText_isDecimal_iff b (v.signExtend b.xlen)
      rwa [BitVec.toInt_signExtend_of_le hwidth, Ne, signExtend_eq_zero hwidth] at hspells
  | ld v => exact decimalText_isDecimal_iff b v
  | x v =>
      refine ⟨fun _ => trivial, fun _ => ?_⟩
      show IsHex (hexText 8 (v.signExtend b.xlen)) 8 v.toNat
      rw [hexText_int hwidth]
      exact hexadecimal_int v
  | lx v =>
      refine ⟨fun _ => trivial, fun _ => ?_⟩
      show IsHex (hexText (2 * (b.xlen / 8)) v) (2 * (b.xlen / 8)) v.toNat
      rw [hexText_long b]
      exact hexadecimal_long b v
  | p v =>
      refine ⟨fun _ => trivial, fun _ => ⟨_, rfl, ?_⟩⟩
      rw [hexText_long b]
      exact hexadecimal_long b v

theorem zero_not_decoded : ¬(Number.d 0 : Number 64).DecodesBack := by
  intro hback
  obtain ⟨r, hr, ds, hds, hspelled⟩ := hback none 0
  have hrun : (vsnprintf none 0 (Piece.format [(Number.d 0 : Number 64).piece])
      (Number.d 0 : Number 64).piece.args).map Printed.text = some [] := by rfl
  have htext : r.text = [] := by
    rw [hr] at hrun
    exact Option.some.inj hrun
  rw [htext] at hspelled
  rcases hspelled with ⟨h, -⟩ | ⟨h, -⟩
  · exact hds.nonempty h.symm
  · cases h

end XinOS.Printf
