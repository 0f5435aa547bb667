import XinOS.Kernel.Timers
import XinOS.Printf.Numbers

/-!
# The time since boot: `elapsed_time`

At every tick, one a second, `timer_handler` prints hours, minutes and seconds.
Each of them gets two characters, which are not enough for a hundred hours.
-/

namespace XinOS.Kernel

open XinOS.Foundation XinOS.Printf

variable {w : Nat}

/-! ## `elapsed_time` -/

def timesSize : Nat := 24

structure TimeLine where
  times : Memory
  idx : Nat

namespace TimeLine

variable (l : TimeLine)

def put (c : Byte) : TimeLine where
  times := l.times.modify l.idx fun _ => c
  idx := l.idx + 1

def putTwo (v : BitVec w) : TimeLine :=
  if v > 9 then
    (l.put ((48 + v / 10).setWidth 8)).put ((48 + v % 10).setWidth 8)
  else (l.put (char '0')).put ((48 + v).setWidth 8)

end TimeLine

def fillTimes (ticks : BitVec w) (stack : Memory) : Memory :=
  let seconds := ticks % 60
  let tmp := ticks / 60
  let minutes := tmp % 60
  let hours := tmp / 60
  let l : TimeLine := ⟨stack.modifyRange (fun _ => 0) timesSize 0, 0⟩
  let l := (l.putTwo hours).put (char ':')
  let l := (l.putTwo minutes).put (char ':')
  let l := l.putTwo seconds
  l.times.modify l.idx fun _ => 0

def stringIn (n : Nat) (m : Memory) : CString where
  bytes := ((List.range n).map m).takeWhile (· ≠ 0)
  nonzero := fun h => by simpa using List.mem_takeWhile_imp h

def timesFormat : CString := ⟨[char '%', char 's', char '\n'], by decide⟩

def elapsedTime (outBuf stack : Memory) (ticks : BitVec w) : Option Reply :=
  vprintf (w := w) outBuf timesFormat
    [.str (stringIn timesSize (fillTimes ticks stack))]

/-! ## What is in the array -/

structure TimeLine.Spells (l : TimeLine) (base : Memory) (text : List Byte) :
    Prop where
  times : ∀ j, l.times j = text[j]?.getD (base j)
  idx : l.idx = text.length

def twoChars (v : BitVec w) : List Byte :=
  if v > 9 then [(48 + v / 10).setWidth 8, (48 + v % 10).setWidth 8]
  else [char '0', (48 + v).setWidth 8]

def timeText (ticks : BitVec w) : List Byte :=
  twoChars (ticks / 60 / 60) ++ [char ':'] ++ twoChars (ticks / 60 % 60) ++
    [char ':'] ++ twoChars (ticks % 60)

theorem twoChars_length (v : BitVec w) : (twoChars v).length = 2 := by
  unfold twoChars
  split <;> rfl

theorem timeText_length (ticks : BitVec w) : (timeText ticks).length = 8 := by
  simp only [timeText, List.length_append, twoChars_length, List.length_singleton]

namespace TimeLine.Spells

variable {l : TimeLine} {base : Memory} {text : List Byte}

theorem write (h : l.Spells base text) (c : Byte) (j : Nat) :
    l.times.modify l.idx (fun _ => c) j = (text ++ [c])[j]?.getD (base j) := by
  rw [Memory.modify_apply, h.times, h.idx, List.getElem?_append]
  by_cases hj : j < text.length
  · rw [if_neg (by omega), if_pos hj]
  · rw [if_neg hj]
    by_cases hlast : j = text.length
    · simp [hlast]
    · rw [if_neg hlast, List.getElem?_eq_none (by omega : text.length ≤ j),
        List.getElem?_eq_none (by rw [List.length_singleton]; omega)]

theorem put (h : l.Spells base text) (c : Byte) :
    (l.put c).Spells base (text ++ [c]) where
  times := h.write c
  idx := by rw [TimeLine.put, h.idx, List.length_append, List.length_singleton]

theorem putTwo (h : l.Spells base text) (v : BitVec w) :
    (l.putTwo v).Spells base (text ++ twoChars v) := by
  unfold TimeLine.putTwo twoChars
  split
  · rw [List.append_cons]
    exact (h.put _).put _
  · rw [List.append_cons]
    exact (h.put _).put _

end TimeLine.Spells

theorem fillTimes_eq (ticks : BitVec w) (stack : Memory) (j : Nat) :
    fillTimes ticks stack j = (timeText ticks ++ [0])[j]?.getD
      (stack.modifyRange (fun _ => 0) timesSize 0 j) := by
  have hstart : TimeLine.Spells ⟨stack.modifyRange (fun _ => 0) timesSize 0, 0⟩
      (stack.modifyRange (fun _ => 0) timesSize 0) [] := ⟨fun _ => rfl, rfl⟩
  have hhours := (hstart.putTwo (ticks / 60 / 60)).put (char ':')
  have hminutes := (hhours.putTwo (ticks / 60 % 60)).put (char ':')
  have hseconds := hminutes.putTwo (ticks % 60)
  exact hseconds.write 0 j

theorem fillTimes_within (ticks : BitVec w) (stack : Memory) {j : Nat}
    (hj : timesSize ≤ j) : fillTimes ticks stack j = stack j := by
  have hlength : (timeText ticks ++ [0]).length = 9 := by
    rw [List.length_append, timeText_length, List.length_singleton]
  unfold timesSize at hj
  rw [fillTimes_eq, List.getElem?_eq_none (by omega), Option.getD_none,
    Memory.modifyRange_apply, if_neg (by unfold timesSize; omega)]

theorem takeWhile_append_stop {α : Type} {p : α → Bool} {x : α} (hx : p x = false)
    (l rest : List α) : (l ++ x :: rest).takeWhile p = l.takeWhile p := by
  induction l with
  | nil => simp [hx]
  | cons y l ih => simp only [List.cons_append, List.takeWhile_cons, ih]

theorem stringIn_fillTimes (ticks : BitVec w) (stack : Memory) :
    (stringIn timesSize (fillTimes ticks stack)).bytes =
      (timeText ticks).takeWhile (· ≠ 0) := by
  have hlength := timeText_length ticks
  have hfront : (List.range 8).map (fillTimes ticks stack) = timeText ticks := by
    refine List.ext_getElem (by simp [hlength]) fun j hj hj' => ?_
    rw [List.getElem_map, List.getElem_range, fillTimes_eq,
      List.getElem?_append_left hj', List.getElem?_eq_getElem hj', Option.getD_some]
  have hend : fillTimes ticks stack 8 = 0 := by
    rw [fillTimes_eq, List.getElem?_append_right (by omega), hlength]
    rfl
  have hrange : List.range timesSize =
      List.range 8 ++ 8 :: (List.range 15).map (9 + ·) := by decide
  show ((List.range timesSize).map (fillTimes ticks stack)).takeWhile (· ≠ 0) = _
  rw [hrange, List.map_append, List.map_cons, hfront, hend]
  exact takeWhile_append_stop (by simp) _ _

/-! ## What is printed -/

theorem elapsedTime_eq (hw : 32 ≤ w) (outBuf stack : Memory) (ticks : BitVec w) :
    ∃ buf, elapsedTime outBuf stack ticks =
      some (.sent ((timeText ticks).takeWhile (· ≠ 0) ++ [char '\n']) buf) := by
  let s := stringIn timesSize (fillTimes ticks stack)
  let l : List (Piece w) :=
    [.conv .s (.str s) trivial, .literal (char '\n') (by decide) (by decide)]
  obtain ⟨r, hr, htext, -⟩ := vsnprintf_pieces (by omega) l
    (by simp [l, Piece.reads, Piece.args]) [] none 0
  have hstring : s.bytes = (timeText ticks).takeWhile (· ≠ 0) :=
    stringIn_fillTimes ticks stack
  have hprinted : r.text = (timeText ticks).takeWhile (· ≠ 0) ++ [char '\n'] := by
    rw [htext, ← hstring]
    rfl
  have hshort : r.text.length < 10 := by
    have hle := (List.takeWhile_prefix (· ≠ 0) (l := timeText ticks)).length_le
    rw [timeText_length] at hle
    rw [hprinted, List.length_append, List.length_singleton]
    omega
  have hcall := vprintf_eq (by omega) hr (by omega) outBuf
  rw [if_pos (by unfold outBufSize; omega), hprinted] at hcall
  exact ⟨_, hcall⟩

def ReadsTime (text : List Byte) (seconds : Nat) : Prop :=
  ∃ h m s, text = h ++ char ':' :: m ++ char ':' :: s ∧ h ≠ [] ∧
    (∀ c ∈ h ++ m ++ s, IsDigit c) ∧ m.length = 2 ∧ s.length = 2 ∧
    decimalValue m < 60 ∧ decimalValue s < 60 ∧
    3600 * decimalValue h + 60 * decimalValue m + decimalValue s = seconds

/-- What `elapsed_time` should do: write to its array only, and print the time. -/
def ShowsUptime (ticks : BitVec w) : Prop :=
  ∀ outBuf stack : Memory,
    (∀ j, timesSize ≤ j → fillTimes ticks stack j = stack j) ∧
      ∃ text buf, elapsedTime outBuf stack ticks =
        some (.sent (text ++ [char '\n']) buf) ∧
        text.length < timesSize ∧ ReadsTime text ticks.toNat

theorem decimalValue_lt {ds : List Byte} (hds : ∀ c ∈ ds, IsDigit c) :
    decimalValue ds < 10 ^ ds.length := by
  have hlt := Nat.ofDigits_lt_base_pow_length (b := 10)
    (l := ds.reverse.map fun c => c.toNat - 48) (by decide) fun d hd => by
      obtain ⟨c, hc, rfl⟩ := List.mem_map.mp hd
      obtain ⟨-, hle⟩ := hds c (List.mem_reverse.mp hc)
      omega
  rwa [List.length_map, List.length_reverse] at hlt

theorem ReadsTime.lt {text : List Byte} {seconds : Nat} (h : ReadsTime text seconds)
    (hlength : text.length ≤ 8) : seconds < 360000 := by
  obtain ⟨hs, ms, ss, rfl, -, hdigits, hm, hs', hmlt, hslt, rfl⟩ := h
  have hvalue : decimalValue hs < 10 ^ hs.length :=
    decimalValue_lt fun c hc => hdigits c (by simp [hc])
  have htwo : hs.length ≤ 2 := by
    simp only [List.length_append, List.length_cons] at hlength
    omega
  have hpow : 10 ^ hs.length ≤ 10 ^ 2 := Nat.pow_le_pow_right (by decide) htwo
  omega

theorem small_toNat (hw : 8 ≤ w) {n : Nat} (hn : n < 256) :
    (BitVec.ofNat w n).toNat = n := by
  have hpow : 2 ^ 8 ≤ 2 ^ w := Nat.pow_le_pow_right (by decide) hw
  rw [BitVec.toNat_ofNat, Nat.mod_eq_of_lt (by omega)]

theorem twoChars_eq {v : BitVec w} (hw : 8 ≤ w) (hv : v.toNat ≤ 99) :
    twoChars v = [digit (v.toNat / 10), digit (v.toNat % 10)] := by
  have hpow : 2 ^ 8 ≤ 2 ^ w := Nat.pow_le_pow_right (by decide) hw
  have hten : (10 : BitVec w).toNat = 10 := small_toNat hw (by decide)
  have hnine : (9 : BitVec w).toNat = 9 := small_toNat hw (by decide)
  have hchar : ∀ {x : BitVec w} {d : Nat}, x.toNat = d → d ≤ 9 →
      (48 + x).setWidth 8 = digit d := by
    intro x d hx hd
    have hzero : (48 : BitVec w).toNat = 48 := small_toNat hw (by decide)
    refine BitVec.eq_of_toNat_eq ?_
    rw [BitVec.toNat_setWidth, BitVec.toNat_add, hzero, hx, digit_toNat (by omega),
      Nat.mod_eq_of_lt (a := 48 + d) (by omega), Nat.mod_eq_of_lt (by omega)]
  have hcond : v > 9 ↔ 9 < v.toNat := by rw [gt_iff_lt, BitVec.lt_def, hnine]
  unfold twoChars
  by_cases hv' : 9 < v.toNat
  · rw [if_pos (hcond.mpr hv'), hchar (by rw [BitVec.toNat_udiv, hten]) (by omega),
      hchar (by rw [BitVec.toNat_umod, hten]) (by omega)]
  · rw [if_neg (hcond.not.mpr hv'), hchar (d := v.toNat % 10) (by omega) (by omega),
      show v.toNat / 10 = 0 by omega]
    rfl

theorem decimalValue_two {x y : Nat} (hx : x < 10) (hy : y < 10) :
    decimalValue [digit x, digit y] = 10 * x + y := by
  simp only [decimalValue, List.reverse_cons, List.reverse_nil, List.nil_append,
    List.cons_append, List.map_cons, List.map_nil, digit_toNat hx, digit_toNat hy,
    Nat.ofDigits_cons, Nat.ofDigits_nil]
  omega

theorem digit_isDigit {d : Nat} (hd : d < 10) : IsDigit (digit d) := by
  rw [IsDigit, digit_toNat hd]
  omega

theorem twoChars_reads {v : BitVec w} (hw : 8 ≤ w) (hv : v.toNat ≤ 99) :
    (∀ c ∈ twoChars v, IsDigit c) ∧ decimalValue (twoChars v) = v.toNat := by
  rw [twoChars_eq hw hv, decimalValue_two (by omega) (by omega)]
  refine ⟨fun c hc => ?_, by omega⟩
  rcases List.mem_pair.mp hc with rfl | rfl
  · exact digit_isDigit (by omega)
  · exact digit_isDigit (by omega)

theorem split_toNat (hw : 8 ≤ w) (ticks : BitVec w) :
    (ticks / 60 / 60).toNat = ticks.toNat / 60 / 60 ∧
      (ticks / 60 % 60).toNat = ticks.toNat / 60 % 60 ∧
      (ticks % 60).toNat = ticks.toNat % 60 := by
  have hsixty : (60 : BitVec w).toNat = 60 := small_toNat hw (by decide)
  refine ⟨?_, ?_, ?_⟩
  · rw [BitVec.toNat_udiv, BitVec.toNat_udiv, hsixty]
  · rw [BitVec.toNat_umod, BitVec.toNat_udiv, hsixty]
  · rw [BitVec.toNat_umod, hsixty]

theorem timeText_reads (hw : 8 ≤ w) {ticks : BitVec w} (hticks : ticks.toNat < 360000) :
    ReadsTime (timeText ticks) ticks.toNat := by
  obtain ⟨hhours, hminutes, hseconds⟩ := split_toNat hw ticks
  obtain ⟨hdh, hvh⟩ := twoChars_reads (v := ticks / 60 / 60) hw (by omega)
  obtain ⟨hdm, hvm⟩ := twoChars_reads (v := ticks / 60 % 60) hw (by omega)
  obtain ⟨hds, hvs⟩ := twoChars_reads (v := ticks % 60) hw (by omega)
  refine ⟨twoChars (ticks / 60 / 60), twoChars (ticks / 60 % 60),
    twoChars (ticks % 60), ?_, ?_, ?_, twoChars_length _, twoChars_length _, ?_, ?_, ?_⟩
  · simp [timeText]
  · exact List.ne_nil_of_length_pos (by rw [twoChars_length]; decide)
  · intro c hc
    simp only [List.mem_append] at hc
    rcases hc with (hc | hc) | hc
    · exact hdh c hc
    · exact hdm c hc
    · exact hds c hc
  · omega
  · omega
  · omega

theorem ReadsTime.takeWhile_eq {text : List Byte} {seconds : Nat}
    (h : ReadsTime text seconds) : text.takeWhile (· ≠ 0) = text := by
  have hvisible : ∀ c : Byte, IsDigit c ∨ c = char ':' → c ≠ 0 := by
    rintro c (⟨hlo, -⟩ | rfl)
    · rintro rfl
      exact absurd hlo (by decide)
    · decide
  obtain ⟨hs, ms, ss, rfl, -, hdigits, -⟩ := h
  rw [List.takeWhile_eq_self_iff]
  intro c hc
  have hcases : IsDigit c ∨ c = char ':' := by
    simp only [List.mem_append, List.mem_cons] at hc hdigits
    rcases hc with (hc | rfl | hc) | rfl | hc
    · exact .inl (hdigits c (.inl (.inl hc)))
    · exact .inr rfl
    · exact .inl (hdigits c (.inl (.inr hc)))
    · exact .inr rfl
    · exact .inl (hdigits c (.inr hc))
  simpa using hvisible c hcases

theorem ShowsUptime.lt (hw : 32 ≤ w) {ticks : BitVec w} (h : ShowsUptime ticks) :
    ticks.toNat < 360000 := by
  obtain ⟨-, text, buf, hcall, -, hreads⟩ := h (fun _ => 0) fun _ => 0
  obtain ⟨buf', hcall'⟩ := elapsedTime_eq hw (fun _ => 0) (fun _ => 0) ticks
  have hsent := hcall.symm.trans hcall'
  simp only [Option.some.injEq, Reply.sent.injEq] at hsent
  have htext := List.append_cancel_right hsent.1
  refine hreads.lt ?_
  rw [htext]
  exact (List.takeWhile_prefix _).length_le.trans_eq (timeText_length ticks)

/-- The time is shown for a hundred hours, and never afterwards. -/
theorem uptime_shown_iff (b : Build) (ticks : BitVec b.xlen) :
    ShowsUptime ticks ↔ ticks.toNat < 360000 := by
  have hw : 32 ≤ b.xlen := by cases b <;> decide
  refine ⟨ShowsUptime.lt hw, fun hticks outBuf stack => ?_⟩
  have hreads := timeText_reads (by omega) hticks
  obtain ⟨buf, hcall⟩ := elapsedTime_eq hw outBuf stack ticks
  rw [hreads.takeWhile_eq] at hcall
  refine ⟨fun j hj => fillTimes_within ticks stack hj, _, buf, hcall, ?_, hreads⟩
  rw [timeText_length]
  decide

/-- After a hundred hours the first digit of the hours is a colon. -/
theorem hundred_hours_not_shown :
    (∃ buf, elapsedTime (fun _ => 0) (fun _ => 0) 360000#64 =
      some (.sent [char ':', char '0', char ':', char '0', char '0', char ':', char '0',
        char '0', char '\n'] buf)) ∧
      ¬ShowsUptime 360000#64 := by
  constructor
  · obtain ⟨buf, hcall⟩ := elapsedTime_eq (by decide) (fun _ => 0) (fun _ => 0) 360000#64
    have htext : (timeText 360000#64).takeWhile (· ≠ 0) = [char ':', char '0', char ':',
        char '0', char '0', char ':', char '0', char '0'] := by
      decide
    rw [htext] at hcall
    exact ⟨buf, hcall⟩
  · intro hshows
    exact absurd (hshows.lt (by decide)) (by decide)

end XinOS.Kernel
