import XinOS.Page.Table

/-!
# Block tables: `_try_malloc` and the usage counter

A page controlled by malloc is cut into 819 blocks of four bytes.  Its block
table has 820 bytes of flags: one per block, and a last one that holds the low
eight bits of the number of blocks in use, whose two high bits are the top bits
of the entry of block 818.
-/

namespace XinOS.Page

open XinOS.Foundation

def mallocSize : Nat := 4

def allocableSize : Nat := 3276

def mallocTableSize : Nat := 820

def blockTaken : Byte := 1#8 <<< 0

def blockLast : Byte := 1#8 <<< 1

def blockFirst : Byte := 1#8 <<< 2

/-- `_get_start_block_by_addr`, for the start of a page. -/
def getStartBlockByAddr (p : Nat) : Nat := p + allocableSize - 1

def getBlockByAddr (h : Heap) (p : Nat) : Nat :=
  let pageMem := getStartMemByAddr h p
  getStartBlockByAddr pageMem + (p - pageMem) / mallocSize

def isBlockFree (m : Memory) (block : Nat) : Bool := m block &&& blockTaken == 0

def setBlockFlags (m : Memory) (block : Nat) (flags : Byte) : Memory :=
  m.modify block (· ||| flags)

def isBlockLast (m : Memory) (block : Nat) : Bool := m block &&& blockLast != 0

def isBlockFirst (m : Memory) (block : Nat) : Bool :=
  m block &&& blockFirst != 0

def mallocInit (m : Memory) (p : Nat) : Memory :=
  m.modifyRange (fun _ => 0) mallocTableSize (getStartBlockByAddr p)

/-! ## The usage counter -/

def lowBlock (block : Nat) : Nat := block + mallocTableSize - 1

def highBlock (block : Nat) : Nat := block + mallocTableSize - 2

def increaseBlockUsage (m : Memory) (block : Nat) : Memory :=
  let m := if m (lowBlock block) = 255 then
      m.modify (highBlock block) (· + (1#8 <<< 6))
    else m
  m.modify (lowBlock block) (· + 1)

def decreaseBlockUsage (m : Memory) (block : Nat) : Memory :=
  if m (lowBlock block) = 0 then
    (m.modify (lowBlock block) fun _ => 255).modify (highBlock block)
      (· - (1#8 <<< 6))
  else m.modify (lowBlock block) (· - 1)

def getMemoryUsage (m : Memory) (block : Nat) : Nat :=
  ((m (highBlock block)).toNat >>> 6) <<< 8 + (m (lowBlock block)).toNat

/-! ## `_try_malloc` -/

/-- `block_total`: the blocks a request of `size` bytes needs.  The sizes passed
to `_try_malloc` are at most `ALLOCABLE_SIZE`, so the `int` does not wrap. -/
def blockTotal (size : Nat) : Nat :=
  size / mallocSize + if size % mallocSize ≠ 0 then 1 else 0

/-- The test of `_try_malloc` at one block.  The inner loop starts over at
`block` itself, so its `total - 1` tests stop short of the last block. -/
def blockRunAccepted (m : Memory) (block total : Nat) : Bool :=
  isBlockFree m block &&
    (List.range (total - 1)).all fun j => isBlockFree m (block + j)

def takeLoop : Nat → Memory → Nat → Nat → Memory
  | 0, m, _, _ => m
  | n + 1, m, start, tmp =>
      takeLoop n (increaseBlockUsage (setBlockFlags m tmp blockTaken) start)
        start (tmp + 1)

def takeBlocks (m : Memory) (start block total : Nat) : Memory :=
  let m := setBlockFlags m block blockFirst
  let m := takeLoop total m start block
  setBlockFlags m (block + total - 1) blockLast

def tryMalloc (h : Heap) (m : Memory) (p size : Nat) : Option Nat × Memory :=
  let p := getStartMemByAddr h p
  let start := getStartBlockByAddr p
  let total := blockTotal size
  if total = 0 then (none, m)
  else
    match (List.range (mallocTableSize - total)).find?
        fun i => blockRunAccepted m (start + i) total with
    | some i =>
        (some (p + i * mallocSize), takeBlocks m start (start + i) total)
    | none => (none, m)

/-! ## The block loop of `free` -/

def blockFreeLoop : Nat → Memory → Nat → Nat → Option Memory
  | 0, _, _, _ => none
  | fuel + 1, m, start, block =>
      if isBlockFree m block then some m
      else
        let isLast := isBlockLast m block
        let m := m.modify block fun x => (x >>> 6) <<< 6
        let m := decreaseBlockUsage m start
        if isLast then some m else blockFreeLoop fuel m start (block + 1)

/-! ## What the helpers change -/

def flagBits (x : Byte) : Byte := x &&& 0x3f#8

def blockCount : Nat := 819

theorem lowBlock_eq (start : Nat) : lowBlock start = start + 819 := by
  unfold lowBlock mallocTableSize
  omega

theorem highBlock_eq (start : Nat) : highBlock start = start + 818 := by
  unfold highBlock mallocTableSize
  omega

private theorem carry_bits : ∀ x : Byte,
    flagBits (x + (1#8 <<< 6)) = flagBits x ∧
      ((x + (1#8 <<< 6)).toNat >>> 6) = ((x.toNat >>> 6) + 1) % 4 := by
  decide

private theorem borrow_bits : ∀ x : Byte,
    flagBits (x - (1#8 <<< 6)) = flagBits x ∧
      ((x.toNat >>> 6) = 0 ∨
        ((x - (1#8 <<< 6)).toNat >>> 6) + 1 = x.toNat >>> 6) := by
  decide

theorem increaseBlockUsage_same (m : Memory) (start : Nat) :
    Memory.SameOutside (start + 818) (start + 820) m
      (increaseBlockUsage m start) := by
  intro b hb
  rw [increaseBlockUsage]
  simp only [Memory.modify_apply, lowBlock_eq, highBlock_eq]
  rw [if_neg (by omega)]
  split_ifs with hcarry
  · rw [Memory.modify_of_ne (by omega)]
  · rfl

theorem increaseBlockUsage_flagBits (m : Memory) (start j : Nat)
    (hj : j < blockCount) :
    flagBits (increaseBlockUsage m start (start + j)) =
      flagBits (m (start + j)) := by
  unfold blockCount at hj
  rw [increaseBlockUsage]
  simp only [Memory.modify_apply, lowBlock_eq, highBlock_eq]
  rw [if_neg (by omega)]
  split_ifs with hcarry
  · rw [Memory.modify_apply]
    split_ifs
    · exact (carry_bits _).1
    · rfl
  · rfl

theorem increaseBlockUsage_usage (m : Memory) (start : Nat)
    (hlt : getMemoryUsage m start < 1023) :
    getMemoryUsage (increaseBlockUsage m start) start =
      getMemoryUsage m start + 1 := by
  have hlow := (m (start + 819)).isLt
  have hcarry := (carry_bits (m (start + 818))).2
  have hne : start + 818 ≠ start + 819 := by omega
  simp only [getMemoryUsage, increaseBlockUsage, Memory.modify_apply,
    lowBlock_eq, highBlock_eq, Nat.shiftLeft_eq, if_neg hne, if_true] at *
  by_cases h255 : m (start + 819) = 255
  · simp only [if_pos h255, Memory.modify_apply, if_true, if_neg hne.symm]
    rw [h255] at hlt ⊢
    rw [hcarry]
    simp only [show (255 : Byte).toNat = 255 from rfl,
      show ((255 : Byte) + 1).toNat = 0 from rfl] at *
    omega
  · have h255' : (m (start + 819)).toNat ≠ 255 := fun heq =>
      h255 (BitVec.eq_of_toNat_eq heq)
    simp only [if_neg h255, BitVec.toNat_add]
    simp only [show (1 : Byte).toNat = 1 from rfl]
    omega

theorem decreaseBlockUsage_same (m : Memory) (start : Nat) :
    Memory.SameOutside (start + 818) (start + 820) m
      (decreaseBlockUsage m start) := by
  intro b hb
  simp only [decreaseBlockUsage, lowBlock_eq, highBlock_eq]
  split_ifs with hborrow
  · rw [Memory.modify_of_ne (by omega), Memory.modify_of_ne (by omega)]
  · rw [Memory.modify_of_ne (by omega)]

theorem decreaseBlockUsage_flagBits (m : Memory) (start j : Nat)
    (hj : j < blockCount) :
    flagBits (decreaseBlockUsage m start (start + j)) =
      flagBits (m (start + j)) := by
  unfold blockCount at hj
  simp only [decreaseBlockUsage, lowBlock_eq, highBlock_eq]
  split_ifs with hborrow
  · rw [Memory.modify_apply, Memory.modify_of_ne (by omega)]
    split_ifs
    · exact (borrow_bits _).1
    · rfl
  · rw [Memory.modify_of_ne (by omega)]

theorem decreaseBlockUsage_usage (m : Memory) (start : Nat)
    (hpos : 0 < getMemoryUsage m start) :
    getMemoryUsage (decreaseBlockUsage m start) start + 1 =
      getMemoryUsage m start := by
  have hborrow := (borrow_bits (m (start + 818))).2
  have hne : start + 818 ≠ start + 819 := by omega
  simp only [getMemoryUsage, decreaseBlockUsage, lowBlock_eq, highBlock_eq,
    Nat.shiftLeft_eq] at *
  by_cases h0 : m (start + 819) = 0
  · simp only [if_pos h0, Memory.modify_apply, if_true, if_neg hne,
      if_neg hne.symm]
    rw [h0] at hpos ⊢
    simp only [show (255 : Byte).toNat = 255 from rfl,
      show (0 : Byte).toNat = 0 from rfl] at *
    omega
  · have h0' : (m (start + 819)).toNat ≠ 0 := fun heq =>
      h0 (BitVec.eq_of_toNat_eq heq)
    have hlow := (m (start + 819)).isLt
    simp only [if_neg h0, Memory.modify_apply, if_true, if_neg hne,
      BitVec.toNat_sub, show (1 : Byte).toNat = 1 from rfl]
    omega

theorem getMemoryUsage_modify {m : Memory} {start j : Nat} {f : Byte → Byte}
    (hj : j < blockCount) (hf : ∀ x : Byte, (f x).toNat >>> 6 = x.toNat >>> 6) :
    getMemoryUsage (m.modify (start + j) f) start = getMemoryUsage m start := by
  unfold blockCount at hj
  simp only [getMemoryUsage, lowBlock_eq, highBlock_eq, Memory.modify_apply]
  rw [if_neg (by omega : ¬start + 819 = start + j)]
  split_ifs with h
  · rw [hf]
  · rfl

theorem or_flag_counter : ∀ x : Byte,
    (x ||| blockTaken).toNat >>> 6 = x.toNat >>> 6 ∧
    (x ||| blockFirst).toNat >>> 6 = x.toNat >>> 6 ∧
    (x ||| blockLast).toNat >>> 6 = x.toNat >>> 6 := by
  decide

/-! ## The marking loop -/

def FlagsSet (m m' : Memory) (start : Nat) (f : Nat → Byte) : Prop :=
  ∀ j < blockCount, flagBits (m' (start + j)) = flagBits (m (start + j)) ||| f j

theorem FlagsSet.trans {m₁ m₂ m₃ : Memory} {start : Nat} {f g : Nat → Byte}
    (h : FlagsSet m₁ m₂ start f) (h' : FlagsSet m₂ m₃ start g) :
    FlagsSet m₁ m₃ start fun j => f j ||| g j := by
  intro j hj
  rw [h' j hj, h j hj, BitVec.or_assoc]

theorem FlagsSet.congr {m m' : Memory} {start : Nat} {f g : Nat → Byte}
    (h : FlagsSet m m' start f) (hfg : ∀ j < blockCount, f j = g j) :
    FlagsSet m m' start g := by
  intro j hj
  rw [h j hj, hfg j hj]

theorem flagBits_or (x y : Byte) :
    flagBits (x ||| y) = flagBits x ||| flagBits y := by
  ext i hi
  simp [flagBits, Bool.and_or_distrib_right]

theorem setBlockFlags_flagsSet (m : Memory) (start i : Nat) {flags : Byte}
    (hflags : flagBits flags = flags) :
    FlagsSet m (setBlockFlags m (start + i) flags) start
      fun j => if j = i then flags else 0 := by
  intro j _
  rw [setBlockFlags, Memory.modify_apply]
  simp only [Nat.add_left_cancel_iff]
  split_ifs with hji
  · rw [flagBits_or, hflags]
  · exact BitVec.or_zero.symm

theorem increaseBlockUsage_flagsSet (m : Memory) (start : Nat) :
    FlagsSet m (increaseBlockUsage m start) start fun _ => 0 := by
  intro j hj
  rw [increaseBlockUsage_flagBits m start j hj]
  exact BitVec.or_zero.symm

/-- Whatever the counter says, the marking loop changes the flags in the same
way. -/
theorem takeLoop_flags (m : Memory) (start i n : Nat) (hi : i + n ≤ blockCount) :
    Memory.SameOutside start (start + mallocTableSize) m
      (takeLoop n m start (start + i)) ∧
    FlagsSet m (takeLoop n m start (start + i)) start
      (fun j => if i ≤ j ∧ j < i + n then blockTaken else 0) := by
  induction n generalizing i m with
  | zero =>
      refine ⟨.refl _ _ _, fun j _ => ?_⟩
      have hout : ¬(i ≤ j ∧ j < i + 0) := by omega
      simp only [takeLoop, if_neg hout, BitVec.ofNat_eq_ofNat, BitVec.or_zero]
  | succ n ih =>
      have hblocks : blockCount = 819 := rfl
      obtain ⟨hsame, hflags⟩ := ih
        (increaseBlockUsage (setBlockFlags m (start + i) blockTaken) start)
        (i + 1) (by omega)
      rw [← Nat.add_assoc start i 1] at hsame hflags
      rw [takeLoop]
      refine ⟨?_, ?_⟩
      · unfold mallocTableSize at *
        exact ((Memory.SameOutside.modify m _ (by omega) (by omega)).trans
          ((increaseBlockUsage_same _ start).mono (by omega) (by omega))).trans
            hsame
      · refine (((setBlockFlags_flagsSet m start i (by decide)).trans
          (increaseBlockUsage_flagsSet _ start)).trans hflags).congr
            fun j _ => ?_
        by_cases hji : j = i
        · rw [if_pos hji, if_neg (by omega), if_pos (by omega)]
          decide
        · have hiff : (i + 1 ≤ j ∧ j < i + 1 + n) ↔
              (i ≤ j ∧ j < i + (n + 1)) := by omega
          simp only [hji, hiff, if_false, BitVec.ofNat_eq_ofNat, BitVec.zero_or]

theorem takeLoop_spec (m : Memory) (start i n : Nat) (hi : i + n ≤ blockCount)
    (husage : getMemoryUsage m start + n < 1024) :
    Memory.SameOutside start (start + mallocTableSize) m
      (takeLoop n m start (start + i)) ∧
    FlagsSet m (takeLoop n m start (start + i)) start
      (fun j => if i ≤ j ∧ j < i + n then blockTaken else 0) ∧
    getMemoryUsage (takeLoop n m start (start + i)) start =
      getMemoryUsage m start + n := by
  obtain ⟨hsame, hflags⟩ := takeLoop_flags m start i n hi
  refine ⟨hsame, hflags, ?_⟩
  clear hsame hflags
  induction n generalizing i m with
  | zero => rfl
  | succ n ih =>
      have hset : getMemoryUsage (setBlockFlags m (start + i) blockTaken) start =
          getMemoryUsage m start :=
        getMemoryUsage_modify (by omega) fun x => (or_flag_counter x).1
      have hinc := increaseBlockUsage_usage
        (setBlockFlags m (start + i) blockTaken) start (by omega)
      have hrest := ih
        (increaseBlockUsage (setBlockFlags m (start + i) blockTaken) start)
        (i + 1) (by omega) (by omega)
      rw [← Nat.add_assoc start i 1] at hrest
      rw [takeLoop]
      omega

end XinOS.Page
