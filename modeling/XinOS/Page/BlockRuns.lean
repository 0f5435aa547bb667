import XinOS.Page.Block
import XinOS.Foundation.Intervals

/-!
# The block runs that a block table encodes

`blockMark` is the entry of a block inside a run, `BlockTable` says that a table
encodes a set of runs and counts their blocks.  `_try_malloc` marks a run of
blocks, and the loop of `free` clears one.
-/

namespace XinOS.Page

open XinOS.Foundation

/-! ## Flag tests and flag bits -/

private theorem flagBits_tests : ∀ x : Byte,
    (x &&& blockTaken == 0) = (flagBits x &&& blockTaken == 0) ∧
    (x &&& blockLast != 0) = (flagBits x &&& blockLast != 0) ∧
    (x &&& blockFirst != 0) = (flagBits x &&& blockFirst != 0) := by
  decide

theorem isBlockFree_eq (m : Memory) (block : Nat) :
    isBlockFree m block = (flagBits (m block) &&& blockTaken == 0) :=
  (flagBits_tests _).1

theorem isBlockLast_eq (m : Memory) (block : Nat) :
    isBlockLast m block = (flagBits (m block) &&& blockLast != 0) :=
  (flagBits_tests _).2.1

theorem isBlockFirst_eq (m : Memory) (block : Nat) :
    isBlockFirst m block = (flagBits (m block) &&& blockFirst != 0) :=
  (flagBits_tests _).2.2

def blockMark (I : Span) (j : Nat) : Byte :=
  blockTaken ||| (bif decide (j = I.lo) then blockFirst else 0) |||
    (bif decide (j + 1 = I.hi) then blockLast else 0)

theorem blockMark_flags : ∀ first last : Bool,
    let x := blockTaken ||| (bif first then blockFirst else 0) |||
      (bif last then blockLast else 0)
    flagBits x = x ∧ (x &&& blockTaken == 0) = false ∧
    (x &&& blockFirst != 0) = first ∧ (x &&& blockLast != 0) = last := by
  decide

/-! ## Marking a run -/

theorem takeBlocks_flags (m : Memory) (start i n : Nat) (hn : 1 ≤ n)
    (hi : i + n ≤ blockCount) :
    Memory.SameOutside start (start + mallocTableSize) m
      (takeBlocks m start (start + i) n) ∧
    FlagsSet m (takeBlocks m start (start + i) n) start (fun j =>
      if j ∈ (⟨i, i + n⟩ : Span) then blockMark ⟨i, i + n⟩ j else 0) := by
  have hcount : blockCount = 819 := rfl
  obtain ⟨hsame, hflags⟩ := takeLoop_flags
    (setBlockFlags m (start + i) blockFirst) start i n hi
  have hlast : start + i + n - 1 = start + (i + n - 1) := by omega
  simp only [takeBlocks, hlast]
  refine ⟨?_, ?_⟩
  · unfold mallocTableSize at *
    exact ((Memory.SameOutside.modify m _ (by omega) (by omega)).trans
      hsame).trans (Memory.SameOutside.modify _ _ (by omega) (by omega))
  · refine (((setBlockFlags_flagsSet m start i (by decide)).trans hflags).trans
      (setBlockFlags_flagsSet _ start (i + n - 1) (by decide))).congr
        fun j _ => ?_
    by_cases hin : i ≤ j ∧ j < i + n
    · have hiff : j = i + n - 1 ↔ j + 1 = i + n := by omega
      rw [if_pos hin, if_pos (Span.mem_iff.mpr hin)]
      simp only [hiff, blockMark, ← Bool.cond_decide]
      generalize decide (j = i) = first, decide (j + 1 = i + n) = last
      revert first last
      decide
    · have hout : j ∉ (⟨i, i + n⟩ : Span) := hin
      rw [if_neg hin, if_neg hout, if_neg (by omega), if_neg (by omega)]
      rfl

private theorem or_blockMark (x : Byte) (first last : Bool) :
    let y := blockTaken ||| (bif first then blockFirst else 0) |||
      (bif last then blockLast else 0)
    ((x ||| y) &&& blockTaken == 0) = false ∧
      (first = true → ((x ||| y) &&& blockFirst != 0) = true) := by
  intro y
  obtain ⟨-, htaken, hfirst, -⟩ := blockMark_flags first last
  refine ⟨?_, fun hf => ?_⟩
  · rw [beq_eq_false_iff_ne, ne_eq] at htaken ⊢
    rw [BitVec.and_or_distrib_right]
    exact fun hzero => htaken (BitVec.or_eq_zero_iff.mp hzero).2
  · rw [hf, bne_iff_ne, ne_eq] at hfirst
    rw [bne_iff_ne, ne_eq, BitVec.and_or_distrib_right]
    exact fun hzero => hfirst (hf ▸ (BitVec.or_eq_zero_iff.mp hzero).2)

/-- Marked blocks are taken and begin with a first block, whatever the table and
the counter held before. -/
theorem takeBlocks_taken (m : Memory) (start : Nat) {i n j : Nat}
    (hi : i + n ≤ blockCount) (hij : i ≤ j) (hj : j < i + n) :
    isBlockFree (takeBlocks m start (start + i) n) (start + j) = false ∧
      (j = i →
        isBlockFirst (takeBlocks m start (start + i) n) (start + j) = true) := by
  have hflags := (takeBlocks_flags m start i n (by omega) hi).2 j (by omega)
  have hin : j ∈ (⟨i, i + n⟩ : Span) := Span.mem_iff.mpr ⟨hij, hj⟩
  have hmark := or_blockMark (flagBits (m (start + j))) (decide (j = i))
    (decide (j + 1 = i + n))
  beta_reduce at hflags
  rw [if_pos hin, blockMark] at hflags
  rw [isBlockFree_eq, isBlockFirst_eq, hflags]
  exact ⟨hmark.1, fun hji => hmark.2 (decide_eq_true hji)⟩

theorem takeBlocks_spec (m : Memory) (start i n : Nat) (hn : 1 ≤ n)
    (hi : i + n ≤ blockCount) (husage : getMemoryUsage m start + n < 1024) :
    Memory.SameOutside start (start + mallocTableSize) m
      (takeBlocks m start (start + i) n) ∧
    FlagsSet m (takeBlocks m start (start + i) n) start (fun j =>
      if j ∈ (⟨i, i + n⟩ : Span) then blockMark ⟨i, i + n⟩ j else 0) ∧
    getMemoryUsage (takeBlocks m start (start + i) n) start =
      getMemoryUsage m start + n := by
  obtain ⟨hsame, hflags⟩ := takeBlocks_flags m start i n hn hi
  refine ⟨hsame, hflags, ?_⟩
  have hfirst : getMemoryUsage (setBlockFlags m (start + i) blockFirst) start =
      getMemoryUsage m start :=
    getMemoryUsage_modify (by omega) fun x => (or_flag_counter x).2.1
  have husage' := (takeLoop_spec
    (setBlockFlags m (start + i) blockFirst) start i n hi (by omega)).2.2
  have hlast : start + i + n - 1 = start + (i + n - 1) := by omega
  simp only [takeBlocks, hlast]
  rw [setBlockFlags, getMemoryUsage_modify (by omega)
    fun x => (or_flag_counter x).2.2]
  omega

/-! ## The encoded set -/

def takenBlocks (m : Memory) (start : Nat) : Nat :=
  countBelow blockCount fun j => !isBlockFree m (start + j)

section Congr

variable {m m' : Memory} {start : Nat}
  (hm : ∀ b, start ≤ b → b < start + mallocTableSize → m' b = m b)

include hm

theorem blockEntry_congr : ∀ j < blockCount, m' (start + j) = m (start + j) := by
  intro j hj
  unfold blockCount at hj
  exact hm _ (by omega) (by unfold mallocTableSize; omega)

theorem getMemoryUsage_congr : getMemoryUsage m' start = getMemoryUsage m start := by
  have hlow := hm (lowBlock start) (by rw [lowBlock_eq]; omega)
    (by rw [lowBlock_eq]; unfold mallocTableSize; omega)
  have hhigh := hm (highBlock start) (by rw [highBlock_eq]; omega)
    (by rw [highBlock_eq]; unfold mallocTableSize; omega)
  rw [getMemoryUsage, hlow, hhigh, ← getMemoryUsage]

theorem takenBlocks_congr : takenBlocks m' start = takenBlocks m start := by
  refine countBelow_congr fun j hj => ?_
  simp only [isBlockFree, blockEntry_congr hm j hj]

end Congr

structure BlockTable (m : Memory) (start : Nat) (S : Set Span) : Prop where
  separated : Separated blockCount S
  entries : Encodes 0 blockMark (fun j => flagBits (m (start + j))) blockCount S
  usage : getMemoryUsage m start = takenBlocks m start

namespace BlockTable

variable {m m' : Memory} {start : Nat} {S : Set Span}

theorem congr (h : BlockTable m start S)
    (hm : ∀ b, start ≤ b → b < start + mallocTableSize → m' b = m b) :
    BlockTable m' start S := by
  refine ⟨h.separated, h.entries.congr h.separated fun j hj => ?_, ?_⟩
  · rw [blockEntry_congr hm j hj]
  · rw [getMemoryUsage_congr hm, takenBlocks_congr hm, h.usage]

theorem flags_of_mem (h : BlockTable m start S) {I : Span} (hI : I ∈ S)
    {j : Nat} (hj : j ∈ I) :
    isBlockFree m (start + j) = false ∧
    isBlockFirst m (start + j) = decide (j = I.lo) ∧
    isBlockLast m (start + j) = decide (j + 1 = I.hi) := by
  have hbits : flagBits (m (start + j)) = blockMark I j := h.entries.held I hI j hj
  rw [isBlockFree_eq, isBlockFirst_eq, isBlockLast_eq, hbits]
  exact (blockMark_flags (decide (j = I.lo)) (decide (j + 1 = I.hi))).2

theorem isBlockFree_iff (h : BlockTable m start S) {j : Nat}
    (hj : j < blockCount) :
    isBlockFree m (start + j) = true ↔ ∀ I ∈ S, j ∉ I := by
  constructor
  · intro hfree I hI hjI
    rw [(h.flags_of_mem hI hjI).1] at hfree
    contradiction
  · intro hfree
    have hbits : flagBits (m (start + j)) = 0 := h.entries.free j hj hfree
    rw [isBlockFree_eq, hbits]
    decide

theorem usage_eq_zero_iff (h : BlockTable m start S) :
    getMemoryUsage m start = 0 ↔ S = ∅ := by
  rw [h.usage, takenBlocks, countBelow_eq_zero_iff]
  constructor
  · intro hall
    refine Set.eq_empty_of_forall_notMem fun I hI => ?_
    have hlt := h.separated.proper I hI
    have hN := h.separated.inside I hI
    have hfree := hall I.lo (by omega)
    rw [(h.flags_of_mem hI (Span.mem_iff.mpr ⟨le_refl _, hlt⟩)).1] at hfree
    contradiction
  · rintro rfl j hj
    rw [(h.isBlockFree_iff hj).mpr fun I hI => absurd hI (Set.notMem_empty I)]
    rfl

end BlockTable

theorem blockTable_mallocInit (m : Memory) (p : Nat) :
    BlockTable (mallocInit m p) (getStartBlockByAddr p) ∅ := by
  have hzero : ∀ j < mallocTableSize,
      mallocInit m p (getStartBlockByAddr p + j) = 0 := by
    intro j hj
    rw [mallocInit, Memory.modifyRange_apply, if_pos (by omega)]
  have hentry : ∀ j < blockCount,
      mallocInit m p (getStartBlockByAddr p + j) = 0 := by
    intro j hj
    refine hzero j ?_
    unfold blockCount at hj
    unfold mallocTableSize
    omega
  refine ⟨.empty, .of_blank fun j hj => ?_, ?_⟩
  · rw [hentry j hj]
    rfl
  · have hlow : mallocInit m p (lowBlock (getStartBlockByAddr p)) = 0 := by
      rw [lowBlock_eq]
      exact hzero 819 (by decide)
    have hhigh : mallocInit m p (highBlock (getStartBlockByAddr p)) = 0 := by
      rw [highBlock_eq]
      exact hzero 818 (by decide)
    have hcount : takenBlocks (mallocInit m p) (getStartBlockByAddr p) = 0 := by
      refine (countBelow_eq_zero_iff _ _).mpr fun j hj => ?_
      simp [isBlockFree, hentry j hj]
    rw [hcount, getMemoryUsage, hlow, hhigh]
    rfl

theorem takeBlocks_blank {m : Memory} {start i n : Nat} (hn : 1 ≤ n)
    (hi : i + n ≤ blockCount) (husage : getMemoryUsage m start = takenBlocks m start)
    (hblank : ∀ j, i ≤ j → j < i + n → flagBits (m (start + j)) = 0) :
    let m' := takeBlocks m start (start + i) n
    Memory.SameOutside start (start + mallocTableSize) m m' ∧
      (∀ j < blockCount, flagBits (m' (start + j)) =
        if j ∈ (⟨i, i + n⟩ : Span) then blockMark ⟨i, i + n⟩ j
        else flagBits (m (start + j))) ∧
      (∀ j < blockCount, isBlockFree m' (start + j) =
        (isBlockFree m (start + j) && !decide (j ∈ (⟨i, i + n⟩ : Span)))) ∧
      getMemoryUsage m' start = takenBlocks m' start := by
  intro m'
  have hfree : ∀ j, i ≤ j → j < i + n → isBlockFree m (start + j) = true :=
    fun j hij hj => by
      rw [isBlockFree_eq, hblank j hij hj]
      rfl
  have hcount := countBelow_add (N := blockCount) (I := ⟨i, i + n⟩)
    (p := fun j => !isBlockFree m (start + j)) hi
    (fun j hj => by rw [hfree j hj.1 hj.2]; rfl) (fun j _ => rfl)
  have hle := countBelow_le blockCount
    fun j => !isBlockFree m (start + j) || decide (j ∈ (⟨i, i + n⟩ : Span))
  have hblocks : blockCount = 819 := rfl
  have husage' := husage
  rw [takenBlocks] at husage'
  simp only [Nat.add_sub_cancel_left] at hcount
  obtain ⟨hsame, hflags, hused⟩ := takeBlocks_spec m start i n hn hi (by omega)
  have hbits : ∀ j < blockCount, flagBits (m' (start + j)) =
      if j ∈ (⟨i, i + n⟩ : Span) then blockMark ⟨i, i + n⟩ j
      else flagBits (m (start + j)) := by
    intro j hj
    rw [hflags j hj]
    beta_reduce
    split_ifs with hin
    · rw [hblank j hin.1 hin.2]
      exact BitVec.zero_or
    · exact BitVec.or_zero
  have htaken : ∀ j < blockCount, isBlockFree m' (start + j) =
      (isBlockFree m (start + j) && !decide (j ∈ (⟨i, i + n⟩ : Span))) := by
    intro j hj
    rw [isBlockFree_eq, hbits j hj]
    split_ifs with hin
    · have hmark := blockMark_flags (decide (j = i)) (decide (j + 1 = i + n))
      rw [blockMark, hmark.2.1, decide_eq_true hin]
      simp
    · rw [← isBlockFree_eq, decide_eq_false hin]
      simp
  refine ⟨hsame, hbits, htaken, ?_⟩
  rw [hused, husage', ← hcount, takenBlocks]
  refine countBelow_congr fun j hj => ?_
  rw [htaken j hj]
  simp

theorem BlockTable.take {m : Memory} {start i n : Nat} {S : Set Span}
    (h : BlockTable m start S) (hn : 1 ≤ n) (hi : i + n ≤ blockCount)
    (hfree : ∀ j, i ≤ j → j < i + n → isBlockFree m (start + j) = true) :
    BlockTable (takeBlocks m start (start + i) n) start
        (insert ⟨i, i + n⟩ S) ∧
      Memory.SameOutside start (start + mallocTableSize) m
        (takeBlocks m start (start + i) n) := by
  have hout : ∀ J ∈ S, ∀ j ∈ J, j ∉ (⟨i, i + n⟩ : Span) := by
    rintro J hJ j hjJ ⟨hij, hjn⟩
    simp only at hij hjn
    exact (h.isBlockFree_iff (by omega)).mp (hfree j hij hjn) J hJ hjJ
  have hblank : ∀ j, i ≤ j → j < i + n → flagBits (m (start + j)) = 0 :=
    fun j hij hj => h.entries.free j (by omega) fun J hJ hjJ =>
      hout J hJ j hjJ ⟨hij, hj⟩
  obtain ⟨hsame, hbits, -, husage⟩ := takeBlocks_blank hn hi h.usage hblank
  refine ⟨⟨?_, ?_, husage⟩, hsame⟩
  · exact h.separated.insert (by simp only; omega) hi hout
  · exact h.entries.add h.separated hout hbits hi

/-! ## The loop of `free` -/

private theorem clear_bits : ∀ x : Byte, flagBits ((x >>> 6) <<< 6) = 0 ∧
    ((x >>> 6) <<< 6).toNat >>> 6 = x.toNat >>> 6 := by
  decide

theorem clearBlock_spec (m : Memory) (start i : Nat) (hi : i < blockCount)
    (hpos : 0 < getMemoryUsage m start) :
    let m' := decreaseBlockUsage
      (m.modify (start + i) fun x => (x >>> 6) <<< 6) start
    Memory.SameOutside start (start + mallocTableSize) m m' ∧
    (∀ j < blockCount, flagBits (m' (start + j)) =
      if j = i then 0 else flagBits (m (start + j))) ∧
    getMemoryUsage m' start + 1 = getMemoryUsage m start := by
  have hblocks : blockCount = 819 := rfl
  have husage : getMemoryUsage (m.modify (start + i) fun x => (x >>> 6) <<< 6)
      start = getMemoryUsage m start :=
    getMemoryUsage_modify hi fun x => (clear_bits x).2
  refine ⟨?_, fun j hj => ?_, ?_⟩
  · unfold mallocTableSize
    exact (Memory.SameOutside.modify m _ (by omega) (by omega)).trans
      ((decreaseBlockUsage_same _ start).mono (by omega) (by omega))
  · rw [decreaseBlockUsage_flagBits _ _ _ hj, Memory.modify_apply]
    simp only [Nat.add_left_cancel_iff]
    split_ifs
    · exact (clear_bits _).1
    · rfl
  · rw [← husage]
    exact decreaseBlockUsage_usage _ start (by rw [husage]; exact hpos)

theorem blockFreeLoop_run (m : Memory) (start i n : Nat) {fuel : Nat}
    (hfuel : n < fuel) (hi : i + n < blockCount)
    (hused : n < getMemoryUsage m start)
    (htaken : ∀ j, i ≤ j → j ≤ i + n → isBlockFree m (start + j) = false)
    (hlast : ∀ j, i ≤ j → j ≤ i + n →
      isBlockLast m (start + j) = decide (j = i + n)) :
    ∃ m', blockFreeLoop fuel m start (start + i) = some m' ∧
      Memory.SameOutside start (start + mallocTableSize) m m' ∧
      (∀ j < blockCount, flagBits (m' (start + j)) =
        if i ≤ j ∧ j ≤ i + n then 0 else flagBits (m (start + j))) ∧
      getMemoryUsage m' start + (n + 1) = getMemoryUsage m start := by
  induction n generalizing i fuel m with
  | zero =>
      obtain ⟨fuel, rfl⟩ : ∃ f, fuel = f + 1 := ⟨fuel - 1, by omega⟩
      have h0 := htaken i (le_refl _) (by omega)
      have hl0 := hlast i (le_refl _) (by omega)
      rw [decide_eq_true (by omega)] at hl0
      obtain ⟨hsame, hflags, husage⟩ :=
        clearBlock_spec m start i (by omega) (by omega)
      refine ⟨_, by simp only [blockFreeLoop, h0, hl0]; rfl, hsame,
        fun j hj => ?_, husage⟩
      have hiff : j = i ↔ (i ≤ j ∧ j ≤ i + 0) := by omega
      rw [hflags j hj]
      simp only [hiff]
  | succ n ih =>
      obtain ⟨fuel, rfl⟩ : ∃ f, fuel = f + 1 := ⟨fuel - 1, by omega⟩
      have h0 := htaken i (le_refl _) (by omega)
      have hl0 := hlast i (le_refl _) (by omega)
      rw [decide_eq_false (by omega)] at hl0
      obtain ⟨hsame, hflags, husage⟩ :=
        clearBlock_spec m start i (by omega) (by omega)
      have hkeep : ∀ j, i + 1 ≤ j → j ≤ i + 1 + n → flagBits (decreaseBlockUsage
          (m.modify (start + i) fun x => (x >>> 6) <<< 6) start (start + j)) =
          flagBits (m (start + j)) := by
        intro j hij hjn
        rw [hflags j (by omega), if_neg (by omega)]
      obtain ⟨m', hloop, hsame', hflags', husage'⟩ := ih
        (decreaseBlockUsage (m.modify (start + i) fun x => (x >>> 6) <<< 6) start)
        (i + 1) (by omega : n < fuel) (by omega) (by omega)
        (fun j hij hjn => by
          rw [isBlockFree_eq, hkeep j hij hjn, ← isBlockFree_eq]
          exact htaken j (by omega) (by omega))
        (fun j hij hjn => by
          rw [isBlockLast_eq, hkeep j hij hjn, ← isBlockLast_eq,
            hlast j (by omega) (by omega)]
          simp only [show i + (n + 1) = i + 1 + n by omega])
      refine ⟨m', ?_, hsame.trans hsame', fun j hj => ?_, by omega⟩
      · simp only [blockFreeLoop, h0, hl0]
        exact hloop
      · rw [hflags' j hj, hflags j hj]
        by_cases hji : j = i
        · rw [if_neg (by omega), if_pos hji, if_pos (by omega)]
        · have hiff : (i + 1 ≤ j ∧ j ≤ i + 1 + n) ↔
              (i ≤ j ∧ j ≤ i + (n + 1)) := by omega
          simp only [hji, hiff, if_false]

/-! ## What `_try_malloc` finds -/

/-- `_try_malloc` accepts the `n` blocks from block `i` on: they lie in the
table, and those of them that it tests are free. -/
def Accepts (m : Memory) (start n i : Nat) : Prop :=
  i + n ≤ blockCount ∧ blockRunAccepted m (start + i) n = true

theorem Accepts.isBlockFree {m : Memory} {start n i : Nat}
    (h : Accepts m start n i) {j : Nat} (hlo : i ≤ j)
    (hhi : j = i ∨ j + 1 < i + n) : isBlockFree m (start + j) = true := by
  have htests := h.2
  simp only [blockRunAccepted, Bool.and_eq_true, List.all_eq_true,
    List.mem_range] at htests
  rcases hhi with rfl | hhi
  · exact htests.1
  · have := htests.2 (j - i) (by omega)
    rwa [show start + i + (j - i) = start + j by omega] at this

/-- What the test leaves out is the last block. -/
theorem Accepts.all_free {m : Memory} {start n i : Nat}
    (h : Accepts m start n i)
    (hend : Page.isBlockFree m (start + i + n - 1) = true) {j : Nat}
    (hlo : i ≤ j) (hhi : j < i + n) : Page.isBlockFree m (start + j) = true := by
  by_cases hlast : j + 1 < i + n
  · exact h.isBlockFree hlo (.inr hlast)
  · rwa [show start + i + n - 1 = start + j by omega] at hend

theorem accepts_of_free {m : Memory} {start n i : Nat} (hn : 1 ≤ n)
    (hi : i + n ≤ blockCount)
    (hfree : ∀ j, i ≤ j → (j = i ∨ j + 1 < i + n) →
      Page.isBlockFree m (start + j) = true) : Accepts m start n i := by
  refine ⟨hi, ?_⟩
  simp only [blockRunAccepted, Bool.and_eq_true, List.all_eq_true,
    List.mem_range]
  refine ⟨hfree i (le_refl _) (.inl rfl), fun j hj => ?_⟩
  rw [Nat.add_assoc]
  exact hfree (i + j) (by omega) (.inr (by omega))

/-- Block `i` starts the first run that `_try_malloc` accepts. -/
def FirstFit (m : Memory) (start n i : Nat) : Prop :=
  Accepts m start n i ∧ ∀ i' < i, ¬Accepts m start n i'

def Heap.blockStart (h : Heap) (k : Nat) : Nat := getStartBlockByAddr (h.base k)

theorem getStartMemByAddr_eq (h : Heap) {p k : Nat} (hp : h.base k ≤ p)
    (hp' : p < h.base (k + 1)) : getStartMemByAddr h p = h.base k := by
  unfold getStartMemByAddr Heap.base pageSize at *
  omega

theorem Heap.base_lt_base_succ (h : Heap) (k : Nat) :
    h.base k < h.base (k + 1) := by
  unfold base pageSize
  omega

theorem Heap.getPageByAddr_eq (h : Heap) {p k : Nat} (hp : h.base k ≤ p)
    (hp' : p < h.base (k + 1)) : getPageByAddr h p = h.desc k := by
  unfold getPageByAddr
  rw [getStartMemByAddr_eq h hp hp']
  unfold base desc pageSize
  omega

theorem Heap.getStartBlock_eq (h : Heap) {p k : Nat} (hp : h.base k ≤ p)
    (hp' : p < h.base (k + 1)) :
    getStartBlockByAddr (getStartMemByAddr h p) = h.blockStart k :=
  congrArg getStartBlockByAddr (getStartMemByAddr_eq h hp hp')

theorem Heap.getBlockByAddr_eq (h : Heap) {p k : Nat} (hp : h.base k ≤ p)
    (hp' : p < h.base (k + 1)) :
    getBlockByAddr h p = h.blockStart k + (p - h.base k) / mallocSize := by
  simp only [getBlockByAddr, getStartMemByAddr_eq h hp hp']
  rfl

theorem tryMalloc_cases (h : Heap) (m : Memory) (k size : Nat)
    (hpos : 1 ≤ blockTotal size) :
    (∃ i, FirstFit m (h.blockStart k) (blockTotal size) i ∧
      tryMalloc h m (h.base k) size = (some (h.base k + i * mallocSize),
        takeBlocks m (h.blockStart k) (h.blockStart k + i) (blockTotal size))) ∨
    (tryMalloc h m (h.base k) size = (none, m) ∧
      ∀ i, ¬Accepts m (h.blockStart k) (blockTotal size) i) := by
  have hne : ¬blockTotal size = 0 := by omega
  have hbase := getStartMemByAddr_eq h (le_refl _) (h.base_lt_base_succ k)
  have hbound : ∀ i, i < mallocTableSize - blockTotal size ↔
      i + blockTotal size ≤ blockCount := by
    intro i
    unfold mallocTableSize blockCount
    omega
  simp only [tryMalloc, hbase, if_neg hne]
  rw [← Heap.blockStart]
  cases hfind : (List.range (mallocTableSize - blockTotal size)).find?
      (fun i => blockRunAccepted m (h.blockStart k + i) (blockTotal size)) with
  | none =>
      right
      refine ⟨rfl, ?_⟩
      rintro i ⟨hi, htests⟩
      have := List.find?_range_eq_none.mp hfind i ((hbound i).mpr hi)
      simp [htests] at this
  | some i =>
      left
      obtain ⟨htests, hmem, hfirst⟩ := List.find?_range_eq_some.mp hfind
      refine ⟨i, ⟨⟨(hbound i).mp (List.mem_range.mp hmem), htests⟩, ?_⟩, rfl⟩
      rintro i' hi' ⟨-, htests'⟩
      have := hfirst i' hi'
      simp [htests'] at this

end XinOS.Page
