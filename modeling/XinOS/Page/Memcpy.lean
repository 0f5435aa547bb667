import XinOS.Page.Layout

/-!
# `memcpy`

`memcpy` copies upwards when the destination lies below the source and downwards
otherwise, byte by byte.  Pointers and lengths are machine words; the addresses
that are written are recorded in the order of the writes.
-/

namespace XinOS.Page

open XinOS.Foundation

variable {w : Nat}

structure Copied (w : Nat) where
  dest : BitVec w
  memory : Memory
  written : List (BitVec w)

/-- `while(n--) *(dp++) = *(sp++);` -/
def copyUp : Nat → BitVec w → BitVec w → Memory → Memory × List (BitVec w)
  | 0, _, _, m => (m, [])
  | n + 1, dp, sp, m =>
      let r := copyUp n (dp + 1) (sp + 1) (m.modify dp.toNat fun _ => m sp.toNat)
      (r.1, dp :: r.2)

/-- `while(n--) *(--dp) = *(--sp);` -/
def copyDown : Nat → BitVec w → BitVec w → Memory → Memory × List (BitVec w)
  | 0, _, _, m => (m, [])
  | n + 1, dp, sp, m =>
      let dp := dp - 1
      let sp := sp - 1
      let r := copyDown n dp sp (m.modify dp.toNat fun _ => m sp.toNat)
      (r.1, dp :: r.2)

def memcpy (r : Region) (dest src n : BitVec r.build.xlen) (m : Memory) :
    Option (Copied r.build.xlen) :=
  if dest < r.allocStart ∨ dest + n > r.allocEnd then none
  else if dest = src then some ⟨dest, m, []⟩
  else
    let c :=
      if dest < src then copyUp n.toNat dest src m
      else copyDown n.toNat (dest + n) (src + n) m
    some ⟨dest, c.1, c.2⟩

/-! ## The loops -/

theorem copyUp_memory (m : Memory) {d s n : Nat} (hds : d < s)
    (hd : d + n ≤ 2 ^ w) (hs : s + n ≤ 2 ^ w) :
    (copyUp n (BitVec.ofNat w d) (BitVec.ofNat w s) m).1 = m.moved d s n := by
  induction n generalizing d s m with
  | zero => exact (m.moved_zero d s).symm
  | succ n ih =>
      have hdp : (BitVec.ofNat w d).toNat = d := by
        rw [BitVec.toNat_ofNat, Nat.mod_eq_of_lt (by omega)]
      have hsp : (BitVec.ofNat w s).toNat = s := by
        rw [BitVec.toNat_ofNat, Nat.mod_eq_of_lt (by omega)]
      have hnext : ∀ a, BitVec.ofNat w a + 1 = BitVec.ofNat w (a + 1) := fun a =>
        (BitVec.ofNat_add a 1).symm
      rw [← m.moved_first hds, copyUp, hdp, hsp, hnext, hnext]
      exact ih _ (by omega) (by omega) (by omega)

theorem copyDown_memory (m : Memory) {d s n : Nat} (hsd : s < d)
    (hd : d + n ≤ 2 ^ w) :
    (copyDown n (BitVec.ofNat w (d + n)) (BitVec.ofNat w (s + n)) m).1 =
      m.moved d s n := by
  induction n generalizing m with
  | zero => exact (m.moved_zero d s).symm
  | succ n ih =>
      have hprev : ∀ a, BitVec.ofNat w (a + 1) - 1 = BitVec.ofNat w a := fun a => by
        rw [BitVec.ofNat_add]
        exact BitVec.add_sub_cancel _ _
      have hdp : (BitVec.ofNat w (d + n)).toNat = d + n := by
        rw [BitVec.toNat_ofNat, Nat.mod_eq_of_lt (by omega)]
      have hsp : (BitVec.ofNat w (s + n)).toNat = s + n := by
        rw [BitVec.toNat_ofNat, Nat.mod_eq_of_lt (by omega)]
      rw [← m.moved_last hsd, copyDown]
      simp only [← Nat.add_assoc, hprev, hdp, hsp]
      exact ih _ (by omega)

theorem mem_copyUp_written (m : Memory) {n : Nat} {dp sp p : BitVec w} :
    p ∈ (copyUp n dp sp m).2 ↔ ∃ i < n, p = dp + BitVec.ofNat w i := by
  induction n generalizing dp sp m with
  | zero => simp [copyUp]
  | succ n ih =>
      have hnext : ∀ i, dp + 1 + BitVec.ofNat w i = dp + BitVec.ofNat w (i + 1) :=
        fun i => by rw [BitVec.ofNat_add, BitVec.add_comm (BitVec.ofNat w i),
          BitVec.add_assoc]; rfl
      have hfirst : dp + BitVec.ofNat w 0 = dp := BitVec.add_zero dp
      simp only [copyUp, List.mem_cons, ih, hnext, Nat.exists_lt_succ_left, hfirst]

theorem mem_copyDown_written (m : Memory) {n : Nat} {dp sp p : BitVec w} :
    p ∈ (copyDown n (dp + BitVec.ofNat w n) sp m).2 ↔
      ∃ i < n, p = dp + BitVec.ofNat w i := by
  induction n generalizing sp m with
  | zero => simp [copyDown]
  | succ n ih =>
      have hprev : dp + BitVec.ofNat w (n + 1) - 1 = dp + BitVec.ofNat w n := by
        rw [BitVec.ofNat_add, ← BitVec.add_assoc]
        exact BitVec.add_sub_cancel _ _
      simp only [copyDown, hprev, List.mem_cons, ih, Nat.exists_lt_succ_right]
      exact or_comm

/-! ## What `memcpy` moves and where it writes -/

section Call

variable (r : Region) {dest src n : BitVec r.build.xlen} (m : Memory)

theorem memcpy_eq_none_iff (dest src n : BitVec r.build.xlen) (m : Memory) :
    memcpy r dest src n m = none ↔ dest < r.allocStart ∨ dest + n > r.allocEnd := by
  unfold memcpy
  split_ifs with hguard <;> simp [hguard]

theorem mem_written {c : Copied r.build.xlen} (hne : dest ≠ src)
    (hcopy : memcpy r dest src n m = some c) {p : BitVec r.build.xlen} :
    p ∈ c.written ↔ ∃ i < n.toNat, p = dest + BitVec.ofNat _ i := by
  have hend : dest + n = dest + BitVec.ofNat _ n.toNat := by
    rw [BitVec.ofNat_toNat, BitVec.setWidth_eq]
  unfold memcpy at hcopy
  split_ifs at hcopy with hguard hlt
  · obtain rfl := Option.some.inj hcopy
    exact mem_copyUp_written m
  · obtain rfl := Option.some.inj hcopy
    rw [hend]
    exact mem_copyDown_written m

/-- When neither range wraps, the bytes arrive as they were, whichever way the
ranges overlap. -/
theorem memcpy_eq_moved (hlo : r.allocStart.toNat ≤ dest.toNat)
    (hhi : dest.toNat + n.toNat ≤ r.allocEnd.toNat)
    (hsrc : src.toNat + n.toNat ≤ 2 ^ r.build.xlen) :
    ∃ written, memcpy r dest src n m =
      some ⟨dest, m.moved dest.toNat src.toNat n.toNat, written⟩ := by
  have hspace := r.allocEnd.isLt
  have hofNat : ∀ x : BitVec r.build.xlen, BitVec.ofNat _ x.toNat = x := fun x =>
    BitVec.eq_of_toNat_eq (by rw [BitVec.toNat_ofNat, Nat.mod_eq_of_lt x.isLt])
  have hguard : ¬(dest < r.allocStart ∨ dest + n > r.allocEnd) := by
    rw [BitVec.lt_def, gt_iff_lt, BitVec.lt_def, BitVec.toNat_add,
      Nat.mod_eq_of_lt (by omega)]
    omega
  by_cases heq : dest = src
  · refine ⟨[], ?_⟩
    rw [memcpy, if_neg hguard, if_pos heq, heq, Memory.moved_self]
  · have hne : dest.toNat ≠ src.toNat := fun h => heq (BitVec.eq_of_toNat_eq h)
    rw [memcpy, if_neg hguard, if_neg heq]
    by_cases hlt : dest < src
    · have hup := copyUp_memory (w := r.build.xlen) m (BitVec.lt_def.mp hlt)
        (by omega) hsrc
      rw [hofNat, hofNat] at hup
      exact ⟨_, by simp only [if_pos hlt, hup]; rfl⟩
    · have hsd : src.toNat < dest.toNat := by
        rw [BitVec.lt_def] at hlt
        omega
      have hdown := copyDown_memory (w := r.build.xlen) (n := n.toNat) m hsd
        (by omega)
      simp only [BitVec.ofNat_add, hofNat] at hdown
      exact ⟨_, by simp only [if_neg hlt, hdown]; rfl⟩

/-- `memcpy` is a move: the bytes arrive as they were before the call, however
the two ranges overlap, and no others change. -/
theorem memcpy_moves (hlo : r.allocStart.toNat ≤ dest.toNat)
    (hhi : dest.toNat + n.toNat ≤ r.allocEnd.toNat)
    (hsrc : src.toNat + n.toNat ≤ 2 ^ r.build.xlen) :
    ∃ c, memcpy r dest src n m = some c ∧ c.dest = dest ∧
      (∀ i < n.toNat, c.memory (dest.toNat + i) = m (src.toNat + i)) ∧
      Memory.SameOutside dest.toNat (dest.toNat + n.toNat) m c.memory := by
  obtain ⟨written, hcopy⟩ := memcpy_eq_moved r m hlo hhi hsrc
  exact ⟨_, hcopy, rfl, fun i hi => m.moved_at _ _ hi,
    Memory.SameOutside.moved m _ _ _⟩

theorem memcpy_moves_of_overlap :
    ∃ c, memcpy twoPages.toRegion 0x80008001#64 0x80008000#64 3#64
        (fun b => BitVec.ofNat 8 b) = some c ∧ c.dest = 0x80008001#64 ∧
      (∀ i < 3, c.memory (0x80008001 + i) = BitVec.ofNat 8 (0x80008000 + i)) ∧
      Memory.SameOutside 0x80008001 0x80008004 (fun b => BitVec.ofNat 8 b)
        c.memory :=
  memcpy_moves twoPages.toRegion _ (by decide +kernel) (by decide +kernel)
    (by decide +kernel)

def CopyGuarded (dest src n : BitVec r.build.xlen) : Prop :=
  ∀ c, memcpy r dest src n m = some c →
    ∀ p ∈ c.written, r.allocStart ≤ p ∧ p < r.allocEnd

/-- A length with which `dest + n` wraps around passes the guard whenever the
wrapped sum does. -/
theorem memcpy_guarded_iff (dest src n : BitVec r.build.xlen) :
    CopyGuarded r m dest src n ↔
      dest.toNat + n.toNat < 2 ^ r.build.xlen ∨ dest = src ∨
        dest < r.allocStart ∨ dest + n > r.allocEnd := by
  have hspace := r.allocEnd.isLt
  constructor
  · intro hguarded
    by_contra! hnot
    obtain ⟨hwrap, hne, hlo, hhi⟩ := hnot
    obtain ⟨c, hcopy⟩ := Option.ne_none_iff_exists'.mp
      ((memcpy_eq_none_iff r dest src n m).not.mpr (not_or.mpr ⟨hlo, hhi⟩))
    -- the last address of the address space is written
    obtain ⟨i, hi⟩ : ∃ i, dest.toNat + i + 1 = 2 ^ r.build.xlen :=
      ⟨2 ^ r.build.xlen - 1 - dest.toNat, by have := dest.isLt; omega⟩
    have hlast := (hguarded c hcopy _
      ((mem_written r m hne hcopy).mpr ⟨i, by omega, rfl⟩)).2
    rw [BitVec.lt_def, BitVec.toNat_add, BitVec.toNat_ofNat,
      Nat.mod_eq_of_lt (by omega : i < 2 ^ r.build.xlen),
      Nat.mod_eq_of_lt (by omega)] at hlast
    omega
  · intro hcases c hcopy p hp
    by_cases heq : dest = src
    · rw [memcpy, heq, if_pos rfl] at hcopy
      split_ifs at hcopy
      obtain rfl := Option.some.inj hcopy
      exact absurd hp List.not_mem_nil
    · have hguard : ¬(dest < r.allocStart ∨ dest + n > r.allocEnd) := fun h =>
        nomatch ((memcpy_eq_none_iff r dest src n m).mpr h).symm.trans hcopy
      have hnowrap : dest.toNat + n.toNat < 2 ^ r.build.xlen := by
        rcases hcases with h | h | h
        · exact h
        · exact absurd h heq
        · exact absurd h hguard
      obtain ⟨i, hi, rfl⟩ := (mem_written r m heq hcopy).mp hp
      rw [BitVec.lt_def, gt_iff_lt, BitVec.lt_def, BitVec.toNat_add,
        Nat.mod_eq_of_lt hnowrap] at hguard
      rw [BitVec.le_def, BitVec.lt_def, BitVec.toNat_add, BitVec.toNat_ofNat,
        Nat.mod_eq_of_lt (by omega : i < 2 ^ r.build.xlen),
        Nat.mod_eq_of_lt (by omega)]
      omega

end Call

/-- From `_alloc_start` on all addresses but one are written. -/
theorem memcpy_overruns :
    ∃ c, memcpy twoPages.toRegion 0x80008000#64 0x80009000#64 (-1#64)
        (fun _ => 0) = some c ∧
      twoPages.allocEnd ∈ c.written ∧
      ¬CopyGuarded twoPages.toRegion (fun _ => 0) 0x80008000#64 0x80009000#64
        (-1#64) := by
  obtain ⟨c, hcopy⟩ := Option.ne_none_iff_exists'.mp
    ((memcpy_eq_none_iff twoPages.toRegion 0x80008000#64 0x80009000#64 (-1#64)
      fun _ => 0).not.mpr (by decide +kernel))
  have hend : twoPages.allocEnd ∈ c.written :=
    (mem_written twoPages.toRegion _
      (show 0x80008000#64 ≠ 0x80009000#64 by decide) hcopy).mpr
      ⟨0x2000, by decide +kernel, by decide +kernel⟩
  refine ⟨c, hcopy, hend, fun hguarded => ?_⟩
  exact absurd (hguarded c hcopy _ hend).2 (by decide +kernel)

end XinOS.Page
