import Mathlib.Data.BitVec

/-!
# Byte memory

A memory is a total map from addresses to bytes.  Loops of the modelled programs
that rewrite consecutive cells are `modifyRange`; everything known about them is
the closed form `modifyRange_apply`.  Words are kept least significant byte first.
-/

namespace XinOS.Foundation

abbrev Byte := BitVec 8

abbrev Memory := Nat → Byte

namespace Memory

def modify (m : Memory) (a : Nat) (f : Byte → Byte) : Memory :=
  fun b => if b = a then f (m b) else m b

theorem modify_apply (m : Memory) (a : Nat) (f : Byte → Byte) (b : Nat) :
    m.modify a f b = if b = a then f (m b) else m b := rfl

@[simp] theorem modify_self (m : Memory) (a : Nat) (f : Byte → Byte) :
    m.modify a f a = f (m a) := by
  simp [modify_apply]

theorem modify_of_ne {m : Memory} {a b : Nat} {f : Byte → Byte} (h : b ≠ a) :
    m.modify a f b = m b := by
  simp [modify_apply, h]

def modifyRange (f : Byte → Byte) : Nat → Nat → Memory → Memory
  | 0, _, m => m
  | n + 1, a, m => modifyRange f n (a + 1) (m.modify a f)

theorem modifyRange_apply (f : Byte → Byte) (n a : Nat) (m : Memory)
    (b : Nat) :
    modifyRange f n a m b = if a ≤ b ∧ b < a + n then f (m b) else m b := by
  induction n generalizing a m with
  | zero =>
      have hout : ¬(a ≤ b ∧ b < a + 0) := by omega
      rw [modifyRange, if_neg hout]
  | succ n ih =>
      rw [modifyRange, ih, modify_apply]
      by_cases hb : b = a
      · subst hb
        rw [if_neg (by omega), if_pos rfl, if_pos (by omega)]
      · have hiff : (a + 1 ≤ b ∧ b < a + 1 + n) ↔ (a ≤ b ∧ b < a + (n + 1)) := by
          omega
        rw [if_neg hb]
        simp only [hiff]

/-- `m'` differs from `m` at most on the addresses in `[lo, hi)`. -/
def SameOutside (lo hi : Nat) (m m' : Memory) : Prop :=
  ∀ b, b < lo ∨ hi ≤ b → m' b = m b

theorem SameOutside.refl (lo hi : Nat) (m : Memory) : SameOutside lo hi m m :=
  fun _ _ => rfl

theorem SameOutside.trans {lo hi : Nat} {m₁ m₂ m₃ : Memory}
    (h : SameOutside lo hi m₁ m₂) (h' : SameOutside lo hi m₂ m₃) :
    SameOutside lo hi m₁ m₃ :=
  fun b hb => (h' b hb).trans (h b hb)

theorem SameOutside.mono {lo hi lo' hi' : Nat} {m m' : Memory}
    (h : SameOutside lo hi m m') (hlo : lo' ≤ lo) (hhi : hi ≤ hi') :
    SameOutside lo' hi' m m' :=
  fun b hb => h b (by omega)

theorem SameOutside.modify {lo hi a : Nat} (m : Memory) (f : Byte → Byte)
    (hlo : lo ≤ a) (hhi : a < hi) : SameOutside lo hi m (m.modify a f) :=
  fun _ hb => modify_of_ne (by omega)

theorem SameOutside.modifyRange {lo hi a n : Nat} (m : Memory)
    (f : Byte → Byte) (hlo : lo ≤ a) (hhi : a + n ≤ hi) :
    SameOutside lo hi m (Memory.modifyRange f n a m) := by
  intro b hb
  rw [modifyRange_apply, if_neg (by omega)]

/-! ## Moving bytes -/

def moved (m : Memory) (d s n : Nat) : Memory :=
  fun b => if d ≤ b ∧ b < d + n then m (s + (b - d)) else m b

theorem moved_zero (m : Memory) (d s : Nat) : m.moved d s 0 = m := by
  funext b
  rw [moved, if_neg (by omega)]

theorem moved_self (m : Memory) (a n : Nat) : m.moved a a n = m := by
  funext b
  rw [moved]
  split_ifs with hb
  · rw [Nat.add_sub_cancel' hb.1]
  · rfl

theorem moved_at (m : Memory) (d s : Nat) {n i : Nat} (hi : i < n) :
    m.moved d s n (d + i) = m (s + i) := by
  rw [moved, if_pos (by omega), Nat.add_sub_cancel_left]

theorem SameOutside.moved (m : Memory) (d s n : Nat) :
    SameOutside d (d + n) m (m.moved d s n) :=
  fun _ hb => if_neg (by omega)

/-- Moving down, the first byte may go first: it overwrites no byte that is still
to be read. -/
theorem moved_first (m : Memory) {d s : Nat} (hds : d < s) (n : Nat) :
    (m.modify d fun _ => m s).moved (d + 1) (s + 1) n = m.moved d s (n + 1) := by
  funext b
  simp only [moved, modify_apply]
  by_cases hb : b = d
  · rw [hb, if_neg (by omega), if_pos rfl, if_pos (by omega), Nat.sub_self,
      Nat.add_zero]
  · by_cases hin : d + 1 ≤ b ∧ b < d + 1 + n
    · rw [if_pos hin, if_neg (by omega), if_pos (by omega),
        show s + 1 + (b - (d + 1)) = s + (b - d) by omega]
    · rw [if_neg hin, if_neg hb, if_neg (by omega)]

theorem moved_last (m : Memory) {d s : Nat} (hsd : s < d) (n : Nat) :
    (m.modify (d + n) fun _ => m (s + n)).moved d s n = m.moved d s (n + 1) := by
  funext b
  simp only [moved, modify_apply]
  by_cases hb : b = d + n
  · rw [hb, if_neg (by omega), if_pos rfl, if_pos (by omega),
      Nat.add_sub_cancel_left]
  · by_cases hin : d ≤ b ∧ b < d + n
    · rw [if_pos hin, if_neg (by omega), if_pos (by omega)]
    · rw [if_neg hin, if_neg hb, if_neg (by omega)]

/-! ## Words -/

/-- The number in the `n` bytes from `a` on, least significant byte first. -/
def load (m : Memory) : Nat → Nat → Nat
  | 0, _ => 0
  | n + 1, a => (m a).toNat + 256 * load m n (a + 1)

def store (m : Memory) : Nat → Nat → Nat → Memory
  | 0, _, _ => m
  | n + 1, a, v => store (m.modify a fun _ => BitVec.ofNat 8 v) n (a + 1) (v / 256)

theorem SameOutside.store (m : Memory) (n a v : Nat) :
    SameOutside a (a + n) m (m.store n a v) := by
  induction n generalizing m a v with
  | zero => exact SameOutside.refl _ _ m
  | succ n ih =>
      have hfirst : SameOutside a (a + (n + 1)) m
          (m.modify a fun _ => BitVec.ofNat 8 v) :=
        SameOutside.modify m _ (by omega) (by omega)
      exact hfirst.trans ((ih _ _ _).mono (by omega) (by omega))

theorem load_congr {m m' : Memory} {n a : Nat}
    (h : ∀ b, a ≤ b → b < a + n → m' b = m b) : m'.load n a = m.load n a := by
  induction n generalizing a with
  | zero => rfl
  | succ n ih =>
      rw [load, load, h a (by omega) (by omega),
        ih fun b hlo hhi => h b (by omega) (by omega)]

theorem load_lt (m : Memory) (n a : Nat) : m.load n a < 256 ^ n := by
  induction n generalizing a with
  | zero => exact Nat.one_pos
  | succ n ih =>
      have := ih (a + 1)
      have := (m a).isLt
      rw [load, pow_succ]
      omega

theorem load_store (m : Memory) (n a v : Nat) :
    (m.store n a v).load n a = v % 256 ^ n := by
  induction n generalizing m a v with
  | zero => rw [load, pow_zero, Nat.mod_one]
  | succ n ih =>
      have hbyte : ((m.modify a fun _ => BitVec.ofNat 8 v).store n (a + 1)
          (v / 256)) a = BitVec.ofNat 8 v := by
        rw [SameOutside.store _ _ _ _ a (by omega), modify_self]
      have hsplit : v % 256 ^ (n + 1) = v % 256 + 256 * (v / 256 % 256 ^ n) := by
        rw [pow_succ, Nat.mul_comm, Nat.mod_mul]
      rw [load, store, hbyte, ih, hsplit]
      rfl

theorem load_store_self (m : Memory) {n v : Nat} (a : Nat) (hv : v < 256 ^ n) :
    (m.store n a v).load n a = v := by
  rw [load_store, Nat.mod_eq_of_lt hv]

theorem load_store_apart (m : Memory) {n a n' a' : Nat} (v : Nat)
    (h : a' + n' ≤ a ∨ a + n ≤ a') :
    (m.store n a v).load n' a' = m.load n' a' :=
  load_congr fun b hlo hhi => SameOutside.store m n a v b (by omega)

/-! ## Fields of an object -/

structure Word where
  offset : Nat
  size : Nat
  value : Nat

def Word.Apart (f g : Word) : Prop :=
  f.offset + f.size ≤ g.offset ∨ g.offset + g.size ≤ f.offset

instance : Std.Symm Word.Apart := ⟨fun _ _ => Or.symm⟩

def storeAll (m : Memory) (a : Nat) (fields : List Word) : Memory :=
  fields.foldl (fun m f => m.store f.size (a + f.offset) f.value) m

theorem storeAll_cons (m : Memory) (a : Nat) (f : Word) (fields : List Word) :
    m.storeAll a (f :: fields) =
      (m.store f.size (a + f.offset) f.value).storeAll a fields := rfl

theorem SameOutside.storeAll {fields : List Word} {size : Nat} (m : Memory) (a : Nat)
    (hin : ∀ f ∈ fields, f.offset + f.size ≤ size) :
    SameOutside a (a + size) m (m.storeAll a fields) := by
  induction fields generalizing m with
  | nil => exact SameOutside.refl _ _ m
  | cons f fields ih =>
      have hfirst := SameOutside.store m f.size (a + f.offset) f.value
      have hroom := hin f (by simp)
      exact (hfirst.mono (by omega) (by omega)).trans
        (ih _ fun g hg => hin g (by simp [hg]))

theorem load_storeAll_apart {fields : List Word} {n o : Nat} (m : Memory) (a : Nat)
    (hapart : ∀ f ∈ fields, f.offset + f.size ≤ o ∨ o + n ≤ f.offset) :
    (m.storeAll a fields).load n (a + o) = m.load n (a + o) := by
  induction fields generalizing m with
  | nil => rfl
  | cons f fields ih =>
      have hfirst := hapart f (by simp)
      rw [storeAll_cons, ih _ fun g hg => hapart g (by simp [hg])]
      exact load_store_apart m f.value (by omega)

theorem load_storeAll {fields : List Word} {f : Word} (m : Memory) (a : Nat)
    (hapart : fields.Pairwise Word.Apart) (hf : f ∈ fields) :
    (m.storeAll a fields).load f.size (a + f.offset) = f.value % 256 ^ f.size := by
  induction fields generalizing m with
  | nil => cases hf
  | cons g fields ih =>
      obtain ⟨hfirst, hapart⟩ := List.pairwise_cons.mp hapart
      rw [storeAll_cons]
      rcases List.mem_cons.mp hf with rfl | hf
      · rw [load_storeAll_apart _ _ fun g hg => (hfirst g hg).symm]
        exact load_store m _ _ _
      · exact ih _ hapart hf

end Memory

end XinOS.Foundation
