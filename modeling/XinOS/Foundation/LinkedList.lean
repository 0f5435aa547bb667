import Mathlib.Data.List.Basic
import Mathlib.Data.List.TakeWhile
import Mathlib.Data.Finset.Card
import Mathlib.Order.Interval.Finset.Nat

/-!
# Singly linked lists in a store

A store gives each cell the pointer to its successor; `none` is the null pointer.
The file says which cells a path through the store meets, what the usual loop
that searches a list with a trailing pointer finds, and what inserting and
unlinking a cell does to the path.  Sorted lists are kept in order of a key.
-/

namespace XinOS.Foundation

variable {α : Type*}

/-- Following `next` from `p` one meets exactly the cells of `l`, and then
`q`. -/
def Path (next : α → Option α) : Option α → List α → Option α → Prop
  | p, [], q => p = q
  | p, x :: l, q => p = some x ∧ Path next (next x) l q

/--
The loop `while (it && cond(it)) { prev = it; it = it->next; }`; it returns the
final values of `it` and `prev`, unless it runs longer than the fuel allows.
-/
def walk (next : α → Option α) (cond : α → Bool) :
    Nat → Option α → α → Option (Option α × α)
  | 0, _, _ => none
  | _ + 1, none, prev => some (none, prev)
  | fuel + 1, some p, prev =>
      if cond p then walk next cond fuel (next p) p else some (some p, prev)

section Cells

variable {β : Type*} {x y : α} {l l₁ l₂ : List α} [DecidableEq α]

theorem update_of_mem {f : α → β} (hx : x ∉ l) (hy : y ∈ l) (b : β) :
    Function.update f x b y = f y :=
  Function.update_of_ne (fun heq : y = x => hx (heq ▸ hy)) _ _

theorem erase_middle (hx : x ∉ l₁) :
    (l₁ ++ x :: l₂).erase x = l₁ ++ l₂ := by
  rw [List.erase_append_right _ hx, List.erase_cons_head]

end Cells

namespace Path

variable {next next' : α → Option α} {p q : Option α} {l l₁ l₂ : List α} {x : α}

@[simp] theorem nil_iff : Path next p [] q ↔ p = q := Iff.rfl

@[simp] theorem cons_iff :
    Path next p (x :: l) q ↔ p = some x ∧ Path next (next x) l q := Iff.rfl

theorem append_iff :
    Path next p (l₁ ++ l₂) q ↔ ∃ r, Path next p l₁ r ∧ Path next r l₂ q := by
  induction l₁ generalizing p with
  | nil => simp
  | cons x l₁ ih =>
      simp only [List.cons_append, cons_iff, ih]
      constructor
      · rintro ⟨hp, r, hfront, hback⟩
        exact ⟨r, ⟨hp, hfront⟩, hback⟩
      · rintro ⟨r, ⟨hp, hfront⟩, hback⟩
        exact ⟨hp, r, hfront, hback⟩

theorem congr (h : Path next p l q) (hnext : ∀ x ∈ l, next' x = next x) :
    Path next' p l q := by
  induction l generalizing p with
  | nil => exact h
  | cons x l ih =>
      obtain ⟨hp, hrest⟩ := h
      refine ⟨hp, ?_⟩
      rw [hnext x (by simp)]
      exact ih hrest fun y hy => hnext y (by simp [hy])

theorem head_eq (h : Path next p l none) : p = l.head? := by
  cases l with
  | nil => exact h
  | cons x l => exact h.1

theorem first_mem (h : Path next (some x) l none) : x ∈ l := by
  cases l with
  | nil => cases h
  | cons y l =>
      obtain rfl : x = y := Option.some.inj h.1
      exact List.mem_cons_self

theorem next_mem {y : α} (h : Path next p l none) (hx : x ∈ l)
    (hy : next x = some y) : y ∈ l := by
  induction l generalizing p with
  | nil => cases hx
  | cons z l ih =>
      rcases List.mem_cons.mp hx with rfl | hx
      · exact List.mem_cons_of_mem _ (first_mem (hy ▸ h.2))
      · exact List.mem_cons_of_mem _ (ih h.2 hx)

theorem exists_head (h : Path next p (l₁ ++ x :: l₂) none) :
    ∃ y, p = some y := by
  rw [h.head_eq]
  cases l₁ <;> simp

theorem head_mem {y : α} (h : Path next p (l₁ ++ l₂) none) (hl₁ : l₁ ≠ [])
    (hp : p = some y) : y ∈ l₁ := by
  cases l₁ with
  | nil => exact absurd rfl hl₁
  | cons x l₁ =>
      obtain rfl : x = y := Option.some.inj (h.1.symm.trans hp)
      exact List.mem_cons_self

section Update

variable [DecidableEq α]

theorem update_of_notMem (h : Path next p l q) (hx : x ∉ l) (r : Option α) :
    Path (Function.update next x r) p l q :=
  h.congr fun _ hy => update_of_mem hx hy r

theorem redirect (h : Path next p (l ++ [x]) q) (hx : x ∉ l) (r : Option α) :
    Path (Function.update next x r) p (l ++ [x]) r := by
  obtain ⟨s, hl, hlast⟩ := append_iff.mp h
  refine append_iff.mpr ⟨s, hl.update_of_notMem hx r, hlast.1, ?_⟩
  rw [nil_iff, Function.update_self]

theorem insert_front (h : Path next p l none) (hx : x ∉ l) :
    Path (Function.update next x p) (some x) (x :: l) none := by
  refine ⟨rfl, ?_⟩
  rw [Function.update_self]
  exact h.update_of_notMem hx p

theorem insert_behind {y : α} (h : Path next p (l₁ ++ y :: l₂) none)
    (hnodup : (l₁ ++ y :: l₂).Nodup) (hx : x ∉ l₁ ++ y :: l₂) :
    Path (Function.update (Function.update next y (some x)) x l₂.head?) p
      (l₁ ++ y :: x :: l₂) none := by
  have hy := (List.nodup_middle.mp hnodup).notMem
  rw [List.append_cons] at h hx
  obtain ⟨r, hfront, hback⟩ := append_iff.mp h
  have hy₁ : y ∉ l₁ := fun hmem => hy (List.mem_append_left _ hmem)
  have hy₂ : y ∉ l₂ := fun hmem => hy (List.mem_append_right _ hmem)
  have hx₁ : x ∉ l₁ ++ [y] := fun hmem => hx (List.mem_append_left _ hmem)
  have hx₂ : x ∉ l₂ := fun hmem => hx (List.mem_append_right _ hmem)
  rw [List.append_cons]
  refine append_iff.mpr ⟨some x, ?_, rfl, ?_⟩
  · exact (hfront.redirect hy₁ (some x)).update_of_notMem hx₁ _
  · rw [Function.update_self, ← hback.head_eq]
    exact (hback.update_of_notMem hy₂ _).update_of_notMem hx₂ _

theorem unlink_behind {y : α} (h : Path next p (l₁ ++ y :: x :: l₂) none)
    (hnodup : (l₁ ++ y :: x :: l₂).Nodup) :
    Path (Function.update next y (next x)) p (l₁ ++ y :: l₂) none := by
  have hy := (List.nodup_middle.mp hnodup).notMem
  rw [List.append_cons] at h
  obtain ⟨r, hfront, hback⟩ := append_iff.mp h
  have hy₁ : y ∉ l₁ := fun hmem => hy (List.mem_append_left _ hmem)
  have hy₂ : y ∉ l₂ := fun hmem =>
    hy (List.mem_append_right _ (List.mem_cons_of_mem _ hmem))
  rw [List.append_cons]
  exact append_iff.mpr ⟨next x, hfront.redirect hy₁ _,
    hback.2.update_of_notMem hy₂ _⟩

end Update

/-- The search stops at the first cell that fails the condition, with the cell
before it. -/
theorem walk_eq {cond : α → Bool} (h : Path next p l none) {fuel : Nat}
    (hfuel : l.length < fuel) (prev : α) :
    walk next cond fuel p prev = some ((l.dropWhile cond).head?,
      (l.takeWhile cond).getLastD prev) := by
  induction l generalizing p prev fuel with
  | nil =>
      obtain ⟨fuel, rfl⟩ : ∃ f, fuel = f + 1 := ⟨fuel - 1, by simp at hfuel; omega⟩
      obtain rfl : p = none := h
      rfl
  | cons x l ih =>
      obtain ⟨fuel, rfl⟩ : ∃ f, fuel = f + 1 := ⟨fuel - 1, by simp at hfuel; omega⟩
      obtain ⟨rfl, hrest⟩ := h
      by_cases hx : cond x = true
      · rw [walk, if_pos hx, ih hrest (by simpa using hfuel),
          List.dropWhile_cons_of_pos hx, List.takeWhile_cons_of_pos hx,
          List.getLastD_cons]
      · rw [walk, if_neg hx]
        simp [hx]

theorem walk_find {cond : α → Bool} (h : Path next p (l₁ ++ x :: l₂) none)
    (hpre : ∀ y ∈ l₁, cond y = true) (hx : cond x = false) {fuel : Nat}
    (hfuel : (l₁ ++ x :: l₂).length < fuel) (prev : α) :
    walk next cond fuel p prev = some (some x, l₁.getLastD prev) := by
  rw [h.walk_eq hfuel, List.dropWhile_append_of_pos hpre,
    List.takeWhile_append_of_pos hpre]
  simp [hx]

theorem walk_all {cond : α → Bool} (h : Path next p l none)
    (hall : ∀ y ∈ l, cond y = true) {fuel : Nat} (hfuel : l.length < fuel)
    (prev : α) : walk next cond fuel p prev = some (none, l.getLastD prev) := by
  rw [h.walk_eq hfuel, List.dropWhile_eq_nil_iff.mpr hall,
    List.takeWhile_eq_self_iff.mpr hall, List.head?_nil]

theorem walk_congr {cond cond' : α → Bool} (h : Path next p l none)
    (hnext : ∀ x ∈ l, next' x = next x) (hcond : ∀ x ∈ l, cond' x = cond x)
    (fuel : Nat) (prev : α) :
    walk next' cond' fuel p prev = walk next cond fuel p prev := by
  induction l generalizing p prev fuel with
  | nil =>
      obtain rfl : p = none := h
      cases fuel <;> rfl
  | cons x l ih =>
      obtain ⟨rfl, hrest⟩ := h
      cases fuel with
      | zero => rfl
      | succ fuel =>
          have hx : x ∈ x :: l := List.mem_cons_self
          rw [walk, walk, hnext x hx, hcond x hx,
            ih hrest (fun y hy => hnext y (List.mem_cons_of_mem _ hy))
              fun y hy => hcond y (List.mem_cons_of_mem _ hy)]

theorem walk_prev {cond : α → Bool} (h : Path next p l none) {fuel : Nat}
    {prev prev' : α} {r : Option α} (hwalk : walk next cond fuel p prev = some (r, prev')) :
    prev' = prev ∨ prev' ∈ l := by
  induction l generalizing p prev fuel with
  | nil =>
      obtain rfl : p = none := h
      cases fuel with
      | zero => cases hwalk
      | succ fuel =>
          cases hwalk
          exact .inl rfl
  | cons x l ih =>
      obtain ⟨rfl, hrest⟩ := h
      cases fuel with
      | zero => cases hwalk
      | succ fuel =>
          rw [walk] at hwalk
          split at hwalk
          · rcases ih hrest hwalk with rfl | hmem
            · exact .inr List.mem_cons_self
            · exact .inr (List.mem_cons_of_mem _ hmem)
          · cases hwalk
            exact .inl rfl

theorem walk_stops {cond : α → Bool} {fuel : Nat} {prev prev' y : α}
    (hwalk : walk next cond fuel p prev = some (some y, prev')) : cond y = false := by
  induction fuel generalizing p prev with
  | zero => cases hwalk
  | succ fuel ih =>
      cases p with
      | none => cases hwalk
      | some x =>
          rw [walk] at hwalk
          split at hwalk
          · exact ih hwalk
          · cases hwalk
            simp_all

theorem walk_ends (h : Path next (some x) l none) (cond : α → Bool) {fuel : Nat}
    (hfuel : l.length < fuel) :
    ∃ r prev, walk next cond fuel (some x) x = some (r, prev) ∧
      (∀ y, r = some y → y ∈ l) ∧ prev ∈ l := by
  have hwalk : walk next cond fuel (some x) x = _ := h.walk_eq hfuel x
  refine ⟨_, _, hwalk, fun y hy => ?_, ?_⟩
  · exact (List.dropWhile_sublist cond).subset (List.mem_of_mem_head? hy)
  · rcases h.walk_prev hwalk with heq | hmem
    · rw [heq]
      exact h.first_mem
    · exact hmem

theorem unique (h₁ : Path next p l₁ none) (h₂ : Path next p l₂ none) :
    l₁ = l₂ := by
  induction l₁ generalizing p l₂ with
  | nil =>
      obtain rfl : p = none := h₁
      cases l₂ with
      | nil => rfl
      | cons y l₂ => exact absurd h₂.1 (by simp)
  | cons x l₁ ih =>
      cases l₂ with
      | nil => exact absurd (h₁.1.symm.trans h₂) (by simp)
      | cons y l₂ =>
          obtain rfl : x = y := Option.some.inj (h₁.1.symm.trans h₂.1)
          rw [ih h₁.2 h₂.2]

theorem nodup (h : Path next p l none) : l.Nodup := by
  induction l generalizing p with
  | nil => exact .nil
  | cons x l ih =>
      refine List.nodup_cons.mpr ⟨fun hx => ?_, ih h.2⟩
      obtain ⟨front, back, rfl⟩ := List.append_of_mem hx
      obtain ⟨_, _, hback⟩ := append_iff.mp h.2
      have hlength := congrArg List.length (h.2.unique hback.2)
      simp only [List.length_append, List.length_cons] at hlength
      omega

end Path

def Linked (next : α → Option α) (p : Option α) (x : α) : Prop :=
  ∃ l, Path next p l none ∧ x ∈ l

theorem Path.linked_iff {next : α → Option α} {p : Option α} {l : List α}
    (h : Path next p l none) {x : α} : Linked next p x ↔ x ∈ l := by
  constructor
  · rintro ⟨l', h', hx⟩
    rwa [h.unique h']
  · exact fun hx => ⟨l, h, hx⟩

/-! ## Insertion in order of a key -/

section Sorted

variable {κ : Type*} [LinearOrder κ]

/-- `x` behind the cells of `l` whose key is at most its own. -/
def insertByKey (key : α → κ) (x : α) (l : List α) : List α :=
  l.takeWhile (fun y => decide (key y ≤ key x)) ++
    x :: l.dropWhile (fun y => decide (key y ≤ key x))

variable {key : α → κ} {x : α} {l : List α}

theorem insertByKey_perm (key : α → κ) (x : α) (l : List α) :
    (insertByKey key x l).Perm (x :: l) := by
  refine List.perm_middle.trans (List.Perm.cons x ?_)
  rw [List.takeWhile_append_dropWhile]

theorem lt_of_mem_dropWhile (h : l.Pairwise fun a b => key a ≤ key b) {z : α}
    (hz : z ∈ l.dropWhile fun y => decide (key y ≤ key x)) : key x < key z := by
  have hback := h.sublist (List.dropWhile_sublist fun y => decide (key y ≤ key x))
  cases hdrop : l.dropWhile fun y => decide (key y ≤ key x) with
  | nil => simp [hdrop] at hz
  | cons y rest =>
      have hy := List.head_dropWhile_not (fun y => decide (key y ≤ key x))
        (l := l) (by rw [hdrop]; simp)
      simp only [hdrop, List.head_cons, decide_eq_false_iff_not, not_le] at hy
      rw [hdrop] at hz hback
      rcases List.mem_cons.mp hz with rfl | hz
      · exact hy
      · exact hy.trans_le ((List.pairwise_cons.mp hback).1 z hz)

theorem insertByKey_sorted (h : l.Pairwise fun a b => key a ≤ key b) :
    (insertByKey key x l).Pairwise fun a b => key a ≤ key b := by
  have hlt : ∀ z ∈ l.dropWhile fun y => decide (key y ≤ key x), key x ≤ key z :=
    fun z hz => (lt_of_mem_dropWhile h hz).le
  have hle : ∀ y ∈ l.takeWhile fun y => decide (key y ≤ key x), key y ≤ key x :=
    fun y hy => by simpa using List.mem_takeWhile_imp hy
  rw [← List.takeWhile_append_dropWhile
    (p := fun y => decide (key y ≤ key x)) (l := l), List.pairwise_append] at h
  obtain ⟨hfront, hback, hcross⟩ := h
  rw [insertByKey, List.pairwise_append, List.pairwise_cons]
  refine ⟨hfront, ⟨hlt, hback⟩, fun y hy z hz => ?_⟩
  rcases List.mem_cons.mp hz with rfl | hz
  · exact hle y hy
  · exact hcross y hy z hz

/-- Among the cells of one key the new one comes last. -/
theorem insertByKey_filter (h : l.Pairwise fun a b => key a ≤ key b) (v : κ) :
    (insertByKey key x l).filter (fun y => decide (key y = v)) =
      l.filter (fun y => decide (key y = v)) ++
        [x].filter fun y => decide (key y = v) := by
  have hdrop : key x = v →
      (l.dropWhile fun y => decide (key y ≤ key x)).filter
        (fun y => decide (key y = v)) = [] := by
    rintro rfl
    simp only [List.filter_eq_nil_iff, decide_eq_true_eq]
    exact fun z hz => (lt_of_mem_dropWhile h hz).ne'
  conv_rhs => rw [← List.takeWhile_append_dropWhile
    (p := fun y => decide (key y ≤ key x)) (l := l)]
  simp only [insertByKey, List.filter_append, List.filter_cons, List.filter_nil]
  by_cases hv : key x = v
  · rw [hdrop hv]
    simp [hv]
  · simp [hv]

theorem sorted_congr {key' : α → κ} (h : l.Pairwise fun a b => key a ≤ key b)
    (hkey : ∀ x ∈ l, key' x = key x) :
    l.Pairwise fun a b => key' a ≤ key' b :=
  h.imp_of_mem fun {a b} ha hb hle => by rwa [hkey a ha, hkey b hb]

theorem insertByKey_front {y : α} (hlt : key x < key y) :
    insertByKey key x (y :: l) = x :: y :: l := by
  simp [insertByKey, not_le.mpr hlt]

theorem insertByKey_cons_of_le {y : α} (hle : key y ≤ key x) :
    insertByKey key x (y :: l) = y :: insertByKey key x l := by
  simp [insertByKey, hle]

theorem insertByKey_append_of_le {l₁ : List α} (hle : ∀ y ∈ l₁, key y ≤ key x) :
    insertByKey key x (l₁ ++ l) = l₁ ++ insertByKey key x l := by
  induction l₁ with
  | nil => rfl
  | cons y l₁ ih =>
      rw [List.cons_append, insertByKey_cons_of_le (hle y (by simp)),
        ih fun z hz => hle z (by simp [hz]), List.cons_append]

theorem insertByKey_append_of_lt {y : α} (hlt : key x < key y) (l₁ : List α) :
    insertByKey key x (l₁ ++ y :: l) = insertByKey key x l₁ ++ y :: l := by
  induction l₁ with
  | nil => exact insertByKey_front hlt
  | cons z l₁ ih =>
      rw [List.cons_append]
      by_cases hz : key z ≤ key x
      · rw [insertByKey_cons_of_le hz, insertByKey_cons_of_le hz, ih,
          List.cons_append]
      · rw [insertByKey_front (not_le.mp hz), insertByKey_front (not_le.mp hz)]
        rfl

theorem Path.walk_place {next : α → Option α} {p : Option α} {y : α}
    (h : Path next p (y :: l) none) (hle : key y ≤ key x) {fuel : Nat}
    (hfuel : (y :: l).length < fuel) :
    ∃ l₁ z l₂, y :: l = l₁ ++ z :: l₂ ∧
      insertByKey key x (y :: l) = l₁ ++ z :: x :: l₂ ∧
      walk next (fun it => decide (key it ≤ key x)) fuel p y =
        some (l₂.head?, z) := by
  have hcons : (y :: l).takeWhile (fun it => decide (key it ≤ key x)) ≠ [] := by
    simp [hle]
  obtain ⟨l₁, z, hsplit⟩ := (List.eq_nil_or_concat _).resolve_left hcons
  rw [List.concat_eq_append] at hsplit
  refine ⟨l₁, z, (y :: l).dropWhile fun it => decide (key it ≤ key x), ?_, ?_, ?_⟩
  · rw [List.append_cons, ← hsplit, List.takeWhile_append_dropWhile]
  · rw [insertByKey, hsplit, ← List.append_cons]
  · rw [h.walk_eq hfuel, hsplit, List.getLastD_concat]

theorem insertByKey_erase [DecidableEq α] (key : α → κ) (hx : x ∉ l) :
    (insertByKey key x l).erase x = l := by
  have hfront : x ∉ l.takeWhile fun y => decide (key y ≤ key x) :=
    fun hmem => hx ((List.takeWhile_prefix _).subset hmem)
  rw [insertByKey, erase_middle hfront, List.takeWhile_append_dropWhile]

end Sorted

/-! ## Lists of addresses -/

theorem length_le_of_nodup {n : Nat} {l : List Nat} (hnodup : l.Nodup)
    (hlt : ∀ x ∈ l, x < n) : l.length ≤ n := by
  have hsub : l.toFinset ⊆ Finset.range n := by
    intro x hx
    exact Finset.mem_range.mpr (hlt x (List.mem_toFinset.mp hx))
  have hcard := Finset.card_le_card hsub
  rwa [List.toFinset_card_of_nodup hnodup, Finset.card_range] at hcard

theorem length_lt_of_nodup {n : Nat} {l : List Nat} (hnodup : l.Nodup)
    (hlt : ∀ x ∈ l, 0 < x ∧ x < n) (hn : 0 < n) : l.length < n := by
  have hcons : (0 :: l).Nodup := List.nodup_cons.mpr
    ⟨fun hmem => absurd (hlt 0 hmem).1 (lt_irrefl 0), hnodup⟩
  refine length_le_of_nodup hcons fun x hx => ?_
  rcases List.mem_cons.mp hx with rfl | hx
  · exact hn
  · exact (hlt x hx).2

end XinOS.Foundation
