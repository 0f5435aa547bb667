import XinOS.Foundation.LinkedList
import Mathlib.Data.Set.Basic

/-!
# Lists that lose cells during a walk

A walk through a list can hold a cell that somebody else takes out of the list.
Such a cell is dead, but it keeps its pointer.  Whatever is taken out, the pointers
of the cells lead on through the live ones behind them.
-/

namespace XinOS.Foundation

variable {α : Type*}

/-- From `p`, and from each cell of `l`, one meets the cells of `l` behind it in
their order, but for dead ones. -/
def Thread (next : α → Option α) (dead : α → Prop) : Option α → List α → Prop
  | p, [] => p = none
  | p, x :: l => Thread next dead (next x) l ∧ (p = some x ∨ dead x ∧ Thread next dead p l)

def Bypass (d : α) (next next' : α → Option α) : Prop :=
  ∀ x, next' x = next x ∨ next x = some d ∧ next' x = next d

def Avoids (next : α → Option α) (p : Option α) (x : α) : Prop :=
  ∃ S : Set α, x ∉ S ∧ (∀ y, p = some y → y ∈ S) ∧
    ∀ z ∈ S, ∀ y, next z = some y → y ∈ S

def Unlinks [DecidableEq α] (d : α) (next next' : α → Option α) (p p' : Option α) :
    Prop :=
  p = some d ∧ p' = next d ∧ next' = next ∨
    p ≠ some d ∧ p' = p ∧
      ∃ y, ¬Avoids next p y ∧ next y = some d ∧
        next' = Function.update next y (next d)

def Endless (next : α → Option α) (p : Option α) : Prop :=
  ∃ S : Set α, (∃ y ∈ S, p = some y) ∧ ∀ z ∈ S, ∃ y ∈ S, next z = some y

def MetOnce [DecidableEq α] (next : α → Option α) (p : Option α) (x : α) : Prop :=
  ∃ l, Path next p l none ∧ l.count x = 1

variable {next next' : α → Option α} {dead dead' : α → Prop} {p p' : Option α}
variable {l l₁ l₂ : List α} {d x y : α}

theorem metOnce_iff [DecidableEq α] : MetOnce next p x ↔ Linked next p x := by
  refine exists_congr fun l => and_congr_right fun hpath => ?_
  rw [hpath.nodup.count]
  split <;> simp_all

theorem enters_of_skip {S : Set α} (hd : d ∈ S → ∃ y ∈ S, next d = some y)
    (hp : p' = p ∨ p = some d ∧ p' = next d) (h : ∃ y ∈ S, p = some y) :
    ∃ y ∈ S, p' = some y := by
  obtain ⟨y, hy, hfirst⟩ := h
  rcases hp with rfl | ⟨heq, rfl⟩
  · exact ⟨y, hy, hfirst⟩
  · obtain rfl : y = d := Option.some.inj (hfirst.symm.trans heq)
    exact hd hy

namespace Unlinks

variable [DecidableEq α]

theorem bypass (h : Unlinks d next next' p p') : Bypass d next next' := by
  intro z
  obtain ⟨-, -, rfl⟩ | ⟨-, -, y, -, hy, rfl⟩ := h
  · exact .inl rfl
  · by_cases hz : z = y
    · subst hz
      exact .inr ⟨hy, Function.update_self ..⟩
    · exact .inl (Function.update_of_ne hz ..)

theorem start (h : Unlinks d next next' p p') : p' = p ∨ p = some d ∧ p' = next d := by
  obtain ⟨hp, hp', -⟩ | ⟨-, hp', -⟩ := h
  · exact .inr ⟨hp, hp'⟩
  · exact .inl hp'

end Unlinks

/-! ## Threads -/

namespace Thread

theorem mem (h : Thread next dead (some x) l) : x ∈ l := by
  induction l with
  | nil => cases h
  | cons y l ih =>
      obtain ⟨-, heq | ⟨-, hrest⟩⟩ := h
      · obtain rfl : x = y := Option.some.inj heq
        exact List.mem_cons_self
      · exact List.mem_cons_of_mem _ (ih hrest)

theorem behind (h : Thread next dead p (l₁ ++ x :: l₂)) : Thread next dead (next x) l₂ := by
  induction l₁ generalizing p with
  | nil => exact h.1
  | cons y l₁ ih => exact ih h.1

theorem congr (h : Thread next dead p l) (hnext : ∀ x ∈ l, next' x = next x) :
    Thread next' dead p l := by
  induction l generalizing p with
  | nil => exact h
  | cons x l ih =>
      have hrest : ∀ y ∈ l, next' y = next y := fun y hy => hnext y (by simp [hy])
      obtain ⟨hback, hcase⟩ := h
      refine ⟨?_, hcase.imp_right fun hskip => ⟨hskip.1, ih hskip.2 hrest⟩⟩
      rw [hnext x (by simp)]
      exact ih hback hrest

theorem exists_path (h : Thread next dead p l) :
    ∃ l', Path next p l' none ∧ (∀ x ∈ l', x ∈ l) ∧ ∀ x ∈ l, ¬dead x → x ∈ l' := by
  induction l generalizing p with
  | nil => exact ⟨[], h, by simp, by simp⟩
  | cons x l ih =>
      obtain ⟨hback, rfl | ⟨hdead, hskip⟩⟩ := h
      · obtain ⟨l', hpath, hsub, hlive⟩ := ih hback
        refine ⟨x :: l', ⟨rfl, hpath⟩, fun y hy => ?_, fun y hy hy' => ?_⟩
        · rcases List.mem_cons.mp hy with rfl | hy
          · exact List.mem_cons_self
          · exact List.mem_cons_of_mem _ (hsub y hy)
        · rcases List.mem_cons.mp hy with rfl | hy
          · exact List.mem_cons_self
          · exact List.mem_cons_of_mem _ (hlive y hy hy')
      · obtain ⟨l', hpath, hsub, hlive⟩ := ih hskip
        refine ⟨l', hpath, fun y hy => List.mem_cons_of_mem _ (hsub y hy),
          fun y hy hy' => ?_⟩
        rcases List.mem_cons.mp hy with rfl | hy
        · exact absurd hdead hy'
        · exact hlive y hy hy'

/-- Taking out `d` keeps the threads, and where a pointer led to `d`, one may go on
from behind it. -/
theorem bypass_both (hnext : Bypass d next next') (hdead : ∀ x, dead x → dead' x)
    (hd : dead' d) (h : Thread next dead p l) :
    Thread next' dead' p l ∧ (p = some d → Thread next' dead' (next d) l) := by
  induction l generalizing p with
  | nil =>
      obtain rfl : p = none := h
      exact ⟨rfl, nofun⟩
  | cons x l ih =>
      obtain ⟨hback, hcase⟩ := h
      have hback' : Thread next' dead' (next' x) l := by
        rcases hnext x with heq | ⟨heq, heq'⟩
        · rw [heq]
          exact (ih hback).1
        · rw [heq']
          exact (ih hback).2 heq
      refine ⟨⟨hback', ?_⟩, fun hp => ⟨hback', ?_⟩⟩
      · exact hcase.imp_right fun hskip => ⟨hdead x hskip.1, (ih hskip.2).1⟩
      · rcases hcase with heq | ⟨hskip, hrest⟩
        · obtain rfl : d = x := Option.some.inj (hp.symm.trans heq)
          exact .inr ⟨hd, (ih hback).1⟩
        · exact .inr ⟨hdead x hskip, (ih hrest).2 hp⟩

theorem bypass (hnext : Bypass d next next') (hdead : ∀ x, dead x → dead' x)
    (hd : dead' d) (hp : p' = p ∨ p = some d ∧ p' = next d) (h : Thread next dead p l) :
    Thread next' dead' p' l := by
  have hboth := h.bypass_both hnext hdead hd
  rcases hp with rfl | ⟨heq, rfl⟩
  · exact hboth.1
  · exact hboth.2 heq

end Thread

theorem Path.thread (h : Path next p l none) : Thread next dead p l := by
  induction l generalizing p with
  | nil => exact h
  | cons x l ih => exact ⟨ih h.2, .inl h.1⟩

/-! ## Cells that are not met -/

theorem Path.avoids (h : Path next p l none) (hx : x ∉ l) : Avoids next p x := by
  refine ⟨{z | z ∈ l}, hx, ?_, ?_⟩
  · rintro y rfl
    exact h.first_mem
  · intro z hz y hy
    obtain ⟨front, back, rfl⟩ := List.append_of_mem hz
    obtain ⟨r, -, -, hback⟩ := append_iff.mp h
    rw [hy] at hback
    exact List.mem_append_right _ (List.mem_cons_of_mem _ hback.first_mem)

namespace Avoids

theorem not_linked (h : Avoids next p x) : ¬Linked next p x := by
  rintro ⟨l, hpath, hx⟩
  obtain ⟨S, hout, hp, hS⟩ := h
  induction l generalizing p with
  | nil => cases hx
  | cons y l ih =>
      obtain ⟨rfl, hrest⟩ := hpath
      have hy := hp y rfl
      rcases List.mem_cons.mp hx with rfl | hx
      · exact hout hy
      · exact ih hrest hx (hS y hy)

theorem bypass (hnext : Bypass d next next') (hp : p' = p ∨ p = some d ∧ p' = next d)
    (h : Avoids next p x) : Avoids next' p' x := by
  obtain ⟨S, hout, hfirst, hS⟩ := h
  refine ⟨S, hout, fun y hy => ?_, fun z hz y hy => ?_⟩
  · rcases hp with rfl | ⟨heq, rfl⟩
    · exact hfirst y hy
    · exact hS d (hfirst d heq) y hy
  · rcases hnext z with heq | ⟨heq, heq'⟩
    · exact hS z hz y (heq ▸ hy)
    · exact hS d (hS z hz d heq) y (heq' ▸ hy)

theorem update [DecidableEq α] (h : Avoids next p x) (r : Option α) :
    Avoids (Function.update next x r) p x := by
  obtain ⟨S, hout, hfirst, hS⟩ := h
  refine ⟨S, hout, hfirst, fun z hz y hy => hS z hz y ?_⟩
  have hne : z ≠ x := by
    rintro rfl
    exact hout hz
  rwa [Function.update_of_ne hne] at hy

end Avoids

namespace Endless

theorem not_linked (h : Endless next p) : ¬Linked next p x := by
  rintro ⟨l, hpath, -⟩
  obtain ⟨S, hfirst, hS⟩ := h
  induction l generalizing p with
  | nil =>
      obtain rfl : p = none := hpath
      obtain ⟨y, -, hy⟩ := hfirst
      cases hy
  | cons z l ih =>
      obtain ⟨rfl, hrest⟩ := hpath
      obtain ⟨y, hy, heq⟩ := hfirst
      obtain rfl : z = y := Option.some.inj heq
      exact ih hrest (hS z hy)

theorem bypass (hnext : Bypass d next next') (hp : p' = p ∨ p = some d ∧ p' = next d)
    (h : Endless next p) : Endless next' p' := by
  obtain ⟨S, hfirst, hS⟩ := h
  refine ⟨S, enters_of_skip (hS d) hp hfirst, fun z hz => ?_⟩
  exact enters_of_skip (hS d) (hnext z) (hS z hz)

end Endless

theorem walk_finds {cond : α → Bool} {fuel : Nat} {prev : α}
    (hwalk : walk next cond fuel p prev = some (some x, y)) :
    cond x = false ∧ (p = some x ∧ y = prev ∨ ¬Avoids next p y ∧ next y = some x) := by
  induction fuel generalizing p prev with
  | zero => cases hwalk
  | succ fuel ih =>
      cases p with
      | none => cases hwalk
      | some z =>
          rw [walk] at hwalk
          split at hwalk
          · obtain ⟨hx, hcase⟩ := ih hwalk
            refine ⟨hx, .inr ?_⟩
            rcases hcase with ⟨hz, rfl⟩ | ⟨hmet, hy⟩
            · refine ⟨?_, hz⟩
              rintro ⟨S, hout, hfirst, -⟩
              exact hout (hfirst y rfl)
            · refine ⟨?_, hy⟩
              rintro ⟨S, hout, hfirst, hS⟩
              exact hmet ⟨S, hout, hS z (hfirst z rfl), hS⟩
          · rename_i hcond
            cases hwalk
            exact ⟨by simpa using hcond, .inl ⟨rfl, rfl⟩⟩

namespace Path

variable [DecidableEq α]

theorem unlinks (h : Path next p l none) (hu : Unlinks d next next' p p') :
    d ∈ l ∧ Path next' p' (l.erase d) none := by
  obtain ⟨rfl, rfl, rfl⟩ | ⟨hp, rfl, y, hmet, hy, rfl⟩ := hu
  · cases l with
    | nil => cases h
    | cons z l =>
        obtain rfl : d = z := Option.some.inj h.1
        rw [List.erase_cons_head]
        exact ⟨List.mem_cons_self, h.2⟩
  · have hmem : y ∈ l := not_not.mp fun hout => hmet (h.avoids hout)
    obtain ⟨front, back, rfl⟩ := List.append_of_mem hmem
    obtain ⟨r, -, -, hback⟩ := append_iff.mp h
    rw [hy] at hback
    obtain ⟨back, rfl⟩ : ∃ l', back = d :: l' := by
      cases back with
      | nil => cases hback
      | cons z l' => exact ⟨l', by rw [Option.some.inj hback.1]⟩
    have hout : d ∉ front ++ [y] := fun hd =>
      (List.nodup_append.mp (List.append_cons front y _ ▸ h.nodup)).2.2 d hd d
        (by simp) rfl
    refine ⟨by simp, ?_⟩
    rw [List.append_cons, erase_middle hout, ← List.append_cons]
    exact h.unlink_behind h.nodup

end Path

end XinOS.Foundation
