import Mathlib.Data.List.Basic

/-!
# Runs of a labelled transition system

A system is a relation `R s i t`: label `i` takes state `s` to state `t`.  The
predicate `ok` restricts the labels a run may use in a given state, so that one
relation serves runs under several side conditions.
-/

namespace XinOS.Foundation

universe u v

variable {σ : Type u} {ι : Type v}
variable {R : σ → ι → σ → Prop} {ok : σ → ι → Prop} {P J : σ → Prop}

/-- States reached from `s` by steps whose labels all satisfy `ok`. -/
inductive Reaches (R : σ → ι → σ → Prop) (ok : σ → ι → Prop) (s : σ) :
    σ → Prop where
  | refl : Reaches R ok s s
  | tail {t u : σ} {i : ι} :
      Reaches R ok s t → ok t i → R t i u → Reaches R ok s u

def anyLabel : σ → ι → Prop := fun _ _ => True

theorem Reaches.invariant {s u : σ} (start : P s)
    (keep : ∀ t i u, P t → ok t i → R t i u → P u)
    (h : Reaches R ok s u) : P u := by
  induction h with
  | refl => exact start
  | tail _ hok hstep ih => exact keep _ _ _ ih hok hstep

theorem Reaches.mono {ok' : σ → ι → Prop} {s u : σ}
    (hok : ∀ t i, ok t i → ok' t i) (h : Reaches R ok s u) :
    Reaches R ok' s u := by
  induction h with
  | refl => exact .refl
  | tail _ hi hstep ih => exact ih.tail (hok _ _ hi) hstep

theorem Reaches.trans {s t u : σ} (h : Reaches R ok s t)
    (h' : Reaches R ok t u) : Reaches R ok s u := by
  induction h' with
  | refl => exact h
  | tail _ hok hstep ih => exact ih.tail hok hstep

/-- A system whose steps are followed by runs of another one: what it reaches is
related to something that the other one reaches. -/
theorem Reaches.simulates {σ' : Type*} {ι' : Type*} {R' : σ' → ι' → σ' → Prop}
    {ok' : σ' → ι' → Prop} {Sim : σ → σ' → Prop} {s u : σ} {s' : σ'}
    (start : Sim s s')
    (follow : ∀ t i v t', Sim t t' → ok t i → R t i v →
      ∃ v', Sim v v' ∧ Reaches R' ok' t' v')
    (h : Reaches R ok s u) : ∃ u', Sim u u' ∧ Reaches R' ok' s' u' := by
  induction h with
  | refl => exact ⟨s', start, .refl⟩
  | tail _ hok hstep ih =>
      obtain ⟨t', hsim, hrun⟩ := ih
      obtain ⟨v', hsim', hrun'⟩ := follow _ _ _ t' hsim hok hstep
      exact ⟨v', hsim', hrun.trans hrun'⟩

/-! ## What can still be reached -/

def CanReach (R : σ → ι → σ → Prop) (ok : σ → ι → Prop) (s : σ) (Q : σ → Prop) : Prop :=
  ∃ t, Reaches R ok s t ∧ Q t

namespace CanReach

variable {Q Q' : σ → Prop} {s t : σ} {i : ι}

theorem now (h : Q s) : CanReach R ok s Q := ⟨s, .refl, h⟩

theorem andThen (h : CanReach R ok s Q) (h' : ∀ t, Q t → CanReach R ok t Q') :
    CanReach R ok s Q' := by
  obtain ⟨t, hrun, hQ⟩ := h
  obtain ⟨u, hrun', hQ'⟩ := h' t hQ
  exact ⟨u, hrun.trans hrun', hQ'⟩

theorem next (hok : ok s i) (hstep : R s i t) (h : CanReach R ok t Q) :
    CanReach R ok s Q :=
  andThen (Q := fun u => u = t) ⟨t, .tail .refl hok hstep, rfl⟩ fun _ hu => hu ▸ h

theorem mono (h : CanReach R ok s Q) (himp : ∀ t, Q t → Q' t) : CanReach R ok s Q' :=
  h.andThen fun t ht => .now (himp t ht)

theorem keeping (h : CanReach R ok s Q) (start : P s)
    (keep : ∀ t i u, P t → ok t i → R t i u → P u) :
    CanReach R ok s fun t => P t ∧ Q t := by
  obtain ⟨t, hrun, hQ⟩ := h
  exact ⟨t, hrun, hrun.invariant start keep, hQ⟩

end CanReach

/-! ## Runs along a list of labels -/

def Always (R : σ → ι → σ → Prop) (P : σ → Prop) : σ → List ι → Prop
  | s, [] => P s
  | s, i :: labels => P s ∧ ∀ t, R s i t → Always R P t labels

def Meets (R : σ → ι → σ → Prop) (ok : σ → ι → Prop) : σ → List ι → Prop
  | _, [] => True
  | s, i :: labels => ∀ t, R s i t → ok s i ∧ Meets R ok t labels

/--
When one step from a `P`-state leads to a `P`-state exactly if its label is
`ok`, a run stays in `P` exactly if all its labels are `ok`.  `J` is what the
exactness of one step rests on.
-/
theorem always_iff_meets {s : σ} {labels : List ι}
    (exact_step : ∀ s i t, J s → P s → R s i t → (P t ↔ ok s i))
    (keep : ∀ s i t, J s → P s → ok s i → R s i t → J t)
    (hJ : J s) (hP : P s) : Always R P s labels ↔ Meets R ok s labels := by
  induction labels generalizing s with
  | nil => simp [Always, Meets, hP]
  | cons i labels ih =>
      simp only [Always, Meets, hP, true_and]
      constructor
      · intro h t ht
        have hPt : P t := by
          have := h t ht
          cases labels with
          | nil => exact this
          | cons => exact this.1
        have hok := (exact_step s i t hJ hP ht).mp hPt
        exact ⟨hok, (ih (keep s i t hJ hP hok ht) hPt).mp (h t ht)⟩
      · intro h t ht
        obtain ⟨hok, hrest⟩ := h t ht
        have hPt := (exact_step s i t hJ hP ht).mpr hok
        exact (ih (keep s i t hJ hP hok ht) hPt).mpr hrest

/-! ## Executable systems -/

def stepRel (step : σ → ι → Option σ) : σ → ι → σ → Prop :=
  fun s i t => step s i = some t

theorem meets_cons {step : σ → ι → Option σ} {s t : σ} {i : ι} {labels : List ι}
    (h : step s i = some t) :
    Meets (stepRel step) ok s (i :: labels) ↔
      ok s i ∧ Meets (stepRel step) ok t labels := by
  refine ⟨fun hmeets => hmeets t h, fun hmeets t' h' => ?_⟩
  obtain rfl : t = t' := Option.some.inj (h.symm.trans h')
  exact hmeets

instance decidableMeets (step : σ → ι → Option σ) [∀ s i, Decidable (ok s i)] :
    ∀ s labels, Decidable (Meets (stepRel step) ok s labels)
  | _, [] => isTrue trivial
  | s, i :: labels =>
      match h : step s i with
      | none => isTrue fun t ht => absurd (h.symm.trans ht) (Option.some_ne_none t).symm
      | some t =>
          have := decidableMeets step t labels
          decidable_of_iff _ (meets_cons h).symm

theorem guarded_eq_some {ε α : Type*} {p : Prop} [Decidable p] {x : Except ε α} {a : α} :
    (if p then x.toOption else none) = some a ↔ p ∧ x = .ok a := by
  by_cases hp : p
  · rw [if_pos hp]
    cases x with
    | error e => simp [Except.toOption]
    | ok b => simp [Except.toOption, hp]
  · simp [hp]

theorem ok_of_map {ε α β : Type*} {x : Except ε α} {f : α → β} {b : β}
    (h : x.map f = .ok b) : ∃ a, x = .ok a ∧ f a = b := by
  cases x with
  | error e => cases h
  | ok a => exact ⟨a, rfl, Except.ok.inj h⟩

/-- Results that correspond: values that are related, or the same failure. -/
inductive Agree {ε α β : Type*} (Rel : α → β → Prop) : Except ε α → Except ε β → Prop where
  | ok {a : α} {b : β} (h : Rel a b) : Agree Rel (.ok a) (.ok b)
  | error (e : ε) : Agree Rel (.error e) (.error e)

namespace Agree

variable {ε α β : Type*} {Rel : α → β → Prop} {x : Except ε α} {y : Except ε β}

theorem of_right {b : β} (h : Agree Rel x y) (hy : y = .ok b) :
    ∃ a, x = .ok a ∧ Rel a b := by
  cases h with
  | ok hab =>
      cases hy
      exact ⟨_, rfl, hab⟩
  | error e => cases hy

theorem of_right_error {e : ε} (h : Agree Rel x y) (hy : y = .error e) : x = .error e := by
  cases h with
  | ok hab => cases hy
  | error e' =>
      cases hy
      rfl

end Agree

def exec (step : σ → ι → Option σ) : σ → List ι → Option σ
  | s, [] => some s
  | s, i :: labels => (step s i).bind fun t => exec step t labels

theorem exec_append {step : σ → ι → Option σ} {s t u : σ} {labels labels' : List ι}
    (h : exec step s labels = some t) (h' : exec step t labels' = some u) :
    exec step s (labels ++ labels') = some u := by
  induction labels generalizing s with
  | nil =>
      cases h
      exact h'
  | cons i labels ih =>
      obtain ⟨v, hstep, hrest⟩ := Option.bind_eq_some_iff.mp h
      exact Option.bind_eq_some_iff.mpr ⟨v, hstep, ih hrest⟩

theorem exec_invariant {step : σ → ι → Option σ} {P : List ι → σ → Prop} {s u : σ}
    {labels : List ι} (start : P [] s)
    (keep : ∀ taken t i v, exec step s taken = some t → P taken t → step t i = some v →
      P (taken ++ [i]) v)
    (h : exec step s labels = some u) : P labels u := by
  suffices hrest : ∀ rest taken t, exec step s taken = some t → P taken t →
      exec step t rest = some u → P (taken ++ rest) u from hrest labels [] s rfl start h
  intro rest
  induction rest with
  | nil =>
      intro taken t _ ht hrun
      cases hrun
      rwa [List.append_nil]
  | cons i rest ih =>
      intro taken t htaken ht hrun
      obtain ⟨v, hstep, hrest⟩ := Option.bind_eq_some_iff.mp hrun
      have hnext : exec step s (taken ++ [i]) = some v :=
        exec_append htaken (by simp [exec, hstep])
      rw [← List.singleton_append, ← List.append_assoc]
      exact ih (taken ++ [i]) v hnext (keep taken t i v htaken ht hstep) hrest

/-- When `ok` steps keep a run on course, others lead it astray for good, and it ends
in `P` exactly if it is on course then, all its steps must be `ok` to end there. -/
theorem exec_iff_meets {step : σ → ι → Option σ} {OnCourse Astray : σ → Prop}
    (keep : ∀ s i t, OnCourse s → ok s i → step s i = some t → OnCourse t)
    (slip : ∀ s i t, OnCourse s → ¬ok s i → step s i = some t → Astray t)
    (stray : ∀ s i t, Astray s → step s i = some t → Astray t)
    {s u : σ} {labels : List ι} (hs : OnCourse s) (hrun : exec step s labels = some u)
    (arrive : OnCourse u → P u) (miss : Astray u → ¬P u) :
    P u ↔ Meets (stepRel step) ok s labels := by
  have hlost : ∀ labels s, Astray s → exec step s labels = some u → ¬P u := by
    intro labels
    induction labels with
    | nil =>
        intro s hs hrun
        cases hrun
        exact miss hs
    | cons i labels ih =>
        intro s hs hrun
        obtain ⟨t, ht, hrest⟩ := Option.bind_eq_some_iff.mp hrun
        exact ih t (stray s i t hs ht) hrest
  induction labels generalizing s with
  | nil =>
      cases hrun
      exact iff_of_true (arrive hs) trivial
  | cons i labels ih =>
      obtain ⟨t, ht, hrest⟩ := Option.bind_eq_some_iff.mp hrun
      rw [meets_cons ht]
      by_cases hok : ok s i
      · have hrest' := ih (keep s i t hs hok ht) hrest
        exact hrest'.trans (and_iff_right hok).symm
      · exact iff_of_false (hlost labels t (slip s i t hs hok ht) hrest) fun h => hok h.1

theorem Reaches.exec {step : σ → ι → Option σ} {s t u : σ} {labels : List ι}
    (h : Reaches (stepRel step) ok s t) (hok : ∀ i ∈ labels, ∀ v, ok v i)
    (hrun : Foundation.exec step t labels = some u) :
    Reaches (stepRel step) ok s u := by
  induction labels generalizing t with
  | nil =>
      simp only [Foundation.exec, Option.some.injEq] at hrun
      exact hrun ▸ h
  | cons i labels ih =>
      simp only [Foundation.exec, Option.bind_eq_some_iff] at hrun
      obtain ⟨v, hv, hrest⟩ := hrun
      exact ih (.tail h (hok i (by simp) t) hv)
        (fun j hj => hok j (by simp [hj])) hrest

end XinOS.Foundation
