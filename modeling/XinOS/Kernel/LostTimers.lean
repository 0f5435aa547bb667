import XinOS.Kernel.Insertion
import XinOS.Kernel.Scheduler

/-!
# Timers lost under interrupts

`insert_timer` holds pointers into the list across ticks.  The new timer gets into the
list exactly if the handler has not taken away what the search began or ended with,
or the new timer itself.
-/

namespace XinOS.Kernel

open XinOS.Foundation

variable {w : Nat} {k k' : State w} {m : List Ptr} {t : Ptr}

/-! ## What an insertion should do, and when it does -/

/-- `timer_create` has set the fields of the new timer `t`, and `m` is the list. -/
structure NewTimer (k : State w) (m : List Ptr) (t : Ptr) : Prop where
  path : Path k.timerNext k.firstTimer m none
  live : k.liveTimers.Perm (t :: m)
  new : t ∉ m
  null : k.timerNext t = none

/-- From `first_timer` one meets the timer `t` once, and so every timer of `m` that
has not been deleted. -/
def Kept (k : State w) (m : List Ptr) (t : Ptr) : Prop :=
  MetOnce k.timerNext k.firstTimer t ∧
    ∀ s ∈ m, s ∈ k.liveTimers → MetOnce k.timerNext k.firstTimer s

/-- The search begins with a timer that does not come behind `t`; the timer where it
ends has not been deleted when its pointer is written, and `t` has not when
`insert_timer` returns. -/
def Insertion.Undisturbed (t : Ptr) (c : Insertion w) : InsertEvent → Prop
  | .tick => True
  | .statement =>
      match c.point with
      | .startIt => ∃ first, c.kernel.firstTimer = some first ∧
          (c.kernel.timer first).timeout ≤ (c.kernel.timer t).timeout
      | .linkPrev _ (some prev) => prev ∈ c.kernel.liveTimers
      | .leave => t ∈ c.kernel.liveTimers
      | _ => True

instance Insertion.decidableUndisturbed (t : Ptr) :
    ∀ (c : Insertion w) (e : InsertEvent), Decidable (Insertion.Undisturbed t c e)
  | _, .tick => isTrue trivial
  | ⟨k, .startIt⟩, .statement =>
      inferInstanceAs (Decidable (∃ first, first ∈ k.firstTimer ∧
        (k.timer first).timeout ≤ (k.timer t).timeout))
  | ⟨k, .linkPrev _ (some prev)⟩, .statement =>
      inferInstanceAs (Decidable (prev ∈ k.liveTimers))
  | ⟨k, .leave⟩, .statement => inferInstanceAs (Decidable (t ∈ k.liveTimers))
  | ⟨_, .ifEmpty⟩, .statement | ⟨_, .setOnly⟩, .statement
  | ⟨_, .ifEarliest⟩, .statement | ⟨_, .linkFront⟩, .statement
  | ⟨_, .setFront⟩, .statement | ⟨_, .startPrev _⟩, .statement
  | ⟨_, .loop _ _⟩, .statement | ⟨_, .movePrev _⟩, .statement
  | ⟨_, .moveIt _⟩, .statement | ⟨_, .linkPrev _ none⟩, .statement
  | ⟨_, .linkNext _⟩, .statement | ⟨_, .done⟩, .statement => isTrue trivial

/-! ## The stages of an insertion -/

def Early (key : Ptr → Nat) (m : List Ptr) (t : Ptr) (it : Option Ptr) : Prop :=
  ∃ f ∈ m, it = some f ∧ key f ≤ key t

def Behind (L : Links Ptr) (m : List Ptr) (it prev : Option Ptr) : Prop :=
  ∃ y l₁ l₂, prev = some y ∧ m = l₁ ++ y :: l₂ ∧ Thread L.next L.Freed it l₂

def OnCourse (L : Links Ptr) (key : Ptr → Nat) (m : List Ptr) (t : Ptr) :
    InsertPoint → Prop
  | .ifEmpty => L.Outside m t ∧ L.next t = none
  | .setOnly => L.Outside m t ∧ Thread L.next L.Freed (L.next t) m
  | .ifEarliest => L.Outside m t ∧ L.next t = none
  | .linkFront => L.Outside m t
  | .setFront => L.Outside m t ∧ Thread L.next L.Freed (L.next t) m
  | .startIt => L.Outside m t ∧ L.next t = none
  | .startPrev it => L.Outside m t ∧ L.next t = none ∧ Early key m t it
  | .loop it prev =>
      L.Outside m t ∧ L.next t = none ∧ (Early key m t it ∨ Behind L m it prev)
  | .movePrev it => L.Outside m t ∧ L.next t = none ∧ it ∈ m
  | .moveIt it => L.Outside m t ∧ L.next t = none ∧ it ∈ m
  | .linkPrev it prev => L.Outside m t ∧ L.next t = none ∧ Behind L m it prev
  | .linkNext it =>
      t ∈ L.live ∧ L.Half m t it ∨ t ∉ L.live ∧ Avoids L.next L.first t
  | .leave => t ∈ L.live ∧ L.Inside m t ∨ t ∉ L.live ∧ Avoids L.next L.first t
  | .done => L.Inside m t

def Late (key : Ptr → Nat) (t : Ptr) (it : Option Ptr) : Prop :=
  ∀ f, it = some f → key t < key f

/-- The search has begun behind the place of `t`, or ended with a deleted timer. -/
def Astray (L : Links Ptr) (key : Ptr → Nat) (m : List Ptr) (t : Ptr) :
    InsertPoint → Prop
  | .startPrev it => L.Outside m t ∧ L.next t = none ∧ Late key t it ∧
      ∀ g, L.first = some g → ∃ f, it = some f ∧ L.Leads f g
  | .loop it prev => L.Outside m t ∧ L.next t = none ∧ Late key t it ∧
      ∀ g, prev = some g → g ∈ m ∧ (g ∈ L.live → ∃ f, it = some f ∧ L.Leads f g)
  | .linkPrev it prev => L.Outside m t ∧ L.next t = none ∧
      ∀ g, prev = some g → g ∈ m ∧ (g ∈ L.live → ∃ f, it = some f ∧ L.Leads f g)
  | .linkNext it => Avoids L.next L.first t ∨
      L.live.Nodup ∧ (∃ l, Path L.next L.first l none) ∧ ∃ f, it = some f ∧ L.Leads f t
  | .leave => Avoids L.next L.first t ∨ Endless L.next L.first
  | .done => Avoids L.next L.first t ∨ Endless L.next L.first
  | _ => False

section Ticks

variable {L L' : Links Ptr} {key : Ptr → Nat} {d : Ptr} {point : InsertPoint}

theorem next_none (hu : Links.Unlink d L L') (h : L.next t = none) : L'.next t = none := by
  rcases hu.links.bypass t with heq | ⟨heq, -⟩
  · exact heq.trans h
  · exact nomatch h.symm.trans heq

theorem OnCourse.unlink (h : OnCourse L key m t point) (hpoint : point ≠ .done)
    (hu : Links.Unlink d L L') : OnCourse L' key m t point := by
  have hbehind : ∀ {it prev}, L.Outside m t → Behind L m it prev →
      Behind L' m it prev := by
    rintro it prev hout ⟨y, l₁, l₂, hprev, hm, hit⟩
    exact ⟨y, l₁, l₂, hprev, hm, hu.thread hout.nodup (.inl rfl) hit⟩
  cases point with
  | ifEmpty => exact ⟨h.1.unlink hu, next_none hu h.2⟩
  | setOnly => exact ⟨h.1.unlink hu, hu.thread h.1.nodup (hu.links.bypass t) h.2⟩
  | ifEarliest => exact ⟨h.1.unlink hu, next_none hu h.2⟩
  | linkFront => exact h.unlink hu
  | setFront => exact ⟨h.1.unlink hu, hu.thread h.1.nodup (hu.links.bypass t) h.2⟩
  | startIt => exact ⟨h.1.unlink hu, next_none hu h.2⟩
  | startPrev it => exact ⟨h.1.unlink hu, next_none hu h.2.1, h.2.2⟩
  | loop it prev =>
      exact ⟨h.1.unlink hu, next_none hu h.2.1, h.2.2.imp_right (hbehind h.1)⟩
  | movePrev it => exact ⟨h.1.unlink hu, next_none hu h.2.1, h.2.2⟩
  | moveIt it => exact ⟨h.1.unlink hu, next_none hu h.2.1, h.2.2⟩
  | linkPrev it prev => exact ⟨h.1.unlink hu, next_none hu h.2.1, hbehind h.1 h.2.2⟩
  | linkNext it => exact hu.placed (·.nodup) (·.unlink hu) (·.unlink_self) h
  | leave => exact hu.placed (·.nodup) (·.unlink hu) (·.unlink_self) h
  | done => exact absurd rfl hpoint

theorem Astray.unlink (h : Astray L key m t point) (hu : Links.Unlink d L L') :
    Astray L' key m t point := by
  -- A timer that is still live is not the one taken out.
  have hleads : ∀ {it prev : Option Ptr}, L.Outside m t →
      (∀ g, prev = some g → g ∈ m ∧ (g ∈ L.live → ∃ f, it = some f ∧ L.Leads f g)) →
      ∀ g, prev = some g → g ∈ m ∧ (g ∈ L'.live → ∃ f, it = some f ∧ L'.Leads f g) := by
    intro it prev hout hprev g hg
    refine ⟨(hprev g hg).1, fun hlive => ?_⟩
    obtain ⟨hne, hlive⟩ := (hu.mem_live hout.nodup).mp hlive
    obtain ⟨f, hf, hfg⟩ := (hprev g hg).2 hlive
    exact ⟨f, hf, hfg.unlink hu hne.symm⟩
  cases point with
  | startPrev it =>
      obtain ⟨hout, hnull, hlate, hfirst⟩ := h
      refine ⟨hout.unlink hu, next_none hu hnull, hlate, fun g' hg' => ?_⟩
      obtain ⟨g, hg⟩ : ∃ g, L.first = some g := by
        rcases hu.links.start with heq | ⟨heq, -⟩
        · exact ⟨g', heq.symm.trans hg'⟩
        · exact ⟨d, heq⟩
      obtain ⟨f, hf, hfg⟩ := hfirst g hg
      exact ⟨f, hf, hfg.unlink_first hu hg hg'⟩
  | loop it prev =>
      obtain ⟨hout, hnull, hlate, hprev⟩ := h
      exact ⟨hout.unlink hu, next_none hu hnull, hlate, hleads hout hprev⟩
  | linkPrev it prev =>
      obtain ⟨hout, hnull, hprev⟩ := h
      exact ⟨hout.unlink hu, next_none hu hnull, hleads hout hprev⟩
  | linkNext it =>
      rcases h with hout | ⟨hnodup, ⟨l, hpath⟩, f, hf, hft⟩
      · exact .inl (hout.bypass hu.links.bypass hu.links.start)
      obtain ⟨-, hpath'⟩ := hpath.unlinks hu.links
      by_cases hd : d = t
      · subst hd
        exact .inl (hpath'.avoids hpath.nodup.not_mem_erase)
      · exact .inr ⟨hu.nodup hnodup, ⟨_, hpath'⟩, f, hf, hft.unlink hu hd⟩
  | leave =>
      exact h.imp (·.bypass hu.links.bypass hu.links.start)
        (·.bypass hu.links.bypass hu.links.start)
  | done =>
      exact h.imp (·.bypass hu.links.bypass hu.links.start)
        (·.bypass hu.links.bypass hu.links.start)
  | ifEmpty => exact h.elim
  | setOnly => exact h.elim
  | ifEarliest => exact h.elim
  | linkFront => exact h.elim
  | setFront => exact h.elim
  | startIt => exact h.elim
  | movePrev it => exact h.elim
  | moveIt it => exact h.elim

end Ticks

/-! ## What a statement does -/

section Statements

variable {c' : Insertion w} {point : InsertPoint}

theorem OnCourse.ifEmpty (h : OnCourse k.timerLinks k.deadline m t .ifEmpty)
    (hok : insertStatement k t .ifEmpty = .ok c') :
    OnCourse c'.kernel.timerLinks c'.kernel.deadline m t c'.point := by
  simp only [insertStatement] at hok
  split at hok
  · rename_i hfirst
    cases hok
    refine ⟨h.1, ?_⟩
    have hsame : k.timerLinks.next t = k.timerLinks.first := h.2.trans hfirst.symm
    rw [hsame]
    exact h.1.thread
  · cases hok
    exact h

theorem OnCourse.ifEarliest (h : OnCourse k.timerLinks k.deadline m t .ifEarliest)
    (hok : insertStatement k t .ifEarliest = .ok c') :
    OnCourse c'.kernel.timerLinks c'.kernel.deadline m t c'.point := by
  simp only [insertStatement] at hok
  split at hok
  · cases hok
  split at hok
  · cases hok
    exact h.1
  · cases hok
    exact h

theorem OnCourse.linkFront (h : OnCourse k.timerLinks k.deadline m t .linkFront)
    (hok : insertStatement k t .linkFront = .ok c') :
    OnCourse c'.kernel.timerLinks c'.kernel.deadline m t c'.point := by
  cases hok
  have hout := h.setNext k.firstTimer
  show Links.Outside _ m t ∧ _
  rw [State.setTimerNext_links]
  refine ⟨hout, ?_⟩
  rw [show (k.timerLinks.setNext t k.firstTimer).next t = k.firstTimer from
    Function.update_self ..]
  exact hout.thread

theorem OnCourse.loop {it prev : Option Ptr}
    (h : OnCourse k.timerLinks k.deadline m t (.loop it prev))
    (hok : insertStatement k t (.loop it prev) = .ok c') :
    OnCourse c'.kernel.timerLinks c'.kernel.deadline m t c'.point := by
  obtain ⟨hout, hnull, hcase⟩ := h
  cases it with
  | none =>
      cases hok
      refine ⟨hout, hnull, hcase.resolve_left ?_⟩
      rintro ⟨f, -, hf, -⟩
      cases hf
  | some p =>
      simp only [insertStatement] at hok
      split at hok
      · cases hok
        refine ⟨hout, hnull, ?_⟩
        rcases hcase with ⟨f, hfm, hf, -⟩ | ⟨y, l₁, l₂, -, rfl, hit⟩
        · exact Option.some.inj hf ▸ hfm
        · simp [hit.mem]
      · rename_i hgt
        cases hok
        refine ⟨hout, hnull, hcase.resolve_left ?_⟩
        rintro ⟨f, -, hf, hle⟩
        obtain rfl : p = f := Option.some.inj hf
        exact hgt (BitVec.le_def.mpr hle)

theorem OnCourse.statement (h : OnCourse k.timerLinks k.deadline m t point)
    (hpoint : point ≠ .done) (hok : insertStatement k t point = .ok c')
    (hund : Insertion.Undisturbed t ⟨k, point⟩ .statement) :
    OnCourse c'.kernel.timerLinks c'.kernel.deadline m t c'.point := by
  cases point with
  | ifEmpty => exact h.ifEmpty hok
  | setOnly =>
      cases hok
      exact .inl ⟨h.1.live, h.1.inside_front h.2⟩
  | ifEarliest => exact h.ifEarliest hok
  | linkFront => exact h.linkFront hok
  | setFront =>
      cases hok
      exact .inl ⟨h.1.live, h.1.inside_front h.2⟩
  | startIt =>
      cases hok
      obtain ⟨hout, hnull⟩ := h
      obtain ⟨f, hfirst, hle⟩ := hund
      exact ⟨hout, hnull, f, hout.first_mem hfirst, hfirst, BitVec.le_def.mp hle⟩
  | startPrev it =>
      cases hok
      exact ⟨h.1, h.2.1, .inl h.2.2⟩
  | loop it prev => exact h.loop hok
  | movePrev it =>
      cases hok
      exact h
  | moveIt it =>
      cases hok
      obtain ⟨hout, hnull, hit⟩ := h
      obtain ⟨l₁, l₂, hm⟩ := List.append_of_mem hit
      exact ⟨hout, hnull, .inr ⟨it, l₁, l₂, rfl, hm, (hm ▸ hout.thread).behind⟩⟩
  | linkPrev it prev =>
      obtain ⟨hout, hnull, y, l₁, l₂, rfl, hm, hit⟩ := h
      cases hok
      show OnCourse (k.setTimerNext y (some t)).timerLinks _ m t _
      rw [State.setTimerNext_links]
      exact .inl ⟨hout.live, hout.half hm hund hnull hit⟩
  | linkNext it =>
      cases hok
      show OnCourse (k.setTimerNext t it).timerLinks _ m t _
      rw [State.setTimerNext_links]
      exact h.imp (And.imp_right Links.Half.inside) (And.imp_right (·.update it))
  | leave =>
      cases hok
      exact (h.resolve_right fun hgone => hgone.1 hund).2
  | done => exact absurd rfl hpoint

theorem OnCourse.disturbed (h : OnCourse k.timerLinks k.deadline m t point)
    (hok : insertStatement k t point = .ok c')
    (hnot : ¬Insertion.Undisturbed t ⟨k, point⟩ .statement) :
    Astray c'.kernel.timerLinks c'.kernel.deadline m t c'.point := by
  cases point with
  | startIt =>
      cases hok
      obtain ⟨hout, hnull⟩ := h
      refine ⟨hout, hnull, fun f hfirst => ?_,
        fun g hfirst => ⟨g, hfirst, .of_first hfirst⟩⟩
      exact not_le.mp fun hle => hnot ⟨f, hfirst, BitVec.le_def.mpr hle⟩
  | linkPrev it prev =>
      obtain ⟨hout, -, y, -, -, rfl, -⟩ := h
      cases hok
      show Astray (k.setTimerNext y (some t)).timerLinks _ m t _
      rw [State.setTimerNext_links]
      exact .inl (hout.avoids_behind hnot _)
  | leave =>
      cases hok
      exact .inl (h.resolve_left fun hin => hnot hin.1).2
  | ifEmpty => exact absurd trivial hnot
  | setOnly => exact absurd trivial hnot
  | ifEarliest => exact absurd trivial hnot
  | linkFront => exact absurd trivial hnot
  | setFront => exact absurd trivial hnot
  | startPrev it => exact absurd trivial hnot
  | loop it prev => exact absurd trivial hnot
  | movePrev it => exact absurd trivial hnot
  | moveIt it => exact absurd trivial hnot
  | linkNext it => exact absurd trivial hnot
  | done => exact absurd trivial hnot

theorem Astray.statement (h : Astray k.timerLinks k.deadline m t point)
    (hok : insertStatement k t point = .ok c') :
    Astray c'.kernel.timerLinks c'.kernel.deadline m t c'.point := by
  cases point with
  | startPrev it =>
      cases hok
      obtain ⟨hout, hnull, hlate, hfirst⟩ := h
      exact ⟨hout, hnull, hlate, fun g hg => ⟨hout.first_mem hg, fun _ => hfirst g hg⟩⟩
  | loop it prev =>
      obtain ⟨hout, hnull, hlate, hprev⟩ := h
      cases it with
      | none =>
          cases hok
          exact ⟨hout, hnull, hprev⟩
      | some p =>
          simp only [insertStatement] at hok
          split at hok
          · rename_i hle
            exact absurd (hlate p rfl) (not_lt.mpr (BitVec.le_def.mp hle))
          · cases hok
            exact ⟨hout, hnull, hprev⟩
  | linkPrev it prev =>
      obtain ⟨hout, hnull, hprev⟩ := h
      cases prev with
      | none => cases hok
      | some g =>
          cases hok
          obtain ⟨hg, hleads⟩ := hprev g rfl
          show Astray (k.setTimerNext g (some t)).timerLinks _ m t _
          rw [State.setTimerNext_links]
          by_cases hlive : g ∈ k.liveTimers
          · obtain ⟨f, hf, hfg⟩ := hleads hlive
            obtain ⟨front, -, hpath, -⟩ := hout.link_behind hg hlive hnull
            exact .inr ⟨hout.nodup, ⟨_, hpath⟩, f, hf, hfg.setNext t⟩
          · exact .inl (hout.avoids_behind hlive _)
  | linkNext it =>
      cases hok
      show Astray (k.setTimerNext t it).timerLinks _ m t _
      rw [State.setTimerNext_links]
      rcases h with hout | ⟨-, -, f, rfl, hft⟩
      · exact .inl (hout.update it)
      · exact .inr hft.endless
  | leave =>
      cases hok
      exact h
  | done =>
      cases hok
      exact h
  | ifEmpty => exact h.elim
  | setOnly => exact h.elim
  | ifEarliest => exact h.elim
  | linkFront => exact h.elim
  | setFront => exact h.elim
  | startIt => exact h.elim
  | movePrev it => exact h.elim
  | moveIt it => exact h.elim

theorem OnCourse.statement_ok (h : OnCourse k.timerLinks k.deadline m t point) :
    (∃ c', insertStatement k t point = .ok c') ∨
      point = .ifEarliest ∧ k.firstTimer = none := by
  cases point with
  | ifEmpty => cases hfirst : k.firstTimer <;> simp [insertStatement, hfirst]
  | ifEarliest =>
      cases hfirst : k.firstTimer with
      | none => exact .inr ⟨rfl, rfl⟩
      | some first =>
          simp only [insertStatement, hfirst]
          split
          · exact .inl ⟨_, rfl⟩
          · exact .inl ⟨_, rfl⟩
  | loop it prev =>
      cases it with
      | none => exact .inl ⟨_, rfl⟩
      | some p =>
          simp only [insertStatement]
          split
          · exact .inl ⟨_, rfl⟩
          · exact .inl ⟨_, rfl⟩
  | linkPrev it prev =>
      obtain ⟨-, -, y, -, -, rfl, -⟩ := h
      exact .inl ⟨_, rfl⟩
  | setOnly => exact .inl ⟨_, rfl⟩
  | linkFront => exact .inl ⟨_, rfl⟩
  | setFront => exact .inl ⟨_, rfl⟩
  | startIt => exact .inl ⟨_, rfl⟩
  | startPrev it => exact .inl ⟨_, rfl⟩
  | movePrev it => exact .inl ⟨_, rfl⟩
  | moveIt it => exact .inl ⟨_, rfl⟩
  | linkNext it => exact .inl ⟨_, rfl⟩
  | leave => exact .inl ⟨_, rfl⟩
  | done => exact .inl ⟨_, rfl⟩

end Statements

/-! ## Runs -/

namespace Insertion

def OnCourse (m : List Ptr) (t : Ptr) (c : Insertion w) : Prop :=
  Kernel.OnCourse c.kernel.timerLinks c.kernel.deadline m t c.point

def Astray (m : List Ptr) (t : Ptr) (c : Insertion w) : Prop :=
  Kernel.Astray c.kernel.timerLinks c.kernel.deadline m t c.point

variable {c c' : Insertion w} {e : InsertEvent}

theorem OnCourse.tick (h : c.OnCourse m t) (hstep : c.step t .tick = some c') :
    c'.OnCourse m t := by
  obtain ⟨hpoint, hsame, o, hok⟩ := step_tick hstep
  obtain ⟨hlinks | ⟨d, hu⟩, hdeadline⟩ := timerHandler_shrinks hok
  · rw [OnCourse, hlinks, hdeadline, hsame]
    exact h
  · rw [OnCourse, hdeadline, hsame]
    exact h.unlink hpoint hu

theorem Astray.tick (h : c.Astray m t) (hstep : c.step t .tick = some c') :
    c'.Astray m t := by
  obtain ⟨-, hsame, o, hok⟩ := step_tick hstep
  obtain ⟨hlinks | ⟨d, hu⟩, hdeadline⟩ := timerHandler_shrinks hok
  · rw [Astray, hlinks, hdeadline, hsame]
    exact h
  · rw [Astray, hdeadline, hsame]
    exact h.unlink hu

theorem OnCourse.keep (h : c.OnCourse m t) (hok : c.Undisturbed t e)
    (hstep : c.step t e = some c') : c'.OnCourse m t := by
  cases e with
  | tick => exact h.tick hstep
  | statement =>
      obtain ⟨hpoint, hstatement⟩ := step_statement.mp hstep
      exact h.statement hpoint hstatement hok

theorem OnCourse.slip (h : c.OnCourse m t) (hok : ¬c.Undisturbed t e)
    (hstep : c.step t e = some c') : c'.Astray m t := by
  cases e with
  | tick => exact absurd trivial hok
  | statement =>
      exact h.disturbed (step_statement.mp hstep).2 hok

theorem Astray.stray (h : c.Astray m t) (hstep : c.step t e = some c') :
    c'.Astray m t := by
  cases e with
  | tick => exact h.tick hstep
  | statement => exact h.statement (step_statement.mp hstep).2

end Insertion

theorem NewTimer.onCourse (h : NewTimer k m t) : Insertion.OnCourse m t ⟨k, .ifEmpty⟩ where
  left :=
    { thread := h.path.thread
      listed := fun _ hx =>
        h.live.mem_iff.mpr (List.mem_cons_of_mem _ (h.path.linked_iff.mp hx))
      nodup := h.live.nodup_iff.mpr (List.nodup_cons.mpr ⟨h.new, h.path.nodup⟩)
      order := h.path.nodup
      live := h.live.mem_iff.mpr List.mem_cons_self
      new := h.new }
  right := h.null

theorem TimerInv.newTimer (h : TimerInv k m) (hfresh : k.Fresh t) (func : Option Nat)
    (args : Nat) (timeout : BitVec w) :
    NewTimer (armTimer k t func args timeout) m t where
  path := h.path.congr fun s hs =>
    congrArg Timer.next (k.setTimer_of_notMem (fun ht => hfresh.2.2.2 (h.mem_live.mpr ht))
      _ s hs)
  live := (h.live.cons t).symm
  new := fun ht => hfresh.2.2.2 (h.mem_live.mpr ht)
  null := by simp [State.timerNext, armTimer]

theorem kept_of_inside (h : k.timerLinks.Inside m t) : Kept k m t := by
  obtain ⟨l, hpath, ht, hall⟩ := h.cells
  exact ⟨metOnce_iff.mpr ⟨l, hpath, ht⟩, fun s hs hlive =>
    metOnce_iff.mpr ⟨l, hpath, hall s hs hlive⟩⟩

theorem not_kept_of_astray (h : Insertion.Astray m t ⟨k, .done⟩) : ¬Kept k m t := by
  intro hkept
  have hlinked := metOnce_iff.mp hkept.1
  rcases h with hout | hend
  · exact hout.not_linked hlinked
  · exact hend.not_linked hlinked

/-- Whenever the ticks come, an insertion that returns has put the new timer into the
list and lost no other exactly if it was not disturbed. -/
theorem insertion_keeps_iff (h : NewTimer k m t) {events : List InsertEvent}
    (hrun : exec (Insertion.step t) ⟨k, .ifEmpty⟩ events = some ⟨k', .done⟩) :
    Kept k' m t ↔ Meets (stepRel (Insertion.step t)) (Insertion.Undisturbed t)
      ⟨k, .ifEmpty⟩ events := by
  refine exec_iff_meets (P := fun c : Insertion w => Kept c.kernel m t)
    (fun _ _ _ hc => hc.keep) (fun _ _ _ hc => hc.slip) (fun _ _ _ hc => hc.stray)
    h.onCourse hrun ?_ ?_
  · exact kept_of_inside
  · exact not_kept_of_astray

/-- Before it is disturbed, an insertion faults only at the comparison with the first
timer, when the handler has emptied the list since the first statement. -/
theorem NewTimer.faults_iff (h : NewTimer k m t) {c : Insertion w}
    (hrun : Reaches (stepRel (Insertion.step t)) (Insertion.Undisturbed t)
      ⟨k, .ifEmpty⟩ c) :
    (∃ fault, insertStatement c.kernel t c.point = .error fault) ↔
      c.point = .ifEarliest ∧ c.kernel.firstTimer = none := by
  have hcourse : c.OnCourse m t := hrun.invariant (P := Insertion.OnCourse m t)
    h.onCourse fun _ _ _ hc hok hstep => hc.keep hok hstep
  constructor
  · rintro ⟨fault, herror⟩
    rcases OnCourse.statement_ok hcourse with ⟨c', hok⟩ | hempty
    · exact nomatch herror.symm.trans hok
    · exact hempty
  · rintro ⟨hpoint, hfirst⟩
    refine ⟨.nullAccess, ?_⟩
    rw [hpoint]
    simp only [insertStatement, hfirst]

/-- With interrupts off, which `basic_lock` would see to, nothing is lost. -/
theorem NewTimer.kept_of_masked (h : NewTimer k m t) (hshort : m.length < walkFuel) :
    ∃ k', Uninterrupted t ⟨k, .ifEmpty⟩ ⟨k', .done⟩ ∧ Kept k' m t := by
  obtain ⟨k', hok, -, hpath⟩ :=
    insertTimer_spec h.path h.path.nodup hshort h.new fun _ => h.null
  have hmem : ∀ s, s ∈ insertByKey k.deadline t m ↔ s = t ∨ s ∈ m := fun s => by
    rw [(insertByKey_perm k.deadline t m).mem_iff, List.mem_cons]
  refine ⟨k', insertTimer_uninterrupted hok, ?_, fun s hs _ => ?_⟩
  · exact metOnce_iff.mpr ⟨_, hpath, (hmem t).mpr (.inl rfl)⟩
  · exact metOnce_iff.mpr ⟨_, hpath, (hmem s).mpr (.inr hs)⟩

/-! ## A timer that is lost -/

/-- The task at 1024 sleeps until the next tick, which the timer at 64 is for. -/
def napping : State 64 :=
  { boot (fun _ => { blankTask with state := .sleeping })
      (fun _ => ⟨none, 0, none, 1, some 1024⟩) with
    firstTimer := some 64
    liveTimers := [64] }

theorem napping_timerInv : TimerInv napping [64] where
  path := ⟨rfl, rfl⟩
  nodup := List.nodup_singleton 64
  sorted := List.pairwise_singleton _ 64
  live := .refl _
  address := by decide

def callingInsertTimer : State 64 := armTimer napping 128 (some 0x80000200) 0 5

theorem callingInsertTimer_newTimer : NewTimer callingInsertTimer [64] 128 :=
  napping_timerInv.newTimer (by decide) _ _ _

/-- The tick comes when the search has ended with the timer of the task. -/
def tickInFrontOfLink : List InsertEvent :=
  List.replicate 8 .statement ++ .tick :: List.replicate 3 .statement

theorem new_timer_lost :
    NewTimer callingInsertTimer [64] 128 ∧
      callingInsertTimer.ticks < (callingInsertTimer.timer 128).timeout ∧
      ∃ k, exec (Insertion.step 128) ⟨callingInsertTimer, .ifEmpty⟩ tickInFrontOfLink =
          some ⟨k, .done⟩ ∧
        k.firstTimer = none ∧ 128 ∈ k.liveTimers ∧ ¬Kept k [64] 128 := by
  obtain ⟨k, hrun, hfirst, hlive⟩ : ∃ k : State 64,
      exec (Insertion.step 128) ⟨callingInsertTimer, .ifEmpty⟩ tickInFrontOfLink =
        some ⟨k, .done⟩ ∧ k.firstTimer = none ∧ k.liveTimers = [128] := ⟨_, rfl, rfl, rfl⟩
  refine ⟨callingInsertTimer_newTimer, by decide, k, hrun, hfirst, by simp [hlive], ?_⟩
  rintro ⟨⟨l, hpath, hcount⟩, -⟩
  rw [hfirst] at hpath
  cases l with
  | nil => cases hcount
  | cons s l => exact nomatch hpath.1

/-- One statement later nothing is lost but the timer that is due. -/
def tickBehindLink : List InsertEvent :=
  List.replicate 9 .statement ++ .tick :: List.replicate 2 .statement

theorem insertion_keeps_iff_of_tick :
    ∃ k : State 64, exec (Insertion.step 128) ⟨callingInsertTimer, .ifEmpty⟩
        tickBehindLink = some ⟨k, .done⟩ ∧
      k.firstTimer = some 128 ∧ Kept k [64] 128 := by
  obtain ⟨k, hrun, hfirst⟩ : ∃ k : State 64,
      exec (Insertion.step 128) ⟨callingInsertTimer, .ifEmpty⟩ tickBehindLink =
        some ⟨k, .done⟩ ∧ k.firstTimer = some 128 := ⟨_, rfl, rfl⟩
  have hmeets : Meets (stepRel (Insertion.step 128)) (Insertion.Undisturbed 128)
      ⟨callingInsertTimer, .ifEmpty⟩ tickBehindLink := by decide +kernel
  exact ⟨k, hrun, hfirst,
    (insertion_keeps_iff callingInsertTimer_newTimer hrun).mpr hmeets⟩

end XinOS.Kernel
