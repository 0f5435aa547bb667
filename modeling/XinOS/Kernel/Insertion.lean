import XinOS.Foundation.Linking
import XinOS.Foundation.Transition
import XinOS.Kernel.TimerSteps

/-!
# `insert_timer`, statement by statement

A task calls `timer_create` with interrupts enabled, so that a tick can come between
any two statements of `insert_timer`.  Without ticks the statements compute
`insertTimer`; a tick takes at most one timer out of the list.
-/

namespace XinOS.Kernel

open XinOS.Foundation

variable {w : Nat} {k k' : State w} {t : Ptr}

/-! ## The statements -/

/-- The statement of `insert_timer` that comes next, with the local variables that it
or a later one reads. -/
inductive InsertPoint where
  -- `if(!first_timer)`
  | ifEmpty
  -- `first_timer = t` in an empty list
  | setOnly
  -- `if(t->timeout < first_timer->timeout)`
  | ifEarliest
  -- `t->next = first_timer`
  | linkFront
  -- `first_timer = t`
  | setFront
  -- `it = first_timer`
  | startIt
  -- `prev = first_timer`
  | startPrev (it : Option Ptr)
  -- `while(it && it->timeout <= t->timeout)`
  | loop (it prev : Option Ptr)
  -- `prev = it`
  | movePrev (it : Ptr)
  -- `it = it->next`, where `prev` is `it`
  | moveIt (it : Ptr)
  -- `prev->next = t`
  | linkPrev (it prev : Option Ptr)
  -- `t->next = it`
  | linkNext (it : Option Ptr)
  -- `return`
  | leave
  | done
  deriving DecidableEq, Repr

structure Insertion (w : Nat) where
  kernel : State w
  point : InsertPoint

def insertStatement (k : State w) (t : Ptr) : InsertPoint → Except Fault (Insertion w)
  | .ifEmpty =>
      match k.firstTimer with
      | none => .ok ⟨k, .setOnly⟩
      | some _ => .ok ⟨k, .ifEarliest⟩
  | .setOnly => .ok ⟨{ k with firstTimer := some t }, .leave⟩
  | .ifEarliest =>
      match k.firstTimer with
      | none => .error .nullAccess
      | some first =>
          if (k.timer t).timeout < (k.timer first).timeout then .ok ⟨k, .linkFront⟩
          else .ok ⟨k, .startIt⟩
  | .linkFront => .ok ⟨k.setTimerNext t k.firstTimer, .setFront⟩
  | .setFront => .ok ⟨{ k with firstTimer := some t }, .leave⟩
  | .startIt => .ok ⟨k, .startPrev k.firstTimer⟩
  | .startPrev it => .ok ⟨k, .loop it k.firstTimer⟩
  | .loop none prev => .ok ⟨k, .linkPrev none prev⟩
  | .loop (some it) prev =>
      if (k.timer it).timeout ≤ (k.timer t).timeout then .ok ⟨k, .movePrev it⟩
      else .ok ⟨k, .linkPrev (some it) prev⟩
  | .movePrev it => .ok ⟨k, .moveIt it⟩
  | .moveIt it => .ok ⟨k, .loop (k.timerNext it) (some it)⟩
  | .linkPrev _ none => .error .nullAccess
  | .linkPrev it (some prev) => .ok ⟨k.setTimerNext prev (some t), .linkNext it⟩
  | .linkNext it => .ok ⟨k.setTimerNext t it, .leave⟩
  | .leave => .ok ⟨k, .done⟩
  | .done => .ok ⟨k, .done⟩

inductive InsertEvent where
  | statement
  | tick
  deriving DecidableEq, Repr

/-- A statement, or a call of `timer_handler` in front of one. -/
def Insertion.step (t : Ptr) (c : Insertion w) : InsertEvent → Option (Insertion w)
  | .statement =>
      if c.point ≠ .done then (insertStatement c.kernel t c.point).toOption else none
  | .tick =>
      if c.point ≠ .done then
        ((timerHandler c.kernel).map fun r => ⟨r.1, c.point⟩ :
          Except Fault (Insertion w)).toOption
      else none

theorem Insertion.step_statement {c c' : Insertion w} :
    c.step t .statement = some c' ↔
      c.point ≠ .done ∧ insertStatement c.kernel t c.point = .ok c' :=
  guarded_eq_some

theorem Insertion.step_tick {c c' : Insertion w} (h : c.step t .tick = some c') :
    c.point ≠ .done ∧ c'.point = c.point ∧
      ∃ o, timerHandler c.kernel = .ok (c'.kernel, o) := by
  obtain ⟨hpoint, hmap⟩ := guarded_eq_some.mp h
  obtain ⟨r, hok, rfl⟩ := ok_of_map hmap
  exact ⟨hpoint, rfl, r.2, hok⟩

/-! ## Without ticks -/

def Uninterrupted (t : Ptr) (c c' : Insertion w) : Prop :=
  Reaches (stepRel (Insertion.step t)) (fun _ e => e = .statement) c c'

theorem Uninterrupted.next {k₁ : State w} {point point₁ : InsertPoint} {c : Insertion w}
    (hok : insertStatement k t point = .ok ⟨k₁, point₁⟩) (hpoint : point ≠ .done)
    (h : Uninterrupted t ⟨k₁, point₁⟩ c) : Uninterrupted t ⟨k, point⟩ c := by
  refine Reaches.trans ?_ h
  exact Reaches.tail .refl rfl (Insertion.step_statement.mpr ⟨hpoint, hok⟩)

section Loop

variable {it prev : Option Ptr} {p : Ptr} {c : Insertion w}

theorem Uninterrupted.loop_end (h : Uninterrupted t ⟨k, .linkPrev none prev⟩ c) :
    Uninterrupted t ⟨k, .loop none prev⟩ c :=
  .next rfl nofun h

theorem Uninterrupted.loop_exit (hgt : ¬(k.timer p).timeout ≤ (k.timer t).timeout)
    (h : Uninterrupted t ⟨k, .linkPrev (some p) prev⟩ c) :
    Uninterrupted t ⟨k, .loop (some p) prev⟩ c := by
  have hexit : insertStatement k t (.loop (some p) prev) =
      .ok ⟨k, .linkPrev (some p) prev⟩ := if_neg hgt
  exact .next hexit nofun h

theorem Uninterrupted.loop_body (hle : (k.timer p).timeout ≤ (k.timer t).timeout)
    (h : Uninterrupted t ⟨k, .loop (k.timerNext p) (some p)⟩ c) :
    Uninterrupted t ⟨k, .loop (some p) prev⟩ c := by
  have hbody : insertStatement k t (.loop (some p) prev) = .ok ⟨k, .movePrev p⟩ :=
    if_pos hle
  exact .next hbody nofun (.next rfl nofun (.next rfl nofun h))

theorem uninterrupted_loop {fuel : Nat} {it' : Option Ptr} {prev prev' : Ptr}
    (hwalk : walk k.timerNext
      (fun it => decide ((k.timer it).timeout ≤ (k.timer t).timeout)) fuel it prev =
        some (it', prev'))
    (h : Uninterrupted t ⟨k, .linkPrev it' (some prev')⟩ c) :
    Uninterrupted t ⟨k, .loop it (some prev)⟩ c := by
  induction fuel generalizing it prev with
  | zero => cases hwalk
  | succ fuel ih =>
      cases it with
      | none =>
          cases hwalk
          exact h.loop_end
      | some p =>
          rw [walk] at hwalk
          split at hwalk
          · rename_i hle
            exact .loop_body (of_decide_eq_true hle) (ih hwalk)
          · rename_i hgt
            cases hwalk
            exact h.loop_exit fun hle => hgt (decide_eq_true hle)

end Loop

/-- The statements of `insert_timer` compute what the call of the function does. -/
theorem insertTimer_uninterrupted (hok : insertTimer k t = .ok k') :
    Uninterrupted t ⟨k, .ifEmpty⟩ ⟨k', .done⟩ := by
  unfold insertTimer at hok
  split at hok
  · rename_i hfirst
    cases hok
    have hempty : insertStatement k t .ifEmpty = .ok ⟨k, .setOnly⟩ := by
      simp only [insertStatement, hfirst]
    exact .next hempty nofun (.next rfl nofun (.next rfl nofun .refl))
  rename_i first hfirst
  have hsome : insertStatement k t .ifEmpty = .ok ⟨k, .ifEarliest⟩ := by
    simp only [insertStatement, hfirst]
  refine .next hsome nofun ?_
  split at hok
  · rename_i hlt
    cases hok
    have hearliest : insertStatement k t .ifEarliest = .ok ⟨k, .linkFront⟩ := by
      simp only [insertStatement, hfirst, if_pos hlt]
    rw [← hfirst]
    exact .next hearliest nofun
      (.next rfl nofun (.next rfl nofun (.next rfl nofun .refl)))
  · rename_i hle
    split at hok
    · cases hok
    rename_i it prev hwalk
    cases hok
    have hlater : insertStatement k t .ifEarliest = .ok ⟨k, .startIt⟩ := by
      simp only [insertStatement, hfirst, if_neg hle]
    refine .next hlater nofun (.next rfl nofun (.next rfl nofun ?_))
    rw [hfirst]
    exact uninterrupted_loop hwalk
      (.next rfl nofun (.next rfl nofun (.next rfl nofun .refl)))

/-! ## What a tick does to the list -/

def State.timerLinks (k : State w) : Links Ptr := ⟨k.timerNext, k.firstTimer, k.liveTimers⟩

theorem State.setTimerNext_links (k : State w) (p : Ptr) (q : Option Ptr) :
    (k.setTimerNext p q).timerLinks = k.timerLinks.setNext p q := by
  unfold timerLinks Links.setNext
  rw [k.setTimerNext_timerNext]
  rfl

theorem State.setTimerNext_deadline (k : State w) (p : Ptr) (q : Option Ptr) :
    (k.setTimerNext p q).deadline = k.deadline :=
  (Rearmed.setTimerNext k p q).deadline_eq

structure Shrinks (k k' : State w) : Prop where
  links : k'.timerLinks = k.timerLinks ∨ ∃ d, Links.Unlink d k.timerLinks k'.timerLinks
  deadline : k'.deadline = k.deadline

theorem timerDelete_shrinks {d : Ptr} (hok : timerDelete k (some d) = .ok k') :
    Shrinks k k' := by
  simp only [timerDelete] at hok
  split at hok
  swap
  · cases hok
    exact ⟨.inl rfl, rfl⟩
  rename_i first d' hfirst heq
  cases heq
  unfold deleteFrom at hok
  split at hok
  · rename_i hd
    cases hok
    refine ⟨.inr ⟨d, .inl ⟨hfirst.trans (congrArg some hd.symm), ?_, rfl⟩, rfl⟩, rfl⟩
    rw [hd]
    rfl
  rename_i hd
  split at hok
  · cases hok
  · cases hok
  rename_i it prev hwalk
  obtain ⟨hit, hcase⟩ := walk_finds hwalk
  obtain rfl : it = d := by simpa using hit
  cases hok
  have hne : first ≠ it := fun heq => hd heq.symm
  have hmet : ¬Avoids k.timerNext k.firstTimer prev ∧ k.timerNext prev = some it := by
    rw [hfirst]
    exact hcase.resolve_left fun h => hne (Option.some.inj h.1)
  have hlinks := k.setTimerNext_timerNext prev (k.timerNext it)
  refine ⟨.inr ⟨it, .inr ⟨?_, rfl, prev, hmet.1, hmet.2, hlinks⟩, rfl⟩,
    k.setTimerNext_deadline _ _⟩
  exact fun h => hne (Option.some.inj (hfirst.symm.trans h))

theorem timerCheckLoop_shrinks {fuel : Nat} {it r : Option Ptr} {calls : List (Nat × Nat)}
    (hok : timerCheckLoop k fuel it = .ok (r, k', calls)) : Shrinks k k' := by
  induction fuel generalizing it r calls with
  | zero => cases hok
  | succ fuel ih =>
      have hsame : Shrinks k k := ⟨.inl rfl, rfl⟩
      cases it with
      | none =>
          cases hok
          exact hsame
      | some it =>
          simp only [timerCheckLoop] at hok
          split at hok
          swap
          · cases hok
            exact hsame
          split at hok
          · cases hok
          split at hok
          · split at hok
            swap
            · cases hok
            split at hok
            · cases hok
            · rename_i hdelete
              cases hok
              exact timerDelete_shrinks hdelete
          · split at hok
            · cases hok
            · rename_i hloop
              cases hok
              exact ih hloop

theorem timerHandler_shrinks {c : Control} (hok : timerHandler k = .ok (k', c)) :
    Shrinks k k' := by
  obtain ⟨r, k₁, calls, hcheck, hend⟩ := timerHandler_end hok
  have hshrinks : Shrinks k k₁ := by
    obtain ⟨hlinks, hdeadline⟩ := timerCheckLoop_shrinks hcheck
    exact ⟨hlinks, hdeadline⟩
  obtain ⟨hlinks, hdeadline⟩ :
      k'.timerLinks = k₁.timerLinks ∧ k'.deadline = k₁.deadline := by
    cases hend with
    | woke hk => exact hk ▸ ⟨rfl, rfl⟩
    | idle _ hk => exact hk ▸ ⟨rfl, rfl⟩
    | expired _ _ hk => exact hk ▸ ⟨rfl, rfl⟩
    | runs _ _ hk => exact hk ▸ ⟨rfl, rfl⟩
  exact ⟨hlinks ▸ hshrinks.links, hdeadline.trans hshrinks.deadline⟩

end XinOS.Kernel
