import XinOS.Foundation.Unlinking

/-!
# Linking a cell into a list that loses cells

A cell is linked in by writing its pointer and the one in front of it.  Between the
two writes, cells of the list can be taken out.  `Outside`, `Half` and `Inside` are
the stages of an insertion that goes well; `Leads` is what becomes a cycle when the
cell behind the new one lies in front of it.
-/

namespace XinOS.Foundation

variable {α : Type*}

/-- The pointers of a list, and the cells that have not been freed. -/
structure Links (α : Type*) where
  next : α → Option α
  first : Option α
  live : List α

namespace Links

def Freed (L : Links α) (x : α) : Prop := x ∉ L.live

/-- Everybody can go on from `f` for ever, or comes to `g`; and so from the front of
the list. -/
def Leads (L : Links α) (f g : α) : Prop :=
  ∃ S : Set α, f ∈ S ∧ g ∈ S ∧ (∃ y ∈ S, L.first = some y) ∧
    ∀ x ∈ S, x ≠ g → ∃ y ∈ S, L.next x = some y

/-- The list has what is left of `m`, and not the live cell `t`. -/
structure Outside (L : Links α) (m : List α) (t : α) : Prop where
  thread : Thread L.next L.Freed L.first m
  listed : ∀ x, Linked L.next L.first x → x ∈ L.live
  nodup : L.live.Nodup
  order : m.Nodup
  live : t ∈ L.live
  new : t ∉ m

/-- The list ends with `t`; what is left of `m` is in front of `t` or can be met from
`it`. -/
structure Half (L : Links α) (m : List α) (t : α) (it : Option α) : Prop where
  cells : ∃ front back, Path L.next L.first (front ++ [t]) none ∧
    Thread L.next L.Freed it back ∧ t ∉ back ∧
    ∀ x ∈ m, x ∈ L.live → x ∈ front ∨ x ∈ back
  nodup : L.live.Nodup
  new : t ∉ m

/-- The list has `t` and what is left of `m`. -/
structure Inside (L : Links α) (m : List α) (t : α) : Prop where
  cells : ∃ l, Path L.next L.first l none ∧ t ∈ l ∧ ∀ x ∈ m, x ∈ L.live → x ∈ l
  nodup : L.live.Nodup
  new : t ∉ m

def setFirst (L : Links α) (q : Option α) : Links α := { L with first := q }

variable {L L' : Links α} {m : List α} {d f g t : α} {it : Option α}

theorem Leads.of_first (hfirst : L.first = some f) : L.Leads f f :=
  ⟨{f}, rfl, rfl, ⟨f, rfl, hfirst⟩, fun _ hx hne => absurd hx hne⟩

namespace Outside

theorem path (h : L.Outside m t) :
    ∃ l, Path L.next L.first l none ∧ (∀ x ∈ l, x ∈ m) ∧ ∀ x ∈ m, x ∈ L.live → x ∈ l := by
  obtain ⟨l, hpath, hsub, hlive⟩ := h.thread.exists_path
  exact ⟨l, hpath, hsub, fun x hx hx' => hlive x hx (not_not.mpr hx')⟩

theorem first_mem (h : L.Outside m t) (hfirst : L.first = some f) : f ∈ m :=
  (hfirst ▸ h.thread).mem

theorem inside_front (h : L.Outside m t) (ht : Thread L.next L.Freed (L.next t) m) :
    (L.setFirst (some t)).Inside m t := by
  obtain ⟨l, hpath, -, hlive⟩ := ht.exists_path
  refine ⟨⟨t :: l, ⟨rfl, hpath⟩, List.mem_cons_self, fun x hx hx' => ?_⟩, h.nodup, h.new⟩
  exact List.mem_cons_of_mem _ (hlive x hx (not_not.mpr hx'))

end Outside

variable [DecidableEq α]

/-- `d` is taken out of the list and freed. -/
structure Unlink (d : α) (L L' : Links α) : Prop where
  links : Unlinks d L.next L'.next L.first L'.first
  live : L'.live = L.live.erase d

def setNext (L : Links α) (y : α) (q : Option α) : Links α :=
  { L with next := Function.update L.next y q }

namespace Unlink

theorem mem_live (h : Unlink d L L') (hnodup : L.live.Nodup) {x : α} :
    x ∈ L'.live ↔ x ≠ d ∧ x ∈ L.live := by
  rw [h.live, hnodup.mem_erase_iff]

theorem nodup (h : Unlink d L L') (hnodup : L.live.Nodup) : L'.live.Nodup :=
  h.live ▸ hnodup.erase d

theorem thread (h : Unlink d L L') (hnodup : L.live.Nodup) {p p' : Option α} {l : List α}
    (hp : p' = p ∨ p = some d ∧ p' = L.next d) (hl : Thread L.next L.Freed p l) :
    Thread L'.next L'.Freed p' l := by
  refine hl.bypass h.links.bypass (fun x hx hx' => ?_) ?_ hp
  · exact hx ((h.mem_live hnodup).mp hx').2
  · exact fun hd => ((h.mem_live hnodup).mp hd).1 rfl

theorem placed (h : Unlink d L L') {here here' : Prop} (hnodup : here → L.live.Nodup)
    (hkeep : here → d ≠ t → here')
    (hself : here → Unlink t L L' → Avoids L'.next L'.first t)
    (ht : t ∈ L.live ∧ here ∨ t ∉ L.live ∧ Avoids L.next L.first t) :
    t ∈ L'.live ∧ here' ∨ t ∉ L'.live ∧ Avoids L'.next L'.first t := by
  rcases ht with ⟨ht, hhere⟩ | ⟨ht, hout⟩
  · have hmem := h.mem_live (hnodup hhere) (x := t)
    by_cases hd : d = t
    · exact .inr ⟨fun ht' => (hmem.mp ht').1 hd.symm, hself hhere (hd ▸ h)⟩
    · exact .inl ⟨hmem.mpr ⟨Ne.symm hd, ht⟩, hkeep hhere hd⟩
  · have hgone : t ∉ L'.live := fun ht' => ht (List.mem_of_mem_erase (h.live ▸ ht'))
    exact .inr ⟨hgone, hout.bypass h.links.bypass h.links.start⟩

end Unlink

/-! ## The cell is outside -/

namespace Outside

theorem unlink (h : L.Outside m t) (hu : Unlink d L L') : L'.Outside m t := by
  obtain ⟨l, hpath, hsub, -⟩ := h.path
  obtain ⟨hd, hpath'⟩ := hpath.unlinks hu.links
  have hmem := fun x => hu.mem_live h.nodup (x := x)
  refine ⟨hu.thread h.nodup hu.links.start h.thread, fun x hx => ?_, hu.nodup h.nodup,
    h.order, ?_, h.new⟩
  · obtain ⟨hne, hx⟩ := hpath.nodup.mem_erase_iff.mp (hpath'.linked_iff.mp hx)
    exact (hmem x).mpr ⟨hne, h.listed x (hpath.linked_iff.mpr hx)⟩
  · exact (hmem t).mpr ⟨fun heq => h.new (heq ▸ hsub d hd), h.live⟩

theorem setNext (h : L.Outside m t) (q : Option α) : (L.setNext t q).Outside m t := by
  obtain ⟨l, hpath, hsub, -⟩ := h.path
  have hl : t ∉ l := fun ht => h.new (hsub t ht)
  have hpath' : Path (L.setNext t q).next L.first l none := hpath.update_of_notMem hl q
  refine { h with thread := h.thread.congr fun x hx => ?_, listed := fun x hx => ?_ }
  · exact update_of_mem h.new hx q
  · exact h.listed x (hpath.linked_iff.mpr (hpath'.linked_iff.mp hx))

theorem link_behind (h : L.Outside m t) (hg : g ∈ m) (hlive : g ∈ L.live)
    (hnull : L.next t = none) :
    ∃ front back, Path (L.setNext g (some t)).next L.first (front ++ [t]) none ∧
      Path L.next (L.next g) back none ∧
      ∀ x ∈ m, x ∈ L.live → x ∈ front ∨ x ∈ back := by
  obtain ⟨l, hpath, hsub, hall⟩ := h.path
  obtain ⟨pre, post, rfl⟩ := List.append_of_mem (hall g hg hlive)
  have hnodup := hpath.nodup
  rw [List.append_cons] at hpath
  obtain ⟨r, hpre, hpost⟩ := Path.append_iff.mp hpath
  obtain rfl : L.next g = r := (Path.append_iff.mp hpre).elim fun _ hr => hr.2.2
  have hgpre : g ∉ pre := fun hmem =>
    (List.nodup_middle.mp hnodup).notMem (List.mem_append_left _ hmem)
  have hne : t ≠ g := fun heq => h.new (heq ▸ hg)
  refine ⟨pre ++ [g], post, ?_, hpost, fun x hx hx' => ?_⟩
  · refine Path.append_iff.mpr ⟨some t, hpre.redirect hgpre (some t), rfl, ?_⟩
    exact (Function.update_of_ne hne ..).trans hnull
  · simpa [or_assoc] using hall x hx hx'

theorem half (h : L.Outside m t) {l₁ l₂ : List α} (hm : m = l₁ ++ g :: l₂)
    (hlive : g ∈ L.live) (hnull : L.next t = none) (hit : Thread L.next L.Freed it l₂) :
    (L.setNext g (some t)).Half m t it := by
  obtain ⟨front, back, hpath, hback, hall⟩ :=
    h.link_behind (by simp [hm]) hlive hnull
  obtain ⟨back', hback', hsub, -⟩ := (hm ▸ h.thread).behind.exists_path
  obtain rfl : back = back' := hback.unique hback'
  have hg : g ∉ l₂ := fun hmem =>
    (List.nodup_middle.mp (hm ▸ h.order)).notMem (List.mem_append_right _ hmem)
  refine ⟨⟨front, l₂, hpath, hit.congr fun x hx => update_of_mem hg hx _, ?_, ?_⟩,
    h.nodup, h.new⟩
  · exact fun ht => h.new (by simp [hm, ht])
  · exact fun x hx hx' => (hall x hx hx').imp_right (hsub x)

theorem avoids_behind (h : L.Outside m t) (hg : g ∉ L.live) (q : Option α) :
    Avoids (L.setNext g q).next L.first t := by
  obtain ⟨l, hpath, hsub, -⟩ := h.path
  have hgl : g ∉ l := fun hmem => hg (h.listed g (hpath.linked_iff.mpr hmem))
  exact (hpath.update_of_notMem hgl q).avoids fun ht => h.new (hsub t ht)

end Outside

/-! ## The cell is linked -/

namespace Half

theorem unlink (h : L.Half m t it) (hu : Unlink d L L') (hd : d ≠ t) :
    L'.Half m t it := by
  obtain ⟨front, back, hpath, hit, hback, hall⟩ := h.cells
  obtain ⟨hmem, hpath'⟩ := hpath.unlinks hu.links
  have hfront : d ∈ front := by simpa [hd] using hmem
  rw [List.erase_append_left _ hfront] at hpath'
  refine ⟨⟨front.erase d, back, hpath', hu.thread h.nodup (.inl rfl) hit, hback,
    fun x hx hx' => ?_⟩, hu.nodup h.nodup, h.new⟩
  obtain ⟨hne, hlive⟩ := (hu.mem_live h.nodup).mp hx'
  exact (hall x hx hlive).imp_left (List.mem_erase_of_ne hne).mpr

theorem unlink_self (h : L.Half m t it) (hu : Unlink t L L') :
    Avoids L'.next L'.first t := by
  obtain ⟨front, -, hpath, -⟩ := h.cells
  exact (hpath.unlinks hu.links).2.avoids hpath.nodup.not_mem_erase

theorem inside (h : L.Half m t it) : (L.setNext t it).Inside m t := by
  obtain ⟨front, back, hpath, hit, hback, hall⟩ := h.cells
  obtain ⟨l, hrest, -, hlive⟩ :=
    (hit.congr fun x hx => update_of_mem hback hx it).exists_path
  have hfront : t ∉ front := fun hmem =>
    (List.nodup_middle.mp hpath.nodup).notMem (List.mem_append_left _ hmem)
  refine ⟨⟨front ++ [t] ++ l, ?_, by simp, fun x hx hx' => ?_⟩, h.nodup, h.new⟩
  · exact Path.append_iff.mpr ⟨it, hpath.redirect hfront it, hrest⟩
  · rcases hall x hx hx' with hx'' | hx''
    · simp [hx'']
    · simp [hlive x hx'' (not_not.mpr hx')]

end Half

namespace Inside

theorem unlink (h : L.Inside m t) (hu : Unlink d L L') (hd : d ≠ t) : L'.Inside m t := by
  obtain ⟨l, hpath, ht, hall⟩ := h.cells
  obtain ⟨-, hpath'⟩ := hpath.unlinks hu.links
  refine ⟨⟨l.erase d, hpath', (List.mem_erase_of_ne hd.symm).mpr ht, fun x hx hx' => ?_⟩,
    hu.nodup h.nodup, h.new⟩
  obtain ⟨hne, hlive⟩ := (hu.mem_live h.nodup).mp hx'
  exact (List.mem_erase_of_ne hne).mpr (hall x hx hlive)

theorem unlink_self (h : L.Inside m t) (hu : Unlink t L L') :
    Avoids L'.next L'.first t := by
  obtain ⟨l, hpath, -, -⟩ := h.cells
  exact (hpath.unlinks hu.links).2.avoids hpath.nodup.not_mem_erase

end Inside

/-! ## Cycles -/

namespace Leads

theorem unlink (h : L.Leads f g) (hu : Unlink d L L') (hd : d ≠ g) : L'.Leads f g := by
  obtain ⟨S, hf, hg, hfirst, hS⟩ := h
  have hskip : d ∈ S → ∃ y ∈ S, L.next d = some y := fun hmem => hS d hmem hd
  refine ⟨S, hf, hg, enters_of_skip hskip hu.links.start hfirst, fun x hx hne => ?_⟩
  exact enters_of_skip hskip (hu.links.bypass x) (hS x hx hne)

theorem unlink_first (h : L.Leads f g) (hu : Unlink d L L') (hfirst : L.first = some g)
    {g' : α} (hfirst' : L'.first = some g') : L'.Leads f g' := by
  by_cases hd : d = g
  · subst hd
    obtain ⟨-, heq, hnext⟩ | ⟨hne, -⟩ := hu.links
    · obtain ⟨S, hf, hg, -, hS⟩ := h
      refine ⟨insert g' S, .inr hf, .inl rfl, ⟨g', .inl rfl, hfirst'⟩, ?_⟩
      rintro x (rfl | hx) hne
      · exact absurd rfl hne
      · rw [hnext]
        by_cases hxd : x = d
        · exact ⟨g', .inl rfl, by rw [hxd, ← heq, hfirst']⟩
        · obtain ⟨y, hy, heq'⟩ := hS x hx hxd
          exact ⟨y, .inr hy, heq'⟩
    · exact absurd hfirst hne
  · have hsame : L'.first = some g := by
      rcases hu.links.start with heq | ⟨heq, -⟩
      · exact heq.trans hfirst
      · exact absurd (Option.some.inj (heq.symm.trans hfirst)) hd
    obtain rfl : g = g' := Option.some.inj (hsame.symm.trans hfirst')
    exact h.unlink hu hd

theorem setNext (h : L.Leads f g) (t : α) : (L.setNext g (some t)).Leads f t := by
  obtain ⟨S, hf, hg, ⟨y, hy, hfirst⟩, hS⟩ := h
  refine ⟨insert t S, .inr hf, .inl rfl, ⟨y, .inr hy, hfirst⟩, ?_⟩
  rintro x (rfl | hx) hne
  · exact absurd rfl hne
  · by_cases hxg : x = g
    · exact ⟨t, .inl rfl, by rw [hxg]; exact Function.update_self ..⟩
    · obtain ⟨z, hz, hnext⟩ := hS x hx hxg
      exact ⟨z, .inr hz, (Function.update_of_ne hxg ..).trans hnext⟩

theorem endless (h : L.Leads f g) :
    Endless (L.setNext g (some f)).next L.first := by
  obtain ⟨S, hf, hg, hfirst, hS⟩ := h
  refine ⟨S, hfirst, fun x hx => ?_⟩
  by_cases hxg : x = g
  · exact ⟨f, hf, by rw [hxg]; exact Function.update_self ..⟩
  · obtain ⟨z, hz, hnext⟩ := hS x hx hxg
    exact ⟨z, hz, (Function.update_of_ne hxg ..).trans hnext⟩

end Leads

end Links

end XinOS.Foundation
