import SceneGraph.Proofs.Path.Splice

/-!
Paths put into other places. A path below a base is that base with a suffix after it, and putting it
into another place keeps the suffix, so that only the suffix and the last place matter.
-/

namespace SceneGraph.Path

/-- Followed from `base`, the suffix leads to this path. Nothing comes after a property. -/
inductive Joins (base : Path) : Path → Path → Prop
  | property (owned : base.isPropertyPath = true) : Joins base here base
  | below {suffix path : Path} (located : base.isEmpty = false)
      (bare : base.isPropertyPath = false) (relative : suffix.anchor = .relative)
      (anchored : path.anchor = base.anchor)
      (elements : path.elements = base.elements ++ suffix.elements)
      (property : path.property = suffix.property) : Joins base suffix path

variable {path base target suffix moved : Path}

theorem ofParts?_eq_some_iff {anchor : Anchor} {elements : List Name}
    {property : Option PropertyName} : ofParts? anchor elements property = some path ↔
      path.anchor = anchor ∧ path.elements = elements ∧ path.property = property := by
  rw [ofParts?]
  constructor
  · intro made
    split at made
    · cases made
      exact ⟨rfl, rfl, rfl⟩
    · cases made
  · rintro ⟨rfl, rfl, rfl⟩
    rw [dif_pos path.wellFormed]

theorem joins_property_iff (owned : base.isPropertyPath = true) :
    Joins base suffix path ↔ suffix = here ∧ path = base := by
  constructor
  · rintro (_ | ⟨_, bare⟩)
    · exact ⟨rfl, rfl⟩
    · simp [owned] at bare
  · rintro ⟨rfl, rfl⟩
    exact .property owned

theorem joins_below_iff (located : base.isEmpty = false) (bare : base.isPropertyPath = false) :
    Joins base suffix path ↔ suffix.anchor = .relative ∧ path.anchor = base.anchor ∧
      path.elements = base.elements ++ suffix.elements ∧ path.property = suffix.property := by
  constructor
  · rintro (owned | ⟨_, _, relative, anchored, elements, property⟩)
    · simp [owned] at bare
    · exact ⟨relative, anchored, elements, property⟩
  · rintro ⟨relative, anchored, elements, property⟩
    exact .below located bare relative anchored elements property

namespace Joins

theorem located (joins : Joins base suffix path) : base.isEmpty = false := by
  cases joins with
  | property owned => exact isEmpty_of_isPropertyPath owned
  | below located => exact located

theorem relative (joins : Joins base suffix path) : suffix.anchor = .relative := by
  cases joins with
  | property => rfl
  | below _ _ relative => exact relative

theorem within (joins : Joins base suffix path) : path.isWithin base = true := by
  cases joins with
  | property owned => exact (isWithin_of_property_iff owned).mpr rfl
  | below located bare _ anchored elements _ =>
      exact (isWithin_of_bare_iff bare).mpr ⟨located, anchored, suffix.elements, elements.symm⟩

end Joins

theorem joins_here_iff : Joins base here path ↔ base.isEmpty = false ∧ path = base := by
  refine ⟨fun joins => ⟨joins.located, ?_⟩, ?_⟩
  · cases joins with
    | property => rfl
    | below _ bare _ anchored elements property =>
        refine Path.ext anchored (by simpa [here] using elements) (property.trans ?_)
        exact (Option.not_isSome_iff_eq_none.mp (Bool.eq_false_iff.mp bare)).symm
  · rintro ⟨located, rfl⟩
    cases owned : path.isPropertyPath with
    | true => exact .property owned
    | false =>
        refine .below located owned rfl rfl (by simp [here]) ?_
        exact Option.not_isSome_iff_eq_none.mp (Bool.eq_false_iff.mp owned)

theorem here_joins_iff : Joins here suffix path ↔ suffix.anchor = .relative ∧ path = suffix := by
  rw [joins_below_iff rfl rfl]
  constructor
  · rintro ⟨relative, anchored, elements, property⟩
    exact ⟨relative, Path.ext (anchored.trans relative.symm) elements property⟩
  · rintro ⟨relative, rfl⟩
    exact ⟨relative, relative, rfl, rfl⟩

theorem isWithin_iff_joins : path.isWithin base = true ↔ ∃ suffix, Joins base suffix path := by
  refine ⟨fun within => ?_, fun ⟨_, joins⟩ => joins.within⟩
  cases owned : base.isPropertyPath with
  | true =>
      obtain rfl := (isWithin_of_property_iff owned).mp within
      exact ⟨here, .property owned⟩
  | false =>
      obtain ⟨located, anchored, rest, elements⟩ := (isWithin_of_bare_iff owned).mp within
      exact ⟨⟨.relative, rest, path.property, by simp [WellFormed]⟩,
        .below located owned rfl anchored elements.symm rfl⟩

theorem Joins.rebase?_eq_some_iff (joins : Joins base suffix path) :
    path.rebase? base target = some moved ↔ Joins target suffix moved := by
  rw [rebase?, joins.within]
  cases nowhere : target.isEmpty with
  | true =>
      rw [if_pos (by simp)]
      exact iff_of_false (by simp) fun placed => by simp [placed.located] at nowhere
  | false =>
      rw [if_neg (by simp)]
      cases joins with
      | property owned =>
          rw [if_pos owned, Option.some_inj, joins_here_iff]
          exact ⟨fun same => ⟨nowhere, same.symm⟩, fun placed => placed.2.symm⟩
      | below _ bare relative _ elements property =>
          rw [if_neg (by simp [bare])]
          cases owned : target.isPropertyPath with
          | true =>
              have exactly : path.elementCount = base.elementCount ∧ path.property = none ↔
                  suffix = here := by
                rw [elementCount, elementCount, elements, List.length_append, property]
                constructor
                · rintro ⟨count, unowned⟩
                  exact Path.ext relative (List.eq_nil_of_length_eq_zero (by omega)) unowned
                · rintro rfl
                  exact ⟨rfl, rfl⟩
              rw [if_pos rfl, joins_property_iff owned, if_congr exactly rfl rfl]
              simp [eq_comm]
          | false =>
              have left : path.elements.drop base.elementCount = suffix.elements := by
                simp [elements, elementCount]
              rw [if_neg (by simp), ofParts?_eq_some_iff, joins_below_iff nowhere owned, left,
                property]
              simp [relative]

theorem rebase?_eq_some_iff : path.rebase? base target = some moved ↔
    ∃ suffix, Joins base suffix path ∧ Joins target suffix moved := by
  constructor
  · intro placed
    have within : path.isWithin base = true := by
      by_contra elsewhere
      rw [rebase?_eq_none_iff.mpr (Or.inl (by simpa using elsewhere))] at placed
      cases placed
    obtain ⟨suffix, joins⟩ := isWithin_iff_joins.mp within
    exact ⟨suffix, joins, joins.rebase?_eq_some_iff.mp placed⟩
  · rintro ⟨suffix, joins, placed⟩
    exact joins.rebase?_eq_some_iff.mpr placed

theorem relativeTo?_eq_some_iff : path.relativeTo? base = some suffix ↔ Joins base suffix path := by
  rw [relativeTo?, rebase?_eq_some_iff]
  constructor
  · rintro ⟨other, joins, placed⟩
    rwa [(here_joins_iff.mp placed).2]
  · intro joins
    exact ⟨suffix, joins, here_joins_iff.mpr ⟨joins.relative, rfl⟩⟩

theorem append?_eq_some_iff : base.append? suffix = some path ↔
    base.isPropertyPath = false ∧ Joins base suffix path := by
  rw [append?]
  split
  next refused =>
    refine iff_of_false (by simp) ?_
    rintro ⟨bare, joins⟩
    simp [joins.relative, joins.located, bare] at refused
  next accepted =>
    obtain ⟨relative, located, bare⟩ : suffix.anchor = .relative ∧ base.isEmpty = false ∧
        base.isPropertyPath = false := by
      simpa using accepted
    split
    next same =>
      obtain rfl : suffix = here := by simpa [isHere] using same
      simp [joins_here_iff, located, bare, eq_comm]
    next =>
      rw [ofParts?_eq_some_iff, joins_below_iff located bare]
      simp [bare, relative]

/-- Putting a path into one place after another is putting it into the last one, and so it can be
put back where it was. Under a path that is no property, it is put by appending what it has after
its base. -/
theorem rebase?_composes (path base target : Path) :
    (∀ moved, path.rebase? base target = some moved →
      (∀ other, moved.rebase? target other = path.rebase? base other) ∧
        moved.rebase? target base = some path) ∧
    (target.isPropertyPath = false →
      path.rebase? base target = (path.relativeTo? base).bind target.append?) := by
  constructor
  · intro moved placed
    obtain ⟨suffix, joins, movedJoins⟩ := rebase?_eq_some_iff.mp placed
    refine ⟨fun other => ?_, movedJoins.rebase?_eq_some_iff.mpr joins⟩
    ext last
    rw [movedJoins.rebase?_eq_some_iff, joins.rebase?_eq_some_iff]
  · intro bare
    ext moved
    rw [rebase?_eq_some_iff, Option.bind_eq_some_iff]
    simp only [relativeTo?_eq_some_iff, append?_eq_some_iff, bare, true_and]

theorem rebase?_composes_leg :
    let size : PropertyName := ⟨"size", by decide⟩
    let leg : Name := ⟨"leg", by decide⟩
    let seat := absolute [⟨"Hall", by decide⟩, ⟨"first", by decide⟩]
    let shared := absolute [⟨"__Prototype_2", by decide⟩]
    let path : Path := ⟨.absolute, seat.elements ++ [leg], some size, by decide⟩
    let moved : Path := ⟨.absolute, shared.elements ++ [leg], some size, by decide⟩
    path.rebase? seat shared = some moved ∧ shared.isPropertyPath = false ∧
      (∀ other, moved.rebase? shared other = path.rebase? seat other) ∧
      moved.rebase? shared seat = some path ∧
      path.rebase? seat shared = (path.relativeTo? seat).bind shared.append? := by
  intro size leg seat shared path moved
  have placed : path.rebase? seat shared = some moved := by decide
  obtain ⟨composes, splits⟩ := rebase?_composes path seat shared
  obtain ⟨onwards, back⟩ := composes moved placed
  exact ⟨placed, rfl, onwards, back, splits rfl⟩

end SceneGraph.Path
