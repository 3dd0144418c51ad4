import SceneGraph.Proofs.Path.Absolute

/-!
When a path is within another, and when it is refused a place under another or a way down from it.
Among the results that would be no path, only a property of the scene root ever comes up.
-/

namespace SceneGraph.Path

variable {path base target suffix : Path}

theorem eq_root_iff : path = root ↔ path.anchor = .absolute ∧ path.elements = [] := by
  constructor
  · rintro rfl
    exact ⟨rfl, rfl⟩
  · rintro ⟨anchored, bare⟩
    exact Path.ext anchored bare (path.wellFormed.2 anchored bare)

theorem isEmpty_of_isPropertyPath (property : path.isPropertyPath = true) :
    path.isEmpty = false := by
  refine Bool.eq_false_iff.mpr fun nowhere => ?_
  have bare := (path.wellFormed.1 (by simpa [isEmpty] using nowhere)).2
  simp [isPropertyPath, bare] at property

theorem located_of_isWithin (within : path.isWithin base = true) :
    path.isEmpty = false ∧ base.isEmpty = false ∧ path.anchor = base.anchor := by
  rw [isWithin] at within
  split at within
  next => cases within
  next alike => simpa [and_assoc] using alike

theorem isWithin_of_property_iff (owned : base.isPropertyPath = true) :
    path.isWithin base = true ↔ base = path := by
  constructor
  · intro within
    obtain ⟨placed, located, anchored⟩ := located_of_isWithin within
    exact (beq_iff_eq.mp (by simpa [isWithin, placed, located, anchored, owned] using within)).symm
  · rintro rfl
    simp [isWithin, isEmpty_of_isPropertyPath owned, owned]

theorem isWithin_of_bare_iff (bare : base.isPropertyPath = false) :
    path.isWithin base = true ↔
      base.isEmpty = false ∧ path.anchor = base.anchor ∧ base.elements <+: path.elements := by
  rw [← List.isPrefixOf_iff_prefix]
  by_cases anchored : path.anchor = base.anchor
  · simp [isWithin, isEmpty, bare, anchored]
  · simp [isWithin, anchored]

theorem begins_of_isWithin (within : path.isWithin base = true) :
    base.elements <+: path.elements := by
  cases owned : base.isPropertyPath with
  | true =>
      obtain rfl := (isWithin_of_property_iff owned).mp within
      exact List.prefix_rfl
  | false => exact ((isWithin_of_bare_iff owned).mp within).2.2

theorem ofParts?_eq_none_iff {anchor : Anchor} {elements : List Name}
    {property : Option PropertyName} (located : anchor ≠ .empty) :
    ofParts? anchor elements property = none ↔
      anchor = .absolute ∧ elements = [] ∧ property.isSome = true := by
  rw [ofParts?]
  split
  next wellFormed =>
    refine iff_of_false (by simp) ?_
    rintro ⟨absolute, bare, present⟩
    rw [wellFormed.2 absolute bare] at present
    cases present
  next refused =>
    refine iff_of_true rfl ?_
    simpa [WellFormed, located, Option.isSome_iff_ne_none] using refused

theorem append?_eq_none_iff : path.append? suffix = none ↔
    suffix.anchor ≠ .relative ∨ path.isEmpty = true ∨ path.isPropertyPath = true ∨
      path = root ∧ suffix.elements = [] ∧ suffix.isPropertyPath = true := by
  rw [append?]
  split
  next refused =>
    refine iff_of_true rfl ?_
    rcases refused with elsewhere | nowhere | property
    · exact Or.inl elsewhere
    · exact Or.inr (Or.inl nowhere)
    · exact Or.inr (Or.inr (Or.inl property))
  next accepted =>
    obtain ⟨relative, nowhere, bare⟩ : suffix.anchor = .relative ∧ path.isEmpty = false ∧
        path.isPropertyPath = false := by
      simpa using accepted
    have located : path.anchor ≠ .empty := by simpa [isEmpty] using nowhere
    split
    next same =>
      obtain rfl : suffix = here := by simpa [isHere] using same
      have unowned : here.isPropertyPath = false := rfl
      simp [relative, nowhere, bare, unowned]
    next =>
      rw [ofParts?_eq_none_iff located, eq_root_iff, ← isPropertyPath]
      simp [relative, nowhere, bare, and_assoc]

theorem rebase?_eq_none_iff : path.rebase? base target = none ↔
    path.isWithin base = false ∨ target.isEmpty = true ∨
      base.isPropertyPath = false ∧
        (target.isPropertyPath = true ∧
            ¬(path.elementCount = base.elementCount ∧ path.property = none) ∨
          target = root ∧ path.elementCount ≤ base.elementCount ∧
            path.isPropertyPath = true) := by
  rw [rebase?]
  split
  next refused =>
    have elsewhere : path.isWithin base = false ∨ target.isEmpty = true := by simpa using refused
    exact iff_of_true rfl (elsewhere.imp_right Or.inl)
  next accepted =>
    obtain ⟨within, placed⟩ : path.isWithin base = true ∧ target.isEmpty = false := by
      simpa using accepted
    have located : target.anchor ≠ .empty := by simpa [isEmpty] using placed
    split
    next owned => simp [within, placed, owned]
    next unowned =>
      split
      next property =>
        have other : target ≠ root := by
          rintro rfl
          cases property
        split
        next exactly => simp [within, placed, other, exactly]
        next inexact => simp [within, placed, unowned, property, inexact]
      next bare =>
        rw [ofParts?_eq_none_iff located, eq_root_iff, ← isPropertyPath]
        simp [within, placed, unowned, bare, elementCount, and_assoc]

end SceneGraph.Path
