import Mathlib.Logic.Equiv.Basic
import SceneGraph.Proofs.Path.Absolute

/-!
Paths with the root prim they start at renamed.
-/

namespace SceneGraph.Path

def renameRoot (rename : Name → Name) (path : Path) : Path where
  anchor := path.anchor
  elements := path.elements.modifyHead rename
  property := path.property
  wellFormed := by simpa [WellFormed] using path.wellFormed

variable {rename : Name → Name} {path : Path}

@[simp] theorem renameRoot_anchor : (path.renameRoot rename).anchor = path.anchor := rfl

@[simp] theorem renameRoot_elements :
    (path.renameRoot rename).elements = path.elements.modifyHead rename := rfl

@[simp] theorem renameRoot_property : (path.renameRoot rename).property = path.property := rfl

@[simp] theorem renameRoot_elementCount :
    (path.renameRoot rename).elementCount = path.elementCount := List.length_modifyHead

theorem renameRoot_absolute (rename : Name → Name) (first : Name) (rest : List Name) :
    (absolute (first :: rest)).renameRoot rename = absolute (rename first :: rest) := rfl

theorem renameRoot_congr {other : Name → Name}
    (same : ∀ name ∈ path.elements.head?, rename name = other name) :
    path.renameRoot rename = path.renameRoot other := by
  refine Path.ext rfl ?_ rfl
  cases elements : path.elements with
  | nil => simp [elements]
  | cons first rest => simp [elements, same first (by simp [elements])]

theorem isPrimPath_renameRoot : (path.renameRoot rename).isPrimPath = path.isPrimPath := by
  cases elements : path.elements <;> simp [isPrimPath, elements]

theorem isAbsolutePrimPath_renameRoot :
    (path.renameRoot rename).isAbsolutePrimPath = path.isAbsolutePrimPath := by
  rw [isAbsolutePrimPath, isAbsolutePrimPath, isPrimPath_renameRoot]
  rfl

theorem name_renameRoot (nested : 1 < path.elementCount) :
    (path.renameRoot rename).name = path.name := by
  obtain ⟨anchor, elements, property, wellFormed⟩ := path
  cases elements with
  | nil => simp [elementCount] at nested
  | cons first rest =>
      cases rest with
      | nil => simp [elementCount] at nested
      | cons second rest => simp [name, renameRoot]

section

variable (rename : Equiv.Perm Name)

@[simp] theorem renameRoot_symm (path : Path) :
    (path.renameRoot rename).renameRoot rename.symm = path := by
  refine Path.ext rfl ?_ rfl
  cases elements : path.elements <;> simp [elements]

@[simp] theorem symm_renameRoot (path : Path) :
    (path.renameRoot rename.symm).renameRoot rename = path := by
  simpa using renameRoot_symm rename.symm path

theorem renameRoot_inj {left right : Path} :
    left.renameRoot rename = right.renameRoot rename ↔ left = right :=
  ⟨fun same => by simpa using congrArg (renameRoot rename.symm) same, congrArg _⟩

end

theorem isWithin_renameRoot (rename : Equiv.Perm Name) (names : List Name) {base : List Name}
    (named : base ≠ []) :
    ((absolute names).renameRoot rename).isWithin ((absolute base).renameRoot rename) =
      (absolute names).isWithin (absolute base) := by
  obtain ⟨first, rest, rfl⟩ := List.exists_cons_of_ne_nil named
  cases names with
  | nil => rfl
  | cons other names =>
      rw [Bool.eq_iff_iff, renameRoot_absolute, renameRoot_absolute, isWithin_absolute,
        isWithin_absolute, List.cons_prefix_cons, List.cons_prefix_cons, rename.injective.eq_iff]

/-! Above a path. -/

theorem dropLast_modifyHead {α : Type} (change : α → α) (entries : List α) :
    (entries.modifyHead change).dropLast = entries.dropLast.modifyHead change := by
  cases entries with
  | nil => rfl
  | cons first rest => cases rest <;> simp

theorem parent_renameRoot : (path.renameRoot rename).parent = path.parent.renameRoot rename := by
  rw [parent, parent]
  by_cases property : path.isPropertyPath = true
  · rw [if_pos property, if_pos (by simpa [isPropertyPath] using property)]
    rfl
  · rw [if_neg property, if_neg (by simpa [isPropertyPath] using property)]
    by_cases bare : path.elements = []
    · rw [dif_pos bare, dif_pos (by simp [bare])]
      rfl
    · rw [dif_neg bare, dif_neg (by simp [bare])]
      exact Path.ext rfl (dropLast_modifyHead rename path.elements) rfl

theorem nearestAncestors_renameRoot (count : Nat) (path : Path) :
    nearestAncestors count (path.renameRoot rename) =
      (nearestAncestors count path).map (renameRoot rename) := by
  induction count generalizing path with
  | zero => rfl
  | succ count ih =>
      rw [nearestAncestors, nearestAncestors, parent_renameRoot, ih, List.map_cons]

theorem ancestors_renameRoot :
    (path.renameRoot rename).ancestors = path.ancestors.map (renameRoot rename) := by
  have depths : (path.renameRoot rename).depth = path.depth := by
    rw [depth, depth, renameRoot_elementCount]
    rfl
  rw [ancestors, depths, nearestAncestors_renameRoot]
  rfl

end SceneGraph.Path
