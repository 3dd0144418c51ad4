import Mathlib.Data.List.Induction
import SceneGraph.Scene.Definition

/-!
Paths from the scene root, given by the names of the prims they go through: what lies right above
and right below them, and what becomes of a path when the prims it starts with are replaced.
-/

namespace SceneGraph.Path

@[ext] theorem ext {left right : Path} (anchors : left.anchor = right.anchor)
    (elements : left.elements = right.elements) (properties : left.property = right.property) :
    left = right := by
  cases left; cases right; cases anchors; cases elements; cases properties; rfl

def absolute (names : List Name) : Path :=
  ⟨.absolute, names, none, ⟨nofun, fun _ _ => rfl⟩⟩

@[simp] theorem absolute_anchor (names : List Name) : (absolute names).anchor = .absolute := rfl

@[simp] theorem absolute_elements (names : List Name) : (absolute names).elements = names := rfl

@[simp] theorem absolute_property (names : List Name) : (absolute names).property = none := rfl

@[simp] theorem absolute_inj {left right : List Name} :
    absolute left = absolute right ↔ left = right :=
  ⟨congrArg elements, congrArg absolute⟩

theorem isPrimPath_absolute {names : List Name} :
    (absolute names).isPrimPath = true ↔ names ≠ [] := by
  simp [isPrimPath, absolute]

theorem isAbsolutePrimPath_iff {path : Path} :
    path.isAbsolutePrimPath = true ↔ ∃ names, names ≠ [] ∧ path = absolute names := by
  constructor
  · intro checked
    simp only [isAbsolutePrimPath, isAbsolute, isPrimPath, Bool.and_eq_true, beq_iff_eq,
      Option.isNone_iff_eq_none] at checked
    obtain ⟨anchored, bare, named⟩ := checked
    rw [anchored] at named
    exact ⟨path.elements, by simpa using named, Path.ext anchored rfl bare⟩
  · rintro ⟨names, named, rfl⟩
    simpa [isAbsolutePrimPath, isAbsolute] using isPrimPath_absolute.mpr named

theorem eq_absolute_of_isAbsolutePrimPath {path : Path} (prim : path.isAbsolutePrimPath = true) :
    path = absolute path.elements := by
  obtain ⟨names, _, rfl⟩ := isAbsolutePrimPath_iff.mp prim
  rfl

theorem exists_last {path : Path} (prim : path.isAbsolutePrimPath = true) :
    ∃ names last, path = absolute (names ++ [last]) := by
  obtain ⟨names, named, rfl⟩ := isAbsolutePrimPath_iff.mp prim
  exact ⟨names.dropLast, names.getLast named, by rw [List.dropLast_concat_getLast]⟩

theorem name_absolute_append (names : List Name) (last : Name) :
    (absolute (names ++ [last])).name = last.text := by
  simp [name]

theorem isReserved_congr {left right : Path} (anchors : left.anchor = right.anchor)
    (heads : left.elements.head? = right.elements.head?) : left.isReserved = right.isReserved := by
  rw [isReserved, isReserved, isAbsolute, isAbsolute, anchors, heads]

theorem isReserved_of_prefix {path : Path} {names : List Name} (anchored : path.anchor = .absolute)
    (named : names ≠ []) (within : names <+: path.elements) :
    (absolute names).isReserved = path.isReserved := by
  obtain ⟨first, others, rfl⟩ := List.exists_cons_of_ne_nil named
  obtain ⟨rest, elements⟩ := within
  exact isReserved_congr anchored.symm (by rw [← elements]; rfl)

/-! Below a path. -/

theorem child_absolute (names : List Name) (name : Name) :
    (absolute names).child name.text = .ok (absolute (names ++ [name])) := by
  rw [child, dif_pos name.identifier, dif_neg (by simp [isEmpty, isPropertyPath])]
  rfl

theorem child_eq_ok {path below : Path} {text : String} (found : path.child text = .ok below) :
    ∃ name : Name, name.text = text ∧ below.anchor = path.anchor ∧
      below.elements = path.elements ++ [name] ∧ below.property = none := by
  rw [child] at found
  split at found
  next identifier =>
    split at found
    next => simp at found
    next =>
      cases found
      exact ⟨⟨text, identifier⟩, rfl, rfl, rfl, rfl⟩
  next => simp at found

theorem child_absolute_eq_ok {names : List Name} {below : Path} {text : String}
    (found : (absolute names).child text = .ok below) :
    ∃ name : Name, name.text = text ∧ below = absolute (names ++ [name]) := by
  obtain ⟨name, spelled, anchored, elements, bare⟩ := child_eq_ok found
  exact ⟨name, spelled, Path.ext anchored elements bare⟩

theorem isReserved_child {path below : Path} {text : String} (named : path.elements ≠ [])
    (found : path.child text = .ok below) : below.isReserved = path.isReserved := by
  obtain ⟨name, _, anchored, elements, _⟩ := child_eq_ok found
  obtain ⟨first, rest, same⟩ := List.exists_cons_of_ne_nil named
  exact isReserved_congr anchored (by simp [elements, same])

theorem isWithin_child {path base below : Path} {text : String}
    (within : path.isWithin base = true) (found : path.child text = .ok below) :
    below.isWithin base = true := by
  obtain ⟨name, _, anchored, elements, _⟩ := child_eq_ok found
  have bare : base.isPropertyPath = false := by
    refine Bool.eq_false_iff.mpr fun property => ?_
    simp only [isWithin, property] at within
    grind [child]
  simp only [isWithin, isEmpty, bare, anchored, elements] at within ⊢
  grind [List.isPrefixOf_iff_prefix]

theorem isWithin_absolute {names base : List Name} :
    (absolute names).isWithin (absolute base) = true ↔ base <+: names := by
  simp [isWithin, isEmpty, isPropertyPath]

/-! Above a path. -/

theorem parent_absolute_append (names : List Name) (name : Name) :
    (absolute (names ++ [name])).parent = absolute names := by
  rw [parent, if_neg (by simp [isPropertyPath]), dif_neg (by simp)]
  apply Path.ext <;> simp

/-! Elsewhere. -/

theorem relativeTo?_absolute {target : Path} {base rest : List Name}
    (anchored : target.anchor = .absolute) (elements : target.elements = base ++ rest) :
    ∃ suffix, target.relativeTo? (absolute base) = some suffix ∧ suffix.anchor = .relative ∧
      suffix.elements = rest ∧ suffix.property = target.property := by
  have within : target.isWithin (absolute base) = true := by
    simp [isWithin, isEmpty, isPropertyPath, anchored, elements]
  refine ⟨⟨.relative, rest, target.property, by simp [WellFormed]⟩, ?_, rfl, rfl, rfl⟩
  rw [relativeTo?, rebase?, if_neg (by simp [within, isEmpty, here]),
    if_neg (by simp [isPropertyPath]), if_neg (by simp [isPropertyPath, here]), ofParts?,
    dif_pos (by simp [WellFormed, here])]
  simp [here, elementCount, elements]

theorem append?_absolute {names : List Name} {suffix : Path} (named : names ≠ [])
    (relative : suffix.anchor = .relative) :
    ∃ next, (absolute names).append? suffix = some next ∧ next.anchor = .absolute ∧
      next.elements = names ++ suffix.elements ∧ next.property = suffix.property := by
  rw [append?, if_neg (by simp [relative, isEmpty, isPropertyPath])]
  by_cases reflexive : suffix.isHere = true
  · have same : suffix = here := by simpa [isHere] using reflexive
    rw [if_pos reflexive]
    exact ⟨absolute names, rfl, rfl, by simp [same, here], by simp [same, here]⟩
  · rw [if_neg reflexive, ofParts?, dif_pos (by simp [WellFormed, named])]
    exact ⟨_, rfl, rfl, rfl, rfl⟩

end SceneGraph.Path
