import SceneGraph.Proofs.Path.Rebasing
import SceneGraph.Proofs.Path.Text

/-!
Paths put together. Taking what a path has after its base and appending it to the base undo each
other, and of three paths put together it does not matter which two are put together first. Going on
by a single name is following the path that the name is read as.
-/

namespace SceneGraph.Path

variable {base path suffix first second reached : Path}

/-- Below a path that is no property, taking the way down to another path and following it are each
other's inverse. -/
theorem append?_relativeTo? {base : Path} (bare : base.isPropertyPath = false) (path : Path) :
    (path.isWithin base = true →
      ∃ suffix, path.relativeTo? base = some suffix ∧ suffix.anchor = .relative ∧
        base.append? suffix = some path) ∧
    ∀ suffix, base.append? suffix = some path →
      suffix.anchor = .relative ∧ path.isWithin base = true ∧
        path.relativeTo? base = some suffix := by
  constructor
  · intro within
    obtain ⟨suffix, joins⟩ := isWithin_iff_joins.mp within
    exact ⟨suffix, relativeTo?_eq_some_iff.mpr joins, joins.relative,
      append?_eq_some_iff.mpr ⟨bare, joins⟩⟩
  · intro suffix appended
    obtain ⟨_, joins⟩ := append?_eq_some_iff.mp appended
    exact ⟨joins.relative, joins.within, relativeTo?_eq_some_iff.mpr joins⟩

theorem append?_relativeTo?_size :
    let hall := absolute [⟨"Hall", by decide⟩]
    let size : Path := ⟨.absolute, [⟨"Hall", by decide⟩, ⟨"chair", by decide⟩],
      some ⟨"size", by decide⟩, by decide⟩
    let suffix : Path := ⟨.relative, [⟨"chair", by decide⟩], some ⟨"size", by decide⟩, by decide⟩
    hall.isPropertyPath = false ∧ size.isWithin hall = true ∧
      (∃ suffix, size.relativeTo? hall = some suffix ∧ suffix.anchor = .relative ∧
        hall.append? suffix = some size) ∧
      hall.append? suffix = some size ∧ size.relativeTo? hall = some suffix := by
  intro hall size suffix
  have within : size.isWithin hall = true := by decide
  have appended : hall.append? suffix = some size := by decide
  obtain ⟨down, back⟩ := append?_relativeTo? (show hall.isPropertyPath = false from rfl) size
  exact ⟨rfl, within, down within, appended, (back suffix appended).2.2⟩

/-- Following `first` and then `second` from `path` leads to `reached`. -/
structure Follows (path first second reached : Path) : Prop where
  located : path.isEmpty = false
  bare : path.isPropertyPath = false
  firstRelative : first.anchor = .relative
  firstBare : first.isPropertyPath = false
  secondRelative : second.anchor = .relative
  anchored : reached.anchor = path.anchor
  elements : reached.elements = path.elements ++ (first.elements ++ second.elements)
  property : reached.property = second.property

theorem append?_eq_some_iff_parts : base.append? suffix = some path ↔
    (base.isEmpty = false ∧ base.isPropertyPath = false) ∧ suffix.anchor = .relative ∧
      path.anchor = base.anchor ∧ path.elements = base.elements ++ suffix.elements ∧
      path.property = suffix.property := by
  rw [append?_eq_some_iff]
  constructor
  · rintro ⟨bare, joins⟩
    exact ⟨⟨joins.located, bare⟩, (joins_below_iff joins.located bare).mp joins⟩
  · rintro ⟨⟨located, bare⟩, parts⟩
    exact ⟨bare, (joins_below_iff located bare).mpr parts⟩

theorem isPropertyPath_congr (properties : path.property = base.property) :
    path.isPropertyPath = base.isPropertyPath := by
  rw [isPropertyPath, isPropertyPath, properties]

theorem append?_of_append? : (path.append? first).bind (·.append? second) = some reached ↔
    Follows path first second reached := by
  simp only [Option.bind_eq_some_iff, append?_eq_some_iff_parts]
  constructor
  · rintro ⟨middle,
      ⟨⟨located, bare⟩, firstRelative, middleAnchored, middleElements, middleProperty⟩,
      ⟨_, middleBare⟩, secondRelative, anchored, elements, property⟩
    exact {
      located, bare, firstRelative, secondRelative, property
      firstBare := isPropertyPath_congr middleProperty ▸ middleBare
      anchored := anchored.trans middleAnchored
      elements := by rw [elements, middleElements, List.append_assoc]
    }
  · intro follows
    have located := follows.located
    have placed : path.anchor ≠ .empty := by simpa [isEmpty] using located
    have unowned : first.property = none := by
      simpa [isPropertyPath] using follows.firstBare
    let middle : Path := ⟨path.anchor, path.elements ++ first.elements, none,
      ⟨fun nowhere => absurd nowhere placed, fun _ _ => rfl⟩⟩
    refine ⟨middle, ⟨⟨located, follows.bare⟩, follows.firstRelative, rfl, rfl, unowned.symm⟩,
      ⟨located, rfl⟩, follows.secondRelative, follows.anchored, ?_, follows.property⟩
    rw [follows.elements, List.append_assoc]

theorem append?_to_append? : (first.append? second).bind path.append? = some reached ↔
    Follows path first second reached := by
  simp only [Option.bind_eq_some_iff, append?_eq_some_iff_parts]
  constructor
  · rintro ⟨whole, ⟨⟨_, firstBare⟩, secondRelative, wholeAnchored, wholeElements, wholeProperty⟩,
      ⟨located, bare⟩, wholeRelative, anchored, elements, property⟩
    exact {
      located, bare, firstBare, secondRelative, anchored
      firstRelative := wholeAnchored.symm.trans wholeRelative
      elements := by rw [elements, wholeElements]
      property := property.trans wholeProperty
    }
  · intro follows
    have relative := follows.firstRelative
    let whole : Path := ⟨.relative, first.elements ++ second.elements, second.property,
      ⟨nofun, nofun⟩⟩
    refine ⟨whole, ⟨⟨?_, follows.firstBare⟩, follows.secondRelative, relative.symm, rfl, rfl⟩,
      ⟨follows.located, follows.bare⟩, rfl, follows.anchored, follows.elements, follows.property⟩
    rw [isEmpty, relative]
    rfl

/-- Following two paths one after the other leads where the two put together lead, and one is
refused where the other is: if nothing can come after the path or after the first of the two, if one
of them is not relative, or if a property of the scene root would come out. -/
theorem append?_assoc (path first second : Path) :
    (path.append? first).bind (·.append? second) = (first.append? second).bind path.append? ∧
      ∀ reached, (path.append? first).bind (·.append? second) = some reached ↔
        Follows path first second reached := by
  refine ⟨?_, fun reached => append?_of_append?⟩
  ext reached
  rw [append?_of_append?, append?_to_append?]

/-! One part. -/

def relative (elements : List Name) (property : Option PropertyName) : Path :=
  ⟨.relative, elements, property, ⟨nofun, nofun⟩⟩

theorem parse_name (name : Name) : parse name.text = .ok (relative [name] none) := by
  refine parse_of_render (String.toList_inj.mp ?_)
  rw [toList_render]
  simp [relative, toList_joined, ending]

theorem parse_dot_iff {text : String} :
    parse ("." ++ text) = .ok suffix ∧ suffix.isPropertyPath = true ↔
      ∃ property : PropertyName, property.text = text ∧ suffix = relative [] (some property) := by
  have spelled : ("." ++ text).toList = '.' :: text.toList := by simp
  rw [parse_eq_ok_iff, ← String.toList_inj, spelled, toList_render]
  constructor
  · rintro ⟨written, owned⟩
    obtain ⟨anchor, elements, property, wellFormed⟩ := suffix
    obtain ⟨property, rfl⟩ := Option.isSome_iff_exists.mp owned
    cases anchor with
    | empty => cases written
    | absolute => simp at written
    | relative =>
        cases elements with
        | nil =>
            refine ⟨property, String.toList_inj.mp ?_, rfl⟩
            simpa [joined, ending] using written
        | cons name others =>
            obtain ⟨letter, rest, names, opens⟩ := joined_opens (List.cons_ne_nil name others)
            simp only [names, List.cons_append, reduceCtorEq, false_and, if_false,
              List.cons.injEq] at written
            exact absurd written.1 (opensIdentifier_ne opens (by decide))
  · rintro ⟨property, rfl, rfl⟩
    simp [relative, joined, ending, isPropertyPath]

theorem isPrimPath_iff : path.isPrimPath = true ↔
    path.isEmpty = false ∧ path.isPropertyPath = false ∧ path ≠ root := by
  rw [ne_eq, eq_root_iff, isPrimPath, isEmpty, isPropertyPath]
  cases path.property <;> cases path.anchor <;> simp

theorem child_eq_ok_iff {text : String} : path.child text = .ok reached ↔
    ∃ name : Name, name.text = text ∧ path.append? (relative [name] none) = some reached := by
  simp only [append?_eq_some_iff_parts]
  rw [child]
  constructor
  · intro found
    split at found
    next identifier =>
      split at found
      next => cases found
      next accepted =>
        cases found
        exact ⟨⟨text, identifier⟩, rfl, by simpa using accepted, rfl, rfl, rfl, rfl⟩
    next => cases found
  · rintro ⟨name, rfl, ⟨located, bare⟩, _, anchored, elements, property⟩
    rw [dif_pos name.identifier, dif_neg (by simp [located, bare])]
    exact congrArg Except.ok (Path.ext anchored.symm elements.symm property.symm)

theorem withProperty_eq_ok_iff {text : String} : path.withProperty text = .ok reached ↔
    ∃ property : PropertyName, property.text = text ∧
      path.append? (relative [] (some property)) = some reached := by
  simp only [append?_eq_some_iff_parts]
  rw [withProperty]
  constructor
  · intro found
    split at found
    next identifiers =>
      split at found
      next prim =>
        cases found
        obtain ⟨located, bare, _⟩ := isPrimPath_iff.mp prim
        exact ⟨⟨text, identifiers⟩, rfl, ⟨located, bare⟩, rfl, rfl, (List.append_nil _).symm, rfl⟩
      next => cases found
    next => cases found
  · rintro ⟨property, rfl, ⟨located, bare⟩, _, anchored, elements, owned⟩
    have named : reached.elements = path.elements := elements.trans (List.append_nil _)
    have prim : path.isPrimPath = true := by
      refine isPrimPath_iff.mpr ⟨located, bare, ?_⟩
      rintro rfl
      have unowned := reached.wellFormed.2 anchored named
      rw [owned] at unowned
      cases unowned
    rw [dif_pos property.identifiers, dif_pos prim]
    exact congrArg Except.ok (Path.ext anchored.symm named.symm owned.symm)

/-- Going on by a name is following the path that the name is read as, and going on by a property's
name the one that a dot and the name are read as. Where the one is refused so is the other. -/
theorem append?_parse (path : Path) (text : String) (reached : Path) :
    (path.child text = .ok reached ↔ isIdentifier text = true ∧
      ∃ suffix, parse text = .ok suffix ∧ path.append? suffix = some reached) ∧
    (path.withProperty text = .ok reached ↔ ∃ suffix, parse ("." ++ text) = .ok suffix ∧
      suffix.isPropertyPath = true ∧ path.append? suffix = some reached) := by
  constructor
  · rw [child_eq_ok_iff]
    constructor
    · rintro ⟨name, rfl, appended⟩
      exact ⟨name.identifier, relative [name] none, parse_name name, appended⟩
    · rintro ⟨identifier, suffix, read, appended⟩
      have same : suffix = relative [⟨text, identifier⟩] none := by
        simpa [read] using parse_name ⟨text, identifier⟩
      exact ⟨⟨text, identifier⟩, rfl, same ▸ appended⟩
  · rw [withProperty_eq_ok_iff]
    constructor
    · rintro ⟨property, spelled, appended⟩
      obtain ⟨read, owned⟩ := parse_dot_iff.mpr ⟨property, spelled, rfl⟩
      exact ⟨relative [] (some property), read, owned, appended⟩
    · rintro ⟨suffix, read, owned, appended⟩
      obtain ⟨property, spelled, rfl⟩ := parse_dot_iff.mp ⟨read, owned⟩
      exact ⟨property, spelled, appended⟩

end SceneGraph.Path
