import SceneGraph.Name

/-!
The letters of names, and the identifiers that a property's name is made of.
-/

namespace SceneGraph

theorem opensIdentifier_ne {letter mark : Char} (opens : opensIdentifier letter = true)
    (other : opensIdentifier mark = false) : letter ≠ mark := by
  rintro rfl
  rw [opens] at other
  cases other

theorem continuesIdentifier_of_opens {letter : Char} (opens : opensIdentifier letter = true) :
    continuesIdentifier letter = true := by
  rw [opensIdentifier, Bool.or_eq_true] at opens
  rcases opens with underscore | alphabetic
  · simp [continuesIdentifier, underscore]
  · simp [continuesIdentifier, Char.isAlphanum, alphabetic]

theorem isIdentifierText_iff {text : List Char} :
    isIdentifierText text = true ↔ ∃ first rest, text = first :: rest ∧
      opensIdentifier first = true ∧ ∀ letter ∈ rest, continuesIdentifier letter = true := by
  cases text with
  | nil => simp [isIdentifierText]
  | cons first rest =>
      rw [isIdentifierText, Bool.and_eq_true, List.all_eq_true]
      constructor
      · intro checked
        exact ⟨first, rest, rfl, checked⟩
      · rintro ⟨_, _, same, checked⟩
        cases same
        exact checked

theorem not_mem_of_isIdentifierText {text : List Char} {mark : Char}
    (identifier : isIdentifierText text = true) (other : continuesIdentifier mark = false) :
    mark ∉ text := by
  obtain ⟨first, rest, rfl, opens, continues⟩ := isIdentifierText_iff.mp identifier
  intro member
  have letter : continuesIdentifier mark = true := by
    rcases List.mem_cons.mp member with rfl | later
    · exact continuesIdentifier_of_opens opens
    · exact continues mark later
  rw [letter] at other
  cases other

theorem splitOn_eq_pieces (mark : Char) (text : List Char) :
    text.splitOn mark = (pieces mark text).1 :: (pieces mark text).2 := by
  induction text with
  | nil => rfl
  | cons letter rest ih =>
      rw [List.splitOn_cons_eq_if_modifyHead, ih, pieces]
      by_cases here : letter = mark <;> simp [here]

theorem isPropertyName_iff {text : String} :
    isPropertyName text = true ↔ ∃ first others,
      text.toList = [':'].intercalate (first :: others) ∧ isIdentifierText first = true ∧
        ∀ other ∈ others, isIdentifierText other = true := by
  have unfolded : isPropertyName text = true ↔
      isIdentifierText (pieces ':' text.toList).1 = true ∧
        ∀ other ∈ (pieces ':' text.toList).2, isIdentifierText other = true := by
    simp [isPropertyName]
  rw [unfolded]
  constructor
  · rintro ⟨first, others⟩
    refine ⟨_, _, ?_, first, others⟩
    rw [← splitOn_eq_pieces, List.intercalate_splitOn]
  · rintro ⟨first, others, spelled, firstIdentifier, otherIdentifiers⟩
    have unmarked : ∀ piece ∈ first :: others, ':' ∉ piece := by
      intro piece member
      refine not_mem_of_isIdentifierText ?_ (by decide)
      rcases List.mem_cons.mp member with rfl | later
      · exact firstIdentifier
      · exact otherIdentifiers piece later
    have split := List.splitOn_intercalate ':' unmarked (by simp)
    rw [← spelled, splitOn_eq_pieces] at split
    obtain ⟨rfl, rfl⟩ := List.cons.inj split
    exact ⟨firstIdentifier, otherIdentifiers⟩

theorem PropertyName.nonempty (property : PropertyName) :
    ∃ letter rest, property.text.toList = letter :: rest := by
  refine List.exists_cons_of_ne_nil fun empty => ?_
  have identifiers := property.identifiers
  rw [isPropertyName, empty] at identifiers
  cases identifiers

end SceneGraph
