import Mathlib.Computability.Language
import SceneGraph.Proofs.Path.Text

/-!
The grammar of paths, that reading accepts its texts and no others, and that every path is read back
from its text.
-/

namespace SceneGraph

open scoped Computability

namespace Grammar

def between (first last : Char) : Language Char :=
  {text | ∃ letter, first ≤ letter ∧ letter ≤ last ∧ text = [letter]}

def mark (letter : Char) : Language Char := {[letter]}

def opening : Language Char := between 'A' 'Z' + between 'a' 'z' + mark '_'

def continuing : Language Char := opening + between '0' '9'

/-- One of `[A-Za-z_]`, then any number of `[A-Za-z0-9_]`. -/
def identifier : Language Char := opening * continuing∗

def identifiers (separator : Char) : Language Char :=
  identifier * (mark separator * identifier)∗

def propertyName : Language Char := identifiers ':'

/-- Nothing for the empty path, `/` for the scene root and `.` for `here`, or the names of prims,
after a slash if from the scene root, with or without a property, or a property of `here`. -/
def path : Language Char :=
  1 + mark '/' + mark '.' +
    (1 + mark '/') * identifiers '/' * (1 + mark '.' * propertyName) + mark '.' * propertyName

variable {text : List Char}

theorem mem_between {first last : Char} :
    text ∈ between first last ↔ ∃ letter, first ≤ letter ∧ letter ≤ last ∧ text = [letter] :=
  Iff.rfl

theorem mem_mark {letter : Char} : text ∈ mark letter ↔ text = [letter] := Iff.rfl

theorem mem_mark_mul {letter : Char} {rest : Language Char} :
    text ∈ mark letter * rest ↔ ∃ more ∈ rest, text = letter :: more := by
  rw [Language.mem_mul]
  constructor
  · rintro ⟨_, rfl, more, member, rfl⟩
    exact ⟨more, member, rfl⟩
  · rintro ⟨more, member, rfl⟩
    exact ⟨[letter], rfl, more, member, rfl⟩

theorem opensIdentifier_iff {letter : Char} :
    opensIdentifier letter = true ↔
      ('A' ≤ letter ∧ letter ≤ 'Z' ∨ 'a' ≤ letter ∧ letter ≤ 'z') ∨ letter = '_' := by
  have spelled : opensIdentifier letter = (letter == '_' || (decide ('A' ≤ letter ∧ letter ≤ 'Z') ||
      decide ('a' ≤ letter) && decide (letter ≤ 'z'))) := rfl
  rw [spelled]
  simp [or_comm]

theorem continuesIdentifier_iff {letter : Char} :
    continuesIdentifier letter = true ↔
      opensIdentifier letter = true ∨ '0' ≤ letter ∧ letter ≤ '9' := by
  have spelled : continuesIdentifier letter = (letter == '_' || (letter.isAlpha ||
      decide ('0' ≤ letter) && decide (letter ≤ '9'))) := rfl
  rw [spelled, ← Bool.or_assoc, ← opensIdentifier]
  simp

theorem mem_opening :
    text ∈ opening ↔ ∃ letter, opensIdentifier letter = true ∧ text = [letter] := by
  simp only [opening, Language.mem_add, mem_between, mem_mark, opensIdentifier_iff]
  constructor
  · rintro ((⟨letter, lower, upper, rfl⟩ | ⟨letter, lower, upper, rfl⟩) | rfl)
    · exact ⟨letter, Or.inl (Or.inl ⟨lower, upper⟩), rfl⟩
    · exact ⟨letter, Or.inl (Or.inr ⟨lower, upper⟩), rfl⟩
    · exact ⟨'_', Or.inr rfl, rfl⟩
  · rintro ⟨letter, (⟨lower, upper⟩ | ⟨lower, upper⟩) | rfl, rfl⟩
    · exact Or.inl (Or.inl ⟨letter, lower, upper, rfl⟩)
    · exact Or.inl (Or.inr ⟨letter, lower, upper, rfl⟩)
    · exact Or.inr rfl

theorem mem_continuing :
    text ∈ continuing ↔ ∃ letter, continuesIdentifier letter = true ∧ text = [letter] := by
  simp only [continuing, Language.mem_add, mem_between, mem_opening, continuesIdentifier_iff]
  constructor
  · rintro (⟨letter, opens, rfl⟩ | ⟨letter, lower, upper, rfl⟩)
    · exact ⟨letter, Or.inl opens, rfl⟩
    · exact ⟨letter, Or.inr ⟨lower, upper⟩, rfl⟩
  · rintro ⟨letter, opens | ⟨lower, upper⟩, rfl⟩
    · exact Or.inl ⟨letter, opens, rfl⟩
    · exact Or.inr ⟨letter, lower, upper, rfl⟩

theorem mem_kstar_continuing :
    text ∈ continuing∗ ↔ ∀ letter ∈ text, continuesIdentifier letter = true := by
  rw [Language.mem_kstar]
  constructor
  · rintro ⟨parts, rfl, continues⟩ letter member
    obtain ⟨part, within, here⟩ := List.mem_flatten.mp member
    obtain ⟨other, checked, rfl⟩ := mem_continuing.mp (continues part within)
    rwa [List.mem_singleton.mp here]
  · intro continues
    refine ⟨text.map fun letter => [letter], (List.flatMap_singleton' text).symm, ?_⟩
    intro part within
    obtain ⟨letter, member, rfl⟩ := List.mem_map.mp within
    exact mem_continuing.mpr ⟨letter, continues letter member, rfl⟩

theorem mem_identifier : text ∈ identifier ↔ isIdentifierText text = true := by
  rw [identifier, Language.mem_mul, isIdentifierText_iff]
  constructor
  · rintro ⟨_, opened, rest, continued, rfl⟩
    obtain ⟨first, opens, rfl⟩ := mem_opening.mp opened
    exact ⟨first, rest, rfl, opens, mem_kstar_continuing.mp continued⟩
  · rintro ⟨first, rest, rfl, opens, continues⟩
    exact ⟨[first], mem_opening.mpr ⟨first, opens, rfl⟩, rest, mem_kstar_continuing.mpr continues,
      rfl⟩

theorem intercalate_cons_eq (separator : Char) (first : List Char) (others : List (List Char)) :
    [separator].intercalate (first :: others) =
      first ++ (others.map fun piece => separator :: piece).flatten := by
  induction others generalizing first with
  | nil => simp
  | cons second later ih => simp [List.intercalate_cons_cons, ih]

theorem mem_kstar_separated {separator : Char} :
    text ∈ (mark separator * identifier)∗ ↔ ∃ pieces : List (List Char),
      (∀ piece ∈ pieces, isIdentifierText piece = true) ∧
        text = (pieces.map fun piece => separator :: piece).flatten := by
  rw [Language.mem_kstar]
  constructor
  · rintro ⟨parts, rfl, separated⟩
    induction parts with
    | nil => exact ⟨[], by simp, rfl⟩
    | cons part rest ih =>
        obtain ⟨piece, member, rfl⟩ := mem_mark_mul.mp (separated part (by simp))
        obtain ⟨pieces, checked, same⟩ := ih fun other within => separated other (by simp [within])
        exact ⟨piece :: pieces, by simpa using ⟨mem_identifier.mp member, checked⟩, by simp [same]⟩
  · rintro ⟨pieces, checked, rfl⟩
    refine ⟨_, rfl, ?_⟩
    intro part within
    obtain ⟨piece, member, rfl⟩ := List.mem_map.mp within
    exact mem_mark_mul.mpr ⟨piece, mem_identifier.mpr (checked piece member), rfl⟩

theorem mem_identifiers {separator : Char} :
    text ∈ identifiers separator ↔ ∃ first others,
      text = [separator].intercalate (first :: others) ∧ isIdentifierText first = true ∧
        ∀ other ∈ others, isIdentifierText other = true := by
  simp only [identifiers, Language.mem_mul, mem_kstar_separated, mem_identifier,
    intercalate_cons_eq]
  constructor
  · rintro ⟨first, opened, _, ⟨others, checked, rfl⟩, rfl⟩
    exact ⟨first, others, rfl, opened, checked⟩
  · rintro ⟨first, others, rfl, opened, checked⟩
    exact ⟨first, opened, _, ⟨others, checked, rfl⟩, rfl⟩

theorem mem_propertyName {name : String} :
    name.toList ∈ propertyName ↔ isPropertyName name = true := by
  rw [propertyName, mem_identifiers, isPropertyName_iff]

theorem exists_names {pieces : List (List Char)}
    (checked : ∀ piece ∈ pieces, isIdentifierText piece = true) :
    ∃ elements : List Name, elements.map (fun name => name.text.toList) = pieces := by
  induction pieces with
  | nil => exact ⟨[], rfl⟩
  | cons piece rest ih =>
      obtain ⟨elements, spelled⟩ := ih fun other within => checked other (by simp [within])
      have identifier : isIdentifier (String.ofList piece) = true := by
        rw [isIdentifier, String.toList_ofList]
        exact checked piece (by simp)
      exact ⟨⟨_, identifier⟩ :: elements, by simp [spelled]⟩

theorem mem_names : text ∈ identifiers '/' ↔ ∃ elements : List Name, elements ≠ [] ∧
    text = (Path.joined elements).toList := by
  rw [mem_identifiers]
  constructor
  · rintro ⟨first, others, rfl, opened, checked⟩
    obtain ⟨elements, spelled⟩ := exists_names (List.forall_mem_cons.mpr ⟨opened, checked⟩)
    refine ⟨elements, ?_, by rw [Path.toList_joined, spelled]⟩
    rintro rfl
    cases spelled
  · rintro ⟨elements, named, rfl⟩
    obtain ⟨first, others, rfl⟩ := List.exists_cons_of_ne_nil named
    refine ⟨_, _, Path.toList_joined _, first.identifier, ?_⟩
    intro other within
    obtain ⟨name, _, rfl⟩ := List.mem_map.mp within
    exact name.identifier

theorem mem_ending :
    text ∈ 1 + mark '.' * propertyName ↔ ∃ property, text = Path.ending property := by
  rw [Language.mem_add, Language.mem_one, mem_mark_mul]
  constructor
  · rintro (rfl | ⟨name, member, rfl⟩)
    · exact ⟨none, rfl⟩
    · have identifiers : isPropertyName (String.ofList name) = true :=
        mem_propertyName.mp (by rwa [String.toList_ofList])
      exact ⟨some ⟨_, identifiers⟩, by rw [Path.ending, String.toList_ofList]⟩
  · rintro ⟨property, rfl⟩
    cases property with
    | none => exact Or.inl rfl
    | some property => exact Or.inr ⟨_, mem_propertyName.mpr property.identifiers, rfl⟩

theorem mem_start : text ∈ 1 + mark '/' ↔ text = [] ∨ text = ['/'] := by
  rw [Language.mem_add, Language.mem_one, mem_mark]

theorem mem_named :
    text ∈ (1 + mark '/') * identifiers '/' * (1 + mark '.' * propertyName) ↔
      ∃ (start : List Char) (elements : List Name) (property : Option PropertyName),
        (start = [] ∨ start = ['/']) ∧ elements ≠ [] ∧
          text = start ++ (Path.joined elements).toList ++ Path.ending property := by
  rw [Language.mem_mul]
  constructor
  · rintro ⟨_, opened, _, ended, rfl⟩
    obtain ⟨start, started, _, named, rfl⟩ := Language.mem_mul.mp opened
    obtain ⟨elements, nonempty, rfl⟩ := mem_names.mp named
    obtain ⟨property, rfl⟩ := mem_ending.mp ended
    exact ⟨start, elements, property, mem_start.mp started, nonempty, rfl⟩
  · rintro ⟨start, elements, property, started, nonempty, rfl⟩
    have named := mem_names.mpr ⟨elements, nonempty, rfl⟩
    have opened := Language.append_mem_mul (mem_start.mpr started) named
    exact ⟨_, opened, _, mem_ending.mpr ⟨property, rfl⟩, rfl⟩

end Grammar

namespace Path

theorem render_mem_grammar (path : Path) : path.render.toList ∈ Grammar.path := by
  rw [toList_render]
  simp only [Grammar.path, Language.mem_add, Language.mem_one, Grammar.mem_mark,
    Grammar.mem_named, Grammar.mem_mark_mul]
  obtain ⟨anchor, elements, property, wellFormed⟩ := path
  cases anchor with
  | empty => simp
  | absolute =>
      cases elements with
      | nil =>
          obtain rfl := wellFormed.2 rfl rfl
          simp [joined, ending]
      | cons first others =>
          exact Or.inl (Or.inr ⟨['/'], first :: others, property, Or.inr rfl, by simp, rfl⟩)
  | relative =>
      cases elements with
      | nil =>
          cases property with
          | none => simp
          | some property =>
              exact Or.inr ⟨_, Grammar.mem_propertyName.mpr property.identifiers, rfl⟩
      | cons first others =>
          exact Or.inl (Or.inr ⟨[], first :: others, property, Or.inl rfl, by simp, rfl⟩)

theorem exists_path {text : String} (member : text.toList ∈ Grammar.path) :
    ∃ path : Path, path.render = text := by
  simp only [Grammar.path, Language.mem_add, Language.mem_one, Grammar.mem_mark,
    Grammar.mem_named, Grammar.mem_mark_mul] at member
  rcases member with
    (((empty | root) | here) | ⟨start, elements, property, started, named, spelled⟩) |
      ⟨name, member, spelled⟩
  · exact ⟨Path.empty, (String.toList_inj.mp empty).symm⟩
  · exact ⟨Path.root, (String.toList_inj.mp root).symm⟩
  · exact ⟨Path.here, (String.toList_inj.mp here).symm⟩
  · rcases started with rfl | rfl
    · refine ⟨⟨.relative, elements, property, by simp [WellFormed]⟩, ?_⟩
      rw [← String.toList_inj, toList_render, spelled]
      simp [named]
    · refine ⟨⟨.absolute, elements, property, by simp [WellFormed, named]⟩, ?_⟩
      rw [← String.toList_inj, toList_render, spelled]
      rfl
  · have identifiers : isPropertyName (String.ofList name) = true :=
      Grammar.mem_propertyName.mp (by rwa [String.toList_ofList])
    refine ⟨⟨.relative, [], some ⟨_, identifiers⟩, by simp [WellFormed]⟩, ?_⟩
    rw [← String.toList_inj, toList_render, spelled]
    simp [joined, ending]

/-- Every path can be read back from its text, so no two paths have the same. Whatever operations
it comes from, it has no parts if it is empty and no property if it is the scene root, and its names
are those of the grammar. -/
theorem parse_render (path : Path) :
    parse path.render = .ok path ∧
      (∀ other : Path, other.render = path.render → other = path) ∧
      (path.isEmpty = true → path.elements = [] ∧ path.property = none) ∧
      (path.isAbsolute = true → path.elements = [] → path.property = none) ∧
      (∀ name ∈ path.elements, name.text.toList ∈ Grammar.identifier) ∧
      ∀ property, path.property = some property →
        property.text.toList ∈ Grammar.propertyName := by
  have read : parse path.render = .ok path := parse_eq_ok_iff.mpr rfl
  refine ⟨read, ?_, ?_, ?_, ?_, ?_⟩
  · intro other same
    exact Except.ok.inj ((parse_eq_ok_iff.mpr same).symm.trans read)
  · intro empty
    exact path.wellFormed.1 (by simpa [isEmpty] using empty)
  · intro absolute
    exact path.wellFormed.2 (by simpa [isAbsolute] using absolute)
  · intro name _
    exact Grammar.mem_identifier.mpr name.identifier
  · intro property _
    exact Grammar.mem_propertyName.mpr property.identifiers

/-- A text is read as a path exactly if the grammar has it, and then it is what the path is written
as; so there is no other text for that path. -/
theorem parse_ok_iff_grammar (text : String) :
    ((∃ path, parse text = .ok path) ↔ text.toList ∈ Grammar.path) ∧
      ∀ path, parse text = .ok path →
        path.render = text ∧ ∀ other, parse other = .ok path → other = text := by
  simp only [parse_eq_ok_iff]
  refine ⟨⟨?_, exists_path⟩, ?_⟩
  · rintro ⟨path, rfl⟩
    exact path.render_mem_grammar
  · rintro path rfl
    exact ⟨rfl, fun other written => written.symm⟩

end Path

end SceneGraph
