import SceneGraph.Path.Text
import SceneGraph.Proofs.Except
import SceneGraph.Proofs.Name
import SceneGraph.Proofs.Path.Absolute

/-!
Reading paths back. A text is read as a path exactly if it is that path's written form, so writing
and reading undo each other.
-/

namespace SceneGraph.Path

/-! Written forms. -/

theorem toList_joined (elements : List Name) :
    (joined elements).toList = ['/'].intercalate (elements.map fun name => name.text.toList) := by
  rw [joined, String.toList_intercalate, List.map_map]
  rfl

def ending : Option PropertyName → List Char
  | none => []
  | some property => '.' :: property.text.toList

theorem toList_render (path : Path) :
    path.render.toList =
      match path.anchor with
      | .empty => []
      | .absolute => '/' :: ((joined path.elements).toList ++ ending path.property)
      | .relative =>
        if path.elements = [] ∧ path.property = none then ['.']
        else (joined path.elements).toList ++ ending path.property := by
  obtain ⟨anchor, elements, property, wellFormed⟩ := path
  cases anchor with
  | empty =>
      obtain ⟨rfl, rfl⟩ := wellFormed.1 rfl
      rfl
  | absolute => cases property <;> simp [render, ending]
  | relative => cases property <;> cases elements <;> simp [render, ending, joined]

theorem joined_opens {elements : List Name} (named : elements ≠ []) :
    ∃ letter rest, (joined elements).toList = letter :: rest ∧ opensIdentifier letter = true := by
  obtain ⟨first, others, rfl⟩ := List.exists_cons_of_ne_nil named
  obtain ⟨letter, rest, spelled, opens, _⟩ := isIdentifierText_iff.mp first.identifier
  have starts : ∃ more, (joined (first :: others)).toList = first.text.toList ++ more := by
    rw [toList_joined, List.map_cons]
    cases others with
    | nil => exact ⟨[], by simp⟩
    | cons second later => exact ⟨_, by simp; rfl⟩
  obtain ⟨more, starts⟩ := starts
  exact ⟨letter, rest ++ more, by rw [starts, spelled, List.cons_append], opens⟩

theorem dot_not_mem_joined (elements : List Name) : '.' ∉ (joined elements).toList := by
  rw [toList_joined]
  induction elements with
  | nil => simp
  | cons first others ih =>
      have unmarked : '.' ∉ first.text.toList :=
        not_mem_of_isIdentifierText first.identifier (by decide)
      cases others with
      | nil => simpa using unmarked
      | cons second later =>
          rw [List.map_cons, List.map_cons, List.intercalate_cons_cons]
          simp only [List.mem_append, not_or]
          exact ⟨⟨unmarked, by decide⟩, by simpa using ih⟩

/-! Reading. -/

theorem readName_eq_ok {text : String} {piece : List Char} {name : Name} :
    readName text piece = .ok name ↔ name.text.toList = piece := by
  rw [readName]
  split
  next identifier =>
    rw [Except.ok.injEq]
    constructor
    · rintro rfl
      exact String.toList_ofList
    · rintro rfl
      exact Name.text_injective String.ofList_toList
  next invalid =>
    refine iff_of_false (by simp) ?_
    rintro rfl
    rw [String.ofList_toList] at invalid
    exact invalid name.identifier

theorem mapM_readName_eq_ok {text : String} {others : List (List Char)} {elements : List Name} :
    others.mapM (readName text) = .ok elements ↔
      elements.map (fun name => name.text.toList) = others := by
  induction others generalizing elements with
  | nil => cases elements <;> simp [pure, Except.pure]
  | cons piece rest ih =>
      simp only [List.mapM_cons, bind_eq_ok, readName_eq_ok, ih]
      constructor
      · rintro ⟨name, rfl, names, rfl, same⟩
        cases same
        rfl
      · intro spelled
        obtain ⟨name, names, rfl, here, later⟩ := List.map_eq_cons_iff.mp spelled
        exact ⟨name, here, names, later, rfl⟩

theorem readProperty_eq_ok {text : String} {rest : List Char} {property : PropertyName} :
    readProperty text rest = .ok property ↔ property.text.toList = rest := by
  rw [readProperty]
  split
  next identifiers =>
    rw [Except.ok.injEq]
    constructor
    · rintro rfl
      exact String.toList_ofList
    · rintro rfl
      exact PropertyName.text_injective String.ofList_toList
  next invalid =>
    refine iff_of_false (by simp) ?_
    rintro rfl
    rw [String.ofList_toList] at invalid
    exact invalid property.identifiers

theorem takeWhile_ending {names : List Char} (unmarked : '.' ∉ names)
    (property : Option PropertyName) :
    (names ++ ending property).takeWhile (· != '.') = names ∧
      (names ++ ending property).dropWhile (· != '.') = ending property := by
  have other : ∀ letter ∈ names, (letter != '.') = true := by
    intro letter member
    exact bne_iff_ne.mpr fun same => unmarked (same ▸ member)
  rw [List.takeWhile_append_of_pos other, List.dropWhile_append_of_pos other]
  cases property <;> simp [ending]

theorem pieces_joined (first : Name) (others : List Name) :
    pieces '/' (joined (first :: others)).toList =
      (first.text.toList, others.map fun name => name.text.toList) := by
  have unmarked : ∀ piece ∈ (first :: others).map fun name => name.text.toList, '/' ∉ piece := by
    intro piece member
    obtain ⟨name, _, rfl⟩ := List.mem_map.mp member
    exact not_mem_of_isIdentifierText name.identifier (by decide)
  have split := List.splitOn_intercalate '/' unmarked (by simp)
  rw [← toList_joined, splitOn_eq_pieces, List.map_cons] at split
  obtain ⟨front, back⟩ := List.cons.inj split
  exact Prod.ext front back

theorem readNamed_eq_ok {anchor : Anchor} {located : anchor ≠ .empty} {text : String}
    {body : List Char} {path : Path} :
    readNamed anchor located text body = .ok path ↔
      path.anchor = anchor ∧ path.elements ≠ [] ∧
        body = (joined path.elements).toList ++ ending path.property := by
  rw [readNamed]
  constructor
  · intro read
    split at read
    next => cases read
    next =>
      simp only [bind_eq_ok, pure_bind, readName_eq_ok, mapM_readName_eq_ok] at read
      obtain ⟨first, firstRead, others, othersRead, read⟩ := read
      have names : (joined (first :: others)).toList = body.takeWhile (· != '.') := by
        rw [toList_joined, List.map_cons, firstRead, othersRead, ← splitOn_eq_pieces,
          List.intercalate_splitOn]
      have whole := List.takeWhile_append_dropWhile (p := (· != '.')) (l := body)
      have opened := List.head?_dropWhile_not (· != '.') body
      rw [← names] at whole
      cases tail : body.dropWhile (· != '.') with
      | nil =>
          simp only [tail] at read
          cases read
          simpa [tail, ending] using whole.symm
      | cons mark rest =>
          simp only [tail, map_eq_pure_bind, bind_eq_ok, readProperty_eq_ok] at read
          obtain ⟨_, ⟨property, spelled, ended⟩, read⟩ := read
          cases ended
          cases read
          have dot : mark = '.' := by simpa [tail] using opened
          rw [tail, dot, ← spelled] at whole
          exact ⟨rfl, by simp, whole.symm⟩
  · rintro ⟨rfl, named, rfl⟩
    obtain ⟨anchor, elements, property, wellFormed⟩ := path
    obtain ⟨first, others, rfl⟩ := List.exists_cons_of_ne_nil named
    obtain ⟨names, tail⟩ := takeWhile_ending (dot_not_mem_joined (first :: others)) property
    obtain ⟨letter, rest, spelled, _⟩ := joined_opens named
    have nonempty : (joined (first :: others)).toList.isEmpty = false := by simp [spelled]
    simp only [names, tail, nonempty, pieces_joined, Bool.false_eq_true, if_false, bind_eq_ok,
      pure_bind, readName_eq_ok, mapM_readName_eq_ok]
    refine ⟨first, rfl, others, rfl, ?_⟩
    cases property with
    | none => rfl
    | some property =>
        simp only [ending, map_eq_pure_bind, bind_eq_ok, readProperty_eq_ok]
        exact ⟨_, ⟨property, rfl, rfl⟩, rfl⟩

theorem render_of_parse {text : String} {path : Path} (read : parse text = .ok path) :
    path.render = text := by
  rw [← String.toList_inj, toList_render]
  rw [parse] at read
  split at read
  next empty =>
    cases read
    exact empty.symm
  next root =>
    cases read
    exact root.symm
  next here =>
    cases read
    exact here.symm
  next spelled =>
    obtain ⟨anchored, _, rfl⟩ := readNamed_eq_ok.mp read
    rw [anchored, spelled]
  next rest _ _ spelled =>
    simp only [bind_eq_ok, readProperty_eq_ok] at read
    obtain ⟨property, rfl, read⟩ := read
    cases read
    exact spelled.symm
  next =>
    obtain ⟨anchored, named, spelled⟩ := readNamed_eq_ok.mp read
    rw [anchored, spelled]
    simp [named]

theorem parse_eq_readNamed {text : String} {letter : Char} {rest : List Char}
    (spelled : text.toList = letter :: rest) (opens : opensIdentifier letter = true) :
    parse text = readNamed .relative (by decide) text (letter :: rest) := by
  have slash : letter ≠ '/' := opensIdentifier_ne opens (by decide)
  have dot : letter ≠ '.' := opensIdentifier_ne opens (by decide)
  rw [parse, spelled]
  split
  next empty => cases empty
  next root => exact absurd (List.cons.inj root).1 slash
  next here => exact absurd (List.cons.inj here).1 dot
  next absolute => exact absurd (List.cons.inj absolute).1 slash
  next property => exact absurd (List.cons.inj property).1 dot
  next => rfl

theorem parse_of_render {text : String} {path : Path} (written : path.render = text) :
    parse text = .ok path := by
  have spelled := toList_render path
  rw [written] at spelled
  obtain ⟨anchor, elements, property, wellFormed⟩ := path
  cases anchor with
  | empty =>
      obtain ⟨rfl, rfl⟩ := wellFormed.1 rfl
      rw [parse, spelled]
      rfl
  | absolute =>
      rw [parse, spelled]
      cases elements with
      | nil =>
          obtain rfl := wellFormed.2 rfl rfl
          rfl
      | cons first others =>
          obtain ⟨letter, rest, names, _⟩ := joined_opens (List.cons_ne_nil first others)
          rw [names, List.cons_append]
          exact readNamed_eq_ok.mpr ⟨rfl, by simp, by rw [names, List.cons_append]⟩
  | relative =>
      cases elements with
      | nil =>
          rw [parse, spelled]
          cases property with
          | none => rfl
          | some property =>
              obtain ⟨letter, rest, named⟩ := property.nonempty
              have read : readProperty text (letter :: rest) = .ok property :=
                readProperty_eq_ok.mpr named
              simp [joined, ending, named, read]
      | cons first others =>
          obtain ⟨letter, rest, names, opens⟩ := joined_opens (List.cons_ne_nil first others)
          rw [if_neg (by simp), names, List.cons_append] at spelled
          rw [parse_eq_readNamed spelled opens]
          exact readNamed_eq_ok.mpr ⟨rfl, by simp, by rw [names, List.cons_append]⟩

theorem parse_eq_ok_iff {text : String} {path : Path} :
    parse text = .ok path ↔ path.render = text :=
  ⟨render_of_parse, parse_of_render⟩

end SceneGraph.Path
