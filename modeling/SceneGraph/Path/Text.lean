import SceneGraph.Path

/-!
The written form of paths: names joined by slashes, after a leading slash if the path starts at the
scene root, then a dot and the property. The empty path is the empty text and `here` is a dot.
-/

namespace SceneGraph.Path

inductive ParseError
  | noNames (text : String)
  | invalidName (name text : String)
  | invalidProperty (name text : String)
deriving DecidableEq, Repr

def ParseError.message : ParseError → String
  | .noNames text => s!"path '{text}' has no prim name components"
  | .invalidName name text => s!"invalid prim name '{name}' in path '{text}'"
  | .invalidProperty name text => s!"invalid property name '{name}' in path '{text}'"

def joined (elements : List Name) : String := "/".intercalate (elements.map Name.text)

def render (path : Path) : String :=
  let names := match path.anchor with
    | .empty => ""
    | .absolute => "/" ++ joined path.elements
    | .relative =>
      if path.elements.isEmpty && path.property.isNone then "." else joined path.elements
  match path.property with
  | none => names
  | some property => names ++ "." ++ property.text

instance : ToString Path := ⟨render⟩

def readName (text : String) (piece : List Char) : Except ParseError Name :=
  let name := String.ofList piece
  if identifier : isIdentifier name = true then .ok ⟨name, identifier⟩
  else .error (.invalidName name text)

def readProperty (text : String) (rest : List Char) : Except ParseError PropertyName :=
  let name := String.ofList rest
  if identifiers : isPropertyName name = true then .ok ⟨name, identifiers⟩
  else .error (.invalidProperty name text)

def readNamed (anchor : Anchor) (located : anchor ≠ .empty) (text : String) (body : List Char) :
    Except ParseError Path := do
  let names := body.takeWhile (· != '.')
  if names.isEmpty then throw (.noNames text)
  let (first, others) := pieces '/' names
  let element ← readName text first
  let elements ← others.mapM (readName text)
  let property ← match body.dropWhile (· != '.') with
    | [] => pure none
    | _ :: rest => some <$> readProperty text rest
  return {
    anchor
    elements := element :: elements
    property
    wellFormed := ⟨fun nowhere => absurd nowhere located, fun _ none => nomatch none⟩
  }

/-- Reports the first fault of a text: its names from left to right, then its property. -/
def parse (text : String) : Except ParseError Path :=
  match text.toList with
  | [] => .ok empty
  | ['/'] => .ok root
  | ['.'] => .ok here
  | '/' :: body => readNamed .absolute (by decide) text body
  | '.' :: rest => do
    let property ← readProperty text rest
    return ⟨.relative, [], some property, by simp [WellFormed]⟩
  | body => readNamed .relative (by decide) text body

end SceneGraph.Path
