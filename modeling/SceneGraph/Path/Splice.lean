import SceneGraph.Path.Text

/-!
Cutting a path off below one of its ancestors and putting paths together. Results that would be no
path, such as a property of the scene root, are refused.
-/

namespace SceneGraph.Path

/-- Whether `base` is this path or one of its ancestors. -/
def isWithin (path base : Path) : Bool :=
  if path.isEmpty || base.isEmpty || path.anchor != base.anchor then false
  else if base.isPropertyPath then path == base
  else base.elements.isPrefixOf path.elements

/-- The path in the place under `target` that this path has under `base`. -/
def rebase? (path base target : Path) : Option Path :=
  if !path.isWithin base || target.isEmpty then none
  else if base.isPropertyPath then some target
  else if target.isPropertyPath then
    if path.elementCount = base.elementCount ∧ path.property = none then some target else none
  else
    ofParts? target.anchor (target.elements ++ path.elements.drop base.elementCount) path.property

def relativeTo? (path base : Path) : Option Path := path.rebase? base here

def append? (path suffix : Path) : Option Path :=
  if suffix.anchor ≠ .relative ∨ path.isEmpty ∨ path.isPropertyPath then none
  else if suffix.isHere then some path
  else ofParts? path.anchor (path.elements ++ suffix.elements) suffix.property

inductive AppendError
  | invalidName (name : String)
  | noChild (name : String) (path : Path)
  | invalidProperty (name : String)
  | noProperty (name : String) (path : Path)
deriving DecidableEq

def AppendError.message : AppendError → String
  | .invalidName name => s!"invalid prim name '{name}'"
  | .noChild name path => s!"cannot append child '{name}' to '{path}'"
  | .invalidProperty name => s!"invalid property name '{name}'"
  | .noProperty name path => s!"cannot append property '{name}' to '{path}'"

def child (path : Path) (name : String) : Except AppendError Path :=
  if identifier : isIdentifier name = true then
    if refused : path.isEmpty ∨ path.isPropertyPath then .error (.noChild name path)
    else .ok {
      anchor := path.anchor
      elements := path.elements ++ [⟨name, identifier⟩]
      property := none
      wellFormed := ⟨fun nowhere => absurd (by simp [isEmpty, nowhere]) fun h => refused (.inl h),
        fun _ _ => rfl⟩
    }
  else .error (.invalidName name)

theorem wellFormed_of_isPrimPath {path : Path} (prim : path.isPrimPath)
    (property : Option PropertyName) : WellFormed path.anchor path.elements property := by
  constructor
  · intro nowhere
    simp [isPrimPath, nowhere] at prim
  · intro absolute bare
    simp [isPrimPath, absolute, bare] at prim

def withProperty (path : Path) (name : String) : Except AppendError Path :=
  if identifiers : isPropertyName name = true then
    if prim : path.isPrimPath then
      .ok ⟨path.anchor, path.elements, some ⟨name, identifiers⟩, wellFormed_of_isPrimPath prim _⟩
    else .error (.noProperty name path)
  else .error (.invalidProperty name)

end SceneGraph.Path
