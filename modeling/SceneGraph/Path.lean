import SceneGraph.Name

/-!
Paths of prims and properties in a scene: where a path starts, the prim names it goes through, and
the property it ends in. Paths are ordered so that a prim comes before everything below it.
-/

namespace SceneGraph

inductive Anchor
  | empty
  | absolute
  | relative
deriving DecidableEq, Repr

namespace Anchor

def rank : Anchor → Nat
  | empty => 0
  | absolute => 1
  | relative => 2

instance : Ord Anchor := ⟨compareOn rank⟩

instance : Std.TransOrd Anchor := inferInstanceAs (Std.TransCmp (compareOn rank))

theorem rank_injective (left right : Anchor) : left.rank = right.rank → left = right := by
  cases left <;> cases right <;> decide

instance : Std.LawfulEqOrd Anchor where
  eq_of_compare equal := rank_injective _ _ (Std.LawfulEqOrd.eq_of_compare equal)

end Anchor

/-- The empty path has no parts, and the scene root has no property. -/
def WellFormed (anchor : Anchor) (elements : List Name) (property : Option PropertyName) : Prop :=
  (anchor = .empty → elements = [] ∧ property = none) ∧
    (anchor = .absolute → elements = [] → property = none)

instance (anchor : Anchor) (elements : List Name) (property : Option PropertyName) :
    Decidable (WellFormed anchor elements property) :=
  inferInstanceAs (Decidable (_ ∧ _))

structure Path where
  anchor : Anchor
  elements : List Name
  property : Option PropertyName
  wellFormed : WellFormed anchor elements property
deriving DecidableEq

namespace Path

def ofParts? (anchor : Anchor) (elements : List Name) (property : Option PropertyName) :
    Option Path :=
  if wellFormed : WellFormed anchor elements property then
    some ⟨anchor, elements, property, wellFormed⟩
  else none

def empty : Path := ⟨.empty, [], none, by decide⟩

def root : Path := ⟨.absolute, [], none, by decide⟩

def here : Path := ⟨.relative, [], none, by decide⟩

instance : Inhabited Path := ⟨empty⟩

def order : Path → Path → Ordering :=
  compareLex (compareOn anchor) (compareLex (compareOn elements) (compareOn property))

instance : Ord Path := ⟨order⟩

instance : Std.TransOrd Path := inferInstanceAs (Std.TransCmp
  (compareLex (compareOn anchor) (compareLex (compareOn elements) (compareOn property))))

instance : Std.LawfulEqOrd Path where
  eq_of_compare {left right} equal := by
    obtain ⟨anchors, rest⟩ := Ordering.then_eq_eq.mp equal
    obtain ⟨elements, properties⟩ := Ordering.then_eq_eq.mp rest
    have sameAnchor := Std.LawfulEqOrd.eq_of_compare anchors
    have sameElements := Std.LawfulEqOrd.eq_of_compare elements
    have sameProperty := Std.LawfulEqOrd.eq_of_compare properties
    cases left; cases right; cases sameAnchor; cases sameElements; cases sameProperty; rfl

def isEmpty (path : Path) : Bool := path.anchor == .empty

def isRoot (path : Path) : Bool := path == root

def isHere (path : Path) : Bool := path == here

def isAbsolute (path : Path) : Bool := path.anchor == .absolute

/-- The empty path and the scene root are no prim paths, and neither is a property's path. -/
def isPrimPath (path : Path) : Bool :=
  path.property.isNone &&
    match path.anchor with
    | .empty => false
    | .absolute => !path.elements.isEmpty
    | .relative => true

def isPropertyPath (path : Path) : Bool := path.property.isSome

def elementCount (path : Path) : Nat := path.elements.length

def name (path : Path) : String :=
  match path.property with
  | some property => property.text
  | none =>
    match path.elements.getLast? with
    | some element => element.text
    | none => ""

def owner (path : Path) : Path where
  anchor := path.anchor
  elements := path.elements
  property := none
  wellFormed := ⟨fun nowhere => ⟨(path.wellFormed.1 nowhere).1, rfl⟩, fun _ _ => rfl⟩

/-- A property's parent is its prim. Above the scene root and above `here` is the empty path. -/
def parent (path : Path) : Path :=
  if path.isPropertyPath then path.owner
  else if nonempty : path.elements = [] then empty
  else {
    anchor := path.anchor
    elements := path.elements.dropLast
    property := none
    wellFormed := ⟨fun nowhere => absurd (path.wellFormed.1 nowhere).1 nonempty, fun _ _ => rfl⟩
  }

def depth (path : Path) : Nat := path.elementCount + if path.isPropertyPath then 1 else 0

def nearestAncestors : Nat → Path → List Path
  | 0, _ => []
  | count + 1, path => path.parent :: nearestAncestors count path.parent

/-- The paths above a path, nearest first, up to the scene root or `here`. -/
def ancestors (path : Path) : List Path := nearestAncestors path.depth path

end Path

end SceneGraph
