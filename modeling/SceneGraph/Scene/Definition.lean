import SceneGraph.Fault
import SceneGraph.OrderedMap

/-!
What is authored about a scene: for each prim whether it may be shared as an instance, and which
other prim it takes its children from.
-/

namespace SceneGraph

/-- Root prims whose names start this way are prototypes; nobody may author one. -/
def prototypeNameStart : String := "__Prototype_"

def Path.isReserved (path : Path) : Bool :=
  path.isAbsolute &&
    path.elements.head?.any fun name => prototypeNameStart.toList.isPrefixOf name.text.toList

def Path.isAbsolutePrimPath (path : Path) : Bool := path.isAbsolute && path.isPrimPath

/-- A prim is an instance only if it is instanceable and has a reference. -/
structure PrimSpec where
  instanceable : Bool := false
  reference : Option Path := none
deriving DecidableEq

abbrev SpecMap := OrderedMap Path PrimSpec

structure Definition where
  prims : SpecMap := ∅
deriving DecidableEq

namespace SpecMap

def author (specs : SpecMap) (path : Path) : Except Fault SpecMap :=
  if !path.isAbsolutePrimPath then .error (.specNotAtPrim path)
  else if path.isReserved then .error (.reservedName path)
  else .ok <| (path :: path.ancestors.filter Path.isPrimPath).foldl
    (fun specs prim => specs.insertIfAbsent prim {}) specs

def amend (specs : SpecMap) (path : Path) (change : PrimSpec → PrimSpec) :
    Except Fault SpecMap := do
  let specs ← specs.author path
  return specs.insert path (change ((specs.get? path).getD {}))

def ofDefinition (definition : Definition) : Except Fault SpecMap :=
  definition.prims.entries.foldlM (fun specs entry => specs.amend entry.1 fun _ => entry.2) ∅

end SpecMap

end SceneGraph
