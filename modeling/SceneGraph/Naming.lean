import SceneGraph.Name
import SceneGraph.RootLayer

/-!
Names that importers and exporters agree on: that of the model a root layer holds, those of primary
UV sets, and those of the attributes for alpha channels.
-/

namespace SceneGraph

def primaryUvSetName : String := "st"

def alphaAttributeName (color : String) : String := color ++ "_A"

namespace RootLayer

def fileName (path : String) : List Char :=
  let (first, others) := pieces '/' path.toList
  match ((first :: others).filter fun piece => piece ≠ [] ∧ piece ≠ ['.']).getLast? with
  | none => []
  | some piece => if piece = ['.', '.'] then [] else piece

def fileStem (layer : RootLayer) : String :=
  String.ofList ((fileName layer.realPath).takeWhile (· ≠ '.'))

/-- The default prim if there is one; else the file's stem if that is the name of a root prim; else
the first root prim that is not a class; else the stem anyway. -/
def modelName (layer : RootLayer) : String :=
  let stem := layer.fileStem
  let byPrims :=
    if stem ≠ "" ∧ layer.rootPrims.any fun prim => prim.name == stem then stem
    else
      match layer.rootPrims.find? fun prim => prim.specifier ≠ .abstract with
      | some prim => prim.name
      | none => stem
  match layer.defaultPrim with
  | some name => if name ≠ "" then name else byPrims
  | none => byPrims

end RootLayer

end SceneGraph
