import SceneGraph.Json.Text
import SceneGraph.Report

/-!
The root layer of a scene, and what it says about which way is up for cameras.
-/

namespace SceneGraph

inductive Specifier
  | define
  | over
  | abstract
deriving DecidableEq, Repr

namespace Specifier

def spelling : Specifier → String
  | .define => "def"
  | .over => "over"
  | .abstract => "class"

def ofSpelling? : String → Option Specifier
  | "def" => some .define
  | "over" => some .over
  | "class" => some .abstract
  | _ => none

def toJson (specifier : Specifier) : Json := .string specifier.spelling

def ofJson? (json : Json) : Option Specifier := json.asVariant?.bind ofSpelling?

end Specifier

structure RootPrim where
  name : String
  specifier : Specifier := .define
  customData : Json.Dictionary := ∅

structure RootLayer where
  identifier : String
  realPath : String := ""
  defaultPrim : Option String := none
  rootPrims : List RootPrim := []

namespace RootPrim

def toJson (prim : RootPrim) : Json :=
  .object [("name", .string prim.name), ("specifier", prim.specifier.toJson),
    ("custom_data", .ofDictionary prim.customData)]

def ofJson? (json : Json) : Option RootPrim := do
  let record ← json.asRecord? ["name", "specifier", "custom_data"]
  let name ← Json.required record "name" Json.asString?
  let specifier ← Json.optional record "specifier" .define Specifier.ofJson?
  let customData ← Json.optional record "custom_data" ∅ Json.asDictionary?
  return { name, specifier, customData }

end RootPrim

structure UnclearUpAxis where
  layer : String
  prim : String
  value : Json

def UnclearUpAxis.report (unclear : UnclearUpAxis) : Report :=
  .noted .warn "found non-boolean 'zUp' customData"
    [("layer", .text unclear.layer), ("prim", .text unclear.prim),
      ("value", .text unclear.value.render)]

namespace RootLayer

def toJson (layer : RootLayer) : Json :=
  let defaultPrim := match layer.defaultPrim with
    | some name => [("default_prim", Json.string name)]
    | none => []
  .object <| [("identifier", .string layer.identifier), ("real_path", .string layer.realPath)] ++
    defaultPrim ++ [("root_prims", .array (layer.rootPrims.map RootPrim.toJson))]

def readDefaultPrim : Json → Option (Option String)
  | .null => some none
  | json => some <$> json.asString?

def readRootPrims (json : Json) : Option (List RootPrim) :=
  json.asArray?.bind fun items => items.mapM RootPrim.ofJson?

def ofJson? (json : Json) : Option RootLayer := do
  let record ← json.asRecord? ["identifier", "real_path", "default_prim", "root_prims"]
  let identifier ← Json.required record "identifier" Json.asString?
  let realPath ← Json.optional record "real_path" "" Json.asString?
  let defaultPrim ← Json.optional record "default_prim" none readDefaultPrim
  let rootPrims ← Json.optional record "root_prims" [] readRootPrims
  return { identifier, realPath, defaultPrim, rootPrims }

/-- The votes of the prims in turn: the first vote against settles it, else one for is enough. -/
def countUpVotes (layer : String) (voted : Bool) : List RootPrim → Bool × List UnclearUpAxis
  | [] => (voted, [])
  | prim :: rest =>
    if prim.specifier ≠ .define then countUpVotes layer voted rest
    else
      match prim.customData.get? "zUp" with
      | none => countUpVotes layer voted rest
      | some (.bool true) => countUpVotes layer true rest
      | some (.bool false) => (false, [])
      | some value =>
        let (result, unclear) := countUpVotes layer voted rest
        (result, ⟨layer, prim.name, value⟩ :: unclear)

def isZUp (layer : RootLayer) : Bool × List UnclearUpAxis :=
  countUpVotes layer.identifier false layer.rootPrims

end RootLayer

end SceneGraph
