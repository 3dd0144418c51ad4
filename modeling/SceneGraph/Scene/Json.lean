import SceneGraph.Json.Reading
import SceneGraph.Json.Text
import SceneGraph.Scene

/-!
Definitions as JSON: an object whose `prims` are keyed by path. Reading goes from left to right and
stops at the first thing that is wrong; a path that cannot be parsed is told apart from all else.
-/

namespace SceneGraph

open Json (Reading)

abbrev Decoded (α : Type) := Except (Option Path.ParseError) α

def unreadable {α : Type} : Decoded α := .error none

namespace Path

def toJson (path : Path) : Json := .string path.render

def ofText (text : Option String) : Decoded Path :=
  match text with
  | some text => (parse text).mapError some
  | none => unreadable

def ofReading : Reading → Decoded Path
  | .string text => ofText text
  | _ => unreadable

def ofJson : Json → Decoded Path
  | .string text => ofText (some text)
  | _ => unreadable

end Path

structure PrimSpec.Partial where
  instanceable : Option Bool := none
  reference : Option (Option Path) := none

namespace PrimSpec

def fieldNames : List String := ["instanceable", "reference"]

def toJson (spec : PrimSpec) : Json :=
  .object <| ("instanceable", .bool spec.instanceable) ::
    match spec.reference with
    | some target => [("reference", target.toJson)]
    | none => []

/-- No field may be given twice, and other fields may be anything that is JSON. -/
def Partial.read (known : Partial) (member : Option String × Reading) : Decoded Partial :=
  match member with
  | (none, _) => unreadable
  | (some "instanceable", value) =>
    if known.instanceable.isSome then unreadable
    else match value with
      | .bool flag => .ok { known with instanceable := some flag }
      | _ => unreadable
  | (some "reference", value) =>
    if known.reference.isSome then unreadable
    else match value with
      | .null => .ok { known with reference := some none }
      | value => do
        let target ← Path.ofReading value
        return { known with reference := some (some target) }
  | (some _, value) => if value.isWhole then .ok known else unreadable

def ofReading (reading : Reading) : Decoded PrimSpec :=
  match reading.fields? fieldNames with
  | none => unreadable
  | some (members, complete) => do
    let known ← members.foldlM Partial.read {}
    if !complete then unreadable
    return {
      instanceable := known.instanceable.getD false
      reference := known.reference.getD none
    }

end PrimSpec

namespace SpecMap

def toJson (specs : SpecMap) : Json :=
  .object (specs.entries.map fun entry => (entry.1.render, entry.2.toJson))

/-- Of two prims with one path the later counts. -/
def ofReading : Reading → Decoded SpecMap
  | .object members closed => do
    let specs ← members.foldlM (fun (specs : SpecMap) member => do
      let path ← Path.ofText member.1
      let spec ← PrimSpec.ofReading member.2
      return specs.insert path spec) ∅
    if !closed then unreadable
    return specs
  | _ => unreadable

end SpecMap

namespace Definition

def fieldNames : List String := ["prims"]

def toJson (definition : Definition) : Json := .object [("prims", definition.prims.toJson)]

def readField (known : Option SpecMap) (member : Option String × Reading) :
    Decoded (Option SpecMap) :=
  match member with
  | (none, _) => unreadable
  | (some "prims", value) =>
    if known.isSome then unreadable else some <$> SpecMap.ofReading value
  | (some _, value) => if value.isWhole then .ok known else unreadable

def ofReading (reading : Reading) : Decoded Definition :=
  match reading.fields? fieldNames with
  | none => unreadable
  | some (members, complete) => do
    match ← members.foldlM readField none with
    | some prims => if complete then return ⟨prims⟩ else unreadable
    | none => unreadable

def ofText (text : String) : Decoded Definition :=
  match Reading.ofText text with
  | (reading, whole) => do
    let definition ← ofReading reading
    if whole then return definition else unreadable

end Definition

namespace Scene

def loadText (text : String) : Outcome Scene Unit :=
  match Definition.ofText text with
  | .error cause => .error (.unreadable cause) {}
  | .ok definition => load definition

def definitionText (scene : Scene) : String := scene.definition.toJson.render

end Scene

end SceneGraph
