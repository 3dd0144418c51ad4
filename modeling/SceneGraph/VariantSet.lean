import SceneGraph.Json
import SceneGraph.Report

/-!
Variant sets that plugins register, with the policy for exporting their selection. A declaration
that is not as it should be is reported and left out; it never hides another one.
-/

namespace SceneGraph

inductive SelectionPolicy
  | never
  | ifAuthored
  | always
deriving DecidableEq, Repr

namespace SelectionPolicy

def rank : SelectionPolicy → Nat
  | never => 0
  | ifAuthored => 1
  | always => 2

instance : Ord SelectionPolicy := ⟨compareOn rank⟩

instance : Std.TransOrd SelectionPolicy := inferInstanceAs (Std.TransCmp (compareOn rank))

theorem rank_injective (left right : SelectionPolicy) : left.rank = right.rank → left = right := by
  cases left <;> cases right <;> decide

instance : Std.LawfulEqOrd SelectionPolicy where
  eq_of_compare equal := rank_injective _ _ (Std.LawfulEqOrd.eq_of_compare equal)

def spelling : SelectionPolicy → String
  | never => "never"
  | ifAuthored => "ifAuthored"
  | always => "always"

def ofSpelling? : String → Option SelectionPolicy
  | "never" => some never
  | "ifAuthored" => some ifAuthored
  | "always" => some always
  | _ => none

def toJson (policy : SelectionPolicy) : Json := .string policy.spelling

def ofJson? (json : Json) : Option SelectionPolicy := json.asVariant?.bind ofSpelling?

end SelectionPolicy

structure VariantSet where
  name : String
  policy : SelectionPolicy
deriving DecidableEq, Repr

namespace VariantSet

def order : VariantSet → VariantSet → Ordering := compareLex (compareOn name) (compareOn policy)

instance : Ord VariantSet := ⟨order⟩

instance : Std.TransOrd VariantSet :=
  inferInstanceAs (Std.TransCmp (compareLex (compareOn name) (compareOn policy)))

instance : Std.LawfulEqOrd VariantSet where
  eq_of_compare {left right} equal := by
    obtain ⟨names, policies⟩ := Ordering.then_eq_eq.mp equal
    have sameName := Std.LawfulEqOrd.eq_of_compare names
    have samePolicy := Std.LawfulEqOrd.eq_of_compare policies
    cases left; cases right; cases sameName; cases samePolicy; rfl

end VariantSet

/-- Variant sets by name, and those of one name by policy. -/
abbrev VariantSets := OrderedMap VariantSet Unit

def VariantSets.ofList (sets : List VariantSet) : VariantSets :=
  OrderedMap.ofList (sets.map fun set => (set, ()))

structure Plugin where
  name : String
  metadata : Json.Dictionary := ∅

inductive DeclarationFault
  | pipelineNotDictionary (plugin : String)
  | setsNotDictionary (plugin : String)
  | entryNotDictionary (plugin variantSet : String)
  | noPolicy (plugin variantSet : String)
deriving DecidableEq, Repr

def DeclarationFault.report : DeclarationFault → Report
  | .pipelineNotDictionary plugin =>
    .noted .error "UsdUtilsPipeline was not a dictionary" [("plugin", .text plugin)]
  | .setsNotDictionary plugin =>
    .noted .error "UsdUtilsPipeline.RegisteredVariantSets was not a dictionary"
      [("plugin", .text plugin)]
  | .entryNotDictionary plugin variantSet =>
    .noted .error "registered variant set entry was not a dictionary"
      [("plugin", .text plugin), ("variant_set", .text variantSet)]
  | .noPolicy plugin variantSet =>
    .noted .error "registered variant set has no valid selectionExportPolicy"
      [("plugin", .text plugin), ("variant_set", .text variantSet)]

namespace Plugin

def toJson (plugin : Plugin) : Json :=
  .object [("name", .string plugin.name), ("metadata", .ofDictionary plugin.metadata)]

def ofJson? (json : Json) : Option Plugin := do
  let record ← json.asRecord? ["name", "metadata"]
  let name ← Json.required record "name" Json.asString?
  let metadata ← Json.optional record "metadata" ∅ Json.asDictionary?
  return { name, metadata }

def readEntry (plugin : Plugin) (entry : String × Json) : Except DeclarationFault VariantSet :=
  match entry.2.asDictionary? with
  | none => .error (.entryNotDictionary plugin.name entry.1)
  | some info =>
    match ((info.get? "selectionExportPolicy").bind Json.asString?).bind
        SelectionPolicy.ofSpelling? with
    | none => .error (.noPolicy plugin.name entry.1)
    | some policy => .ok ⟨entry.1, policy⟩

def declarations (plugin : Plugin) : List (Except DeclarationFault VariantSet) :=
  match plugin.metadata.get? "UsdUtilsPipeline" with
  | none => []
  | some pipeline =>
    match pipeline.asDictionary? with
    | none => [.error (.pipelineNotDictionary plugin.name)]
    | some pipeline =>
      match pipeline.get? "RegisteredVariantSets" with
      | none => []
      | some sets =>
        match sets.asDictionary? with
        | none => [.error (.setsNotDictionary plugin.name)]
        | some sets => sets.entries.map plugin.readEntry

end Plugin

structure Collection where
  sets : VariantSets
  faults : List DeclarationFault

def collectVariantSets (plugins : List Plugin) : Collection :=
  let declarations := plugins.flatMap Plugin.declarations
  { sets := VariantSets.ofList (declarations.filterMap Except.toOption)
    faults := declarations.filterMap fun
      | .error fault => some fault
      | .ok _ => none }

end SceneGraph
