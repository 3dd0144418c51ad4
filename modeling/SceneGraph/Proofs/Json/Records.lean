import Mathlib.Data.List.Perm.Basic
import SceneGraph.Forwarding.Options
import SceneGraph.Proofs.Json.Values
import SceneGraph.Proofs.Scene.Text
import SceneGraph.RootLayer
import SceneGraph.VariantSet

/-!
Records read back from the JSON they are written as. Members are looked up by name, so it makes no
difference whether they stand in the order in which they were written or in key order.
-/

namespace SceneGraph

theorem OrderedMap.find_eq_lookup {α : Type} (key : String) (entries : List (String × α)) :
    find key entries = entries.lookup key := by
  induction entries with
  | nil => rfl
  | cons entry rest ih =>
      obtain ⟨other, value⟩ := entry
      rw [find, List.lookup_cons, ih]
      by_cases same : key = other
      · rw [if_pos (Std.LawfulEqOrd.compare_eq_iff_eq.mpr same), beq_iff_eq.mpr same]
      · rw [if_neg (mt Std.LawfulEqOrd.eq_of_compare same), beq_false_of_ne same]

namespace Json

theorem sorted_ofDictionary {dictionary : Dictionary}
    (sorted : ∀ entry ∈ dictionary.entries, entry.2.sorted = entry.2) :
    (ofDictionary dictionary).sorted = ofDictionary dictionary := by
  have same : (dictionary.entries.map fun entry => (entry.1, entry.2.sorted)) =
      dictionary.entries :=
    (List.map_congr_left fun entry held => congrArg (Prod.mk _) (sorted entry held)).trans
      (List.map_id' _)
  rw [ofDictionary, sorted_object, same, OrderedMap.ofList_entries]
  rfl

namespace Reading

mutual

theorem sorted_of_value? : ∀ {reading : Reading} {json : Json},
    reading.value? = some json → json.sorted = json
  | .broken, _, read => by cases read
  | .null, _, read => by cases read; rfl
  | .bool _, _, read => by cases read; rfl
  | .number _, _, read => by
      obtain ⟨_, _, rfl⟩ := Option.map_eq_some_iff.mp read
      rfl
  | .string _, _, read => by
      obtain ⟨_, _, rfl⟩ := Option.map_eq_some_iff.mp read
      rfl
  | .array items closed, _, read => by
      cases closed with
      | false => cases read
      | true =>
        obtain ⟨values, items, rfl⟩ := Option.map_eq_some_iff.mp read
        rw [sorted_array]
        exact congrArg Json.array
          ((List.map_congr_left (sorted_of_values? items)).trans (List.map_id' values))
  | .object members closed, _, read => by
      cases closed with
      | false => cases read
      | true =>
        obtain ⟨_, members, rfl⟩ := Option.map_eq_some_iff.mp read
        exact sorted_ofDictionary fun entry held =>
          sorted_of_memberValues? members entry (OrderedMap.mem_of_mem_ofList held)

theorem sorted_of_values? : ∀ {items : List Reading} {values : List Json},
    values? items = some values → ∀ value ∈ values, value.sorted = value
  | [], _, read, _, listed => by cases read; cases listed
  | item :: rest, _, read, value, listed => by
      obtain ⟨first, item, read⟩ := Option.bind_eq_some_iff.mp read
      obtain ⟨others, rest, read⟩ := Option.bind_eq_some_iff.mp read
      cases read
      rcases List.mem_cons.mp listed with same | later
      · exact same ▸ sorted_of_value? item
      · exact sorted_of_values? rest value later

theorem sorted_of_memberValues? : ∀ {members : List (Option String × Reading)}
    {values : List (String × Json)}, memberValues? members = some values →
      ∀ entry ∈ values, entry.2.sorted = entry.2
  | [], _, read, _, listed => by cases read; cases listed
  | (_, value) :: rest, _, read, entry, listed => by
      obtain ⟨key, named, read⟩ := Option.bind_eq_some_iff.mp read
      obtain ⟨first, value, read⟩ := Option.bind_eq_some_iff.mp read
      obtain ⟨others, rest, read⟩ := Option.bind_eq_some_iff.mp read
      cases read
      rcases List.mem_cons.mp listed with same | later
      · exact same ▸ sorted_of_value? value
      · exact sorted_of_memberValues? rest entry later

end

end Reading

/-- Objects within it have their members in key order, as they have in all that is ever read. -/
def Dictionary.IsSorted (dictionary : Dictionary) : Prop :=
  (ofDictionary dictionary).sorted = ofDictionary dictionary

theorem Dictionary.isSorted_of_sorted {json : Json} {dictionary : Dictionary}
    (sorted : json.sorted = json) (held : json.asDictionary? = some dictionary) :
    dictionary.IsSorted := by
  cases json with
  | object members =>
    have same := (sorted_object members).symm.trans sorted
    rw [← same] at sorted held
    rw [asDictionary?_ofDictionary] at held
    cases held
    exact sorted
  | _ => cases held

theorem sorted_of_ofText? {text : String} {json : Json} (read : ofText? text = some json) :
    json.sorted = json := by
  rw [ofText?] at read
  split at read
  · exact Reading.sorted_of_value? read
  · cases read

section Members

variable {members : List (String × Json)} (distinct : (members.map Prod.fst).Nodup)

include distinct

theorem get?_ofMembers (field : String) :
    (OrderedMap.ofList members).get? field = members.lookup field := by
  rw [OrderedMap.get?_ofList (List.pairwise_map.mp distinct), OrderedMap.find_eq_lookup]

theorem required_ofMembers {α : Type} (field : String) (read : Json → Option α) :
    required (OrderedMap.ofList members) field read = (members.lookup field).bind read := by
  rw [required, get?_ofMembers distinct]

theorem optional_ofMembers {α : Type} (field : String) (fallback : α) (read : Json → Option α) :
    optional (OrderedMap.ofList members) field fallback read =
      (members.lookup field).elim (some fallback) read := by
  rw [optional, get?_ofMembers distinct]
  cases members.lookup field <;> rfl

end Members

theorem asRecord?_object (fields : List String) (members : List (String × Json)) :
    (object members).asRecord? fields = some (OrderedMap.ofList members) := rfl

theorem asRecord?_sorted (fields : List String) (members : List (String × Json)) :
    (object members).sorted.asRecord? fields =
      (object (members.map fun member => (member.1, member.2.sorted))).asRecord? fields := by
  rw [sorted_object]
  exact congrArg some (OrderedMap.ofList_entries _)

end Json

namespace ForwardingOptions

theorem ofJson?_toJson {options : ForwardingOptions}
    (fits : options.maxDepth < Json.Number.wordSize) : ofJson? options.toJson = some options := by
  have count : (Json.ofNat options.maxDepth).asCount? = some options.maxDepth := if_pos fits
  have distinct : ["max_depth"].Nodup := by decide
  rw [ofJson?, toJson, Json.asRecord?_object]
  dsimp only [Option.bind_eq_bind, Option.bind_some]
  rw [Json.optional_ofMembers]
  · change (Json.ofNat options.maxDepth).asCount?.bind _ = _
    rw [count]
    rfl
  · exact distinct

theorem ofJson?_sorted {options : ForwardingOptions}
    (fits : options.maxDepth < Json.Number.wordSize) :
    ofJson? options.toJson.sorted = some options :=
  ofJson?_toJson fits

end ForwardingOptions

namespace Plugin

theorem ofJson?_toJson (plugin : Plugin) : ofJson? plugin.toJson = some plugin := by
  have distinct : ["name", "metadata"].Nodup := by decide
  rw [ofJson?, toJson, Json.asRecord?_object]
  dsimp only [Option.bind_eq_bind, Option.bind_some]
  rw [Json.required_ofMembers, Json.optional_ofMembers]
  · change ((Json.ofDictionary plugin.metadata).asDictionary?.bind fun metadata =>
      some (⟨plugin.name, metadata⟩ : Plugin)) = _
    rw [Json.asDictionary?_ofDictionary]
    rfl
  all_goals exact distinct

theorem ofJson?_sorted {plugin : Plugin} (sorted : plugin.metadata.IsSorted) :
    ofJson? plugin.toJson.sorted = some plugin := by
  rw [← ofJson?_toJson, ofJson?, toJson, Json.asRecord?_sorted]
  change (Json.object [("name", .string plugin.name),
    ("metadata", (Json.ofDictionary plugin.metadata).sorted)]).asRecord? _ >>= _ = _
  rw [sorted]
  rfl

end Plugin

namespace Specifier

theorem ofJson?_toJson (specifier : Specifier) : ofJson? specifier.toJson = some specifier := by
  cases specifier <;> rfl

end Specifier

namespace RootPrim

theorem ofJson?_toJson (prim : RootPrim) : ofJson? prim.toJson = some prim := by
  have distinct : ["name", "specifier", "custom_data"].Nodup := by decide
  rw [ofJson?, toJson, Json.asRecord?_object]
  dsimp only [Option.bind_eq_bind, Option.bind_some]
  rw [Json.required_ofMembers, Json.optional_ofMembers, Json.optional_ofMembers]
  · change ((Specifier.ofJson? prim.specifier.toJson).bind fun specifier =>
      (Json.ofDictionary prim.customData).asDictionary?.bind fun customData =>
        some (⟨prim.name, specifier, customData⟩ : RootPrim)) = _
    rw [Specifier.ofJson?_toJson, Json.asDictionary?_ofDictionary]
    rfl
  all_goals exact distinct

theorem ofJson?_sorted {prim : RootPrim} (sorted : prim.customData.IsSorted) :
    ofJson? prim.toJson.sorted = some prim := by
  rw [← ofJson?_toJson, ofJson?, toJson, Json.asRecord?_sorted]
  change (Json.object [("name", .string prim.name), ("specifier", prim.specifier.toJson),
    ("custom_data", (Json.ofDictionary prim.customData).sorted)]).asRecord? _ >>= _ = _
  rw [sorted]
  rfl

theorem mapM_ofJson? {write : RootPrim → Json} {prims : List RootPrim}
    (reads : ∀ prim ∈ prims, ofJson? (write prim) = some prim) :
    (prims.map write).mapM ofJson? = some prims := by
  induction prims with
  | nil => rfl
  | cons prim rest ih =>
      obtain ⟨first, others⟩ := List.forall_mem_cons.mp reads
      rw [List.map_cons, List.mapM_cons, first, ih others]
      rfl

end RootPrim

namespace RootLayer

def members (layer : RootLayer) (rootPrims : List Json) : List (String × Json) :=
  ("identifier", .string layer.identifier) :: ("real_path", .string layer.realPath) ::
    match layer.defaultPrim with
    | some name => [("default_prim", .string name), ("root_prims", .array rootPrims)]
    | none => [("root_prims", .array rootPrims)]

theorem toJson_eq (layer : RootLayer) :
    layer.toJson = .object (layer.members (layer.rootPrims.map RootPrim.toJson)) := by
  obtain ⟨identifier, realPath, _ | name, rootPrims⟩ := layer <;> rfl

theorem map_sorted_members (layer : RootLayer) (rootPrims : List Json) :
    ((layer.members rootPrims).map fun member => (member.1, member.2.sorted)) =
      layer.members (rootPrims.map Json.sorted) := by
  rw [← Json.sortedItems_eq_map]
  obtain ⟨identifier, realPath, _ | name, _⟩ := layer <;> rfl

theorem ofJson?_members {layer : RootLayer} {rootPrims : List Json}
    (read : rootPrims.mapM RootPrim.ofJson? = some layer.rootPrims) :
    ofJson? (.object (layer.members rootPrims)) = some layer := by
  have withDefault : ["identifier", "real_path", "default_prim", "root_prims"].Nodup := by decide
  have withoutDefault : ["identifier", "real_path", "root_prims"].Nodup := by decide
  obtain ⟨identifier, realPath, defaultPrim, prims⟩ := layer
  rw [ofJson?, Json.asRecord?_object]
  dsimp only [Option.bind_eq_bind, Option.bind_some]
  rw [Json.required_ofMembers, Json.optional_ofMembers, Json.optional_ofMembers,
    Json.optional_ofMembers]
  · cases defaultPrim with
    | none =>
      change ((rootPrims.mapM RootPrim.ofJson?).bind fun prims =>
        some (⟨identifier, realPath, none, prims⟩ : RootLayer)) = _
      rw [read]
      rfl
    | some name =>
      change ((rootPrims.mapM RootPrim.ofJson?).bind fun prims =>
        some (⟨identifier, realPath, some name, prims⟩ : RootLayer)) = _
      rw [read]
      rfl
  all_goals
    cases defaultPrim
    · exact withoutDefault
    · exact withDefault

theorem ofJson?_toJson (layer : RootLayer) : ofJson? layer.toJson = some layer := by
  rw [toJson_eq]
  exact ofJson?_members (RootPrim.mapM_ofJson? fun prim _ => prim.ofJson?_toJson)

theorem ofJson?_sorted {layer : RootLayer}
    (sorted : ∀ prim ∈ layer.rootPrims, prim.customData.IsSorted) :
    ofJson? layer.toJson.sorted = some layer := by
  rw [toJson_eq, ofJson?, Json.asRecord?_sorted, map_sorted_members, List.map_map]
  exact ofJson?_members (RootPrim.mapM_ofJson? fun prim listed =>
    RootPrim.ofJson?_sorted (sorted prim listed))

end RootLayer

theorem PrimSpec.sorted_toJson (spec : PrimSpec) : spec.toJson.sorted = spec.toJson := by
  have ascending : ["instanceable", "reference"].Pairwise
      fun first second => compare first second = .lt := by decide
  obtain ⟨instanceable, _ | target⟩ := spec
  · rfl
  · let members := [("instanceable", Json.bool instanceable), ("reference", target.toJson)]
    have named : (members.map Prod.fst).Pairwise fun first second => compare first second = .lt :=
      ascending
    exact congrArg Json.ofDictionary
      (OrderedMap.ofList_entries ⟨members, List.pairwise_map.mp named⟩)

theorem Path.render_injective {first second : Path} (same : first.render = second.render) :
    first = second :=
  Except.ok.inj ((parse_of_render same).symm.trans (parse_of_render rfl))

namespace SpecMap

def member (entry : Path × PrimSpec) : String × Json := (entry.1.render, entry.2.toJson)

theorem toJson_eq (specs : SpecMap) : specs.toJson = .object (specs.entries.map member) := rfl

theorem map_sorted_member (entries : List (Path × PrimSpec)) :
    ((entries.map member).map fun written => (written.1, written.2.sorted)) =
      entries.map member := by
  rw [List.map_map]
  exact List.map_congr_left fun entry _ => congrArg (Prod.mk _) entry.2.sorted_toJson

theorem sorted_toJson (specs : SpecMap) : ∃ entries : List (Path × PrimSpec),
    entries.Perm specs.entries ∧ specs.toJson.sorted =
      .object (entries.map fun entry => (entry.1.render, entry.2.toJson)) := by
  have distinct : (specs.entries.map member).Pairwise fun left right => left.1 ≠ right.1 :=
    List.pairwise_map.mpr <| (OrderedMap.distinct_of_ascending specs.ascending).imp
      fun different same => different (Path.render_injective same)
  have permuted := OrderedMap.entries_ofList_perm distinct
  obtain ⟨entries, written, same⟩ :=
    (congrFun₂ (List.eq_map_comp_perm member) _ specs.entries).mpr permuted
  refine ⟨entries, same, ?_⟩
  rw [toJson_eq, Json.sorted_object, map_sorted_member]
  exact congrArg Json.object written

theorem ofReading_sorted (specs : SpecMap) :
    ofReading specs.toJson.sorted.reading = .ok specs := by
  obtain ⟨entries, permuted, sorted⟩ := specs.sorted_toJson
  have distinct := OrderedMap.distinct_of_ascending specs.ascending
  have same := OrderedMap.ofList_perm permuted.symm distinct
  rw [sorted, Json.reading, ofReading, foldlM_read]
  exact congrArg Except.ok (same.symm.trans specs.ofList_entries)

end SpecMap

theorem Definition.ofReading_sorted (definition : Definition) :
    ofReading definition.toJson.sorted.reading = .ok definition :=
  ofReading_prims definition.prims.ofReading_sorted

/-- What is written for a definition, for options, for a plugin and for a root layer is read as the
same again, with the members of objects in the order in which they were written and also when all of
them have been put in key order. Dictionaries that come from a text have that order within. -/
theorem records_read_back :
    (∀ definition : Definition,
      Definition.ofReading definition.toJson.reading = .ok definition ∧
        Definition.ofReading definition.toJson.sorted.reading = .ok definition) ∧
    (∀ options : ForwardingOptions, options.maxDepth < Json.Number.wordSize →
      ForwardingOptions.ofJson? options.toJson = some options ∧
        ForwardingOptions.ofJson? options.toJson.sorted = some options) ∧
    (∀ plugin : Plugin, Plugin.ofJson? plugin.toJson = some plugin ∧
      (plugin.metadata.IsSorted → Plugin.ofJson? plugin.toJson.sorted = some plugin)) ∧
    (∀ layer : RootLayer, RootLayer.ofJson? layer.toJson = some layer ∧
      ((∀ prim ∈ layer.rootPrims, prim.customData.IsSorted) →
        RootLayer.ofJson? layer.toJson.sorted = some layer)) ∧
    ∀ text json dictionary, Json.ofText? text = some json →
      json.asDictionary? = some dictionary → Json.Dictionary.IsSorted dictionary :=
  ⟨fun definition => ⟨definition.ofReading_toJson, definition.ofReading_sorted⟩,
    fun _ fits => ⟨ForwardingOptions.ofJson?_toJson fits, ForwardingOptions.ofJson?_sorted fits⟩,
    fun plugin => ⟨plugin.ofJson?_toJson, Plugin.ofJson?_sorted⟩,
    fun layer => ⟨layer.ofJson?_toJson, RootLayer.ofJson?_sorted⟩,
    fun _ _ _ read held =>
      Json.Dictionary.isSorted_of_sorted (Json.sorted_of_ofText? read) held⟩

theorem records_read_back_studio :
    let definition : Definition :=
      ⟨.ofList [(.absolute [⟨"Set", by decide⟩], ⟨true, some .root⟩), (.here, ⟨false, none⟩)]⟩
    let options : ForwardingOptions := { maxDepth := 3 }
    let lod : Json := .object [("max", .null), ("min", .string "low")]
    let plugin : Plugin := ⟨"kit", .ofList [("lod", lod), ("axis", .array [lod])]⟩
    let layer : RootLayer := ⟨"shot", "", some "set",
      [⟨"set", .abstract, .ofList [("zUp", .bool false)]⟩, ⟨"cam", .define, ∅⟩]⟩
    definition.prims.keys = [.absolute [⟨"Set", by decide⟩], .here] ∧ compare "." "/Set" = .lt ∧
      Definition.ofReading definition.toJson.sorted.reading = .ok definition ∧
      options.maxDepth < Json.Number.wordSize ∧
      ForwardingOptions.ofJson? options.toJson = some options ∧
      plugin.metadata.IsSorted ∧ Plugin.ofJson? plugin.toJson.sorted = some plugin ∧
      (∀ prim ∈ layer.rootPrims, prim.customData.IsSorted) ∧
      RootLayer.ofJson? layer.toJson.sorted = some layer ∧
      Json.ofText? (Json.object [("axis", .null)]).render = some (.object [("axis", .null)]) ∧
      Json.Dictionary.IsSorted (.ofList [("axis", .null)]) := by
  intro definition options lod plugin layer
  obtain ⟨definitions, limits, plugins, layers, texts⟩ := records_read_back
  have fits : options.maxDepth < Json.Number.wordSize := by decide
  have lodSorted : lod.sorted = lod :=
    congrArg Json.ofDictionary (OrderedMap.ofList_entries ⟨_, by decide⟩)
  have metadata : plugin.metadata.IsSorted := by
    refine Json.sorted_ofDictionary fun entry held => ?_
    rcases List.mem_cons.mp (OrderedMap.mem_of_mem_ofList held) with rfl | held
    · exact lodSorted
    · obtain rfl := List.mem_singleton.mp held
      exact (Json.sorted_array [lod]).trans (by rw [List.map_singleton, lodSorted])
  have customData : ∀ prim ∈ layer.rootPrims, prim.customData.IsSorted := by
    rintro prim (_ | ⟨_, _ | ⟨_, ⟨⟩⟩⟩)
    · rfl
    · rfl
  have read : Json.ofText? (Json.object [("axis", .null)]).render =
      some (.object [("axis", .null)]) := by
    rw [Json.ofText?, Json.ofText_render _ rfl]
    rfl
  exact ⟨by decide +kernel, by decide, (definitions definition).2, fits, (limits options fits).1,
    metadata, (plugins plugin).2 metadata, customData, (layers layer).2 customData, read,
    texts _ _ _ read rfl⟩

end SceneGraph
