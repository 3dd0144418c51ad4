import SceneGraph.Proofs.Json.RoundTrip
import SceneGraph.Proofs.Path.Text
import SceneGraph.Proofs.Scene.Loaded
import SceneGraph.Proofs.Scene.Snapshot
import SceneGraph.Proofs.Uninstancing.Effect
import SceneGraph.Scene.Json

/-!
Definitions as texts. The text of a definition reads back as that definition, and a scene on whose
prims nothing has been said loads from its text as it was.
-/

namespace SceneGraph

open Json (Reading)

theorem Path.ofText_render (path : Path) : ofText (some path.render) = .ok path := by
  rw [ofText, parse_of_render rfl]
  rfl

namespace PrimSpec

theorem read_instanceable (flag : Bool) :
    Partial.read {} (some "instanceable", .bool flag) = .ok { instanceable := some flag } := rfl

theorem read_reference (flag : Bool) (target : Path) :
    Partial.read { instanceable := some flag } (some "reference", .string (some target.render)) =
      .ok { instanceable := some flag, reference := some (some target) } := by
  change (do
    let target ← Path.ofText (some target.render)
    return (⟨some flag, some (some target)⟩ : Partial) : Decoded Partial) = _
  rw [Path.ofText_render]
  rfl

theorem toJson_plain (spec : PrimSpec) : spec.toJson.hasNumber = false := by
  obtain ⟨instanceable, _ | target⟩ := spec <;> rfl

theorem ofReading_toJson (spec : PrimSpec) : ofReading spec.toJson.reading = .ok spec := by
  obtain ⟨instanceable, _ | target⟩ := spec
  · rfl
  · change (do
      let known ← [(some "instanceable", Reading.bool instanceable),
        (some "reference", Reading.string (some target.render))].foldlM Partial.read {}
      return (⟨known.instanceable.getD false, known.reference.getD none⟩ : PrimSpec) :
        Decoded PrimSpec) = _
    rw [List.foldlM_cons, read_instanceable, ok_bind, List.foldlM_cons, read_reference]
    rfl

end PrimSpec

namespace SpecMap

theorem toJson_plain (specs : SpecMap) : specs.toJson.hasNumber = false := by
  rw [toJson, Json.hasNumber]
  induction specs.entries with
  | nil => rfl
  | cons entry rest ih =>
      rw [List.map_cons, Json.anyMemberNumber, entry.2.toJson_plain, ih]
      rfl

theorem foldlM_read (entries : List (Path × PrimSpec)) (specs : SpecMap) :
    (Json.memberReadings (entries.map fun entry => (entry.1.render, entry.2.toJson))).foldlM
      (fun (specs : SpecMap) member => (do
        let path ← Path.ofText member.1
        let spec ← PrimSpec.ofReading member.2
        return specs.insert path spec : Decoded SpecMap)) specs =
      .ok (entries.foldl (fun specs entry => specs.insert entry.1 entry.2) specs) := by
  induction entries generalizing specs with
  | nil => rfl
  | cons entry rest ih =>
      rw [List.map_cons, Json.memberReadings, List.foldlM_cons, List.foldl_cons]
      simp only [Path.ofText_render, PrimSpec.ofReading_toJson, ok_bind]
      exact ih _

theorem ofReading_toJson (specs : SpecMap) : ofReading specs.toJson.reading = .ok specs := by
  rw [toJson, Json.reading, ofReading, foldlM_read]
  exact congrArg Except.ok specs.ofList_entries

end SpecMap

namespace Definition

theorem toJson_plain (definition : Definition) : definition.toJson.hasNumber = false := by
  simp [toJson, Json.hasNumber, Json.anyMemberNumber, definition.prims.toJson_plain]

theorem ofReading_prims {prims : Reading} {specs : SpecMap}
    (read : SpecMap.ofReading prims = .ok specs) :
    ofReading (.object [(some "prims", prims)] true) = .ok ⟨specs⟩ := by
  have fields : (Reading.object [(some "prims", prims)] true).fields? fieldNames =
      some ([(some "prims", prims)], true) := rfl
  have field : readField none (some "prims", prims) = .ok (some specs) := by
    change some <$> SpecMap.ofReading prims = _
    rw [read]
    rfl
  rw [ofReading, fields]
  dsimp only
  rw [List.foldlM_cons, field]
  rfl

theorem ofReading_toJson (definition : Definition) :
    ofReading definition.toJson.reading = .ok definition :=
  ofReading_prims definition.prims.ofReading_toJson

theorem ofText_render (definition : Definition) :
    ofText definition.toJson.render = .ok definition := by
  rw [ofText, Json.ofText_render _ definition.toJson_plain]
  dsimp only
  rw [ofReading_toJson]
  rfl

end Definition

namespace Scene

/-- Scenes that calls lead to without an edit of a single prim ever being accepted, be it for its
own sake or while uninstancing. -/
inductive Untouched : Scene → Prop
  | empty : Untouched {}
  | load {definition} : (load definition).result = .ok () → Untouched (load definition).state
  | define {scene} (path : Path) : Untouched scene → Untouched (scene.define path).state
  | authorReference {scene} (path target : Path) : Untouched scene →
      Untouched (scene.authorReference path target).state
  | authorInstanceable {scene} (path : Path) (flag : Bool) : Untouched scene →
      Untouched (scene.authorInstanceable path flag).state
  | setInstanceable {scene fault} (prim : Prim) (flag : Bool) : Untouched scene →
      (scene.setInstanceable prim flag).result = .error fault →
      Untouched (scene.setInstanceable prim flag).state
  | uninstance {scene} (path : Path) (options : ForwardingOptions) : Untouched scene →
      (stage.uninstance path options scene).events.filter Event.isClearing = [] →
      Untouched (stage.uninstance path options scene).state

variable {scene : Scene}

theorem loadText_definitionText (scene : Scene) :
    loadText scene.definitionText = load scene.definition := by
  rw [loadText, definitionText, Definition.ofText_render]

theorem author_keeps (scene : Scene) (change : SpecMap → Except Fault SpecMap) :
    (scene.author change).state.layers.overrides = scene.layers.overrides ∧
      (scene.author change).state.instancingEdits = scene.instancingEdits := by
  rw [author]
  cases change scene.layers.specs with
  | error fault => exact ⟨rfl, rfl⟩
  | ok specs =>
      rcases scene.compose_cases { scene.layers with specs } with
        ⟨_, _, _, same⟩ | ⟨_, _, _, same⟩
      · dsimp only
        rw [same]
        exact ⟨rfl, rfl⟩
      · dsimp only
        rw [same]
        exact ⟨rfl, rfl⟩

theorem Untouched.reachable (untouched : Untouched scene) : Reachable scene := by
  induction untouched with
  | empty => exact .empty
  | load loads => exact .load loads
  | define path _ ih => exact ih.define path
  | authorReference path target _ ih => exact ih.authorReference path target
  | authorInstanceable path flag _ ih => exact ih.authorInstanceable path flag
  | setInstanceable prim flag _ _ ih => exact ih.setInstanceable prim flag
  | uninstance path options _ _ ih => exact ih.uninstance path options

theorem Untouched.unsaid (untouched : Untouched scene) :
    scene.layers.overrides = ∅ ∧ scene.instancingEdits = 0 := by
  have authored {first : Scene} (change : SpecMap → Except Fault SpecMap)
      (unsaid : first.layers.overrides = ∅ ∧ first.instancingEdits = 0) :
      (first.author change).state.layers.overrides = ∅ ∧
        (first.author change).state.instancingEdits = 0 := by
    obtain ⟨overrides, edits⟩ := first.author_keeps change
    rwa [overrides, edits]
  induction untouched with
  | empty => exact ⟨rfl, rfl⟩
  | load _ => exact authored _ ⟨rfl, rfl⟩
  | define path _ ih => exact authored _ ih
  | authorReference path target _ ih =>
      rw [Scene.authorReference]
      split
      · exact ih
      · exact authored _ ih
  | authorInstanceable path flag _ ih => exact authored _ ih
  | @setInstanceable first fault prim flag _ refused ih =>
      rcases first.setInstanceable_cases prim flag with ⟨_, _, same, _⟩ | ⟨_, _, accepted, _⟩
      · rwa [same]
      · cases accepted.symm.trans refused
  | @uninstance first path options untouched quiet ih =>
      obtain ⟨cleared, advances⟩ := untouched.reachable.sound.uninstance_advances path options
      have nothing : cleared = [] := by
        have reported := advances.events.symm.trans quiet
        simpa using reported
      have clears := advances.clears
      rw [nothing] at clears
      generalize (stage.uninstance path options first).state = last at clears ⊢
      cases clears
      exact ih

theorem Untouched.reload (untouched : Untouched scene) :
    (Scene.load scene.definition).result = .ok () ∧
      (Scene.load scene.definition).state = scene := by
  obtain ⟨overrides, edits⟩ := untouched.unsaid
  have same : scene.layers.asAuthored = scene.layers := by
    rw [Layers.asAuthored, ← overrides]
  obtain ⟨loads, state⟩ := untouched.reachable.sound.reload_same fun _ _ _ => by rw [same]
  refine ⟨loads, state.trans ?_⟩
  rw [same, ← edits]

theorem definition_of_load {definition : Definition} (loads : (load definition).result = .ok ()) :
    SpecMap.ofDefinition definition = .ok (load definition).state.definition.prims := by
  obtain ⟨specs, loaded, _⟩ := load_eq_ok.mp loads
  rw [loaded, Scene.definition, layers_of_load loaded loads]

/-- A definition that loads is kept: the scene's definition says at each of its prims what it says
there, and else only holds plain prims above those. And a scene on none of whose prims an edit was
ever accepted loads from the text of its definition as it is, prims and count of edits included. -/
theorem definition_round_trip :
    (∀ definition, (load definition).result = .ok () →
      (∀ path, (load definition).state.definition.prims.contains path = true ↔
        definition.prims.contains path = true ∨ path.isPrimPath = true ∧
          ∃ below, definition.prims.contains below = true ∧ path ∈ below.ancestors) ∧
      (∀ path spec, definition.prims.get? path = some spec →
        (load definition).state.definition.prims.get? path = some spec) ∧
      ∀ path spec, (load definition).state.definition.prims.get? path = some spec →
        definition.prims.contains path = false → spec = ⟨false, none⟩) ∧
    ∀ scene, Untouched scene →
      (loadText scene.definitionText).result = .ok () ∧
        (loadText scene.definitionText).state = scene ∧ scene.instancingEdits = 0 := by
  constructor
  · intro definition loads
    have completed := SpecMap.get?_of_ofDefinition (definition_of_load loads)
    refine ⟨fun path => ?_, fun path spec found => ?_, fun path spec found absent => ?_⟩
    · rw [OrderedMap.contains, completed, Option.isSome_or, Bool.or_eq_true, Definition.isAbove]
      simp [OrderedMap.contains, OrderedMap.mem_keys_iff]
    · rw [completed, found]
      rfl
    · have missing : definition.prims.get? path = none := by
        simpa [OrderedMap.contains] using absent
      rw [completed, missing, Option.none_or] at found
      split at found
      · exact (Option.some.inj found).symm
      · cases found
  · intro scene untouched
    rw [loadText_definitionText]
    obtain ⟨loads, same⟩ := untouched.reload
    exact ⟨loads, same, untouched.unsaid.2⟩

theorem definition_round_trip_hall :
    let row := Path.absolute [⟨"Row", by decide⟩]
    let desk := Path.absolute [⟨"Desk", by decide⟩]
    let missing : Prim := ⟨.absolute [⟨"Missing", by decide⟩], none⟩
    let first : Name := ⟨"first", by decide⟩
    let root : Name := ⟨"__Prototype_1", by decide⟩
    let nested := Path.absolute [⟨"__Prototype_2", by decide⟩]
    let scene := (load hall).state
    let tried := ((scene.define desk).state.setInstanceable missing true).state
    let reloaded := (loadText tried.definitionText).state
    (load hall).result = .ok () ∧ hall.prims.contains row = false ∧
      scene.definition.prims.get? row = some ⟨false, none⟩ ∧
      (loadText tried.definitionText).result = .ok () ∧ reloaded = tried ∧
      tried.instancingEdits = 0 ∧ reloaded.prims.keys.length = 10 ∧
      reloaded.prims.entries.filterMap (fun entry => entry.2.map (entry.1, ·)) =
        [(.absolute [⟨"Hall", by decide⟩], .absolute [root]),
          (.absolute [⟨"Row", by decide⟩, first], nested), (.absolute [root, first], nested)] := by
  intro row desk missing first root nested scene tried reloaded
  obtain ⟨kept, reload⟩ := definition_round_trip
  obtain ⟨_, _, plain⟩ := kept hall hall_loads
  have absent : hall.prims.contains row = false := by decide +kernel
  obtain ⟨spec, found⟩ : ∃ spec, scene.definition.prims.get? row = some spec :=
    OrderedMap.contains_iff.mp (by decide +kernel)
  obtain rfl : spec = ⟨false, none⟩ := plain row spec found absent
  have refused : ((scene.define desk).state.setInstanceable missing true).result =
      .error (.missingPrim missing.path) := by decide +kernel
  have untouched : Untouched tried :=
    .setInstanceable missing true (.define desk (.load hall_loads)) refused
  obtain ⟨loads, same, unedited⟩ := reload tried untouched
  refine ⟨hall_loads, absent, found, loads, same, unedited, ?_, ?_⟩
  · rw [show reloaded = tried from same]
    decide +kernel
  · rw [show reloaded = tried from same]
    decide +kernel

end Scene

end SceneGraph
