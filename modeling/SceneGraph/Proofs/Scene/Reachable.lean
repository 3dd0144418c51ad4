import SceneGraph.Proofs.Forwarding.Settled
import SceneGraph.Proofs.Scene.Authored
import SceneGraph.Proofs.Scene.Shape
import SceneGraph.Scene

/-!
The scenes that calls lead to, and what is true of all of them. Each call either composes the scene
anew or leaves it as it was.
-/

namespace SceneGraph

def Layers.override (layers : Layers) (path : Path) (flag : Bool) : Layers :=
  { layers with overrides := layers.overrides.insert path flag }

namespace Scene

/-- An empty scene or one from a definition, after any calls, failed ones included. -/
inductive Reachable : Scene → Prop
  | empty : Reachable {}
  | load {definition} : (load definition).result = .ok () → Reachable (load definition).state
  | define {scene} (path : Path) : Reachable scene → Reachable (scene.define path).state
  | authorReference {scene} (path target : Path) : Reachable scene →
      Reachable (scene.authorReference path target).state
  | authorInstanceable {scene} (path : Path) (flag : Bool) : Reachable scene →
      Reachable (scene.authorInstanceable path flag).state
  | setInstanceable {scene} (prim : Prim) (flag : Bool) : Reachable scene →
      Reachable (scene.setInstanceable prim flag).state
  | uninstance {scene} (path : Path) (options : ForwardingOptions) : Reachable scene →
      Reachable (stage.uninstance path options scene).state

variable {scene : Scene}

/-- The scene is what is composed from its layers, whose specs are a tree. -/
structure Sound (scene : Scene) : Prop where
  specs : scene.layers.specs.Tree
  overrides : ∀ path, scene.layers.overrides.contains path = true →
    path.isAbsolutePrimPath = true ∧ path.isReserved = false
  composed : ∃ composition, scene.layers.composition = .ok composition ∧
    composition.prims = scene.prims

theorem sound_empty : Sound {} := by
  constructor
  · exact SpecMap.tree_empty
  · intro path impossible
    cases impossible
  · exact ⟨{}, rfl, rfl⟩

theorem Sound.rules (sound : scene.Sound) :
    ∃ prototypes, scene.layers.FollowsRules ⟨scene.prims, prototypes⟩ := by
  obtain ⟨composition, composed, same⟩ := sound.composed
  refine ⟨composition.prototypes, ?_⟩
  rw [← same]
  exact Layers.followsRules_of_composition sound.specs.admissible composed

theorem compose_cases (scene : Scene) (layers : Layers) :
    (∃ fault, layers.composition = .error fault ∧ (scene.compose layers).result = .error fault ∧
      (scene.compose layers).state = scene) ∨
    ∃ composition, layers.composition = .ok composition ∧ (scene.compose layers).result = .ok () ∧
      (scene.compose layers).state = { scene with layers, prims := composition.prims } := by
  rw [compose, recompose]
  cases layers.composition with
  | error fault => exact Or.inl ⟨fault, rfl, rfl, rfl⟩
  | ok composition => exact Or.inr ⟨composition, rfl, rfl, rfl⟩

theorem compose_eq_ok {layers : Layers} : (scene.compose layers).result = .ok () ↔
    ∃ composition, layers.composition = .ok composition := by
  rcases scene.compose_cases layers with
    ⟨fault, refused, failed, _⟩ | ⟨composition, composed, succeeded, _⟩
  · simp [refused, failed]
  · simp [composed, succeeded]

theorem compose_eq_error {layers : Layers} {fault : Fault} :
    (scene.compose layers).result = .error fault ↔ layers.composition = .error fault := by
  rcases scene.compose_cases layers with
    ⟨cause, refused, failed, _⟩ | ⟨composition, composed, succeeded, _⟩
  · rw [refused, failed]
    simp
  · simp [composed, succeeded]

theorem state_of_compose {layers : Layers} (composed : (scene.compose layers).result = .ok ()) :
    (scene.compose layers).state.layers = layers := by
  rcases scene.compose_cases layers with ⟨_, _, failed, _⟩ | ⟨_, _, _, same⟩
  · rw [failed] at composed
    cases composed
  · rw [same]

theorem author_of_ok {change : SpecMap → Except Fault SpecMap} {specs : SpecMap}
    (changed : change scene.layers.specs = .ok specs) :
    scene.author change = scene.compose { scene.layers with specs } := by
  rw [author, changed]

theorem load_of_ofDefinition {definition : Definition} {specs : SpecMap}
    (loaded : SpecMap.ofDefinition definition = .ok specs) :
    load definition = ({} : Scene).compose ⟨specs, ∅⟩ :=
  author_of_ok loaded

theorem load_eq_ok {definition : Definition} : (load definition).result = .ok () ↔
    ∃ specs, SpecMap.ofDefinition definition = .ok specs ∧
      ∃ composition, (⟨specs, ∅⟩ : Layers).composition = .ok composition := by
  cases loaded : SpecMap.ofDefinition definition with
  | error fault =>
      rw [load, author, loaded]
      simp
  | ok specs =>
      rw [load_of_ofDefinition loaded, compose_eq_ok]
      simp

theorem layers_of_load {definition : Definition} {specs : SpecMap}
    (loaded : SpecMap.ofDefinition definition = .ok specs)
    (loads : (load definition).result = .ok ()) : (load definition).state.layers = ⟨specs, ∅⟩ := by
  rw [load_of_ofDefinition loaded] at loads ⊢
  exact state_of_compose loads

theorem Sound.compose (sound : scene.Sound) {layers : Layers} (specs : layers.specs.Tree)
    (overrides : ∀ path, layers.overrides.contains path = true →
      path.isAbsolutePrimPath = true ∧ path.isReserved = false) :
    (scene.compose layers).state.Sound := by
  rcases scene.compose_cases layers with ⟨_, _, _, same⟩ | ⟨composition, composed, _, same⟩
  · rwa [same]
  · rw [same]
    exact ⟨specs, overrides, composition, composed, rfl⟩

theorem Sound.author (sound : scene.Sound) {change : SpecMap → Except Fault SpecMap}
    (grows : ∀ specs later : SpecMap, specs.Tree → change specs = .ok later → later.Tree) :
    (scene.author change).state.Sound := by
  rw [Scene.author]
  cases changed : change scene.layers.specs with
  | error fault => exact sound
  | ok specs => exact sound.compose (grows _ specs sound.specs changed) sound.overrides

theorem Sound.absolute (sound : scene.Sound) {place : Path}
    (present : scene.prims.contains place = true) :
    ∃ names, names ≠ [] ∧ place = .absolute names := by
  obtain ⟨prototypes, rules⟩ := sound.rules
  exact rules.absolute sound.specs.admissible present

theorem Sound.on_the_way (sound : scene.Sound) {shorter names : List Name} (named : shorter ≠ [])
    (present : scene.prims.contains (.absolute names) = true) (within : shorter <+: names)
    (different : shorter ≠ names) : scene.prims.get? (.absolute shorter) = some none := by
  obtain ⟨prototypes, rules⟩ := sound.rules
  exact rules.on_the_way sound.specs.admissible named present within different

theorem Sound.contains_of_prefix (sound : scene.Sound) {shorter names : List Name}
    (named : shorter ≠ []) (present : scene.prims.contains (.absolute names) = true)
    (within : shorter <+: names) : scene.prims.contains (.absolute shorter) = true := by
  by_cases here : shorter = names
  · rwa [here]
  · exact OrderedMap.contains_iff.mpr ⟨none, sound.on_the_way named present within here⟩

theorem Sound.plain_above (sound : scene.Sound) {place above : Path}
    (present : scene.prims.contains place = true) (higher : above ∈ place.ancestors)
    (prim : above.isPrimPath = true) : scene.prims.get? above = some none := by
  obtain ⟨names, _, rfl⟩ := sound.absolute present
  obtain ⟨shorter, within, different, rfl⟩ := Path.mem_ancestors_absolute.mp higher
  exact sound.on_the_way (Path.isPrimPath_absolute.mp prim) present within different

theorem setInstanceable_cases (scene : Scene) (prim : Prim) (flag : Bool) :
    (∃ fault, (scene.setInstanceable prim flag).result = .error fault ∧
      (scene.setInstanceable prim flag).state = scene ∧
      (scene.prims.contains prim.path = false ∨ prim.path.isReserved = true ∨
        (scene.layers.override prim.path flag).composition = .error fault)) ∨
    ∃ composition count, (scene.setInstanceable prim flag).result = .ok () ∧
      (scene.setInstanceable prim flag).state =
        ⟨scene.layers.override prim.path flag, composition.prims, count⟩ ∧
      scene.prims.contains prim.path = true ∧ prim.path.isReserved = false ∧
      (scene.layers.override prim.path flag).composition = .ok composition := by
  rw [setInstanceable]
  split
  next missing => exact Or.inl ⟨_, rfl, rfl, Or.inl (by simpa using missing)⟩
  next present =>
    split
    next reserved => exact Or.inl ⟨_, rfl, rfl, Or.inr (Or.inl reserved)⟩
    next unreserved =>
      have edited : scene.compose { scene.layers with
          overrides := scene.layers.overrides.insert prim.path flag } =
            scene.compose (scene.layers.override prim.path flag) := rfl
      have checked : scene.prims.contains prim.path = true ∧ prim.path.isReserved = false :=
        ⟨by simpa using present, by simpa using unreserved⟩
      have composes := scene.compose_cases (scene.layers.override prim.path flag)
      rw [edited]
      generalize scene.compose (scene.layers.override prim.path flag) = outcome at composes ⊢
      obtain ⟨result, state, events⟩ := outcome
      rcases composes with ⟨fault, refused, failed, same⟩ | ⟨composition, composed, succeeded, same⟩
      · obtain rfl : state = scene := same
        rw [if_pos rfl]
        exact Or.inl ⟨fault, failed, rfl, Or.inr (Or.inr refused)⟩
      · obtain rfl : state = _ := same
        dsimp only
        split <;> exact Or.inr ⟨composition, _, succeeded, rfl, checked.1, checked.2, composed⟩

theorem layers_of_setInstanceable {prim : Prim} {flag : Bool}
    (succeeded : (scene.setInstanceable prim flag).result = .ok ()) :
    (scene.setInstanceable prim flag).state.layers = scene.layers.override prim.path flag := by
  rcases scene.setInstanceable_cases prim flag with ⟨_, failed, _⟩ | ⟨_, _, _, same, _⟩
  · rw [failed] at succeeded
    cases succeeded
  · rw [same]

theorem unreserved_of_setInstanceable {prim : Prim} {flag : Bool}
    (succeeded : (scene.setInstanceable prim flag).result = .ok ()) :
    prim.path.isReserved = false := by
  rcases scene.setInstanceable_cases prim flag with ⟨_, failed, _⟩ | ⟨_, _, _, _, _, unreserved, _⟩
  · rw [failed] at succeeded
    cases succeeded
  · exact unreserved

theorem Sound.setInstanceable (sound : scene.Sound) (prim : Prim) (flag : Bool) :
    (scene.setInstanceable prim flag).state.Sound := by
  rcases scene.setInstanceable_cases prim flag with
    ⟨_, _, same, _⟩ | ⟨composition, count, _, same, present, unreserved, composed⟩
  · rwa [same]
  · rw [same]
    refine ⟨sound.specs, ?_, composition, composed, rfl⟩
    intro path said
    rcases OrderedMap.contains_insert.mp said with rfl | before
    · exact ⟨Path.isAbsolutePrimPath_iff.mpr (sound.absolute present), unreserved⟩
    · exact sound.overrides path before

theorem Reachable.sound (reachable : Reachable scene) : scene.Sound := by
  induction reachable with
  | empty => exact sound_empty
  | load _ => exact sound_empty.author fun _ _ _ loaded => SpecMap.tree_ofDefinition loaded
  | define path _ ih => exact ih.author fun _ _ tree authored => tree.author authored
  | authorReference path target _ ih =>
      rw [Scene.authorReference]
      split
      · exact ih
      · exact ih.author fun _ _ tree amended => tree.amend amended
  | authorInstanceable path flag _ ih => exact ih.author fun _ _ tree amended => tree.amend amended
  | setInstanceable prim flag _ ih => exact ih.setInstanceable prim flag
  | uninstance path options _ ih =>
      exact EditableStage.uninstance_keeps stage_settled
        (fun prim _ sound => sound.setInstanceable prim false) path options _ ih

/-- The shape of a scene: specs are authored with the prims above them, prims are composed with the
prims above them and not below an instance, and an instance's prototype is a plain root prim. -/
structure Shaped (scene : Scene) : Prop where
  specs : ∀ path, scene.layers.specs.contains path = true →
    path.isAbsolutePrimPath = true ∧ path.isReserved = false
  specsAbove : ∀ path, scene.layers.specs.contains path = true →
    ∀ above ∈ path.ancestors, above.isPrimPath = true → scene.layers.specs.contains above = true
  overrides : ∀ path, scene.layers.overrides.contains path = true →
    path.isAbsolutePrimPath = true ∧ path.isReserved = false
  prims : ∀ place, scene.prims.contains place = true → place.isAbsolutePrimPath = true
  primsAbove : ∀ place, scene.prims.contains place = true →
    ∀ above ∈ place.ancestors, above.isPrimPath = true → scene.prims.get? above = some none
  instances : ∀ place root, scene.prims.get? place = some (some root) →
    root.isAbsolutePrimPath = true ∧ root.elementCount = 1 ∧ root.isReserved = true ∧
      scene.prims.get? root = some none

theorem reachable_shaped (reachable : Reachable scene) : scene.Shaped := by
  have sound := reachable.sound
  obtain ⟨prototypes, rules⟩ := sound.rules
  refine ⟨sound.specs.admissible, sound.specs.closed, sound.overrides, ?_, ?_, ?_⟩
  · intro place present
    exact Path.isAbsolutePrimPath_iff.mpr (sound.absolute present)
  · intro place present above higher prim
    exact sound.plain_above present higher prim
  · intro place root found
    obtain ⟨target, known⟩ := rules.instance_root found
    obtain ⟨number, rooted⟩ := rules.roots target root known
    have reserved := rooted.reserved
    obtain ⟨name, _, rfl⟩ := rooted
    exact ⟨Path.isAbsolutePrimPath_iff.mpr ⟨[name], by simp, rfl⟩, rfl, reserved,
      rules.prim_root known⟩

/-- A hall shares a row, and in it the row's first seat shares a seat. -/
def hall : Definition :=
  let seat : Name := ⟨"Seat", by decide⟩
  let leg : Name := ⟨"leg", by decide⟩
  let row : Name := ⟨"Row", by decide⟩
  let first : Name := ⟨"first", by decide⟩
  let hall : Name := ⟨"Hall", by decide⟩
  ⟨.ofList [(.absolute [seat, leg], {}),
    (.absolute [row, first], { instanceable := true, reference := some (.absolute [seat]) }),
    (.absolute [hall], { instanceable := true, reference := some (.absolute [row]) })]⟩

theorem hall_loads : (load hall).result = .ok () := by decide +kernel

theorem reachable_shaped_hall :
    let hallOnly : Prim := ⟨.absolute [⟨"Hall", by decide⟩], none⟩
    let cleared := ((load hall).state.setInstanceable hallOnly false).state
    Reachable cleared ∧ cleared.instancingEdits = 1 ∧ cleared.prims.size = 8 ∧ cleared.Shaped := by
  intro hallOnly cleared
  have reachable : Reachable cleared := (Reachable.load hall_loads).setInstanceable hallOnly false
  exact ⟨reachable, by decide +kernel, by decide +kernel, reachable_shaped reachable⟩

def houseWithDoor : Definition :=
  let kit : Name := ⟨"Kit", by decide⟩
  let door : Name := ⟨"door", by decide⟩
  let handle : Name := ⟨"handle", by decide⟩
  let house : Name := ⟨"House", by decide⟩
  ⟨.ofList [(.absolute [kit, door, handle], {}),
    (.absolute [house], { instanceable := true, reference := some (.absolute [kit]) }),
    (.absolute [house, door], {})]⟩

/-- A house that shares a kit with a door and a handle on it, and a shed that takes its door from
the house. -/
def furnished : Definition :=
  let kit : Name := ⟨"Kit", by decide⟩
  let door : Name := ⟨"door", by decide⟩
  let handle : Name := ⟨"handle", by decide⟩
  let house : Name := ⟨"House", by decide⟩
  let shed : Name := ⟨"Shed", by decide⟩
  ⟨.ofList [(.absolute [kit, door, handle], {}),
    (.absolute [house], { instanceable := true, reference := some (.absolute [kit]) }),
    (.absolute [shed], { reference := some (.absolute [house]) })]⟩

end Scene

end SceneGraph
