import SceneGraph.Proofs.Scene.Locality
import SceneGraph.Proofs.Uninstancing.Effect

/-!
Clearing an instance and making it one again. Composing only asks whether a prim that it comes to is
an instance, not what made it one, so that the second edit takes back all that the first did to the
prims.
-/

namespace SceneGraph

namespace Layers

variable {layers : Layers} {position : Position} {place target : Path}

theorem sharedAt_override_of_crossed (crossed : position.crossed = true) (place : Path)
    (flag : Bool) : (layers.override place flag).sharedAt position = layers.sharedAt position := by
  rw [sharedAt, sharedAt, if_pos crossed, if_pos crossed]
  rfl

theorem sharedAt_override_true {names : List Name} {source : Path}
    (references : layers.References source target) :
    (layers.override (.absolute names) true).sharedAt ⟨names, source, false⟩ = some target := by
  obtain ⟨spec, found, reference⟩ := references
  simp [sharedAt, override, found, reference, OrderedMap.get?_insert_self]

theorem agree_override_true {names : List Name} {source : Path} (flag : Bool)
    (walked : layers.walk (.absolute names) = some ⟨names, source, false⟩)
    (shared : layers.sharedAt ⟨names, source, false⟩ = some target) :
    AgreeWhereReached layers
      ((layers.override (.absolute names) flag).override (.absolute names) true) := by
  refine ⟨rfl, fun _ _ => rfl, fun position reached => ?_⟩
  cases crossed : position.crossed with
  | true => rw [sharedAt_override_of_crossed crossed, sharedAt_override_of_crossed crossed]
  | false =>
      by_cases here : position.names = names
      · -- A walk that has crossed no instance stands at the prim composed at its names.
        obtain ⟨path, found⟩ := walked_iff.mp reached
        rw [eq_absolute_of_walk found, here, walked] at found
        cases found
        have references : (layers.override (.absolute names) flag).References source target :=
          sharedAt_references shared
        rw [sharedAt_override_true references, shared]
      · have apart : Path.absolute position.names ≠ .absolute names := by simpa using here
        rw [sharedAt_override_of_ne apart, sharedAt_override_of_ne apart]

end Layers

namespace Scene

variable {scene : Scene} {prim again : Prim}

theorem Sound.walk_of_isInstanceAt (sound : scene.Sound) {names : List Name}
    (outside : (Path.absolute names).isReserved = false)
    (shared : scene.isInstanceAt (.absolute names) = true) :
    ∃ source target, scene.layers.walk (.absolute names) = some ⟨names, source, false⟩ ∧
      scene.layers.sharedAt ⟨names, source, false⟩ = some target := by
  obtain ⟨root, present⟩ := isInstanceAt_iff.mp shared
  have found : (scene.primAt? (.absolute names)).map Prim.isInstance = some true := by
    simp [primAt?, present, Prim.isInstance]
  obtain ⟨last, walked, uncrossed, sharing⟩ := sound.walk_of_primAt? outside found
  obtain ⟨target, sharing⟩ := Option.isSome_iff_exists.mp sharing
  have located := Layers.eq_absolute_of_walk walked
  obtain ⟨others, source, crossed⟩ := last
  obtain rfl : crossed = false := uncrossed
  obtain rfl : names = others := Path.absolute_inj.mp located
  exact ⟨source, target, walked, sharing⟩

/-- An instance that could be cleared is then a plain prim and can be made an instance again, and
with that all prims are what they were, prototypes and their numbers included. Both edits count. -/
theorem reachable_clear_restore (reachable : Reachable scene)
    (outside : prim.path.isReserved = false) (shared : scene.isInstanceAt prim.path = true)
    (cleared : (scene.setInstanceable prim false).result = .ok ()) (same : again.path = prim.path) :
    let middle := (scene.setInstanceable prim false).state
    let restored := middle.setInstanceable again true
    middle.primAt? prim.path = some ⟨prim.path, none⟩ ∧ restored.result = .ok () ∧
      restored.state.prims = scene.prims ∧
      restored.state.instancingEdits = scene.instancingEdits + 2 := by
  intro middle restored
  have sound := reachable.sound
  obtain ⟨root, present⟩ := isInstanceAt_iff.mp shared
  obtain ⟨names, _, located⟩ := sound.absolute (OrderedMap.contains_iff.mpr ⟨_, present⟩)
  obtain ⟨path, held⟩ := prim
  obtain rfl : path = .absolute names := located
  have plain : middle.prims.get? (.absolute names) = some none :=
    sound.cleared_plain present cleared
  have unmade : middle.isInstanceAt (.absolute names) = false := by
    simp [isInstanceAt, primAt?, plain, Prim.isInstance]
  have layers : middle.layers = scene.layers.override (.absolute names) false :=
    layers_of_setInstanceable cleared
  -- With the flag back, the layers come to the same instances as before the first edit.
  obtain ⟨source, target, walked, sharing⟩ := sound.walk_of_isInstanceAt outside shared
  have agree := Layers.agree_override_true false walked sharing
  obtain ⟨composition, composed, prims⟩ := sound.composed
  have recomposed : (middle.layers.override again.path true).composition = .ok composition := by
    rw [layers, same, agree.composition sound.specs.admissible, composed]
  obtain ⟨succeeded, state⟩ : restored.result = .ok () ∧ restored.state.prims = scene.prims := by
    rcases middle.setInstanceable_cases again true with
      ⟨fault, _, _, missing | reserved | refused⟩ | ⟨other, _, succeeded, state, _, _, again⟩
    · rw [same, OrderedMap.contains_iff.mpr ⟨none, plain⟩] at missing
      cases missing
    · rw [same, outside] at reserved
      cases reserved
    · cases recomposed.symm.trans refused
    · cases recomposed.symm.trans again
      exact ⟨succeeded, by rw [state, prims]⟩
  refine ⟨by rw [primAt?, plain]; rfl, succeeded, state, ?_⟩
  have remade : restored.state.isInstanceAt (.absolute names) = true := by
    rwa [isInstanceAt, primAt?, state]
  have once : middle.instancingEdits = scene.instancingEdits + 1 := by
    have counted := setInstanceable_counts scene ⟨.absolute names, held⟩ false
    rwa [if_neg (by rw [unmade, shared]; decide)] at counted
  have twice : restored.state.instancingEdits = middle.instancingEdits + 1 := by
    have counted := setInstanceable_counts middle again true
    rwa [same, if_neg (by rw [remade, unmade]; decide)] at counted
  rw [twice, once]

theorem reachable_clear_restore_hall :
    let hallOnly : Prim := ⟨.absolute [⟨"Hall", by decide⟩], none⟩
    let scene := (load hall).state
    let middle := (scene.setInstanceable hallOnly false).state
    let restored := middle.setInstanceable hallOnly true
    scene.prototypeRoots.length = 2 ∧ middle.prototypeRoots.length = 1 ∧
      restored.state.layers ≠ scene.layers ∧
      middle.primAt? hallOnly.path = some ⟨hallOnly.path, none⟩ ∧ restored.result = .ok () ∧
      restored.state.prims = scene.prims ∧
      restored.state.instancingEdits = scene.instancingEdits + 2 := by
  intro hallOnly scene
  have reachable : Reachable scene := Reachable.load hall_loads
  have cleared : (scene.setInstanceable hallOnly false).result = .ok () := by decide +kernel
  obtain ⟨plain, succeeded, prims, edits⟩ :=
    @reachable_clear_restore scene hallOnly hallOnly reachable (by decide) (by decide +kernel)
      cleared rfl
  exact ⟨by decide +kernel, by decide +kernel, by decide +kernel, plain, succeeded, prims, edits⟩

end Scene

end SceneGraph
