import SceneGraph.Proofs.Forwarding.Crossings
import SceneGraph.Proofs.Scene.Addressed

/-!
What is said of one prim bears on the paths below it. Everywhere else the same prims are there and
the same paths lead somewhere, whatever becomes of the prototypes.
-/

namespace SceneGraph

namespace Layers

variable {layers : Layers} {position : Position} {place : Path} {flag : Bool}

theorem childOrigins_override (place : Path) (flag : Bool) (source : Path) :
    (layers.override place flag).childOrigins source = layers.childOrigins source :=
  childOrigins_congr rfl fun _ _ => rfl

theorem sharedAt_override_of_ne (apart : .absolute position.names ≠ place) :
    (layers.override place flag).sharedAt position = layers.sharedAt position := by
  rw [sharedAt, sharedAt, override, OrderedMap.get?_insert_of_ne _ _ apart]

theorem step_override_of_ne (apart : .absolute position.names ≠ place) (name : Name) :
    (layers.override place flag).step position name = layers.step position name := by
  rw [step, step, sharedAt_override_of_ne apart, childNamed, childNamed, childOrigins_override]

theorem steps_override {rest : List Name} (apart : ∀ shorter, shorter <+: rest → shorter ≠ rest →
      .absolute (position.names ++ shorter) ≠ place) :
    rest.foldlM (layers.override place flag).step position = rest.foldlM layers.step position := by
  induction rest generalizing position with
  | nil => rfl
  | cons name rest ih =>
      have here : .absolute position.names ≠ place := by
        simpa using apart [] List.nil_prefix (by simp)
      rw [List.foldlM_cons, List.foldlM_cons, step_override_of_ne here]
      cases stepped : layers.step position name with
      | none => rfl
      | some next =>
          obtain ⟨_, _, rfl⟩ := step_eq_some.mp stepped
          refine ih fun shorter within different => ?_
          have further := apart (name :: shorter) (List.cons_prefix_cons.mpr ⟨rfl, within⟩)
            (by simpa using different)
          rwa [List.append_assoc, List.singleton_append]

theorem walk_override {path : Path} (outside : path.isWithin place = true → path = place) :
    (layers.override place flag).walk path = layers.walk path := by
  rw [walk, walk, follow, follow]
  split
  next prim =>
    obtain ⟨names, named, rfl⟩ := Path.isAbsolutePrimPath_iff.mp prim
    obtain ⟨first, rest, rfl⟩ := List.exists_cons_of_ne_nil named
    dsimp only [Path.absolute_elements]
    rw [steps_override]
    · rfl
    rintro shorter within different rfl
    have longer := (List.prefix_append_right_inj [first]).mpr within
    have same := outside (Path.isWithin_absolute.mpr longer)
    exact different (by simpa [eq_comm] using same)
  next => rfl

end Layers

namespace Scene

variable {scene : Scene} {prim : Prim} {flag : Bool} {path : Path} {options : ForwardingOptions}

theorem Sound.resolves_iff (sound : scene.Sound) (unreserved : path.isReserved = false)
    (room : max 1 path.elementCount ≤ options.maxDepth) :
    (∃ found, (stage.resolve path options scene).result = .ok (some found)) ↔
      (scene.layers.walk path).isSome = true := by
  obtain ⟨answer, resolved, agrees⟩ := sound.resolve_walk unreserved room
  have same : answer.isSome = (scene.layers.walk path).isSome := by
    simpa using congrArg Option.isSome agrees
  rw [resolved, ← same, Option.isSome_iff_exists]
  simp

/-- Setting a flag on one prim leaves what is authored as it is. At each path outside prototypes
that is not below the prim a prim is there if one was, it is an instance if it was one unless it is
the prim itself, and the path leads to a prim if it did. -/
theorem reachable_setInstanceable_local (reachable : Reachable scene)
    (succeeded : (scene.setInstanceable prim flag).result = .ok ()) :
    let later := (scene.setInstanceable prim flag).state
    later.layers.specs = scene.layers.specs ∧
      ∀ path, path.isReserved = false → (path.isWithin prim.path = true → path = prim.path) →
        (later.primAt? path).isSome = (scene.primAt? path).isSome ∧
        (path ≠ prim.path →
          (later.primAt? path).map Prim.isInstance = (scene.primAt? path).map Prim.isInstance) ∧
        ∀ options, max 1 path.elementCount ≤ options.maxDepth →
          ((∃ found, (stage.resolve path options later).result = .ok (some found)) ↔
            ∃ found, (stage.resolve path options scene).result = .ok (some found)) := by
  intro later
  have sound := reachable.sound
  have laterSound : later.Sound := sound.setInstanceable prim flag
  have layers : later.layers = scene.layers.override prim.path flag :=
    layers_of_setInstanceable succeeded
  refine ⟨by rw [layers]; rfl, fun path unreserved outside => ?_⟩
  have walked : later.layers.walk path = scene.layers.walk path := by
    rw [layers, Layers.walk_override outside]
  have before := sound.primAt?_walk unreserved
  have after := laterSound.primAt?_walk unreserved
  rw [walked] at after
  refine ⟨?_, fun apart => ?_, fun options room => ?_⟩
  · have here := congrArg Option.isSome before
    have there := congrArg Option.isSome after
    rw [Option.isSome_map, Option.isSome_map] at here there
    rw [here, there]
  · rw [after, before]
    refine Option.map_congr fun last ends => ?_
    have reached := Layers.eq_absolute_of_walk (Option.mem_filter_iff.mp ends).1
    rw [layers, Layers.sharedAt_override_of_ne (reached ▸ apart)]
  · rw [laterSound.resolves_iff unreserved room, sound.resolves_iff unreserved room, walked]

theorem reachable_setInstanceable_local_hall :
    let hallOnly : Prim := ⟨.absolute [⟨"Hall", by decide⟩], none⟩
    let seat := Path.absolute [⟨"Row", by decide⟩, ⟨"first", by decide⟩]
    let leg : Name := ⟨"leg", by decide⟩
    let path := Path.absolute [⟨"Row", by decide⟩, ⟨"first", by decide⟩, leg]
    let first : Name := ⟨"__Prototype_1", by decide⟩
    let second : Name := ⟨"__Prototype_2", by decide⟩
    let scene := (load hall).state
    let later := (scene.setInstanceable hallOnly false).state
    scene.primAt? seat = some ⟨seat, some (.absolute [second])⟩ ∧
      later.primAt? seat = some ⟨seat, some (.absolute [first])⟩ ∧
      later.layers.specs = scene.layers.specs ∧
      (later.primAt? seat).map Prim.isInstance = (scene.primAt? seat).map Prim.isInstance ∧
      (stage.resolve path ⟨3⟩ scene).result = .ok (some ⟨.absolute [second, leg], none⟩) ∧
      (stage.resolve path ⟨3⟩ later).result = .ok (some ⟨.absolute [first, leg], none⟩) ∧
      ((∃ found, (stage.resolve path ⟨3⟩ later).result = .ok (some found)) ↔
        ∃ found, (stage.resolve path ⟨3⟩ scene).result = .ok (some found)) := by
  intro hallOnly seat leg path first second scene
  have reachable : Reachable scene := Reachable.load hall_loads
  have cleared : (scene.setInstanceable hallOnly false).result = .ok () := by decide +kernel
  obtain ⟨specs, elsewhere⟩ := reachable_setInstanceable_local reachable cleared
  obtain ⟨_, same, _⟩ := elsewhere seat (by decide) (by decide)
  obtain ⟨_, _, leads⟩ := elsewhere path (by decide) (by decide)
  exact ⟨by decide +kernel, by decide +kernel, specs, same (by decide), by decide +kernel,
    by decide +kernel, leads ⟨3⟩ (by decide)⟩

end Scene

end SceneGraph
