import SceneGraph.Proofs.Scene.Descendants
import SceneGraph.Proofs.Scene.Integrity
import SceneGraph.Proofs.Scene.Nesting

/-!
References that lead back to where they started. They are not refused for that: composing follows a
chain of references up to the first prim met before. What is refused is what has to be composed
inside itself, or is nested too deep in some other way, and a reference that dangles.
-/

namespace SceneGraph

namespace Layers

/-- What decides whether layers are composed, be there cycles of references in them or not. -/
structure Verdict (layers : Layers) (result : Except Fault Unit) : Prop where
  cause : ∀ fault, result = .error fault → fault.kind = .validation ∧ layers.Blocked fault
  deep : ∀ place, result = .error (.nestedTooDeep place) → layers.Deep
  dangling : ∀ prim target, layers.Reaches prim → layers.References prim target →
    layers.specs.contains target = false → ∃ fault, result = .error fault
  overgrown : layers.Overgrown → ∃ fault, result = .error fault
  inside_itself : ∀ position rest last, layers.Walked position →
    layers.overrides = ∅ ∨ position.crossed = true → rest ≠ [] →
    rest.foldlM layers.step position = some last → last.source = position.source →
    layers.prototypesAlong position rest = [] → ∃ fault, result = .error fault
  only_roots : (∀ prim, layers.specs.contains prim = true → prim.elementCount = 1) →
    (result = .ok () ↔ layers.Intact)

variable {layers : Layers}

theorem not_deep_of_roots (admissible : layers.specs.Admissible)
    (roots : ∀ prim, layers.specs.contains prim = true → prim.elementCount = 1) :
    ¬layers.Deep := by
  rintro ⟨first, rest, _, long, walks, _⟩
  obtain ⟨name, others, rfl⟩ := List.exists_cons_of_length_pos (Nat.zero_lt_of_lt long)
  obtain ⟨next, stepped, _⟩ := steps_cons.mp walks
  obtain ⟨origin, child, rfl⟩ := step_eq_some.mp stepped
  obtain ⟨origins, found, member, _⟩ := childNamed_eq_some.mp child
  have nested := nested_of_mem_childOrigins admissible found member
  rw [roots origin (authored_of_mem_childOrigins found member)] at nested
  exact absurd nested (by decide)

theorem reaches_of_roots (admissible : layers.specs.Admissible)
    (roots : ∀ prim, layers.specs.contains prim = true → prim.elementCount = 1) {prim : Path}
    (authored : layers.specs.contains prim = true) : layers.Reaches prim := by
  obtain ⟨names, _, rfl⟩ := Path.isAbsolutePrimPath_iff.mp (admissible prim authored).1
  obtain ⟨name, rfl⟩ := List.length_eq_one_iff.mp (roots _ authored)
  exact ⟨_, Walked.root authored, .refl⟩

end Layers

namespace Scene

variable {scene : Scene} {layers : Layers}

theorem refused_of_compose (blocked : ∀ composition, layers.composition ≠ .ok composition) :
    ∃ fault, (scene.compose layers).result = .error fault := by
  rcases scene.compose_cases layers with ⟨fault, _, failed, _⟩ | ⟨composition, composed, _⟩
  · exact ⟨fault, failed⟩
  · exact absurd composed (blocked composition)

theorem verdict_of_compose (scene : Scene) (admissible : layers.specs.Admissible) :
    layers.Verdict (scene.compose layers).result := by
  have blocked {fault : Fault} (failed : (scene.compose layers).result = .error fault) :
      layers.Blocked fault :=
    Layers.blocked_of_composition admissible (compose_eq_error.mp failed)
  have deep {place : Path}
      (failed : (scene.compose layers).result = .error (.nestedTooDeep place)) : layers.Deep :=
    Layers.deep_of_composition admissible (compose_eq_error.mp failed)
  have dangling : ∀ prim target, layers.Reaches prim → layers.References prim target →
      layers.specs.contains target = false →
      ∃ fault, (scene.compose layers).result = .error fault := by
    intro prim target reaches references unauthored
    refine refused_of_compose fun composition composed => ?_
    have authored := Layers.authored_of_composition admissible composed reaches references
    rw [unauthored] at authored
    cases authored
  have overgrown (grown : layers.Overgrown) :
      ∃ fault, (scene.compose layers).result = .error fault :=
    refused_of_compose fun composition composed =>
      Layers.not_overgrown_of_composition admissible composed grown
  refine ⟨fun fault failed => ⟨?_, blocked failed⟩, fun _ => deep, dangling, overgrown, ?_,
    fun roots => ⟨?_, fun intact => ?_⟩⟩
  · cases blocked failed <;> rfl
  · intro position rest last walked unsaid named found again plain
    exact overgrown (Layers.overgrown_of_repeated unsaid walked named found again plain)
  · intro succeeded prim target references
    by_contra unauthored
    obtain ⟨spec, held, _⟩ := id references
    have authored := OrderedMap.contains_iff.mpr ⟨spec, held⟩
    obtain ⟨fault, failed⟩ := dangling prim target
      (Layers.reaches_of_roots admissible roots authored) references (by simpa using unauthored)
    rw [succeeded] at failed
    cases failed
  · cases outcome : (scene.compose layers).result with
    | ok => rfl
    | error fault =>
        cases blocked outcome with
        | dangling _ references unauthored =>
            rw [intact _ _ references] at unauthored
            cases unauthored
        | nested => exact absurd (deep outcome) (Layers.not_deep_of_roots admissible roots)

/-- Neither loading nor authoring a reference asks whether references lead in a circle. A definition
or a reference is refused, with a validation fault and without any change to the scene, only for
a reference that dangles at a prim the scene is composed from, or for more levels than the limit
allows. It is refused for such a reference, for a prim that is composed inside itself, and for so
many levels of plain prims. -/
theorem reachable_references_verdict (reachable : Reachable scene) :
    (∀ definition specs, SpecMap.ofDefinition definition = .ok specs →
      Layers.Verdict ⟨specs, ∅⟩ (load definition).result) ∧
    ∀ prim target specs spec, scene.layers.specs.author prim = .ok specs →
      specs.get? prim = some spec → target.isAbsolutePrimPath = true →
      (({ scene.layers with specs } : Layers).redirect prim spec target).Verdict
          (scene.authorReference prim target).result ∧
        ∀ fault, (scene.authorReference prim target).result = .error fault →
          (scene.authorReference prim target).state = scene := by
  constructor
  · intro definition specs loaded
    rw [load_of_ofDefinition loaded]
    exact verdict_of_compose {} (SpecMap.tree_ofDefinition loaded).admissible
  · intro prim target specs spec authored found absolute
    rw [authorReference_of_ok authored found absolute]
    have present := OrderedMap.contains_iff.mpr ⟨spec, found⟩
    have grown := reachable.sound.specs.author authored
    have keys := @Layers.redirect_keys { scene.layers with specs } prim target spec present
    have redirected := grown.of_contains (OrderedMap.contains_congr keys)
    refine ⟨verdict_of_compose scene redirected.admissible, fun fault failed => ?_⟩
    rcases scene.compose_cases _ with ⟨_, _, _, same⟩ | ⟨_, _, succeeded, _⟩
    · exact same
    · rw [failed] at succeeded
      cases succeeded

def halfRing (spec : PrimSpec) : Definition :=
  let left : Name := ⟨"Left", by decide⟩
  let right : Name := ⟨"Right", by decide⟩
  ⟨.ofList [(.absolute [left], spec),
    (.absolute [right], { reference := some (.absolute [left]) })]⟩

theorem reachable_references_verdict_ring :
    let first : Name := ⟨"Left", by decide⟩
    let below : Name := ⟨"below", by decide⟩
    let left := Path.absolute [first]
    let right := Path.absolute [⟨"Right", by decide⟩]
    let inner := Path.absolute [first, below]
    let scene := (load (halfRing {})).state
    ((scene.authorReference left right).result = .ok () ∧
      (scene.layers.redirect left {} right).Intact) ∧
    ∃ fault, (scene.authorReference inner right).result = .error fault ∧
      fault.kind = .validation ∧ (scene.authorReference inner right).state = scene := by
  intro first below left right inner scene
  have loads : (load (halfRing {})).result = .ok () := by decide +kernel
  obtain ⟨_, referenced⟩ := @reachable_references_verdict scene (Reachable.load loads)
  constructor
  · obtain ⟨verdict, _⟩ := referenced left right scene.layers.specs {} (by decide +kernel)
      (by decide +kernel) (by decide)
    have accepted : (scene.authorReference left right).result = .ok () := by decide +kernel
    have roots : ∀ prim ∈ (scene.layers.redirect left {} right).specs.keys,
        prim.elementCount = 1 := by
      decide +kernel
    exact ⟨accepted, (verdict.only_roots fun prim authored =>
      roots prim (OrderedMap.mem_keys_iff.mpr authored)).mp accepted⟩
  · let specs := scene.layers.specs.insert inner {}
    obtain ⟨verdict, unchanged⟩ := referenced inner right specs {} (by decide +kernel)
      (by decide +kernel) (by decide)
    let layers := ({ scene.layers with specs } : Layers).redirect inner {} right
    have rooted : layers.Walked ⟨[first], left, false⟩ := .root (by decide +kernel)
    have stepped : layers.step ⟨[first], left, false⟩ below =
        some ⟨[first, below], inner, false⟩ := by
      decide +kernel
    obtain ⟨fault, refused⟩ := verdict.inside_itself _ [below] ⟨[first, below, below], inner, false⟩
      (rooted.step stepped) (Or.inl rfl) (by simp) (by decide +kernel) rfl (by decide +kernel)
    exact ⟨fault, refused, (verdict.cause fault refused).1, unchanged fault refused⟩

/-- Two prims that reference each other are loaded, and the second reference can be authored. -/
theorem ring_accepted :
    let left := Path.absolute [⟨"Left", by decide⟩]
    let right := Path.absolute [⟨"Right", by decide⟩]
    let loaded := load (halfRing { reference := some right })
    let scene := (load (halfRing {})).state
    let closed := scene.authorReference left right
    loaded.result = .ok () ∧
      Relation.TransGen loaded.state.layers.References left left ∧
      Reachable scene ∧ closed.result = .ok () ∧ closed.state ≠ scene ∧
      Relation.TransGen closed.state.layers.References left left := by
  intro left right loaded scene closed
  have loads : (load (halfRing {})).result = .ok () := by decide +kernel
  have there : loaded.state.layers.References left right :=
    ⟨{ reference := some right }, by decide +kernel, rfl⟩
  have back : loaded.state.layers.References right left :=
    ⟨{ reference := some left }, by decide +kernel, rfl⟩
  have closedThere : closed.state.layers.References left right :=
    ⟨{ reference := some right }, by decide +kernel, rfl⟩
  have closedBack : closed.state.layers.References right left :=
    ⟨{ reference := some left }, by decide +kernel, rfl⟩
  exact ⟨by decide +kernel, .tail (.single there) back, Reachable.load loads, by decide +kernel,
    by decide +kernel, .tail (.single closedThere) closedBack⟩

end Scene

end SceneGraph
