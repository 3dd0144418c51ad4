import SceneGraph.Proofs.Scene.Edits
import SceneGraph.Proofs.Scene.Locality

/-!
Which references are checked: those of the prims that the scene is composed from. A prim that no
walk comes to, such as one below an instance, may reference anything.
-/

namespace SceneGraph

namespace Layers

def Intact (layers : Layers) : Prop :=
  ∀ prim target, layers.References prim target → layers.specs.contains target = true

def redirect (layers : Layers) (prim : Path) (spec : PrimSpec) (target : Path) : Layers :=
  { layers with specs := layers.specs.insert prim { spec with reference := some target } }

variable {layers left right : Layers} {prim target : Path} {spec : PrimSpec}

theorem agree_of_unreached (keys : right.specs.keys = left.specs.keys)
    (overrides : right.overrides = left.overrides)
    (others : ∀ other, other ≠ prim → right.specs.get? other = left.specs.get? other)
    (unreached : ¬left.Reaches prim) : AgreeWhereReached left right := by
  have same : ∀ other, left.Reaches other → right.specs.get? other = left.specs.get? other := by
    intro other reaches
    refine others other ?_
    rintro rfl
    exact unreached reaches
  refine ⟨keys, same, fun position walked => ?_⟩
  rw [sharedAt, sharedAt, same _ ⟨position, walked, .refl⟩, overrides]

theorem redirect_references : (layers.redirect prim spec target).References prim target :=
  ⟨_, OrderedMap.get?_insert_self _ _ _, rfl⟩

theorem redirect_keys (authored : layers.specs.contains prim = true) :
    (layers.redirect prim spec target).specs.keys = layers.specs.keys :=
  OrderedMap.keys_insert_of_contains _ authored

theorem redirect_others {other : Path} (different : other ≠ prim) :
    (layers.redirect prim spec target).specs.get? other = layers.specs.get? other :=
  OrderedMap.get?_insert_of_ne _ _ different

theorem redirect_composes_iff (tree : layers.specs.Tree)
    (authored : layers.specs.contains prim = true)
    (missing : layers.specs.contains target = false) :
    (∃ composition, (layers.redirect prim spec target).composition = .ok composition) ↔
      (∃ composition, layers.composition = .ok composition) ∧ ¬layers.Reaches prim := by
  have keys : (layers.redirect prim spec target).specs.keys = layers.specs.keys :=
    redirect_keys authored
  constructor
  · rintro ⟨composition, composed⟩
    have contains := OrderedMap.contains_congr keys
    have redirected := (tree.of_contains contains).admissible
    have unreached : ¬(layers.redirect prim spec target).Reaches prim := by
      intro reaches
      have present := authored_of_composition redirected composed reaches redirect_references
      rw [contains, missing] at present
      cases present
    have agree : AgreeWhereReached (layers.redirect prim spec target) layers :=
      agree_of_unreached keys.symm rfl (fun _ different => (redirect_others different).symm)
        unreached
    refine ⟨⟨composition, ?_⟩, fun reaches => unreached (agree.reaches reaches)⟩
    rw [agree.composition redirected, composed]
  · rintro ⟨⟨composition, composed⟩, unreached⟩
    have agree : AgreeWhereReached layers (layers.redirect prim spec target) :=
      agree_of_unreached keys rfl (fun _ different => redirect_others different) unreached
    exact ⟨composition, by rw [agree.composition tree.admissible, composed]⟩

end Layers

namespace Scene

variable {scene : Scene} {prim target : Path}

theorem authorReference_of_ok {specs : SpecMap} {spec : PrimSpec}
    (authored : scene.layers.specs.author prim = .ok specs) (found : specs.get? prim = some spec)
    (absolute : target.isAbsolutePrimPath = true) :
    scene.authorReference prim target =
      scene.compose (({ scene.layers with specs } : Layers).redirect prim spec target) := by
  rw [authorReference, if_neg (by simpa using absolute)]
  refine author_of_ok ?_
  rw [SpecMap.amend, authored, ok_bind, found]
  rfl

theorem Sound.dangling_accepted_iff (sound : scene.Sound) {specs : SpecMap}
    (authored : scene.layers.specs.author prim = .ok specs)
    (absolute : target.isAbsolutePrimPath = true) (missing : specs.contains target = false) :
    (scene.authorReference prim target).result = .ok () ↔
      (scene.define prim).result = .ok () ∧ ¬(scene.define prim).state.layers.Reaches prim := by
  have grown : specs.Tree := sound.specs.author authored
  have present : specs.contains prim = true :=
    ((SpecMap.author_eq_ok authored).2.2 prim).mpr (Or.inl rfl)
  obtain ⟨spec, found⟩ := OrderedMap.contains_iff.mp present
  have defined : scene.define prim = scene.compose { scene.layers with specs } :=
    author_of_ok authored
  rw [authorReference_of_ok authored found absolute, defined, compose_eq_ok,
    Layers.redirect_composes_iff grown present missing, ← @compose_eq_ok scene]
  refine and_congr_right fun succeeded => ?_
  rw [state_of_compose succeeded]

/-- The references of a scene lead to authored prims exactly as far as those of the prims do that it
is not composed from; and a reference that dangles can be authored exactly at such a prim. -/
theorem reachable_intact_iff (reachable : Reachable scene) :
    (scene.layers.Intact ↔ ∀ prim target, ¬scene.layers.Reaches prim →
      scene.layers.References prim target → scene.layers.specs.contains target = true) ∧
    ∀ prim target specs, scene.layers.specs.author prim = .ok specs →
      target.isAbsolutePrimPath = true → specs.contains target = false →
      ((scene.authorReference prim target).result = .ok () ↔
        (scene.define prim).result = .ok () ∧ ¬(scene.define prim).state.layers.Reaches prim) := by
  have sound := reachable.sound
  obtain ⟨composition, composed, _⟩ := sound.composed
  refine ⟨⟨fun intact prim target _ => intact prim target, ?_⟩, ?_⟩
  · intro unreached prim target references
    by_cases reaches : scene.layers.Reaches prim
    · exact Layers.authored_of_composition sound.specs.admissible composed reaches references
    · exact unreached prim target reaches references
  · exact fun prim target specs authored absolute missing =>
      sound.dangling_accepted_iff authored absolute missing

def hiddenSign (spec : PrimSpec) : Definition :=
  let stall : Name := ⟨"Stall", by decide⟩
  let shop : Name := ⟨"Shop", by decide⟩
  let sign : Name := ⟨"sign", by decide⟩
  ⟨.ofList [(.absolute [stall], {}),
    (.absolute [shop], { instanceable := true, reference := some (.absolute [stall]) }),
    (.absolute [shop, sign], spec)]⟩

theorem reachable_intact_iff_shop :
    let stall := Path.absolute [⟨"Stall", by decide⟩]
    let sign := Path.absolute [⟨"Shop", by decide⟩, ⟨"sign", by decide⟩]
    let missing := Path.absolute [⟨"Missing", by decide⟩]
    let scene := (load (hiddenSign {})).state
    (scene.layers.Intact ↔ ∀ prim target, ¬scene.layers.Reaches prim →
      scene.layers.References prim target → scene.layers.specs.contains target = true) ∧
    ((scene.authorReference stall missing).result = .error (.undefinedReference missing) ∧
      (scene.define stall).state.layers.Reaches stall) ∧
    (scene.authorReference sign missing).result = .ok () ∧
      ¬(scene.define sign).state.layers.Reaches sign := by
  intro stall sign missing scene
  have loads : (load (hiddenSign {})).result = .ok () := by decide +kernel
  obtain ⟨intact, dangling⟩ := @reachable_intact_iff scene (Reachable.load loads)
  have unauthored : scene.layers.specs.contains missing = false := by decide +kernel
  have refused : (scene.authorReference stall missing).result =
      .error (.undefinedReference missing) := by decide +kernel
  have accepted : (scene.authorReference sign missing).result = .ok () := by decide +kernel
  have prim : missing.isAbsolutePrimPath = true := by decide
  have atStall := dangling stall missing scene.layers.specs (by decide +kernel) prim unauthored
  have atSign := dangling sign missing scene.layers.specs (by decide +kernel) prim unauthored
  refine ⟨intact, ⟨refused, ?_⟩, accepted, (atSign.mp accepted).2⟩
  by_contra unreached
  have defined : (scene.define stall).result = .ok () := by decide +kernel
  have impossible := refused.symm.trans (atStall.mpr ⟨defined, unreached⟩)
  cases impossible

theorem hiddenSign_dangles :
    let sign := Path.absolute [⟨"Shop", by decide⟩, ⟨"sign", by decide⟩]
    let missing := Path.absolute [⟨"Missing", by decide⟩]
    let loaded := load (hiddenSign { reference := some missing })
    loaded.result = .ok () ∧ Reachable loaded.state ∧
      loaded.state.layers.References sign missing ∧
      loaded.state.layers.specs.contains missing = false ∧ ¬loaded.state.layers.Intact := by
  intro sign missing loaded
  have loads : loaded.result = .ok () := by decide +kernel
  have references : loaded.state.layers.References sign missing :=
    ⟨{ reference := some missing }, by decide +kernel, rfl⟩
  have unauthored : loaded.state.layers.specs.contains missing = false := by decide +kernel
  refine ⟨loads, Reachable.load loads, references, unauthored, fun intact => ?_⟩
  have authored := intact sign missing references
  rw [unauthored] at authored
  cases authored

end Scene

end SceneGraph
