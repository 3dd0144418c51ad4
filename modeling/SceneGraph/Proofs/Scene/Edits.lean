import SceneGraph.Proofs.Scene.Faults
import SceneGraph.Proofs.Scene.Reachable

/-!
Edits as a whole: what can make one fail, and that a failed one leaves nothing behind, so that a
scene is what its successful edits made of it and its prims are never out of date.
-/

namespace SceneGraph

def Layers.authoring (layers : Layers) (change : SpecMap → Except Fault SpecMap) :
    Except Fault Layers :=
  (change layers.specs).map fun specs => { layers with specs }

namespace Scene

/-- The calls that edit a scene. The prim that an override is for may be of any age. -/
inductive Edit
  | define (path : Path)
  | reference (path target : Path)
  | instanceable (path : Path) (flag : Bool)
  | override (prim : Prim) (flag : Bool)
deriving DecidableEq

namespace Edit

def apply (edit : Edit) (scene : Scene) : Outcome Scene Unit :=
  match edit with
  | define path => scene.define path
  | reference path target => scene.authorReference path target
  | instanceable path flag => scene.authorInstanceable path flag
  | override prim flag => scene.setInstanceable prim flag

def asked (edit : Edit) (scene : Scene) : Except Fault Layers :=
  match edit with
  | define path => scene.layers.authoring fun specs => specs.author path
  | reference path target =>
    if !target.isAbsolutePrimPath then .error (.targetNotPrim target)
    else scene.layers.authoring fun specs =>
      specs.amend path fun spec => { spec with reference := some target }
  | instanceable path flag =>
    scene.layers.authoring fun specs =>
      specs.amend path fun spec => { spec with instanceable := flag }
  | override prim flag =>
    if !scene.prims.contains prim.path then .error (.missingPrim prim.path)
    else if prim.path.isReserved then .error (.insidePrototype prim.path)
    else .ok (scene.layers.override prim.path flag)

/-- An edit is refused, or nothing can be composed from the layers it asks for. -/
def FailsBy (edit : Edit) (scene : Scene) (fault : Fault) : Prop :=
  edit.asked scene = .error fault ∨
    ∃ layers, edit.asked scene = .ok layers ∧ layers.composition = .error fault

end Edit

variable {scene : Scene}

/-- All that asking for layers can come to: a failure that leaves the scene as it is, or the scene
composed from them. -/
inductive Performed (scene : Scene) : Except Fault Layers → Outcome Scene Unit → Prop
  | refused {fault} : Performed scene (.error fault) (.error fault scene)
  | uncomposed {layers fault} : layers.composition = .error fault →
      Performed scene (.ok layers) (.error fault scene)
  | composed {layers composition outcome} : layers.composition = .ok composition →
      outcome.result = .ok () → outcome.state.layers = layers →
      outcome.state.prims = composition.prims → Performed scene (.ok layers) outcome

theorem compose_performed (scene : Scene) (layers : Layers) :
    Performed scene (.ok layers) (scene.compose layers) := by
  rw [compose, recompose]
  cases composed : layers.composition with
  | error fault => exact Performed.uncomposed composed
  | ok composition => exact Performed.composed composed rfl rfl rfl

theorem author_performed (scene : Scene) (change : SpecMap → Except Fault SpecMap) :
    Performed scene (scene.layers.authoring change) (scene.author change) := by
  rw [author, Layers.authoring]
  cases change scene.layers.specs with
  | error fault => exact Performed.refused
  | ok specs => exact scene.compose_performed { scene.layers with specs }

theorem setInstanceable_performed (scene : Scene) (prim : Prim) (flag : Bool) :
    Performed scene ((Edit.override prim flag).asked scene) (scene.setInstanceable prim flag) := by
  rw [setInstanceable, Edit.asked]
  split
  next => exact Performed.refused
  next =>
    split
    next => exact Performed.refused
    next =>
      have performed := scene.compose_performed (scene.layers.override prim.path flag)
      rw [Layers.override] at performed ⊢
      generalize scene.compose _ = edited at performed ⊢
      cases performed with
      | uncomposed failed =>
          simp only [Outcome.error_state, ↓reduceIte]
          exact Performed.uncomposed failed
      | composed made succeeded layers prims =>
          dsimp only
          split
          · exact Performed.composed made succeeded layers prims
          · exact Performed.composed made succeeded layers prims

namespace Edit

theorem performed (edit : Edit) (scene : Scene) :
    Performed scene (edit.asked scene) (edit.apply scene) := by
  cases edit with
  | define path => exact scene.author_performed fun specs => specs.author path
  | reference path target =>
      rw [apply, authorReference, asked]
      split
      · exact Performed.refused
      · exact scene.author_performed fun specs =>
          specs.amend path fun spec => { spec with reference := some target }
  | instanceable path flag =>
      exact scene.author_performed fun specs =>
        specs.amend path fun spec => { spec with instanceable := flag }
  | override prim flag => exact scene.setInstanceable_performed prim flag

theorem result_eq_error_iff {edit : Edit} {fault : Fault} :
    (edit.apply scene).result = .error fault ↔ edit.FailsBy scene fault := by
  rw [FailsBy]
  have performed := edit.performed scene
  generalize edit.asked scene = asked at performed ⊢
  generalize edit.apply scene = outcome at performed ⊢
  cases performed with
  | refused => simp
  | uncomposed failed => simp [failed]
  | composed made succeeded => simp [succeeded, made]

theorem state_of_error {edit : Edit} {fault : Fault}
    (failed : (edit.apply scene).result = .error fault) :
    (edit.apply scene).state = scene ∧ (edit.apply scene).events = [] := by
  have performed := edit.performed scene
  generalize edit.asked scene = asked at performed
  generalize edit.apply scene = outcome at failed performed ⊢
  cases performed with
  | refused => exact ⟨rfl, rfl⟩
  | uncomposed => exact ⟨rfl, rfl⟩
  | composed _ succeeded =>
      rw [succeeded] at failed
      cases failed

theorem kind_of_authoring {change : SpecMap → Except Fault SpecMap}
    (kinds : ∀ specs fault, change specs = .error fault → fault.kind = .validation) {fault : Fault}
    (failed : scene.layers.authoring change = .error fault) : fault.kind = .validation := by
  rw [Layers.authoring] at failed
  cases changed : change scene.layers.specs with
  | error cause =>
      rw [changed] at failed
      cases failed
      exact kinds _ _ changed
  | ok specs =>
      rw [changed] at failed
      cases failed

theorem kind_of_asked {edit : Edit} {fault : Fault} (refused : edit.asked scene = .error fault) :
    fault.kind = .validation := by
  cases edit with
  | define path => exact kind_of_authoring (fun _ _ => SpecMap.kind_of_author) refused
  | reference path target =>
      rw [asked] at refused
      split at refused
      · cases refused
        rfl
      · exact kind_of_authoring (fun _ _ => SpecMap.kind_of_amend) refused
  | instanceable path flag => exact kind_of_authoring (fun _ _ => SpecMap.kind_of_amend) refused
  | override prim flag =>
      rw [asked] at refused
      split at refused
      · cases refused
        rfl
      · split at refused
        · cases refused
          rfl
        · cases refused

theorem kind_of_error {edit : Edit} {fault : Fault}
    (failed : (edit.apply scene).result = .error fault) : fault.kind = .validation := by
  rcases result_eq_error_iff.mp failed with refused | ⟨layers, _, uncomposed⟩
  · exact kind_of_asked refused
  · exact Layers.kind_of_composition uncomposed

/-- A failed edit leaves the layers, the prims and the count of edits as they were and reports
nothing, whether it was refused or nothing could be composed from the layers it asked for. -/
theorem failed_changes_nothing {edit : Edit} {fault : Fault}
    (failed : (edit.apply scene).result = .error fault) :
    edit.FailsBy scene fault ∧ (edit.apply scene).state = scene ∧ (edit.apply scene).events = [] :=
  ⟨result_eq_error_iff.mp failed, state_of_error failed⟩

theorem failed_changes_nothing_hall :
    let seat : Name := ⟨"Seat", by decide⟩
    let leg : Name := ⟨"leg", by decide⟩
    let missing := Path.absolute [⟨"Missing", by decide⟩]
    let edit := Edit.reference (.absolute [seat, leg]) missing
    let scene := (load hall).state
    (edit.apply scene).result = .error (.undefinedReference missing) ∧
      edit.FailsBy scene (.undefinedReference missing) ∧ (edit.apply scene).state = scene ∧
      (edit.apply scene).events = [] := by
  intro seat leg missing edit scene
  have failed : (edit.apply scene).result = .error (.undefinedReference missing) := by
    decide +kernel
  exact ⟨failed, failed_changes_nothing failed⟩

def replay (edits : List Edit) (scene : Scene) : Scene :=
  edits.foldl (fun scene edit => (edit.apply scene).state) scene

def successes : List Edit → Scene → List Edit
  | [], _ => []
  | edit :: rest, scene =>
    let outcome := edit.apply scene
    match outcome.result with
    | .error _ => successes rest outcome.state
    | .ok () => edit :: successes rest outcome.state

theorem reachable_replay (edits : List Edit) (reachable : Reachable scene) :
    Reachable (replay edits scene) := by
  induction edits generalizing scene with
  | nil => exact reachable
  | cons edit rest ih =>
      refine ih ?_
      cases edit with
      | define path => exact reachable.define path
      | reference path target => exact reachable.authorReference path target
      | instanceable path flag => exact reachable.authorInstanceable path flag
      | override prim flag => exact reachable.setInstanceable prim flag

theorem replay_successes (edits : List Edit) (scene : Scene) :
    replay (successes edits scene) scene = replay edits scene := by
  induction edits generalizing scene with
  | nil => rfl
  | cons edit rest ih =>
      have onward : replay (edit :: rest) scene = replay rest (edit.apply scene).state := rfl
      rw [onward, successes]
      cases ended : (edit.apply scene).result with
      | error fault =>
          obtain ⟨same, _⟩ := state_of_error ended
          simp only [same]
          exact ih scene
      | ok _ => exact ih (edit.apply scene).state

end Edit

theorem Sound.recompose (sound : scene.Sound) :
    scene.recompose = (Outcome.ok () scene).after
      [.recomposed scene.layers.specs.size scene.prims.size] := by
  obtain ⟨composition, composed, same⟩ := sound.composed
  simp only [Scene.recompose, composed, same]

theorem Sound.prims_eq {other : Scene} (sound : scene.Sound) (otherSound : other.Sound)
    (layers : other.layers = scene.layers) : other.prims = scene.prims := by
  obtain ⟨composition, composed, same⟩ := sound.composed
  obtain ⟨otherComposition, otherComposed, otherSame⟩ := otherSound.composed
  rw [layers, composed] at otherComposed
  cases otherComposed
  exact otherSame.symm.trans same

/-- The prims of a scene are always those composed from its layers, so that composing it anew
changes nothing and scenes with the same layers give the same answers, whatever edits led there. -/
theorem reachable_current (reachable : Reachable scene) :
    scene.layers.composition.map Composition.prims = .ok scene.prims ∧
      scene.recompose.result = .ok () ∧ scene.recompose.state = scene ∧
      ∀ other, Reachable other → other.layers = scene.layers →
        other.prims.keys = scene.prims.keys ∧
        (∀ path, other.primAt? path = scene.primAt? path) ∧
        (∀ prim, other.prototype? prim = scene.prototype? prim) ∧
        other.prototypeRoots = scene.prototypeRoots := by
  have sound := reachable.sound
  obtain ⟨composition, composed, same⟩ := sound.composed
  refine ⟨by rw [composed, ← same]; rfl, by rw [sound.recompose]; rfl, by rw [sound.recompose]; rfl,
    fun other otherReachable layers => ?_⟩
  have prims := sound.prims_eq otherReachable.sound layers
  have answers (path : Path) : other.primAt? path = scene.primAt? path := by
    rw [primAt?, primAt?, prims]
  have prototypes (prim : Prim) : other.prototype? prim = scene.prototype? prim := by
    rw [prototype?, prototype?, funext answers]
  exact ⟨by rw [prims], answers, prototypes, by rw [prototypeRoots, prototypeRoots, prims]⟩

theorem reachable_current_hall :
    let hallOnly : Prim := ⟨.absolute [⟨"Hall", by decide⟩], none⟩
    let scene := Edit.replay [.override hallOnly false] (load hall).state
    let other := Edit.replay [.override hallOnly false, .define .root, .override hallOnly true,
      .override hallOnly false] (load hall).state
    scene.instancingEdits = 1 ∧ other.instancingEdits = 3 ∧ other.layers = scene.layers ∧
      scene.layers.composition.map Composition.prims = .ok scene.prims ∧
      scene.recompose.result = .ok () ∧ scene.recompose.state = scene ∧
      other.prims.keys = scene.prims.keys ∧
      (∀ path, other.primAt? path = scene.primAt? path) ∧
      (∀ prim, other.prototype? prim = scene.prototype? prim) ∧
      other.prototypeRoots = scene.prototypeRoots := by
  intro hallOnly scene other
  have reachable : Reachable scene := Edit.reachable_replay _ (Reachable.load hall_loads)
  have otherReachable : Reachable other := Edit.reachable_replay _ (Reachable.load hall_loads)
  have layers : other.layers = scene.layers := by decide +kernel
  obtain ⟨composed, succeeds, unchanged, agrees⟩ := reachable_current reachable
  exact ⟨by decide +kernel, by decide +kernel, layers, composed, succeeds, unchanged,
    agrees other otherReachable layers⟩

end Scene

end SceneGraph
