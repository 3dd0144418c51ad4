import SceneGraph.Scene.Composition
import SceneGraph.Uninstancing

/-!
A scene in memory: what is authored, what has been said about single prims since, and the prims
composed from both. Every edit composes the scene anew and is dropped whole if that fails.
-/

namespace SceneGraph

structure Scene where
  layers : Layers := {}
  prims : OrderedMap Path (Option Path) := ∅
  instancingEdits : Nat := 0
deriving DecidableEq

namespace Scene

structure Prim where
  path : Path
  prototype : Option Path
deriving DecidableEq

def Prim.isInstance (prim : Prim) : Bool := prim.prototype.isSome

def Prim.isInPrototype (prim : Prim) : Bool := prim.path.isReserved

def primAt? (scene : Scene) (path : Path) : Option Prim :=
  (scene.prims.get? path).map (Prim.mk path)

def prototype? (scene : Scene) (prim : Prim) : Option Prim :=
  prim.prototype.bind scene.primAt?

def isInstanceAt (scene : Scene) (path : Path) : Bool := (scene.primAt? path).any Prim.isInstance

def prototypeRoots (scene : Scene) : List Path :=
  scene.prims.keys.filter fun path => path.elementCount == 1 && path.isReserved

/-- What is authored. Flags set on single prims of the scene are not part of it. -/
def definition (scene : Scene) : Definition := ⟨scene.layers.specs⟩

def recompose (scene : Scene) : Outcome Scene Unit :=
  match scene.layers.composition with
  | .error fault => .error fault scene
  | .ok composition =>
    (Outcome.ok () { scene with prims := composition.prims }).after
      [.recomposed scene.layers.specs.size composition.prims.size]

/-- Puts other layers in place and composes the scene from them. If that fails, only the layers are
put back: nothing else has changed by then. -/
def compose (scene : Scene) (layers : Layers) : Outcome Scene Unit :=
  let composed := { scene with layers }.recompose
  match composed.result with
  | .error _ => { composed with state := { composed.state with layers := scene.layers } }
  | .ok () => composed

def author (scene : Scene) (change : SpecMap → Except Fault SpecMap) : Outcome Scene Unit :=
  match change scene.layers.specs with
  | .error fault => .error fault scene
  | .ok specs => scene.compose { scene.layers with specs }

def load (definition : Definition) : Outcome Scene Unit :=
  ({} : Scene).author fun _ => SpecMap.ofDefinition definition

def define (scene : Scene) (path : Path) : Outcome Scene Unit :=
  scene.author fun specs => specs.author path

def authorReference (scene : Scene) (path target : Path) : Outcome Scene Unit :=
  if !target.isAbsolutePrimPath then .error (.targetNotPrim target) scene
  else scene.author fun specs =>
    specs.amend path fun spec => { spec with reference := some target }

def authorInstanceable (scene : Scene) (path : Path) (flag : Bool) : Outcome Scene Unit :=
  scene.author fun specs => specs.amend path fun spec => { spec with instanceable := flag }

/-- Says of one prim of the scene whether it may be an instance, and counts the edit if that made or
unmade an instance. -/
def setInstanceable (prim : Prim) (flag : Bool) (scene : Scene) : Outcome Scene Unit :=
  if !scene.prims.contains prim.path then .error (.missingPrim prim.path) scene
  else if prim.path.isReserved then .error (.insidePrototype prim.path) scene
  else
    let edited := scene.compose
      { scene.layers with overrides := scene.layers.overrides.insert prim.path flag }
    if edited.state.isInstanceAt prim.path = scene.isInstanceAt prim.path then edited
    else { edited with
      state := { edited.state with instancingEdits := edited.state.instancingEdits + 1 } }

def stage : EditableStage Scene Prim where
  path := Prim.path
  isInstance := Prim.isInstance
  primAt? path scene := (scene.primAt? path, scene)
  prototype? prim scene := (scene.prototype? prim, scene)
  setInstanceable := setInstanceable

theorem stage_settled : stage.Settled := ⟨fun _ _ => rfl, fun _ _ => rfl⟩

end Scene

end SceneGraph
