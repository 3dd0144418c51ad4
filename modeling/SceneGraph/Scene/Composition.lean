import SceneGraph.Scene.Definition

/-!
Composing a scene from what is authored. Every prim gets its own children and those of the prims it
references, its own winning. Below an instance nothing is composed; instead the prims it references
are composed once, below a prototype root that all instances of the same prim share.
-/

namespace SceneGraph

structure Layers where
  specs : SpecMap := ∅
  overrides : OrderedMap Path Bool := ∅
deriving DecidableEq

namespace Layers

variable (layers : Layers)

def spec (path : Path) : Except Fault PrimSpec :=
  match layers.specs.get? path with
  | some spec => .ok spec
  | none => .error (.undefinedReference path)

/-- The authored prims right below `parent`: in path order, a prim's descendants follow it. -/
def ownChildren (parent : Path) : List Path :=
  let below := ((layers.specs.keysFrom parent).drop 1).takeWhile fun path => path.isWithin parent
  below.filter fun path => path.elementCount = parent.elementCount + 1

/-- A prim, the prim it references, and so on, up to the first one met before. -/
def referenceChainFrom : Nat → List Path → Path → Except Fault (List Path)
  | 0, _, _ => .ok []
  | room + 1, visited, current =>
    if current ∈ visited then .ok []
    else do
      let spec ← layers.spec current
      match spec.reference with
      | none => return [current]
      | some next => return current :: (← referenceChainFrom room (current :: visited) next)

/-- Each prim of a chain is authored, so a chain has no more prims than there are. -/
def referenceChain (source : Path) : Except Fault (List Path) :=
  layers.referenceChainFrom (layers.specs.size + 1) [] source

/-- Of several paths with one name the first counts. -/
def firstOfEachName (taken : List String) : List Path → List Path
  | [] => []
  | path :: rest =>
    if path.name ∈ taken then firstOfEachName taken rest
    else path :: firstOfEachName (path.name :: taken) rest

def childOrigins (source : Path) : Except Fault (List Path) := do
  let chain ← layers.referenceChain source
  return firstOfEachName [] (chain.flatMap layers.ownChildren)

/-- The prim whose children an instance shares. Inside prototypes only authored flags count. -/
def sharedSource (spec : PrimSpec) (place : Path) (inPrototype : Bool) : Option Path :=
  let instanceable :=
    if inPrototype then spec.instanceable
    else (layers.overrides.get? place).getD spec.instanceable
  if instanceable then spec.reference else none

end Layers

/-- The prims composed so far, each with the prototype it shares if it is an instance, and the
prototype root of each prim that instances share. -/
structure Composition where
  prims : OrderedMap Path (Option Path) := ∅
  prototypes : OrderedMap Path Path := ∅
deriving DecidableEq

namespace Composition

def addPrim (composition : Composition) (place : Path) (prototype : Option Path) : Composition :=
  { composition with prims := composition.prims.insert place prototype }

def addPrototype (composition : Composition) (source root : Path) : Composition :=
  { prims := composition.prims.insert root none
    prototypes := composition.prototypes.insert source root }

def nextPrototype (composition : Composition) : Except Fault Path :=
  (Path.root.child (prototypeNameStart ++ toString (composition.prototypes.size + 1))).mapError
    .refusedAppend

def eachChild (compose : Path → Path → Composition → Except Fault Composition)
    (sources : List Path) (place : Path) (composition : Composition) : Except Fault Composition :=
  sources.foldlM (fun composition source => do
    let below ← (place.child source.name).mapError .refusedAppend
    compose source below composition) composition

end Composition

namespace Layers

variable (layers : Layers)

/-- Composes the prim at `place` from an authored prim, with at most `room` levels of nesting. -/
def composeAt : Nat → Bool → Path → Path → Composition → Except Fault Composition
  | 0, _, _, place, _ => .error (.nestedTooDeep place)
  | room + 1, inPrototype, source, place, composition => do
    let spec ← layers.spec source
    match layers.sharedSource spec place inPrototype with
    | none =>
      let children ← layers.childOrigins source
      Composition.eachChild (composeAt room inPrototype) children place
        (composition.addPrim place none)
    | some shared =>
      match composition.prototypes.get? shared with
      | some root => return composition.addPrim place (some root)
      | none =>
        let _ ← layers.spec shared
        let root ← composition.nextPrototype
        let children ← layers.childOrigins shared
        let composition ← Composition.eachChild (composeAt room true) children root
          (composition.addPrototype shared root)
        return composition.addPrim place (some root)

def nestingLimit : Nat := 128

def rootPrims : List Path := layers.specs.keys.filter fun path => path.elementCount = 1

def composition : Except Fault Composition :=
  layers.rootPrims.foldlM
    (fun composition root => layers.composeAt (nestingLimit + 1) false root root composition) {}

end Layers

end SceneGraph
