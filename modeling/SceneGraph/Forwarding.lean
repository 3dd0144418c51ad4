import SceneGraph.Forwarding.Options
import SceneGraph.Stage

/-!
Resolving paths through instances. The prims below an instance exist only once, below the prototype
it shares; a path that goes through an instance is forwarded to the corresponding place there, as
often as instances are nested. A path that leads nowhere is an answer, not a fault.
-/

namespace SceneGraph

namespace Stage

variable {σ Prim : Type} (stage : Stage σ Prim)

def firstExisting : List Path → σ → Option (Path × Prim) × σ
  | [], state => (none, state)
  | path :: rest, state =>
    match stage.primAt? path state with
    | (some prim, state) => (some (path, prim), state)
    | (none, state) => firstExisting rest state

def nearestAncestor? (path : Path) (state : σ) : Option (Path × Prim) × σ :=
  match stage.firstExisting path.ancestors state with
  | (some (found, prim), state) =>
    if found.isPrimPath then (some (found, prim), state) else (none, state)
  | (none, state) => (none, state)

/-- Where a missing path continues, if its nearest existing ancestor is an instance. -/
def forwardedTarget (target : Path) (state : σ) : Except Fault (Option Path) × σ :=
  match stage.nearestAncestor? target state with
  | (none, state) => (.ok none, state)
  | (some (found, prim), state) =>
    if !stage.isInstance prim then (.ok none, state)
    else
      let reported := stage.path prim
      match target.relativeTo? reported with
      | none => (.error (.foreignPrim found reported target), state)
      | some suffix =>
        match stage.prototype? prim state with
        | (none, state) => (.error (.missingPrototype found), state)
        | (some prototype, state) =>
          match (stage.path prototype).append? suffix with
          | none => (.error (.unmappable suffix (stage.path prototype)), state)
          | some next => (.ok (some next), state)

def settle (path : Path) (limit : Nat) : Nat → Path → σ → Outcome σ (Option Prim)
  | remaining, target, state =>
    match stage.primAt? target state with
    | (some prim, state) => .ok (some prim) state
    | (none, state) =>
      match stage.forwardedTarget target state with
      | (.error fault, state) => .error fault state
      | (.ok none, state) => .ok none state
      | (.ok (some next), state) =>
        match remaining with
        | 0 => .error (.unsettledForwarding path limit) state
        | remaining + 1 =>
          (settle path limit remaining next state).after
            [.forwarded (limit - remaining) target next]

/-- The prim at a path, or the one that stands for it inside a prototype. -/
def resolve (path : Path) (options : ForwardingOptions) (state : σ) : Outcome σ (Option Prim) :=
  Outcome.after [.resolving path options.maxDepth] <|
    match options.validate with
    | .error fault => .error fault state
    | .ok () => stage.settle path options.maxDepth options.maxDepth path state

end Stage

end SceneGraph
