import SceneGraph.Forwarding

/-!
Making a path addressable: the instances that hide it are turned into plain prims, outermost first,
until a prim exists at the path itself. Edits stay even if a later round fails.
-/

namespace SceneGraph.EditableStage

variable {σ Prim : Type} (stage : EditableStage σ Prim)

def reveal (path : Path) (options : ForwardingOptions) : Nat → σ → Outcome σ (Option Prim)
  | remaining, state =>
    match stage.primAt? path state with
    | (some prim, state) => .ok (some prim) state
    | (none, state) =>
      let resolved := stage.resolve path options state
      Outcome.after resolved.events <|
        match resolved.result with
        | .error fault => .error fault resolved.state
        | .ok none => .ok none resolved.state
        | .ok (some _) =>
          match stage.nearestAncestor? path resolved.state with
          | (none, state) => .ok none state
          | (some (found, ancestor), state) =>
            if !stage.isInstance ancestor then .error (.hiddenByPrim path found) state
            else
              match remaining with
              | 0 => .error (.unsettledClearing path options.maxDepth) state
              | remaining + 1 =>
                let edited := stage.setInstanceable ancestor false state
                Outcome.after edited.events <|
                  match edited.result with
                  | .error fault => .error fault edited.state
                  | .ok () =>
                    (reveal path options remaining edited.state).after
                      [.cleared found (options.maxDepth - remaining)]

def uninstance (path : Path) (options : ForwardingOptions) (state : σ) :
    Outcome σ (Option Prim) :=
  Outcome.after [.uninstancing path options.maxDepth] <|
    match options.validate with
    | .error fault => .error fault state
    | .ok () => stage.reveal path options options.maxDepth state

end SceneGraph.EditableStage
