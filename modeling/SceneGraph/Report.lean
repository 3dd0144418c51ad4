import SceneGraph.Path.Text

/-!
What a running operation tells its observers: the activities it enters and the notes it makes.
-/

namespace SceneGraph

inductive Level
  | debug
  | info
  | warn
  | error
deriving DecidableEq, Repr

def Level.name : Level → String
  | .debug => "DEBUG"
  | .info => "INFO"
  | .warn => "WARN"
  | .error => "ERROR"

inductive Datum
  | text (value : String)
  | count (value : Nat)
deriving DecidableEq, Repr

inductive Report
  | entered (activity : String) (fields : List (String × Datum))
  | noted (level : Level) (message : String) (fields : List (String × Datum))
deriving DecidableEq, Repr

inductive Event
  | resolving (path : Path) (limit : Nat)
  | forwarded (hop : Nat) (source target : Path)
  | uninstancing (path : Path) (limit : Nat)
  | cleared (ancestor : Path) (layer : Nat)
  | recomposed (specs prims : Nat)
deriving DecidableEq

def Event.report : Event → Report
  | .resolving path limit => .entered "resolve_prim_with_forwarding_opts"
      [("path", .text path.render), ("max_depth", .count limit)]
  | .forwarded hop source target => .noted .debug "forwarded through instance"
      [("hop", .count hop), ("from", .text source.render), ("to", .text target.render)]
  | .uninstancing path limit => .entered "uninstance_prim_at_path_opts"
      [("path", .text path.render), ("max_depth", .count limit)]
  | .cleared ancestor layer => .noted .info "cleared instanceable flag"
      [("ancestor", .text ancestor.render), ("layer", .count layer)]
  | .recomposed specs prims => .noted .debug "recomposed memory stage"
      [("specs", .count specs), ("prims", .count prims)]

end SceneGraph
