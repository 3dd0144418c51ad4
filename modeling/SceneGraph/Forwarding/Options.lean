import SceneGraph.Fault
import SceneGraph.Json

/-! How far one call may go. -/

namespace SceneGraph

/-- At most `maxDepth` instances are forwarded through, or cleared, by one call. -/
structure ForwardingOptions where
  maxDepth : Nat := 64
deriving DecidableEq, Repr

namespace ForwardingOptions

def validate (options : ForwardingOptions) : Except Fault Unit :=
  if options.maxDepth = 0 then .error .zeroLimit else .ok ()

def toJson (options : ForwardingOptions) : Json :=
  .object [("max_depth", .ofNat options.maxDepth)]

def ofJson? (json : Json) : Option ForwardingOptions := do
  let record ← json.asRecord? ["max_depth"]
  let maxDepth ← Json.optional record "max_depth" 64 Json.asCount?
  return { maxDepth }

end ForwardingOptions

end SceneGraph
