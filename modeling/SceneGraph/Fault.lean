import SceneGraph.Path.Splice

/-!
What can go wrong with a scene: a request that makes no sense or is refused, a stage whose answers
contradict each other, and a definition that cannot be read.
-/

namespace SceneGraph

inductive FaultKind
  | validation
  | consistency
  | serialization
  | other
deriving DecidableEq, Repr

def FaultKind.describe (kind : FaultKind) (detail : String) : String :=
  match kind with
  | .validation => "validation error: " ++ detail
  | .consistency => "consistency error: " ++ detail
  | .serialization => "serialization error: " ++ detail
  | .other => detail

def FaultKind.isConsistency (kind : FaultKind) : Bool := kind == .consistency

inductive Fault
  | unparsable (cause : Path.ParseError)
  | refusedAppend (cause : Path.AppendError)
  | zeroLimit
  | specNotAtPrim (path : Path)
  | reservedName (path : Path)
  | targetNotPrim (target : Path)
  | undefinedReference (path : Path)
  | nestedTooDeep (path : Path)
  | missingPrim (path : Path)
  | insidePrototype (path : Path)
  | readOnly (path : Path)
  | foreignPrim (found reported target : Path)
  | missingPrototype (path : Path)
  | unmappable (suffix prototype : Path)
  | unsettledForwarding (path : Path) (limit : Nat)
  | hiddenByPrim (path ancestor : Path)
  | unsettledClearing (path : Path) (cleared : Nat)
  | unreadable (cause : Option Path.ParseError)
  /-- What a stage is built on has failed, and says so in its own words. -/
  | wrapped (message : String)
deriving DecidableEq

namespace Fault

/-- A fault of consistency means that the stage itself is broken. -/
def kind : Fault → FaultKind
  | foreignPrim .. | missingPrototype .. | unmappable .. | unsettledForwarding ..
  | hiddenByPrim .. | unsettledClearing .. => .consistency
  | unreadable .. => .serialization
  | wrapped _ => .other
  | _ => .validation

def detail : Fault → String
  | unparsable cause => cause.message
  | refusedAppend cause => cause.message
  | zeroLimit => "forwarding max_depth must be > 0"
  | specNotAtPrim path => s!"prim spec path '{path}' must be an absolute prim path"
  | reservedName path => s!"prim spec path '{path}' uses the reserved prototype namespace"
  | targetNotPrim target => s!"reference target '{target}' must be an absolute prim path"
  | undefinedReference path => s!"referenced prim '{path}' is not defined"
  | nestedTooDeep path =>
    s!"composing '{path}' exceeds the nesting limit; check for reference cycles"
  | missingPrim path => s!"prim '{path}' does not exist on this stage"
  | insidePrototype path => s!"cannot edit prim '{path}' inside a prototype"
  | readOnly path => s!"stage is read-only, cannot edit '{path}'"
  | foreignPrim found reported target =>
    s!"prim found at '{found}' reports path '{reported}', which does not prefix '{target}'"
  | missingPrototype path => s!"instance '{path}' has no prototype"
  | unmappable suffix prototype => s!"cannot map '{suffix}' into prototype '{prototype}'"
  | unsettledForwarding path limit =>
    s!"forwarding '{path}' did not settle within {limit} instance layers"
  | hiddenByPrim path ancestor =>
    s!"'{path}' resolves through forwarding but its nearest ancestor '{ancestor}' is not an instance"
  | unsettledClearing path cleared =>
    s!"uninstancing '{path}' did not settle after clearing {cleared} instance layers"
  | unreadable none => "the stage definition is not readable"
  | unreadable (some cause) => FaultKind.validation.describe cause.message
  | wrapped message => message

def message (fault : Fault) : String := fault.kind.describe fault.detail

end Fault

end SceneGraph
