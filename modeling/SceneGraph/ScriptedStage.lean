import SceneGraph.Uninstancing
import SceneGraph.OrderedMap

/-!
Stages that answer from a script. What is found at a path may change from one look-up to the next
and after every edit, so such a stage can contradict itself in every way a stage can.
-/

namespace SceneGraph.ScriptedStage

inductive PrototypeSource
  | found (path : Path)
  | plain (path : Path)
deriving DecidableEq

structure Prim where
  path : Path
  isInstance : Bool
  prototype : Option PrototypeSource := none
deriving DecidableEq

/-- The answers to the look-ups at one path, in turn; the last one stays. -/
structure Answers where
  answers : List (Option Prim)
  lookups : Nat := 0
deriving DecidableEq

def Answers.next (known : Answers) : Option Prim × Answers :=
  ((known.answers[min known.lookups (known.answers.length - 1)]?).join,
    { known with lookups := known.lookups + 1 })

structure Entry where
  path : Path
  answers : List (Option Prim)
deriving DecidableEq

structure State where
  prims : OrderedMap Path Answers := ∅
  changes : List (List Entry) := []
  acceptedEdits : Option Nat := none
  edits : List (Path × Bool) := []
deriving DecidableEq

namespace State

def withEntries (state : State) (entries : List Entry) : State :=
  { state with
    prims := entries.foldl (fun prims entry => prims.insert entry.path ⟨entry.answers, 0⟩)
      state.prims }

def primAt? (path : Path) (state : State) : Option Prim × State :=
  match state.prims.get? path with
  | none => (none, state)
  | some known =>
    let (answer, known) := known.next
    (answer, { state with prims := state.prims.insert path known })

def prototype? (prim : Prim) (state : State) : Option Prim × State :=
  match prim.prototype with
  | none => (none, state)
  | some (.found path) => state.primAt? path
  | some (.plain path) => (some ⟨path, false, none⟩, state)

def setInstanceable (prim : Prim) (flag : Bool) (state : State) : Outcome State Unit :=
  let accepted := state.edits.length
  if state.acceptedEdits.any (· ≤ accepted) then .error (.readOnly prim.path) state
  else
    .ok () ({ state with edits := state.edits ++ [(prim.path, flag)] }.withEntries
      (state.changes[accepted]?.getD []))

end State

def stage : EditableStage State Prim where
  path := Prim.path
  isInstance := Prim.isInstance
  primAt? := State.primAt?
  prototype? := State.prototype?
  setInstanceable := State.setInstanceable

end SceneGraph.ScriptedStage
