import SceneGraph.Fault
import SceneGraph.Report

/-!
What forwarding needs to know about a scene graph: prims by path, which of them are instances, and
the prototype an instance shares. A stage is given by its operations on a type `σ` of states; a
look-up may leave another state behind, so that nothing is assumed about stages that change under
their readers.
-/

namespace SceneGraph

structure Stage (σ Prim : Type) where
  path : Prim → Path
  isInstance : Prim → Bool
  primAt? : Path → σ → Option Prim × σ
  prototype? : Prim → σ → Option Prim × σ

structure Outcome (σ α : Type) where
  result : Except Fault α
  state : σ
  events : List Event

namespace Outcome

variable {σ α : Type}

def ok (value : α) (state : σ) : Outcome σ α := ⟨.ok value, state, []⟩

def error (fault : Fault) (state : σ) : Outcome σ α := ⟨.error fault, state, []⟩

def after (earlier : List Event) (outcome : Outcome σ α) : Outcome σ α :=
  { outcome with events := earlier ++ outcome.events }

@[simp] theorem ok_result (value : α) (state : σ) : (ok value state).result = .ok value := rfl

@[simp] theorem ok_state (value : α) (state : σ) : (ok value state).state = state := rfl

@[simp] theorem ok_events (value : α) (state : σ) : (ok value state).events = [] := rfl

variable (fault : Fault) (earlier later : List Event) (outcome : Outcome σ α)

@[simp] theorem error_result (state : σ) :
    (error fault state : Outcome σ α).result = .error fault := rfl

@[simp] theorem error_state (state : σ) : (error fault state : Outcome σ α).state = state := rfl

@[simp] theorem error_events (state : σ) : (error fault state : Outcome σ α).events = [] := rfl

@[simp] theorem after_result : (outcome.after earlier).result = outcome.result := rfl

@[simp] theorem after_state : (outcome.after earlier).state = outcome.state := rfl

@[simp] theorem after_events : (outcome.after earlier).events = earlier ++ outcome.events := rfl

@[simp] theorem after_nil : outcome.after [] = outcome := rfl

@[simp] theorem after_after :
    (outcome.after later).after earlier = outcome.after (earlier ++ later) := by
  rw [after, after, after, List.append_assoc]

end Outcome

structure EditableStage (σ Prim : Type) extends Stage σ Prim where
  setInstanceable : Prim → Bool → σ → Outcome σ Unit

/-- Looking a prim up does not change the stage. -/
def Stage.Settled {σ Prim : Type} (stage : Stage σ Prim) : Prop :=
  (∀ path state, (stage.primAt? path state).2 = state) ∧
    ∀ prim state, (stage.prototype? prim state).2 = state

end SceneGraph
