import SceneGraph.Uninstancing

/-!
A record of what a stage is asked. The stage that keeps it answers as the one it stands for does, so
that an operation runs on both alike and the record tells which calls it made, in which order.
-/

namespace SceneGraph

inductive Access (Prim : Type)
  | lookedUp (path : Path) (answer : Option Prim)
  | dereferenced (prim : Prim) (answer : Option Prim)
  | edited (prim : Prim) (flag : Bool) (result : Except Fault Unit)

namespace Access

variable {Prim : Type}

def isDereference : Access Prim → Bool
  | dereferenced .. => true
  | _ => false

def isEdit : Access Prim → Bool
  | edited .. => true
  | _ => false

def isAcceptedEdit : Access Prim → Bool
  | edited _ _ (.ok _) => true
  | _ => false

end Access

structure Recorded (σ Prim : Type) where
  state : σ
  record : List (Access Prim) := []

variable {σ Prim : Type}

/-- The stage that answers as `stage` does and records each call. -/
def Stage.recording (stage : Stage σ Prim) : Stage (Recorded σ Prim) Prim where
  path := stage.path
  isInstance := stage.isInstance
  primAt? path recorded :=
    let (answer, state) := stage.primAt? path recorded.state
    (answer, ⟨state, recorded.record ++ [.lookedUp path answer]⟩)
  prototype? prim recorded :=
    let (answer, state) := stage.prototype? prim recorded.state
    (answer, ⟨state, recorded.record ++ [.dereferenced prim answer]⟩)

def EditableStage.recording (stage : EditableStage σ Prim) :
    EditableStage (Recorded σ Prim) Prim where
  path := stage.path
  isInstance := stage.isInstance
  primAt? path recorded :=
    let (answer, state) := stage.primAt? path recorded.state
    (answer, ⟨state, recorded.record ++ [.lookedUp path answer]⟩)
  prototype? prim recorded :=
    let (answer, state) := stage.prototype? prim recorded.state
    (answer, ⟨state, recorded.record ++ [.dereferenced prim answer]⟩)
  setInstanceable prim flag recorded :=
    let edited := stage.setInstanceable prim flag recorded.state
    ⟨edited.result, ⟨edited.state, recorded.record ++ [.edited prim flag edited.result]⟩,
      edited.events⟩

def Outcome.recorded {α : Type} (outcome : Outcome σ α) (record : List (Access Prim)) :
    Outcome (Recorded σ Prim) α :=
  ⟨outcome.result, ⟨outcome.state, record⟩, outcome.events⟩

section

variable {α : Type} (record : List (Access Prim))

@[simp] theorem Outcome.recorded_result (outcome : Outcome σ α) :
    (outcome.recorded record).result = outcome.result := rfl

@[simp] theorem Outcome.recorded_state (outcome : Outcome σ α) :
    (outcome.recorded record).state = ⟨outcome.state, record⟩ := rfl

@[simp] theorem Outcome.recorded_events (outcome : Outcome σ α) :
    (outcome.recorded record).events = outcome.events := rfl

@[simp] theorem Outcome.recorded_ok (value : α) (state : σ) :
    (Outcome.ok value state).recorded record = .ok value ⟨state, record⟩ := rfl

@[simp] theorem Outcome.recorded_error (fault : Fault) (state : σ) :
    (Outcome.error fault state : Outcome σ α).recorded record = .error fault ⟨state, record⟩ := rfl

@[simp] theorem Outcome.recorded_after (earlier : List Event) (outcome : Outcome σ α) :
    (outcome.after earlier).recorded record = (outcome.recorded record).after earlier := rfl

end

/-- Calls that change nothing, few of them for prototypes. -/
structure Reads (dereferences : Nat) (calls : List (Access Prim)) : Prop where
  unedited : ∀ call ∈ calls, call.isEdit = false
  few : calls.countP Access.isDereference ≤ dereferences

namespace Reads

variable {few more : Nat} {calls later : List (Access Prim)}

theorem nil : Reads 0 ([] : List (Access Prim)) := ⟨by simp, by simp⟩

theorem lookedUp (path : Path) (answer : Option Prim) : Reads 0 [.lookedUp path answer] :=
  ⟨by simp [Access.isEdit], by simp [Access.isDereference]⟩

theorem dereferenced (prim : Prim) (answer : Option Prim) : Reads 1 [.dereferenced prim answer] :=
  ⟨by simp [Access.isEdit], by simp [Access.isDereference]⟩

theorem append (reads : Reads few calls) (laterReads : Reads more later) :
    Reads (few + more) (calls ++ later) := by
  constructor
  · intro call member
    rcases List.mem_append.mp member with earlier | after
    · exact reads.unedited call earlier
    · exact laterReads.unedited call after
  · rw [List.countP_append]
    exact Nat.add_le_add reads.few laterReads.few

theorem mono (reads : Reads few calls) (bound : few ≤ more) : Reads more calls :=
  ⟨reads.unedited, Nat.le_trans reads.few bound⟩

end Reads

theorem EditableStage.recording_toStage (stage : EditableStage σ Prim) :
    stage.recording.toStage = stage.toStage.recording := rfl

theorem EditableStage.recording_setInstanceable (stage : EditableStage σ Prim) (prim : Prim)
    (flag : Bool) (recorded : Recorded σ Prim) :
    stage.recording.setInstanceable prim flag recorded =
      (stage.setInstanceable prim flag recorded.state).recorded (recorded.record ++
        [.edited prim flag (stage.setInstanceable prim flag recorded.state).result]) := rfl

namespace Stage

variable (stage : Stage σ Prim)

theorem recording_primAt? (path : Path) (recorded : Recorded σ Prim) :
    stage.recording.primAt? path recorded =
      ((stage.primAt? path recorded.state).1, ⟨(stage.primAt? path recorded.state).2,
        recorded.record ++ [.lookedUp path (stage.primAt? path recorded.state).1]⟩) := rfl

theorem recording_prototype? (prim : Prim) (recorded : Recorded σ Prim) :
    stage.recording.prototype? prim recorded =
      ((stage.prototype? prim recorded.state).1, ⟨(stage.prototype? prim recorded.state).2,
        recorded.record ++ [.dereferenced prim (stage.prototype? prim recorded.state).1]⟩) := rfl

theorem recording_isInstance : stage.recording.isInstance = stage.isInstance := rfl

theorem recording_path : stage.recording.path = stage.path := rfl

theorem firstExisting_recording (paths : List Path) (recorded : Recorded σ Prim) :
    ∃ calls, Reads 0 calls ∧
      stage.recording.firstExisting paths recorded =
        ((stage.firstExisting paths recorded.state).1,
          ⟨(stage.firstExisting paths recorded.state).2, recorded.record ++ calls⟩) ∧
      ∀ path prim, (stage.firstExisting paths recorded.state).1 = some (path, prim) →
        ∃ passed, passed ++ [path] <+: paths ∧
          calls = passed.map (.lookedUp · none) ++ [.lookedUp path (some prim)] := by
  induction paths generalizing recorded with
  | nil => exact ⟨[], Reads.nil, by simp [Stage.firstExisting], by simp [Stage.firstExisting]⟩
  | cons path rest ih =>
      rcases asked : stage.primAt? path recorded.state with ⟨answer, state⟩
      simp only [Stage.firstExisting, recording_primAt?, asked]
      cases answer with
      | some prim =>
          refine ⟨_, Reads.lookedUp path (some prim), rfl, ?_⟩
          rintro other found same
          cases same
          exact ⟨[], by simp, rfl⟩
      | none =>
          obtain ⟨calls, reads, ran, found⟩ :=
            ih ⟨state, recorded.record ++ [.lookedUp path none]⟩
          refine ⟨[.lookedUp path none] ++ calls, (Reads.lookedUp path none).append reads, ?_, ?_⟩
          · simpa using ran
          · intro other prim same
            obtain ⟨passed, within, rfl⟩ := found other prim same
            exact ⟨path :: passed, List.cons_prefix_cons.mpr ⟨rfl, within⟩, rfl⟩

theorem nearestAncestor?_recording (path : Path) (recorded : Recorded σ Prim) :
    ∃ calls, Reads 0 calls ∧
      stage.recording.nearestAncestor? path recorded =
        ((stage.nearestAncestor? path recorded.state).1,
          ⟨(stage.nearestAncestor? path recorded.state).2, recorded.record ++ calls⟩) ∧
      ∀ found prim, (stage.nearestAncestor? path recorded.state).1 = some (found, prim) →
        found.isPrimPath = true ∧ ∃ passed, passed ++ [found] <+: path.ancestors ∧
          calls = passed.map (.lookedUp · none) ++ [.lookedUp found (some prim)] := by
  obtain ⟨calls, reads, ran, found⟩ := stage.firstExisting_recording path.ancestors recorded
  refine ⟨calls, reads, ?_⟩
  simp only [Stage.nearestAncestor?, ran]
  rcases first : stage.firstExisting path.ancestors recorded.state with ⟨_ | ⟨above, prim⟩, state⟩
  · exact ⟨rfl, nofun⟩
  cases isPrim : above.isPrimPath with
  | false => exact ⟨by simp [isPrim], by simp [isPrim]⟩
  | true =>
      refine ⟨by simp [isPrim], ?_⟩
      intro other handle same
      obtain ⟨rfl, rfl⟩ : above = other ∧ prim = handle := by simpa [isPrim] using same
      exact ⟨isPrim, found above prim (by rw [first])⟩

end Stage

end SceneGraph
