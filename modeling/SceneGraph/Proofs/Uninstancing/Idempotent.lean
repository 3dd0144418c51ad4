import SceneGraph.Proofs.Uninstancing.Discipline
import SceneGraph.Proofs.Uninstancing.Rounds

/-!
Uninstancing a path again. The last round of a call only looks at the stage, and on a stage that no
look-up changes it leaves the same sight to the first round of the next call.
-/

namespace SceneGraph

namespace EditableStage

variable {σ Prim : Type} {stage : EditableStage σ Prim} {path : Path} {options : ForwardingOptions}
  {state : σ} {answer : Option Prim}

theorem sight_state (settled : stage.Settled) (path : Path) (options : ForwardingOptions)
    (state : σ) : (stage.sight path options state).state = state := by
  have nearest := Stage.nearestAncestor?_state settled path state
  rw [sight, settled.primAt?]
  cases (stage.primAt? path state).1 with
  | some prim => rfl
  | none =>
      dsimp only
      rw [Stage.resolve_state settled]
      cases (stage.resolve path options state).result with
      | error fault => rfl
      | ok found =>
          cases found with
          | none => rfl
          | some target =>
              generalize stage.nearestAncestor? path state = above at nearest ⊢
              obtain ⟨_ | ⟨found, ancestor⟩, after⟩ := above
              · exact nearest
              · dsimp only [Outcome.after_state]
                split
                · exact nearest
                · exact nearest

theorem sight_of_reveal (settled : stage.Settled) {remaining : Nat}
    (ended : (stage.reveal path options remaining state).result = .ok answer) :
    (stage.sight path options (stage.reveal path options remaining state).state).result =
      .ok (.answer answer) := by
  induction remaining using Nat.strongRecOn generalizing state with
  | ind remaining ih =>
      have kept := sight_state settled path options state
      rw [reveal_eq_sight] at ended ⊢
      rcases sighted : stage.sight path options state with
        ⟨fault | (found | ⟨above, prim⟩), after, events⟩
      · rw [sighted] at ended
        cases ended
      · rw [sighted] at ended kept
        obtain rfl : after = state := kept
        cases ended
        exact congrArg Outcome.result sighted
      cases remaining with
      | zero =>
          rw [sighted] at ended
          cases ended
      | succ remaining =>
          rw [sighted] at ended
          dsimp only at ended ⊢
          rcases edited : stage.setInstanceable prim false after with ⟨fault | _, cleared, reports⟩
          · rw [edited] at ended
            cases ended
          · rw [edited] at ended
            exact ih remaining (Nat.lt_succ_self _) ended

theorem reveal_of_sight (sighted : (stage.sight path options state).result = .ok (.answer answer))
    (remaining : Nat) : stage.reveal path options remaining state =
      (Outcome.ok answer (stage.sight path options state).state).after
        (stage.sight path options state).events := by
  rw [reveal_eq_sight]
  simp [sighted]

/-- A call that has an answer leaves a stage on which the same call, made again, has that answer at
once: it clears nothing and changes nothing. -/
theorem uninstance_idempotent (settled : stage.Settled)
    (ended : (stage.uninstance path options state).result = .ok answer) :
    let later := (stage.uninstance path options state).state
    (stage.uninstance path options later).result = .ok answer ∧
      (stage.uninstance path options later).state = later ∧
      ∃ record, stage.recording.uninstance path options ⟨later, []⟩ =
          (stage.uninstance path options later).recorded record ∧
        ∀ call ∈ record, call.isEdit = false := by
  intro later
  have valid : options.validate = .ok () := by
    cases validated : options.validate with
    | ok _ => rfl
    | error fault =>
        rw [uninstance, validated] at ended
        cases ended
  have revealed : (stage.reveal path options options.maxDepth state).state = later := by
    simp only [later, uninstance, valid]
    rfl
  have sighted : (stage.sight path options later).result = .ok (.answer answer) := by
    rw [uninstance, valid] at ended
    rw [← revealed]
    exact sight_of_reveal settled ended
  have kept := sight_state settled path options later
  obtain ⟨record, reads, ran, _⟩ := stage.sight_recording path options ⟨later, []⟩
  have recorded : (stage.recording.sight path options ⟨later, []⟩).result =
      .ok (.answer answer) := by
    rw [ran]
    exact sighted
  simp only [uninstance, valid, reveal_of_sight sighted, reveal_of_sight recorded]
  refine ⟨rfl, kept, record, ?_, reads.unedited⟩
  rw [ran]
  rfl

end EditableStage

namespace Scene

theorem uninstance_idempotent_nested :
    let inner : Name := ⟨"inner", by decide⟩
    let path := Path.absolute [⟨"Shelf", by decide⟩, inner, inner]
    let scene := (load nestedDoll).state
    let first := stage.uninstance path ⟨2⟩ scene
    let again := stage.uninstance path ⟨2⟩ first.state
    stage.Settled ∧
      first.result = .ok (some ⟨path, some (.absolute [⟨"__Prototype_1", by decide⟩])⟩) ∧
      first.state.instancingEdits = 2 ∧ again.result = first.result ∧ again.state = first.state ∧
      ∃ record, stage.recording.uninstance path ⟨2⟩ ⟨first.state, []⟩ = again.recorded record ∧
        ∀ call ∈ record, call.isEdit = false := by
  intro inner path scene first again
  have ended : first.result =
      .ok (some ⟨path, some (.absolute [⟨"__Prototype_1", by decide⟩])⟩) := by decide +kernel
  obtain ⟨result, state, recorded⟩ := EditableStage.uninstance_idempotent stage_settled ended
  exact ⟨stage_settled, ended, by decide +kernel, result.trans ended.symm, state, recorded⟩

end Scene

end SceneGraph
