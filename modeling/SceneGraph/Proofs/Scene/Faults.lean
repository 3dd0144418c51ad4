import SceneGraph.Proofs.Scene.References

/-!
What authoring and composing can fail with: always a fault of what is asked for, never one that
would mean that the scene itself is broken.
-/

namespace SceneGraph

namespace SpecMap

theorem kind_of_author {specs : SpecMap} {path : Path} {fault : Fault}
    (failed : specs.author path = .error fault) : fault.kind = .validation := by
  rw [author] at failed
  split at failed
  next =>
    cases failed
    rfl
  next =>
    split at failed
    next =>
      cases failed
      rfl
    next => cases failed

theorem kind_of_amend {specs : SpecMap} {path : Path} {change : PrimSpec → PrimSpec}
    {fault : Fault} (failed : specs.amend path change = .error fault) :
    fault.kind = .validation := by
  rcases bind_eq_error.mp failed with refused | ⟨_, _, impossible⟩
  · exact kind_of_author refused
  · cases impossible

end SpecMap

namespace Layers

variable {layers : Layers}

theorem kind_of_spec {path : Path} {fault : Fault} (failed : layers.spec path = .error fault) :
    fault.kind = .validation := by
  obtain ⟨_, rfl⟩ := spec_eq_error.mp failed
  rfl

theorem kind_of_childOrigins {source : Path} {fault : Fault}
    (failed : layers.childOrigins source = .error fault) : fault.kind = .validation := by
  rcases bind_eq_error.mp failed with chain | ⟨_, _, impossible⟩
  · obtain ⟨_, _, _, rfl⟩ := missing_of_referenceChainFrom chain
    rfl
  · cases impossible

theorem kind_of_eachChild {compose : Path → Path → Composition → Except Fault Composition}
    {fault : Fault} (kinds : ∀ {source place first}, compose source place first = .error fault →
      fault.kind = .validation)
    {sources : List Path} {place : Path} {first : Composition}
    (failed : Composition.eachChild compose sources place first = .error fault) :
    fault.kind = .validation := by
  obtain ⟨source, _, _, here⟩ := foldlM_eq_error failed
  rcases bind_eq_error.mp here with refused | ⟨_, _, below⟩
  · obtain ⟨_, _, rfl⟩ := mapError_eq_error.mp refused
    rfl
  · exact kinds below

theorem kind_of_composeAt {room : Nat} {inPrototype : Bool} {source place : Path}
    {first : Composition} {fault : Fault}
    (failed : layers.composeAt room inPrototype source place first = .error fault) :
    fault.kind = .validation := by
  induction room generalizing inPrototype source place first with
  | zero =>
      cases failed
      rfl
  | succ room ih =>
      rw [composeAt] at failed
      rcases bind_eq_error.mp failed with missing | ⟨spec, _, failed⟩
      · exact kind_of_spec missing
      split at failed
      next =>
        rcases bind_eq_error.mp failed with missing | ⟨_, _, below⟩
        · exact kind_of_childOrigins missing
        · exact kind_of_eachChild ih below
      next =>
        split at failed
        next => cases failed
        next =>
          rcases bind_eq_error.mp failed with missing | ⟨_, _, failed⟩
          · exact kind_of_spec missing
          rcases bind_eq_error.mp failed with refused | ⟨_, _, failed⟩
          · obtain ⟨_, _, rfl⟩ := mapError_eq_error.mp refused
            rfl
          rcases bind_eq_error.mp failed with missing | ⟨_, _, failed⟩
          · exact kind_of_childOrigins missing
          rcases bind_eq_error.mp failed with below | ⟨_, _, impossible⟩
          · exact kind_of_eachChild ih below
          · cases impossible

theorem kind_of_composition {fault : Fault} (failed : layers.composition = .error fault) :
    fault.kind = .validation := by
  obtain ⟨root, _, _, here⟩ := foldlM_eq_error failed
  exact kind_of_composeAt here

end Layers

end SceneGraph
