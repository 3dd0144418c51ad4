import SceneGraph.Proofs.Forwarding.Crossings
import SceneGraph.Proofs.Uninstancing.Rounds

/-!
How a limit on forwarding decides what resolving reports. Every path settles after a number of hops
that the scene alone determines, one for each instance that the path goes through, and a limit below
that number makes resolving report the scene as inconsistent, sound as it is.
-/

namespace SceneGraph.Scene

variable {scene : Scene}

/-- In every scene that calls lead to, each path settles after a number of hops, at most the number
of its names and, outside prototypes, the number of prims above it that are instances. Resolving
reports the scene as inconsistent exactly if the limit is lower, which with the default limit is
after more than 64 hops, and else the answer does not depend on the limit. -/
theorem reachable_resolve_limit (reachable : Reachable scene) (path : Path) :
    ∃ hops answer, hops ≤ path.elementCount ∧
      (path.isReserved = false → hops = scene.layers.crossings path) ∧
      (∀ options : ForwardingOptions, 0 < options.maxDepth →
        (stage.resolve path options scene).result =
          if hops ≤ options.maxDepth then .ok answer
          else .error (.unsettledForwarding path options.maxDepth)) ∧
      ((∃ fault, (stage.resolve path {} scene).result = .error fault ∧ fault.kind = .consistency) ↔
        64 < hops) := by
  have sound := reachable.sound
  obtain ⟨hops, answer, bound, settles⟩ := sound.settles path
  refine ⟨hops, answer, Nat.le_trans bound path.hopBound_le, ?_, ?_, ?_⟩
  · intro unreserved
    obtain ⟨_, crossing, _⟩ := sound.settles_crossings unreserved
    exact (settles.unique crossing).1
  · intro options positive
    exact settles.resolve_eq positive
  · rw [settles.resolve_eq (by decide)]
    by_cases within : hops ≤ 64
    · simp [within]
    · simp [within, Fault.kind, Nat.lt_of_not_le within]

theorem reachable_resolve_limit_nested :
    let inner : Name := ⟨"inner", by decide⟩
    let shelf : Name := ⟨"Shelf", by decide⟩
    let path := Path.absolute [shelf, inner, inner, inner]
    let scene := (load nestedDoll).state
    scene.layers.crossings path = 3 ∧
      (stage.resolve path ⟨2⟩ scene).result = .error (.unsettledForwarding path 2) ∧
      ∃ answer, (stage.resolve path ⟨3⟩ scene).result = .ok answer ∧
        (stage.resolve path {} scene).result = .ok answer := by
  intro inner shelf path scene
  have loads : (load nestedDoll).result = .ok () := by decide +kernel
  have crossed : scene.layers.crossings path = 3 := by decide +kernel
  obtain ⟨hops, answer, _, closed, resolved, _⟩ :=
    reachable_resolve_limit (Reachable.load loads) path
  obtain rfl : hops = 3 := (closed (by decide +kernel)).trans crossed
  exact ⟨crossed, resolved ⟨2⟩ (by decide), answer, resolved ⟨3⟩ (by decide),
    resolved {} (by decide)⟩

theorem nestedDoll_unsettled :
    let inner : Name := ⟨"inner", by decide⟩
    let shelf : Name := ⟨"Shelf", by decide⟩
    let path := Path.absolute (shelf :: List.replicate 65 inner)
    let fault := Fault.unsettledForwarding path 64
    Reachable (load nestedDoll).state ∧
      (stage.resolve path {} (load nestedDoll).state).result = .error fault ∧
      fault.kind = .consistency := by
  intro inner shelf path fault
  have loads : (load nestedDoll).result = .ok () := by decide +kernel
  have reachable := Reachable.load loads
  have crossed : (load nestedDoll).state.layers.crossings path = 65 :=
    (Layers.crossings_absolute (by decide +kernel) _).trans (by decide +kernel)
  have unreserved : path.isReserved = false := by decide +kernel
  obtain ⟨answer, settles, _⟩ := reachable.sound.settles_crossings unreserved
  rw [crossed] at settles
  exact ⟨reachable, settles.resolve_eq (by decide), rfl⟩

end SceneGraph.Scene
