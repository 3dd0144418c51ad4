import SceneGraph.Proofs.Forwarding.Hops
import SceneGraph.Proofs.Scene.Addressed
import SceneGraph.Proofs.Scene.Edits
import SceneGraph.Proofs.Uninstancing.Reveals

/-!
The rounds of uninstancing: each clears an instance deeper than all before, so that they come to an
end before the limit, and the scene is never found to contradict itself.
-/

namespace SceneGraph

namespace Scene

variable {scene : Scene} {path : Path} {options : ForwardingOptions}

theorem reveal_found {value : Option Path} (found : scene.prims.get? path = some value)
    (remaining : Nat) :
    (stage.reveal path options remaining scene).result = .ok (some ⟨path, value⟩) := by
  have here : (stage.primAt? path scene).1 = some ⟨path, value⟩ := by
    simp [stage, primAt?, found]
  rw [EditableStage.reveal_eq stage_settled, here]
  rfl

theorem reveal_lost (absent : scene.prims.get? path = none)
    (lost : (stage.resolve path options scene).result = .ok none) (remaining : Nat) :
    (stage.reveal path options remaining scene).result = .ok none ∧
      (stage.reveal path options remaining scene).state = scene := by
  have missing : (stage.primAt? path scene).1 = none := by simp [stage, primAt?, absent]
  rw [EditableStage.reveal_eq stage_settled, missing, lost]
  exact ⟨rfl, rfl⟩

theorem uninstance_eq_reveal (scene : Scene) (path : Path) (positive : 0 < options.maxDepth) :
    (stage.uninstance path options scene).result =
        (stage.reveal path options options.maxDepth scene).result ∧
      (stage.uninstance path options scene).state =
        (stage.reveal path options options.maxDepth scene).state := by
  have valid : options.validate = .ok () := if_neg (by omega)
  rw [EditableStage.uninstance, valid]
  exact ⟨rfl, rfl⟩

theorem reveal_clears (sound : scene.Sound) {names rest : List Name} {root : Path}
    (below : scene.Below names rest path)
    (present : scene.prims.get? (.absolute names) = some (some root)) {found : Prim}
    (resolved : (stage.resolve path options scene).result = .ok (some found)) (remaining : Nat) :
    (∃ fault, (scene.setInstanceable ⟨.absolute names, some root⟩ false).result = .error fault ∧
      (stage.reveal path options (remaining + 1) scene).result = .error fault) ∨
    (scene.setInstanceable ⟨.absolute names, some root⟩ false).result = .ok () ∧
      (stage.reveal path options (remaining + 1) scene).result =
        (stage.reveal path options remaining
          (scene.setInstanceable ⟨.absolute names, some root⟩ false).state).result ∧
      (stage.reveal path options (remaining + 1) scene).state =
        (stage.reveal path options remaining
          (scene.setInstanceable ⟨.absolute names, some root⟩ false).state).state := by
  have missing : (stage.primAt? path scene).1 = none := by
    simp [stage, primAt?, below.absent sound]
  have clears : stage.setInstanceable = Scene.setInstanceable := rfl
  have hidden : (!stage.isInstance ⟨.absolute names, some root⟩) = false := rfl
  rw [EditableStage.reveal_eq stage_settled, missing, resolved,
    nearestAncestor?_below below present]
  simp only [hidden, clears]
  generalize scene.setInstanceable ⟨.absolute names, some root⟩ false = edited
  obtain ⟨result, state, events⟩ := edited
  cases result with
  | error fault => exact Or.inl ⟨fault, rfl, rfl⟩
  | ok _ => exact Or.inr ⟨rfl, rfl, rfl⟩

theorem Sound.cleared_plain (sound : scene.Sound) {names : List Name} {root : Path}
    (found : scene.prims.get? (.absolute names) = some (some root))
    (cleared : (scene.setInstanceable ⟨.absolute names, some root⟩ false).result = .ok ()) :
    (scene.setInstanceable ⟨.absolute names, some root⟩ false).state.prims.get?
      (.absolute names) = some none := by
  have laterSound := sound.setInstanceable ⟨.absolute names, some root⟩ false
  rcases scene.setInstanceable_cases ⟨.absolute names, some root⟩ false with
    ⟨_, failed, _⟩ | ⟨composition, count, _, same, _, unreserved, _⟩
  · rw [failed] at cleared
    cases cleared
  · obtain ⟨_, formerRules⟩ := sound.rules
    obtain ⟨source, placed⟩ := sound.placed_outside formerRules unreserved
      (OrderedMap.contains_iff.mpr ⟨_, found⟩)
    obtain ⟨prototypes, rules⟩ := laterSound.rules
    rw [same] at rules ⊢
    have laterPlaced := placed.clear prototypes.get? names rfl
    have unshared : (scene.layers.clear names).sharedAt ⟨names, source, false⟩ = none :=
      Layers.sharedAt_clear names source
    exact rules.prim_host (laterPlaced.stands.plain unshared)

def PlainTo (scene : Scene) (path : Path) (depth : Nat) : Prop :=
  ∀ names, names ≠ [] → names <+: path.elements → names.length ≤ depth →
    scene.prims.get? (.absolute names) = some none

theorem Sound.plainTo (sound : scene.Sound) {names : List Name} (within : names <+: path.elements)
    (plain : scene.prims.get? (.absolute names) = some none) :
    scene.PlainTo path names.length := by
  intro shorter named shorterWithin bound
  have shortened := List.prefix_of_prefix_length_le shorterWithin within bound
  by_cases here : shorter = names
  · rwa [here]
  · exact sound.on_the_way named (OrderedMap.contains_iff.mpr ⟨none, plain⟩) shortened here

theorem Sound.hidden_by_instance (sound : scene.Sound) (positive : 0 < options.maxDepth)
    (absent : scene.prims.get? path = none) {found : Prim}
    (resolved : (stage.resolve path options scene).result = .ok (some found)) :
    ∃ names rest root, scene.Below names rest path ∧
      scene.prims.get? (.absolute names) = some (some root) := by
  rcases sound.nearest absent with nothing | ⟨names, rest, value, below, present⟩
  · rw [(settles_nowhere absent nothing).resolve_eq positive, if_pos (Nat.zero_le _)] at resolved
    cases resolved
  · cases value with
    | none =>
        rw [(settles_plain sound below present).resolve_eq positive,
          if_pos (Nat.zero_le _)] at resolved
        cases resolved
    | some root => exact ⟨names, rest, root, below, present⟩

theorem Sound.reveal_round (sound : scene.Sound)
    (room : max 1 path.elementCount ≤ options.maxDepth) {depth : Nat}
    (plain : scene.PlainTo path depth) (remaining : Nat) :
    (∃ answer, (stage.reveal path options remaining scene).result = .ok answer) ∨
      ∃ names rest root found, scene.Below names rest path ∧ depth < names.length ∧
        scene.prims.get? (.absolute names) = some (some root) ∧
        (stage.resolve path options scene).result = .ok (some found) := by
  cases present : scene.prims.get? path with
  | some value => exact Or.inl ⟨_, reveal_found present remaining⟩
  | none =>
      obtain ⟨_, answer, _, settles⟩ := sound.settles path
      have resolved := sound.resolve_of_settles settles room
      cases answer with
      | none => exact Or.inl ⟨none, (reveal_lost present resolved remaining).1⟩
      | some found =>
          obtain ⟨names, rest, root, below, hidden⟩ :=
            sound.hidden_by_instance (by omega) present resolved
          refine Or.inr ⟨names, rest, root, found, below, ?_, hidden, resolved⟩
          by_contra shallow
          have impossible := plain names below.named ⟨rest, below.elements.symm⟩ (by omega)
          rw [hidden] at impossible
          cases impossible

theorem Sound.reveal_kind (sound : scene.Sound)
    (room : max 1 path.elementCount ≤ options.maxDepth) {depth remaining : Nat}
    (plain : scene.PlainTo path depth) (enough : path.elementCount ≤ depth + remaining)
    {fault : Fault} (failed : (stage.reveal path options remaining scene).result = .error fault) :
    fault.kind = .validation := by
  induction remaining generalizing scene depth with
  | zero =>
      rcases sound.reveal_round room plain 0 with
        ⟨answer, ended⟩ | ⟨names, rest, _, _, below, deeper, _⟩
      · rw [ended] at failed
        cases failed
      · have length : names.length ≤ path.elementCount := by
          rw [Path.elementCount, below.elements, List.length_append]
          exact Nat.le_add_right _ _
        omega
  | succ remaining ih =>
      rcases sound.reveal_round room plain (remaining + 1) with
        ⟨answer, ended⟩ | ⟨names, rest, root, found, below, deeper, present, resolved⟩
      · rw [ended] at failed
        cases failed
      · rcases reveal_clears sound below present resolved remaining with
          ⟨cause, refused, result⟩ | ⟨cleared, result, _⟩
        · cases failed.symm.trans result
          have edit : ((Edit.override ⟨.absolute names, some root⟩ false).apply scene).result =
              .error fault := refused
          exact Edit.kind_of_error edit
        · rw [result] at failed
          have laterSound := sound.setInstanceable ⟨.absolute names, some root⟩ false
          have laterPlain : PlainTo _ path names.length :=
            laterSound.plainTo ⟨rest, below.elements.symm⟩ (sound.cleared_plain present cleared)
          exact ih laterSound laterPlain (by omega) failed

/-- In every scene that calls lead to, forwarding hops at most as often as the path has names, and
each hop from inside a prototype shortens the path. So with a limit as high as that resolving always
has an answer, and uninstancing fails only if an edit is refused, in whatever round. -/
theorem reachable_forwarding_settles (reachable : Reachable scene) (path : Path)
    (options : ForwardingOptions) :
    (stage.resolve path options scene).events.countP Event.isHop ≤ path.elementCount ∧
      (∀ hop source next, .forwarded hop source next ∈ (stage.resolve path options scene).events →
        source.isReserved = true → next.elementCount < source.elementCount) ∧
      (max 1 path.elementCount ≤ options.maxDepth →
        (∃ answer, (stage.resolve path options scene).result = .ok answer) ∧
          ∀ fault, (stage.uninstance path options scene).result = .error fault →
            fault.kind = .validation) := by
  have sound := reachable.sound
  have descends := sound.resolve_descends path options
  obtain ⟨_, answer, _, settles⟩ := sound.settles path
  refine ⟨Nat.le_trans descends.hops path.hopBound_le, descends.shorter, fun room =>
    ⟨⟨answer, sound.resolve_of_settles settles room⟩, fun fault failed => ?_⟩⟩
  rw [(uninstance_eq_reveal scene path (by omega)).1] at failed
  have plain : scene.PlainTo path 0 := by
    intro names named _ bound
    exact absurd (List.length_eq_zero_iff.mp (Nat.le_zero.mp bound)) named
  exact sound.reveal_kind room plain (by omega) failed

/-- A doll whose inside shares the doll, and with it that inside, and so on. -/
def nestedDoll : Definition :=
  let doll : Name := ⟨"Doll", by decide⟩
  let inner : Name := ⟨"inner", by decide⟩
  let shelf : Name := ⟨"Shelf", by decide⟩
  let shared : PrimSpec := { instanceable := true, reference := some (.absolute [doll]) }
  ⟨.ofList [(.absolute [doll, inner], shared), (.absolute [shelf], shared)]⟩

theorem reachable_forwarding_settles_nested :
    let inner : Name := ⟨"inner", by decide⟩
    let root : Name := ⟨"__Prototype_1", by decide⟩
    let path := Path.absolute [root, inner, inner, inner]
    let scene := (load nestedDoll).state
    let resolved := stage.resolve path ⟨4⟩ scene
    let refused := Fault.insidePrototype (.absolute [root, inner])
    resolved.events.countP Event.isHop = 2 ∧ resolved.events.countP Event.isHop ≤ 4 ∧
      (∀ hop source next, .forwarded hop source next ∈ resolved.events →
        source.isReserved = true → next.elementCount < source.elementCount) ∧
      (∃ answer, resolved.result = .ok answer) ∧
      (stage.uninstance path ⟨4⟩ scene).result = .error refused ∧ refused.kind = .validation := by
  intro inner root path scene resolved refused
  have loads : (load nestedDoll).result = .ok () := by decide +kernel
  have failed : (stage.uninstance path ⟨4⟩ scene).result = .error refused := by decide +kernel
  obtain ⟨hops, shorter, settles⟩ :=
    reachable_forwarding_settles (Reachable.load loads) path ⟨4⟩
  obtain ⟨answered, kinds⟩ := settles (by decide +kernel)
  exact ⟨by decide +kernel, hops, shorter, answered, failed, kinds refused failed⟩

end Scene

end SceneGraph
