import SceneGraph.Proofs.Forwarding.Crossings
import SceneGraph.Proofs.Uninstancing.Rounds

/-!
Uninstancing a path ends at a prim there exactly if the path can be revealed. Otherwise, if the path
led anywhere at first, the instances cleared so far stay cleared.
-/

namespace SceneGraph.Scene

variable {scene : Scene} {path : Path} {options : ForwardingOptions}

theorem setInstanceable_clear {names : List Name} {value : Option Path}
    (present : scene.prims.get? (.absolute names) = some value)
    (unreserved : (Path.absolute names).isReserved = false) :
    (∃ fault, (scene.layers.clear names).composition = .error fault ∧
      (scene.setInstanceable ⟨.absolute names, value⟩ false).result = .error fault) ∨
    ∃ composition, (scene.layers.clear names).composition = .ok composition ∧
      (scene.setInstanceable ⟨.absolute names, value⟩ false).result = .ok () ∧
      (scene.setInstanceable ⟨.absolute names, value⟩ false).state.layers =
        scene.layers.clear names := by
  have known : scene.prims.contains (.absolute names) = true :=
    OrderedMap.contains_iff.mpr ⟨value, present⟩
  rcases scene.setInstanceable_cases ⟨.absolute names, value⟩ false with
    ⟨fault, failed, _, missing | reserved | refused⟩ |
      ⟨composition, _, succeeded, same, _, _, composed⟩
  · rw [known] at missing
    cases missing
  · rw [unreserved] at reserved
    cases reserved
  · exact Or.inl ⟨fault, refused, failed⟩
  · exact Or.inr ⟨composition, composed, succeeded, by rw [same]; rfl⟩

theorem reveal_next {names rest : List Name} {root : Path} (sound : scene.Sound)
    (below : scene.Below names rest path)
    (present : scene.prims.get? (.absolute names) = some (some root))
    (unreserved : (Path.absolute names).isReserved = false) {found : Prim}
    (resolved : (stage.resolve path options scene).result = .ok (some found)) (remaining : Nat) :
    (∃ fault, (scene.layers.clear names).composition = .error fault ∧
      (stage.reveal path options (remaining + 1) scene).result = .error fault) ∨
    ∃ composition edited, (scene.layers.clear names).composition = .ok composition ∧
      edited = (scene.setInstanceable ⟨.absolute names, some root⟩ false).state ∧
      edited.layers = scene.layers.clear names ∧
      (stage.reveal path options (remaining + 1) scene).result =
        (stage.reveal path options remaining edited).result ∧
      (stage.reveal path options (remaining + 1) scene).state =
        (stage.reveal path options remaining edited).state := by
  rcases setInstanceable_clear present unreserved with
    ⟨fault, refused, failed⟩ | ⟨composition, composed, succeeded, layers⟩
  · rcases reveal_clears sound below present resolved remaining with
      ⟨other, otherFailed, result⟩ | ⟨succeeded, _⟩
    · cases failed.symm.trans otherFailed
      exact Or.inl ⟨fault, refused, result⟩
    · cases failed.symm.trans succeeded
  · rcases reveal_clears sound below present resolved remaining with
      ⟨other, failed, _⟩ | ⟨_, result, state⟩
    · cases succeeded.symm.trans failed
    · exact Or.inr ⟨composition, _, composed, rfl, layers, result, state⟩

/-- How revealing a path ends that goes on by `rest` from the prim composed at `names`: at a prim
exactly if it can be revealed, and with nothing found and nothing changed exactly if the walk leads
nowhere. -/
structure Converges (scene : Scene) (path source : Path) (names rest : List Name)
    (outcome : Outcome Scene (Option Prim)) : Prop where
  reached : (∃ prim, outcome.result = .ok (some prim) ∧ prim.path = path) ↔
    Layers.Reveals scene.layers source names rest
  unchanged : outcome.result = .ok none → (outcome.state = scene ↔
    rest.foldlM scene.layers.step ⟨names, source, false⟩ = none)

theorem converges_of_found {source : Path} {names : List Name} {value : Option Path}
    (found : scene.prims.get? path = some value) (remaining : Nat) :
    Converges scene path source names [] (stage.reveal path options remaining scene) := by
  have result : (stage.reveal path options remaining scene).result = .ok (some ⟨path, value⟩) :=
    reveal_found found remaining
  constructor
  · exact iff_of_true ⟨_, result, rfl⟩ Layers.Reveals.here
  · intro impossible
    rw [result] at impossible
    cases impossible

theorem converges_of_lost {source : Path} {names rest : List Name}
    (absent : scene.prims.get? path = none)
    (lost : (stage.resolve path options scene).result = .ok none)
    (nowhere : rest.foldlM scene.layers.step ⟨names, source, false⟩ = none) (remaining : Nat) :
    Converges scene path source names rest (stage.reveal path options remaining scene) := by
  obtain ⟨result, state⟩ := reveal_lost absent lost remaining
  constructor
  · rw [result]
    constructor
    · rintro ⟨_, impossible, _⟩
      cases impossible
    · intro reveals
      obtain ⟨last, walked⟩ := reveals.walked
      rw [nowhere] at walked
      cases walked
  · intro _
    exact iff_of_true state nowhere

def Cleared (names : List Name) (scene : Scene) : Prop :=
  scene.layers.overrides.get? (.absolute names) = some false

theorem Cleared.setInstanceable {names : List Name} (cleared : Cleared names scene) (prim : Prim) :
    Cleared names (scene.setInstanceable prim false).state := by
  rcases scene.setInstanceable_cases prim false with ⟨_, _, same, _⟩ | ⟨_, _, _, same, _⟩
  · rwa [same]
  · rw [same, Cleared, Layers.override]
    by_cases here : .absolute names = prim.path
    · rw [here, OrderedMap.get?_insert_self]
    · rwa [OrderedMap.get?_insert_of_ne _ _ here]

theorem not_cleared_of_shared {names : List Name} {source target : Path}
    (shared : scene.layers.sharedAt ⟨names, source, false⟩ = some target) :
    ¬Cleared names scene := by
  intro cleared
  rw [Layers.sharedAt, Option.bind_eq_some_iff] at shared
  obtain ⟨spec, _, flag⟩ := shared
  simp [show scene.layers.overrides.get? (.absolute names) = some false from cleared] at flag

theorem converges_of_cleared {source target : Path} {names rest : List Name} {name : Name}
    {last : Position} {cleared : Composition} {edited : Scene}
    {outcome later : Outcome Scene (Option Prim)}
    (shared : scene.layers.sharedAt ⟨names, source, false⟩ = some target)
    (walked : (name :: rest).foldlM scene.layers.step ⟨names, source, false⟩ = some last)
    (composed : (scene.layers.clear names).composition = .ok cleared)
    (layers : edited.layers = scene.layers.clear names)
    (converges : Converges edited path source names (name :: rest) later)
    (kept : Cleared names later.state) (result : outcome.result = later.result)
    (state : outcome.state = later.state) :
    Converges scene path source names (name :: rest) outcome := by
  constructor
  · rw [result, converges.reached, layers, Layers.reveals_cleared_iff shared]
    constructor
    · intro reveals
      exact ⟨⟨last, walked⟩, ⟨cleared, composed⟩, reveals⟩
    · rintro ⟨_, _, reveals⟩
      exact reveals
  · intro _
    refine iff_of_false ?_ (by simp [walked])
    intro same
    rw [← state, same] at kept
    exact not_cleared_of_shared shared kept

theorem converges_of_error {source target : Path} {names rest : List Name} {name : Name}
    {fault : Fault} {outcome : Outcome Scene (Option Prim)}
    (shared : scene.layers.sharedAt ⟨names, source, false⟩ = some target)
    (refused : (scene.layers.clear names).composition = .error fault)
    (result : outcome.result = .error fault) :
    Converges scene path source names (name :: rest) outcome := by
  constructor
  · rw [result, Layers.reveals_cleared_iff shared]
    refine iff_of_false ?_ ?_
    · rintro ⟨_, impossible, _⟩
      cases impossible
    · rintro ⟨_, ⟨_, composed⟩, _⟩
      rw [refused] at composed
      cases composed
  · intro impossible
    rw [result] at impossible
    cases impossible

theorem resolve_from (sound : scene.Sound) {prototypes : OrderedMap Path Path}
    (rules : scene.layers.FollowsRules ⟨scene.prims, prototypes⟩) {source : Path}
    {names rest : List Name}
    (placed : scene.layers.Placed prototypes.get? ⟨false, source, .absolute names⟩)
    (named : names ≠ []) (located : path = .absolute (names ++ rest))
    (room : path.elementCount ≤ options.maxDepth) :
    ∃ answer, (stage.resolve path options scene).result = .ok answer ∧
      (answer = none ↔ rest.foldlM scene.layers.step ⟨names, source, false⟩ = none) := by
  have some_name : 1 ≤ path.elementCount := by
    rw [located, Path.elementCount, Path.absolute_elements, List.length_append]
    exact Nat.le_add_right_of_le (List.length_pos_iff.mpr named)
  have bare : path.isPropertyPath = false := by simp [located, Path.isPropertyPath]
  have elements : path.elements = names ++ rest := by rw [located, Path.absolute_elements]
  obtain ⟨answer, settles, agrees⟩ :=
    sound.settles_walk rules placed.stands named (located ▸ rfl) elements
  refine ⟨answer, sound.resolve_of_settles settles (by omega), ?_⟩
  rw [bare] at agrees
  have empty : answer.isNone =
      (rest.foldlM scene.layers.step ⟨names, source, false⟩).isNone := by
    simpa using congrArg Option.isNone agrees
  rw [← Option.isNone_iff_eq_none, empty, Option.isNone_iff_eq_none]

theorem converges_of_plain (sound : scene.Sound) {prototypes : OrderedMap Path Path}
    (rules : scene.layers.FollowsRules ⟨scene.prims, prototypes⟩)
    (room : path.elementCount ≤ options.maxDepth) {source : Path} {names rest : List Name}
    {name : Name} (placed : scene.layers.Placed prototypes.get? ⟨false, source, .absolute names⟩)
    (named : names ≠ []) (located : path = .absolute (names ++ name :: rest))
    (unshared : scene.layers.sharedAt ⟨names, source, false⟩ = none) {remaining : Nat}
    (further : ∀ origin, scene.layers.childNamed source name = some origin →
      scene.layers.Placed prototypes.get? ⟨false, origin, .absolute (names ++ [name])⟩ →
      Converges scene path origin (names ++ [name]) rest
        (stage.reveal path options remaining scene)) :
    Converges scene path source names (name :: rest)
      (stage.reveal path options remaining scene) := by
  have hosts := placed.stands.plain unshared
  cases child : scene.layers.childNamed source name with
  | none =>
      have missing := rules.child_missing sound.specs.admissible hosts named child
      have below : scene.Below names (name :: rest) path :=
        sound.below_missing named (by simp [located]) (by simp [located]) missing
      have nowhere : (name :: rest).foldlM scene.layers.step ⟨names, source, false⟩ = none := by
        simp [Layers.step, unshared, child]
      obtain ⟨answer, resolved, empty⟩ := resolve_from sound rules placed named located room
      rw [empty.mpr nowhere] at resolved
      exact converges_of_lost (below.absent sound) resolved nowhere remaining
  | some origin =>
      have converges := further origin child (rules.child_placed hosts child)
      have onward : (name :: rest).foldlM scene.layers.step ⟨names, source, false⟩ =
          rest.foldlM scene.layers.step ⟨names ++ [name], origin, false⟩ := by
        simp [Layers.step, unshared, child]
      constructor
      · rw [converges.reached, Layers.reveals_plain_iff unshared, child]
        simp
      · rw [onward]
        exact converges.unchanged

theorem converges_of_instance (sound : scene.Sound) {prototypes : OrderedMap Path Path}
    (rules : scene.layers.FollowsRules ⟨scene.prims, prototypes⟩)
    (unreserved : path.isReserved = false) (room : path.elementCount ≤ options.maxDepth)
    {source target : Path} {names rest : List Name} {name : Name}
    (placed : scene.layers.Placed prototypes.get? ⟨false, source, .absolute names⟩)
    (named : names ≠ []) (located : path = .absolute (names ++ name :: rest))
    (shared : scene.layers.sharedAt ⟨names, source, false⟩ = some target) {remaining : Nat}
    (further : ∀ (edited : Scene) (later : OrderedMap Path Path), edited.Sound →
      edited.layers.FollowsRules ⟨edited.prims, later⟩ →
      edited.layers.Placed later.get? ⟨false, source, .absolute names⟩ →
      edited.layers.sharedAt ⟨names, source, false⟩ = none →
      Converges edited path source names (name :: rest)
        (stage.reveal path options remaining edited)) :
    Converges scene path source names (name :: rest)
      (stage.reveal path options (remaining + 1) scene) := by
  obtain ⟨root, present, _⟩ := placed.stands.sharer rules shared
  have below : scene.Below names (name :: rest) path :=
    sound.below_instance named (by simp [located]) (by simp [located]) (Or.inl (by simp)) present
  obtain ⟨answer, resolved, empty⟩ := resolve_from sound rules placed named located room
  cases answer with
  | none => exact converges_of_lost (below.absent sound) resolved (empty.mp rfl) _
  | some found =>
      obtain ⟨last, walked⟩ := Option.ne_none_iff_exists'.mp fun nowhere =>
        Option.some_ne_none found (empty.mpr nowhere)
      have outside : (Path.absolute names).isReserved = false := by
        rw [← unreserved, located]
        exact Path.isReserved_of_prefix rfl named (List.prefix_append _ _)
      rcases reveal_next sound below present outside resolved remaining with
        ⟨fault, refused, result⟩ | ⟨cleared, edited, composed, same, layers, result, state⟩
      · exact converges_of_error shared refused result
      · -- The prim stays composed where it was, now plain, so its own child is next.
        have laterSound : edited.Sound := same ▸ sound.setInstanceable _ false
        obtain ⟨later, laterRules⟩ := laterSound.rules
        have laterPlaced : edited.layers.Placed later.get? ⟨false, source, .absolute names⟩ :=
          layers ▸ placed.clear later.get? names rfl
        have unshared : edited.layers.sharedAt ⟨names, source, false⟩ = none :=
          layers ▸ Layers.sharedAt_clear names source
        have converges := further edited later laterSound laterRules laterPlaced unshared
        -- No later round takes the flag back: the scene cannot end as it began.
        have kept : Cleared names edited := by
          rw [Cleared, layers]
          exact OrderedMap.get?_insert_self _ _ _
        have keptLater : Cleared names (stage.reveal path options remaining edited).state :=
          EditableStage.reveal_keeps stage_settled
            (fun prim _ cleared => cleared.setInstanceable prim) path options remaining _ kept
        exact converges_of_cleared shared walked composed layers converges keptLater result state

theorem reveal_converges (sound : scene.Sound) {prototypes : OrderedMap Path Path}
    (rules : scene.layers.FollowsRules ⟨scene.prims, prototypes⟩)
    (unreserved : path.isReserved = false) (room : path.elementCount ≤ options.maxDepth)
    {source : Path} {names rest : List Name}
    (placed : scene.layers.Placed prototypes.get? ⟨false, source, .absolute names⟩)
    (named : names ≠ []) (located : path = .absolute (names ++ rest)) {remaining : Nat}
    (enough : rest.length ≤ remaining) :
    Converges scene path source names rest (stage.reveal path options remaining scene) := by
  induction rest generalizing scene prototypes source names remaining with
  | nil =>
      obtain ⟨value, found, _⟩ := placed.stands.prim rules
      have here : path = .absolute names := by simpa using located
      exact converges_of_found (here ▸ found) remaining
  | cons name rest ih =>
      rw [List.length_cons] at enough
      have deeper : path = .absolute ((names ++ [name]) ++ rest) := by simp [located]
      cases shared : scene.layers.sharedAt ⟨names, source, false⟩ with
      | none =>
          exact converges_of_plain sound rules room placed named located shared
            fun _ _ child => ih sound rules child (by simp) deeper (by omega)
      | some target =>
          obtain ⟨hop, rfl⟩ : ∃ hop, remaining = hop + 1 :=
            Nat.exists_eq_succ_of_ne_zero (by omega)
          refine converges_of_instance sound rules unreserved room placed named located shared ?_
          intro edited later laterSound laterRules laterPlaced unshared
          exact converges_of_plain laterSound laterRules room laterPlaced named located unshared
            fun _ _ child =>
              ih laterSound laterRules child (by simp) deeper (Nat.le_of_succ_le_succ enough)

theorem Sound.uninstance_nowhere (sound : scene.Sound) (unreserved : path.isReserved = false)
    (room : max 1 path.elementCount ≤ options.maxDepth)
    (nowhere : scene.layers.walk path = none) :
    (stage.resolve path options scene).result = .ok none ∧
      (stage.uninstance path options scene).result = .ok none ∧
      (stage.uninstance path options scene).state = scene := by
  obtain ⟨answer, settles, agrees⟩ := sound.settles_crossings unreserved
  obtain rfl : answer = none := by simpa [nowhere] using agrees
  have resolved : (stage.resolve path options scene).result = .ok none :=
    sound.resolve_of_settles settles room
  obtain ⟨result, state⟩ := uninstance_eq_reveal scene path (show 0 < options.maxDepth by omega)
  rw [result, state]
  exact ⟨resolved, reveal_lost settles.absent resolved _⟩

/-- When uninstancing keeps its promise. A path that resolves becomes addressable, and nothing
changes where nothing is found, exactly if the walk leads nowhere or the path can be revealed; where
nothing is found, nothing has changed exactly if the walk led nowhere at first. -/
theorem uninstance_converges_iff (reachable : Reachable scene)
    (unreserved : path.isReserved = false) (room : max 1 path.elementCount ≤ options.maxDepth) :
    ((((∃ found, (stage.resolve path options scene).result = .ok (some found)) →
          ∃ prim, (stage.uninstance path options scene).result = .ok (some prim) ∧
            prim.path = path) ∧
        ((stage.uninstance path options scene).result = .ok none →
          (stage.uninstance path options scene).state = scene)) ↔
      scene.layers.walk path = none ∨ scene.layers.Revealable path) ∧
    ((stage.uninstance path options scene).result = .ok none →
      ((stage.uninstance path options scene).state = scene ↔ scene.layers.walk path = none)) := by
  have sound := reachable.sound
  cases walked : scene.layers.walk path with
  | none =>
      obtain ⟨resolved, result, state⟩ := sound.uninstance_nowhere unreserved room walked
      refine ⟨iff_of_true ⟨?_, fun _ => state⟩ (Or.inl rfl), fun _ => iff_of_true state rfl⟩
      rintro ⟨_, found⟩
      rw [resolved] at found
      cases found
  | some last =>
      obtain ⟨first, rest, located, authored, onward⟩ := Layers.follow_eq_some walked
      obtain ⟨prototypes, rules⟩ := sound.rules
      have placed : scene.layers.Placed prototypes.get?
          ⟨false, .absolute [first], .absolute [first]⟩ := Layers.Placed.of_authored authored
      have count : path.elementCount = rest.length + 1 := by simp [located, Path.elementCount]
      have converges : Converges scene path (.absolute [first]) [first] rest
          (stage.reveal path options options.maxDepth scene) :=
        reveal_converges sound rules unreserved (by omega) placed (by simp) located (by omega)
      obtain ⟨result, state⟩ :=
        uninstance_eq_reveal scene path (show 0 < options.maxDepth by omega)
      have revealable : scene.layers.Revealable path ↔
          Layers.Reveals scene.layers (.absolute [first]) [first] rest := by
        constructor
        · rintro ⟨other, others, same, _, reveals⟩
          rw [located, Path.absolute_inj] at same
          cases same
          exact reveals
        · intro reveals
          exact ⟨first, rest, located, authored, reveals⟩
      have reached := converges.reached
      have unchanged := converges.unchanged
      rw [← result, ← revealable] at reached
      rw [← result, ← state, onward] at unchanged
      obtain ⟨answer, resolved, agrees⟩ := sound.resolve_walk unreserved room
      rw [walked] at agrees
      obtain ⟨found, rfl, _⟩ := Option.map_eq_some_iff.mp agrees
      refine ⟨⟨?_, ?_⟩, unchanged⟩
      · rintro ⟨converged, _⟩
        exact Or.inr (reached.mp (converged ⟨found, resolved⟩))
      · rintro (impossible | revealed)
        · cases impossible
        · have ended := reached.mpr revealed
          refine ⟨fun _ => ended, fun lost => ?_⟩
          obtain ⟨_, ended, _⟩ := ended
          rw [lost] at ended
          cases ended

theorem uninstance_converges_iff_hall :
    let path := Path.absolute
      [⟨"Hall", by decide⟩, ⟨"first", by decide⟩, ⟨"leg", by decide⟩]
    let scene := (load hall).state
    (stage.uninstance path ⟨3⟩ scene).result = .ok (some ⟨path, none⟩) ∧
      (stage.uninstance path ⟨3⟩ scene).state.instancingEdits = 2 ∧
      scene.layers.Revealable path := by
  intro path scene
  have ended : (stage.uninstance path ⟨3⟩ scene).result = .ok (some ⟨path, none⟩) := by
    decide +kernel
  have exactly := @uninstance_converges_iff scene path ⟨3⟩ (Reachable.load hall_loads)
    (by decide +kernel) (by decide +kernel)
  refine ⟨ended, by decide +kernel, ?_⟩
  refine (exactly.1.mp ⟨fun _ => ⟨_, ended, rfl⟩, fun lost => ?_⟩).resolve_left (by decide +kernel)
  rw [ended] at lost
  cases lost

theorem uninstance_loses_path :
    let path := Path.absolute
      [⟨"House", by decide⟩, ⟨"door", by decide⟩, ⟨"handle", by decide⟩]
    let scene := (load houseWithDoor).state
    Reachable scene ∧ path.isReserved = false ∧
      max 1 path.elementCount ≤ ({} : ForwardingOptions).maxDepth ∧
      (∃ found, (stage.resolve path {} scene).result = .ok (some found)) ∧
      (stage.uninstance path {} scene).result = .ok none ∧
      (stage.uninstance path {} scene).state ≠ scene := by
  intro path scene
  have loads : (load houseWithDoor).result = .ok () := by decide +kernel
  have resolves : ∃ found, (stage.resolve path {} scene).result = .ok (some found) := by
    refine ⟨⟨.absolute [⟨"__Prototype_1", by decide⟩, ⟨"door", by decide⟩,
      ⟨"handle", by decide⟩], none⟩, ?_⟩
    decide +kernel
  exact ⟨Reachable.load loads, by decide +kernel, by decide +kernel, resolves, by decide +kernel,
    by decide +kernel⟩

end SceneGraph.Scene
