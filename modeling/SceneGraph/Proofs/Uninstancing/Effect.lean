import SceneGraph.Proofs.Uninstancing.Rounds

/-!
All that uninstancing does to a scene, however it ends. It clears the instances that hide the path,
each of them deeper than the ones before; each is counted and reported once, and nothing else that
is authored or has been said changes.
-/

namespace SceneGraph

def Event.isClearing : Event → Bool
  | .cleared .. => true
  | _ => false

namespace Stage

variable {σ Prim : Type} {stage : Stage σ Prim}

theorem settle_clears_nothing (settled : stage.Settled) (path : Path) (limit remaining : Nat)
    (target : Path) (state : σ) :
    (stage.settle path limit remaining target state).events.filter Event.isClearing = [] := by
  induction remaining using Nat.strongRecOn generalizing target with
  | ind remaining ih =>
      rw [settle_eq settled]
      split
      · rfl
      · rfl
      · rfl
      · rfl
      · exact ih _ (by omega) _

theorem resolve_clears_nothing (settled : stage.Settled) (path : Path)
    (options : ForwardingOptions) (state : σ) :
    (stage.resolve path options state).events.filter Event.isClearing = [] := by
  rw [resolve]
  cases options.validate with
  | error fault => rfl
  | ok _ => exact settle_clears_nothing settled path _ _ path state

end Stage

namespace Scene

variable {scene last : Scene} {path above : Path} {prim : Prim} {options : ForwardingOptions}

theorem isInstanceAt_iff : scene.isInstanceAt path = true ↔
    ∃ root, scene.prims.get? path = some (some root) := by
  rw [isInstanceAt, primAt?]
  cases scene.prims.get? path with
  | none => simp
  | some value => cases value <;> simp [Prim.isInstance]

theorem path_of_primAt? (found : scene.primAt? path = some prim) : prim.path = path := by
  obtain ⟨_, _, rfl⟩ := Option.map_eq_some_iff.mp found
  rfl

theorem contains_of_primAt? (found : scene.primAt? path = some prim) :
    scene.prims.contains path = true := by
  obtain ⟨value, held, _⟩ := Option.map_eq_some_iff.mp found
  exact OrderedMap.contains_iff.mpr ⟨value, held⟩

theorem setInstanceable_clears_nothing (scene : Scene) (prim : Prim) (flag : Bool) :
    (scene.setInstanceable prim flag).events.filter Event.isClearing = [] := by
  have composing (layers : Layers) :
      (scene.compose layers).events.filter Event.isClearing = [] := by
    rw [compose, recompose]
    cases layers.composition with
    | error fault => rfl
    | ok composition => rfl
  rw [setInstanceable]
  split
  · rfl
  split
  · rfl
  dsimp only
  split
  · exact composing _
  · exact composing _

theorem setInstanceable_counts (scene : Scene) (prim : Prim) (flag : Bool) :
    (scene.setInstanceable prim flag).state.instancingEdits = scene.instancingEdits +
      if (scene.setInstanceable prim flag).state.isInstanceAt prim.path =
        scene.isInstanceAt prim.path then 0 else 1 := by
  have composing (layers : Layers) :
      (scene.compose layers).state.instancingEdits = scene.instancingEdits := by
    rcases scene.compose_cases layers with ⟨_, _, _, same⟩ | ⟨_, _, _, same⟩ <;> rw [same]
  rw [setInstanceable]
  split
  · simp
  split
  · simp
  have kept := composing (scene.layers.override prim.path flag)
  rw [Layers.override] at kept
  dsimp only
  generalize scene.compose _ = edited at kept ⊢
  split
  next => exact kept
  next different =>
    calc
      edited.state.instancingEdits + 1 = scene.instancingEdits + 1 := by rw [kept]
      _ = _ := congrArg _ (if_neg different).symm

/-- The only instance among the paths above `path`. -/
structure Hides (scene : Scene) (above path : Path) : Prop where
  higher : above ∈ path.ancestors
  isInstance : scene.isInstanceAt above = true
  only : ∀ other ∈ path.ancestors, scene.isInstanceAt other = true → other = above

/-- `Clears path scene cleared last`: one after the other, each in the scene that clearing the one
before it left, the prims at `cleared` hide the path and are cleared. -/
inductive Clears (path : Path) : Scene → List Path → Scene → Prop
  | done {scene : Scene} : Clears path scene [] scene
  | clear {scene last : Scene} {above : Path} {prim : Prim} {rest : List Path} :
      scene.Hides above path → scene.primAt? above = some prim →
      (scene.setInstanceable prim false).result = .ok () →
      Clears path (scene.setInstanceable prim false).state rest last →
      Clears path scene (above :: rest) last

theorem Below.hides (sound : scene.Sound) {names rest : List Name} {root : Path}
    (below : scene.Below names rest path)
    (present : scene.prims.get? (.absolute names) = some (some root)) :
    scene.Hides (.absolute names) path := by
  constructor
  · obtain ⟨above, higher, first⟩ :=
      List.exists_of_findSome?_eq_some (firstAbove_below below present)
    obtain ⟨_, _, same⟩ := Option.map_eq_some_iff.mp first
    cases same
    exact higher
  · exact isInstanceAt_iff.mpr ⟨root, present⟩
  · intro other higher hidden
    obtain ⟨otherRoot, found⟩ := isInstanceAt_iff.mp hidden
    obtain ⟨_, shorter, named, within, rfl⟩ := sound.prim_above higher found
    rw [below.elements] at within
    rcases List.prefix_or_prefix_of_prefix within (List.prefix_append names rest) with
      shortened | ⟨longer, rfl⟩
    · by_cases here : shorter = names
      · exact congrArg Path.absolute here
      · have known := OrderedMap.contains_iff.mpr ⟨_, present⟩
        cases found.symm.trans (sound.on_the_way named known shortened here)
    · by_cases here : longer = []
      · rw [here, List.append_nil]
      · rw [below.missing longer here ((List.prefix_append_right_inj names).mp within)] at found
        cases found

theorem Hides.located (hides : scene.Hides above path) (sound : scene.Sound) :
    ∃ names root, names ≠ [] ∧ names <+: path.elements ∧ above = .absolute names ∧
      scene.prims.get? above = some (some root) := by
  obtain ⟨root, found⟩ := isInstanceAt_iff.mp hides.isInstance
  obtain ⟨_, names, named, within, located⟩ := sound.prim_above hides.higher found
  exact ⟨names, root, named, within, located, found⟩

theorem Hides.deeper (hides : scene.Hides above path) (sound : scene.Sound) {depth : Nat}
    (plain : scene.PlainTo path depth) : depth < above.elementCount := by
  obtain ⟨names, root, named, within, rfl, found⟩ := hides.located sound
  by_contra shallow
  have impossible := plain names named within (Nat.le_of_not_lt shallow)
  rw [found] at impossible
  cases impossible

theorem Hides.cleared (hides : scene.Hides above path) (sound : scene.Sound)
    (found : scene.primAt? above = some prim)
    (succeeded : (scene.setInstanceable prim false).result = .ok ()) :
    (scene.setInstanceable prim false).state.PlainTo path above.elementCount ∧
      (scene.setInstanceable prim false).state.instancingEdits = scene.instancingEdits + 1 := by
  obtain ⟨names, root, _, within, rfl, present⟩ := hides.located sound
  obtain rfl : ⟨.absolute names, some root⟩ = prim := by
    rw [primAt?, present] at found
    exact Option.some.inj found
  have plain := sound.cleared_plain present succeeded
  have unmade : (scene.setInstanceable ⟨.absolute names, some root⟩ false).state.isInstanceAt
      (.absolute names) = false := by
    simp [isInstanceAt, primAt?, plain, Prim.isInstance]
  refine ⟨(sound.setInstanceable _ false).plainTo within plain, ?_⟩
  rw [setInstanceable_counts, unmade, hides.isInstance]
  rfl

theorem Clears.sound {cleared : List Path} (clears : Clears path scene cleared last)
    (sound : scene.Sound) : last.Sound := by
  induction clears with
  | done => exact sound
  | clear _ _ _ _ ih => exact ih (sound.setInstanceable _ false)

theorem Clears.specs {cleared : List Path} (clears : Clears path scene cleared last) :
    last.layers.specs = scene.layers.specs := by
  induction clears with
  | done => rfl
  | clear _ _ succeeded _ ih =>
      rw [ih, layers_of_setInstanceable succeeded]
      rfl

theorem Clears.overrides {cleared : List Path} (clears : Clears path scene cleared last)
    (place : Path) : last.layers.overrides.get? place =
      if place ∈ cleared then some false else scene.layers.overrides.get? place := by
  induction clears with
  | done => simp
  | @clear _ _ above prim rest _ found succeeded _ ih =>
      rw [ih, layers_of_setInstanceable succeeded, path_of_primAt? found, Layers.override]
      by_cases here : place = above
      · simp [here, OrderedMap.get?_insert_self]
      · simp [here, OrderedMap.get?_insert_of_ne]

theorem Clears.edits {cleared : List Path} (clears : Clears path scene cleared last)
    (sound : scene.Sound) :
    last.instancingEdits = scene.instancingEdits + cleared.length := by
  induction clears with
  | done => rfl
  | clear hides found succeeded _ ih =>
      rw [ih (sound.setInstanceable _ false), (hides.cleared sound found succeeded).2,
        List.length_cons]
      omega

theorem Clears.deeper {cleared : List Path} (clears : Clears path scene cleared last)
    (sound : scene.Sound) {depth : Nat} (plain : scene.PlainTo path depth) :
    (∀ above ∈ cleared, depth < above.elementCount) ∧
      cleared.Pairwise fun above below => above.elementCount < below.elementCount := by
  induction clears generalizing depth with
  | done => simp
  | clear hides found succeeded _ ih =>
      have here := hides.deeper sound plain
      obtain ⟨later, deeper⟩ :=
        ih (sound.setInstanceable _ false) (hides.cleared sound found succeeded).1
      refine ⟨?_, List.pairwise_cons.mpr ⟨later, deeper⟩⟩
      intro below member
      rcases List.mem_cons.mp member with rfl | further
      · exact here
      · exact Nat.lt_trans here (later below further)

/-- All that a round can do: end with the scene as it is, or clear the instance that hides the path
and go on from there. -/
inductive Round (path : Path) (options : ForwardingOptions) (scene : Scene) :
    Nat → Outcome Scene (Option Prim) → Prop
  | ends {remaining result events} : events.filter Event.isClearing = [] →
      (∀ prim, result = .ok (some prim) → scene.primAt? path = some prim) →
      Round path options scene remaining ⟨result, scene, events⟩
  | clears {remaining above prim events} : scene.Hides above path →
      scene.primAt? above = some prim → (scene.setInstanceable prim false).result = .ok () →
      events.filter Event.isClearing = [.cleared above (options.maxDepth - remaining)] →
      Round path options scene (remaining + 1) ((stage.reveal path options remaining
        (scene.setInstanceable prim false).state).after events)

theorem round_of_hides (hides : scene.Hides above path) (found : scene.primAt? above = some prim)
    (remaining : Nat) {earlier : List Event} (quiet : earlier.filter Event.isClearing = []) :
    Round path options scene (remaining + 1) <| Outcome.after earlier <|
      let edited := scene.setInstanceable prim false
      Outcome.after edited.events <|
        match edited.result with
        | .error fault => .error fault edited.state
        | .ok () => (stage.reveal path options remaining edited.state).after
            [.cleared above (options.maxDepth - remaining)] := by
  have calm := scene.setInstanceable_clears_nothing prim false
  dsimp only
  cases ended : (scene.setInstanceable prim false).result with
  | error fault =>
      have failed : ((Edit.override prim false).apply scene).result = .error fault := ended
      have same : (scene.setInstanceable prim false).state = scene :=
        (Edit.state_of_error failed).1
      rw [same]
      refine Round.ends (by simp [quiet, calm]) ?_
      intro other impossible
      cases impossible
  | ok _ =>
      rw [Outcome.after_after, Outcome.after_after]
      refine Round.clears hides found ended ?_
      simp [quiet, calm, Event.isClearing]

theorem Sound.reveal_performed (sound : scene.Sound) (path : Path) (options : ForwardingOptions)
    (remaining : Nat) :
    Round path options scene remaining (stage.reveal path options remaining scene) := by
  have quiet := Stage.resolve_clears_nothing stage_settled path options scene
  rw [EditableStage.reveal_eq stage_settled]
  cases present : (stage.primAt? path scene).1 with
  | some prim =>
      refine Round.ends rfl fun other found => ?_
      cases found
      exact present
  | none =>
      generalize stage.resolve path options scene = resolved at quiet ⊢
      have stops {result} (unfound : ∀ prim, result ≠ .ok (some prim)) :
          Round path options scene remaining (.after resolved.events ⟨result, scene, []⟩) :=
        Round.ends (by rwa [List.append_nil]) fun prim found => absurd found (unfound prim)
      rcases resolved.result with fault | _ | found
      · exact stops (by simp)
      · exact stops (by simp)
      have absent : scene.prims.get? path = none := by simpa [stage, primAt?] using present
      rcases sound.nearest absent with nothing | ⟨names, rest, value, below, held⟩
      · rw [nearestAncestor?_nowhere nothing]
        exact stops (by simp)
      rw [nearestAncestor?_below below held]
      cases value with
      | none => exact stops (by simp)
      | some root =>
          have known : scene.primAt? (.absolute names) = some ⟨.absolute names, some root⟩ := by
            rw [primAt?, held]
            rfl
          cases remaining with
          | zero => exact stops (by simp)
          | succ remaining => exact round_of_hides (below.hides sound held) known remaining quiet

structure Advances (scene : Scene) (path : Path) (done remaining : Nat)
    (outcome : Outcome Scene (Option Prim)) (cleared : List Path) : Prop where
  clears : Clears path scene cleared outcome.state
  bounded : cleared.length ≤ remaining
  events : outcome.events.filter Event.isClearing =
    cleared.mapIdx fun index above => .cleared above (done + index + 1)
  found : ∀ prim, outcome.result = .ok (some prim) → outcome.state.primAt? path = some prim

theorem Sound.reveal_advances (sound : scene.Sound) {done remaining : Nat}
    (limit : done + remaining = options.maxDepth) :
    ∃ cleared, Advances scene path done remaining (stage.reveal path options remaining scene)
      cleared := by
  have performed := sound.reveal_performed path options remaining
  generalize stage.reveal path options remaining scene = outcome at performed ⊢
  -- What is done and what remains make up the limit, which is where a clearing has its number from.
  induction remaining generalizing scene done outcome with
  | zero =>
      cases performed with
      | ends quiet found => exact ⟨[], Clears.done, Nat.le_refl _, quiet, found⟩
  | succ remaining ih =>
      cases performed with
      | ends quiet found => exact ⟨[], Clears.done, Nat.zero_le _, quiet, found⟩
      | @clears _ above prim events hides held succeeded reported =>
          have laterSound := sound.setInstanceable prim false
          have later := laterSound.reveal_performed path options remaining
          have laterLimit : done + 1 + remaining = options.maxDepth := by omega
          obtain ⟨cleared, advances⟩ := ih laterSound laterLimit _ later
          have number : options.maxDepth - remaining = done + 1 := by omega
          refine ⟨above :: cleared, Clears.clear hides held succeeded advances.clears,
            Nat.succ_le_succ advances.bounded, ?_, advances.found⟩
          rw [Outcome.after_events, List.filter_append, reported, advances.events, number,
            List.mapIdx_cons]
          simp [Nat.add_assoc, Nat.add_comm 1]

theorem Sound.uninstance_advances (sound : scene.Sound) (path : Path)
    (options : ForwardingOptions) :
    ∃ cleared, Advances scene path 0 options.maxDepth (stage.uninstance path options scene)
      cleared := by
  rw [EditableStage.uninstance]
  cases options.validate with
  | error fault =>
      exact ⟨[], Clears.done, Nat.zero_le _, rfl, by simp⟩
  | ok _ =>
      obtain ⟨cleared, clears, bounded, events, found⟩ :=
        sound.reveal_advances (Nat.zero_add options.maxDepth)
      exact ⟨cleared, clears, bounded, events, found⟩

/-- What uninstancing did: the prims at `cleared`, from the outermost on, were the instances that
hid the path, and of all that is authored, said and counted only that has changed. -/
structure Effect (scene : Scene) (path : Path) (limit : Nat)
    (outcome : Outcome Scene (Option Prim)) (cleared : List Path) : Prop where
  clears : Clears path scene cleared outcome.state
  deeper : cleared.Pairwise fun above below => above.elementCount < below.elementCount
  bounded : cleared.length ≤ limit
  specs : outcome.state.layers.specs = scene.layers.specs
  overrides : ∀ place, outcome.state.layers.overrides.get? place =
    if place ∈ cleared then some false else scene.layers.overrides.get? place
  edits : outcome.state.instancingEdits = scene.instancingEdits + cleared.length
  events : outcome.events.filter Event.isClearing =
    cleared.mapIdx fun index above => .cleared above (index + 1)
  found : ∀ prim, outcome.result = .ok (some prim) →
    prim.path = path ∧ outcome.state.primAt? path = some prim ∧
      ∀ above ∈ path.ancestors, above.isPrimPath = true →
        outcome.state.prims.get? above = some none

theorem Effect.cleared_eq {limit : Nat} {outcome : Outcome Scene (Option Prim)}
    {cleared places : List Path} (effect : Effect scene path limit outcome cleared)
    (reported : outcome.events.filter Event.isClearing =
      places.mapIdx fun index above => .cleared above (index + 1)) : cleared = places := by
  have same := effect.events.symm.trans reported
  refine List.ext_getElem? fun index => ?_
  have here := congrArg (·[index]?) same
  simp only [List.getElem?_mapIdx] at here
  refine Option.map_injective ?_ here
  intro left right equal
  exact (Event.cleared.inj equal).1

/-- Uninstancing has this effect in every scene that calls lead to, for every path and limit, and
whether it finds a prim, finds nothing or fails. -/
theorem reachable_uninstance_effect (reachable : Reachable scene) (path : Path)
    (options : ForwardingOptions) :
    ∃ cleared, Effect scene path options.maxDepth (stage.uninstance path options scene)
      cleared := by
  have sound := reachable.sound
  have laterSound := (reachable.uninstance path options).sound
  have rooted : scene.PlainTo path 0 := by
    intro names named _ bound
    exact absurd (List.length_eq_zero_iff.mp (Nat.le_zero.mp bound)) named
  obtain ⟨cleared, advances⟩ := sound.uninstance_advances path options
  refine ⟨cleared, advances.clears, (advances.clears.deeper sound rooted).2, advances.bounded,
    advances.clears.specs, advances.clears.overrides, advances.clears.edits sound, ?_, ?_⟩
  · simpa using advances.events
  · intro prim ended
    have found := advances.found prim ended
    exact ⟨path_of_primAt? found, found,
      fun above => laterSound.plain_above (contains_of_primAt? found)⟩

theorem reachable_uninstance_effect_hall :
    let hallPath := Path.absolute [⟨"Hall", by decide⟩]
    let seatPath := Path.absolute [⟨"Hall", by decide⟩, ⟨"first", by decide⟩]
    let path := Path.absolute [⟨"Hall", by decide⟩, ⟨"first", by decide⟩, ⟨"leg", by decide⟩]
    let tagPath := Path.absolute [⟨"Row", by decide⟩, ⟨"first", by decide⟩, ⟨"tag", by decide⟩]
    let missing := Path.absolute [⟨"Missing", by decide⟩]
    let scene := (load hall).state
    let tagged := (scene.authorReference tagPath missing).state
    let found := stage.uninstance path ⟨2⟩ scene
    let failed := stage.uninstance path ⟨2⟩ tagged
    (found.result = .ok (some ⟨path, none⟩) ∧ Effect scene path 2 found [hallPath, seatPath]) ∧
      failed.result = .error (.undefinedReference missing) ∧
        Effect tagged path 2 failed [hallPath] := by
  intro hallPath seatPath path tagPath missing scene tagged found failed
  have reachable : Reachable scene := Reachable.load hall_loads
  obtain ⟨cleared, effect⟩ := reachable_uninstance_effect reachable path ⟨2⟩
  obtain ⟨taggedCleared, taggedEffect⟩ :=
    reachable_uninstance_effect (reachable.authorReference tagPath missing) path ⟨2⟩
  obtain rfl : cleared = [hallPath, seatPath] := effect.cleared_eq (by decide +kernel)
  obtain rfl : taggedCleared = [hallPath] := taggedEffect.cleared_eq (by decide +kernel)
  exact ⟨⟨by decide +kernel, effect⟩, by decide +kernel, taggedEffect⟩

end Scene

end SceneGraph
