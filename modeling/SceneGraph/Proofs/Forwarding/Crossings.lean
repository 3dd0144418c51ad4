import SceneGraph.Proofs.Forwarding.Hops
import SceneGraph.Proofs.Forwarding.Walk

/-!
Forwarding as a walk over what is authored. It hops once for each instance that the walk crosses,
and finds what the walk comes to; the prims that a scene composes, and where, do not matter.
-/

namespace SceneGraph

namespace Layers

section

variable (layers : Layers)

def endsShared (position : Position) (names : List Name) : Bool :=
  ((names.foldlM layers.step position).bind layers.sharedAt).isSome

/-- How many of the prims above a path the walk finds to be instances. -/
def crossings (path : Path) : Nat :=
  path.ancestors.countP fun above => ((layers.walk above).bind layers.sharedAt).isSome

end

variable {layers : Layers} {position : Position}

theorem endsShared_step {name : Name} {next : Position} (rest : List Name)
    (stepped : layers.step position name = some next) :
    layers.endsShared position (name :: rest) = layers.endsShared next rest := by
  rw [endsShared, List.foldlM_cons, stepped]
  rfl

theorem endsShared_stuck {name : Name} (rest : List Name)
    (stuck : layers.step position name = none) :
    layers.endsShared position (name :: rest) = false := by
  rw [endsShared, List.foldlM_cons, stuck]
  rfl

theorem length_toList_sharedAt (position : Position) :
    (layers.sharedAt position).toList.length = (layers.sharedAt position).isSome.toNat := by
  cases layers.sharedAt position <;> rfl

theorem length_prototypesAlong_concat (names : List Name) (name : Name) :
    (layers.prototypesAlong position (names ++ [name])).length =
      (layers.prototypesAlong position names).length +
        (layers.endsShared position names).toNat := by
  rw [prototypesAlong_append, List.length_append, endsShared]
  cases names.foldlM layers.step position with
  | none => rfl
  | some last =>
      have alone : layers.prototypesAlong last [name] = (layers.sharedAt last).toList := by
        rw [prototypesAlong]
        cases layers.step last name <;> exact List.append_nil _
      rw [Option.elim_some, alone, length_toList_sharedAt, Option.bind_some]

theorem crossings_of_ancestors {path above : Path}
    (ancestors : path.ancestors = above :: above.ancestors) :
    layers.crossings path =
      layers.crossings above + ((layers.walk above).bind layers.sharedAt).isSome.toNat := by
  rw [crossings, ancestors, List.countP_cons, ← crossings]
  cases ((layers.walk above).bind layers.sharedAt).isSome <;> rfl

theorem crossings_absolute {first : Name}
    (authored : layers.specs.contains (.absolute [first]) = true) (rest : List Name) :
    layers.crossings (.absolute (first :: rest)) =
      (layers.prototypesAlong ⟨[first], .absolute [first], false⟩ rest).length := by
  induction rest using List.reverseRecOn with
  | nil =>
      have above : (Path.absolute [first]).ancestors = [.absolute []] :=
        Path.ancestors_absolute_append [] first
      have nowhere : layers.walk (.absolute []) = none := rfl
      simp [crossings, above, nowhere, prototypesAlong]
  | append_singleton rest name ih =>
      rw [length_prototypesAlong_concat, ← ih, ← List.cons_append,
        crossings_of_ancestors (Path.ancestors_absolute_append _ name), walk_absolute _ authored]
      rfl

theorem crossings_of_elements {path : Path} {first : Name} {rest : List Name}
    (anchored : path.anchor = .absolute) (elements : path.elements = first :: rest)
    (authored : layers.specs.contains (.absolute [first]) = true) :
    layers.crossings path =
      (layers.prototypesAlong ⟨[first], .absolute [first], false⟩ rest).length +
        (path.isPropertyPath &&
          layers.endsShared ⟨[first], .absolute [first], false⟩ rest).toNat := by
  rw [← crossings_absolute authored]
  by_cases property : path.isPropertyPath = true
  · rw [crossings_of_ancestors (Path.ancestors_of_property anchored property), elements,
      walk_absolute _ authored, property, Bool.true_and]
    rfl
  · have here : path = .absolute (first :: rest) :=
      Path.ext anchored elements (by simpa [Path.isPropertyPath] using property)
    rw [here]
    simp [Path.isPropertyPath]

end Layers

namespace Scene

variable {scene : Scene} {prototypes : OrderedMap Path Path}

theorem Sound.below_missing (sound : scene.Sound) {names rest : List Name} {name : Name}
    {target : Path} (named : names ≠ []) (anchored : target.anchor = .absolute)
    (elements : target.elements = names ++ name :: rest)
    (missing : scene.prims.contains (.absolute (names ++ [name])) = false) :
    scene.Below names (name :: rest) target := by
  refine ⟨named, anchored, elements, Or.inl (by simp), ?_⟩
  intro longer nonempty within
  refine Option.eq_none_iff_forall_ne_some.mpr fun value found => ?_
  obtain ⟨first, others, rfl⟩ := List.exists_cons_of_ne_nil nonempty
  obtain ⟨rfl, _⟩ := List.cons_prefix_cons.mp within
  have above : scene.prims.contains (.absolute (names ++ [first])) = true := by
    refine sound.contains_of_prefix (by simp) (OrderedMap.contains_iff.mpr ⟨value, found⟩) ?_
    exact (List.prefix_append_right_inj _).mpr (by simp)
  rw [missing] at above
  cases above

theorem Sound.below_instance (sound : scene.Sound) {names rest : List Name} {target root : Path}
    (named : names ≠ []) (anchored : target.anchor = .absolute)
    (elements : target.elements = names ++ rest)
    (deeper : rest ≠ [] ∨ target.isPropertyPath = true)
    (found : scene.prims.get? (.absolute names) = some (some root)) :
    scene.Below names rest target := by
  refine ⟨named, anchored, elements, deeper, ?_⟩
  intro longer nonempty _
  refine Option.eq_none_iff_forall_ne_some.mpr fun value present => ?_
  have plain := sound.on_the_way named (OrderedMap.contains_iff.mpr ⟨value, present⟩)
    (List.prefix_append names longer) (by simpa using nonempty)
  rw [found] at plain
  cases plain

theorem Sound.settles_enter (sound : scene.Sound)
    (rules : scene.layers.FollowsRules ⟨scene.prims, prototypes⟩) {position : Position}
    {inPrototype : Bool} {source target : Path} {names rest : List Name}
    (stands : scene.layers.Stands prototypes.get? position ⟨inPrototype, source, .absolute names⟩)
    (named : names ≠ []) (anchored : target.anchor = .absolute)
    (elements : target.elements = names ++ rest)
    (deeper : rest ≠ [] ∨ target.isPropertyPath = true) :
    ∃ below next, below ≠ [] ∧
      scene.layers.Hosts prototypes.get? (scene.layers.entered position).crossed
        (scene.layers.entered position).source (.absolute below) ∧
      ((scene.layers.entered position).crossed = false → below = position.names) ∧
      next.anchor = .absolute ∧ next.elements = below ++ rest ∧
      next.isPropertyPath = target.isPropertyPath ∧
      ∀ hops answer, scene.Settles hops next answer →
        scene.Settles (hops + (scene.layers.sharedAt position).isSome.toNat) target answer := by
  obtain ⟨below, hosts, place, ⟨unshared, rfl⟩ | ⟨_, root, shared, rfl, present⟩⟩ :=
    stands.hosts rules
  · refine ⟨below, target, named, hosts, place, anchored, elements, rfl, ?_⟩
    rw [unshared]
    exact fun _ _ settles => settles
  · have above := sound.below_instance named anchored elements deeper present
    obtain ⟨next, nextAnchored, nextElements, property, forwarded⟩ :=
      forwardedTarget_instance above present (by simp) (rules.prim_host hosts)
    refine ⟨[root], next, by simp, hosts, place, nextAnchored, nextElements, ?_, ?_⟩
    · rw [Path.isPropertyPath, property, Path.isPropertyPath]
    · rw [shared]
      exact fun _ _ settles => .hop (above.absent sound) forwarded settles

/-- From where the walk stands, the hops to come are the instances that the rest of the path goes
through, and the answer is what the walk comes to. -/
theorem Sound.settles_walk (sound : scene.Sound)
    (rules : scene.layers.FollowsRules ⟨scene.prims, prototypes⟩) {position : Position}
    {inPrototype : Bool} {source target : Path} {names rest : List Name}
    (stands : scene.layers.Stands prototypes.get? position ⟨inPrototype, source, .absolute names⟩)
    (named : names ≠ []) (anchored : target.anchor = .absolute)
    (elements : target.elements = names ++ rest) :
    ∃ answer, scene.Settles ((scene.layers.prototypesAlong position rest).length +
        (target.isPropertyPath && scene.layers.endsShared position rest).toNat) target answer ∧
      answer.map Prim.isInstance =
        if target.isPropertyPath then none
        else (rest.foldlM scene.layers.step position).map fun last =>
          (scene.layers.sharedAt last).isSome := by
  induction rest generalizing position inPrototype source target names with
  | nil =>
      cases property : target.isPropertyPath with
      | true =>
          obtain ⟨below, next, belowNamed, hosts, _, nextAnchored, nextElements, same, further⟩ :=
            sound.settles_enter rules stands named anchored elements (Or.inr property)
          have nextBelow : scene.Below below [] next :=
            ⟨belowNamed, nextAnchored, nextElements, Or.inr (same.trans property),
              by simp +contextual⟩
          refine ⟨none, ?_, by simp⟩
          simpa [Layers.prototypesAlong, Layers.endsShared] using
            further 0 none (settles_plain sound nextBelow (rules.prim_host hosts))
      | false =>
          obtain ⟨value, present, shared⟩ := stands.prim rules
          have here : target = .absolute names :=
            Path.ext anchored (by simpa using elements)
              (by simpa [Path.isPropertyPath] using property)
          refine ⟨_, .found (here ▸ present), ?_⟩
          simpa [Prim.isInstance] using shared
  | cons name rest ih =>
      obtain ⟨below, next, belowNamed, hosts, place, nextAnchored, nextElements, same, further⟩ :=
        sound.settles_enter rules stands named anchored elements (Or.inl (by simp))
      cases child : scene.layers.childNamed (scene.layers.entered position).source name with
      | none =>
          have stuck := Layers.step_eq_none.mpr child
          have missing := rules.child_missing sound.specs.admissible hosts belowNamed child
          have nextBelow := sound.below_missing belowNamed nextAnchored nextElements missing
          refine ⟨none, ?_, by simp [stuck]⟩
          rw [Layers.prototypesAlong_stuck rest stuck, Layers.endsShared_stuck rest stuck,
            Layers.length_toList_sharedAt,
            Bool.and_false, Bool.toNat_false, Nat.add_comm]
          exact further 0 none (settles_plain sound nextBelow (rules.prim_host hosts))
      | some origin =>
          have stepped := Layers.step_eq_some.mpr ⟨origin, child, rfl⟩
          obtain ⟨answer, settles, agrees⟩ :=
            ih (Layers.Stands.step rules hosts child position.names place) (by simp) nextAnchored
              (by simp [nextElements])
          refine ⟨answer, ?_, by rw [agrees, same, List.foldlM_cons, stepped]; rfl⟩
          rw [Layers.prototypesAlong_step rest stepped, Layers.endsShared_step rest stepped,
            List.length_append, Layers.length_toList_sharedAt, Nat.add_assoc, Nat.add_comm, ← same]
          exact further _ answer settles

def Foreign (scene : Scene) (path : Path) : Prop :=
  ∀ first rest, path.anchor = .absolute → path.elements = first :: rest →
    (Path.absolute [first]).isReserved = false ∧
      scene.layers.specs.contains (.absolute [first]) = false

theorem Sound.nothing_at (sound : scene.Sound) {path : Path} (foreign : scene.Foreign path) :
    scene.prims.get? path = none := by
  refine Option.eq_none_iff_forall_ne_some.mpr fun value found => ?_
  have present := OrderedMap.contains_iff.mpr ⟨value, found⟩
  obtain ⟨names, named, rfl⟩ := sound.absolute present
  obtain ⟨first, rest, rfl⟩ := List.exists_cons_of_ne_nil named
  obtain ⟨unreserved, unauthored⟩ := foreign first rest rfl rfl
  have rootPresent : scene.prims.contains (.absolute [first]) = true :=
    sound.contains_of_prefix (by simp) present (by simp)
  obtain ⟨prototypes, rules⟩ := sound.rules
  rcases rules.root_prim sound.specs.admissible rootPresent with authored | reserved
  · rw [unauthored] at authored
    cases authored
  · rw [unreserved] at reserved
    cases reserved

theorem Foreign.above {path above : Path} (foreign : scene.Foreign path)
    (higher : above ∈ path.ancestors) : scene.Foreign above := by
  intro first rest anchored elements
  obtain ⟨others, same⟩ := Path.begins_of_mem_ancestors higher
  rw [elements] at same
  exact foreign first (rest ++ others)
    ((Path.anchor_of_mem_ancestors higher).symm.trans anchored) same.symm

theorem Sound.nothing_above (sound : scene.Sound) {path : Path} (foreign : scene.Foreign path) :
    ∀ above ∈ path.ancestors, scene.prims.get? above = none :=
  fun _ higher => sound.nothing_at (foreign.above higher)

theorem Foreign.walk {path : Path} (foreign : scene.Foreign path) :
    scene.layers.walk path = none := by
  refine Option.eq_none_iff_forall_ne_some.mpr fun last walked => ?_
  obtain ⟨first, rest, rfl, authored, _⟩ := Layers.follow_eq_some walked
  rw [(foreign first rest rfl rfl).2] at authored
  cases authored

theorem Foreign.crossings {path : Path} (foreign : scene.Foreign path) :
    scene.layers.crossings path = 0 := by
  rw [Layers.crossings, List.countP_eq_zero]
  intro above higher
  simp [(foreign.above higher).walk]

theorem Sound.settles_crossings (sound : scene.Sound) {path : Path}
    (unreserved : path.isReserved = false) :
    ∃ answer, scene.Settles (scene.layers.crossings path) path answer ∧
      answer.map Prim.isInstance = (scene.layers.walk path).map fun last =>
        (scene.layers.sharedAt last).isSome := by
  by_cases started : ∃ first rest, path.anchor = .absolute ∧ path.elements = first :: rest ∧
      scene.layers.specs.contains (.absolute [first]) = true
  · obtain ⟨first, rest, anchored, elements, authored⟩ := started
    obtain ⟨prototypes, rules⟩ := sound.rules
    have placed : scene.layers.Placed prototypes.get?
        ⟨false, .absolute [first], .absolute [first]⟩ := Layers.Placed.of_authored authored
    obtain ⟨answer, settles, agrees⟩ :=
      sound.settles_walk rules placed.stands (by simp) anchored elements
    rw [← Layers.crossings_of_elements anchored elements authored] at settles
    refine ⟨answer, settles, ?_⟩
    rw [agrees, Layers.walk, Layers.follow_of_elements anchored elements authored]
    split <;> rfl
  · have foreign : scene.Foreign path := by
      intro first rest anchored elements
      constructor
      · rw [← unreserved]
        exact Path.isReserved_of_prefix anchored (by simp) ⟨rest, elements.symm⟩
      · refine Bool.eq_false_iff.mpr fun authored => ?_
        exact started ⟨first, rest, anchored, elements, authored⟩
    rw [foreign.crossings, foreign.walk]
    exact ⟨none, settles_nowhere (sound.nothing_at foreign) (sound.nothing_above foreign), rfl⟩

theorem Sound.resolve_walk (sound : scene.Sound) {path : Path} {options : ForwardingOptions}
    (unreserved : path.isReserved = false) (room : max 1 path.elementCount ≤ options.maxDepth) :
    ∃ answer, (stage.resolve path options scene).result = .ok answer ∧
      answer.map Prim.isInstance = (scene.layers.walk path).map fun last =>
        (scene.layers.sharedAt last).isSome := by
  obtain ⟨answer, settles, agrees⟩ := sound.settles_crossings unreserved
  exact ⟨answer, sound.resolve_of_settles settles room, agrees⟩

/-- In every scene that calls lead to, forwarding finds for a path what the walk over the authored
prims finds, and nothing if the walk finds nothing. -/
theorem reachable_resolve_walk (reachable : Reachable scene) {path : Path}
    {options : ForwardingOptions} (unreserved : path.isReserved = false)
    (room : max 1 path.elementCount ≤ options.maxDepth) :
    (stage.resolve path options scene).result.map (Option.map Prim.isInstance) =
      .ok ((scene.layers.walk path).map fun last => (scene.layers.sharedAt last).isSome) := by
  obtain ⟨answer, resolved, agrees⟩ := reachable.sound.resolve_walk unreserved room
  rw [resolved, Except.map, agrees]

theorem reachable_resolve_walk_hall :
    let seat : Name := ⟨"Seat", by decide⟩
    let first : Name := ⟨"first", by decide⟩
    let leg : Name := ⟨"leg", by decide⟩
    let hallName : Name := ⟨"Hall", by decide⟩
    let path := Path.absolute [hallName, first, leg]
    let scene := (load hall).state
    scene.layers.walk path = some ⟨[hallName, first, leg], .absolute [seat, leg], true⟩ ∧
      (stage.resolve path ⟨3⟩ scene).result.map (Option.map Prim.isInstance) =
        .ok ((scene.layers.walk path).map fun last => (scene.layers.sharedAt last).isSome) := by
  intro seat first leg hallName path scene
  refine ⟨by decide +kernel, ?_⟩
  exact reachable_resolve_walk (Reachable.load hall_loads) (by decide +kernel) (by decide +kernel)

end Scene

end SceneGraph
