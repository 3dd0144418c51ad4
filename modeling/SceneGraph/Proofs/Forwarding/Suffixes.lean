import SceneGraph.Proofs.Forwarding.Limits
import SceneGraph.Proofs.Path.Rebasing

/-!
Resolving goes through a path from its start: once a part of it has come to a prim, the rest is
followed from there as it would be from any other way to that prim.
-/

namespace SceneGraph

namespace Path

variable {path suffix longer : Path}

theorem append?_absolute_eq_some {names : List Name} :
    (absolute names).append? suffix = some longer ↔ suffix.anchor = .relative ∧
      longer.anchor = .absolute ∧ longer.elements = names ++ suffix.elements ∧
      longer.property = suffix.property := by
  rw [append?_eq_some_iff, joins_below_iff rfl rfl]
  exact and_iff_right rfl

theorem eq_absolute_of_append? (anchored : path.anchor = .absolute)
    (joined : path.append? suffix = some longer) : path = .absolute path.elements := by
  have bare := (append?_eq_some_iff.mp joined).1
  exact Path.ext anchored rfl (by simpa [isPropertyPath] using bare)

theorem deeper_of_not_here (relative : suffix.anchor = .relative)
    (nontrivial : suffix.isHere = false) :
    suffix.elements ≠ [] ∨ suffix.isPropertyPath = true := by
  by_contra trivial
  obtain ⟨ended, bare⟩ := not_or.mp trivial
  have same : suffix = here :=
    Path.ext relative (not_not.mp ended) (by simpa [isPropertyPath, here] using bare)
  simp [isHere, same] at nontrivial

theorem exists_suffix {names rest : List Name} (deeper : rest ≠ []) :
    ∃ suffix, suffix.isHere = false ∧
      (absolute names).append? suffix = some (absolute (names ++ rest)) := by
  have elements : (absolute (names ++ rest)).elements = names ++ rest := rfl
  obtain ⟨suffix, _, relative, left, property⟩ := relativeTo?_absolute rfl elements
  refine ⟨suffix, Bool.eq_false_iff.mpr fun trivial => ?_, ?_⟩
  · have same : suffix = here := by simpa [isHere] using trivial
    exact deeper (by rw [← left, same]; rfl)
  · rw [append?_absolute_eq_some, left, property]
    exact ⟨relative, rfl, rfl, rfl⟩

end Path

namespace Scene

variable {scene : Scene} {path suffix longer root : Path} {hops : Nat} {prim : Prim}
  {answer : Option Prim} {options : ForwardingOptions}

theorem Sound.forwarded (sound : scene.Sound) {names rest : List Name} {target : Path}
    (named : names ≠ []) (anchored : target.anchor = .absolute)
    (elements : target.elements = names ++ rest)
    (deeper : rest ≠ [] ∨ target.isPropertyPath = true)
    (found : scene.prims.get? (.absolute names) = some (some root)) :
    scene.prims.get? target = none ∧ ∃ name next, root = .absolute [name] ∧
      next.anchor = .absolute ∧ next.elements = name :: rest ∧ next.property = target.property ∧
      (stage.forwardedTarget target scene).1 = .ok (some next) := by
  have below := sound.below_instance named anchored elements deeper found
  obtain ⟨name, rfl, _, present⟩ := sound.instance_root found
  obtain ⟨next, placed⟩ := forwardedTarget_instance below found (by simp) present
  exact ⟨below.absent sound, name, next, rfl, placed⟩

theorem Sound.forwarded_append (sound : scene.Sound) {next : Path}
    (absent : scene.prims.get? path = none)
    (forwarded : (stage.forwardedTarget path scene).1 = .ok (some next))
    (joined : path.append? suffix = some longer) :
    scene.prims.get? longer = none ∧ ∃ further, next.append? suffix = some further ∧
      (stage.forwardedTarget longer scene).1 = .ok (some further) := by
  rcases sound.nearest absent with nothing | ⟨names, rest, value, below, found⟩
  · cases (forwardedTarget_nowhere nothing).symm.trans forwarded
  cases value with
  | none => cases (forwardedTarget_plain below found).symm.trans forwarded
  | some root =>
      have located := Path.eq_absolute_of_append? below.anchored joined
      have bare : path.property = none := by rw [located]; rfl
      have deeper : rest ≠ [] :=
        below.deeper.resolve_right (by simp [Path.isPropertyPath, bare])
      obtain ⟨_, name, _, rfl, nextAnchored, nextElements, nextProperty, same⟩ :=
        sound.forwarded below.named below.anchored below.elements below.deeper found
      cases forwarded.symm.trans same
      have here : next = .absolute (name :: rest) :=
        Path.ext nextAnchored nextElements (nextProperty.trans bare)
      rw [located, below.elements, Path.append?_absolute_eq_some] at joined
      obtain ⟨relative, anchored, elements, property⟩ := joined
      rw [List.append_assoc] at elements
      obtain ⟨longerAbsent, other, further, sameRoot, furtherAnchored, furtherElements,
        furtherProperty, longerForwarded⟩ :=
          sound.forwarded below.named anchored elements (Or.inl (by simp [deeper])) found
      obtain rfl : name = other := by simpa using sameRoot
      refine ⟨longerAbsent, further, ?_, longerForwarded⟩
      rw [here, Path.append?_absolute_eq_some]
      exact ⟨relative, furtherAnchored, furtherElements, furtherProperty.trans property⟩

theorem Settles.append (sound : scene.Sound) (settles : scene.Settles hops path (some prim))
    (joined : path.append? suffix = some longer) :
    ∃ next, prim.path.append? suffix = some next ∧
      ∀ more answer, scene.Settles more next answer →
        scene.Settles (hops + more) longer answer := by
  generalize came : some prim = answer at settles
  induction settles generalizing longer with
  | found present =>
      cases came
      exact ⟨longer, joined, fun more answer settles => by rwa [Nat.zero_add]⟩
  | nowhere => cases came
  | hop absent forwarded _ ih =>
      obtain ⟨longerAbsent, further, extended, longerForwarded⟩ :=
        sound.forwarded_append absent forwarded joined
      obtain ⟨last, ended, follows⟩ := ih extended came
      refine ⟨last, ended, fun more answer settles => ?_⟩
      rw [Nat.add_right_comm]
      exact .hop longerAbsent longerForwarded (follows more answer settles)

theorem Sound.settles_shared (sound : scene.Sound)
    (found : scene.prims.get? path = some (some root)) (nontrivial : suffix.isHere = false)
    (joined : path.append? suffix = some longer) :
    ∃ next, root.append? suffix = some next ∧
      ∀ more answer, scene.Settles more next answer → scene.Settles (1 + more) longer answer := by
  obtain ⟨names, named, rfl⟩ := sound.absolute (OrderedMap.contains_iff.mpr ⟨_, found⟩)
  obtain ⟨relative, anchored, elements, property⟩ :=
    Path.append?_absolute_eq_some.mp joined
  have deeper : suffix.elements ≠ [] ∨ longer.isPropertyPath = true := by
    have deeper := Path.deeper_of_not_here relative nontrivial
    rwa [Path.isPropertyPath, ← property] at deeper
  obtain ⟨absent, name, next, rfl, nextAnchored, nextElements, nextProperty, forwarded⟩ :=
    sound.forwarded named anchored elements deeper found
  refine ⟨next, ?_, fun more answer settles => Nat.add_comm 1 more ▸ .hop absent forwarded settles⟩
  rw [Path.append?_absolute_eq_some]
  exact ⟨relative, nextAnchored, nextElements, nextProperty.trans property⟩

theorem Settles.resolve_within (settles : scene.Settles hops path answer)
    (positive : 0 < options.maxDepth) (within : hops ≤ options.maxDepth) :
    (stage.resolve path options scene).result = .ok answer := by
  rw [settles.resolve_eq positive, if_pos within]

theorem Sound.settles_along (sound : scene.Sound) {next : Path}
    (follows : ∀ more answer, scene.Settles more next answer →
      scene.Settles (hops + more) longer answer)
    (room : max 1 longer.elementCount ≤ options.maxDepth) :
    ∃ more answer, scene.Settles more next answer ∧ hops + more ≤ options.maxDepth := by
  obtain ⟨more, answer, _, settles⟩ := sound.settles next
  obtain ⟨total, other, bound, longerSettles⟩ := sound.settles longer
  obtain ⟨rfl, _⟩ := longerSettles.unique (follows more answer settles)
  have limited := longer.hopBound_le
  exact ⟨more, answer, settles, by omega⟩

theorem Sound.resolve_shared (sound : scene.Sound)
    (found : scene.prims.get? path = some (some root)) (nontrivial : suffix.isHere = false)
    (joined : path.append? suffix = some longer)
    (room : max 1 longer.elementCount ≤ options.maxDepth) :
    ∃ next answer, root.append? suffix = some next ∧
      (stage.resolve longer options scene).result = .ok answer ∧
      (stage.resolve next options scene).result = .ok answer := by
  have positive : 0 < options.maxDepth := by omega
  obtain ⟨next, extended, follows⟩ := sound.settles_shared found nontrivial joined
  obtain ⟨more, answer, settles, within⟩ := sound.settles_along follows room
  exact ⟨next, answer, extended, (follows more answer settles).resolve_within positive within,
    settles.resolve_within positive (by omega)⟩

/-- Where a path has come to a prim, what is added to it is resolved as if added to that prim's own
path. In particular nothing that is added tells two instances of one prototype apart. -/
theorem reachable_resolve_append (reachable : Reachable scene) (suffix : Path)
    (options : ForwardingOptions) :
    (∀ path longer prim, (stage.resolve path options scene).result = .ok (some prim) →
      path.append? suffix = some longer → max 1 longer.elementCount ≤ options.maxDepth →
      ∃ next answer, prim.path.append? suffix = some next ∧
        (stage.resolve longer options scene).result = .ok answer ∧
        (stage.resolve next options scene).result = .ok answer) ∧
    ∀ left right root leftLonger rightLonger, scene.primAt? left = some ⟨left, some root⟩ →
      scene.primAt? right = some ⟨right, some root⟩ → suffix.isHere = false →
      left.append? suffix = some leftLonger → right.append? suffix = some rightLonger →
      max 1 leftLonger.elementCount ≤ options.maxDepth →
      ∃ answer, (stage.resolve leftLonger options scene).result = .ok answer ∧
        (stage.resolve rightLonger options scene).result = .ok answer := by
  have sound := reachable.sound
  constructor
  · intro path longer prim resolved joined room
    have positive : 0 < options.maxDepth := by omega
    obtain ⟨hops, came, _, settles⟩ := sound.settles path
    obtain rfl : came = some prim := by
      rw [settles.resolve_eq positive] at resolved
      split at resolved
      · cases resolved
        rfl
      · cases resolved
    obtain ⟨next, extended, follows⟩ := settles.append sound joined
    obtain ⟨more, answer, nextSettles, within⟩ := sound.settles_along follows room
    exact ⟨next, answer, extended,
      (follows more answer nextSettles).resolve_within positive within,
      nextSettles.resolve_within positive (by omega)⟩
  · intro left right root leftLonger rightLonger leftShares rightShares nontrivial leftJoined
      rightJoined room
    have positive : 0 < options.maxDepth := by omega
    have leftFound : scene.prims.get? left = some (some root) := by
      simpa [primAt?] using leftShares
    have rightFound : scene.prims.get? right = some (some root) := by
      simpa [primAt?] using rightShares
    obtain ⟨next, extended, leftFollows⟩ := sound.settles_shared leftFound nontrivial leftJoined
    obtain ⟨_, again, rightFollows⟩ := sound.settles_shared rightFound nontrivial rightJoined
    cases extended.symm.trans again
    obtain ⟨more, answer, settles, within⟩ := sound.settles_along leftFollows room
    exact ⟨answer, (leftFollows more answer settles).resolve_within positive within,
      (rightFollows more answer settles).resolve_within positive within⟩

theorem reachable_resolve_append_hall :
    let first : Name := ⟨"first", by decide⟩
    let leg : Name := ⟨"leg", by decide⟩
    let seat := Path.absolute [⟨"Hall", by decide⟩, first]
    let other := Path.absolute [⟨"Row", by decide⟩, first]
    let root : Name := ⟨"__Prototype_1", by decide⟩
    let standing := Path.absolute [root, first]
    let prototype : Name := ⟨"__Prototype_2", by decide⟩
    let suffix : Path := ⟨.relative, [leg], none, by decide⟩
    let found : Prim := ⟨.absolute [prototype, leg], none⟩
    let scene := (load hall).state
    (stage.resolve seat ⟨3⟩ scene).result = .ok (some ⟨standing, some (.absolute [prototype])⟩) ∧
    (∃ longer next, seat.append? suffix = some longer ∧ standing.append? suffix = some next ∧
      (stage.resolve longer ⟨3⟩ scene).result = .ok (some found) ∧
      (stage.resolve next ⟨3⟩ scene).result = .ok (some found)) ∧
    ∃ left right, other.append? suffix = some left ∧ standing.append? suffix = some right ∧
      (stage.resolve left ⟨3⟩ scene).result = .ok (some found) ∧
      (stage.resolve right ⟨3⟩ scene).result = .ok (some found) := by
  intro first leg seat other root standing prototype suffix found scene
  have shares : (stage.resolve seat ⟨3⟩ scene).result =
      .ok (some ⟨standing, some (.absolute [prototype])⟩) := by decide +kernel
  have joined : standing.append? suffix = some (.absolute [root, first, leg]) := rfl
  have ends : (stage.resolve (.absolute [root, first, leg]) ⟨3⟩ scene).result =
      .ok (some found) := by decide +kernel
  obtain ⟨along, below⟩ :=
    reachable_resolve_append (Reachable.load hall_loads) suffix ⟨3⟩
  obtain ⟨next, answer, extended, resolved, same⟩ :=
    along seat _ _ shares rfl (by decide)
  obtain ⟨both, resolvedLeft, resolvedRight⟩ := below other standing (.absolute [prototype]) _ _
    (by decide +kernel) (by decide +kernel) (by decide) rfl joined (by decide)
  cases extended.symm.trans joined
  cases same.symm.trans ends
  cases resolvedRight.symm.trans ends
  exact ⟨shares, ⟨_, _, rfl, joined, resolved, same⟩, _, _, rfl, joined, resolvedLeft,
    resolvedRight⟩

end Scene

end SceneGraph
