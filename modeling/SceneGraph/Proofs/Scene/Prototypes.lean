import SceneGraph.Proofs.Scene.References
import SceneGraph.Proofs.Scene.Reachable

/-!
The prototypes of a scene. There is one for each prim that instances share, whichever instance came
first; they are numbered from one on without gaps; and none is there that no instance leads to.
-/

namespace SceneGraph

theorem IsPrototypeRoot.unique {number : Nat} {left right : Path}
    (first : IsPrototypeRoot number left) (second : IsPrototypeRoot number right) :
    left = right := by
  obtain ⟨⟨text, _⟩, rfl, rfl⟩ := first
  obtain ⟨⟨other, _⟩, rfl, rfl⟩ := second
  rfl

theorem IsPrototypeRoot.elementCount {number : Nat} {root : Path}
    (rooted : IsPrototypeRoot number root) : root.elementCount = 1 := by
  obtain ⟨name, _, rfl⟩ := rooted
  rfl

namespace Layers

variable {layers : Layers} {composition first last : Composition} {jobs visits : List Placement}

def Contiguous (composition : Composition) : Prop :=
  ∀ root, (∃ target, composition.prototypes.get? target = some root) ↔
    ∃ number, 0 < number ∧ number ≤ composition.prototypes.size ∧ IsPrototypeRoot number root

theorem contiguous_empty : Contiguous {} := by
  intro root
  constructor
  · rintro ⟨target, impossible⟩
    cases impossible
  · rintro ⟨number, positive, bound, _⟩
    exact absurd positive (Nat.not_lt.mpr bound)

theorem Contiguous.addPrototype {target root : Path} (contiguous : Contiguous first)
    (unknown : first.prototypes.get? target = none) (next : first.nextPrototype = .ok root) :
    Contiguous (first.addPrototype target root) := by
  have rooted := nextPrototype_eq_ok next
  intro other
  rw [size_addPrototype root unknown]
  constructor
  · rintro ⟨source, known⟩
    rcases OrderedMap.get?_insert_eq_some known with ⟨_, rfl⟩ | ⟨_, earlier⟩
    · exact ⟨_, Nat.succ_pos _, Nat.le_refl _, rooted⟩
    · obtain ⟨number, positive, bound, otherRooted⟩ := (contiguous other).mp ⟨source, earlier⟩
      exact ⟨number, positive, by omega, otherRooted⟩
  · rintro ⟨number, positive, bound, otherRooted⟩
    rcases Nat.le_succ_iff.mp bound with lower | rfl
    · obtain ⟨source, known⟩ := (contiguous other).mpr ⟨number, positive, lower, otherRooted⟩
      have different : source ≠ target := by
        rintro rfl
        rw [unknown] at known
        cases known
      exact ⟨source, (OrderedMap.get?_insert_of_ne _ _ different).trans known⟩
    · rw [otherRooted.unique rooted]
      exact ⟨target, OrderedMap.get?_insert_self _ _ _⟩

theorem Run.contiguous (run : layers.Run jobs first visits last) (contiguous : Contiguous first) :
    Contiguous last := by
  induction run with
  | done => exact contiguous
  | plain _ _ _ _ _ _ ihBelow ihAfter => exact ihAfter (ihBelow contiguous)
  | sharing _ _ _ ih => exact ih contiguous
  | prototyping _ unknown next _ _ _ _ ihBelow ihAfter =>
      exact ihAfter (ihBelow (contiguous.addPrototype unknown next))

theorem contiguous_of_composition (composed : layers.composition = .ok composition) :
    Contiguous composition := by
  obtain ⟨_, run⟩ := run_of_composition composed
  exact run.contiguous contiguous_empty

theorem FollowsRules.instance_placed (rules : layers.FollowsRules composition) {place root : Path}
    (found : composition.prims.get? place = some (some root)) :
    ∃ placement target, layers.Placed composition.prototypes.get? placement ∧
      placement.place = place ∧ layers.Shares placement target ∧
      composition.prototypes.get? target = some root := by
  rcases (rules.prims _ _).mp found with ⟨placement, placed, here, holds⟩ | ⟨impossible, _⟩
  · rcases holds with ⟨impossible, _⟩ | ⟨target, _, shares, known, same⟩
    · cases impossible
    · cases same
      exact ⟨placement, target, placed, here, shares, known⟩
  · cases impossible

theorem FollowsRules.shares (rules : layers.FollowsRules composition) {placement : Placement}
    {root : Path} (placed : layers.Placed composition.prototypes.get? placement)
    (found : composition.prims.get? placement.place = some (some root)) :
    ∃ target, layers.Shares placement target ∧ composition.prototypes.get? target = some root := by
  obtain ⟨other, target, otherPlaced, here, shares, known⟩ := rules.instance_placed found
  rw [rules.unique _ _ otherPlaced placed here] at shares
  exact ⟨target, shares, known⟩

theorem FollowsRules.same_root_iff (rules : layers.FollowsRules composition)
    {left right : Placement} {leftRoot rightRoot : Path}
    (leftPlaced : layers.Placed composition.prototypes.get? left)
    (rightPlaced : layers.Placed composition.prototypes.get? right)
    (leftFound : composition.prims.get? left.place = some (some leftRoot))
    (rightFound : composition.prims.get? right.place = some (some rightRoot)) :
    leftRoot = rightRoot ↔
      ∃ target, layers.References left.source target ∧ layers.References right.source target := by
  obtain ⟨leftTarget, leftShares, leftKnown⟩ := rules.shares leftPlaced leftFound
  obtain ⟨rightTarget, rightShares, rightKnown⟩ := rules.shares rightPlaced rightFound
  constructor
  · rintro rfl
    obtain rfl := rules.distinct _ _ _ leftKnown rightKnown
    exact ⟨leftTarget, leftShares.references, rightShares.references⟩
  · rintro ⟨target, leftReferences, rightReferences⟩
    rw [← leftReferences.unique leftShares.references] at leftKnown
    rw [← rightReferences.unique rightShares.references] at rightKnown
    exact Option.some.inj (leftKnown.symm.trans rightKnown)

theorem FollowsRules.prototypes_iff (rules : layers.FollowsRules composition)
    (admissible : layers.specs.Admissible) {root : Path} :
    (∃ target, composition.prototypes.get? target = some root) ↔
      composition.prims.contains root = true ∧ root.elementCount = 1 ∧ root.isReserved = true := by
  constructor
  · rintro ⟨target, known⟩
    obtain ⟨number, rooted⟩ := rules.roots target root known
    exact ⟨OrderedMap.contains_iff.mpr ⟨none, rules.prim_root known⟩, rooted.elementCount,
      rooted.reserved⟩
  · rintro ⟨present, single, reserved⟩
    obtain ⟨value, found⟩ := OrderedMap.contains_iff.mp present
    rcases (rules.prims _ _).mp found with ⟨placement, placed, rfl, _⟩ | ⟨_, known⟩
    · rcases placed.root_or_deeper admissible rules.roots with isRoot | deeper
      · rw [(admissible _ (mem_rootPrims.mp isRoot).1).2] at reserved
        cases reserved
      · omega
    · exact known

end Layers

namespace Scene

def ComposedFrom (scene : Scene) (source place : Path) : Prop :=
  ∃ composition inPrototype, scene.layers.composition = .ok composition ∧
    scene.layers.Placed composition.prototypes.get? ⟨inPrototype, source, place⟩

/-- An instance inside the prototype `outer` shares the prototype `inner`. -/
def Nests (scene : Scene) (outer inner : Path) : Prop :=
  ∃ place, place.isWithin outer = true ∧ scene.prims.get? place = some (some inner)

/-- An instance outside prototypes leads to the prototype, through the instances inside others. -/
def InUse (scene : Scene) (root : Path) : Prop :=
  ∃ place first, place.isReserved = false ∧ scene.prims.get? place = some (some first) ∧
    Relation.ReflTransGen scene.Nests first root

/-- What is true of the prototypes of a scene, and of the instances that share them. -/
structure Tidy (scene : Scene) : Prop where
  distinct : scene.prototypeRoots.Nodup
  numbered : ∀ root, root ∈ scene.prototypeRoots ↔
    ∃ number, 0 < number ∧ number ≤ scene.prototypeRoots.length ∧ IsPrototypeRoot number root
  sources : ∀ place root, scene.prims.get? place = some (some root) →
    root ∈ scene.prototypeRoots ∧
      ∃ source target, scene.ComposedFrom source place ∧ scene.layers.References source target ∧
        ∀ other, scene.ComposedFrom other place → other = source
  deduplicated : ∀ left right leftSource rightSource leftRoot rightRoot,
    scene.ComposedFrom leftSource left → scene.ComposedFrom rightSource right →
    scene.prims.get? left = some (some leftRoot) → scene.prims.get? right = some (some rightRoot) →
    (leftRoot = rightRoot ↔ ∃ target, scene.layers.References leftSource target ∧
      scene.layers.References rightSource target)
  used : ∀ root ∈ scene.prototypeRoots, scene.InUse root

variable {scene : Scene} {prototypes : OrderedMap Path Path}

theorem ComposedFrom.placed {composition : Composition} {source place : Path}
    (composedFrom : scene.ComposedFrom source place)
    (composed : scene.layers.composition = .ok composition) :
    ∃ inPrototype,
      scene.layers.Placed composition.prototypes.get? ⟨inPrototype, source, place⟩ := by
  obtain ⟨other, inPrototype, otherComposed, placed⟩ := composedFrom
  cases composed.symm.trans otherComposed
  exact ⟨inPrototype, placed⟩

theorem Sound.mem_prototypeRoots (sound : scene.Sound)
    (rules : scene.layers.FollowsRules ⟨scene.prims, prototypes⟩) {root : Path} :
    root ∈ scene.prototypeRoots ↔ ∃ target, prototypes.get? target = some root := by
  rw [rules.prototypes_iff sound.specs.admissible]
  simp [prototypeRoots, OrderedMap.mem_keys_iff]

theorem nodup_prototypeRoots (scene : Scene) : scene.prototypeRoots.Nodup :=
  (OrderedMap.keys_nodup _).filter _

theorem Sound.length_prototypeRoots (sound : scene.Sound)
    (rules : scene.layers.FollowsRules ⟨scene.prims, prototypes⟩) :
    scene.prototypeRoots.length = prototypes.size := by
  have entries : prototypes.entries.Nodup := prototypes.keys_nodup.of_map
  have roots : (prototypes.entries.map Prod.snd).Nodup := by
    refine entries.map_on ?_
    rintro ⟨left, root⟩ leftKnown ⟨right, _⟩ rightKnown rfl
    rw [← OrderedMap.get?_eq_some_iff] at leftKnown rightKnown
    rw [rules.distinct _ _ _ leftKnown rightKnown]
  have permuted : scene.prototypeRoots.Perm (prototypes.entries.map Prod.snd) := by
    refine (List.perm_ext_iff_of_nodup scene.nodup_prototypeRoots roots).mpr fun root => ?_
    rw [sound.mem_prototypeRoots rules]
    simp [OrderedMap.get?_eq_some_iff]
  rw [permuted.length_eq, List.length_map, OrderedMap.size]

theorem InUse.nested {outer inner place : Path} (used : scene.InUse outer)
    (within : place.isWithin outer = true)
    (found : scene.prims.get? place = some (some inner)) : scene.InUse inner := by
  obtain ⟨sharer, first, unreserved, shared, leads⟩ := used
  exact ⟨sharer, first, unreserved, shared, leads.tail ⟨place, within, found⟩⟩

theorem inUse_of_shares (rules : scene.layers.FollowsRules ⟨scene.prims, prototypes⟩)
    (admissible : scene.layers.specs.Admissible) {sharer : Placement} {target root : Path}
    (placed : scene.layers.Placed prototypes.get? sharer)
    (nested : sharer.inPrototype = true →
      ∃ outer, scene.InUse outer ∧ sharer.place.isWithin outer = true)
    (shares : scene.layers.Shares sharer target) (known : prototypes.get? target = some root) :
    scene.InUse root := by
  have found := rules.prim_shared placed shares known
  cases inside : sharer.inPrototype with
  | true =>
      obtain ⟨outer, used, within⟩ := nested inside
      exact used.nested within found
  | false =>
      have unreserved := placed.isReserved_eq admissible rules.roots
      exact ⟨sharer.place, root, unreserved.trans inside, found, .refl⟩

theorem inUse_of_placed (rules : scene.layers.FollowsRules ⟨scene.prims, prototypes⟩)
    (admissible : scene.layers.specs.Admissible) {placement : Placement}
    (placed : scene.layers.Placed prototypes.get? placement)
    (inside : placement.inPrototype = true) :
    ∃ outer, scene.InUse outer ∧ placement.place.isWithin outer = true := by
  induction placed with
  | root => cases inside
  | child _ _ _ _ below ih =>
      obtain ⟨outer, used, within⟩ := ih inside
      exact ⟨outer, used, Path.isWithin_child within below⟩
  | @shared _ _ root _ _ _ sharer shares known _ _ below ih =>
      refine ⟨root, inUse_of_shares rules admissible sharer ih shares known, ?_⟩
      obtain ⟨_, first, _, rfl⟩ := rules.roots _ _ known
      obtain ⟨name, _, rfl⟩ := Path.child_absolute_eq_ok below
      exact Path.isWithin_absolute.mpr (List.prefix_append _ _)

/-- In every scene that calls lead to there is one prototype for each prim that instances share, the
prototypes are numbered without gaps, and an instance outside leads to each of them. -/
theorem reachable_tidy (reachable : Reachable scene) : scene.Tidy := by
  have sound := reachable.sound
  have admissible := sound.specs.admissible
  obtain ⟨composition, composed, same⟩ := sound.composed
  have rules : scene.layers.FollowsRules ⟨scene.prims, composition.prototypes⟩ := by
    rw [← same]
    exact Layers.followsRules_of_composition admissible composed
  have roots {root : Path} : root ∈ scene.prototypeRoots ↔
      ∃ target, composition.prototypes.get? target = some root := sound.mem_prototypeRoots rules
  refine ⟨scene.nodup_prototypeRoots, fun root => ?_, fun place root found => ?_, ?_, ?_⟩
  · rw [roots, sound.length_prototypeRoots rules]
    exact Layers.contiguous_of_composition composed root
  · obtain ⟨⟨inPrototype, source, _⟩, target, placed, rfl, shares, known⟩ :=
      rules.instance_placed found
    refine ⟨roots.mpr ⟨target, known⟩, source, target, ⟨composition, inPrototype, composed, placed⟩,
      shares.references, fun other otherFrom => ?_⟩
    obtain ⟨_, otherPlaced⟩ := otherFrom.placed composed
    exact congrArg Placement.source (rules.unique _ _ otherPlaced placed rfl)
  · intro _ _ _ _ _ _ leftFrom rightFrom leftFound rightFound
    obtain ⟨_, leftPlaced⟩ := leftFrom.placed composed
    obtain ⟨_, rightPlaced⟩ := rightFrom.placed composed
    exact rules.same_root_iff leftPlaced rightPlaced leftFound rightFound
  · intro root member
    obtain ⟨target, known⟩ := roots.mp member
    obtain ⟨sharer, placed, shares⟩ :=
      (rules.prototypes target).mp (OrderedMap.contains_iff.mpr ⟨root, known⟩)
    exact inUse_of_shares rules admissible placed (inUse_of_placed rules admissible placed) shares
      known

theorem reachable_tidy_hall :
    let copy := Path.absolute [⟨"Copy", by decide⟩]
    let hallPath := Path.absolute [⟨"Hall", by decide⟩]
    let row := Path.absolute [⟨"Row", by decide⟩]
    let seat : Prim := ⟨.absolute [⟨"Row", by decide⟩, ⟨"first", by decide⟩], none⟩
    let first := Path.absolute [⟨"__Prototype_1", by decide⟩]
    let second := Path.absolute [⟨"__Prototype_2", by decide⟩]
    let nested := Path.absolute [⟨"__Prototype_1", by decide⟩, ⟨"first", by decide⟩]
    let copied := ((load hall).state.authorReference copy row).state
    let scene := ((copied.authorInstanceable copy true).state.setInstanceable seat false).state
    scene.prims.get? copy = some (some first) ∧ scene.prims.get? hallPath = some (some first) ∧
      scene.prims.get? nested = some (some second) ∧ scene.prototypeRoots = [first, second] ∧
      scene.Tidy := by
  intro copy hallPath row seat first second nested copied scene
  have reachable : Reachable scene :=
    (((Reachable.load hall_loads).authorReference copy row).authorInstanceable copy
      true).setInstanceable seat false
  exact ⟨by decide +kernel, by decide +kernel, by decide +kernel, by decide +kernel,
    reachable_tidy reachable⟩

end Scene

end SceneGraph
