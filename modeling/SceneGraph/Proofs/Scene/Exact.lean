import Mathlib.Data.List.Nodup
import SceneGraph.Proofs.Scene.Separate

/-!
A composition is exactly what the rules of composition yield, whatever the order of composing.
-/

namespace SceneGraph.Layers

variable {layers : Layers} {composition : Composition}

theorem Placed.absolute {prototypes : Path → Option Path} (admissible : layers.specs.Admissible)
    (rooted : ∀ target root, prototypes target = some root →
      ∃ number, IsPrototypeRoot number root)
    {placement : Placement} (placed : layers.Placed prototypes placement) :
    ∃ names, names ≠ [] ∧ placement.place = .absolute names := by
  induction placed with
  | root member =>
      have authored := (mem_rootPrims.mp member).1
      exact Path.isAbsolutePrimPath_iff.mp (admissible _ authored).1
  | child _ _ _ _ below ih =>
      obtain ⟨names, _, located⟩ := ih
      rw [located] at below
      obtain ⟨name, _, found⟩ := Path.child_absolute_eq_ok below
      exact ⟨names ++ [name], by simp, found⟩
  | shared _ _ known _ _ below =>
      obtain ⟨_, first, _, rfl⟩ := rooted _ _ known
      obtain ⟨name, _, found⟩ := Path.child_absolute_eq_ok below
      exact ⟨[first, name], by simp, found⟩

/-- A composition and the rules agree: a prim is there for each placement and each prototype root,
and nothing else is; prototypes are there for what instances share, each with a root of its own; no
place has two placements; and the children the rules ask for can be composed. -/
structure FollowsRules (layers : Layers) (composition : Composition) : Prop where
  prims : ∀ place value, composition.prims.get? place = some value ↔
    (∃ placement, layers.Placed composition.prototypes.get? placement ∧ placement.place = place ∧
      layers.Holds composition.prototypes.get? placement value) ∨
    value = none ∧ ∃ target, composition.prototypes.get? target = some place
  prototypes : ∀ target, composition.prototypes.contains target = true ↔
    ∃ placement, layers.Placed composition.prototypes.get? placement ∧
      layers.Shares placement target
  roots : ∀ target root, composition.prototypes.get? target = some root →
    ∃ number, IsPrototypeRoot number root
  distinct : ∀ left right root, composition.prototypes.get? left = some root →
    composition.prototypes.get? right = some root → left = right
  apart : ∀ placement, layers.Placed composition.prototypes.get? placement →
    ∀ target, composition.prototypes.get? target ≠ some placement.place
  unique : ∀ left right, layers.Placed composition.prototypes.get? left →
    layers.Placed composition.prototypes.get? right → left.place = right.place → left = right
  authored : ∀ placement, layers.Placed composition.prototypes.get? placement →
    layers.specs.contains placement.source = true
  children : ∀ placement, layers.Placed composition.prototypes.get? placement →
    (∀ target, ¬layers.Shares placement target) →
    ∃ origins, layers.childOrigins placement.source = .ok origins ∧
      ∀ origin ∈ origins, ∃ below, placement.place.child origin.name = .ok below
  prototypeChildren : ∀ target root, composition.prototypes.get? target = some root →
    ∃ origins, layers.childOrigins target = .ok origins ∧
      ∀ origin ∈ origins, ∃ below, root.child origin.name = .ok below

theorem Filled.mem {visits : List Placement} {inPrototype : Bool} {source place : Path}
    (filled : layers.Filled visits inPrototype source place) {origins : List Path}
    (found : layers.childOrigins source = .ok origins) {origin below : Path}
    (member : origin ∈ origins) (under : place.child origin.name = .ok below) :
    ⟨inPrototype, origin, below⟩ ∈ visits := by
  obtain ⟨others, children, otherFound, laid, visited⟩ := filled
  cases found.symm.trans otherFound
  obtain ⟨other, otherUnder, child⟩ := laid.exists_of_mem member
  cases under.symm.trans otherUnder
  exact visited _ child

theorem Filled.children {visits : List Placement} {inPrototype : Bool} {source place : Path}
    (filled : layers.Filled visits inPrototype source place) :
    ∃ origins, layers.childOrigins source = .ok origins ∧
      ∀ origin ∈ origins, ∃ below, place.child origin.name = .ok below := by
  obtain ⟨origins, children, found, laid, _⟩ := filled
  refine ⟨origins, found, ?_⟩
  intro origin member
  obtain ⟨below, under, _⟩ := laid.exists_of_mem member
  exact ⟨below, under⟩

theorem rootPlacement_not_under_root (admissible : layers.specs.Admissible) {job : Placement}
    (member : job ∈ layers.rootPlacements) {number : Nat} {root : Path}
    (rooted : IsPrototypeRoot number root) : ¬root.elements <+: job.place.elements := by
  intro under
  obtain ⟨source, isRoot, rfl⟩ := List.mem_map.mp member
  obtain ⟨prim, unreserved⟩ := admissible source (mem_rootPrims.mp isRoot).1
  have reserved := rooted.reserved
  obtain ⟨name, _, rfl⟩ := id rooted
  have head := List.singleton_prefix_iff_head?_eq_some.mp under
  have anchored : source.anchor = .absolute := by
    rw [Path.eq_absolute_of_isAbsolutePrimPath prim]
    rfl
  have same : (Path.absolute [name]).isReserved = source.isReserved :=
    Path.isReserved_congr anchored.symm head.symm
  rw [same, unreserved] at reserved
  cases reserved

theorem rootPlacements_apart (admissible : layers.specs.Admissible) :
    Apart {} layers.rootPlacements := by
  constructor
  · intro job member
    obtain ⟨source, isRoot, rfl⟩ := List.mem_map.mp member
    have single : source.elements.length = 1 := (mem_rootPrims.mp isRoot).2
    intro (empty : source.elements = [])
    simp [empty] at single
  · rw [rootPlacements, List.pairwise_map]
    have distinct : layers.rootPrims.Nodup := (OrderedMap.keys_nodup _).filter _
    refine (List.nodup_iff_pairwise_ne.mp distinct).imp_of_mem ?_
    intro left right leftRoot rightRoot different
    obtain ⟨leftAuthored, leftSingle⟩ := mem_rootPrims.mp leftRoot
    obtain ⟨rightAuthored, rightSingle⟩ := mem_rootPrims.mp rightRoot
    have leftLocated := Path.eq_absolute_of_isAbsolutePrimPath (admissible left leftAuthored).1
    have rightLocated := Path.eq_absolute_of_isAbsolutePrimPath (admissible right rightAuthored).1
    have same (equal : left.elements = right.elements) : left = right := by
      rw [leftLocated, rightLocated, equal]
    constructor
    · intro under
      exact different (same (under.eq_of_length (leftSingle.trans rightSingle.symm)))
    · intro under
      exact different (same (under.eq_of_length (rightSingle.trans leftSingle.symm)).symm)
  · intro job member number root rooted under
    exact absurd under (rootPlacement_not_under_root admissible member rooted)

theorem Placed.root_or_deeper {prototypes : Path → Option Path}
    (admissible : layers.specs.Admissible)
    (rooted : ∀ target root, prototypes target = some root →
      ∃ number, IsPrototypeRoot number root)
    {placement : Placement} (placed : layers.Placed prototypes placement) :
    placement.place ∈ layers.rootPrims ∨ 1 < placement.place.elementCount := by
  cases placed with
  | root isRoot => exact Or.inl isRoot
  | child parent _ _ _ below =>
      obtain ⟨names, named, located⟩ := parent.absolute admissible rooted
      rw [located] at below
      obtain ⟨last, _, rfl⟩ := Path.child_absolute_eq_ok below
      have length := List.length_pos_iff.mpr named
      refine Or.inr ?_
      rw [Path.elementCount, Path.absolute_elements, List.length_append, List.length_singleton]
      omega
  | shared _ _ known _ _ below =>
      obtain ⟨_, first, _, rfl⟩ := rooted _ _ known
      obtain ⟨last, _, rfl⟩ := Path.child_absolute_eq_ok below
      exact Or.inr (by simp [Path.elementCount])

theorem Placed.not_prototypeRoot {prototypes : Path → Option Path}
    (admissible : layers.specs.Admissible)
    (rooted : ∀ target root, prototypes target = some root →
      ∃ number, IsPrototypeRoot number root)
    {placement : Placement} (placed : layers.Placed prototypes placement) {number : Nat} :
    ¬IsPrototypeRoot number placement.place := by
  intro isRoot
  rcases placed.root_or_deeper admissible rooted with authored | deeper
  · have unreserved := (admissible _ (mem_rootPrims.mp authored).1).2
    rw [isRoot.reserved] at unreserved
    cases unreserved
  · obtain ⟨name, _, same⟩ := isRoot
    simp [same, Path.elementCount] at deeper

theorem visits_of_composition (admissible : layers.specs.Admissible)
    (composed : layers.composition = .ok composition) :
    ∃ visits, layers.Run layers.rootPlacements {} visits composition ∧
      (visits.map Placement.place).Nodup ∧
      ∀ placement, placement ∈ visits ↔ layers.Placed composition.prototypes.get? placement := by
  obtain ⟨visits, run⟩ := run_of_composition composed
  refine ⟨visits, run, run.nodup (rootPlacements_apart admissible), ?_⟩
  intro placement
  constructor
  · apply run.placed id
    intro job member
    obtain ⟨source, isRoot, rfl⟩ := List.mem_map.mp member
    exact Placed.root isRoot
  · intro placed
    -- One case for each rule: a job, a child of a visit, or a child below a prototype's root.
    induction placed with
    | root isRoot => exact run.jobs_visited _ (List.mem_map_of_mem isRoot)
    | child _ unshared found origin below ih =>
        rcases run.expanded _ ih with ⟨_, filled⟩ | ⟨target, _, shares, _⟩
        · exact filled.mem found origin below
        · exact absurd shares (unshared target)
    | shared _ _ known found origin below _ =>
        rcases run.new_prototype known with impossible | ⟨_, _, filled⟩
        · cases impossible
        · exact filled.mem found origin below

theorem followsRules_of_composition (admissible : layers.specs.Admissible)
    (composed : layers.composition = .ok composition) : layers.FollowsRules composition := by
  obtain ⟨visits, run, distinct, placed_iff⟩ := visits_of_composition admissible composed
  have numbered := run.numbered numbered_empty
  have rooted : ∀ target root, composition.prototypes.get? target = some root →
      ∃ number, IsPrototypeRoot number root := by
    intro target root known
    obtain ⟨number, _, isRoot⟩ := numbered.root target root known
    exact ⟨number, isRoot⟩
  have founded {target root : Path} (known : composition.prototypes.get? target = some root) :
      layers.Founded visits composition target root := by
    rcases run.new_prototype known with impossible | founded
    · cases impossible
    · exact founded
  have apart : ∀ placement, layers.Placed composition.prototypes.get? placement →
      ∀ target, composition.prototypes.get? target ≠ some placement.place := by
    intro placement placed target known
    obtain ⟨number, isRoot⟩ := rooted target _ known
    exact placed.not_prototypeRoot admissible rooted isRoot
  have unique : ∀ left right, layers.Placed composition.prototypes.get? left →
      layers.Placed composition.prototypes.get? right → left.place = right.place →
      left = right := by
    intro left right leftPlaced rightPlaced same
    exact List.inj_on_of_nodup_map distinct ((placed_iff left).mpr leftPlaced)
      ((placed_iff right).mpr rightPlaced) same
  have explained {place : Path} {value : Option Path}
      (found : composition.prims.get? place = some value) :
      (∃ placement, layers.Placed composition.prototypes.get? placement ∧
        placement.place = place ∧ layers.Holds composition.prototypes.get? placement value) ∨
      value = none ∧ ∃ target, composition.prototypes.get? target = some place := by
    rcases run.prims_explained found with impossible | ⟨visit, visited, here, holds⟩ | root
    · cases impossible
    · exact Or.inl ⟨visit, (placed_iff visit).mp visited, here, holds⟩
    · exact Or.inr root
  refine ⟨?_, ?_, rooted, numbered.distinct, apart, unique, ?_, ?_, ?_⟩
  · intro place value
    refine ⟨explained, ?_⟩
    rintro (⟨placement, placed, rfl, holds⟩ | ⟨rfl, target, known⟩)
    · -- Something is composed there; whatever explains it, it is this placement and nothing else.
      have present := run.visits_present placement ((placed_iff placement).mpr placed)
      obtain ⟨held, found⟩ := OrderedMap.contains_iff.mp present
      rcases explained found with ⟨other, otherPlaced, same, otherHolds⟩ | ⟨_, target, known⟩
      · rw [unique other placement otherPlaced placed same] at otherHolds
        rw [found, holds.unique otherHolds]
      · exact absurd known (apart placement placed target)
    · obtain ⟨_, present, _⟩ := founded known
      obtain ⟨held, found⟩ := OrderedMap.contains_iff.mp present
      rcases explained found with ⟨other, otherPlaced, rfl, _⟩ | ⟨rfl, _⟩
      · exact absurd known (apart other otherPlaced target)
      · exact found
  · intro target
    constructor
    · intro present
      obtain ⟨root, known⟩ := OrderedMap.contains_iff.mp present
      obtain ⟨⟨sharer, visited, shares⟩, _⟩ := founded known
      exact ⟨sharer, (placed_iff sharer).mp visited, shares⟩
    · rintro ⟨sharer, placed, shares⟩
      rcases run.expanded sharer ((placed_iff sharer).mpr placed) with
        ⟨unshared, _⟩ | ⟨other, root, otherShares, known⟩
      · exact absurd shares (unshared target)
      · rw [shares.unique otherShares]
        exact OrderedMap.contains_iff.mpr ⟨root, known⟩
  · intro placement placed
    exact run.visits_authored placement ((placed_iff placement).mpr placed)
  · intro placement placed unshared
    rcases run.expanded placement ((placed_iff placement).mpr placed) with
      ⟨_, filled⟩ | ⟨target, _, shares, _⟩
    · exact filled.children
    · exact absurd shares (unshared target)
  · intro target root known
    obtain ⟨_, _, filled⟩ := founded known
    exact filled.children

/-- Composing by the rules is all that composing does: it comes once to each placement the rules
ask for, to nothing else and to no place twice. -/
theorem composition_exact (admissible : layers.specs.Admissible)
    (composed : layers.composition = .ok composition) :
    layers.FollowsRules composition ∧
      ∃ visits, layers.Run layers.rootPlacements {} visits composition ∧
        (visits.map Placement.place).Nodup ∧
        ∀ placement, placement ∈ visits ↔
          layers.Placed composition.prototypes.get? placement :=
  ⟨followsRules_of_composition admissible composed, visits_of_composition admissible composed⟩

def crossed : Layers :=
  let scene : Name := ⟨"Scene", by decide⟩
  let part : Name := ⟨"part", by decide⟩
  let copy : Name := ⟨"Copy", by decide⟩
  { specs := .ofList [(.absolute [scene], {}),
      (.absolute [scene, part], { instanceable := true, reference := some (.absolute [copy]) }),
      (.absolute [copy], { instanceable := true, reference := some (.absolute [scene]) })]
    overrides := .ofList [(.absolute [scene, part], false)] }

theorem composition_exact_crossed : ∃ composition, crossed.composition = .ok composition ∧
    composition.prims.size = 8 ∧ crossed.FollowsRules composition ∧
      ∃ visits, crossed.Run crossed.rootPlacements {} visits composition ∧
        (visits.map Placement.place).Nodup ∧
        ∀ placement, placement ∈ visits ↔
          crossed.Placed composition.prototypes.get? placement := by
  have admissible : crossed.specs.Admissible := by decide +kernel
  have size : crossed.composition.map (fun made => made.prims.size) = .ok 8 := by decide +kernel
  cases composed : crossed.composition with
  | error fault => simp [composed, Except.map] at size
  | ok composition =>
      have exactly := composition_exact admissible composed
      exact ⟨composition, rfl, by simpa [composed, Except.map] using size, exactly⟩

end SceneGraph.Layers
