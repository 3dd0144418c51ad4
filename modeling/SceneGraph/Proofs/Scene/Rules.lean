import SceneGraph.Proofs.Except
import SceneGraph.Proofs.OrderedMap
import SceneGraph.Proofs.Path.Absolute
import SceneGraph.Scene.Composition

/-!
The rules of composition: which prims are instances, and which authored prim is composed where. The
rules know nothing of the order in which prims are composed; the place of each prototype is given.
-/

namespace SceneGraph

/-- An authored prim, where it is composed, and whether that is inside a prototype. -/
structure Placement where
  inPrototype : Bool
  source : Path
  place : Path
deriving DecidableEq

/-- Prims are authored at absolute prim paths outside the namespace of prototypes. -/
def SpecMap.Admissible (specs : SpecMap) : Prop :=
  ∀ path, specs.contains path = true → path.isAbsolutePrimPath = true ∧ path.isReserved = false

instance (specs : SpecMap) : Decidable specs.Admissible :=
  decidable_of_iff
    (∀ path ∈ specs.keys, path.isAbsolutePrimPath = true ∧ path.isReserved = false)
    (forall_congr' fun _ => imp_congr_left OrderedMap.mem_keys_iff)

namespace Layers

variable (layers : Layers)

/-- The prim is an instance of the prototype of `target`: it references `target` and may be an
instance, where what is said about its place counts only outside prototypes. -/
def Shares (placement : Placement) (target : Path) : Prop :=
  ∃ spec, layers.specs.get? placement.source = some spec ∧ spec.reference = some target ∧
    if placement.inPrototype then spec.instanceable = true
    else (layers.overrides.get? placement.place).getD spec.instanceable = true

/-- What is composed, when the prototype of a prim is below the root `prototypes` gives for it. -/
inductive Placed (prototypes : Path → Option Path) : Placement → Prop
  | root {source} : source ∈ layers.rootPrims → Placed prototypes ⟨false, source, source⟩
  | child {parent origins origin place} : Placed prototypes parent →
      (∀ target, ¬layers.Shares parent target) → layers.childOrigins parent.source = .ok origins →
      origin ∈ origins → parent.place.child origin.name = .ok place →
      Placed prototypes ⟨parent.inPrototype, origin, place⟩
  | shared {sharer target root origins origin place} : Placed prototypes sharer →
      layers.Shares sharer target → prototypes target = some root →
      layers.childOrigins target = .ok origins → origin ∈ origins →
      root.child origin.name = .ok place → Placed prototypes ⟨true, origin, place⟩

def Holds (prototypes : Path → Option Path) (placement : Placement) (value : Option Path) : Prop :=
  (value = none ∧ ∀ target, ¬layers.Shares placement target) ∨
    ∃ target root, layers.Shares placement target ∧ prototypes target = some root ∧
      value = some root

def ChildPlacements (inPrototype : Bool) (place : Path) (origins : List Path)
    (children : List Placement) : Prop :=
  List.Forall₂ (fun origin child => child.inPrototype = inPrototype ∧ child.source = origin ∧
    place.child origin.name = .ok child.place) origins children

variable {layers}

theorem spec_eq_ok {path : Path} {spec : PrimSpec} :
    layers.spec path = .ok spec ↔ layers.specs.get? path = some spec := by
  rw [Layers.spec]
  cases layers.specs.get? path <;> simp

theorem Shares.unique {placement : Placement} {left right : Path}
    (first : layers.Shares placement left) (second : layers.Shares placement right) :
    left = right := by
  obtain ⟨spec, found, reference, _⟩ := first
  obtain ⟨spec', found', reference', _⟩ := second
  cases found.symm.trans found'
  exact Option.some.inj (reference.symm.trans reference')

theorem Shares.authored {placement : Placement} {target : Path}
    (shares : layers.Shares placement target) : layers.specs.contains placement.source = true := by
  obtain ⟨spec, found, _⟩ := shares
  exact OrderedMap.contains_iff.mpr ⟨spec, found⟩

theorem Holds.mono {prototypes later : Path → Option Path} {placement : Placement}
    {value : Option Path} (holds : layers.Holds prototypes placement value)
    (kept : ∀ target root, prototypes target = some root → later target = some root) :
    layers.Holds later placement value := by
  rcases holds with unshared | ⟨target, root, shares, known, rfl⟩
  · exact Or.inl unshared
  · exact Or.inr ⟨target, root, shares, kept target root known, rfl⟩

theorem Holds.unique {prototypes : Path → Option Path} {placement : Placement}
    {left right : Option Path} (first : layers.Holds prototypes placement left)
    (second : layers.Holds prototypes placement right) : left = right := by
  rcases first with ⟨rfl, unshared⟩ | ⟨target, root, shares, known, rfl⟩
  · rcases second with ⟨rfl, _⟩ | ⟨target, _, shares, _⟩
    · rfl
    · exact absurd shares (unshared target)
  · rcases second with ⟨_, unshared⟩ | ⟨other, otherRoot, otherShares, otherKnown, rfl⟩
    · exact absurd shares (unshared target)
    · rw [shares.unique otherShares, otherKnown] at known
      exact known.symm

theorem shares_iff {placement : Placement} {spec : PrimSpec} {target : Path}
    (found : layers.spec placement.source = .ok spec) :
    layers.Shares placement target ↔
      layers.sharedSource spec placement.place placement.inPrototype = some target := by
  rw [spec_eq_ok] at found
  rw [Shares, sharedSource]
  cases inside : placement.inPrototype <;> simp [found, and_comm]

theorem not_shares_iff {placement : Placement} {spec : PrimSpec}
    (found : layers.spec placement.source = .ok spec) :
    (∀ target, ¬layers.Shares placement target) ↔
      layers.sharedSource spec placement.place placement.inPrototype = none := by
  simp only [shares_iff found, Option.eq_none_iff_forall_ne_some, ne_eq]

theorem mem_rootPrims {path : Path} :
    path ∈ layers.rootPrims ↔ layers.specs.contains path = true ∧ path.elementCount = 1 := by
  rw [rootPrims, List.mem_filter, OrderedMap.mem_keys_iff, decide_eq_true_eq]

theorem firstOfEachName_distinct (taken : List String) (paths : List Path) :
    (firstOfEachName taken paths).Pairwise (fun left right => left.name ≠ right.name) ∧
      ∀ path ∈ firstOfEachName taken paths, path.name ∉ taken := by
  induction paths generalizing taken with
  | nil => simp [firstOfEachName]
  | cons path rest ih =>
      rw [firstOfEachName]
      split
      next => exact ih taken
      next fresh =>
        obtain ⟨distinct, others⟩ := ih (path.name :: taken)
        constructor
        · refine List.pairwise_cons.mpr ⟨?_, distinct⟩
          intro other member same
          exact others other member (by simp [same])
        · intro other member
          rcases List.mem_cons.mp member with rfl | later
          · exact fresh
          · exact fun known => others other later (List.mem_cons_of_mem _ known)

theorem childOrigins_distinct {source : Path} {origins : List Path}
    (found : layers.childOrigins source = .ok origins) :
    origins.Pairwise fun left right => left.name ≠ right.name := by
  rw [childOrigins, bind_eq_ok] at found
  obtain ⟨chain, _, rest⟩ := found
  cases rest
  exact (firstOfEachName_distinct [] _).1

theorem ChildPlacements.mem {inPrototype : Bool} {place : Path} {origins : List Path}
    {children : List Placement} (laid : ChildPlacements inPrototype place origins children)
    {child : Placement} (member : child ∈ children) :
    child.inPrototype = inPrototype ∧ child.source ∈ origins ∧
      place.child child.source.name = .ok child.place := by
  induction laid with
  | nil => simp at member
  | cons here _ ih =>
      rcases List.mem_cons.mp member with rfl | later
      · obtain ⟨inside, rfl, below⟩ := here
        exact ⟨inside, by simp, below⟩
      · obtain ⟨inside, origin, below⟩ := ih later
        exact ⟨inside, List.mem_cons_of_mem _ origin, below⟩

theorem ChildPlacements.exists_of_mem {inPrototype : Bool} {place : Path} {origins : List Path}
    {children : List Placement} (laid : ChildPlacements inPrototype place origins children)
    {origin : Path} (member : origin ∈ origins) :
    ∃ below, place.child origin.name = .ok below ∧ ⟨inPrototype, origin, below⟩ ∈ children := by
  induction laid with
  | nil => simp at member
  | @cons _ child _ _ here _ ih =>
      rcases List.mem_cons.mp member with rfl | later
      · obtain ⟨rfl, rfl, below⟩ := here
        exact ⟨child.place, below, by simp⟩
      · obtain ⟨below, found, within⟩ := ih later
        exact ⟨below, found, List.mem_cons_of_mem _ within⟩

end Layers

end SceneGraph
