import SceneGraph.Proofs.Scene.Descendants
import SceneGraph.Proofs.Scene.Overrides

/-!
Instances only share. As long as no prim with a reference has children of its own, an instance shows
below it what it would have below it as a plain prim, so that flags decide where prims are composed
but not which paths lead to one.
-/

namespace SceneGraph

namespace Layers

section

variable (layers : Layers)

/-- No prim is authored right below one that references another. -/
def ReferencersChildless : Prop :=
  ∀ prim target, layers.References prim target → ∀ name : Name,
    layers.specs.contains (.absolute (prim.elements ++ [name])) = false

end

variable {layers left right : Layers} {prim target : Path}

theorem references_iff_mem : layers.References prim target ↔
    (prim, some target) ∈ layers.specs.entries.map fun entry => (entry.1, entry.2.reference) := by
  simp only [References, OrderedMap.get?_eq_some_iff, List.mem_map, Prod.mk.injEq, Prod.exists]
  grind

instance (layers : Layers) : Decidable layers.ReferencersChildless :=
  decidable_of_iff
    (∀ entry ∈ layers.specs.entries, entry.2.reference.isSome = true → ∀ child ∈ layers.specs.keys,
      ∀ name ∈ child.elements.getLast?, child ≠ .absolute (entry.1.elements ++ [name])) <| by
    constructor
    · intro childless prim target references name
      obtain ⟨spec, found, reference⟩ := references
      refine Bool.eq_false_iff.mpr fun authored => ?_
      exact childless (prim, spec) ((OrderedMap.get?_eq_some_iff _ _ _).mp found)
        (by simp [reference]) _ (OrderedMap.mem_keys_iff.mpr authored) name (by simp) rfl
    · rintro childless ⟨prim, spec⟩ member further child authored name - rfl
      obtain ⟨target, reference⟩ := Option.isSome_iff_exists.mp further
      have unauthored := childless prim target
        ⟨spec, (OrderedMap.get?_eq_some_iff _ _ _).mpr member, reference⟩ name
      rw [OrderedMap.mem_keys_iff.mp authored] at unauthored
      cases unauthored

theorem ReferencersChildless.ownChildren (childless : layers.ReferencersChildless)
    (admissible : layers.specs.Admissible) (references : layers.References prim target) :
    layers.ownChildren prim = [] := by
  refine List.eq_nil_iff_forall_not_mem.mpr fun child member => ?_
  obtain ⟨spec, found, _⟩ := id references
  have prims := fun path held => (admissible path held).1
  obtain ⟨authored, rfl⟩ := (mem_ownChildren_iff_parent prims
    (OrderedMap.contains_iff.mpr ⟨spec, found⟩)).mp member
  obtain ⟨names, last, rfl⟩ := Path.exists_last (prims child authored)
  have unauthored := childless _ target references last
  rw [Path.parent_absolute_append, Path.absolute_elements, authored] at unauthored
  cases unauthored

theorem map_flatMap_cons {ε α β : Type} (children : α → List β) (first : α)
    (chain : Except ε (List α)) :
    (chain.map (first :: ·)).map (List.flatMap children) =
      (chain.map (List.flatMap children)).map (children first ++ ·) := by
  cases chain <;> rfl

/-- A prim without children of its own adds none to a chain that has passed its target or is about
to: where the chain comes to the prim, it ends there or at the target. -/
theorem chain_without (references : layers.References prim target) (different : prim ≠ target)
    (childless : layers.ownChildren prim = []) (room : Nat) {visited others : List Path}
    {current : Path} (permuted : others.Perm (prim :: visited))
    (passed : target ∈ current :: visited) (distinct : (prim :: visited).Nodup)
    (authored : prim :: visited ⊆ layers.specs.keys)
    (enough : layers.specs.size ≤ room + visited.length) :
    (layers.referenceChainFrom room others current).map (List.flatMap layers.ownChildren) =
      (layers.referenceChainFrom (room + 1) visited current).map
        (List.flatMap layers.ownChildren) := by
  induction room generalizing visited others current with
  | zero =>
      have few := layers.length_le_size distinct fun held member =>
        OrderedMap.mem_keys_iff.mp (authored member)
      rw [List.length_cons] at few
      omega
  | succ room ih =>
      obtain ⟨unvisited, visitedDistinct⟩ := List.nodup_cons.mp distinct
      by_cases again : current ∈ visited
      · have otherwise : current ∈ others := permuted.mem_iff.mpr (by simp [again])
        rw [referenceChainFrom_again again, referenceChainFrom_again otherwise]
      by_cases here : current = prim
      · subst here
        have behind := (List.mem_cons.mp passed).resolve_left (Ne.symm different)
        have otherwise : current ∈ others := permuted.mem_iff.mpr (by simp)
        rw [referenceChainFrom_again otherwise, referenceChainFrom_next again references,
          referenceChainFrom_again (by simp [behind])]
        simp [Except.map, childless]
      have fresh : current ∉ others := by simp [permuted.mem_iff, here, again]
      rcases layers.references_cases current with
        unauthored | ⟨spec, found, ends⟩ | ⟨next, further⟩
      · rw [referenceChainFrom_missing fresh unauthored,
          referenceChainFrom_missing again unauthored]
      · rw [referenceChainFrom_last fresh found ends, referenceChainFrom_last again found ends]
      · obtain ⟨spec, found, _⟩ := id further
        have present : current ∈ layers.specs.keys :=
          OrderedMap.mem_keys_iff.mpr (OrderedMap.contains_iff.mpr ⟨spec, found⟩)
        have swapped : (current :: others).Perm (prim :: current :: visited) :=
          (permuted.cons current).trans (List.Perm.swap prim current visited)
        rw [referenceChainFrom_next fresh further, referenceChainFrom_next again further,
          map_flatMap_cons, map_flatMap_cons, ih swapped (by simp [passed])]
        · exact (List.Perm.swap prim current visited).nodup_iff.mp
            (List.nodup_cons.mpr ⟨by simp [here, again], distinct⟩)
        · grind
        · rw [List.length_cons]
          omega

theorem childOrigins_eq_map (layers : Layers) (source : Path) :
    layers.childOrigins source =
      ((layers.referenceChain source).map (List.flatMap layers.ownChildren)).map
        (firstOfEachName []) := by
  rw [childOrigins]
  cases layers.referenceChain source <;> rfl

theorem childOrigins_of_childless (references : layers.References prim target)
    (childless : layers.ownChildren prim = []) :
    layers.childOrigins prim = layers.childOrigins target := by
  by_cases same : prim = target
  · rw [same]
  obtain ⟨spec, found, _⟩ := id references
  have present := OrderedMap.mem_keys_iff.mpr (OrderedMap.contains_iff.mpr ⟨spec, found⟩)
  have beyond := chain_without references same childless layers.specs.size (List.Perm.refl [prim])
    (List.mem_singleton_self target) (by simp) (by simpa using present) (Nat.le_refl _)
  rw [childOrigins_eq_map, childOrigins_eq_map, referenceChain,
    referenceChainFrom_next List.not_mem_nil references, map_flatMap_cons, beyond, referenceChain,
    childless]
  cases layers.referenceChainFrom (layers.specs.size + 1) [] target <;> rfl

variable {position : Position}

theorem childOrigins_entered (childless : layers.ReferencersChildless)
    (admissible : layers.specs.Admissible) (position : Position) :
    layers.childOrigins (layers.entered position).source = layers.childOrigins position.source := by
  cases shared : layers.sharedAt position with
  | none => simp [entered, shared]
  | some target =>
      have references := sharedAt_references shared
      have same :=
        childOrigins_of_childless references (childless.ownChildren admissible references)
      simp [entered, shared, same]

theorem source_of_step (childless : layers.ReferencersChildless)
    (admissible : layers.specs.Admissible) (position : Position) (name : Name) :
    (layers.step position name).map Position.source = layers.childNamed position.source name := by
  have children := childOrigins_entered childless admissible position
  rw [entered] at children
  rw [step, Option.map_map, childNamed, children, ← childNamed]
  exact Option.map_id'

theorem source_of_walk (childless : layers.ReferencersChildless)
    (admissible : layers.specs.Admissible) (path : Path) :
    (layers.walk path).map Position.source = layers.originAt path :=
  follow_map (source_of_step childless admissible) path

end Layers

namespace Scene

variable {left right : Scene}

/-- Two scenes with the same prims and references lead the same paths to a prim, whatever has been
authored or said about instances, as long as no prim with a reference has children of its own. -/
theorem reachable_sharing_invisible (leftReachable : Reachable left)
    (rightReachable : Reachable right) (keys : right.layers.specs.keys = left.layers.specs.keys)
    (references : ∀ prim target,
      right.layers.References prim target ↔ left.layers.References prim target)
    (childless : left.layers.ReferencersChildless) {path : Path} {options : ForwardingOptions}
    (unreserved : path.isReserved = false) (room : max 1 path.elementCount ≤ options.maxDepth) :
    (∃ found, (stage.resolve path options right).result = .ok (some found)) ↔
      ∃ found, (stage.resolve path options left).result = .ok (some found) := by
  have leftSound := leftReachable.sound
  have rightSound := rightReachable.sound
  have rightChildless : right.layers.ReferencersChildless := by
    intro prim target references' name
    rw [OrderedMap.contains_congr keys]
    exact childless prim target ((references prim target).mp references') name
  have same : (right.layers.walk path).map Position.source =
      (left.layers.walk path).map Position.source := by
    rw [Layers.source_of_walk rightChildless rightSound.specs.admissible,
      Layers.source_of_walk childless leftSound.specs.admissible,
      Layers.originAt_congr keys references]
  have found := congrArg Option.isSome same
  rw [Option.isSome_map, Option.isSome_map] at found
  rw [rightSound.resolves_iff unreserved room, leftSound.resolves_iff unreserved room, found]

theorem reachable_sharing_invisible_hall :
    let seat : Prim := ⟨.absolute [⟨"Row", by decide⟩, ⟨"first", by decide⟩], none⟩
    let leg := Path.absolute [⟨"Hall", by decide⟩, ⟨"first", by decide⟩, ⟨"leg", by decide⟩]
    let shared := (load hall).state
    let authored := (shared.authorInstanceable (.absolute [⟨"Hall", by decide⟩]) false).state
    let plain := (stage.uninstance leg ⟨2⟩ (authored.setInstanceable seat false).state).state
    shared.prototypeRoots.length = 2 ∧ plain.prototypeRoots = [] ∧
      plain.layers.specs ≠ shared.layers.specs ∧
      ((∃ found, (stage.resolve leg ⟨3⟩ plain).result = .ok (some found)) ↔
        ∃ found, (stage.resolve leg ⟨3⟩ shared).result = .ok (some found)) := by
  intro seat leg shared authored plain
  have reachable : Reachable shared := Reachable.load hall_loads
  have references : plain.layers.specs.entries.map (fun entry => (entry.1, entry.2.reference)) =
      shared.layers.specs.entries.map fun entry => (entry.1, entry.2.reference) := by
    decide +kernel
  refine ⟨by decide +kernel, by decide +kernel, by decide +kernel,
    reachable_sharing_invisible reachable
      (((reachable.authorInstanceable _ false).setInstanceable seat false).uninstance leg ⟨2⟩)
      (by decide +kernel) (fun _ _ => ?_) (by decide +kernel) (by decide) (by decide)⟩
  rw [Layers.references_iff_mem, Layers.references_iff_mem, references]

end Scene

end SceneGraph
