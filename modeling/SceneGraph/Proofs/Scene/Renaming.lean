import SceneGraph.Proofs.Path.Renaming
import SceneGraph.Proofs.Scene.Descendants
import SceneGraph.Proofs.Scene.Locality

/-!
Layers whose root prims are renamed: chains of references, children and walks are those of the
layers as they were, renamed.
-/

namespace SceneGraph

def PrimSpec.renameRoot (rename : Name → Name) (spec : PrimSpec) : PrimSpec :=
  { spec with reference := spec.reference.map (Path.renameRoot rename) }

theorem PrimSpec.renameRoot_symm (rename : Equiv.Perm Name) (spec : PrimSpec) :
    (spec.renameRoot rename).renameRoot rename.symm = spec := by
  cases spec with
  | mk instanceable reference => cases reference <;> simp [renameRoot]

namespace Layers

/-- The second layers are the first ones with the root prims renamed, and neither say anything of
single prims of the scene. -/
structure Renamed (rename : Equiv.Perm Name) (left right : Layers) : Prop where
  specs : ∀ path, right.specs.get? (path.renameRoot rename) =
    (left.specs.get? path).map (PrimSpec.renameRoot rename)
  admissible : left.specs.Admissible
  laterAdmissible : right.specs.Admissible
  unsaid : left.overrides = ∅
  laterUnsaid : right.overrides = ∅

namespace Renamed

variable {rename : Equiv.Perm Name} {left right : Layers}

theorem symm (renamed : Renamed rename left right) : Renamed rename.symm right left where
  specs path := by
    have same := renamed.specs (path.renameRoot rename.symm)
    rw [Path.symm_renameRoot] at same
    rw [same, Option.map_map]
    simp [Function.comp_def, PrimSpec.renameRoot_symm]
  admissible := renamed.laterAdmissible
  laterAdmissible := renamed.admissible
  unsaid := renamed.laterUnsaid
  laterUnsaid := renamed.unsaid

theorem contains (renamed : Renamed rename left right) (path : Path) :
    right.specs.contains (path.renameRoot rename) = left.specs.contains path := by
  rw [OrderedMap.contains, renamed.specs, Option.isSome_map, OrderedMap.contains]

theorem mem_keys (renamed : Renamed rename left right) {path : Path} :
    path ∈ right.specs.keys ↔ path ∈ left.specs.keys.map (Path.renameRoot rename) := by
  rw [List.mem_map, OrderedMap.mem_keys_iff]
  constructor
  · intro authored
    rw [← Path.symm_renameRoot rename path, renamed.contains] at authored
    exact ⟨_, OrderedMap.mem_keys_iff.mpr authored, Path.symm_renameRoot rename path⟩
  · rintro ⟨before, member, rfl⟩
    rw [renamed.contains]
    exact OrderedMap.mem_keys_iff.mp member

theorem size (renamed : Renamed rename left right) : right.specs.size = left.specs.size := by
  have distinct : (left.specs.keys.map (Path.renameRoot rename)).Nodup :=
    (OrderedMap.keys_nodup _).map fun _ _ => (Path.renameRoot_inj rename).mp
  have permuted : right.specs.keys.Perm (left.specs.keys.map (Path.renameRoot rename)) :=
    (List.perm_ext_iff_of_nodup (OrderedMap.keys_nodup _) distinct).mpr fun _ => renamed.mem_keys
  rw [← OrderedMap.length_keys, permuted.length_eq, List.length_map, OrderedMap.length_keys]

theorem references (renamed : Renamed rename left right) {prim target : Path}
    (references : left.References prim target) :
    right.References (prim.renameRoot rename) (target.renameRoot rename) := by
  obtain ⟨spec, found, reference⟩ := references
  refine ⟨spec.renameRoot rename, by rw [renamed.specs, found, Option.map_some], ?_⟩
  rw [PrimSpec.renameRoot, reference, Option.map_some]

theorem leads (renamed : Renamed rename left right) {source prim : Path}
    (leads : left.Leads source prim) :
    right.Leads (source.renameRoot rename) (prim.renameRoot rename) :=
  leads.lift (Path.renameRoot rename) fun _ _ => renamed.references

/-! Children. -/

theorem referenceChainFrom (renamed : Renamed rename left right) {room : Nat}
    {visited chain : List Path} {current : Path}
    (found : left.referenceChainFrom room visited current = .ok chain) :
    right.referenceChainFrom room (visited.map (Path.renameRoot rename))
        (current.renameRoot rename) = .ok (chain.map (Path.renameRoot rename)) := by
  induction room generalizing visited chain current with
  | zero =>
      cases found
      rfl
  | succ room ih =>
      have known : current.renameRoot rename ∈ visited.map (Path.renameRoot rename) ↔
          current ∈ visited :=
        List.mem_map_of_injective fun _ _ => (Path.renameRoot_inj rename).mp
      by_cases again : current ∈ visited
      · rw [referenceChainFrom_again again] at found
        cases found
        exact referenceChainFrom_again (known.mpr again) _
      have fresh := known.not.mpr again
      rcases left.references_cases current with unauthored | ⟨spec, present, ends⟩ | ⟨next, first⟩
      · rw [referenceChainFrom_missing again unauthored] at found
        cases found
      · rw [referenceChainFrom_last again present ends] at found
        cases found
        have renamedPresent := renamed.specs current
        rw [present, Option.map_some] at renamedPresent
        exact referenceChainFrom_last fresh renamedPresent (by simp [PrimSpec.renameRoot, ends]) _
      · rw [referenceChainFrom_next again first] at found
        obtain ⟨rest, further, rfl⟩ := map_eq_ok.mp found
        rw [referenceChainFrom_next fresh (renamed.references first), ← List.map_cons, ih further]
        rfl

theorem mem_ownChildren (renamed : Renamed rename left right) {parent child : Path}
    (authored : left.specs.contains parent = true) :
    child.renameRoot rename ∈ right.ownChildren (parent.renameRoot rename) ↔
      child ∈ left.ownChildren parent := by
  rw [Layers.mem_ownChildren authored,
    Layers.mem_ownChildren (by rwa [renamed.contains]), renamed.contains,
    Path.renameRoot_elementCount, Path.renameRoot_elementCount]
  refine and_congr_right fun childAuthored => ?_
  obtain ⟨names, _, rfl⟩ :=
    Path.isAbsolutePrimPath_iff.mp (renamed.admissible child childAuthored).1
  obtain ⟨base, named, rfl⟩ := Path.isAbsolutePrimPath_iff.mp (renamed.admissible _ authored).1
  rw [Path.isWithin_renameRoot rename names named]

theorem ownChildren (renamed : Renamed rename left right) {parent : Path}
    (authored : left.specs.contains parent = true) :
    right.ownChildren (parent.renameRoot rename) =
      (left.ownChildren parent).map (Path.renameRoot rename) := by
  refine OrderedMap.eq_of_ascending id (right.ownChildren_ascending _) ?_ fun child => ?_
  · refine List.pairwise_map.mpr ((left.ownChildren_ascending parent).imp_of_mem ?_)
    intro first second member secondMember order
    obtain ⟨base, named, rfl⟩ := Path.isAbsolutePrimPath_iff.mp (renamed.admissible _ authored).1
    obtain ⟨root, rest, rfl⟩ := List.exists_cons_of_ne_nil named
    have below {child : Path} (member : child ∈ left.ownChildren (.absolute (root :: rest))) :
        ∃ names, child = .absolute (root :: names) := by
      obtain ⟨childAuthored, within, _⟩ := of_mem_ownChildren member
      obtain ⟨names, _, rfl⟩ :=
        Path.isAbsolutePrimPath_iff.mp (renamed.admissible _ childAuthored).1
      obtain ⟨more, rfl⟩ := Path.isWithin_absolute.mp within
      exact ⟨rest ++ more, rfl⟩
    obtain ⟨names, rfl⟩ := below member
    obtain ⟨others, rfl⟩ := below secondMember
    rw [Path.compare_cons, Std.ReflOrd.compare_self] at order
    rw [id, id, Path.renameRoot_absolute, Path.renameRoot_absolute, Path.compare_cons,
      Std.ReflOrd.compare_self, order]
  · rw [List.mem_map]
    constructor
    · intro member
      rw [← Path.symm_renameRoot rename child, renamed.mem_ownChildren authored] at member
      exact ⟨_, member, Path.symm_renameRoot rename child⟩
    · rintro ⟨before, member, rfl⟩
      exact (renamed.mem_ownChildren authored).mpr member

theorem firstOfEachName {paths : List Path} (nested : ∀ path ∈ paths, 1 < path.elementCount)
    (taken : List String) : Layers.firstOfEachName taken (paths.map (Path.renameRoot rename)) =
      (Layers.firstOfEachName taken paths).map (Path.renameRoot rename) := by
  induction paths generalizing taken with
  | nil => rfl
  | cons path rest ih =>
      obtain ⟨here, others⟩ := List.forall_mem_cons.mp nested
      rw [List.map_cons, Layers.firstOfEachName, Layers.firstOfEachName, Path.name_renameRoot here,
        ih others, ih others]
      split <;> rfl

theorem childOrigins (renamed : Renamed rename left right) {source : Path} {origins : List Path}
    (found : left.childOrigins source = .ok origins) :
    right.childOrigins (source.renameRoot rename) =
      .ok (origins.map (Path.renameRoot rename)) := by
  obtain ⟨chain, linked, rest⟩ := bind_eq_ok.mp found
  cases rest
  have authored := authored_of_mem_referenceChainFrom linked
  have children : (chain.map (Path.renameRoot rename)).flatMap right.ownChildren =
      (chain.flatMap left.ownChildren).map (Path.renameRoot rename) := by
    rw [List.flatMap_map, List.map_flatMap]
    exact List.flatMap_congr fun prim member => renamed.ownChildren (authored prim member)
  have nested : ∀ child ∈ chain.flatMap left.ownChildren, 1 < child.elementCount := by
    intro child member
    obtain ⟨parent, above, own⟩ := List.mem_flatMap.mp member
    exact nested_of_mem_ownChildren renamed.admissible (authored parent above) own
  have linkedRenamed := renamed.referenceChainFrom linked
  rw [List.map_nil, ← renamed.size] at linkedRenamed
  rw [Layers.childOrigins, referenceChain, linkedRenamed, ok_bind, children, firstOfEachName nested]
  rfl

theorem childNamed (renamed : Renamed rename left right) {source origin : Path} {name : Name}
    (found : left.childNamed source name = some origin) :
    right.childNamed (source.renameRoot rename) name = some (origin.renameRoot rename) := by
  obtain ⟨origins, children, member, spelled⟩ := childNamed_eq_some.mp found
  refine childNamed_eq_some.mpr ⟨_, renamed.childOrigins children, List.mem_map_of_mem member, ?_⟩
  rw [Path.name_renameRoot (nested_of_mem_childOrigins renamed.admissible children member), spelled]

/-! Walks. -/

structure Beside (rename : Equiv.Perm Name) (left right : Position) : Prop where
  source : right.source = left.source.renameRoot rename
  crossed : right.crossed = left.crossed

variable {position last other : Position}

theorem sharedAt (renamed : Renamed rename left right) (beside : Beside rename position other) :
    right.sharedAt other = (left.sharedAt position).map (Path.renameRoot rename) := by
  rw [Layers.sharedAt, Layers.sharedAt, beside.source, renamed.specs, renamed.unsaid,
    renamed.laterUnsaid]
  cases left.specs.get? position.source with
  | none => rfl
  | some spec =>
      obtain ⟨instanceable, reference⟩ := spec
      cases instanceable <;> simp [PrimSpec.renameRoot]

theorem step (renamed : Renamed rename left right) (beside : Beside rename position other)
    {name : Name} (stepped : left.step position name = some last) :
    ∃ next, right.step other name = some next ∧ Beside rename last next := by
  obtain ⟨origin, child, rfl⟩ := step_eq_some.mp stepped
  have entered : (right.entered other).source =
      (left.entered position).source.renameRoot rename := by
    rw [Layers.entered, Layers.entered, renamed.sharedAt beside, beside.source]
    cases left.sharedAt position <;> rfl
  have found := renamed.childNamed child
  rw [← entered] at found
  refine ⟨_, step_eq_some.mpr ⟨_, found, rfl⟩, rfl, ?_⟩
  simp [Layers.entered, renamed.sharedAt beside, beside.crossed]

theorem steps (renamed : Renamed rename left right) (beside : Beside rename position other)
    {rest : List Name} (walked : rest.foldlM left.step position = some last) :
    ∃ next, rest.foldlM right.step other = some next ∧ Beside rename last next := by
  induction rest generalizing position other with
  | nil =>
      cases walked
      exact ⟨other, rfl, beside⟩
  | cons name rest ih =>
      rw [List.foldlM_cons] at walked
      obtain ⟨middle, stepped, further⟩ := Option.bind_eq_some_iff.mp walked
      obtain ⟨next, renamedStep, nextBeside⟩ := renamed.step beside stepped
      obtain ⟨ends, renamedRest, endsBeside⟩ := ih nextBeside further
      exact ⟨ends, by rw [List.foldlM_cons, renamedStep]; exact renamedRest, endsBeside⟩

theorem walk (renamed : Renamed rename left right) {path : Path}
    (walked : left.walk path = some last) :
    ∃ ends, right.walk (path.renameRoot rename) = some ends ∧ Beside rename last ends := by
  obtain ⟨first, rest, rfl, authored, steps⟩ := follow_eq_some walked
  have started : Beside rename ⟨[first], .absolute [first], false⟩
      ⟨[rename first], .absolute [rename first], false⟩ := ⟨rfl, rfl⟩
  obtain ⟨ends, renamedSteps, beside⟩ := renamed.steps started steps
  refine ⟨ends, ?_, beside⟩
  rw [Path.renameRoot_absolute, walk_absolute]
  · exact renamedSteps
  · rw [← authored, ← renamed.contains]
    rfl

theorem reaches (renamed : Renamed rename left right) {prim : Path}
    (reaches : left.Reaches prim) : right.Reaches (prim.renameRoot rename) := by
  obtain ⟨position, walked, leads⟩ := reaches
  obtain ⟨path, found⟩ := walked_iff.mp walked
  obtain ⟨ends, renamedFound, beside⟩ := renamed.walk found
  refine ⟨ends, walked_iff.mpr ⟨_, renamedFound⟩, ?_⟩
  rw [beside.source]
  exact renamed.leads leads

end Renamed

end Layers

end SceneGraph
