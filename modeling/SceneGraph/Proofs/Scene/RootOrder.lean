import SceneGraph.Proofs.Scene.Renaming

/-!
What the names of root prims decide. Root prims are composed in the order of their names, and a
prototype is as deeply nested as the instance that comes to it first; so another order may exceed
the nesting limit, but that is all that renaming root prims can do.
-/

namespace SceneGraph

namespace Layers

def composeRoots (layers : Layers) (roots : List Path) (first : Composition) :
    Except Fault Composition :=
  roots.foldlM
    (fun composition root => layers.composeAt (nestingLimit + 1) false root root composition) first

theorem composition_eq (layers : Layers) :
    layers.composition = layers.composeRoots layers.rootPrims {} := rfl

theorem rootPrims_ascending (layers : Layers) :
    layers.rootPrims.Pairwise fun left right => compare left right = .lt :=
  layers.keys_ascending.sublist List.filter_sublist

structure Alike (rename : Equiv.Perm Name) (left right : Composition) : Prop where
  size : right.prototypes.size = left.prototypes.size
  prototypes : ∀ target,
    right.prototypes.get? (target.renameRoot rename) = left.prototypes.get? target

namespace Alike

variable {rename : Equiv.Perm Name} {left right : Composition}

theorem empty : Alike rename {} {} := ⟨rfl, fun _ => rfl⟩

theorem addPrim (alike : Alike rename left right) (place other : Path)
    (prototype again : Option Path) :
    Alike rename (left.addPrim place prototype) (right.addPrim other again) :=
  ⟨alike.size, alike.prototypes⟩

theorem addPrototype (alike : Alike rename left right) {target : Path} (root : Path)
    (unknown : left.prototypes.get? target = none) :
    Alike rename (left.addPrototype target root)
      (right.addPrototype (target.renameRoot rename) root) := by
  have renamedUnknown := (alike.prototypes target).trans unknown
  refine ⟨?_, fun other => ?_⟩
  · rw [size_addPrototype root unknown, size_addPrototype root renamedUnknown, alike.size]
  · rw [Composition.addPrototype, Composition.addPrototype]
    by_cases same : other = target
    · rw [same, OrderedMap.get?_insert_self, OrderedMap.get?_insert_self]
    · rw [OrderedMap.get?_insert_of_ne _ _ same, OrderedMap.get?_insert_of_ne, alike.prototypes]
      exact (Path.renameRoot_inj rename).not.mpr same

theorem nextPrototype (alike : Alike rename left right) :
    right.nextPrototype = left.nextPrototype := by
  rw [Composition.nextPrototype, Composition.nextPrototype, alike.size]

end Alike

namespace Renamed

variable {rename : Equiv.Perm Name} {left right : Layers} {first last other : Composition}

theorem eachChild (renamed : Renamed rename left right)
    {compose again : Path → Path → Composition → Except Fault Composition}
    (composes : ∀ {source place : Path} {first last other : Composition} (names : List Name),
      compose source place first = .ok last → Alike rename first other →
      ∃ ends, again (source.renameRoot rename) (.absolute names) other = .ok ends ∧
        Alike rename last ends)
    {source place : Path} {origins : List Path} (found : left.childOrigins source = .ok origins)
    (names : List Name) (composed : Composition.eachChild compose origins place first = .ok last)
    (alike : Alike rename first other) :
    ∃ ends, Composition.eachChild again (origins.map (Path.renameRoot rename)) (.absolute names)
        other = .ok ends ∧ Alike rename last ends := by
  have named : ∀ origin ∈ origins, 1 < origin.elementCount ∧
      ∃ name : Name, origin.name = name.text := fun origin member =>
    ⟨nested_of_mem_childOrigins renamed.admissible found member,
      Path.name_of_isAbsolutePrimPath
        (renamed.admissible origin (authored_of_mem_childOrigins found member)).1⟩
  clear found
  rw [Composition.eachChild] at composed ⊢
  induction origins generalizing first other with
  | nil =>
      cases composed
      exact ⟨other, rfl, alike⟩
  | cons origin rest ih =>
      obtain ⟨⟨nested, name, spelled⟩, others⟩ := List.forall_mem_cons.mp named
      rw [List.foldlM_cons, bind_eq_ok] at composed
      obtain ⟨middle, here, later⟩ := composed
      obtain ⟨below, _, here⟩ := bind_eq_ok.mp here
      obtain ⟨between, renamedHere, middleAlike⟩ := composes (names ++ [name]) here alike
      obtain ⟨ends, renamedLater, endsAlike⟩ := ih later middleAlike others
      refine ⟨ends, ?_, endsAlike⟩
      rw [List.map_cons, List.foldlM_cons, Path.name_renameRoot nested, spelled,
        Path.child_absolute]
      change again _ _ _ >>= _ = _
      rw [renamedHere]
      exact renamedLater

theorem sharedSource (renamed : Renamed rename left right) (spec : PrimSpec) (place other : Path)
    (inPrototype : Bool) : right.sharedSource (spec.renameRoot rename) other inPrototype =
      (left.sharedSource spec place inPrototype).map (Path.renameRoot rename) := by
  rw [Layers.sharedSource, Layers.sharedSource, renamed.unsaid, renamed.laterUnsaid]
  obtain ⟨instanceable, reference⟩ := spec
  cases instanceable <;> cases inPrototype <;> simp [PrimSpec.renameRoot]

theorem spec (renamed : Renamed rename left right) {path : Path} {spec : PrimSpec}
    (found : left.spec path = .ok spec) :
    right.spec (path.renameRoot rename) = .ok (spec.renameRoot rename) := by
  rw [spec_eq_ok] at found ⊢
  rw [renamed.specs, found, Option.map_some]

theorem composeAt (renamed : Renamed rename left right) {room : Nat} {inPrototype : Bool}
    {source place : Path} (names : List Name)
    (composed : left.composeAt room inPrototype source place first = .ok last)
    (alike : Alike rename first other) :
    ∃ ends, right.composeAt room inPrototype (source.renameRoot rename) (.absolute names) other =
        .ok ends ∧ Alike rename last ends := by
  induction room generalizing inPrototype source place names first last other with
  | zero => cases composed
  | succ room ih =>
      rw [Layers.composeAt, bind_eq_ok] at composed
      obtain ⟨spec, authored, composed⟩ := composed
      rw [Layers.composeAt, renamed.spec authored, ok_bind,
        renamed.sharedSource spec place (.absolute names) inPrototype]
      cases shared : left.sharedSource spec place inPrototype with
      | none =>
          simp only [shared] at composed
          obtain ⟨origins, found, composed⟩ := bind_eq_ok.mp composed
          simp only [Option.map_none, renamed.childOrigins found, ok_bind]
          exact renamed.eachChild (fun names => ih names) found names composed
            (alike.addPrim place (.absolute names) none none)
      | some target =>
          simp only [shared] at composed
          simp only [Option.map_some, alike.prototypes]
          cases known : first.prototypes.get? target with
          | some root =>
              simp only [known] at composed
              cases composed
              exact ⟨_, rfl, alike.addPrim _ _ _ _⟩
          | none =>
              simp only [known, bind_eq_ok] at composed
              obtain ⟨_, targetAuthored, root, next, origins, found, middle, composed, finished⟩ :=
                composed
              cases finished
              obtain ⟨name, _, rfl⟩ := nextPrototype_eq_ok next
              obtain ⟨ends, renamedComposed, endsAlike⟩ := renamed.eachChild (fun names => ih names)
                found [name] composed (alike.addPrototype _ known)
              refine ⟨ends.addPrim (.absolute names) (some (.absolute [name])), ?_,
                endsAlike.addPrim _ _ _ _⟩
              rw [renamed.spec targetAuthored, ok_bind, alike.nextPrototype, next, ok_bind,
                renamed.childOrigins found, ok_bind, renamedComposed]
              rfl

theorem composeRoots (renamed : Renamed rename left right) {roots : List Path}
    (authored : ∀ root ∈ roots, left.specs.contains root = true)
    (composed : left.composeRoots roots first = .ok last) (alike : Alike rename first other) :
    ∃ ends, right.composeRoots (roots.map (Path.renameRoot rename)) other = .ok ends := by
  rw [Layers.composeRoots] at composed ⊢
  induction roots generalizing first other with
  | nil => exact ⟨other, rfl⟩
  | cons root rest ih =>
      obtain ⟨here, others⟩ := List.forall_mem_cons.mp authored
      rw [List.foldlM_cons, bind_eq_ok] at composed
      obtain ⟨middle, composedHere, later⟩ := composed
      obtain ⟨names, _, located⟩ :=
        Path.isAbsolutePrimPath_iff.mp (renamed.laterAdmissible (root.renameRoot rename)
          (by rwa [renamed.contains])).1
      obtain ⟨between, renamedHere, middleAlike⟩ := renamed.composeAt names composedHere alike
      obtain ⟨ends, renamedLater⟩ := ih others later middleAlike
      rw [← located] at renamedHere
      refine ⟨ends, ?_⟩
      rw [List.map_cons, List.foldlM_cons, renamedHere]
      exact renamedLater

theorem rootPrims_map (renamed : Renamed rename left right) {roots : List Path}
    (permuted : roots.Perm left.rootPrims)
    (ordered : roots.Pairwise fun first second =>
      compare (first.renameRoot rename) (second.renameRoot rename) = .lt) :
    roots.map (Path.renameRoot rename) = right.rootPrims := by
  refine OrderedMap.eq_of_ascending id (List.pairwise_map.mpr ordered) right.rootPrims_ascending
    fun root => ?_
  rw [mem_rootPrims, List.mem_map]
  constructor
  · rintro ⟨before, member, rfl⟩
    rw [renamed.contains, Path.renameRoot_elementCount]
    exact mem_rootPrims.mp (permuted.mem_iff.mp member)
  · rintro ⟨authored, single⟩
    refine ⟨root.renameRoot rename.symm, permuted.mem_iff.mpr (mem_rootPrims.mpr ⟨?_, ?_⟩),
      Path.symm_renameRoot rename root⟩
    · rwa [← renamed.contains, Path.symm_renameRoot]
    · rwa [Path.renameRoot_elementCount]

/-- Layers with renamed root prims compose exactly if the layers as they were do with their root
prims in the order of their new names. -/
theorem composition_iff (renamed : Renamed rename left right) {roots : List Path}
    (permuted : roots.Perm left.rootPrims)
    (ordered : roots.Pairwise fun first second =>
      compare (first.renameRoot rename) (second.renameRoot rename) = .lt) :
    (∃ composition, right.composition = .ok composition) ↔
      ∃ composition, left.composeRoots roots {} = .ok composition := by
  have reordered := renamed.rootPrims_map permuted ordered
  have authored : ∀ root ∈ roots, left.specs.contains root = true := fun root member =>
    (mem_rootPrims.mp (permuted.mem_iff.mp member)).1
  rw [composition_eq, ← reordered]
  constructor
  · rintro ⟨composition, composed⟩
    have renamedAuthored : ∀ root ∈ roots.map (Path.renameRoot rename),
        right.specs.contains root = true := by
      intro root member
      obtain ⟨original, originalMember, rfl⟩ := List.mem_map.mp member
      rw [renamed.contains]
      exact authored original originalMember
    have back : roots.map (Path.renameRoot rename.symm ∘ Path.renameRoot rename) = roots :=
      (List.map_congr_left fun root _ => Path.renameRoot_symm rename root).trans (List.map_id _)
    obtain ⟨before, composedBefore⟩ :=
      renamed.symm.composeRoots renamedAuthored composed Alike.empty
    rw [List.map_map, back] at composedBefore
    exact ⟨before, composedBefore⟩
  · rintro ⟨composition, composed⟩
    exact renamed.composeRoots authored composed Alike.empty

theorem nested_of_composition (renamed : Renamed rename left right) {composition : Composition}
    (composed : left.composition = .ok composition) {fault : Fault}
    (failed : right.composition = .error fault) : ∃ place, fault = .nestedTooDeep place := by
  cases blocked_of_composition renamed.laterAdmissible failed with
  | nested => exact ⟨_, rfl⟩
  | @dangling prim target reaches references unauthored =>
      have authored := authored_of_composition renamed.admissible composed
        (renamed.symm.reaches reaches) (renamed.symm.references references)
      rw [renamed.symm.contains, unauthored] at authored
      cases authored

end Renamed

end Layers

end SceneGraph
