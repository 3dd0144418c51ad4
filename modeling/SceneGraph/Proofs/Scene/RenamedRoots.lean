import Mathlib.Data.Fintype.Sum
import SceneGraph.Proofs.Scene.Addressed
import SceneGraph.Proofs.Scene.Loaded
import SceneGraph.Proofs.Scene.RootOrder

/-!
Definitions with their root prims renamed. They load to the same prims under other names, unless the
order of the new names nests prototypes too deep.
-/

namespace SceneGraph

namespace Definition

/-- The names that the paths of prims and their references start with. -/
def rootNames (definition : Definition) : List Name :=
  definition.prims.entries.flatMap fun entry =>
    (entry.1 :: entry.2.reference.toList).filterMap fun path => path.elements.head?

def renameRoots (definition : Definition) (rename : Name → Name) : Definition :=
  ⟨.ofList (definition.prims.entries.map fun entry =>
    (entry.1.renameRoot rename, entry.2.renameRoot rename))⟩

variable {definition : Definition} {path : Path} {specs later : SpecMap}

theorem mem_rootNames {entry : Path × PrimSpec} (member : entry ∈ definition.prims.entries)
    (named : path = entry.1 ∨ entry.2.reference = some path) :
    ∀ name ∈ path.elements.head?, name ∈ definition.rootNames := by
  intro name first
  refine List.mem_flatMap.mpr ⟨entry, member, List.mem_filterMap.mpr ⟨path, ?_, first⟩⟩
  simpa [Option.mem_toList] using named

theorem renameRoots_congr {rename other : Name → Name}
    (same : ∀ name ∈ definition.rootNames, rename name = other name) :
    definition.renameRoots rename = definition.renameRoots other := by
  have paths {entry : Path × PrimSpec} (member : entry ∈ definition.prims.entries)
      (path : Path) (named : path = entry.1 ∨ entry.2.reference = some path) :
      path.renameRoot rename = path.renameRoot other :=
    Path.renameRoot_congr fun name first => same name (mem_rootNames member named name first)
  refine congrArg (fun entries => (⟨.ofList entries⟩ : Definition)) (List.map_congr_left ?_)
  intro entry member
  refine Prod.ext (paths member entry.1 (Or.inl rfl)) ?_
  rw [PrimSpec.renameRoot, PrimSpec.renameRoot]
  cases reference : entry.2.reference with
  | none => rfl
  | some target => rw [Option.map_some, Option.map_some, paths member target (Or.inr reference)]

section

variable (rename : Equiv.Perm Name)

theorem find_renameRoot (path : Path) (entries : List (Path × PrimSpec)) :
    OrderedMap.find (path.renameRoot rename) (entries.map fun entry =>
        (entry.1.renameRoot rename, entry.2.renameRoot rename)) =
      (OrderedMap.find path entries).map (PrimSpec.renameRoot rename) := by
  induction entries with
  | nil => rfl
  | cons entry rest ih =>
      rw [List.map_cons, OrderedMap.find, OrderedMap.find, ih]
      simp only [Std.LawfulEqOrd.compare_eq_iff_eq, Path.renameRoot_inj]
      split <;> rfl

theorem get?_renameRoots (definition : Definition) (path : Path) :
    (definition.renameRoots rename).prims.get? (path.renameRoot rename) =
      (definition.prims.get? path).map (PrimSpec.renameRoot rename) := by
  have distinct := OrderedMap.distinct_of_ascending definition.prims.ascending
  rw [renameRoots, OrderedMap.get?_ofList, find_renameRoot]
  · rfl
  · exact List.pairwise_map.mpr
      (distinct.imp fun different => (Path.renameRoot_inj rename).not.mpr different)

theorem contains_renameRoots (definition : Definition) (path : Path) :
    (definition.renameRoots rename).prims.contains (path.renameRoot rename) =
      definition.prims.contains path := by
  rw [OrderedMap.contains, get?_renameRoots, Option.isSome_map, OrderedMap.contains]

theorem isAbove_renameRoots (definition : Definition) (path : Path) :
    (definition.renameRoots rename).isAbove (path.renameRoot rename) = definition.isAbove path := by
  have higher (key : Path) : path.renameRoot rename ∈ (key.renameRoot rename).ancestors ↔
      path ∈ key.ancestors := by
    rw [Path.ancestors_renameRoot]
    exact List.mem_map_of_injective fun _ _ => (Path.renameRoot_inj rename).mp
  rw [isAbove, isAbove, Path.isPrimPath_renameRoot]
  refine congrArg _ (Bool.eq_iff_iff.mpr ?_)
  simp only [List.any_eq_true, List.contains_iff_mem, OrderedMap.mem_keys_iff]
  constructor
  · rintro ⟨key, present, above⟩
    rw [← Path.symm_renameRoot rename key] at present above
    exact ⟨_, by rwa [contains_renameRoots] at present, (higher _).mp above⟩
  · rintro ⟨key, present, above⟩
    exact ⟨_, by rwa [contains_renameRoots], (higher key).mpr above⟩

theorem isReserved_renameRoot
    (unreserved : ∀ name ∈ definition.rootNames, (Path.absolute [rename name]).isReserved = false)
    (present : definition.prims.contains path = true) (prim : path.isAbsolutePrimPath = true) :
    (path.renameRoot rename).isReserved = false := by
  obtain ⟨spec, found⟩ := OrderedMap.contains_iff.mp present
  have member := (OrderedMap.get?_eq_some_iff _ _ _).mp found
  obtain ⟨names, named, rfl⟩ := Path.isAbsolutePrimPath_iff.mp prim
  obtain ⟨first, rest, rfl⟩ := List.exists_cons_of_ne_nil named
  rw [← unreserved first (mem_rootNames member (Or.inl rfl) first rfl)]
  exact Path.isReserved_congr rfl rfl

theorem ofDefinition_renameRoots_iff
    (unreserved : ∀ name ∈ definition.rootNames, (Path.absolute [rename name]).isReserved = false)
    (outside : ∀ path, definition.prims.contains path = true → path.isReserved = false) :
    (∃ later, SpecMap.ofDefinition (definition.renameRoots rename) = .ok later) ↔
      ∃ specs, SpecMap.ofDefinition definition = .ok specs := by
  rw [SpecMap.ofDefinition_ok_iff, SpecMap.ofDefinition_ok_iff]
  constructor
  · intro admissible path present
    rw [← contains_renameRoots rename] at present
    have prim := (admissible _ present).1
    rw [contains_renameRoots] at present
    rw [Path.isAbsolutePrimPath_renameRoot] at prim
    exact ⟨prim, outside path present⟩
  · intro admissible path present
    rw [← Path.symm_renameRoot rename path, contains_renameRoots] at present
    have prim := (admissible _ present).1
    rw [← Path.symm_renameRoot rename path, Path.isAbsolutePrimPath_renameRoot]
    exact ⟨prim, isReserved_renameRoot rename unreserved present prim⟩

theorem renamed_of_ofDefinition (loaded : SpecMap.ofDefinition definition = .ok specs)
    (laterLoaded : SpecMap.ofDefinition (definition.renameRoots rename) = .ok later) :
    Layers.Renamed rename ⟨specs, ∅⟩ ⟨later, ∅⟩ where
  specs path := by
    rw [SpecMap.get?_of_ofDefinition laterLoaded, SpecMap.get?_of_ofDefinition loaded,
      get?_renameRoots, isAbove_renameRoots]
    cases definition.prims.get? path <;> cases definition.isAbove path <;> rfl
  admissible := (SpecMap.tree_ofDefinition loaded).admissible
  laterAdmissible := (SpecMap.tree_ofDefinition laterLoaded).admissible
  unsaid := rfl
  laterUnsaid := rfl

end

theorem mem_rootNames_of_ofDefinition (loaded : SpecMap.ofDefinition definition = .ok specs)
    (authored : specs.contains path = true) :
    ∀ name ∈ path.elements.head?, name ∈ definition.rootNames := by
  obtain ⟨spec, found⟩ := OrderedMap.contains_iff.mp authored
  rw [SpecMap.get?_of_ofDefinition loaded] at found
  intro name first
  cases present : definition.prims.get? path with
  | some own =>
      exact mem_rootNames ((OrderedMap.get?_eq_some_iff _ _ _).mp present) (Or.inl rfl) name first
  | none =>
      have above : definition.isAbove path = true := by
        by_contra other
        simp [present, other] at found
      simp only [isAbove, Bool.and_eq_true, List.any_eq_true, List.contains_iff_mem] at above
      obtain ⟨_, key, keyMember, higher⟩ := above
      obtain ⟨entry, member, rfl⟩ := List.mem_map.mp keyMember
      refine mem_rootNames member (Or.inl rfl) name ?_
      obtain ⟨rest, same⟩ := Path.begins_of_mem_ancestors higher
      rw [← same, List.head?_append, first]
      rfl

theorem exists_permutation {names : List Name} {rename : Name → Name}
    (injective : Set.InjOn rename {name | name ∈ names}) :
    ∃ permutation : Equiv.Perm Name, ∀ name ∈ names, permutation name = rename name := by
  let all : Finset Name := names.toFinset ∪ names.toFinset.image rename
  have permuted : ∃ on : {name // name ∈ all} ≃ {name // name ∈ all},
      ∀ name ∈ {name : {name // name ∈ all} | name.1 ∈ names}, (on name).1 = rename name.1 := by
    refine Set.MapsTo.exists_equiv_extend_of_card_eq (Fintype.card_coe all) ?_ ?_
    · intro name member
      exact Finset.mem_union_right _ (Finset.mem_image_of_mem _ (List.mem_toFinset.mpr member))
    · intro first member second secondMember same
      exact Subtype.ext (injective member secondMember same)
  obtain ⟨on, agrees⟩ := permuted
  refine ⟨Equiv.Perm.subtypeCongr on (Equiv.refl _), fun name member => ?_⟩
  have within : name ∈ all := Finset.mem_union_left _ (List.mem_toFinset.mpr member)
  rw [Equiv.Perm.subtypeCongr.left_apply _ _ within]
  exact agrees ⟨name, within⟩ member

end Definition

namespace Scene

variable {scene later : Scene} {definition : Definition} {path : Path} {specs : SpecMap}

theorem Sound.primAt?_renameRoot (sound : scene.Sound) (laterSound : later.Sound)
    {rename : Equiv.Perm Name} (renamed : Layers.Renamed rename scene.layers later.layers)
    (unreserved : path.isReserved = false) {flag : Bool}
    (found : (scene.primAt? path).map Prim.isInstance = some flag) :
    (path.renameRoot rename).isReserved = false ∧
      (later.primAt? (path.renameRoot rename)).map Prim.isInstance = some flag := by
  obtain ⟨last, walked, outside, shared⟩ := sound.walk_of_primAt? unreserved found
  obtain ⟨ends, renamedWalk, beside⟩ := renamed.walk walked
  obtain ⟨first, rest, located, authored, _⟩ := Layers.follow_eq_some renamedWalk
  have laterUnreserved : (path.renameRoot rename).isReserved = false := by
    rw [located, ← (renamed.laterAdmissible _ authored).2]
    exact Path.isReserved_congr rfl rfl
  refine ⟨laterUnreserved, ?_⟩
  rw [laterSound.primAt?_walk laterUnreserved, renamedWalk]
  simp [Option.filter, beside.crossed, outside, renamed.sharedAt beside, shared]

/-- How a definition loads once its root prims are renamed. -/
structure LoadsRenamed (definition : Definition) (rename : Name → Name) : Prop where
  accepted : (load definition).result = .ok () →
    (load (definition.renameRoots rename)).result = .ok () ∨
      ∃ place, (load (definition.renameRoots rename)).result = .error (.nestedTooDeep place)
  acceptedBefore : (load (definition.renameRoots rename)).result = .ok () →
    (load definition).result = .ok () ∨
      ∃ place, (load definition).result = .error (.nestedTooDeep place)
  ordered : ∀ specs roots, SpecMap.ofDefinition definition = .ok specs →
    roots.Perm (⟨specs, ∅⟩ : Layers).rootPrims →
    roots.Pairwise (fun left right =>
      compare (left.renameRoot rename) (right.renameRoot rename) = .lt) →
    ((load (definition.renameRoots rename)).result = .ok () ↔
      ∃ composition, (⟨specs, ∅⟩ : Layers).composeRoots roots {} = .ok composition)
  sameOrder : (∀ left ∈ definition.rootNames, ∀ right ∈ definition.rootNames,
      compare left right = .lt → compare (rename left) (rename right) = .lt) →
    ((load (definition.renameRoots rename)).result = .ok () ↔ (load definition).result = .ok ())
  prims : (load definition).result = .ok () →
    (load (definition.renameRoots rename)).result = .ok () → ∀ place flag,
    (place.isReserved = false ∧
      ((load (definition.renameRoots rename)).state.primAt? place).map Prim.isInstance =
        some flag) ↔
    ∃ path, path.isReserved = false ∧
      ((load definition).state.primAt? path).map Prim.isInstance = some flag ∧
      place = path.renameRoot rename

theorem accepted_or_nested {rename : Equiv.Perm Name} {renamed : Definition}
    {renamedSpecs : SpecMap} (loaded : SpecMap.ofDefinition definition = .ok specs)
    (renamedLoaded : SpecMap.ofDefinition renamed = .ok renamedSpecs)
    (related : Layers.Renamed rename ⟨specs, ∅⟩ ⟨renamedSpecs, ∅⟩)
    (accepted : (load definition).result = .ok ()) : (load renamed).result = .ok () ∨
      ∃ place, (load renamed).result = .error (.nestedTooDeep place) := by
  rw [load_of_ofDefinition loaded] at accepted
  obtain ⟨composition, composed⟩ := compose_eq_ok.mp accepted
  rw [load_of_ofDefinition renamedLoaded]
  rcases compose_cases {} ⟨renamedSpecs, ∅⟩ with ⟨fault, refused, failed, _⟩ | ⟨_, _, succeeded, _⟩
  · obtain ⟨place, rfl⟩ := related.nested_of_composition composed refused
    exact Or.inr ⟨place, failed⟩
  · exact Or.inl succeeded

theorem primAt?_renameRoot_iff {rename : Equiv.Perm Name} {renamed : Definition}
    {renamedSpecs : SpecMap} (loaded : SpecMap.ofDefinition definition = .ok specs)
    (renamedLoaded : SpecMap.ofDefinition renamed = .ok renamedSpecs)
    (related : Layers.Renamed rename ⟨specs, ∅⟩ ⟨renamedSpecs, ∅⟩)
    (loads : (load definition).result = .ok ()) (renamedLoads : (load renamed).result = .ok ())
    {flag : Bool} :
    (path.isReserved = false ∧
      ((load definition).state.primAt? path).map Prim.isInstance = some flag) ↔
    ((path.renameRoot rename).isReserved = false ∧
      ((load renamed).state.primAt? (path.renameRoot rename)).map Prim.isInstance = some flag) := by
  rw [← layers_of_load loaded loads, ← layers_of_load renamedLoaded renamedLoads] at related
  have sound := (Reachable.load loads).sound
  have renamedSound := (Reachable.load renamedLoads).sound
  constructor
  · rintro ⟨unreserved, found⟩
    exact sound.primAt?_renameRoot renamedSound related unreserved found
  · rintro ⟨unreserved, found⟩
    have back := renamedSound.primAt?_renameRoot sound related.symm unreserved found
    rwa [Path.renameRoot_symm] at back

theorem rootPrims_ordered {rename : Name → Name}
    (loaded : SpecMap.ofDefinition definition = .ok specs)
    (sameOrder : ∀ left ∈ definition.rootNames, ∀ right ∈ definition.rootNames,
      compare left right = .lt → compare (rename left) (rename right) = .lt) :
    (⟨specs, ∅⟩ : Layers).rootPrims.Pairwise fun left right =>
      compare (left.renameRoot rename) (right.renameRoot rename) = .lt := by
  have rooted {root : Path} (member : root ∈ (⟨specs, ∅⟩ : Layers).rootPrims) :
      ∃ name ∈ definition.rootNames, root = .absolute [name] := by
    obtain ⟨authored, single⟩ := Layers.mem_rootPrims.mp member
    obtain ⟨names, _, rfl⟩ := Path.isAbsolutePrimPath_iff.mp
      ((SpecMap.tree_ofDefinition loaded).admissible root authored).1
    obtain ⟨name, rfl⟩ := List.length_eq_one_iff.mp single
    exact ⟨name, Definition.mem_rootNames_of_ofDefinition loaded authored name rfl, rfl⟩
  have ascending := Layers.rootPrims_ascending ⟨specs, ∅⟩
  refine ascending.imp_of_mem fun {left right} member rightMember order => ?_
  obtain ⟨name, known, rfl⟩ := rooted member
  obtain ⟨other, otherKnown, rfl⟩ := rooted rightMember
  rw [Path.compare_cons, Std.ReflOrd.compare_self, Ordering.then_eq] at order
  rw [Path.renameRoot_absolute, Path.renameRoot_absolute, Path.compare_cons,
    Std.ReflOrd.compare_self, Ordering.then_eq]
  exact sameOrder name known other otherKnown order

theorem mem_rootNames_of_primAt? (loads : (load definition).result = .ok ())
    (unreserved : path.isReserved = false) {flag : Bool}
    (found : ((load definition).state.primAt? path).map Prim.isInstance = some flag) :
    ∀ name ∈ path.elements.head?, name ∈ definition.rootNames := by
  obtain ⟨specs, loaded, _⟩ := load_eq_ok.mp loads
  obtain ⟨last, walked, _⟩ := (Reachable.load loads).sound.walk_of_primAt? unreserved found
  obtain ⟨first, rest, rfl, authored, _⟩ := Layers.follow_eq_some walked
  rw [layers_of_load loaded loads] at authored
  intro name head
  exact Definition.mem_rootNames_of_ofDefinition loaded authored name head

theorem loadsRenamed_of_perm (rename : Equiv.Perm Name)
    (unreserved : ∀ name ∈ definition.rootNames, (Path.absolute [rename name]).isReserved = false)
    (outside : ∀ path, definition.prims.contains path = true → path.isReserved = false) :
    LoadsRenamed definition rename := by
  have completed := Definition.ofDefinition_renameRoots_iff rename unreserved outside
  have ordered (specs : SpecMap) (roots : List Path)
      (loaded : SpecMap.ofDefinition definition = .ok specs)
      (permuted : roots.Perm (⟨specs, ∅⟩ : Layers).rootPrims)
      (ascending : roots.Pairwise fun left right =>
        compare (left.renameRoot rename) (right.renameRoot rename) = .lt) :
      (load (definition.renameRoots rename)).result = .ok () ↔
        ∃ composition, (⟨specs, ∅⟩ : Layers).composeRoots roots {} = .ok composition := by
    obtain ⟨later, laterLoaded⟩ := completed.mpr ⟨specs, loaded⟩
    rw [load_of_ofDefinition laterLoaded, compose_eq_ok]
    exact (Definition.renamed_of_ofDefinition rename loaded laterLoaded).composition_iff permuted
      ascending
  refine ⟨?_, ?_, ordered, ?_, ?_⟩
  · intro accepted
    obtain ⟨specs, loaded, _⟩ := load_eq_ok.mp accepted
    obtain ⟨later, laterLoaded⟩ := completed.mpr ⟨specs, loaded⟩
    have related := Definition.renamed_of_ofDefinition rename loaded laterLoaded
    exact accepted_or_nested loaded laterLoaded related accepted
  · intro accepted
    obtain ⟨later, laterLoaded, _⟩ := load_eq_ok.mp accepted
    obtain ⟨specs, loaded⟩ := completed.mp ⟨later, laterLoaded⟩
    have related := Definition.renamed_of_ofDefinition rename loaded laterLoaded
    exact accepted_or_nested laterLoaded loaded related.symm accepted
  · intro sameOrder
    constructor
    · intro accepted
      obtain ⟨later, laterLoaded, _⟩ := load_eq_ok.mp accepted
      obtain ⟨specs, loaded⟩ := completed.mp ⟨later, laterLoaded⟩
      have ascending := rootPrims_ordered loaded sameOrder
      exact load_eq_ok.mpr
        ⟨specs, loaded, (ordered specs _ loaded (List.Perm.refl _) ascending).mp accepted⟩
    · intro accepted
      obtain ⟨specs, loaded, composed⟩ := load_eq_ok.mp accepted
      have ascending := rootPrims_ordered loaded sameOrder
      exact (ordered specs _ loaded (List.Perm.refl _) ascending).mpr composed
  · intro loads laterLoads place flag
    obtain ⟨specs, loaded, _⟩ := load_eq_ok.mp loads
    obtain ⟨later, laterLoaded, _⟩ := load_eq_ok.mp laterLoads
    have related := Definition.renamed_of_ofDefinition rename loaded laterLoaded
    constructor
    · intro present
      rw [← Path.symm_renameRoot rename place] at present
      obtain ⟨unreserved, found⟩ :=
        (primAt?_renameRoot_iff loaded laterLoaded related loads laterLoads).mpr present
      exact ⟨_, unreserved, found, (Path.symm_renameRoot rename place).symm⟩
    · rintro ⟨path, unreserved, found, rfl⟩
      exact (primAt?_renameRoot_iff loaded laterLoaded related loads laterLoads).mp
        ⟨unreserved, found⟩

theorem LoadsRenamed.congr {rename other : Name → Name} (loads : LoadsRenamed definition rename)
    (same : ∀ name ∈ definition.rootNames, rename name = other name) :
    LoadsRenamed definition other := by
  have located {path : Path} (known : ∀ name ∈ path.elements.head?, name ∈ definition.rootNames) :
      path.renameRoot rename = path.renameRoot other :=
    Path.renameRoot_congr fun name first => same name (known name first)
  have renamed := Definition.renameRoots_congr same
  obtain ⟨accepted, acceptedBefore, ordered, sameOrder, prims⟩ := loads
  rw [renamed] at accepted acceptedBefore ordered sameOrder prims
  refine ⟨accepted, acceptedBefore, ?_, ?_, ?_⟩
  · intro specs roots loaded permuted ascending
    refine ordered specs roots loaded permuted (ascending.imp_of_mem ?_)
    have known {root : Path} (member : root ∈ roots) :
        root.renameRoot rename = root.renameRoot other := by
      have authored := (Layers.mem_rootPrims.mp (permuted.mem_iff.mp member)).1
      exact located (Definition.mem_rootNames_of_ofDefinition loaded authored)
    intro left right member rightMember order
    rwa [known member, known rightMember]
  · intro kept
    refine sameOrder fun left member right rightMember order => ?_
    rw [same left member, same right rightMember]
    exact kept left member right rightMember order
  · intro first later place flag
    rw [prims first later]
    refine exists_congr fun path =>
      and_congr_right fun unreserved => and_congr_right fun found => ?_
    rw [located (mem_rootNames_of_primAt? first unreserved found)]

/-- Renaming root prims apart and outside the namespace of prototypes, a definition with no prim in
that namespace is accepted or refused as before, nesting apart; whether nesting is in the way, the
order of the new names decides; and the prims outside prototypes are the same under new names. -/
theorem load_renameRoots {rename : Name → Name}
    (injective : Set.InjOn rename {name | name ∈ definition.rootNames})
    (unreserved : ∀ name ∈ definition.rootNames, (Path.absolute [rename name]).isReserved = false)
    (outside : ∀ path, definition.prims.contains path = true → path.isReserved = false) :
    LoadsRenamed definition rename := by
  -- A permutation can be undone, so each step need only be followed one way.
  obtain ⟨permutation, agrees⟩ := Definition.exists_permutation injective
  have renamed : LoadsRenamed definition permutation := by
    refine loadsRenamed_of_perm permutation (fun name member => ?_) outside
    rw [agrees name member]
    exact unreserved name member
  exact renamed.congr agrees

theorem load_renameRoots_hall :
    let seat : Name := ⟨"Seat", by decide⟩
    let leg : Name := ⟨"leg", by decide⟩
    let zone : Name := ⟨"Zone", by decide⟩
    let rename := fun name => if name = seat then zone else name
    let renamed := hall.renameRoots rename
    LoadsRenamed hall rename ∧ (load renamed).result = .ok () ∧
      ((load renamed).state.primAt? (.absolute [zone, leg])).map Prim.isInstance = some false := by
  intro seat leg zone rename renamed
  have injective : ∀ left ∈ hall.rootNames, ∀ right ∈ hall.rootNames,
      rename left = rename right → left = right := by decide +kernel
  have outside : ∀ path ∈ hall.prims.keys, path.isReserved = false := by decide +kernel
  have loads : LoadsRenamed hall rename :=
    load_renameRoots (fun left member right rightMember => injective left member right rightMember)
      (by decide +kernel) fun path present => outside path (OrderedMap.mem_keys_iff.mpr present)
  have renamedLoads : (load renamed).result = .ok () := by decide +kernel
  have present := (loads.prims hall_loads renamedLoads (.absolute [zone, leg]) false).mpr
    ⟨.absolute [seat, leg], by decide +kernel, by decide +kernel, by decide +kernel⟩
  exact ⟨loads, renamedLoads, present.2⟩

/-- Flights of stairs: the landing of each references the next flight, and that of the last, an
instance, the first one. -/
def stairs (flights : List Name) : Definition :=
  let step : Name := ⟨"step", by decide⟩
  let landings := flights.map fun flight => Path.absolute (flight :: List.replicate 13 step)
  let nexts : List PrimSpec := flights.tail.map fun next => { reference := some (.absolute [next]) }
  let again : Option PrimSpec := flights.head?.map fun first =>
    { instanceable := true, reference := some (.absolute [first]) }
  ⟨.ofList (landings.zip (nexts ++ again.toList))⟩

/-- The flights are 65 steps to one instance, which shares all of them. The last flight comes to it
after its own steps, but the first one only after those of all the others, and that is too deep:
whether the stairs load is a matter of which of the two is composed first. -/
theorem stairs_too_deep :
    let step : Name := ⟨"step", by decide⟩
    let attic : Name := ⟨"Attic", by decide⟩
    let balcony : Name := ⟨"Balcony", by decide⟩
    let cellar : Name := ⟨"Cellar", by decide⟩
    let deck : Name := ⟨"Deck", by decide⟩
    let entry : Name := ⟨"Entry", by decide⟩
    let definition := stairs [entry, deck, cellar, balcony, attic]
    let rename := (Equiv.swap attic entry).trans (Equiv.swap balcony deck)
    let prototype : Name := ⟨"__Prototype_1", by decide⟩
    Function.Injective rename ∧
      (∀ name ∈ definition.rootNames, (Path.absolute [rename name]).isReserved = false) ∧
      (load definition).result = .ok () ∧
      (load (definition.renameRoots rename)).result =
        .error (.nestedTooDeep (.absolute (prototype :: List.replicate 64 step))) := by
  intro step attic balcony cellar deck entry definition rename prototype
  have upwards : definition.renameRoots rename = stairs [attic, balcony, cellar, deck, entry] := by
    decide +kernel
  rw [upwards]
  exact ⟨rename.injective, by decide +kernel, by decide +kernel, by decide +kernel⟩

/-- A prim in the namespace of prototypes is refused, and accepted once it is renamed. -/
theorem reserved_key_renamed :
    let reserved : Name := ⟨"__Prototype_1", by decide⟩
    let hatch : Name := ⟨"Hatch", by decide⟩
    let definition : Definition := ⟨.ofList [(.absolute [reserved], {})]⟩
    let rename := Equiv.swap reserved hatch
    Function.Injective rename ∧
      (∀ name ∈ definition.rootNames, (Path.absolute [rename name]).isReserved = false) ∧
      (load definition).result = .error (.reservedName (.absolute [reserved])) ∧
      (load (definition.renameRoots rename)).result = .ok () := by
  intro reserved hatch definition rename
  exact ⟨rename.injective, by decide +kernel, by decide +kernel, by decide +kernel⟩

end Scene

end SceneGraph
