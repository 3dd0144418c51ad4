import SceneGraph.Proofs.Scene.Exact

/-!
The shape of a composition: prims are at absolute paths, below prims that are no instances, and
prototype roots are root prims in the namespace of prototypes.
-/

namespace SceneGraph.Layers

variable (layers : Layers)

/-- The children of the authored prim `source` are composed right below `place`: a prim is composed
there from it that is no instance, or the root of its prototype is there. -/
def Hosts (prototypes : Path → Option Path) (inPrototype : Bool) (source place : Path) : Prop :=
  (layers.Placed prototypes ⟨inPrototype, source, place⟩ ∧
      ∀ target, ¬layers.Shares ⟨inPrototype, source, place⟩ target) ∨
    inPrototype = true ∧ prototypes source = some place

def childNamed (source : Path) (name : Name) : Option Path :=
  (layers.childOrigins source).toOption.bind fun origins =>
    origins.find? fun origin => origin.name = name.text

variable {layers} {composition : Composition}

theorem find_name_eq_some_iff {paths : List Path} {path : Path} {text : String}
    (distinct : paths.Pairwise fun left right => left.name ≠ right.name) :
    paths.find? (fun path => path.name = text) = some path ↔ path ∈ paths ∧ path.name = text := by
  constructor
  · intro found
    exact ⟨List.mem_of_find?_eq_some found, by simpa using List.find?_some found⟩
  · rintro ⟨member, spelled⟩
    cases found : paths.find? fun path => path.name = text with
    | none => exact absurd (by simpa using spelled) (List.find?_eq_none.mp found path member)
    | some other =>
        have otherSpelled : other.name = text := by simpa using List.find?_some found
        exact congrArg some (List.inj_on_of_nodup_map (List.pairwise_map.mpr distinct)
          (List.mem_of_find?_eq_some found) member (otherSpelled.trans spelled.symm))

theorem childNamed_eq_some {source origin : Path} {name : Name} :
    layers.childNamed source name = some origin ↔ ∃ origins,
      layers.childOrigins source = .ok origins ∧ origin ∈ origins ∧ origin.name = name.text := by
  rw [childNamed]
  cases children : layers.childOrigins source with
  | error fault => simp [Except.toOption]
  | ok origins =>
      simp only [Except.toOption, Option.bind_some, Except.ok.injEq, exists_eq_left']
      exact find_name_eq_some_iff (childOrigins_distinct children)

theorem Hosts.placed {prototypes : Path → Option Path} {inPrototype : Bool}
    {source place origin below : Path} (hosts : layers.Hosts prototypes inPrototype source place)
    {origins : List Path} (found : layers.childOrigins source = .ok origins)
    (member : origin ∈ origins) (under : place.child origin.name = .ok below)
    (shared : inPrototype = true → prototypes source = some place →
      ∃ sharer, layers.Placed prototypes sharer ∧ layers.Shares sharer source) :
    layers.Placed prototypes ⟨inPrototype, origin, below⟩ := by
  rcases hosts with ⟨placed, unshared⟩ | ⟨rfl, known⟩
  · exact Placed.child placed unshared found member under
  · obtain ⟨sharer, placed, shares⟩ := shared rfl known
    exact Placed.shared placed shares known found member under

theorem Placed.isReserved_eq {prototypes : Path → Option Path}
    (admissible : layers.specs.Admissible)
    (rooted : ∀ target root, prototypes target = some root →
      ∃ number, IsPrototypeRoot number root)
    {placement : Placement} (placed : layers.Placed prototypes placement) :
    placement.place.isReserved = placement.inPrototype := by
  induction placed with
  | root isRoot => exact (admissible _ (mem_rootPrims.mp isRoot).1).2
  | child parent _ _ _ below ih =>
      obtain ⟨names, named, located⟩ := parent.absolute admissible rooted
      rw [← ih]
      exact Path.isReserved_child (by simpa [located] using named) below
  | shared _ _ known _ _ below =>
      obtain ⟨number, isRoot⟩ := rooted _ _ known
      rw [← isRoot.reserved]
      obtain ⟨name, _, rfl⟩ := isRoot
      exact Path.isReserved_child (by simp) below

namespace FollowsRules

theorem prim_none (rules : layers.FollowsRules composition) {placement : Placement}
    (placed : layers.Placed composition.prototypes.get? placement)
    (unshared : ∀ target, ¬layers.Shares placement target) :
    composition.prims.get? placement.place = some none :=
  (rules.prims _ _).mpr (Or.inl ⟨placement, placed, rfl, Or.inl ⟨rfl, unshared⟩⟩)

theorem prim_shared (rules : layers.FollowsRules composition) {placement : Placement}
    {target root : Path} (placed : layers.Placed composition.prototypes.get? placement)
    (shares : layers.Shares placement target)
    (known : composition.prototypes.get? target = some root) :
    composition.prims.get? placement.place = some (some root) :=
  (rules.prims _ _).mpr (Or.inl ⟨placement, placed, rfl, Or.inr ⟨target, root, shares, known, rfl⟩⟩)

theorem prim_root (rules : layers.FollowsRules composition) {target root : Path}
    (known : composition.prototypes.get? target = some root) :
    composition.prims.get? root = some none :=
  (rules.prims _ _).mpr (Or.inr ⟨rfl, target, known⟩)

theorem absolute (rules : layers.FollowsRules composition) (admissible : layers.specs.Admissible)
    {place : Path} (present : composition.prims.contains place = true) :
    ∃ names, names ≠ [] ∧ place = .absolute names := by
  obtain ⟨value, found⟩ := OrderedMap.contains_iff.mp present
  rcases (rules.prims _ _).mp found with ⟨placement, placed, rfl, _⟩ | ⟨_, target, known⟩
  · exact placed.absolute admissible rules.roots
  · obtain ⟨_, name, _, rfl⟩ := rules.roots target place known
    exact ⟨[name], by simp, rfl⟩

theorem prim_host (rules : layers.FollowsRules composition) {inPrototype : Bool}
    {source place : Path}
    (hosts : layers.Hosts composition.prototypes.get? inPrototype source place) :
    composition.prims.get? place = some none := by
  rcases hosts with ⟨placed, unshared⟩ | ⟨_, known⟩
  · exact rules.prim_none placed unshared
  · exact rules.prim_root known

theorem host_unique (rules : layers.FollowsRules composition) {left right : Bool}
    {source other place : Path}
    (first : layers.Hosts composition.prototypes.get? left source place)
    (second : layers.Hosts composition.prototypes.get? right other place) :
    left = right ∧ source = other := by
  rcases first with ⟨placed, _⟩ | ⟨rfl, known⟩
  · rcases second with ⟨otherPlaced, _⟩ | ⟨_, otherKnown⟩
    · have same := rules.unique _ _ placed otherPlaced rfl
      cases same
      exact ⟨rfl, rfl⟩
    · exact absurd otherKnown (rules.apart _ placed other)
  · rcases second with ⟨otherPlaced, _⟩ | ⟨rfl, otherKnown⟩
    · exact absurd known (rules.apart _ otherPlaced source)
    · exact ⟨rfl, rules.distinct _ _ _ known otherKnown⟩

theorem host_children (rules : layers.FollowsRules composition) {inPrototype : Bool}
    {source place : Path}
    (hosts : layers.Hosts composition.prototypes.get? inPrototype source place) :
    ∃ origins, layers.childOrigins source = .ok origins ∧
      ∀ origin ∈ origins, ∃ below, place.child origin.name = .ok below ∧
        layers.Placed composition.prototypes.get? ⟨inPrototype, origin, below⟩ := by
  have children : ∃ origins, layers.childOrigins source = .ok origins ∧
      ∀ origin ∈ origins, ∃ below, place.child origin.name = .ok below := by
    rcases hosts with ⟨placed, unshared⟩ | ⟨_, known⟩
    · exact rules.children _ placed unshared
    · exact rules.prototypeChildren source place known
  obtain ⟨origins, found, below⟩ := children
  refine ⟨origins, found, ?_⟩
  intro origin member
  obtain ⟨place, under⟩ := below origin member
  refine ⟨place, under, hosts.placed found member under ?_⟩
  intro _ known
  exact (rules.prototypes source).mp (OrderedMap.contains_iff.mpr ⟨_, known⟩)

theorem right_below (rules : layers.FollowsRules composition)
    (admissible : layers.specs.Admissible) {names : List Name} {name : Name} (named : names ≠ [])
    (present : composition.prims.contains (.absolute (names ++ [name])) = true) :
    ∃ inPrototype source origins origin,
      layers.Hosts composition.prototypes.get? inPrototype source (.absolute names) ∧
        layers.childOrigins source = .ok origins ∧ origin ∈ origins ∧ origin.name = name.text := by
  have part {above : List Name} {text : String}
      (below : (Path.absolute above).child text = .ok (.absolute (names ++ [name]))) :
      above = names ∧ text = name.text := by
    obtain ⟨last, spelled, same⟩ := Path.child_absolute_eq_ok below
    obtain ⟨front, back⟩ := List.append_inj' (Path.absolute_inj.mp same) rfl
    cases back
    exact ⟨front.symm, spelled.symm⟩
  obtain ⟨value, found⟩ := OrderedMap.contains_iff.mp present
  rcases (rules.prims _ _).mp found with ⟨placement, placed, here, _⟩ | ⟨_, target, known⟩
  · cases placed with
    | @root source isRoot =>
        obtain ⟨_, single⟩ := mem_rootPrims.mp isRoot
        have located : source = .absolute (names ++ [name]) := here
        rw [located] at single
        exact absurd single (by simpa [Path.elementCount] using named)
    | @child parent origins origin lower parentPlaced unshared children member below =>
        obtain rfl : lower = .absolute (names ++ [name]) := here
        obtain ⟨inPrototype, source, place⟩ := parent
        obtain ⟨above, _, rfl⟩ : ∃ above, above ≠ [] ∧ place = .absolute above :=
          parentPlaced.absolute admissible rules.roots
        obtain ⟨rfl, spelled⟩ := part below
        exact ⟨inPrototype, source, origins, origin, Or.inl ⟨parentPlaced, unshared⟩, children,
          member, spelled⟩
    | @shared _ target root origins origin lower _ _ known children member below =>
        obtain rfl : lower = .absolute (names ++ [name]) := here
        obtain ⟨_, first, _, rfl⟩ := rules.roots target root known
        obtain ⟨rfl, spelled⟩ := part below
        exact ⟨true, target, origins, origin, Or.inr ⟨rfl, known⟩, children, member, spelled⟩
  · obtain ⟨_, last, _, same⟩ := rules.roots target _ known
    have lengths := congrArg List.length (Path.absolute_inj.mp same)
    exact absurd lengths (by simpa using named)

theorem child_placed (rules : layers.FollowsRules composition) {inPrototype : Bool} {source : Path}
    {names : List Name}
    (hosts : layers.Hosts composition.prototypes.get? inPrototype source (.absolute names))
    {name : Name} {origin : Path} (found : layers.childNamed source name = some origin) :
    layers.Placed composition.prototypes.get?
      ⟨inPrototype, origin, .absolute (names ++ [name])⟩ := by
  obtain ⟨origins, children, placed⟩ := rules.host_children hosts
  obtain ⟨others, otherChildren, member, spelled⟩ := childNamed_eq_some.mp found
  cases children.symm.trans otherChildren
  obtain ⟨below, under, belowPlaced⟩ := placed origin member
  rw [spelled, Path.child_absolute] at under
  cases under
  exact belowPlaced

theorem child_missing (rules : layers.FollowsRules composition)
    (admissible : layers.specs.Admissible) {inPrototype : Bool} {source : Path} {names : List Name}
    (hosts : layers.Hosts composition.prototypes.get? inPrototype source (.absolute names))
    (named : names ≠ []) {name : Name} (missing : layers.childNamed source name = none) :
    composition.prims.contains (.absolute (names ++ [name])) = false := by
  refine Bool.eq_false_iff.mpr fun present => ?_
  obtain ⟨_, other, origins, origin, otherHosts, children, member, spelled⟩ :=
    rules.right_below admissible named present
  obtain ⟨rfl, rfl⟩ := rules.host_unique hosts otherHosts
  have found := childNamed_eq_some.mpr ⟨origins, children, member, spelled⟩
  rw [missing] at found
  cases found

theorem above (rules : layers.FollowsRules composition) (admissible : layers.specs.Admissible)
    {names : List Name} {name : Name} (named : names ≠ [])
    (present : composition.prims.contains (.absolute (names ++ [name])) = true) :
    composition.prims.get? (.absolute names) = some none := by
  obtain ⟨_, _, _, _, hosts, _⟩ := rules.right_below admissible named present
  exact rules.prim_host hosts

theorem root_prim (rules : layers.FollowsRules composition) (admissible : layers.specs.Admissible)
    {name : Name} (present : composition.prims.contains (.absolute [name]) = true) :
    layers.specs.contains (.absolute [name]) = true ∨ (Path.absolute [name]).isReserved = true := by
  obtain ⟨value, found⟩ := OrderedMap.contains_iff.mp present
  rcases (rules.prims _ _).mp found with ⟨placement, placed, here, _⟩ | ⟨_, target, known⟩
  · rcases placed.root_or_deeper admissible rules.roots with authored | deeper
    · rw [here] at authored
      exact Or.inl (mem_rootPrims.mp authored).1
    · simp [here, Path.elementCount] at deeper
  · obtain ⟨_, rooted⟩ := rules.roots target _ known
    exact Or.inr rooted.reserved

theorem on_the_way (rules : layers.FollowsRules composition)
    (admissible : layers.specs.Admissible) {shorter names : List Name} (named : shorter ≠ [])
    (present : composition.prims.contains (.absolute names) = true) (within : shorter <+: names)
    (different : shorter ≠ names) : composition.prims.get? (.absolute shorter) = some none := by
  induction names using List.reverseRecOn with
  | nil => exact absurd (List.prefix_nil.mp within) different
  | append_singleton names name ih =>
      rcases List.prefix_concat_iff.mp within with same | shortened
      · exact absurd same different
      have longer : names ≠ [] := by
        rintro rfl
        exact named (List.prefix_nil.mp shortened)
      have holds := rules.above admissible longer present
      by_cases here : shorter = names
      · rwa [here]
      · exact ih (OrderedMap.contains_iff.mpr ⟨none, holds⟩) shortened here

theorem instance_root (rules : layers.FollowsRules composition) {place root : Path}
    (found : composition.prims.get? place = some (some root)) :
    ∃ target, composition.prototypes.get? target = some root := by
  rcases (rules.prims _ _).mp found with ⟨_, _, _, holds⟩ | ⟨impossible, _⟩
  · rcases holds with ⟨impossible, _⟩ | ⟨target, _, _, known, same⟩
    · cases impossible
    · cases same
      exact ⟨target, known⟩
  · cases impossible

end FollowsRules

end SceneGraph.Layers
