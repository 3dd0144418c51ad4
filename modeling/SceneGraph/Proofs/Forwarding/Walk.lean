import SceneGraph.Proofs.Scene.Shape

/-!
A walk over what is authored. Name by name it goes to the children of the prim it has reached or, at
an instance, to those of the prim shared there. Where a walk stands, a prim is composed: there, or
below a prototype's root.
-/

namespace SceneGraph

/-- Where a walk stands: the names walked, the authored prim reached, and whether an instance has
been crossed on the way. -/
structure Position where
  names : List Name
  source : Path
  crossed : Bool
deriving DecidableEq

namespace Layers

section

variable (layers : Layers)

/-- The prim that is shared where the walk stands, if that is at an instance. What the scene says of
a place counts only as long as no instance has been crossed. -/
def sharedAt (position : Position) : Option Path :=
  (layers.specs.get? position.source).bind fun spec =>
    let said := if position.crossed then none else layers.overrides.get? (.absolute position.names)
    if said.getD spec.instanceable then spec.reference else none

def step (position : Position) (name : Name) : Option Position :=
  let shared := layers.sharedAt position
  (layers.childNamed (shared.getD position.source) name).map fun origin =>
    ⟨position.names ++ [name], origin, position.crossed || shared.isSome⟩

def entered (position : Position) : Position :=
  ⟨position.names, (layers.sharedAt position).getD position.source,
    position.crossed || (layers.sharedAt position).isSome⟩

def follow {σ : Type} (start : Name → σ) (step : σ → Name → Option σ) (path : Path) : Option σ :=
  if path.isAbsolutePrimPath then
    match path.elements with
    | [] => none
    | first :: rest =>
      if layers.specs.contains (.absolute [first]) then rest.foldlM step (start first) else none
  else none

def walk (path : Path) : Option Position :=
  layers.follow (fun first => ⟨[first], .absolute [first], false⟩) layers.step path

/-- The prototypes that the walk from here along these names goes into. -/
def prototypesAlong : Position → List Name → List Path
  | _, [] => []
  | position, name :: rest =>
    (layers.sharedAt position).toList ++
      match layers.step position name with
      | none => []
      | some next => prototypesAlong next rest

structure Stands (prototypes : Path → Option Path) (position : Position) (placement : Placement) :
    Prop where
  placed : layers.Placed prototypes placement
  source : placement.source = position.source
  inPrototype : placement.inPrototype = position.crossed
  place : position.crossed = false → placement.place = .absolute position.names

end

variable {layers : Layers} {composition : Composition} {position : Position} {placement : Placement}

section

variable {σ τ : Type} {start : Name → σ} {step : σ → Name → Option σ} {path : Path} {first : Name}
  {rest : List Name}

theorem follow_of_elements (anchored : path.anchor = .absolute)
    (elements : path.elements = first :: rest)
    (authored : layers.specs.contains (.absolute [first]) = true) :
    layers.follow start step path =
      if path.isPropertyPath then none else rest.foldlM step (start first) := by
  rw [follow, elements]
  cases property : path.property <;>
    simp [Path.isAbsolutePrimPath, Path.isAbsolute, Path.isPrimPath, Path.isPropertyPath, anchored,
      elements, property, authored]

theorem follow_absolute (authored : layers.specs.contains (.absolute [first]) = true) :
    layers.follow start step (.absolute (first :: rest)) = rest.foldlM step (start first) :=
  (follow_of_elements rfl rfl authored).trans (if_neg (by simp [Path.isPropertyPath]))

theorem follow_eq_some {last : σ} (found : layers.follow start step path = some last) :
    ∃ first rest, path = .absolute (first :: rest) ∧
      layers.specs.contains (.absolute [first]) = true ∧
      rest.foldlM step (start first) = some last := by
  rw [follow] at found
  split at found
  next prim =>
    obtain ⟨names, named, rfl⟩ := Path.isAbsolutePrimPath_iff.mp prim
    obtain ⟨first, rest, rfl⟩ := List.exists_cons_of_ne_nil named
    simp only [Path.absolute_elements] at found
    split at found
    next authored => exact ⟨first, rest, rfl, authored, found⟩
    next => cases found
  next => cases found

theorem follow_map {other : τ → Name → Option τ} {f : σ → τ}
    (steps : ∀ state name, (step state name).map f = other (f state) name) (path : Path) :
    (layers.follow start step path).map f =
      layers.follow (fun first => f (start first)) other path := by
  have folds (names : List Name) (state : σ) :
      (names.foldlM step state).map f = names.foldlM other (f state) := by
    induction names generalizing state with
    | nil => rfl
    | cons name names ih =>
        rw [List.foldlM_cons, List.foldlM_cons, ← steps state name]
        cases step state name with
        | none => rfl
        | some next => exact ih next
  rw [follow, follow]
  split
  next =>
    cases path.elements with
    | nil => rfl
    | cons first rest =>
        dsimp only
        split
        next => exact folds rest (start first)
        next => rfl
  next => rfl

end

theorem step_eq_some {name : Name} {next : Position} : layers.step position name = some next ↔
    ∃ origin, layers.childNamed (layers.entered position).source name = some origin ∧
      ⟨position.names ++ [name], origin, (layers.entered position).crossed⟩ = next :=
  Option.map_eq_some_iff

theorem step_eq_none {name : Name} : layers.step position name = none ↔
    layers.childNamed (layers.entered position).source name = none :=
  Option.map_eq_none_iff

theorem prototypesAlong_step {name : Name} {next : Position} (rest : List Name)
    (stepped : layers.step position name = some next) :
    layers.prototypesAlong position (name :: rest) =
      (layers.sharedAt position).toList ++ layers.prototypesAlong next rest := by
  rw [prototypesAlong, stepped]

theorem prototypesAlong_stuck {name : Name} (rest : List Name)
    (stuck : layers.step position name = none) :
    layers.prototypesAlong position (name :: rest) = (layers.sharedAt position).toList := by
  rw [prototypesAlong, stuck, List.append_nil]

theorem prototypesAlong_append (names more : List Name) :
    layers.prototypesAlong position (names ++ more) = layers.prototypesAlong position names ++
      ((names.foldlM layers.step position).elim [] fun last =>
        layers.prototypesAlong last more) := by
  induction names generalizing position with
  | nil => rfl
  | cons name rest ih =>
      rw [List.cons_append, List.foldlM_cons]
      cases stepped : layers.step position name with
      | none =>
          rw [prototypesAlong_stuck _ stepped, prototypesAlong_stuck _ stepped]
          exact (List.append_nil _).symm
      | some next =>
          rw [prototypesAlong_step _ stepped, prototypesAlong_step _ stepped, ih, List.append_assoc]
          rfl

theorem walk_absolute {first : Name} (rest : List Name)
    (authored : layers.specs.contains (.absolute [first]) = true) :
    layers.walk (.absolute (first :: rest)) =
      rest.foldlM layers.step ⟨[first], .absolute [first], false⟩ :=
  follow_absolute authored

theorem Stands.shares_iff {prototypes : Path → Option Path}
    (stands : layers.Stands prototypes position placement) {target : Path} :
    layers.sharedAt position = some target ↔ layers.Shares placement target := by
  rw [sharedAt, Shares, stands.source, stands.inPrototype, Option.bind_eq_some_iff]
  refine exists_congr fun spec => and_congr_right fun _ => ?_
  cases crossed : position.crossed with
  | true => simp [and_comm]
  | false => simp [stands.place crossed, and_comm]

theorem Placed.stands {prototypes : Path → Option Path} {source : Path} {names : List Name}
    (placed : layers.Placed prototypes ⟨false, source, .absolute names⟩) :
    layers.Stands prototypes ⟨names, source, false⟩ ⟨false, source, .absolute names⟩ :=
  ⟨placed, rfl, rfl, fun _ => rfl⟩

theorem Placed.of_authored {prototypes : Path → Option Path} {name : Name}
    (authored : layers.specs.contains (.absolute [name]) = true) :
    layers.Placed prototypes ⟨false, .absolute [name], .absolute [name]⟩ :=
  Placed.root (mem_rootPrims.mpr ⟨authored, rfl⟩)

theorem Stands.plain {prototypes : Path → Option Path}
    (stands : layers.Stands prototypes position placement)
    (unshared : layers.sharedAt position = none) :
    layers.Hosts prototypes position.crossed position.source placement.place := by
  refine Or.inl ⟨?_, ?_⟩
  · rw [← stands.source, ← stands.inPrototype]
    exact stands.placed
  · intro target shares
    rw [← stands.source, ← stands.inPrototype, ← stands.shares_iff, unshared] at shares
    cases shares

theorem Stands.sharer (rules : layers.FollowsRules composition)
    (stands : layers.Stands composition.prototypes.get? position placement) {target : Path}
    (shared : layers.sharedAt position = some target) :
    ∃ root, composition.prims.get? placement.place = some (some (.absolute [root])) ∧
      layers.Hosts composition.prototypes.get? true target (.absolute [root]) := by
  have shares := stands.shares_iff.mp shared
  have present := (rules.prototypes target).mpr ⟨placement, stands.placed, shares⟩
  obtain ⟨_, known⟩ := OrderedMap.contains_iff.mp present
  obtain ⟨_, root, _, rfl⟩ := rules.roots _ _ known
  exact ⟨root, rules.prim_shared stands.placed shares known, Or.inr ⟨rfl, known⟩⟩

theorem Stands.hosts (rules : layers.FollowsRules composition) {inPrototype : Bool} {source : Path}
    {names : List Name}
    (stands : layers.Stands composition.prototypes.get? position
      ⟨inPrototype, source, .absolute names⟩) :
    ∃ below, layers.Hosts composition.prototypes.get? (layers.entered position).crossed
        (layers.entered position).source (.absolute below) ∧
      ((layers.entered position).crossed = false → below = position.names) ∧
      ((layers.sharedAt position = none ∧ below = names) ∨
        ∃ target root, layers.sharedAt position = some target ∧ below = [root] ∧
          composition.prims.get? (.absolute names) = some (some (.absolute [root]))) := by
  rw [entered]
  cases shared : layers.sharedAt position with
  | none =>
      refine ⟨names, by simpa using stands.plain shared, fun outside => ?_, Or.inl ⟨rfl, rfl⟩⟩
      exact Path.absolute_inj.mp (stands.place (by simpa using outside))
  | some target =>
      obtain ⟨root, present, hosts⟩ := stands.sharer rules shared
      exact ⟨[root], by simpa using hosts, by simp, Or.inr ⟨target, root, rfl, rfl, present⟩⟩

theorem Stands.prim (rules : layers.FollowsRules composition)
    (stands : layers.Stands composition.prototypes.get? position placement) :
    ∃ value, composition.prims.get? placement.place = some value ∧
      value.isSome = (layers.sharedAt position).isSome := by
  cases shared : layers.sharedAt position with
  | none => exact ⟨none, rules.prim_host (stands.plain shared), rfl⟩
  | some target =>
      obtain ⟨root, present, _⟩ := stands.sharer rules shared
      exact ⟨some (.absolute [root]), present, rfl⟩

theorem Stands.step (rules : layers.FollowsRules composition) {inPrototype : Bool} {source : Path}
    {names : List Name}
    (hosts : layers.Hosts composition.prototypes.get? inPrototype source (.absolute names))
    {name : Name} {origin : Path} (found : layers.childNamed source name = some origin)
    (walked : List Name) (place : inPrototype = false → names = walked) :
    layers.Stands composition.prototypes.get? ⟨walked ++ [name], origin, inPrototype⟩
      ⟨inPrototype, origin, .absolute (names ++ [name])⟩ :=
  ⟨rules.child_placed hosts found, rfl, rfl, fun outside => by rw [place outside]⟩

end Layers

end SceneGraph
