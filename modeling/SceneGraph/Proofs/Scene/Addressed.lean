import SceneGraph.Proofs.Scene.Reachable
import SceneGraph.Proofs.Scene.Reached

/-!
The prims at the paths outside prototypes: one is there exactly if the walk along the path comes to
its end before it has crossed an instance. Such a walk goes by the children of each prim on the way,
whatever is said about instances.
-/

namespace SceneGraph

namespace Layers

/-- The authored prim that a path comes to by the children of each prim on the way, as if no prim
were an instance. -/
def originAt (layers : Layers) (path : Path) : Option Path :=
  layers.follow (fun first => .absolute [first]) layers.childNamed path

variable {layers left right : Layers} {prototypes : Path → Option Path} {placement : Placement}

theorem isReserved_of_originAt (admissible : layers.specs.Admissible) {path source : Path}
    (found : layers.originAt path = some source) : path.isReserved = false := by
  obtain ⟨first, rest, rfl, authored, _⟩ := follow_eq_some found
  rw [← (admissible _ authored).2]
  exact Path.isReserved_congr rfl rfl

theorem originAt_congr (keys : right.specs.keys = left.specs.keys)
    (references : ∀ prim target, right.References prim target ↔ left.References prim target) :
    right.originAt = left.originAt := by
  have children : right.childNamed = left.childNamed := by
    funext source name
    rw [childNamed, childNamed, childOrigins_congr keys fun prim _ =>
      reference_congr keys references prim]
  funext path
  simp only [originAt, follow, children, OrderedMap.contains_congr keys]

theorem walk_append {names : List Name} (named : names ≠ []) (name : Name) :
    layers.walk (.absolute (names ++ [name])) =
      (layers.walk (.absolute names)).bind fun position => layers.step position name := by
  obtain ⟨first, rest, rfl⟩ := List.exists_cons_of_ne_nil named
  cases authored : layers.specs.contains (.absolute [first]) with
  | true =>
      rw [List.cons_append, walk_absolute _ authored, walk_absolute _ authored]
      simp
  | false => simp [walk, follow, authored]

theorem names_of_steps {rest : List Name} {position last : Position}
    (found : rest.foldlM layers.step position = some last) :
    last.names = position.names ++ rest := by
  induction rest generalizing position with
  | nil =>
      cases found
      simp
  | cons name rest ih =>
      rw [List.foldlM_cons] at found
      obtain ⟨next, stepped, further⟩ := Option.bind_eq_some_iff.mp found
      obtain ⟨_, _, rfl⟩ := step_eq_some.mp stepped
      rw [ih further, List.append_assoc, List.singleton_append]

theorem eq_absolute_of_walk {path : Path} {last : Position}
    (walked : layers.walk path = some last) : path = .absolute last.names := by
  obtain ⟨first, rest, located, _, found⟩ := follow_eq_some walked
  rw [located, names_of_steps found]
  rfl

theorem origin_of_steps {rest : List Name} {position last : Position}
    (found : rest.foldlM layers.step position = some last) (outside : last.crossed = false) :
    position.crossed = false ∧
      rest.foldlM layers.childNamed position.source = some last.source := by
  induction rest generalizing position with
  | nil =>
      cases found
      exact ⟨outside, rfl⟩
  | cons name rest ih =>
      rw [List.foldlM_cons] at found
      obtain ⟨next, stepped, further⟩ := Option.bind_eq_some_iff.mp found
      obtain ⟨origin, child, rfl⟩ := step_eq_some.mp stepped
      obtain ⟨before, rest⟩ := ih further
      have plain : layers.sharedAt position = none := by
        cases shared : layers.sharedAt position <;> simp_all [entered]
      simp only [entered, plain, Option.getD_none, Option.isSome_none,
        Bool.or_false] at child before
      exact ⟨before, by rwa [List.foldlM_cons, child]⟩

theorem originAt_of_walk {path : Path} {last : Position} (walked : layers.walk path = some last)
    (outside : last.crossed = false) : layers.originAt path = some last.source := by
  obtain ⟨first, rest, rfl, authored, found⟩ := follow_eq_some walked
  exact (follow_absolute authored).trans (origin_of_steps found outside).2

theorem sharedAt_of_placed {source : Path} {names : List Name}
    (placed : layers.Placed prototypes ⟨false, source, .absolute names⟩)
    (unshared : ∀ target, ¬layers.Shares ⟨false, source, .absolute names⟩ target) :
    layers.sharedAt ⟨names, source, false⟩ = none :=
  Option.eq_none_iff_forall_ne_some.mpr fun target shared =>
    unshared target (placed.stands.shares_iff.mp shared)

theorem Placed.walk (admissible : layers.specs.Admissible)
    (placed : layers.Placed prototypes placement) (outside : placement.inPrototype = false) :
    ∃ names, names ≠ [] ∧ placement.place = .absolute names ∧
      layers.walk placement.place = some ⟨names, placement.source, false⟩ := by
  induction placed with
  | root isRoot =>
      obtain ⟨authored, single⟩ := mem_rootPrims.mp isRoot
      obtain ⟨names, named, rfl⟩ := Path.isAbsolutePrimPath_iff.mp (admissible _ authored).1
      obtain ⟨name, rfl⟩ := List.length_eq_one_iff.mp single
      refine ⟨[name], named, rfl, ?_⟩
      rw [walk_absolute _ authored]
      rfl
  | @child parent origins origin place parentPlaced unshared found member below ih =>
      obtain ⟨names, named, located, walked⟩ := ih outside
      obtain ⟨inPrototype, source, above⟩ := parent
      obtain rfl : inPrototype = false := outside
      obtain rfl : above = .absolute names := located
      obtain ⟨name, spelled, rfl⟩ := Path.child_absolute_eq_ok below
      have child := childNamed_eq_some.mpr ⟨origins, found, member, spelled.symm⟩
      have plain := sharedAt_of_placed parentPlaced unshared
      refine ⟨names ++ [name], by simp, rfl, ?_⟩
      rw [walk_append named, walked, Option.bind_some, step_eq_some]
      exact ⟨origin, by simpa [entered, plain] using child, by simp [entered, plain]⟩
  | shared => cases outside

end Layers

namespace Scene

variable {scene : Scene} {path : Path}

theorem Sound.placed_outside (sound : scene.Sound) {prototypes : OrderedMap Path Path}
    (rules : scene.layers.FollowsRules ⟨scene.prims, prototypes⟩)
    (unreserved : path.isReserved = false) (present : scene.prims.contains path = true) :
    ∃ source, scene.layers.Placed prototypes.get? ⟨false, source, path⟩ := by
  obtain ⟨value, found⟩ := OrderedMap.contains_iff.mp present
  rcases (rules.prims _ _).mp found with ⟨placement, placed, rfl, _⟩ | ⟨_, target, known⟩
  · obtain ⟨inPrototype, source, place⟩ := placement
    have outside := placed.isReserved_eq sound.specs.admissible rules.roots
    obtain rfl : inPrototype = false := outside.symm.trans unreserved
    exact ⟨source, placed⟩
  · obtain ⟨number, isRoot⟩ := rules.roots target path known
    rw [isRoot.reserved] at unreserved
    cases unreserved

/-- There is a prim where the walk ends if it crosses no instance, and nowhere else. -/
theorem Sound.primAt?_walk (sound : scene.Sound) (unreserved : path.isReserved = false) :
    (scene.primAt? path).map Prim.isInstance =
      ((scene.layers.walk path).filter fun last => !last.crossed).map fun last =>
        (scene.layers.sharedAt last).isSome := by
  obtain ⟨prototypes, rules⟩ := sound.rules
  cases found : scene.prims.get? path with
  | some value =>
      obtain ⟨source, placed⟩ := sound.placed_outside rules unreserved
        (OrderedMap.contains_iff.mpr ⟨value, found⟩)
      obtain ⟨names, _, rfl, walked⟩ := placed.walk sound.specs.admissible rfl
      obtain ⟨other, present, shared⟩ := placed.stands.prim rules
      cases found.symm.trans present
      rw [primAt?, found, walked]
      simpa [Option.filter, Prim.isInstance] using shared
  | none =>
      rw [primAt?, found]
      cases walked : scene.layers.walk path with
      | none => rfl
      | some last =>
          cases crossed : last.crossed with
          | true => simp [Option.filter, crossed]
          | false =>
              obtain ⟨_, _, names, stands⟩ :=
                (Layers.walked_iff.mpr ⟨path, walked⟩).stands rules
              obtain ⟨value, present, _⟩ := stands.prim rules
              rw [stands.place crossed, ← Layers.eq_absolute_of_walk walked, found] at present
              cases present

theorem Sound.walk_of_primAt? (sound : scene.Sound) (unreserved : path.isReserved = false)
    {flag : Bool} (found : (scene.primAt? path).map Prim.isInstance = some flag) :
    ∃ last, scene.layers.walk path = some last ∧ last.crossed = false ∧
      (scene.layers.sharedAt last).isSome = flag := by
  rw [sound.primAt?_walk unreserved] at found
  obtain ⟨last, kept, shared⟩ := Option.map_eq_some_iff.mp found
  obtain ⟨walked, outside⟩ := Option.filter_eq_some_iff.mp kept
  exact ⟨last, walked, by simpa using outside, shared⟩

theorem Sound.primAt?_origin (sound : scene.Sound) (unreserved : path.isReserved = false)
    {prim : Prim} (found : scene.primAt? path = some prim) :
    ∃ source, scene.layers.originAt path = some source ∧
      (scene.layers.sharedAt ⟨path.elements, source, false⟩).isSome = prim.isInstance := by
  obtain ⟨last, walked, outside, shared⟩ := sound.walk_of_primAt? unreserved
    (congrArg (Option.map Prim.isInstance) found)
  have located := Layers.eq_absolute_of_walk walked
  obtain ⟨names, source, crossed⟩ := last
  obtain rfl : crossed = false := outside
  exact ⟨source, Layers.originAt_of_walk walked rfl, by rw [located]; exact shared⟩

end Scene

end SceneGraph
