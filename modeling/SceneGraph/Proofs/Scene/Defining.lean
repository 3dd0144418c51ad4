import SceneGraph.Proofs.Forwarding.Suffixes
import SceneGraph.Proofs.Scene.Children
import SceneGraph.Proofs.Scene.Loaded
import SceneGraph.Proofs.Scene.Locality
import SceneGraph.Proofs.Scene.Overrides
import SceneGraph.Proofs.Uninstancing.Effect

/-!
What defining a prim does to the rest of a scene. A prim that is new among what is authored takes
the place of one that came through a reference, and what was below that one is no longer found
there.
-/

namespace SceneGraph

namespace Layers

variable {before after : Layers} {position next last : Position} {name : Name} {rest : List Name}

namespace Grown

theorem sharedAt (grown : Grown before after) {position : Position}
    (authored : before.specs.contains position.source = true) :
    after.sharedAt position = before.sharedAt position := by
  obtain ⟨spec, found⟩ := OrderedMap.contains_iff.mp authored
  rw [Layers.sharedAt, Layers.sharedAt, found, grown.kept _ spec found, grown.overrides]

theorem step_new (grown : Grown before after) (afterAdmissible : after.specs.Admissible)
    {position : Position} (unauthored : before.specs.contains position.source = false)
    (authored : after.specs.contains position.source = true) :
    after.step position name = (after.ownChild position.source name).map fun child =>
      ⟨position.names ++ [name], child, position.crossed⟩ := by
  have blank := grown.blank _ unauthored authored
  have unshared : after.sharedAt position = none := by simp [Layers.sharedAt, blank]
  have linked : after.referenceChain position.source = .ok [position.source] :=
    referenceChainFrom_last List.not_mem_nil blank rfl _
  rw [Layers.step, unshared, Option.getD_none, childNamed_of_chain afterAdmissible linked]
  simp

theorem step (grown : Grown before after) (admissible : before.specs.Admissible)
    (afterAdmissible : after.specs.Admissible)
    (authored : before.specs.contains position.source = true)
    (stepped : before.step position name = some next) :
    after.step position name = some next ∨
      ∃ other, after.step position name = some other ∧
        before.specs.contains other.source = false := by
  have entered : after.entered position = before.entered position := by
    rw [Layers.entered, Layers.entered, grown.sharedAt authored]
  obtain ⟨origin, child, rfl⟩ := step_eq_some.mp stepped
  rw [← entered] at child ⊢
  rcases grown.childNamed admissible afterAdmissible child with same | ⟨other, taken, new⟩
  · exact Or.inl (step_eq_some.mpr ⟨origin, same, rfl⟩)
  · exact Or.inr ⟨_, step_eq_some.mpr ⟨other, taken, rfl⟩, new⟩

end Grown

theorem authored_of_step (stepped : before.step position name = some next) :
    before.specs.contains next.source = true := by
  obtain ⟨origin, child, rfl⟩ := step_eq_some.mp stepped
  obtain ⟨_, found, member, _⟩ := childNamed_eq_some.mp child
  exact authored_of_mem_childOrigins found member

/-- The second layers have grown by the prims that were missing on the way to a path. -/
structure GrownTo (names : List Name) (before after : Layers) : Prop
    extends Grown before after where
  tree : before.specs.Tree
  afterTree : after.specs.Tree
  contains_iff : ∀ others, others ≠ [] → (after.specs.contains (.absolute others) = true ↔
    others <+: names ∨ before.specs.contains (.absolute others) = true)

namespace GrownTo

variable {names others : List Name}

theorem of_author {specs : SpecMap} (tree : before.specs.Tree)
    (authored : before.specs.author (.absolute names) = .ok specs) :
    GrownTo names before { before with specs } := by
  obtain ⟨prim, unreserved, contains⟩ := SpecMap.author_eq_ok authored
  refine ⟨⟨fun _ _ => SpecMap.get?_of_author authored, ?_, rfl⟩, tree, tree.author authored, ?_⟩
  · intro other unauthored present
    have missing : before.specs.get? other = none := by
      simpa [OrderedMap.contains] using unauthored
    rw [SpecMap.author_eq _ prim unreserved] at authored
    cases authored
    obtain ⟨spec, found⟩ := OrderedMap.contains_iff.mp present
    rw [SpecMap.get?_foldl_insertIfAbsent_eq, missing, Option.none_or] at found ⊢
    rw [if_pos (Option.ite_none_right_eq_some.mp found).1]
  · intro others named
    rw [contains, Path.absolute_inj, ← or_assoc]
    refine or_congr_left ⟨?_, fun within => ?_⟩
    · rintro (rfl | ⟨higher, _⟩)
      · exact List.prefix_rfl
      · obtain ⟨shorter, within, _, same⟩ := Path.mem_ancestors_absolute.mp higher
        rwa [Path.absolute_inj.mp same]
    · by_cases same : others = names
      · exact Or.inl same
      · exact Or.inr ⟨Path.mem_ancestors_absolute.mpr ⟨others, within, same, rfl⟩,
          Path.isPrimPath_absolute.mpr named⟩

theorem steps_new (grown : GrownTo names before after) (here : position.source = .absolute others)
    (unauthored : before.specs.contains (.absolute others) = false) (named : others ≠ [])
    (within : others <+: names) :
    ((rest.foldlM after.step position).isSome = true ↔ others ++ rest <+: names) ∧
      ∀ last, rest.foldlM after.step position = some last →
        last.source = .absolute (others ++ rest) := by
  induction rest generalizing position others with
  | nil =>
      rw [List.append_nil]
      refine ⟨iff_of_true rfl within, fun last found => ?_⟩
      cases found
      exact here
  | cons name rest ih =>
      have authored := (grown.contains_iff others named).mpr (Or.inl within)
      have fresh : before.specs.contains (.absolute (others ++ [name])) = false := by
        refine Bool.eq_false_iff.mpr fun present => ?_
        have above := grown.tree.closed _ present (.absolute others)
          (by rw [Path.ancestors_absolute_append]; exact List.mem_cons_self)
          (Path.isPrimPath_absolute.mpr named)
        rw [unauthored] at above
        cases above
      have split : others ++ name :: rest = (others ++ [name]) ++ rest := by simp
      have stepped : after.step position name = (after.ownChild position.source name).map
          fun child => ⟨position.names ++ [name], child, position.crossed⟩ :=
        grown.step_new grown.afterTree.admissible (here ▸ unauthored) (here ▸ authored)
      rw [List.foldlM_cons, stepped, here, ownChild, Path.absolute_elements, split]
      by_cases along : others ++ [name] <+: names
      · have present := (grown.contains_iff _ (by simp)).mpr (Or.inl along)
        rw [if_pos present]
        exact ih rfl fresh (by simp) along
      · have missing : ¬after.specs.contains (.absolute (others ++ [name])) = true := by
          rw [grown.contains_iff _ (by simp), fresh]
          simpa using along
        rw [if_neg missing]
        refine ⟨iff_of_false (by simp) fun longer => along ?_, fun last found => ?_⟩
        · exact (List.prefix_append _ _).trans longer
        · cases found

/-- Wherever it comes to a new prim, the walk from here along these names goes on along the path
that was defined. -/
def KeepsTo (names : List Name) (before after : Layers) (position : Position)
    (rest : List Name) : Prop :=
  ∀ taken more middle, rest = taken ++ more → taken.foldlM after.step position = some middle →
    before.specs.contains middle.source = false → middle.source.elements ++ more <+: names

theorem keepsTo_nil (authored : before.specs.contains position.source = true) :
    KeepsTo names before after position [] := by
  intro taken more middle nothing reached unauthored
  obtain ⟨rfl, rfl⟩ := List.append_eq_nil_iff.mp nothing.symm
  cases reached
  rw [authored] at unauthored
  cases unauthored

theorem keepsTo_cons (authored : before.specs.contains position.source = true)
    (stepped : after.step position name = some next) :
    KeepsTo names before after position (name :: rest) ↔
      KeepsTo names before after next rest := by
  constructor
  · rintro keeps taken more middle rfl reached
    exact keeps (name :: taken) more middle rfl (by rw [List.foldlM_cons, stepped]; exact reached)
  · intro keeps taken more middle split reached unauthored
    cases taken with
    | nil =>
        cases reached
        rw [authored] at unauthored
        cases unauthored
    | cons first taken =>
        obtain ⟨rfl, rfl⟩ := List.cons_eq_cons.mp split
        rw [List.foldlM_cons, stepped] at reached
        exact keeps taken more middle rfl reached unauthored

theorem keepsTo_new (grown : GrownTo names before after) (here : position.source = .absolute others)
    (unauthored : before.specs.contains (.absolute others) = false) (named : others ≠ [])
    (within : others <+: names) :
    (rest.foldlM after.step position).isSome = true ↔ KeepsTo names before after position rest := by
  rw [(grown.steps_new here unauthored named within).1]
  constructor
  · rintro longer taken more middle rfl reached _
    rw [(grown.steps_new here unauthored named within).2 middle reached, Path.absolute_elements,
      List.append_assoc]
    exact longer
  · intro keeps
    have longer := keeps [] rest position rfl rfl (by rw [here, unauthored])
    rwa [here] at longer

theorem steps_iff (grown : GrownTo names before after)
    (authored : before.specs.contains position.source = true)
    (found : rest.foldlM before.step position = some last) :
    (rest.foldlM after.step position).isSome = true ↔
      KeepsTo names before after position rest := by
  induction rest generalizing position with
  | nil => exact iff_of_true rfl (keepsTo_nil authored)
  | cons name rest ih =>
      rw [List.foldlM_cons] at found
      obtain ⟨next, stepped, found⟩ := Option.bind_eq_some_iff.mp found
      rcases grown.step grown.tree.admissible grown.afterTree.admissible authored stepped with
        same | ⟨other, taken, new⟩
      · rw [keepsTo_cons authored same, List.foldlM_cons, same]
        exact ih (authored_of_step stepped) found
      · have otherAuthored := authored_of_step taken
        obtain ⟨others, named, here⟩ :=
          Path.isAbsolutePrimPath_iff.mp (grown.afterTree.admissible _ otherAuthored).1
        rw [here] at new otherAuthored
        have within : others <+: names :=
          ((grown.contains_iff others named).mp otherAuthored).resolve_right (by simp [new])
        rw [keepsTo_cons authored taken, List.foldlM_cons, taken]
        exact grown.keepsTo_new here new named within

theorem walk_iff (grown : GrownTo names before after) {path : Path}
    (found : before.walk path = some last) : (after.walk path).isSome = true ↔
      ∀ shorter more middle, path = .absolute (shorter ++ more) →
        after.walk (.absolute shorter) = some middle →
        before.specs.contains middle.source = false →
        middle.source.elements ++ more <+: names := by
  obtain ⟨first, rest, rfl, authored, found⟩ := follow_eq_some found
  have present := grown.contains authored
  rw [walk_absolute rest present, grown.steps_iff authored found]
  constructor
  · intro keeps shorter more middle split walked unauthored
    obtain ⟨other, taken, located, _, reached⟩ := follow_eq_some walked
    obtain rfl := Path.absolute_inj.mp located
    obtain ⟨rfl, rfl⟩ := List.cons_eq_cons.mp (Path.absolute_inj.mp split)
    exact keeps taken more middle rfl reached unauthored
  · rintro keeps taken more middle rfl reached unauthored
    refine keeps (first :: taken) more middle rfl ?_ unauthored
    rw [walk_absolute taken present, reached]

end GrownTo

end Layers

namespace Scene

variable {scene : Scene} {names : List Name} {path : Path}

theorem Sound.unshared_of_walk (sound : scene.Sound) (unreserved : path.isReserved = false)
    {last : Position} (walked : scene.layers.walk path = some last) (outside : last.crossed = false)
    (plain : scene.isInstanceAt path = false) : scene.layers.sharedAt last = none := by
  have found := sound.primAt?_walk unreserved
  rw [walked, Option.filter_some, if_pos (by simp [outside]), Option.map_some] at found
  obtain ⟨prim, present, shared⟩ := Option.map_eq_some_iff.mp found
  rw [isInstanceAt, present, Option.any_some] at plain
  simpa [plain] using shared.symm

theorem Sound.walk_own (sound : scene.Sound) (named : names ≠ [])
    (unreserved : (Path.absolute names).isReserved = false)
    (authored : scene.layers.specs.contains (.absolute names) = true)
    (plain : ∀ above ∈ (Path.absolute names).ancestors, scene.isInstanceAt above = false) :
    scene.layers.walk (.absolute names) = some ⟨names, .absolute names, false⟩ := by
  induction names using List.reverseRecOn with
  | nil => exact absurd rfl named
  | append_singleton names name ih =>
      by_cases first : names = []
      · subst first
        exact Layers.walk_absolute [] authored
      · have higher : Path.absolute names ∈ (Path.absolute (names ++ [name])).ancestors := by
          rw [Path.ancestors_absolute_append]
          exact List.mem_cons_self
        have outside : (Path.absolute names).isReserved = false := by
          rw [← unreserved]
          exact Path.isReserved_of_prefix rfl first (List.prefix_append _ _)
        have aboveAuthored := sound.specs.closed _ authored _ higher
          (Path.isPrimPath_absolute.mpr first)
        have walked := ih first outside aboveAuthored fun above further => plain above (by
          rw [Path.ancestors_absolute_append]
          exact List.mem_cons_of_mem _ further)
        have unshared := sound.unshared_of_walk outside walked rfl (plain _ higher)
        obtain ⟨prototypes, rules⟩ := sound.rules
        obtain ⟨_, _, _, stands⟩ := (Layers.walked_iff.mpr ⟨_, walked⟩).stands rules
        obtain ⟨origins, found, _⟩ := rules.host_children (stands.plain unshared)
        obtain ⟨chain, linked, _⟩ := bind_eq_ok.mp found
        have child := Layers.childNamed_own sound.specs.admissible linked
          (Layers.ownChild_eq_some.mpr ⟨rfl, authored⟩)
        rw [Layers.walk_append first, walked, Option.bind_some]
        refine Layers.step_eq_some.mpr ⟨.absolute (names ++ [name]), ?_, ?_⟩
        · rwa [Layers.entered_of_unshared unshared]
        · rw [Layers.entered_of_unshared unshared]

theorem Sound.present_iff_plain_above (sound : scene.Sound) (unreserved : path.isReserved = false)
    (authored : scene.layers.specs.contains path = true) :
    (scene.primAt? path).isSome = true ↔
      ∀ above ∈ path.ancestors, scene.isInstanceAt above = false := by
  constructor
  · intro present above higher
    obtain ⟨prim, found⟩ := Option.isSome_iff_exists.mp present
    refine Bool.eq_false_iff.mpr fun shared => ?_
    obtain ⟨root, held⟩ := isInstanceAt_iff.mp shared
    obtain ⟨names, named, rfl⟩ := sound.absolute (OrderedMap.contains_iff.mpr ⟨_, held⟩)
    have plain := sound.plain_above (contains_of_primAt? found) higher
      (Path.isPrimPath_absolute.mpr named)
    rw [held] at plain
    cases plain
  · intro plain
    obtain ⟨names, named, rfl⟩ :=
      Path.isAbsolutePrimPath_iff.mp (sound.specs.admissible path authored).1
    have walked := sound.walk_own named unreserved authored plain
    have found := sound.primAt?_walk unreserved
    rw [walked, Option.filter_some, if_pos (by simp), Option.map_some] at found
    obtain ⟨prim, present, _⟩ := Option.map_eq_some_iff.mp found
    exact Option.isSome_iff_exists.mpr ⟨prim, present⟩

theorem Sound.resolves_own_iff (sound : scene.Sound) (unreserved : path.isReserved = false)
    (authored : scene.layers.specs.contains path = true) {options : ForwardingOptions}
    (room : max 1 path.elementCount ≤ options.maxDepth) :
    (∃ found, (stage.resolve path options scene).result = .ok (some found)) ↔
      ∀ above root suffix next, scene.primAt? above = some ⟨above, some root⟩ →
        suffix.isHere = false → above.append? suffix = some path →
        root.append? suffix = some next →
        ∃ found, (stage.resolve next options scene).result = .ok (some found) := by
  constructor
  · rintro ⟨found, resolved⟩ above root suffix next shares nontrivial joined extended
    have held : scene.prims.get? above = some (some root) := by simpa [primAt?] using shares
    obtain ⟨_, answer, again, same, forwarded⟩ := sound.resolve_shared held nontrivial joined room
    cases extended.symm.trans again
    cases resolved.symm.trans same
    exact ⟨found, forwarded⟩
  · intro follows
    by_cases plain : ∀ above ∈ path.ancestors, scene.isInstanceAt above = false
    · obtain ⟨prim, present⟩ :=
        Option.isSome_iff_exists.mp ((sound.present_iff_plain_above unreserved authored).mpr plain)
      obtain ⟨value, held, _⟩ := Option.map_eq_some_iff.mp present
      exact ⟨_, (Settles.found held).resolve_within (by omega) (Nat.zero_le _)⟩
    · obtain ⟨above, higher, shared⟩ :
          ∃ above ∈ path.ancestors, scene.isInstanceAt above = true := by
        simpa using plain
      obtain ⟨root, held⟩ := isInstanceAt_iff.mp shared
      obtain ⟨names, _, rfl⟩ :=
        Path.isAbsolutePrimPath_iff.mp (sound.specs.admissible path authored).1
      obtain ⟨shorter, ⟨rest, rfl⟩, different, rfl⟩ := Path.mem_ancestors_absolute.mp higher
      have deeper : rest ≠ [] := by simpa using different
      obtain ⟨suffix, nontrivial, joined⟩ := Path.exists_suffix deeper
      obtain ⟨next, answer, extended, resolved, forwarded⟩ :=
        sound.resolve_shared held nontrivial joined room
      obtain ⟨found, same⟩ := follows _ root suffix next (by simp [primAt?, held]) nontrivial joined
        extended
      cases same.symm.trans forwarded
      exact ⟨found, resolved⟩

/-- Defining a prim puts one at its path exactly if no prim above it is an instance, and has the
path lead to one exactly if that is so or what is left of it below the instance leads to one from
the prototype's root. All other paths outside prototypes that led to a prim still do, except those
that now come to a prim authored by this and go on from there in another way than the path defined. -/
theorem reachable_define (reachable : Reachable scene)
    (defined : (scene.define path).result = .ok ()) :
    let after := (scene.define path).state
    ((after.primAt? path).isSome = true ↔
        ∀ above ∈ path.ancestors, after.isInstanceAt above = false) ∧
      (∀ options, max 1 path.elementCount ≤ options.maxDepth →
        ((∃ found, (stage.resolve path options after).result = .ok (some found)) ↔
          ∀ above root suffix next, after.primAt? above = some ⟨above, some root⟩ →
            suffix.isHere = false → above.append? suffix = some path →
            root.append? suffix = some next →
            ∃ found, (stage.resolve next options after).result = .ok (some found))) ∧
      ∀ other options, other.isReserved = false → max 1 other.elementCount ≤ options.maxDepth →
        (∃ found, (stage.resolve other options scene).result = .ok (some found)) →
        ((∃ found, (stage.resolve other options after).result = .ok (some found)) ↔
          ∀ shorter rest last, other = .absolute (shorter ++ rest) →
            after.layers.walk (.absolute shorter) = some last →
            scene.layers.specs.contains last.source = false →
            last.source.elements ++ rest <+: path.elements) := by
  intro after
  have sound := reachable.sound
  have afterSound : after.Sound := (Reachable.define path reachable).sound
  obtain ⟨specs, authored⟩ : ∃ specs, scene.layers.specs.author path = .ok specs := by
    cases changed : scene.layers.specs.author path with
    | ok specs => exact ⟨specs, rfl⟩
    | error fault =>
        rw [define, author, changed] at defined
        cases defined
  obtain ⟨prim, unreserved, contains⟩ := SpecMap.author_eq_ok authored
  have composed : scene.define path = scene.compose { scene.layers with specs } :=
    author_of_ok authored
  have layers : after.layers = { scene.layers with specs } := by
    rw [composed] at defined
    exact (congrArg (fun outcome => outcome.state.layers) composed).trans (state_of_compose defined)
  have present : after.layers.specs.contains path = true := by
    rw [layers]
    exact (contains path).mpr (Or.inl rfl)
  refine ⟨afterSound.present_iff_plain_above unreserved present, fun options room =>
    afterSound.resolves_own_iff unreserved present room, ?_⟩
  intro other options outside room
  rw [sound.resolves_iff outside room, afterSound.resolves_iff outside room]
  intro walks
  obtain ⟨last, walked⟩ := Option.isSome_iff_exists.mp walks
  obtain ⟨names, _, rfl⟩ := Path.isAbsolutePrimPath_iff.mp prim
  have grown := Layers.GrownTo.of_author sound.specs authored
  rw [layers]
  exact grown.walk_iff walked

theorem reachable_define_furnished :
    let door : Name := ⟨"door", by decide⟩
    let handle : Name := ⟨"handle", by decide⟩
    let house : Name := ⟨"House", by decide⟩
    let shed : Name := ⟨"Shed", by decide⟩
    let knob := Path.absolute [house, door, ⟨"knob", by decide⟩]
    let scene := (load furnished).state
    let after := (scene.define knob).state
    (after.primAt? knob).isSome = false ∧
      (stage.resolve (.absolute [shed, door]) {} after).result =
        .ok (some ⟨.absolute [shed, door], none⟩) ∧
      ¬∃ found, (stage.resolve (.absolute [shed, door, handle]) {} after).result =
        .ok (some found) := by
  intro door handle house shed knob scene after
  have reachable : Reachable scene := Reachable.load (by decide +kernel)
  obtain ⟨own, _, others⟩ :=
    @reachable_define scene knob reachable (by decide +kernel)
  have shared : after.isInstanceAt (.absolute [house]) = true := by decide +kernel
  refine ⟨Bool.eq_false_iff.mpr fun present => ?_, by decide +kernel, ?_⟩
  · rw [own.mp present (.absolute [house]) (by decide +kernel)] at shared
    cases shared
  · intro resolved
    have follows := (others (.absolute [shed, door, handle]) {} (by decide) (by decide)
      ⟨⟨.absolute [shed, door, handle], none⟩, by decide +kernel⟩).mp resolved
    have along := follows [shed, door] [handle] ⟨[shed, door], .absolute [house, door], false⟩ rfl
      (by decide +kernel) (by decide +kernel)
    revert along
    decide

/-- Defining a prim can do the opposite of adding: the path defined does not resolve, and another
one that did no longer does. -/
theorem define_loses_handle :
    let door : Name := ⟨"door", by decide⟩
    let knob := Path.absolute [⟨"House", by decide⟩, door, ⟨"knob", by decide⟩]
    let handle := Path.absolute [⟨"Shed", by decide⟩, door, ⟨"handle", by decide⟩]
    let scene := (load furnished).state
    let after := (scene.define knob).state
    Reachable scene ∧ (scene.define knob).result = .ok () ∧
      (stage.resolve handle {} scene).result = .ok (some ⟨handle, none⟩) ∧
      handle.isReserved = false ∧ (stage.resolve knob {} after).result = .ok none ∧
      (stage.resolve handle {} after).result = .ok none := by
  intro door knob handle scene after
  exact ⟨Reachable.load (by decide +kernel), by decide +kernel, by decide +kernel, by decide,
    by decide +kernel, by decide +kernel⟩

end Scene

end SceneGraph
