import SceneGraph.Proofs.Scene.Edits
import SceneGraph.Proofs.Scene.Locality

/-!
Loading a snapshot. The specs come back as they were, but not what has been said about single prims
since, and with it may go what kept a reference or a cycle from being composed.
-/

namespace SceneGraph

namespace SpecMap

variable {specs : SpecMap}

theorem author_of_tree (tree : specs.Tree) {path : Path} (authored : specs.contains path = true)
    {first : SpecMap}
    (within : ∀ other, first.contains other = true → specs.contains other = true) :
    ∃ later, first.author path = .ok later ∧ ∀ other, later.contains other = true →
      specs.contains other = true := by
  obtain ⟨prim, unreserved⟩ := tree.admissible path authored
  obtain ⟨later, grown⟩ : ∃ later, first.author path = .ok later := by
    rw [author, if_neg (by simpa using prim), if_neg (by simpa using unreserved)]
    exact ⟨_, rfl⟩
  refine ⟨later, grown, fun other present => ?_⟩
  rcases ((author_eq_ok grown).2.2 other).mp present with rfl | ⟨higher, otherPrim⟩ | before
  · exact authored
  · exact tree.closed path authored other higher otherPrim
  · exact within other before

theorem foldlM_amend_of_tree (tree : specs.Tree) {entries : List (Path × PrimSpec)}
    {first : SpecMap} (left : ∀ entry ∈ entries, specs.get? entry.1 = some entry.2)
    (within : ∀ other, first.contains other = true → specs.contains other = true)
    (covered : ∀ path spec, specs.get? path = some spec →
      (path, spec) ∈ entries ∨ first.get? path = some spec) :
    entries.foldlM (fun specs entry => specs.amend entry.1 fun _ => entry.2) first = .ok specs := by
  induction entries generalizing first with
  | nil =>
      refine congrArg Except.ok (OrderedMap.ext_get? fun path => ?_)
      cases found : specs.get? path with
      | some spec => simpa using covered path spec found
      | none =>
          refine Option.eq_none_iff_forall_ne_some.mpr fun spec present => ?_
          have authored := within path (OrderedMap.contains_iff.mpr ⟨spec, present⟩)
          simp [OrderedMap.contains, found] at authored
  | cons entry rest ih =>
      obtain ⟨path, spec⟩ := entry
      have found := left (path, spec) (by simp)
      obtain ⟨middle, authored, middleWithin⟩ :=
        author_of_tree tree (OrderedMap.contains_iff.mpr ⟨spec, found⟩) within
      rw [List.foldlM_cons, amend, authored]
      refine ih (fun entry member => left entry (by simp [member])) ?_ ?_
      · intro other present
        rcases OrderedMap.contains_insert.mp present with rfl | before
        · exact OrderedMap.contains_iff.mpr ⟨spec, found⟩
        · exact middleWithin other before
      · intro other otherSpec otherFound
        by_cases same : other = path
        · subst same
          cases found.symm.trans otherFound
          exact Or.inr (OrderedMap.get?_insert_self _ _ _)
        · rcases covered other otherSpec otherFound with member | before
          · exact Or.inl ((List.mem_cons.mp member).resolve_left (by simp [same]))
          · refine Or.inr ?_
            rw [OrderedMap.get?_insert_of_ne _ _ same]
            exact get?_of_author authored before

theorem ofDefinition_of_tree (tree : specs.Tree) : ofDefinition ⟨specs⟩ = .ok specs := by
  refine foldlM_amend_of_tree tree ?_ ?_ ?_
  · rintro ⟨path, spec⟩ member
    exact (OrderedMap.get?_eq_some_iff specs path spec).mpr member
  · intro other impossible
    cases impossible
  · intro path spec found
    exact Or.inl ((OrderedMap.get?_eq_some_iff specs path spec).mp found)

end SpecMap

/-- What is authored, without what has been said about single prims since. -/
def Layers.asAuthored (layers : Layers) : Layers := ⟨layers.specs, ∅⟩

namespace Scene

variable {scene : Scene}

theorem load_definition (sound : scene.Sound) :
    load scene.definition = ({} : Scene).compose scene.layers.asAuthored :=
  load_of_ofDefinition (SpecMap.ofDefinition_of_tree sound.specs)

theorem Sound.reload_fault (sound : scene.Sound) {fault : Fault}
    (failed : (load scene.definition).result = .error fault) :
    (∃ place, fault = .nestedTooDeep place) ∨
      ∃ prim target, scene.layers.asAuthored.Reaches prim ∧ ¬scene.layers.Reaches prim ∧
        scene.layers.References prim target ∧ scene.layers.specs.contains target = false ∧
        fault = .undefinedReference target := by
  rw [load_definition sound, compose_eq_error] at failed
  obtain ⟨composition, composed, _⟩ := sound.composed
  have admissible : scene.layers.asAuthored.specs.Admissible := sound.specs.admissible
  cases Layers.blocked_of_composition admissible failed with
  | nested => exact Or.inl ⟨_, rfl⟩
  | @dangling prim target reaches references unauthored =>
      refine Or.inr ⟨prim, target, reaches, fun reached => ?_, references, unauthored, rfl⟩
      have authored := Layers.authored_of_composition sound.specs.admissible composed reached
        references
      cases authored.symm.trans unauthored

theorem Sound.reload_same (sound : scene.Sound)
    (same : ∀ path last, scene.layers.walk path = some last →
      scene.layers.asAuthored.sharedAt last = scene.layers.sharedAt last) :
    (load scene.definition).result = .ok () ∧
      (load scene.definition).state = ⟨scene.layers.asAuthored, scene.prims, 0⟩ := by
  have agree : Layers.AgreeWhereReached scene.layers scene.layers.asAuthored := by
    refine ⟨rfl, fun _ _ => rfl, fun position walked => ?_⟩
    obtain ⟨path, found⟩ := Layers.walked_iff.mp walked
    exact same path position found
  obtain ⟨composition, composed, prims⟩ := sound.composed
  rw [← agree.composition sound.specs.admissible] at composed
  rw [load_definition sound]
  rcases compose_cases {} scene.layers.asAuthored with
    ⟨_, refused, _⟩ | ⟨other, otherComposed, succeeded, state⟩
  · rw [composed] at refused
    cases refused
  · cases composed.symm.trans otherComposed
    rw [state, prims]
    exact ⟨succeeded, rfl⟩

/-- The snapshot of a scene loads exactly if what is authored can be composed without what has been
said about single prims since. If it does not, its prims nest too deep or a reference dangles that
the scene had hidden; and it gives back the scene's prims if none of that made or unmade an
instance. -/
theorem reachable_reload (reachable : Reachable scene) :
    ((load scene.definition).result = .ok () ↔
      ∃ composition, scene.layers.asAuthored.composition = .ok composition) ∧
    (∀ fault, (load scene.definition).result = .error fault →
      (∃ place, fault = .nestedTooDeep place) ∨
      ∃ prim target, scene.layers.asAuthored.Reaches prim ∧ ¬scene.layers.Reaches prim ∧
        scene.layers.References prim target ∧ scene.layers.specs.contains target = false ∧
        fault = .undefinedReference target) ∧
    ((∀ path last, scene.layers.walk path = some last →
        scene.layers.asAuthored.sharedAt last = scene.layers.sharedAt last) →
      (load scene.definition).result = .ok () ∧
        (load scene.definition).state = ⟨scene.layers.asAuthored, scene.prims, 0⟩) := by
  have sound := reachable.sound
  refine ⟨?_, fun _ => sound.reload_fault, sound.reload_same⟩
  rw [load_definition sound]
  exact compose_eq_ok

def coveredNote : List Edit :=
  let board := Path.absolute [⟨"Board", by decide⟩]
  let stand : Name := ⟨"Stand", by decide⟩
  [.define board, .reference (.absolute [stand]) board, .override ⟨.absolute [stand], none⟩ true,
    .reference (.absolute [stand, ⟨"note", by decide⟩]) (.absolute [⟨"Missing", by decide⟩])]

theorem reachable_reload_hall :
    let missing := Path.absolute [⟨"Missing", by decide⟩]
    let covered := Edit.replay coveredNote {}
    let loaded := (load hall).state
    (∃ prim target, covered.layers.asAuthored.Reaches prim ∧ ¬covered.layers.Reaches prim ∧
      covered.layers.References prim target ∧ covered.layers.specs.contains target = false ∧
      Fault.undefinedReference missing = .undefinedReference target) ∧
    ((load loaded.definition).result = .ok () ↔
      ∃ composition, loaded.layers.asAuthored.composition = .ok composition) ∧
    (load loaded.definition).result = .ok () ∧
      (load loaded.definition).state = ⟨loaded.layers.asAuthored, loaded.prims, 0⟩ := by
  intro missing covered loaded
  have refused : (load covered.definition).result = .error (.undefinedReference missing) := by
    decide +kernel
  have unsaid : loaded.layers.asAuthored = loaded.layers := by decide +kernel
  obtain ⟨_, hidden, _⟩ :=
    @reachable_reload covered (Edit.reachable_replay coveredNote Reachable.empty)
  obtain ⟨loads, _, gives⟩ := @reachable_reload loaded (Reachable.load hall_loads)
  refine ⟨?_, loads, gives fun path last _ => by rw [unsaid]⟩
  rcases hidden _ refused with ⟨place, impossible⟩ | dangling
  · cases impossible
  · exact dangling

theorem coveredNote_reload :
    let missing := Path.absolute [⟨"Missing", by decide⟩]
    let covered := Edit.replay coveredNote {}
    Reachable covered ∧
      (load covered.definition).result = .error (.undefinedReference missing) :=
  ⟨Edit.reachable_replay coveredNote Reachable.empty, by decide +kernel⟩

end Scene

end SceneGraph
