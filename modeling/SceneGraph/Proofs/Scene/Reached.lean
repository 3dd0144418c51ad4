import SceneGraph.Proofs.Forwarding.Walk
import SceneGraph.Proofs.Scene.References

/-!
The prims that a composition is made from: those where a walk can stand, and those that references
lead to from there. They are all authored, whereas nothing is asked of prims that instances hide.
-/

namespace SceneGraph.Layers

section

variable (layers : Layers)

/-- A walk can stand here: at an authored root prim, or one step on. -/
inductive Walked : Position → Prop
  | root {name} : layers.specs.contains (.absolute [name]) = true →
      Walked ⟨[name], .absolute [name], false⟩
  | step {position name next} : Walked position → layers.step position name = some next →
      Walked next

/-- References lead to the prim from one where a walk can stand. -/
def Reaches (prim : Path) : Prop :=
  ∃ position, layers.Walked position ∧ layers.Leads position.source prim

/-- What can keep a scene from being composed: a reference at a prim that is reached, to one that is
not authored, or prims nested too deep. -/
inductive Blocked : Fault → Prop
  | dangling {prim target} : Reaches layers prim → layers.References prim target →
      layers.specs.contains target = false → Blocked (.undefinedReference target)
  | nested {place} : Blocked (.nestedTooDeep place)

end

variable {layers : Layers} {composition : Composition} {position : Position}

theorem Walked.steps {rest : List Name} {last : Position} (walked : layers.Walked position)
    (found : rest.foldlM layers.step position = some last) : layers.Walked last := by
  induction rest generalizing position with
  | nil =>
      cases found
      exact walked
  | cons name rest ih =>
      rw [List.foldlM_cons] at found
      obtain ⟨next, stepped, further⟩ := Option.bind_eq_some_iff.mp found
      exact ih (walked.step stepped) further

theorem walked_iff : layers.Walked position ↔ ∃ path, layers.walk path = some position := by
  constructor
  · intro walked
    have steps : ∃ (first : Name) (rest : List Name),
        layers.specs.contains (.absolute [first]) = true ∧
        rest.foldlM layers.step ⟨[first], .absolute [first], false⟩ = some position := by
      induction walked with
      | @root name authored => exact ⟨name, [], authored, rfl⟩
      | @step _ name _ _ stepped ih =>
          obtain ⟨first, rest, authored, found⟩ := ih
          exact ⟨first, rest ++ [name], authored, by simp [found, stepped]⟩
    obtain ⟨first, rest, authored, found⟩ := steps
    refine ⟨.absolute (first :: rest), ?_⟩
    rw [walk_absolute rest authored]
    exact found
  · rintro ⟨path, found⟩
    obtain ⟨first, rest, _, authored, found⟩ := follow_eq_some found
    exact (Walked.root authored).steps found

theorem sharedAt_references {target : Path} (shared : layers.sharedAt position = some target) :
    layers.References position.source target := by
  obtain ⟨spec, found, shared⟩ := Option.bind_eq_some_iff.mp shared
  exact ⟨spec, found, (Option.ite_none_right_eq_some.mp shared).2⟩

theorem Walked.authored (walked : layers.Walked position) :
    layers.specs.contains position.source = true := by
  cases walked with
  | root authored => exact authored
  | step _ stepped =>
      obtain ⟨origin, child, rfl⟩ := step_eq_some.mp stepped
      obtain ⟨_, found, member, _⟩ := childNamed_eq_some.mp child
      exact authored_of_mem_childOrigins found member

theorem Walked.stands (rules : layers.FollowsRules composition) (walked : layers.Walked position) :
    ∃ inPrototype source names, layers.Stands composition.prototypes.get? position
      ⟨inPrototype, source, .absolute names⟩ := by
  induction walked with
  | root authored => exact ⟨_, _, _, (Placed.of_authored authored).stands⟩
  | @step position name next _ stepped ih =>
      obtain ⟨_, _, _, stands⟩ := ih
      obtain ⟨below, hosts, place, _⟩ := stands.hosts rules
      obtain ⟨origin, child, rfl⟩ := step_eq_some.mp stepped
      exact ⟨_, _, _, Stands.step rules hosts child position.names place⟩

theorem FollowsRules.authored_of_reaches (rules : layers.FollowsRules composition) {prim : Path}
    (reaches : layers.Reaches prim) : layers.specs.contains prim = true := by
  obtain ⟨position, walked, leads⟩ := reaches
  obtain ⟨_, _, _, stands⟩ := walked.stands rules
  obtain ⟨_, hosts, _⟩ := stands.hosts rules
  obtain ⟨_, found, _⟩ := rules.host_children hosts
  rw [entered] at found
  cases shared : layers.sharedAt position with
  | none =>
      rw [shared] at found
      exact authored_of_leads found leads
  | some target =>
      rw [shared] at found
      rcases leads.after_reference (sharedAt_references shared) with rfl | further
      · exact walked.authored
      · exact authored_of_leads found further

theorem authored_of_composition (admissible : layers.specs.Admissible)
    (composed : layers.composition = .ok composition) {prim target : Path}
    (reaches : layers.Reaches prim) (references : layers.References prim target) :
    layers.specs.contains target = true := by
  obtain ⟨position, walked, leads⟩ := reaches
  have rules := followsRules_of_composition admissible composed
  exact rules.authored_of_reaches ⟨position, walked, leads.tail references⟩

end SceneGraph.Layers
