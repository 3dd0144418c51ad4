import SceneGraph.Proofs.Scene.Rules

/-!
What a successful composition did: the prims it composed, in the order in which it came to them, and
the composition it started and ended with.
-/

namespace SceneGraph.Layers

variable (layers : Layers)

/-- `Run jobs first visits last`: composing `jobs` in turn on top of `first` ends with `last` and
composes `visits` on the way. -/
inductive Run : List Placement → Composition → List Placement → Composition → Prop
  | done {composition} : Run [] composition [] composition
  | plain {job jobs first middle last origins children below after} :
      layers.specs.contains job.source = true → (∀ target, ¬layers.Shares job target) →
      layers.childOrigins job.source = .ok origins →
      ChildPlacements job.inPrototype job.place origins children →
      Run children (first.addPrim job.place none) below middle → Run jobs middle after last →
      Run (job :: jobs) first (job :: below ++ after) last
  | sharing {job jobs first last target root after} :
      layers.Shares job target → first.prototypes.get? target = some root →
      Run jobs (first.addPrim job.place (some root)) after last →
      Run (job :: jobs) first (job :: after) last
  | prototyping {job jobs first middle last target root origins children below after} :
      layers.Shares job target → first.prototypes.get? target = none →
      first.nextPrototype = .ok root → layers.childOrigins target = .ok origins →
      ChildPlacements true root origins children →
      Run children (first.addPrototype target root) below middle →
      Run jobs (middle.addPrim job.place (some root)) after last →
      Run (job :: jobs) first (below ++ job :: after) last

variable {layers}

theorem Run.append {left right leftVisits rightVisits : List Placement}
    {first middle last : Composition} (before : layers.Run left first leftVisits middle)
    (after : layers.Run right middle rightVisits last) :
    layers.Run (left ++ right) first (leftVisits ++ rightVisits) last := by
  induction before with
  | done => exact after
  | plain authored unshared found laid below _ _ ih =>
      rw [List.append_assoc]
      exact Run.plain authored unshared found laid below (ih after)
  | sharing shares known _ ih => exact Run.sharing shares known (ih after)
  | prototyping shares unknown next found laid below _ _ ih =>
      rw [List.append_assoc]
      exact Run.prototyping shares unknown next found laid below (ih after)

theorem run_of_eachChild {compose : Path → Path → Composition → Except Fault Composition}
    {inPrototype : Bool} {place : Path}
    (composes : ∀ {source place first last}, compose source place first = .ok last →
      ∃ visits, layers.Run [⟨inPrototype, source, place⟩] first visits last)
    {origins : List Path} {first last : Composition}
    (composed : Composition.eachChild compose origins place first = .ok last) :
    ∃ children visits, ChildPlacements inPrototype place origins children ∧
      layers.Run children first visits last := by
  rw [Composition.eachChild] at composed
  induction origins generalizing first with
  | nil =>
      cases composed
      exact ⟨[], [], List.Forall₂.nil, Run.done⟩
  | cons origin rest ih =>
      rw [List.foldlM_cons, bind_eq_ok] at composed
      obtain ⟨middle, here, later⟩ := composed
      rw [bind_eq_ok] at here
      obtain ⟨below, found, here⟩ := here
      rw [mapError_eq_ok] at found
      obtain ⟨visits, run⟩ := composes here
      obtain ⟨children, laterVisits, laid, laterRun⟩ := ih later
      exact ⟨⟨inPrototype, origin, below⟩ :: children, visits ++ laterVisits,
        List.Forall₂.cons ⟨rfl, rfl, found⟩ laid, run.append laterRun⟩

theorem run_of_composeAt (room : Nat) {inPrototype : Bool} {source place : Path}
    {first last : Composition}
    (composed : layers.composeAt room inPrototype source place first = .ok last) :
    ∃ visits, layers.Run [⟨inPrototype, source, place⟩] first visits last := by
  induction room generalizing inPrototype source place first last with
  | zero => simp [composeAt] at composed
  | succ room ih =>
      rw [composeAt, bind_eq_ok] at composed
      obtain ⟨spec, authored, composed⟩ := composed
      have present : layers.specs.contains source = true :=
        OrderedMap.contains_iff.mpr ⟨spec, spec_eq_ok.mp authored⟩
      cases shared : layers.sharedSource spec place inPrototype with
      | none =>
          simp only [shared] at composed
          rw [bind_eq_ok] at composed
          obtain ⟨origins, found, composed⟩ := composed
          obtain ⟨children, visits, laid, run⟩ := run_of_eachChild ih composed
          have unshared : ∀ target, ¬layers.Shares ⟨inPrototype, source, place⟩ target :=
            (not_shares_iff authored).mpr shared
          exact ⟨_, Run.plain present unshared found laid run Run.done⟩
      | some target =>
          have shares : layers.Shares ⟨inPrototype, source, place⟩ target :=
            (shares_iff authored).mpr shared
          simp only [shared] at composed
          split at composed
          next root known =>
            cases composed
            exact ⟨_, Run.sharing shares known Run.done⟩
          next unknown =>
            simp only [bind_eq_ok] at composed
            obtain ⟨_, _, root, next, origins, found, middle, composed, finished⟩ := composed
            cases finished
            obtain ⟨children, visits, laid, run⟩ := run_of_eachChild ih composed
            exact ⟨_, Run.prototyping shares unknown next found laid run Run.done⟩

def rootPlacements (layers : Layers) : List Placement :=
  layers.rootPrims.map fun root => ⟨false, root, root⟩

theorem run_of_composition {composition : Composition}
    (composed : layers.composition = .ok composition) :
    ∃ visits, layers.Run layers.rootPlacements {} visits composition := by
  rw [Layers.composition] at composed
  rw [rootPlacements]
  generalize layers.rootPrims = roots at composed ⊢
  generalize ({} : Composition) = first at composed ⊢
  induction roots generalizing first with
  | nil =>
      cases composed
      exact ⟨[], Run.done⟩
  | cons root rest ih =>
      rw [List.foldlM_cons, bind_eq_ok] at composed
      obtain ⟨middle, here, later⟩ := composed
      obtain ⟨visits, run⟩ := run_of_composeAt _ here
      obtain ⟨laterVisits, laterRun⟩ := ih middle later
      exact ⟨visits ++ laterVisits, run.append laterRun⟩

end SceneGraph.Layers
