import SceneGraph.Proofs.Scene.Run

/-!
What a run leaves behind: it forgets nothing, every prim and every prototype it adds has a reason
among its visits, and whatever the rules ask for below a visit is visited too.
-/

namespace SceneGraph.Layers

variable {layers : Layers} {jobs visits : List Placement} {first last : Composition}

theorem Run.prototypes_kept (run : layers.Run jobs first visits last) {target root : Path}
    (known : first.prototypes.get? target = some root) :
    last.prototypes.get? target = some root := by
  induction run with
  | done => exact known
  | plain _ _ _ _ _ _ ihBelow ihAfter => exact ihAfter (ihBelow known)
  | sharing _ _ _ ih => exact ih known
  | @prototyping _ _ first _ _ other _ _ _ _ _ _ unknown _ _ _ _ _ ihBelow ihAfter =>
      have different : target ≠ other := by
        intro same
        rw [same, unknown] at known
        cases known
      refine ihAfter (ihBelow ?_)
      rw [Composition.addPrototype, OrderedMap.get?_insert_of_ne _ _ different]
      exact known

theorem Run.prims_kept (run : layers.Run jobs first visits last) {place : Path}
    (present : first.prims.contains place = true) : last.prims.contains place = true := by
  induction run with
  | done => exact present
  | plain _ _ _ _ _ _ ihBelow ihAfter =>
      exact ihAfter (ihBelow (OrderedMap.contains_insert.mpr (Or.inr present)))
  | sharing _ _ _ ih => exact ih (OrderedMap.contains_insert.mpr (Or.inr present))
  | prototyping _ _ _ _ _ _ _ ihBelow ihAfter =>
      have below := ihBelow (OrderedMap.contains_insert.mpr (Or.inr present))
      exact ihAfter (OrderedMap.contains_insert.mpr (Or.inr below))

theorem Run.jobs_visited (run : layers.Run jobs first visits last) :
    ∀ job ∈ jobs, job ∈ visits := by
  induction run with
  | done => exact fun _ member => member
  | plain _ _ _ _ _ _ _ ih =>
      intro job member
      rcases List.mem_cons.mp member with rfl | later
      · simp
      · simp [ih job later]
  | sharing _ _ _ ih =>
      intro job member
      rcases List.mem_cons.mp member with rfl | later
      · simp
      · simp [ih job later]
  | prototyping _ _ _ _ _ _ _ _ ih =>
      intro job member
      rcases List.mem_cons.mp member with rfl | later
      · simp
      · simp [ih job later]

theorem Run.visits_present (run : layers.Run jobs first visits last) :
    ∀ visit ∈ visits, last.prims.contains visit.place = true := by
  induction run with
  | done => simp
  | plain _ _ _ _ below after ihBelow ihAfter =>
      intro visit member
      rcases List.mem_cons.mp member with rfl | member
      · exact after.prims_kept (below.prims_kept (OrderedMap.contains_insert.mpr (Or.inl rfl)))
      rcases List.mem_append.mp member with inside | later
      · exact after.prims_kept (ihBelow visit inside)
      · exact ihAfter visit later
  | sharing _ _ after ih =>
      intro visit member
      rcases List.mem_cons.mp member with rfl | later
      · exact after.prims_kept (OrderedMap.contains_insert.mpr (Or.inl rfl))
      · exact ih visit later
  | prototyping _ _ _ _ _ _ after ihBelow ihAfter =>
      intro visit member
      rcases List.mem_append.mp member with inside | member
      · exact after.prims_kept (OrderedMap.contains_insert.mpr (Or.inr (ihBelow visit inside)))
      rcases List.mem_cons.mp member with rfl | later
      · exact after.prims_kept (OrderedMap.contains_insert.mpr (Or.inl rfl))
      · exact ihAfter visit later

theorem Run.visits_authored (run : layers.Run jobs first visits last) :
    ∀ visit ∈ visits, layers.specs.contains visit.source = true := by
  induction run with
  | done => simp
  | plain authored _ _ _ _ _ ihBelow ihAfter =>
      simp only [List.cons_append, List.forall_mem_cons, List.forall_mem_append]
      exact ⟨authored, ihBelow, ihAfter⟩
  | sharing shares _ _ ih =>
      simp only [List.forall_mem_cons]
      exact ⟨shares.authored, ih⟩
  | prototyping shares _ _ _ _ _ _ ihBelow ihAfter =>
      simp only [List.forall_mem_append, List.forall_mem_cons]
      exact ⟨ihBelow, shares.authored, ihAfter⟩

def Filled (layers : Layers) (visits : List Placement) (inPrototype : Bool) (source place : Path) :
    Prop :=
  ∃ origins children, layers.childOrigins source = .ok origins ∧
    ChildPlacements inPrototype place origins children ∧ ∀ child ∈ children, child ∈ visits

theorem Filled.mono {more : List Placement} {inPrototype : Bool} {source place : Path}
    (filled : layers.Filled visits inPrototype source place)
    (subset : ∀ visit ∈ visits, visit ∈ more) : layers.Filled more inPrototype source place := by
  obtain ⟨origins, children, found, laid, visited⟩ := filled
  exact ⟨origins, children, found, laid, fun child member => subset child (visited child member)⟩

def Expanded (layers : Layers) (visits : List Placement) (composition : Composition)
    (visit : Placement) : Prop :=
  ((∀ target, ¬layers.Shares visit target) ∧
      layers.Filled visits visit.inPrototype visit.source visit.place) ∨
    ∃ target root, layers.Shares visit target ∧ composition.prototypes.get? target = some root

theorem Expanded.mono {more : List Placement} {later : Composition} {visit : Placement}
    (expanded : layers.Expanded visits first visit) (subset : ∀ visit ∈ visits, visit ∈ more)
    (kept : ∀ {target root}, first.prototypes.get? target = some root →
      later.prototypes.get? target = some root) : layers.Expanded more later visit := by
  rcases expanded with ⟨unshared, filled⟩ | ⟨target, root, shares, known⟩
  · exact Or.inl ⟨unshared, filled.mono subset⟩
  · exact Or.inr ⟨target, root, shares, kept known⟩

theorem Run.expanded (run : layers.Run jobs first visits last) :
    ∀ visit ∈ visits, layers.Expanded visits last visit := by
  induction run with
  | done => simp
  | @plain job _ _ _ _ origins children _ _ _ unshared found laid below after ihBelow ihAfter =>
      intro visit member
      rcases List.mem_cons.mp member with rfl | member
      · refine Or.inl ⟨unshared, origins, children, found, laid, ?_⟩
        intro child inside
        simp [below.jobs_visited child inside]
      rcases List.mem_append.mp member with inside | later
      · exact (ihBelow visit inside).mono (by simp +contextual) after.prototypes_kept
      · exact (ihAfter visit later).mono (by simp +contextual) id
  | sharing shares known after ih =>
      intro visit member
      rcases List.mem_cons.mp member with rfl | later
      · exact Or.inr ⟨_, _, shares, after.prototypes_kept known⟩
      · exact (ih visit later).mono (by simp +contextual) id
  | prototyping shares _ _ _ _ below after ihBelow ihAfter =>
      intro visit member
      rcases List.mem_append.mp member with inside | member
      · exact (ihBelow visit inside).mono (by simp +contextual) after.prototypes_kept
      rcases List.mem_cons.mp member with rfl | later
      · have known := below.prototypes_kept (OrderedMap.get?_insert_self _ _ _)
        exact Or.inr ⟨_, _, shares, after.prototypes_kept known⟩
      · exact (ihAfter visit later).mono (by simp +contextual) id

def Founded (layers : Layers) (visits : List Placement) (composition : Composition)
    (target root : Path) : Prop :=
  (∃ sharer ∈ visits, layers.Shares sharer target) ∧ composition.prims.contains root = true ∧
    layers.Filled visits true target root

theorem Founded.mono {more : List Placement} {later : Composition} {target root : Path}
    (founded : layers.Founded visits first target root) (subset : ∀ visit ∈ visits, visit ∈ more)
    (kept : first.prims.contains root = true → later.prims.contains root = true) :
    layers.Founded more later target root := by
  obtain ⟨⟨sharer, visited, shares⟩, present, filled⟩ := founded
  exact ⟨⟨sharer, subset sharer visited, shares⟩, kept present, filled.mono subset⟩

theorem Run.new_prototype (run : layers.Run jobs first visits last) {target root : Path}
    (known : last.prototypes.get? target = some root) :
    first.prototypes.get? target = some root ∨ layers.Founded visits last target root := by
  induction run with
  | done => exact Or.inl known
  | plain _ _ _ _ _ after ihBelow ihAfter =>
      rcases ihAfter known with earlier | founded
      · rcases ihBelow earlier with started | founded
        · exact Or.inl started
        · exact Or.inr (founded.mono (by simp +contextual) after.prims_kept)
      · exact Or.inr (founded.mono (by simp +contextual) id)
  | sharing _ _ _ ih =>
      rcases ih known with earlier | founded
      · exact Or.inl earlier
      · exact Or.inr (founded.mono (by simp +contextual) id)
  | @prototyping job _ _ middle last _ _ origins children _ _ shares _ _ found laid below after
      ihBelow ihAfter =>
      have kept (present : middle.prims.contains root = true) : last.prims.contains root = true :=
        after.prims_kept (OrderedMap.contains_insert.mpr (Or.inr present))
      rcases ihAfter known with earlier | founded
      · rcases ihBelow earlier with started | founded
        · rcases OrderedMap.get?_insert_eq_some started with ⟨rfl, rfl⟩ | ⟨_, started⟩
          · have present := below.prims_kept (OrderedMap.contains_insert.mpr (Or.inl rfl))
            refine Or.inr ⟨⟨job, by simp, shares⟩, kept present, origins, children, found, laid, ?_⟩
            intro child inside
            simp [below.jobs_visited child inside]
          · exact Or.inl started
        · exact Or.inr (founded.mono (by simp +contextual) kept)
      · exact Or.inr (founded.mono (by simp +contextual) id)

theorem Run.placed (run : layers.Run jobs first visits last) {prototypes : Path → Option Path}
    (known : ∀ {target root}, last.prototypes.get? target = some root →
      prototypes target = some root)
    (started : ∀ job ∈ jobs, layers.Placed prototypes job) :
    ∀ visit ∈ visits, layers.Placed prototypes visit := by
  induction run with
  | done => exact started
  | @plain job _ _ _ _ _ children _ _ _ unshared found laid _ after ihBelow ihAfter =>
      have here := started job (by simp)
      have childrenPlaced : ∀ child ∈ children, layers.Placed prototypes child := by
        intro child member
        obtain ⟨inside, origin, below⟩ := laid.mem member
        have placed := Placed.child here unshared found origin below
        rwa [← inside] at placed
      have laterPlaced := ihAfter known fun job member => started job (by simp [member])
      have belowPlaced := ihBelow (fun found => known (after.prototypes_kept found)) childrenPlaced
      simp only [List.cons_append, List.forall_mem_cons, List.forall_mem_append]
      exact ⟨here, belowPlaced, laterPlaced⟩
  | @sharing job _ _ _ _ _ _ _ _ _ ih =>
      simp only [List.forall_mem_cons]
      exact ⟨started job (by simp), ih known fun job member => started job (by simp [member])⟩
  | @prototyping job _ _ _ _ _ root _ children _ _ shares _ _ found laid below after ihBelow
      ihAfter =>
      have here := started job (by simp)
      have rooted := known
        (after.prototypes_kept (below.prototypes_kept (OrderedMap.get?_insert_self _ _ _)))
      have childrenPlaced : ∀ child ∈ children, layers.Placed prototypes child := by
        intro child member
        obtain ⟨inside, origin, under⟩ := laid.mem member
        have placed := Placed.shared here shares rooted found origin under
        rwa [← inside] at placed
      have laterPlaced := ihAfter known fun job member => started job (by simp [member])
      have belowPlaced := ihBelow (fun found => known (after.prototypes_kept found)) childrenPlaced
      simp only [List.forall_mem_append, List.forall_mem_cons]
      exact ⟨belowPlaced, here, laterPlaced⟩

theorem Run.prims_explained (run : layers.Run jobs first visits last) {place : Path}
    {value : Option Path} (found : last.prims.get? place = some value) :
    first.prims.get? place = some value ∨
      (∃ visit ∈ visits, visit.place = place ∧
        layers.Holds last.prototypes.get? visit value) ∨
      value = none ∧ ∃ target, last.prototypes.get? target = some place := by
  induction run generalizing place value with
  | done => exact Or.inl found
  | @plain job _ _ _ _ _ _ _ _ _ unshared _ _ _ after ihBelow ihAfter =>
      rcases ihAfter found with earlier | ⟨visit, visited, here, holds⟩ | root
      · rcases ihBelow earlier with placed | ⟨visit, visited, here, holds⟩ | ⟨empty, target, known⟩
        · rcases OrderedMap.get?_insert_eq_some placed with ⟨rfl, rfl⟩ | ⟨_, started⟩
          · exact Or.inr (Or.inl ⟨job, by simp, rfl, Or.inl ⟨rfl, unshared⟩⟩)
          · exact Or.inl started
        · exact Or.inr (Or.inl ⟨visit, by simp [visited], here,
            holds.mono fun _ _ => after.prototypes_kept⟩)
        · exact Or.inr (Or.inr ⟨empty, target, after.prototypes_kept known⟩)
      · exact Or.inr (Or.inl ⟨visit, by simp [visited], here, holds⟩)
      · exact Or.inr (Or.inr root)
  | @sharing job _ _ _ target root _ shares known after ih =>
      rcases ih found with earlier | ⟨visit, visited, here, holds⟩ | root
      · rcases OrderedMap.get?_insert_eq_some earlier with ⟨rfl, rfl⟩ | ⟨_, started⟩
        · exact Or.inr (Or.inl ⟨job, by simp, rfl,
            Or.inr ⟨target, root, shares, after.prototypes_kept known, rfl⟩⟩)
        · exact Or.inl started
      · exact Or.inr (Or.inl ⟨visit, by simp [visited], here, holds⟩)
      · exact Or.inr (Or.inr root)
  | @prototyping job _ _ _ _ target root _ _ _ _ shares _ _ _ _ below after ihBelow ihAfter =>
      have known := below.prototypes_kept (OrderedMap.get?_insert_self _ _ _)
      have known := after.prototypes_kept known
      rcases ihAfter found with earlier | ⟨visit, visited, here, holds⟩ | rooted
      · rcases OrderedMap.get?_insert_eq_some earlier with ⟨rfl, rfl⟩ | ⟨_, middle⟩
        · exact Or.inr (Or.inl ⟨job, by simp, rfl, Or.inr ⟨target, root, shares, known, rfl⟩⟩)
        · rcases ihBelow middle with placed | ⟨visit, visited, here, holds⟩ | ⟨empty, other, root⟩
          · rcases OrderedMap.get?_insert_eq_some placed with ⟨rfl, rfl⟩ | ⟨_, started⟩
            · exact Or.inr (Or.inr ⟨rfl, target, known⟩)
            · exact Or.inl started
          · exact Or.inr (Or.inl ⟨visit, by simp [visited], here,
              holds.mono fun _ _ => after.prototypes_kept⟩)
          · exact Or.inr (Or.inr ⟨empty, other, after.prototypes_kept root⟩)
      · exact Or.inr (Or.inl ⟨visit, by simp [visited], here, holds⟩)
      · exact Or.inr (Or.inr rooted)

end SceneGraph.Layers
