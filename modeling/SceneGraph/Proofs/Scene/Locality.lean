import SceneGraph.Proofs.Scene.Reached

/-!
Composing reads the prims it is made from and nothing else. Layers that agree on these compose
alike, and what keeps a scene from being composed is found among them.
-/

namespace SceneGraph

theorem Path.name_of_isAbsolutePrimPath {path : Path} (prim : path.isAbsolutePrimPath = true) :
    ∃ name : Name, path.name = name.text := by
  obtain ⟨names, last, rfl⟩ := Path.exists_last prim
  exact ⟨last, Path.name_absolute_append names last⟩

theorem isIdentifier_prototypeName (number : Nat) :
    isIdentifier (prototypeNameStart ++ toString number) = true := by
  have digits : ∀ digit ∈ (toString number).toList, continuesIdentifier digit = true := by
    intro digit member
    have decimal : digit.isDigit = true :=
      Nat.isDigit_of_mem_toDigits (b := 10) (n := number) (by decide) (by decide)
        (by simpa using member)
    simp [continuesIdentifier, Char.isAlphanum, decimal]
  have start : prototypeNameStart.toList = '_' :: "_Prototype_".toList := by decide
  rw [isIdentifier, String.toList_append, start, List.cons_append, isIdentifierText,
    List.all_append, List.all_eq_true.mpr digits]
  decide

theorem nextPrototype_ok (composition : Composition) :
    ∃ name, composition.nextPrototype = .ok (.absolute [name]) := by
  refine ⟨⟨_, isIdentifier_prototypeName (composition.prototypes.size + 1)⟩, ?_⟩
  rw [Composition.nextPrototype, mapError_eq_ok]
  exact Path.child_absolute [] ⟨_, isIdentifier_prototypeName (composition.prototypes.size + 1)⟩

/-- The walk stands at the prim composed at `place`, as far as can be told from its names: inside a
prototype it is only known to be an absolute path. -/
def Position.At (position : Position) (place : Path) : Prop :=
  ∃ names, place = .absolute names ∧ (position.crossed = false → names = position.names)

namespace Layers

variable {layers left right : Layers} {position : Position} {place : Path} {room : Nat}
  {first : Composition}

theorem sharedAt_eq (located : position.At place) :
    layers.sharedAt position = (layers.specs.get? position.source).bind fun spec =>
      layers.sharedSource spec place position.crossed := by
  obtain ⟨names, rfl, here⟩ := located
  rw [sharedAt]
  refine congrArg _ (funext fun spec => ?_)
  rw [sharedSource]
  cases crossed : position.crossed with
  | true => rfl
  | false => rw [here crossed]; rfl

def composeChildren (layers : Layers) (room : Nat) (inPrototype : Bool) (source place : Path)
    (first : Composition) : Except Fault Composition := do
  let children ← layers.childOrigins source
  Composition.eachChild (layers.composeAt room inPrototype) children place first

theorem composeAt_eq (located : position.At place)
    (authored : layers.specs.contains position.source = true) :
    layers.composeAt (room + 1) position.crossed position.source place first =
      match layers.sharedAt position with
      | none =>
        layers.composeChildren room position.crossed position.source place
          (first.addPrim place none)
      | some shared =>
        match first.prototypes.get? shared with
        | some root => .ok (first.addPrim place (some root))
        | none =>
          if layers.specs.contains shared then do
            let root ← first.nextPrototype
            let last ← layers.composeChildren room true shared root (first.addPrototype shared root)
            return last.addPrim place (some root)
          else .error (.undefinedReference shared) := by
  obtain ⟨spec, found⟩ := OrderedMap.contains_iff.mp authored
  rw [composeAt, spec_eq_ok.mpr found, ok_bind, sharedAt_eq located, found, Option.bind_some]
  cases layers.sharedSource spec place position.crossed with
  | none => rfl
  | some target =>
      cases known : first.prototypes.get? target with
      | some root => simp only [known]; rfl
      | none =>
          simp only [known, composeChildren, bind_assoc]
          cases asked : layers.spec target with
          | error fault =>
              obtain ⟨unauthored, rfl⟩ := spec_eq_error.mp asked
              rw [error_bind, unauthored]
              rfl
          | ok spec =>
              rw [ok_bind, if_pos (OrderedMap.contains_iff.mpr ⟨spec, spec_eq_ok.mp asked⟩)]

theorem Walked.child (walked : layers.Walked position)
    (located : (layers.entered position).At place) {origins : List Path} {origin below : Path}
    (found : layers.childOrigins (layers.entered position).source = .ok origins)
    (member : origin ∈ origins) (under : place.child origin.name = .ok below) :
    ∃ next, layers.Walked next ∧ next.source = origin ∧
      next.crossed = (layers.entered position).crossed ∧ next.At below := by
  obtain ⟨names, rfl, here⟩ := located
  obtain ⟨name, spelled, rfl⟩ := Path.child_absolute_eq_ok under
  have child := childNamed_eq_some.mpr ⟨origins, found, member, spelled.symm⟩
  have stepped := walked.step (step_eq_some.mpr ⟨origin, child, rfl⟩)
  refine ⟨_, stepped, rfl, rfl, names ++ [name], rfl, fun outside => ?_⟩
  rw [here outside]
  rfl

theorem entered_of_unshared (unshared : layers.sharedAt position = none) :
    layers.entered position = position := by
  simp [entered, unshared]

theorem entered_of_shared {target : Path} (shared : layers.sharedAt position = some target) :
    layers.entered position = ⟨position.names, target, true⟩ := by
  simp [entered, shared]

theorem entered_at_root {target : Path} (shared : layers.sharedAt position = some target)
    (root : Name) : (layers.entered position).At (.absolute [root]) := by
  rw [entered_of_shared shared]
  exact ⟨[root], rfl, nofun⟩

theorem Walked.of_rootPrim (admissible : layers.specs.Admissible) {root : Path}
    (isRoot : root ∈ layers.rootPrims) : ∃ position, layers.Walked position ∧
      position.source = root ∧ position.crossed = false ∧ position.At root := by
  obtain ⟨authored, single⟩ := mem_rootPrims.mp isRoot
  obtain ⟨names, _, rfl⟩ := Path.isAbsolutePrimPath_iff.mp (admissible root authored).1
  obtain ⟨name, rfl⟩ := List.length_eq_one_iff.mp single
  exact ⟨_, Walked.root authored, rfl, rfl, [name], rfl, fun _ => rfl⟩

theorem Walked.reaches_entered (walked : layers.Walked position) {prim : Path}
    (leads : layers.Leads (layers.entered position).source prim) : layers.Reaches prim := by
  cases shared : layers.sharedAt position with
  | none =>
      rw [entered_of_unshared shared] at leads
      exact ⟨position, walked, leads⟩
  | some target =>
      rw [entered_of_shared shared] at leads
      exact ⟨position, walked, .head (sharedAt_references shared) leads⟩

/-! Layers that agree. -/

/-- The layers have the same prims, and say the same of those the first are composed from. -/
structure AgreeWhereReached (left right : Layers) : Prop where
  keys : right.specs.keys = left.specs.keys
  specs : ∀ prim, left.Reaches prim → right.specs.get? prim = left.specs.get? prim
  shared : ∀ position, left.Walked position → right.sharedAt position = left.sharedAt position

namespace AgreeWhereReached

theorem contains (agree : AgreeWhereReached left right) (prim : Path) :
    right.specs.contains prim = left.specs.contains prim :=
  OrderedMap.contains_congr agree.keys prim

theorem entered (agree : AgreeWhereReached left right) (walked : left.Walked position) :
    right.entered position = left.entered position := by
  rw [Layers.entered, Layers.entered, agree.shared position walked]

theorem childOrigins (agree : AgreeWhereReached left right) (walked : left.Walked position) :
    right.childOrigins (left.entered position).source =
      left.childOrigins (left.entered position).source :=
  childOrigins_congr agree.keys fun prim leads =>
    congrArg _ (agree.specs prim (walked.reaches_entered leads))

theorem walked (agree : AgreeWhereReached left right) (walked : right.Walked position) :
    left.Walked position := by
  induction walked with
  | root authored =>
      rw [agree.contains] at authored
      exact Walked.root authored
  | step _ stepped ih =>
      obtain ⟨origin, child, rfl⟩ := step_eq_some.mp stepped
      rw [childNamed, agree.entered ih, agree.childOrigins ih, ← childNamed] at child
      rw [agree.entered ih]
      exact ih.step (step_eq_some.mpr ⟨origin, child, rfl⟩)

theorem reaches (agree : AgreeWhereReached left right) {prim : Path}
    (reaches : right.Reaches prim) : left.Reaches prim := by
  obtain ⟨position, walked, leads⟩ := reaches
  have leftWalked := agree.walked walked
  exact ⟨position, leftWalked, leads.of_agree fun other before =>
    agree.specs other ⟨position, leftWalked, before⟩⟩

theorem symm (agree : AgreeWhereReached left right) : AgreeWhereReached right left where
  keys := agree.keys.symm
  specs prim reaches := (agree.specs prim (agree.reaches reaches)).symm
  shared position walked := (agree.shared position (agree.walked walked)).symm

theorem composeChildren (agree : AgreeWhereReached left right) (walked : left.Walked position)
    (located : (left.entered position).At place)
    (below : ∀ next place first, left.Walked next → next.At place →
      right.composeAt room next.crossed next.source place first =
        left.composeAt room next.crossed next.source place first) (first : Composition) :
    right.composeChildren room (left.entered position).crossed (left.entered position).source place
        first =
      left.composeChildren room (left.entered position).crossed (left.entered position).source place
        first := by
  rw [Layers.composeChildren, Layers.composeChildren, agree.childOrigins walked]
  cases found : left.childOrigins (left.entered position).source with
  | error fault => rfl
  | ok origins =>
      refine foldlM_congr (fun origin member state => ?_) first
      cases under : place.child origin.name with
      | error refused => rfl
      | ok child =>
          obtain ⟨next, nextWalked, rfl, crossed, nextLocated⟩ :=
            walked.child located found member under
          have same := below next child state nextWalked nextLocated
          rw [crossed] at same
          exact same

theorem composeAt (agree : AgreeWhereReached left right) (walked : left.Walked position)
    (located : position.At place) :
    right.composeAt room position.crossed position.source place first =
      left.composeAt room position.crossed position.source place first := by
  induction room generalizing position place first with
  | zero => rfl
  | succ room ih =>
      have authored := walked.authored
      rw [composeAt_eq located authored, composeAt_eq located (by rwa [agree.contains]),
        agree.shared position walked]
      cases shared : left.sharedAt position with
      | none =>
          have children := agree.composeChildren walked (by rwa [entered_of_unshared shared])
            (fun _ _ _ => ih) (first.addPrim place none)
          rwa [entered_of_unshared shared] at children
      | some target =>
          obtain ⟨root, next⟩ := nextPrototype_ok first
          have children := agree.composeChildren walked (entered_at_root shared root)
            (fun _ _ _ => ih) (first.addPrototype target (.absolute [root]))
          rw [entered_of_shared shared] at children
          simp only [agree.contains, next, ok_bind, children]

/-- Layers that agree where they reach compose to the same prims or fail with the same fault. -/
theorem composition (agree : AgreeWhereReached left right) (admissible : left.specs.Admissible) :
    right.composition = left.composition := by
  have roots : right.rootPrims = left.rootPrims := by rw [rootPrims, rootPrims, agree.keys]
  rw [Layers.composition, Layers.composition, roots]
  refine foldlM_congr (fun root isRoot state => ?_) _
  obtain ⟨position, walked, rfl, crossed, located⟩ := Walked.of_rootPrim admissible isRoot
  rw [← crossed]
  exact agree.composeAt walked located

end AgreeWhereReached

/-! What is in the way. -/

theorem prototypes_kept_of_composeAt {inPrototype : Bool} {source : Path} {last : Composition}
    (composed : layers.composeAt room inPrototype source place first = .ok last) {target : Path}
    (known : first.prototypes.contains target = true) :
    last.prototypes.contains target = true := by
  obtain ⟨_, run⟩ := run_of_composeAt room composed
  obtain ⟨root, found⟩ := OrderedMap.contains_iff.mp known
  exact OrderedMap.contains_iff.mpr ⟨root, run.prototypes_kept found⟩

theorem prototypes_kept_of_eachChild {inPrototype : Bool} {sources : List Path}
    {last : Composition}
    (composed : Composition.eachChild (layers.composeAt room inPrototype) sources place first =
      .ok last) {target : Path} (known : first.prototypes.contains target = true) :
    last.prototypes.contains target = true := by
  refine foldlM_eq_ok_related (fun first last : Composition =>
    first.prototypes.contains target = true → last.prototypes.contains target = true)
    (fun _ => id) (fun _ _ _ before after => after ∘ before) ?_ composed known
  intro source _ state later composed
  obtain ⟨below, _, composed⟩ := bind_eq_ok.mp composed
  exact prototypes_kept_of_composeAt composed

theorem composeChildren_eq_error (admissible : layers.specs.Admissible)
    (located : (layers.entered position).At place)
    (authored : layers.specs.contains (layers.entered position).source = true) {fault : Fault}
    (failed : layers.composeChildren room (layers.entered position).crossed
      (layers.entered position).source place first = .error fault) :
    (∃ prim missing, layers.Leads (layers.entered position).source prim ∧
      layers.References prim missing ∧ layers.specs.contains missing = false ∧
      fault = .undefinedReference missing) ∨
    ∃ name next below state, layers.step position name = some next ∧ next.At below ∧
      (∀ target, first.prototypes.contains target = true →
        state.prototypes.contains target = true) ∧
      layers.composeAt room next.crossed next.source below state = .error fault := by
  rcases bind_eq_error.mp failed with refused | ⟨origins, found, failed⟩
  · exact Or.inl (dangling_of_childOrigins authored refused)
  · obtain ⟨before, origin, after, state, rfl, reached, failed⟩ := foldlM_eq_error_after failed
    have member : origin ∈ before ++ origin :: after := by simp
    have originAuthored := authored_of_mem_childOrigins found member
    obtain ⟨name, spelled⟩ := Path.name_of_isAbsolutePrimPath (admissible origin originAuthored).1
    obtain ⟨names, rfl, here⟩ := located
    rw [spelled, Path.child_absolute] at failed
    have child := childNamed_eq_some.mpr ⟨_, found, member, spelled⟩
    have stepped := step_eq_some.mpr ⟨origin, child, rfl⟩
    exact Or.inr ⟨name, _, .absolute (names ++ [name]), state, stepped,
      ⟨_, rfl, fun outside => by rw [here outside]; rfl⟩,
      fun target => prototypes_kept_of_eachChild reached, failed⟩

structure Opens (layers : Layers) (position : Position) (first start : Composition) : Prop where
  founded : ∀ target, layers.sharedAt position = some target →
    first.prototypes.contains target = false ∧ start.prototypes.contains target = true
  kept : ∀ target, first.prototypes.contains target = true →
    start.prototypes.contains target = true

theorem composeAt_eq_error (walked : layers.Walked position) (located : position.At place)
    {fault : Fault} (failed : layers.composeAt (room + 1) position.crossed position.source place
      first = .error fault) :
    (∃ target, layers.sharedAt position = some target ∧ layers.specs.contains target = false ∧
      fault = .undefinedReference target) ∨
    ∃ below start, (layers.entered position).At below ∧
      layers.specs.contains (layers.entered position).source = true ∧
      layers.Opens position first start ∧
      layers.composeChildren room (layers.entered position).crossed (layers.entered position).source
        below start = .error fault := by
  rw [composeAt_eq located walked.authored] at failed
  cases shared : layers.sharedAt position with
  | none =>
      rw [entered_of_unshared shared]
      have opens : layers.Opens position first (first.addPrim place none) :=
        ⟨by simp [shared], fun _ => id⟩
      exact Or.inr ⟨place, _, located, walked.authored, opens, by simpa only [shared] using failed⟩
  | some target =>
      simp only [shared] at failed
      split at failed
      next => cases failed
      next unknown =>
        split at failed
        next authored =>
          obtain ⟨root, next⟩ := nextPrototype_ok first
          rw [next, ok_bind] at failed
          rcases bind_eq_error.mp failed with children | ⟨_, _, impossible⟩
          · have opens : layers.Opens position first
                (first.addPrototype target (.absolute [root])) := by
              refine ⟨fun other same => ?_, fun other present => ?_⟩
              · cases shared.symm.trans same
                exact ⟨by simp [OrderedMap.contains, unknown],
                  OrderedMap.contains_insert.mpr (Or.inl rfl)⟩
              · exact OrderedMap.contains_insert.mpr (Or.inr present)
            have rooted := entered_at_root shared root
            rw [entered_of_shared shared] at rooted ⊢
            exact Or.inr ⟨.absolute [root], _, rooted, authored, opens, children⟩
          · cases impossible
        next unauthored =>
          cases failed
          exact Or.inl ⟨target, rfl, by simpa using unauthored, rfl⟩

theorem blocked_of_composeAt (admissible : layers.specs.Admissible)
    (walked : layers.Walked position) (located : position.At place) {fault : Fault}
    (failed : layers.composeAt room position.crossed position.source place first = .error fault) :
    layers.Blocked fault := by
  induction room generalizing position place first with
  | zero =>
      cases failed
      exact Blocked.nested
  | succ room ih =>
      rcases composeAt_eq_error walked located failed with
        ⟨target, shared, unauthored, rfl⟩ | ⟨below, start, entered, authored, _, children⟩
      · exact Blocked.dangling ⟨position, walked, .refl⟩ (sharedAt_references shared) unauthored
      · rcases composeChildren_eq_error admissible entered authored children with
          ⟨prim, missing, leads, references, unauthored, rfl⟩ |
          ⟨name, next, under, state, stepped, inside, _, failed⟩
        · exact Blocked.dangling (walked.reaches_entered leads) references unauthored
        · exact ih (walked.step stepped) inside failed

theorem blocked_of_composition (admissible : layers.specs.Admissible) {fault : Fault}
    (failed : layers.composition = .error fault) : layers.Blocked fault := by
  obtain ⟨root, isRoot, state, failed⟩ := foldlM_eq_error failed
  obtain ⟨position, walked, rfl, crossed, located⟩ := Walked.of_rootPrim admissible isRoot
  rw [← crossed] at failed
  exact blocked_of_composeAt admissible walked located failed

end Layers

end SceneGraph
