import SceneGraph.Proofs.Scene.Locality

/-!
How deep prims can be nested. Composing goes down from prim to prim and into each prototype once,
and is given up when that takes more levels than the limit allows. References that lead back to
where they started are no reason to.
-/

namespace SceneGraph.Layers

section

variable (layers : Layers)

/-- Below some prim there are more levels than the limit allows, all of plain prims. -/
def Overgrown : Prop :=
  ∃ position rest, layers.Walked position ∧ nestingLimit < rest.length ∧
    (rest.foldlM layers.step position).isSome ∧
    layers.prototypesAlong position rest = (layers.sharedAt position).toList

/-- Below some root prim there are more levels than the limit allows, with no prototype among them
that is gone into twice. -/
def Deep : Prop :=
  ∃ first rest, layers.specs.contains (.absolute [first]) = true ∧ nestingLimit < rest.length ∧
    (rest.foldlM layers.step ⟨[first], .absolute [first], false⟩).isSome ∧
    (layers.prototypesAlong ⟨[first], .absolute [first], false⟩ rest).Nodup

end

variable {layers : Layers} {position next : Position} {name : Name} {names rest : List Name}
  {place : Path} {room : Nat} {first last : Composition}

theorem steps_cons : ((name :: rest).foldlM layers.step position).isSome = true ↔
    ∃ next, layers.step position name = some next ∧
      (rest.foldlM layers.step next).isSome = true := by
  rw [List.foldlM_cons]
  cases layers.step position name <;> simp

/-! Too deep for the limit. -/

def Deepens (layers : Layers) (levels : Nat) (position : Position) (first : Composition) : Prop :=
  ∃ rest, rest.length = levels ∧ (rest.foldlM layers.step position).isSome = true ∧
    (layers.prototypesAlong position rest).Nodup ∧
    ∀ target ∈ layers.prototypesAlong position rest, first.prototypes.contains target = false

theorem absent_of_kept {start : Composition} (kept : ∀ target,
      first.prototypes.contains target = true → start.prototypes.contains target = true)
    {target : Path} (absent : start.prototypes.contains target = false) :
    first.prototypes.contains target = false := by
  refine Bool.eq_false_iff.mpr fun known => ?_
  rw [kept target known] at absent
  cases absent

theorem Deepens.of_kept {start : Composition} (deepens : layers.Deepens room position start)
    (kept : ∀ target, first.prototypes.contains target = true →
      start.prototypes.contains target = true) : layers.Deepens room position first := by
  obtain ⟨rest, length, walks, distinct, unknown⟩ := deepens
  exact ⟨rest, length, walks, distinct, fun target member =>
    absent_of_kept kept (unknown target member)⟩

theorem Deepens.step {start : Composition} (deepens : layers.Deepens room next start)
    (stepped : layers.step position name = some next) (opens : layers.Opens position first start) :
    layers.Deepens (room + 1) position first := by
  obtain ⟨rest, length, walks, distinct, unknown⟩ := deepens
  have earlier : ∀ target ∈ layers.prototypesAlong next rest,
      first.prototypes.contains target = false := fun target member =>
    absent_of_kept opens.kept (unknown target member)
  refine ⟨name :: rest, by rw [List.length_cons, length], steps_cons.mpr ⟨next, stepped, walks⟩, ?_⟩
  rw [prototypesAlong_step rest stepped]
  cases shared : layers.sharedAt position with
  | none => exact ⟨distinct, earlier⟩
  | some target =>
      obtain ⟨missing, founded⟩ := opens.founded target shared
      have fresh : target ∉ layers.prototypesAlong next rest := by
        intro member
        rw [unknown target member] at founded
        cases founded
      exact ⟨List.nodup_cons.mpr ⟨fresh, distinct⟩, List.forall_mem_cons.mpr ⟨missing, earlier⟩⟩

theorem deepens_of_composeAt (admissible : layers.specs.Admissible)
    (walked : layers.Walked position) (located : position.At place) {deep : Path}
    (failed : layers.composeAt room position.crossed position.source place first =
      .error (.nestedTooDeep deep)) : layers.Deepens room position first := by
  induction room generalizing position place first with
  | zero => exact ⟨[], rfl, rfl, List.nodup_nil, nofun⟩
  | succ room ih =>
      rcases composeAt_eq_error walked located failed with
        ⟨_, _, _, impossible⟩ | ⟨below, start, entered, authored, opens, children⟩
      · cases impossible
      rcases composeChildren_eq_error admissible entered authored children with
        ⟨_, _, _, _, _, impossible⟩ | ⟨name, next, under, state, stepped, inside, kept, failed⟩
      · cases impossible
      · exact ((ih (walked.step stepped) inside failed).of_kept kept).step stepped opens

theorem deep_of_composition (admissible : layers.specs.Admissible) {deep : Path}
    (failed : layers.composition = .error (.nestedTooDeep deep)) : layers.Deep := by
  obtain ⟨root, isRoot, state, failed⟩ := foldlM_eq_error failed
  obtain ⟨authored, single⟩ := mem_rootPrims.mp isRoot
  obtain ⟨names, _, rfl⟩ := Path.isAbsolutePrimPath_iff.mp (admissible root authored).1
  obtain ⟨first, rfl⟩ := List.length_eq_one_iff.mp single
  have located : Position.At ⟨[first], .absolute [first], false⟩ (.absolute [first]) :=
    ⟨[first], rfl, fun _ => rfl⟩
  obtain ⟨rest, length, walks, distinct, _⟩ :=
    deepens_of_composeAt admissible (Walked.root authored) located failed
  exact ⟨first, rest, authored, by omega, walks, distinct⟩

/-! Within the limit. -/

theorem composed_child {inPrototype : Bool} {source origin : Path}
    (composed : layers.composeChildren room inPrototype source (.absolute names) first = .ok last)
    (child : layers.childNamed source name = some origin) :
    ∃ start finish, layers.composeAt room inPrototype origin (.absolute (names ++ [name])) start =
      .ok finish := by
  obtain ⟨origins, found, member, spelled⟩ := childNamed_eq_some.mp child
  obtain ⟨others, again, composed⟩ := bind_eq_ok.mp composed
  cases found.symm.trans again
  obtain ⟨start, finish, composed⟩ := foldlM_eq_ok_step composed member
  rw [spelled, Path.child_absolute] at composed
  exact ⟨start, finish, composed⟩

theorem levels_of_composeAt (located : position.At place)
    (authored : layers.specs.contains position.source = true)
    (composed : layers.composeAt room position.crossed position.source place first = .ok last)
    (walks : (rest.foldlM layers.step position).isSome = true)
    (plain : layers.prototypesAlong position rest = []) : rest.length < room := by
  induction room generalizing position place first last rest with
  | zero => cases composed
  | succ room ih =>
      cases rest with
      | nil => exact Nat.succ_pos room
      | cons name rest =>
          obtain ⟨next, stepped, further⟩ := steps_cons.mp walks
          rw [prototypesAlong_step rest stepped, List.append_eq_nil_iff] at plain
          have unshared : layers.sharedAt position = none := by simpa using plain.1
          obtain ⟨origin, child, rfl⟩ := step_eq_some.mp stepped
          rw [entered_of_unshared unshared] at child plain further
          rw [composeAt_eq located authored, unshared] at composed
          obtain ⟨names, rfl, here⟩ := located
          obtain ⟨start, finish, composed⟩ := composed_child composed child
          obtain ⟨origins, found, member, _⟩ := childNamed_eq_some.mp child
          have inside : Position.At ⟨position.names ++ [name], origin, position.crossed⟩
              (.absolute (names ++ [name])) := ⟨_, rfl, fun outside => by rw [here outside]⟩
          have fewer :=
            ih inside (authored_of_mem_childOrigins found member) composed further plain.2
          rw [List.length_cons]
          omega

def FilledWithin (layers : Layers) (room : Nat) (target : Path) : Prop :=
  ∃ fewer root start finish, fewer < room ∧
    layers.composeChildren fewer true target (.absolute [root]) start = .ok finish

theorem FilledWithin.mono {target : Path} (filled : layers.FilledWithin room target) {more : Nat}
    (enough : room ≤ more) : layers.FilledWithin more target := by
  obtain ⟨fewer, root, start, finish, less, composed⟩ := filled
  exact ⟨fewer, root, start, finish, Nat.lt_of_lt_of_le less enough, composed⟩

theorem filledWithin_of_foldlM {α : Type} {next : Composition → α → Except Fault Composition}
    {target : Path} (each : ∀ step first last, next first step = .ok last →
      last.prototypes.contains target = true →
      first.prototypes.contains target = true ∨ layers.FilledWithin room target)
    {steps : List α} (composed : steps.foldlM next first = .ok last)
    (known : last.prototypes.contains target = true) :
    first.prototypes.contains target = true ∨ layers.FilledWithin room target :=
  foldlM_eq_ok_related (fun first last : Composition =>
    last.prototypes.contains target = true →
      first.prototypes.contains target = true ∨ layers.FilledWithin room target)
    (fun _ => Or.inl) (fun _ _ _ before after known => (after known).elim before Or.inr)
    (fun step _ => each step) composed known

theorem filledWithin_of_eachChild {compose : Path → Path → Composition → Except Fault Composition}
    {target : Path} (each : ∀ source place first last, compose source place first = .ok last →
      last.prototypes.contains target = true →
      first.prototypes.contains target = true ∨ layers.FilledWithin room target)
    {sources : List Path}
    (composed : Composition.eachChild compose sources place first = .ok last)
    (known : last.prototypes.contains target = true) :
    first.prototypes.contains target = true ∨ layers.FilledWithin room target := by
  refine filledWithin_of_foldlM (fun source first last composed => ?_) composed known
  obtain ⟨below, _, composed⟩ := bind_eq_ok.mp composed
  exact each source below first last composed

theorem filledWithin_of_composeAt {inPrototype : Bool} {source : Path}
    (composed : layers.composeAt room inPrototype source place first = .ok last) {target : Path}
    (known : last.prototypes.contains target = true) :
    first.prototypes.contains target = true ∨ layers.FilledWithin room target := by
  induction room generalizing inPrototype source place first last with
  | zero => cases composed
  | succ room ih =>
      have below : ∀ inPrototype source place first last,
          layers.composeAt room inPrototype source place first = .ok last →
          last.prototypes.contains target = true →
          first.prototypes.contains target = true ∨ layers.FilledWithin (room + 1) target :=
        fun _ _ _ _ _ composed known =>
          (ih composed known).imp_right fun filled => filled.mono (Nat.le_succ room)
      rw [composeAt, bind_eq_ok] at composed
      obtain ⟨spec, _, composed⟩ := composed
      cases shared : layers.sharedSource spec place inPrototype with
      | none =>
          simp only [shared] at composed
          obtain ⟨origins, _, composed⟩ := bind_eq_ok.mp composed
          have earlier := filledWithin_of_eachChild (below inPrototype) composed known
          exact earlier
      | some prototype =>
          simp only [shared] at composed
          split at composed
          next =>
            cases composed
            exact Or.inl known
          next =>
            simp only [bind_eq_ok] at composed
            obtain ⟨_, _, root, next, origins, found, middle, composed, finished⟩ := composed
            cases finished
            obtain ⟨name, named⟩ := nextPrototype_ok first
            cases next.symm.trans named
            rcases filledWithin_of_eachChild (below true) composed known with started | filled
            · rcases OrderedMap.contains_insert.mp started with rfl | earlier
              · exact Or.inr ⟨room, name, _, middle, Nat.lt_succ_self room,
                  bind_eq_ok.mpr ⟨origins, found, composed⟩⟩
              · exact Or.inl earlier
            · exact Or.inr filled

theorem filledWithin_of_composition (composed : layers.composition = .ok last) {target : Path}
    (known : last.prototypes.contains target = true) :
    layers.FilledWithin (nestingLimit + 1) target := by
  have founded := filledWithin_of_foldlM
    (fun _ _ _ composed known => filledWithin_of_composeAt composed known) composed known
  refine founded.resolve_left fun impossible => ?_
  cases impossible

theorem levels_of_shared (admissible : layers.specs.Admissible)
    (composed : layers.composition = .ok last) (walked : layers.Walked position) {target : Path}
    (shared : layers.sharedAt position = some target)
    (walks : (rest.foldlM layers.step position).isSome = true)
    (plain : layers.prototypesAlong position rest = [target]) : rest.length ≤ nestingLimit := by
  have rules := followsRules_of_composition admissible composed
  obtain ⟨_, _, _, stands⟩ := walked.stands rules
  have known := (rules.prototypes target).mpr ⟨_, stands.placed, stands.shares_iff.mp shared⟩
  obtain ⟨fewer, root, start, finish, less, filled⟩ := filledWithin_of_composition composed known
  cases rest with
  | nil => exact Nat.zero_le _
  | cons name rest =>
      obtain ⟨next, stepped, further⟩ := steps_cons.mp walks
      rw [prototypesAlong_step rest stepped, shared, Option.toList_some, List.singleton_append,
        List.cons_inj_right] at plain
      obtain ⟨origin, child, rfl⟩ := step_eq_some.mp stepped
      rw [entered_of_shared shared] at child plain further
      obtain ⟨_, _, composed⟩ := @composed_child _ _ [root] _ _ _ _ _ _ filled child
      obtain ⟨origins, found, member, _⟩ := childNamed_eq_some.mp child
      have inside : Position.At ⟨position.names ++ [name], origin, true⟩
          (.absolute ([root] ++ [name])) := ⟨_, rfl, nofun⟩
      have fewer := levels_of_composeAt inside (authored_of_mem_childOrigins found member) composed
        further plain
      rw [List.length_cons]
      omega

/-- Where a walk can stand, no more levels of plain prims follow than the limit allows, from the
prim there or else from the prototype it shares. -/
theorem levels_of_composition (admissible : layers.specs.Admissible)
    (composed : layers.composition = .ok last) (walked : layers.Walked position)
    (walks : (rest.foldlM layers.step position).isSome = true)
    (plain : layers.prototypesAlong position rest = (layers.sharedAt position).toList) :
    rest.length ≤ nestingLimit := by
  induction walked generalizing rest with
  | @root first authored =>
      cases shared : layers.sharedAt ⟨[first], .absolute [first], false⟩ with
      | some target =>
          rw [shared] at plain
          exact levels_of_shared admissible composed (Walked.root authored) shared walks plain
      | none =>
          obtain ⟨start, finish, rooted⟩ :=
            foldlM_eq_ok_step composed (mem_rootPrims.mpr ⟨authored, rfl⟩)
          have located : Position.At ⟨[first], .absolute [first], false⟩ (.absolute [first]) :=
            ⟨[first], rfl, fun _ => rfl⟩
          rw [shared] at plain
          have fewer := levels_of_composeAt located authored rooted walks plain
          omega
  | @step position name next walked stepped ih =>
      cases shared : layers.sharedAt next with
      | some target =>
          rw [shared] at plain
          exact levels_of_shared admissible composed (walked.step stepped) shared walks plain
      | none =>
          rw [shared] at plain
          have along := prototypesAlong_step rest stepped
          rw [plain, Option.toList_none, List.append_nil] at along
          have longer := ih (steps_cons.mpr ⟨next, stepped, walks⟩) along
          rw [List.length_cons] at longer
          omega

theorem not_overgrown_of_composition (admissible : layers.specs.Admissible)
    (composed : layers.composition = .ok last) : ¬layers.Overgrown := by
  rintro ⟨position, rest, walked, long, walks, plain⟩
  have levels := levels_of_composition admissible composed walked walks plain
  omega

/-! Prims composed inside themselves. -/

theorem sharedAt_congr {left right : Position}
    (unsaid : layers.overrides = ∅ ∨ left.crossed = true) (source : right.source = left.source)
    (crossed : right.crossed = left.crossed) :
    layers.sharedAt right = layers.sharedAt left := by
  rw [sharedAt, sharedAt, source, crossed]
  rcases unsaid with nothing | inside
  · rw [nothing]
    rfl
  · rw [inside]
    rfl

theorem steps_congr {left right last : Position}
    (unsaid : layers.overrides = ∅ ∨ left.crossed = true) (source : right.source = left.source)
    (crossed : right.crossed = left.crossed)
    (found : rest.foldlM layers.step left = some last)
    (plain : layers.prototypesAlong left rest = []) :
    last.crossed = left.crossed ∧ ∃ other, rest.foldlM layers.step right = some other ∧
      layers.prototypesAlong right rest = [] := by
  induction rest generalizing left right with
  | nil =>
      cases found
      exact ⟨rfl, right, rfl, rfl⟩
  | cons name rest ih =>
      rw [List.foldlM_cons] at found
      obtain ⟨next, stepped, found⟩ := Option.bind_eq_some_iff.mp found
      rw [prototypesAlong_step rest stepped, List.append_eq_nil_iff] at plain
      have unshared : layers.sharedAt left = none := by simpa using plain.1
      have rightUnshared := (sharedAt_congr unsaid source crossed).trans unshared
      obtain ⟨origin, child, rfl⟩ := step_eq_some.mp stepped
      rw [entered_of_unshared unshared, ← source] at child
      have rightStepped : layers.step right name =
          some ⟨right.names ++ [name], origin, right.crossed⟩ := by
        refine step_eq_some.mpr ⟨origin, ?_, ?_⟩ <;> rw [entered_of_unshared rightUnshared]
        exact child
      rw [entered_of_unshared unshared] at found plain
      obtain ⟨same, other, rightFound, rightPlain⟩ :=
        @ih ⟨left.names ++ [name], origin, left.crossed⟩
          ⟨right.names ++ [name], origin, right.crossed⟩ unsaid rfl crossed found plain.2
      refine ⟨same, other, ?_, ?_⟩
      · rw [List.foldlM_cons, rightStepped]
        exact rightFound
      · rw [prototypesAlong_step rest rightStepped, rightUnshared, rightPlain]
        rfl

theorem steps_repeated (unsaid : layers.overrides = ∅ ∨ position.crossed = true)
    (found : rest.foldlM layers.step position = some next) (again : next.source = position.source)
    (plain : layers.prototypesAlong position rest = []) (count : Nat) :
    ∃ other, (List.replicate count rest).flatten.foldlM layers.step position = some other ∧
      layers.prototypesAlong position (List.replicate count rest).flatten = [] := by
  induction count with
  | zero => exact ⟨position, rfl, rfl⟩
  | succ count ih =>
      obtain ⟨other, further, furtherPlain⟩ := ih
      obtain ⟨crossed, _⟩ := steps_congr unsaid rfl rfl found plain
      obtain ⟨_, last, repeated, repeatedPlain⟩ :=
        steps_congr unsaid again crossed further furtherPlain
      rw [List.replicate_succ, List.flatten_cons]
      refine ⟨last, ?_, ?_⟩
      · rw [List.foldlM_append, found]
        exact repeated
      · rw [prototypesAlong_append, found, plain]
        exact repeatedPlain

theorem overgrown_of_repeated (unsaid : layers.overrides = ∅ ∨ position.crossed = true)
    (walked : layers.Walked position) (named : rest ≠ [])
    (found : rest.foldlM layers.step position = some next) (again : next.source = position.source)
    (plain : layers.prototypesAlong position rest = []) : layers.Overgrown := by
  obtain ⟨last, repeated, repeatedPlain⟩ :=
    steps_repeated unsaid found again plain (nestingLimit + 1)
  obtain ⟨name, others, rfl⟩ := List.exists_cons_of_ne_nil named
  refine ⟨position, _, walked, ?_, by rw [repeated]; rfl, ?_⟩
  · rw [List.length_flatten, List.map_replicate, List.sum_replicate_nat, List.length_cons]
    exact Nat.le_mul_of_pos_right _ (Nat.succ_pos _)
  · obtain ⟨_, stepped, _⟩ := steps_cons.mp (by rw [found]; rfl)
    rw [prototypesAlong_step others stepped, List.append_eq_nil_iff] at plain
    rw [repeatedPlain, plain.1]

end SceneGraph.Layers
