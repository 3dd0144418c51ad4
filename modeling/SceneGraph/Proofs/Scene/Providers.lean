import SceneGraph.Proofs.Scene.Children
import SceneGraph.Proofs.Scene.Reachable

/-!
What the children of a prim are composed from. Its references lead through a chain of prims, and of
the prims authored right below those of the chain the first one of each name counts.
-/

namespace SceneGraph

namespace Layers

variable {layers : Layers} {source current last next : Path} {chain before rest other : List Path}

/-- The prims that references lead to from `source`, one after the other. They end where a prim
would come again, where none is referenced, or with a prim that is not authored. -/
structure LeadsThrough (layers : Layers) (source : Path) (chain : List Path) : Prop where
  starts : chain.head? = some source
  linked : chain.IsChain layers.References
  distinct : chain.Nodup
  ends : ∀ last ∈ chain.getLast?, ∀ next, layers.References last next → next ∈ chain

namespace LeadsThrough

theorem goes_on_iff (leads : layers.LeadsThrough source (before ++ last :: rest)) :
    rest.head? = some next ↔ layers.References last next ∧ next ∉ before ++ [last] := by
  have linked := (List.isChain_cons.mp leads.linked.right_of_append).1
  constructor
  · intro first
    refine ⟨linked next first, fun again => ?_⟩
    obtain ⟨later, rfl⟩ := List.head?_eq_some_iff.mp first
    have distinct := leads.distinct
    rw [List.append_cons] at distinct
    exact (List.nodup_append.mp distinct).2.2 next again next List.mem_cons_self rfl
  · rintro ⟨references, fresh⟩
    cases rest with
    | nil => exact absurd (leads.ends last (by simp) next references) fresh
    | cons other later => rw [List.head?_cons, references.unique (linked other rfl)]

theorem rest_unique (before : List Path) {left right : List Path}
    (leads : layers.LeadsThrough source (before ++ last :: left))
    (others : layers.LeadsThrough source (before ++ last :: right)) : left = right := by
  induction left generalizing before last right with
  | nil =>
      cases right with
      | nil => rfl
      | cons next right => cases leads.goes_on_iff.mpr (others.goes_on_iff.mp rfl)
  | cons next left ih =>
      obtain ⟨right, rfl⟩ := List.head?_eq_some_iff.mp
        (others.goes_on_iff.mpr (leads.goes_on_iff.mp rfl))
      rw [List.append_cons] at leads others
      rw [ih _ leads others]

theorem unique (leads : layers.LeadsThrough source chain)
    (others : layers.LeadsThrough source other) : other = chain := by
  obtain ⟨left, rfl⟩ := List.head?_eq_some_iff.mp leads.starts
  obtain ⟨right, rfl⟩ := List.head?_eq_some_iff.mp others.starts
  rw [rest_unique [] leads others]

end LeadsThrough

/-! Following the references. -/

structure OnTheWay (layers : Layers) (source : Path) (before : List Path) (current : Path) :
    Prop where
  starts : (before ++ [current]).head? = some source
  linked : (before ++ [current]).IsChain layers.References
  distinct : before.Nodup

namespace OnTheWay

theorem again (way : layers.OnTheWay source before current) (met : current ∈ before) :
    layers.LeadsThrough source before := by
  obtain ⟨linked, _, leaves⟩ := List.isChain_append.mp way.linked
  refine ⟨?_, linked, way.distinct, fun last ending next references => ?_⟩
  · rw [← way.starts, List.head?_append_of_ne_nil before (List.ne_nil_of_mem met)]
  · rwa [references.unique (leaves last ending current rfl)]

theorem distinct_next (way : layers.OnTheWay source before current) (fresh : current ∉ before) :
    (before ++ [current]).Nodup := by
  refine List.nodup_append.mpr ⟨way.distinct, by simp, ?_⟩
  rintro prim member _ only rfl
  exact fresh (List.mem_singleton.mp only ▸ member)

theorem ended (way : layers.OnTheWay source before current) (fresh : current ∉ before)
    (last : ∀ next, ¬layers.References current next) :
    layers.LeadsThrough source (before ++ [current]) := by
  refine ⟨way.starts, way.linked, way.distinct_next fresh, fun prim ending next references => ?_⟩
  obtain rfl : current = prim := by simpa using ending
  exact absurd references (last next)

theorem advance (way : layers.OnTheWay source before current) (fresh : current ∉ before)
    (references : layers.References current next) :
    layers.OnTheWay source (before ++ [current]) next := by
  refine ⟨?_, List.isChain_append.mpr ⟨way.linked, .singleton next, ?_⟩, way.distinct_next fresh⟩
  · rw [List.head?_append_of_ne_nil _ (by simp), way.starts]
  · simpa using references

end OnTheWay

theorem referenceChainFrom_ended {visited : List Path} (fresh : current ∉ visited)
    (last : ∀ next, ¬layers.References current next) (room : Nat) :
    (layers.specs.contains current = true →
      layers.referenceChainFrom (room + 1) visited current = .ok [current]) ∧
    (layers.specs.contains current = false →
      layers.referenceChainFrom (room + 1) visited current =
        .error (.undefinedReference current)) := by
  rcases layers.references_cases current with missing | ⟨spec, found, ends⟩ | ⟨next, references⟩
  · have unauthored : layers.specs.contains current = false := by
      simp [OrderedMap.contains, missing]
    simp [unauthored, referenceChainFrom_missing fresh missing]
  · have authored := OrderedMap.contains_iff.mpr ⟨spec, found⟩
    simp [authored, referenceChainFrom_last fresh found ends]
  · exact absurd references (last next)

theorem referenceChainFrom_leads {room : Nat} (way : layers.OnTheWay source before current)
    (authored : ∀ prim ∈ before, layers.specs.contains prim = true)
    (enough : layers.specs.size < room + before.length) :
    ∃ chain, layers.LeadsThrough source (before ++ chain) ∧
      ((∀ prim ∈ chain, layers.specs.contains prim = true) →
        layers.referenceChainFrom room before.reverse current = .ok chain) ∧
      ∀ missing ∈ chain, layers.specs.contains missing = false →
        layers.referenceChainFrom room before.reverse current =
          .error (.undefinedReference missing) := by
  induction room generalizing before current with
  | zero =>
      have few := layers.length_le_size way.distinct authored
      omega
  | succ room ih =>
      by_cases met : current ∈ before
      · refine ⟨[], by simpa using way.again met, fun _ => ?_, by simp⟩
        exact referenceChainFrom_again (by simpa using met) _
      have fresh : current ∉ before.reverse := by simpa using met
      by_cases further : ∃ next, layers.References current next
      · obtain ⟨next, references⟩ := further
        have ⟨spec, found, _⟩ := references
        have present := OrderedMap.contains_iff.mpr ⟨spec, found⟩
        obtain ⟨rest, leads, accepted, refused⟩ := ih (way.advance met references)
          (by simpa [or_imp, forall_and] using ⟨authored, present⟩)
          (by rw [List.length_append, List.length_singleton]; omega)
        rw [List.append_assoc] at leads
        rw [List.reverse_append] at accepted refused
        refine ⟨current :: rest, leads, fun all => ?_, fun missing member unauthored => ?_⟩
        · rw [referenceChainFrom_next fresh references]
          exact congrArg (Except.map _) (accepted fun prim member => all prim (by simp [member]))
        · rcases List.mem_cons.mp member with rfl | later
          · simp [present] at unauthored
          · rw [referenceChainFrom_next fresh references]
            exact congrArg (Except.map _) (refused missing later unauthored)
      · have last := not_exists.mp further
        obtain ⟨accepted, refused⟩ := referenceChainFrom_ended fresh last room
        refine ⟨[current], way.ended met last, fun all => accepted (all current (by simp)), ?_⟩
        intro missing member unauthored
        obtain rfl := List.mem_singleton.mp member
        exact refused unauthored

theorem referenceChain_leads (layers : Layers) (source : Path) :
    ∃ chain, layers.LeadsThrough source chain ∧
      ((∀ prim ∈ chain, layers.specs.contains prim = true) →
        layers.referenceChain source = .ok chain) ∧
      ∀ missing ∈ chain, layers.specs.contains missing = false →
        layers.referenceChain source = .error (.undefinedReference missing) := by
  have way : layers.OnTheWay source [] source := ⟨rfl, .singleton source, List.nodup_nil⟩
  exact referenceChainFrom_leads way (by simp) (by simp)

/-! What the prims of a chain provide. -/

def ProvidedAt (layers : Layers) (chain : List Path) (position : Nat) (child : Path) : Prop :=
  layers.specs.contains child = true ∧ chain[position]? = some child.parent

/-- Of two prims that a chain provides, the first is provided by an earlier prim of it, or both by
the same one and the first has the lesser name. -/
def Precedes (layers : Layers) (chain : List Path) (left right : Path) : Prop :=
  ∀ before after, layers.ProvidedAt chain before left → layers.ProvidedAt chain after right →
    before < after ∨ before = after ∧ compare left.name right.name = .lt

/-- Of each name for which a chain provides prims it has the one provided first, and it lists them
in the order of the chain, and below the same prim of it by name. -/
structure FirstProvided (layers : Layers) (chain children : List Path) : Prop where
  first : ∀ child ∈ children, ∃ position, layers.ProvidedAt chain position child ∧
    ∀ other otherPosition, layers.ProvidedAt chain otherPosition other →
      other.name = child.name → position ≤ otherPosition
  complete : ∀ child position, layers.ProvidedAt chain position child →
    ∃ other ∈ children, other.name = child.name
  distinct : (children.map Path.name).Nodup
  listed : children.Pairwise (layers.Precedes chain)

theorem ProvidedAt.unique {child : Path} {position otherPosition : Nat} (distinct : chain.Nodup)
    (here : layers.ProvidedAt chain position child)
    (there : layers.ProvidedAt chain otherPosition child) : position = otherPosition := by
  obtain ⟨bound, _⟩ := List.getElem?_eq_some_iff.mp here.2
  exact (List.getElem?_inj bound distinct).mp (here.2.trans there.2.symm)

theorem Precedes.position_le {left right : Path} {before after : Nat}
    (precedes : layers.Precedes chain left right) (here : layers.ProvidedAt chain before left)
    (there : layers.ProvidedAt chain after right) : before ≤ after := by
  rcases precedes before after here there with less | ⟨equal, _⟩
  · exact less.le
  · exact equal.le

section

variable (prims : ∀ path, layers.specs.contains path = true → path.isAbsolutePrimPath = true)
  (authored : ∀ prim ∈ chain, layers.specs.contains prim = true)

include prims authored

theorem providedAt_iff {parent child : Path} {position : Nat}
    (found : chain[position]? = some parent) :
    layers.ProvidedAt chain position child ↔ child ∈ layers.ownChildren parent := by
  rw [mem_ownChildren_iff_parent prims (authored parent (List.mem_of_getElem? found)), ProvidedAt,
    found, Option.some_inj, eq_comm (a := parent)]

theorem mem_provided (child : Path) : child ∈ chain.flatMap layers.ownChildren ↔
    ∃ position, layers.ProvidedAt chain position child := by
  rw [List.mem_flatMap]
  constructor
  · rintro ⟨parent, member, own⟩
    obtain ⟨position, found⟩ := List.mem_iff_getElem?.mp member
    exact ⟨position, (providedAt_iff prims authored found).mpr own⟩
  · rintro ⟨position, provided⟩
    exact ⟨child.parent, List.mem_of_getElem? provided.2,
      (providedAt_iff prims authored provided.2).mp provided⟩

theorem provided_ordered (distinct : chain.Nodup) :
    (chain.flatMap layers.ownChildren).Pairwise (layers.Precedes chain) := by
  have position {parent child : Path} {place other : Nat} (found : chain[place]? = some parent)
      (own : child ∈ layers.ownChildren parent) (provided : layers.ProvidedAt chain other child) :
      other = place :=
    provided.unique distinct ((providedAt_iff prims authored found).mpr own)
  refine List.pairwise_flatMap.mpr ⟨fun parent member => ?_, ?_⟩
  · obtain ⟨place, found⟩ := List.mem_iff_getElem?.mp member
    refine (ownChildren_names_ascending prims (authored parent member)).imp_of_mem ?_
    intro left right leftOwn rightOwn order before after leftProvided rightProvided
    rw [position found leftOwn leftProvided, position found rightOwn rightProvided]
    exact Or.inr ⟨rfl, order⟩
  · refine List.pairwise_iff_getElem.mpr fun i j iBound jBound order => ?_
    intro left leftOwn right rightOwn before after leftProvided rightProvided
    rw [position (List.getElem?_eq_getElem iBound) leftOwn leftProvided,
      position (List.getElem?_eq_getElem jBound) rightOwn rightProvided]
    exact Or.inl order

theorem firstProvided (distinct : chain.Nodup) :
    layers.FirstProvided chain (firstOfEachName [] (chain.flatMap layers.ownChildren)) := by
  have ordered := provided_ordered prims authored distinct
  have listed := firstOfEachName_sublist [] (chain.flatMap layers.ownChildren)
  have provided := mem_provided prims authored
  constructor
  case first =>
    intro child member
    obtain ⟨position, here⟩ := (provided child).mp (listed.subset member)
    refine ⟨position, here, fun other otherPosition there same => ?_⟩
    obtain ⟨_, before, after, split, unlike⟩ :=
      List.find?_eq_some_iff_append.mp (mem_firstOfEachName.mp member)
    have otherMember := (provided other).mpr ⟨otherPosition, there⟩
    rw [split] at ordered otherMember
    rcases List.mem_append.mp otherMember with early | late
    · simpa [same] using unlike other early
    rcases List.mem_cons.mp late with rfl | later
    · exact (here.unique distinct there).le
    · have precedes := (List.pairwise_cons.mp (List.pairwise_append.mp ordered).2.1).1 other later
      exact precedes.position_le here there
  case complete =>
    intro child position here
    have member := (provided child).mpr ⟨position, here⟩
    cases found : (chain.flatMap layers.ownChildren).find? fun other => other.name = child.name with
    | none => simpa using List.find?_eq_none.mp found child member
    | some other =>
        have same : other.name = child.name := by simpa using List.find?_some found
        exact ⟨other, mem_firstOfEachName.mpr (same ▸ found), same⟩
  case distinct => exact List.pairwise_map.mpr (firstOfEachName_distinct [] _).1
  case listed => exact ordered.sublist listed

end

end Layers

namespace Scene

variable {scene : Scene}

/-- From each prim the references lead through one chain of prims, which may come back to any of
them. Its children are composed exactly if all prims of the chain are authored, and then they are
composed from the first that the chain provides of each name. -/
theorem reachable_childOrigins (reachable : Reachable scene) (source : Path) :
    ∃ chain, scene.layers.LeadsThrough source chain ∧
      (∀ other, scene.layers.LeadsThrough source other → other = chain) ∧
      ((∃ fault, scene.layers.childOrigins source = .error fault ∧ fault.kind = .validation) ↔
        ∃ prim ∈ chain, scene.layers.specs.contains prim = false) ∧
      ((∀ prim ∈ chain, scene.layers.specs.contains prim = true) →
        ∃ children, scene.layers.childOrigins source = .ok children ∧
          scene.layers.FirstProvided chain children) := by
  have prims := fun path held => (reachable.sound.specs.admissible path held).1
  obtain ⟨chain, leads, accepted, refused⟩ := scene.layers.referenceChain_leads source
  refine ⟨chain, leads, fun _ others => leads.unique others, ⟨?_, ?_⟩, fun authored => ?_⟩
  · rintro ⟨fault, failed, _⟩
    by_contra none
    have authored : ∀ prim ∈ chain, scene.layers.specs.contains prim = true := by simpa using none
    rw [Layers.childOrigins, accepted authored] at failed
    cases failed
  · rintro ⟨missing, member, unauthored⟩
    refine ⟨.undefinedReference missing, ?_, rfl⟩
    rw [Layers.childOrigins, refused missing member unauthored]
    rfl
  · refine ⟨_, ?_, Layers.firstProvided prims authored leads.distinct⟩
    rw [Layers.childOrigins, accepted authored]
    rfl

/-- A foyer takes what it lacks from a porch, the porch from a landing, and that from the porch
again. A pantry shares the landing, which hides that its own rack references a missing prim. -/
def borrowing : Definition :=
  let foyer : Name := ⟨"Foyer", by decide⟩
  let porch : Name := ⟨"Porch", by decide⟩
  let landing : Name := ⟨"Landing", by decide⟩
  let pantry : Name := ⟨"Pantry", by decide⟩
  let rack : Name := ⟨"rack", by decide⟩
  let mat : Name := ⟨"mat", by decide⟩
  let mirror : Name := ⟨"mirror", by decide⟩
  let banister : Name := ⟨"banister", by decide⟩
  let taking (name : Name) : PrimSpec := { reference := some (.absolute [name]) }
  ⟨.ofList [(.absolute [foyer], taking porch), (.absolute [foyer, mat], {}),
    (.absolute [porch], taking landing), (.absolute [porch, mat], {}),
    (.absolute [porch, mirror], {}), (.absolute [landing], taking porch),
    (.absolute [landing, mirror], {}), (.absolute [landing, banister], {}),
    (.absolute [pantry], { taking landing with instanceable := true }),
    (.absolute [pantry, rack], taking ⟨"Nowhere", by decide⟩)]⟩

theorem reachable_childOrigins_borrowing :
    let foyer := Path.absolute [⟨"Foyer", by decide⟩]
    let porch := Path.absolute [⟨"Porch", by decide⟩]
    let landing := Path.absolute [⟨"Landing", by decide⟩]
    let rack := Path.absolute [⟨"Pantry", by decide⟩, ⟨"rack", by decide⟩]
    let layers := (load borrowing).state.layers
    let children := [Path.absolute [⟨"Foyer", by decide⟩, ⟨"mat", by decide⟩],
      Path.absolute [⟨"Porch", by decide⟩, ⟨"mirror", by decide⟩],
      Path.absolute [⟨"Landing", by decide⟩, ⟨"banister", by decide⟩]]
    Reachable (load borrowing).state ∧
      layers.LeadsThrough foyer [foyer, porch, landing] ∧ layers.childOrigins foyer = .ok children ∧
      layers.FirstProvided [foyer, porch, landing] children ∧
      ∃ chain, layers.LeadsThrough rack chain ∧
        ∃ prim ∈ chain, layers.specs.contains prim = false := by
  intro foyer porch landing rack layers children
  have reachable : Reachable (load borrowing).state := Reachable.load (by decide +kernel)
  have composed : layers.childOrigins foyer = .ok children := by decide +kernel
  have foyerTakes : layers.References foyer porch :=
    ⟨{ reference := some porch }, by decide +kernel, rfl⟩
  have porchTakes : layers.References porch landing :=
    ⟨{ reference := some landing }, by decide +kernel, rfl⟩
  have landingTakes : layers.References landing porch :=
    ⟨{ reference := some porch }, by decide +kernel, rfl⟩
  have leads : layers.LeadsThrough foyer [foyer, porch, landing] := by
    refine ⟨rfl, .cons_cons foyerTakes (.cons_cons porchTakes (.singleton landing)), by decide, ?_⟩
    intro last ending next references
    obtain rfl : landing = last := Option.some.inj ending
    simp [references.unique landingTakes]
  refine ⟨reachable, leads, composed, ?_, ?_⟩
  · obtain ⟨chain, _, unique, _, provided⟩ := reachable_childOrigins reachable foyer
    obtain rfl := unique _ leads
    obtain ⟨others, same, first⟩ := provided (by decide +kernel)
    cases composed.symm.trans same
    exact first
  · obtain ⟨chain, leads, _, refused, _⟩ := reachable_childOrigins reachable rack
    have failed : layers.childOrigins rack =
        .error (.undefinedReference (.absolute [⟨"Nowhere", by decide⟩])) := by decide +kernel
    exact ⟨chain, leads, refused.mp ⟨_, failed, rfl⟩⟩

end Scene

end SceneGraph
