import SceneGraph.Proofs.Scene.Visits

/-!
No two visits of a composition are at one place. Prototype roots are numbered, so the prims of a
prototype stand apart from all that was composed before its root was placed.
-/

namespace SceneGraph

theorem decimal_injective {left right : Nat} (same : toString left = toString right) :
    left = right := by
  have digits : Nat.toDigits 10 left = Nat.toDigits 10 right := by
    simpa using congrArg String.toList same
  have values := congrArg (Nat.ofDigitChars 10 · 0) digits
  simpa using values

def IsPrototypeRoot (number : Nat) (root : Path) : Prop :=
  ∃ name : Name, name.text = prototypeNameStart ++ toString number ∧ root = .absolute [name]

theorem IsPrototypeRoot.reserved {number : Nat} {root : Path}
    (numbered : IsPrototypeRoot number root) : root.isReserved = true := by
  obtain ⟨name, spelled, rfl⟩ := numbered
  simp [Path.isReserved, Path.isAbsolute, spelled, String.toList_append]

theorem IsPrototypeRoot.number_unique {left right : Nat} {leftRoot rightRoot place : Path}
    (first : IsPrototypeRoot left leftRoot) (second : IsPrototypeRoot right rightRoot)
    (belowFirst : leftRoot.elements <+: place.elements)
    (belowSecond : rightRoot.elements <+: place.elements) : left = right := by
  obtain ⟨name, spelled, rfl⟩ := first
  obtain ⟨other, otherSpelled, rfl⟩ := second
  have heads := List.singleton_prefix_iff_head?_eq_some.mp belowFirst
  have otherHeads := List.singleton_prefix_iff_head?_eq_some.mp belowSecond
  have same : name = other := Option.some.inj (heads.symm.trans otherHeads)
  rw [same, otherSpelled] at spelled
  exact decimal_injective (by simpa using spelled.symm)

theorem nextPrototype_eq_ok {composition : Composition} {root : Path}
    (next : composition.nextPrototype = .ok root) :
    IsPrototypeRoot (composition.prototypes.size + 1) root := by
  rw [Composition.nextPrototype, mapError_eq_ok] at next
  have below : (Path.absolute []).child _ = .ok root := next
  exact Path.child_absolute_eq_ok below

namespace Layers

variable {layers : Layers} {jobs visits : List Placement} {first last : Composition}

theorem size_addPrototype {target : Path} (root : Path)
    (unknown : first.prototypes.get? target = none) :
    (first.addPrototype target root).prototypes.size = first.prototypes.size + 1 :=
  OrderedMap.size_insert_of_absent root unknown

theorem Run.size_le (run : layers.Run jobs first visits last) :
    first.prototypes.size ≤ last.prototypes.size := by
  induction run with
  | done => exact Nat.le_refl _
  | plain _ _ _ _ _ _ ihBelow ihAfter => exact Nat.le_trans ihBelow ihAfter
  | sharing _ _ _ ih => exact ih
  | @prototyping _ _ first _ _ target root _ _ _ _ _ unknown _ _ _ _ _ ihBelow ihAfter =>
      rw [size_addPrototype root unknown] at ihBelow
      exact Nat.le_trans (Nat.le_of_succ_le ihBelow) ihAfter

/-- Prototype roots are numbered from one in the order of their allocation. -/
structure Numbered (composition : Composition) : Prop where
  root : ∀ target root, composition.prototypes.get? target = some root →
    ∃ number, number ≤ composition.prototypes.size ∧ IsPrototypeRoot number root
  distinct : ∀ left right root, composition.prototypes.get? left = some root →
    composition.prototypes.get? right = some root → left = right

theorem numbered_empty : Numbered {} := by
  constructor
  · intro target root impossible
    cases impossible
  · intro left right root impossible
    cases impossible

theorem Numbered.addPrototype {target root : Path} (numbered : Numbered first)
    (unknown : first.prototypes.get? target = none) (next : first.nextPrototype = .ok root) :
    Numbered (first.addPrototype target root) := by
  have number := nextPrototype_eq_ok next
  have fresh {other : Path} : first.prototypes.get? other ≠ some root := by
    intro known
    obtain ⟨lower, bound, rooted⟩ := numbered.root other root known
    have same := rooted.number_unique number List.prefix_rfl List.prefix_rfl
    omega
  constructor
  · intro other otherRoot known
    rw [size_addPrototype root unknown]
    rcases OrderedMap.get?_insert_eq_some known with ⟨rfl, rfl⟩ | ⟨_, earlier⟩
    · exact ⟨_, Nat.le_refl _, number⟩
    · obtain ⟨lower, bound, rooted⟩ := numbered.root other otherRoot earlier
      exact ⟨lower, by omega, rooted⟩
  · intro left right otherRoot leftKnown rightKnown
    rcases OrderedMap.get?_insert_eq_some leftKnown with ⟨rfl, rfl⟩ | ⟨_, leftEarlier⟩
    · rcases OrderedMap.get?_insert_eq_some rightKnown with ⟨rfl, _⟩ | ⟨_, rightEarlier⟩
      · rfl
      · exact absurd rightEarlier fresh
    · rcases OrderedMap.get?_insert_eq_some rightKnown with ⟨rfl, rfl⟩ | ⟨_, rightEarlier⟩
      · exact absurd leftEarlier fresh
      · exact numbered.distinct left right otherRoot leftEarlier rightEarlier

theorem Run.numbered (run : layers.Run jobs first visits last) (numbered : Numbered first) :
    Numbered last := by
  induction run with
  | done => exact numbered
  | plain _ _ _ _ _ _ ihBelow ihAfter =>
      have middle := ihBelow ⟨numbered.root, numbered.distinct⟩
      exact ihAfter ⟨middle.root, middle.distinct⟩
  | sharing _ _ _ ih => exact ih ⟨numbered.root, numbered.distinct⟩
  | prototyping _ unknown next _ _ _ _ ihBelow ihAfter =>
      have middle := ihBelow (numbered.addPrototype unknown next)
      exact ihAfter ⟨middle.root, middle.distinct⟩

def Within (jobs : List Placement) (low high : Nat) (place : Path) : Prop :=
  (∃ job ∈ jobs, job.place.elements <+: place.elements) ∨
    ∃ number root, low < number ∧ number ≤ high ∧ IsPrototypeRoot number root ∧
      root.elements <+: place.elements

theorem Within.mono {fewer more : List Placement} {low high lower higher : Nat} {place : Path}
    (within : Within fewer low high place) (subset : ∀ job ∈ fewer, job ∈ more)
    (below : lower ≤ low) (above : high ≤ higher) : Within more lower higher place := by
  rcases within with ⟨job, member, under⟩ | ⟨number, root, past, upTo, rooted, under⟩
  · exact Or.inl ⟨job, subset job member, under⟩
  · exact Or.inr ⟨number, root, by omega, by omega, rooted, under⟩

theorem ChildPlacements.below {inPrototype : Bool} {place : Path} {origins : List Path}
    {children : List Placement} (laid : ChildPlacements inPrototype place origins children)
    {child : Placement} (member : child ∈ children) :
    ∃ name : Name, name.text = child.source.name ∧
      child.place.elements = place.elements ++ [name] := by
  obtain ⟨_, _, found⟩ := laid.mem member
  obtain ⟨name, spelled, _, elements, _⟩ := Path.child_eq_ok found
  exact ⟨name, spelled, elements⟩

theorem Within.of_children {inPrototype : Bool} {job : Placement} {origins : List Path}
    {children : List Placement} (laid : ChildPlacements inPrototype job.place origins children)
    {low high : Nat} {place : Path} (within : Within children low high place) :
    Within [job] low high place := by
  rcases within with ⟨child, member, under⟩ | outside
  · obtain ⟨name, _, elements⟩ := laid.below member
    rw [elements] at under
    exact Or.inl ⟨job, by simp, (List.prefix_append _ _).trans under⟩
  · exact Or.inr outside

theorem Within.of_prototype {low high : Nat} {root : Path} {origins : List Path}
    {children : List Placement} (rooted : IsPrototypeRoot (low + 1) root)
    (laid : ChildPlacements true root origins children) (bound : low + 1 ≤ high) {place : Path}
    (within : Within children (low + 1) high place) : Within [] low high place := by
  rcases within with ⟨child, member, under⟩ | ⟨number, other, past, upTo, otherRooted, under⟩
  · obtain ⟨name, _, elements⟩ := laid.below member
    rw [elements] at under
    exact Or.inr ⟨low + 1, root, by omega, bound, rooted, (List.prefix_append _ _).trans under⟩
  · exact Or.inr ⟨number, other, by omega, upTo, otherRooted, under⟩

theorem Run.within (run : layers.Run jobs first visits last) :
    ∀ visit ∈ visits, Within jobs first.prototypes.size last.prototypes.size visit.place := by
  induction run with
  | done => simp
  | @plain job jobs first middle last _ _ _ _ _ _ _ laid below after ihBelow ihAfter =>
      have grown := below.size_le
      have grownAfter := after.size_le
      intro visit member
      rcases List.mem_cons.mp member with rfl | member
      · exact Or.inl ⟨visit, by simp, List.prefix_rfl⟩
      rcases List.mem_append.mp member with inside | later
      · exact ((ihBelow visit inside).of_children laid).mono (by simp) (Nat.le_refl _) grownAfter
      · exact (ihAfter visit later).mono (by simp +contextual) grown (Nat.le_refl _)
  | sharing _ _ _ ih =>
      intro visit member
      rcases List.mem_cons.mp member with rfl | later
      · exact Or.inl ⟨visit, by simp, List.prefix_rfl⟩
      · exact (ih visit later).mono (by simp +contextual) (Nat.le_refl _) (Nat.le_refl _)
  | @prototyping job jobs first middle last _ root _ _ _ _ _ unknown next _ laid below after ihBelow
      ihAfter =>
      have size := size_addPrototype root unknown
      have grown := below.size_le
      have grownAfter := after.size_le
      rw [size] at grown ihBelow
      intro visit member
      rcases List.mem_append.mp member with inside | member
      · have under := (ihBelow visit inside).of_prototype (nextPrototype_eq_ok next) laid grown
        exact under.mono (by simp) (Nat.le_refl _) grownAfter
      rcases List.mem_cons.mp member with rfl | later
      · exact Or.inl ⟨visit, by simp, List.prefix_rfl⟩
      · exact (ihAfter visit later).mono (by simp +contextual) (Nat.le_of_succ_le grown)
          (Nat.le_refl _)

/-- Jobs below none of which another one lies, and none below a prototype root still to come. -/
structure Apart (composition : Composition) (jobs : List Placement) : Prop where
  named : ∀ job ∈ jobs, job.place.elements ≠ []
  incomparable : jobs.Pairwise fun left right =>
    ¬left.place.elements <+: right.place.elements ∧ ¬right.place.elements <+: left.place.elements
  roots : ∀ job ∈ jobs, ∀ number root, IsPrototypeRoot number root →
    root.elements <+: job.place.elements → number ≤ composition.prototypes.size

theorem Apart.tail {job : Placement} {later : Composition} (apart : Apart first (job :: jobs))
    (grown : first.prototypes.size ≤ later.prototypes.size) : Apart later jobs where
  named other member := apart.named other (List.mem_cons_of_mem _ member)
  incomparable := (List.pairwise_cons.mp apart.incomparable).2
  roots other member number root rooted under :=
    Nat.le_trans (apart.roots other (List.mem_cons_of_mem _ member) number root rooted under) grown

theorem prefix_of_one_and_longer {name : Name} {names longer : List Name} (named : names ≠ [])
    (one : [name] <+: longer) (under : names <+: longer) : [name] <+: names :=
  List.prefix_of_prefix_length_le one under (List.length_pos_iff.mpr named)

theorem Apart.under_root {job : Placement} (apart : Apart first jobs) (member : job ∈ jobs)
    {number : Nat} {root place : Path} (rooted : IsPrototypeRoot number root)
    (underRoot : root.elements <+: place.elements)
    (underJob : job.place.elements <+: place.elements) : number ≤ first.prototypes.size := by
  obtain ⟨name, _, rfl⟩ := id rooted
  exact apart.roots job member number _ rooted
    (prefix_of_one_and_longer (apart.named job member) underRoot underJob)

theorem Apart.disjoint {job : Placement} {low high : Nat} {place : Path}
    (apart : Apart first (job :: jobs))
    (here : Within [job] first.prototypes.size low place) (later : Within jobs low high place)
    (grown : first.prototypes.size ≤ low) : False := by
  rcases here with ⟨other, member, under⟩ | ⟨number, root, past, upTo, rooted, under⟩
  · obtain rfl := List.mem_singleton.mp member
    rcases later with ⟨next, nextMember, nextUnder⟩ | ⟨number, root, past, upTo, rooted, rootUnder⟩
    · have incomparable := (List.pairwise_cons.mp apart.incomparable).1 next nextMember
      rcases List.prefix_or_prefix_of_prefix under nextUnder with below | above
      · exact incomparable.1 below
      · exact incomparable.2 above
    · have bound := apart.under_root (by simp) rooted rootUnder under
      omega
  · rcases later with ⟨next, nextMember, nextUnder⟩ |
      ⟨other, otherRoot, later, _, otherRooted, below⟩
    · have bound := apart.under_root (List.mem_cons_of_mem _ nextMember) rooted under nextUnder
      omega
    · have same := rooted.number_unique otherRooted under below
      omega

theorem Apart.children {inPrototype : Bool} {place : Path} {origins : List Path}
    {children : List Placement} (laid : ChildPlacements inPrototype place origins children)
    (distinct : origins.Pairwise fun left right => left.name ≠ right.name)
    (named : place.elements ≠ [])
    (roots : ∀ number root, IsPrototypeRoot number root → root.elements <+: place.elements →
      number ≤ first.prototypes.size) : Apart first children := by
  constructor
  · intro child member
    obtain ⟨name, _, elements⟩ := laid.below member
    simp [elements]
  · induction laid with
    | nil => exact List.Pairwise.nil
    | @cons origin child rest children here later ih =>
        obtain ⟨fresh, others⟩ := List.pairwise_cons.mp distinct
        refine List.pairwise_cons.mpr ⟨?_, ih others⟩
        intro other member
        have all : ChildPlacements inPrototype place (origin :: rest) (child :: children) :=
          List.Forall₂.cons here later
        obtain ⟨name, spelled, elements⟩ := all.below (List.mem_cons_self)
        obtain ⟨otherName, otherSpelled, otherElements⟩ :=
          all.below (List.mem_cons_of_mem _ member)
        have different : name ≠ otherName := by
          intro same
          have otherOrigin : other.source ∈ rest := (ChildPlacements.mem later member).2.1
          have sameText := fresh other.source otherOrigin
          rw [← here.2.1, ← spelled, same, otherSpelled] at sameText
          exact sameText rfl
        rw [elements, otherElements]
        constructor
        · intro under
          exact different (by simpa using under.eq_of_length (by simp))
        · intro under
          exact different (by simpa [eq_comm] using under.eq_of_length (by simp))
  · intro child member number root rooted under
    obtain ⟨name, _, elements⟩ := laid.below member
    rw [elements] at under
    obtain ⟨head, _, rfl⟩ := id rooted
    exact roots number _ rooted
      (prefix_of_one_and_longer named under (List.prefix_append _ _))

theorem Apart.not_below_new_root {job : Placement} {high : Nat} (apart : Apart first jobs)
    (member : job ∈ jobs) : ¬Within [] first.prototypes.size high job.place := by
  rintro (⟨other, impossible, _⟩ | ⟨number, root, past, _, rooted, under⟩)
  · simp at impossible
  · have bound := apart.roots job member number root rooted under
    omega

theorem Apart.nodup_append {job : Placement} {here later : List Placement} {low high : Nat}
    (apart : Apart first (job :: jobs)) (grown : first.prototypes.size ≤ low)
    (distinctHere : (here.map Placement.place).Nodup)
    (distinctLater : (later.map Placement.place).Nodup)
    (withinHere : ∀ visit ∈ here, Within [job] first.prototypes.size low visit.place)
    (withinLater : ∀ visit ∈ later, Within jobs low high visit.place) :
    ((here ++ later).map Placement.place).Nodup := by
  rw [List.map_append, List.nodup_append]
  refine ⟨distinctHere, distinctLater, ?_⟩
  intro place hereMember other laterMember same
  obtain ⟨visit, visited, rfl⟩ := List.mem_map.mp hereMember
  obtain ⟨next, nextVisited, rfl⟩ := List.mem_map.mp laterMember
  exact apart.disjoint (withinHere visit visited) (same ▸ withinLater next nextVisited) grown

theorem Run.nodup (run : layers.Run jobs first visits last) (apart : Apart first jobs) :
    (visits.map Placement.place).Nodup := by
  induction run with
  | done => exact List.nodup_nil
  | @plain job jobs first middle last _ children _ _ _ _ found laid below after ihBelow ihAfter =>
      have grown : first.prototypes.size ≤ middle.prototypes.size := below.size_le
      have childrenApart : Apart (first.addPrim job.place none) children :=
        Apart.children laid (childOrigins_distinct found) (apart.named job (by simp))
          (apart.roots job (by simp))
      have distinctBelow := ihBelow childrenApart
      refine apart.nodup_append grown ?_ (ihAfter (apart.tail grown)) ?_ after.within
      · refine List.nodup_cons.mpr ⟨?_, distinctBelow⟩
        intro member
        obtain ⟨visit, visited, same⟩ := List.mem_map.mp member
        rcases below.within visit visited with ⟨child, inside, under⟩ | outside
        · obtain ⟨name, _, elements⟩ := laid.below inside
          rw [same, elements] at under
          exact absurd under.length_le (by simp)
        · rw [same] at outside
          exact apart.not_below_new_root (by simp) (Or.inr outside)
      · intro visit member
        rcases List.mem_cons.mp member with rfl | inside
        · exact Or.inl ⟨visit, by simp, List.prefix_rfl⟩
        · exact (below.within visit inside).of_children laid
  | @sharing job jobs first last _ _ _ _ _ after ih =>
      rw [← List.singleton_append]
      refine apart.nodup_append (Nat.le_refl _) (by simp) (ih (apart.tail (Nat.le_refl _))) ?_
        after.within
      intro visit member
      obtain rfl := List.mem_singleton.mp member
      exact Or.inl ⟨visit, by simp, List.prefix_rfl⟩
  | @prototyping job jobs first middle last target root _ children below _ _ unknown next found laid
      runBelow after ihBelow ihAfter =>
      have size := size_addPrototype root unknown
      have upTo := runBelow.size_le
      rw [size] at upTo
      have grown : first.prototypes.size ≤ middle.prototypes.size := Nat.le_of_succ_le upTo
      have rooted := nextPrototype_eq_ok next
      have childrenApart : Apart (first.addPrototype target root) children := by
        refine Apart.children laid (childOrigins_distinct found) ?_ ?_
        · obtain ⟨name, _, rfl⟩ := rooted
          simp
        · intro number other otherRooted under
          rw [size]
          exact Nat.le_of_eq (otherRooted.number_unique rooted under List.prefix_rfl)
      have underRoot (visit : Placement) (visited : visit ∈ below) :
          Within [] first.prototypes.size middle.prototypes.size visit.place := by
        have within := runBelow.within visit visited
        rw [size] at within
        exact within.of_prototype rooted laid upTo
      rw [List.append_cons]
      refine apart.nodup_append grown ?_ (ihAfter (apart.tail grown)) ?_ after.within
      · rw [List.map_append, List.nodup_append]
        refine ⟨ihBelow childrenApart, by simp, ?_⟩
        intro place belowMember other jobMember same
        obtain ⟨visit, visited, rfl⟩ := List.mem_map.mp belowMember
        obtain rfl := List.mem_singleton.mp jobMember
        exact apart.not_below_new_root (by simp) (same ▸ underRoot visit visited)
      · intro visit member
        rcases List.mem_append.mp member with inside | here
        · exact (underRoot visit inside).mono (by simp) (Nat.le_refl _) (Nat.le_refl _)
        · obtain rfl := List.mem_singleton.mp here
          exact Or.inl ⟨visit, by simp, List.prefix_rfl⟩

end Layers

end SceneGraph
