import Mathlib.Data.List.Chain
import SceneGraph.Proofs.Path.Splice

/-!
Going up from a path. It comes to the parent, the parent's parent and so on up to the scene root or
`here`, and these are the paths other than itself that the path is within.
-/

namespace SceneGraph.Path

variable {path base above : Path}

/-! Parents. -/

theorem parent_of_property (owned : path.isPropertyPath = true) : path.parent = path.owner := by
  rw [parent, if_pos owned]

theorem parent_of_top (bare : path.isPropertyPath = false) (top : path.elements = []) :
    path.parent = empty := by
  rw [parent, if_neg (by simp [bare]), dif_pos top]

theorem parent_of_named (bare : path.isPropertyPath = false) (named : path.elements ≠ []) :
    path.parent.anchor = path.anchor ∧ path.parent.elements = path.elements.dropLast := by
  rw [parent, if_neg (by simp [bare]), dif_neg named]
  exact ⟨rfl, rfl⟩

theorem parent_bare (path : Path) : path.parent.isPropertyPath = false := by
  rw [parent]
  split
  · rfl
  · split <;> rfl

theorem depth_of_bare (bare : path.isPropertyPath = false) : path.depth = path.elements.length := by
  rw [depth, bare]
  rfl

theorem depth_eq_zero_iff : path.depth = 0 ↔ path.elements = [] ∧ path.property = none := by
  cases owned : path.property <;> simp [depth, elementCount, isPropertyPath, owned]

theorem depth_parent (path : Path) : path.parent.depth = path.depth - 1 := by
  rw [depth_of_bare (parent_bare path)]
  cases owned : path.isPropertyPath with
  | true =>
      rw [parent_of_property owned, depth, owned]
      rfl
  | false =>
      rw [depth_of_bare owned]
      by_cases top : path.elements = []
      · rw [parent_of_top owned top, top]
        rfl
      · rw [(parent_of_named owned top).2, List.length_dropLast]

theorem parent_isEmpty_iff : path.parent.isEmpty = true ↔ path.depth = 0 := by
  cases owned : path.isPropertyPath with
  | true =>
      have located : path.parent.isEmpty = false := by
        rw [parent_of_property owned, ← isEmpty_of_isPropertyPath owned]
        rfl
      rw [located, depth, owned]
      simp
  | false =>
      rw [depth_of_bare owned, List.length_eq_zero_iff]
      by_cases top : path.elements = []
      · rw [parent_of_top owned top]
        exact iff_of_true rfl top
      · refine iff_of_false (fun nowhere => top (path.wellFormed.1 ?_).1) top
        rw [← (parent_of_named owned top).1]
        simpa [isEmpty] using nowhere

theorem depth_of_located (located : path.parent.isEmpty = false) :
    path.depth = path.parent.depth + 1 := by
  have parts : path.depth ≠ 0 := fun none => by
    rw [parent_isEmpty_iff.mpr none] at located
    cases located
  rw [depth_parent]
  omega

theorem parent_anchor (path : Path) :
    path.parent.anchor = path.anchor ∨ path.parent.anchor = .empty := by
  rw [parent]
  split
  · exact Or.inl rfl
  · split
    · exact Or.inr rfl
    · exact Or.inl rfl

theorem parent_anchor_of_located (located : path.parent.isEmpty = false) :
    path.parent.anchor = path.anchor := by
  rcases parent_anchor path with same | nowhere
  · exact same
  · simp [isEmpty, nowhere] at located

theorem eq_iff_of_bare (bareBase : base.isPropertyPath = false)
    (bare : path.isPropertyPath = false) :
    base = path ↔ path.anchor = base.anchor ∧ base.elements = path.elements := by
  constructor
  · rintro rfl
    exact ⟨rfl, rfl⟩
  · rintro ⟨anchored, elements⟩
    rw [isPropertyPath, Option.isSome_eq_false_iff, Option.isNone_iff_eq_none] at bareBase bare
    exact Path.ext anchored.symm elements (bareBase.trans bare.symm)

theorem isWithin_iff_parent_of_bare (bareBase : base.isPropertyPath = false) :
    path.isWithin base = true ↔
      path.isEmpty = false ∧ base = path ∨ path.parent.isWithin base = true := by
  rw [isWithin_of_bare_iff bareBase, isWithin_of_bare_iff bareBase]
  cases owned : path.isPropertyPath with
  | true =>
      have other : base ≠ path := by
        rintro rfl
        simp [owned] at bareBase
      rw [parent_of_property owned]
      simp [other, owner]
  | false =>
      have located (anchored : path.anchor = base.anchor) : path.isEmpty = base.isEmpty := by
        rw [isEmpty, isEmpty, anchored]
      rw [eq_iff_of_bare bareBase owned]
      by_cases top : path.elements = []
      · -- The parent is the empty path, and nothing that is a base is above it.
        have nowhere : base.isEmpty = false → empty.anchor ≠ base.anchor := fun placed same => by
          simp [isEmpty, ← same, empty] at placed
        rw [parent_of_top owned top, top, List.prefix_nil]
        grind
      · -- What begins all names of the path begins those of its parent or is all of them.
        obtain ⟨anchored, elements⟩ := parent_of_named owned top
        have split := List.dropLast_concat_getLast top
        rw [anchored, elements, ← split, List.prefix_concat_iff]
        grind

theorem isWithin_iff_parent : path.isWithin base = true ↔
    path.isEmpty = false ∧ base = path ∨ path.parent.isWithin base = true := by
  cases owned : base.isPropertyPath with
  | true =>
      have notAbove : base ≠ path.parent := by
        rintro rfl
        simp [parent_bare] at owned
      rw [isWithin_of_property_iff owned, isWithin_of_property_iff owned]
      constructor
      · rintro rfl
        exact Or.inl ⟨isEmpty_of_isPropertyPath owned, rfl⟩
      · rintro (⟨_, same⟩ | same)
        · exact same
        · exact absurd same notAbove
  | false => exact isWithin_iff_parent_of_bare owned

/-- What holds where there is nothing above, and of a path if of its parent, holds of all paths. -/
@[elab_as_elim] theorem upwards {motive : Path → Prop}
    (top : ∀ path : Path, path.parent.isEmpty = true → motive path)
    (below : ∀ path : Path, path.parent.isEmpty = false → motive path.parent → motive path)
    (path : Path) : motive path := by
  induction deep : path.depth generalizing path with
  | zero => exact top path (parent_isEmpty_iff.mpr deep)
  | succ count ih =>
      have located : path.parent.isEmpty = false := by
        refine Bool.eq_false_iff.mpr fun nowhere => ?_
        rw [parent_isEmpty_iff.mp nowhere] at deep
        cases deep
      rw [depth_of_located located] at deep
      exact below path located (ih path.parent (Nat.succ.inj deep))

/-! Going up. -/

def above? (path : Path) : Option Path :=
  if path.parent.isEmpty then none else some path.parent

/-- The paths that going up gives one after another, from the one that comes next until there is
none left. -/
inductive Climbs : Option Path → List Path → Prop
  | top : Climbs none []
  | up {path : Path} {further : List Path} (rest : Climbs path.above? further) :
      Climbs (some path) (path :: further)

theorem Climbs.unique {next : Option Path} {paths others : List Path} (climbs : Climbs next paths)
    (other : Climbs next others) : paths = others := by
  induction climbs generalizing others with
  | top =>
      cases other
      rfl
  | up _ ih =>
      cases other with
      | up rest => rw [ih rest]

theorem ancestors_of_top (top : path.parent.isEmpty = true) : path.ancestors = [] := by
  rw [ancestors, parent_isEmpty_iff.mp top, nearestAncestors]

theorem ancestors_of_located (located : path.parent.isEmpty = false) :
    path.ancestors = path.parent :: path.parent.ancestors := by
  rw [ancestors, depth_of_located located, nearestAncestors, ancestors]

theorem climbs_ancestors (path : Path) : Climbs path.above? path.ancestors := by
  induction path using upwards with
  | top path top =>
      rw [above?, if_pos top, ancestors_of_top top]
      exact .top
  | below path located ih =>
      rw [above?, if_neg (by simp [located]), ancestors_of_located located]
      exact .up ih

theorem length_nearestAncestors (count : Nat) (path : Path) :
    (nearestAncestors count path).length = count := by
  induction count generalizing path with
  | zero => rfl
  | succ count ih => rw [nearestAncestors, List.length_cons, ih]

theorem length_ancestors (path : Path) : path.ancestors.length = path.depth :=
  length_nearestAncestors path.depth path

theorem depth_lt_of_mem_ancestors (higher : above ∈ path.ancestors) :
    above.depth < path.depth := by
  induction path using upwards with
  | top path top =>
      rw [ancestors_of_top top] at higher
      cases higher
  | below path located ih =>
      rw [depth_of_located located, Nat.lt_succ_iff]
      rw [ancestors_of_located located, List.mem_cons] at higher
      rcases higher with rfl | further
      · exact Nat.le_refl _
      · exact Nat.le_of_lt (ih further)

theorem ancestors_nodup (path : Path) : path.ancestors.Nodup := by
  induction path using upwards with
  | top path top =>
      rw [ancestors_of_top top]
      exact .nil
  | below path located ih =>
      rw [ancestors_of_located located, List.nodup_cons]
      exact ⟨fun higher => Nat.lt_irrefl _ (depth_lt_of_mem_ancestors higher), ih⟩

theorem ancestors_linked (path : Path) :
    (path :: path.ancestors).IsChain fun lower upper => upper = lower.parent := by
  induction path using upwards with
  | top path top =>
      rw [ancestors_of_top top]
      exact .singleton path
  | below path located ih =>
      rw [ancestors_of_located located, List.isChain_cons_cons]
      exact ⟨rfl, ih⟩

theorem isWithin_iff_mem_ancestors : path.isWithin base = true ↔
    path.isEmpty = false ∧ base = path ∨ base ∈ path.ancestors := by
  induction path using upwards with
  | top path top =>
      rw [isWithin_iff_parent, ancestors_of_top top]
      simp [isWithin, top]
  | below path located ih =>
      rw [isWithin_iff_parent, ih, ancestors_of_located located, List.mem_cons]
      simp [located]

theorem mem_ancestors_iff : base ∈ path.ancestors ↔ path.isWithin base = true ∧ base ≠ path := by
  rw [isWithin_iff_mem_ancestors]
  constructor
  · intro higher
    refine ⟨Or.inr higher, ?_⟩
    rintro rfl
    exact Nat.lt_irrefl _ (depth_lt_of_mem_ancestors higher)
  · rintro ⟨⟨_, same⟩ | higher, other⟩
    · exact absurd same other
    · exact higher

theorem anchor_of_mem_ancestors (higher : above ∈ path.ancestors) :
    above.anchor = path.anchor :=
  (located_of_isWithin (mem_ancestors_iff.mp higher).1).2.2.symm

theorem begins_of_mem_ancestors (higher : above ∈ path.ancestors) :
    above.elements <+: path.elements :=
  begins_of_isWithin (mem_ancestors_iff.mp higher).1

theorem bare_of_mem_ancestors (higher : above ∈ path.ancestors) :
    above.isPropertyPath = false := by
  obtain ⟨within, other⟩ := mem_ancestors_iff.mp higher
  exact Bool.eq_false_iff.mpr fun owned => other ((isWithin_of_property_iff owned).mp within)

/-! Ancestors from the scene root. -/

theorem ancestors_absolute_append (names : List Name) (name : Name) :
    (absolute (names ++ [name])).ancestors = absolute names :: (absolute names).ancestors := by
  have above := parent_absolute_append names name
  rw [ancestors_of_located (by rw [above]; rfl), above]

theorem ancestors_of_property (anchored : path.anchor = .absolute)
    (owned : path.isPropertyPath = true) :
    path.ancestors = absolute path.elements :: (absolute path.elements).ancestors := by
  have above : path.parent = absolute path.elements :=
    (parent_of_property owned).trans (Path.ext anchored rfl rfl)
  rw [ancestors_of_located (by rw [above]; rfl), above]

theorem mem_ancestors_absolute {names : List Name} :
    above ∈ (absolute names).ancestors ↔
      ∃ shorter, shorter <+: names ∧ shorter ≠ names ∧ above = absolute shorter := by
  constructor
  · intro higher
    have anchored : above.anchor = .absolute := anchor_of_mem_ancestors higher
    have located : above = absolute above.elements :=
      Path.ext anchored rfl (by simpa [isPropertyPath] using bare_of_mem_ancestors higher)
    refine ⟨above.elements, begins_of_mem_ancestors higher, fun same => ?_, located⟩
    rw [same] at located
    exact (mem_ancestors_iff.mp higher).2 located
  · rintro ⟨shorter, begins, other, rfl⟩
    have different : absolute shorter ≠ absolute names := fun same => other (absolute_inj.mp same)
    exact mem_ancestors_iff.mpr ⟨isWithin_absolute.mpr begins, different⟩

/-! The topmost ancestor. -/

theorem eq_of_topmost (located : path.isEmpty = false) (topmost : path.depth = 0) :
    path = if path.isAbsolute then root else here := by
  obtain ⟨anchor, elements, property, wellFormed⟩ := path
  obtain ⟨unnamed, bare⟩ := depth_eq_zero_iff.mp topmost
  cases anchor with
  | empty => cases located
  | absolute => exact Path.ext rfl unnamed bare
  | relative => exact Path.ext rfl unnamed bare

theorem eq_of_mem_getLast?_ancestors {last : Path} (ends : last ∈ path.ancestors.getLast?) :
    last = if path.isAbsolute then root else here := by
  induction path using upwards with
  | top path top =>
      rw [ancestors_of_top top] at ends
      cases ends
  | below path located ih =>
      have anchored : path.parent.isAbsolute = path.isAbsolute := by
        rw [isAbsolute, isAbsolute, parent_anchor_of_located located]
      rw [ancestors_of_located located, List.getLast?_cons] at ends
      rw [← anchored]
      cases higher : path.parent.ancestors.getLast? with
      | none =>
          obtain rfl : path.parent = last := by simpa [higher] using ends
          rw [List.getLast?_eq_none_iff] at higher
          exact eq_of_topmost located (by rw [← length_ancestors, higher, List.length_nil])
      | some upper =>
          obtain rfl : upper = last := by simpa [higher] using ends
          exact ih higher

/-- The paths that going up from `path` gives: one for each of its parts, none of them twice, each
the parent of the one before it, up to the scene root or `here`. -/
structure Ascent (path : Path) (above : List Path) : Prop where
  climbed : Climbs path.above? above
  count : above.length = path.elementCount + if path.isPropertyPath then 1 else 0
  distinct : above.Nodup
  linked : (path :: above).IsChain fun lower upper => upper = lower.parent
  located : ∀ other ∈ above, other.isEmpty = false
  top : ∀ last ∈ above.getLast?, last = if path.isAbsolute then root else here

/-- A path is within itself and its ancestors and nothing else, and its ancestors are what going up
from it gives. -/
theorem ancestors_exact {path : Path} (located : path.isEmpty = false) :
    (∀ base, path.isWithin base = true ↔ base = path ∨ base ∈ path.ancestors) ∧
      Ascent path path.ancestors ∧
      ∀ above, Climbs path.above? above → above = path.ancestors := by
  refine ⟨fun base => ?_, ?_, fun above climbs => climbs.unique (climbs_ancestors path)⟩
  · simp [isWithin_iff_mem_ancestors, located]
  · exact {
      climbed := climbs_ancestors path
      count := length_ancestors path
      distinct := ancestors_nodup path
      linked := ancestors_linked path
      located := fun other higher => (located_of_isWithin (mem_ancestors_iff.mp higher).1).2.1
      top := fun _ => eq_of_mem_getLast?_ancestors
    }

theorem ancestors_exact_size :
    let chair : Path := ⟨.relative, [⟨"chair", by decide⟩], none, by decide⟩
    let leg : Path := ⟨.relative, [⟨"chair", by decide⟩, ⟨"leg", by decide⟩], none, by decide⟩
    let size : Path := ⟨.relative, leg.elements, some ⟨"size", by decide⟩, by decide⟩
    size.isEmpty = false ∧ size.ancestors = [leg, chair, here] ∧
      (∀ base, size.isWithin base = true ↔ base = size ∨ base ∈ size.ancestors) ∧
      Ascent size size.ancestors ∧ ∀ above, Climbs size.above? above → above = size.ancestors := by
  intro chair leg size
  exact ⟨rfl, by decide, ancestors_exact rfl⟩

end SceneGraph.Path
