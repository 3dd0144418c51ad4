import SceneGraph.Proofs.Path.Ancestors
import SceneGraph.Proofs.Scene.Rules

/-!
Authoring keeps specs a tree: at absolute prim paths outside the namespace of prototypes, and never
one without those above it.
-/

namespace SceneGraph.SpecMap

structure Tree (specs : SpecMap) : Prop where
  admissible : specs.Admissible
  closed : ∀ path, specs.contains path = true → ∀ above ∈ path.ancestors, above.isPrimPath = true →
    specs.contains above = true

theorem tree_empty : Tree ∅ := by
  constructor
  · intro path impossible
    cases impossible
  · intro path impossible
    cases impossible

theorem Tree.of_contains {specs later : SpecMap} (tree : specs.Tree)
    (same : ∀ path, later.contains path = specs.contains path) : later.Tree := by
  constructor
  · intro path authored
    exact tree.admissible path (same path ▸ authored)
  · intro path authored above higher prim
    rw [same] at authored ⊢
    exact tree.closed path authored above higher prim

theorem contains_foldl_insertIfAbsent {specs : SpecMap} {added : List Path} {path : Path} :
    (added.foldl (fun specs prim => specs.insertIfAbsent prim {}) specs).contains path = true ↔
      path ∈ added ∨ specs.contains path = true := by
  induction added generalizing specs with
  | nil => simp
  | cons prim rest ih =>
      rw [List.foldl_cons, ih, OrderedMap.contains_insertIfAbsent, List.mem_cons]
      rw [or_assoc, or_left_comm]

theorem get?_foldl_insertIfAbsent {specs : SpecMap} (added : List Path) {prim : Path}
    {spec : PrimSpec} (found : specs.get? prim = some spec) :
    (added.foldl (fun specs prim => specs.insertIfAbsent prim {}) specs).get? prim = some spec := by
  induction added generalizing specs with
  | nil => exact found
  | cons other rest ih =>
      refine ih ?_
      rw [OrderedMap.get?_insertIfAbsent]
      split
      next same => rw [← Std.LawfulEqOrd.eq_of_compare same, found, Option.getD_some]
      next => exact found

theorem author_eq_ok {specs later : SpecMap} {path : Path}
    (authored : specs.author path = .ok later) :
    path.isAbsolutePrimPath = true ∧ path.isReserved = false ∧
      ∀ other, later.contains other = true ↔
        other = path ∨ (other ∈ path.ancestors ∧ other.isPrimPath = true) ∨
          specs.contains other = true := by
  rw [author] at authored
  split at authored
  next => simp at authored
  next prim =>
    split at authored
    next => simp at authored
    next unreserved =>
      cases authored
      refine ⟨by simpa using prim, by simpa using unreserved, ?_⟩
      intro other
      rw [contains_foldl_insertIfAbsent, List.mem_cons, List.mem_filter, or_assoc]

theorem Tree.author {specs later : SpecMap} {path : Path} (tree : specs.Tree)
    (authored : specs.author path = .ok later) : later.Tree := by
  obtain ⟨prim, unreserved, contains⟩ := author_eq_ok authored
  obtain ⟨names, named, rfl⟩ := Path.isAbsolutePrimPath_iff.mp prim
  have shortened {other : Path} (found : later.contains other = true) :
      (∃ shorter, shorter <+: names ∧ shorter ≠ [] ∧ other = .absolute shorter) ∨
        specs.contains other = true := by
    rcases (contains other).mp found with rfl | ⟨higher, otherPrim⟩ | present
    · exact Or.inl ⟨names, List.prefix_rfl, named, rfl⟩
    · obtain ⟨shorter, within, _, rfl⟩ := Path.mem_ancestors_absolute.mp higher
      exact Or.inl ⟨shorter, within, Path.isPrimPath_absolute.mp otherPrim, rfl⟩
    · exact Or.inr present
  constructor
  · intro other found
    rcases shortened found with ⟨shorter, within, otherNamed, rfl⟩ | present
    · refine ⟨Path.isAbsolutePrimPath_iff.mpr ⟨shorter, otherNamed, rfl⟩, ?_⟩
      rw [← unreserved]
      exact Path.isReserved_of_prefix rfl otherNamed within
    · exact tree.admissible other present
  · intro other found above higher abovePrim
    rcases shortened found with ⟨shorter, within, _, rfl⟩ | present
    · obtain ⟨highest, further, different, rfl⟩ := Path.mem_ancestors_absolute.mp higher
      refine (contains _).mpr (Or.inr (Or.inl ⟨Path.mem_ancestors_absolute.mpr ?_, abovePrim⟩))
      refine ⟨highest, further.trans within, ?_, rfl⟩
      intro same
      exact different (further.eq_of_length_le (same ▸ within.length_le))
    · exact (contains _).mpr (Or.inr (Or.inr (tree.closed other present above higher abovePrim)))

theorem get?_of_author {specs later : SpecMap} {path prim : Path} {spec : PrimSpec}
    (authored : specs.author path = .ok later) (found : specs.get? prim = some spec) :
    later.get? prim = some spec := by
  rw [SpecMap.author] at authored
  split at authored
  next => cases authored
  next =>
    split at authored
    next => cases authored
    next =>
      cases authored
      exact get?_foldl_insertIfAbsent _ found

theorem Tree.amend {specs later : SpecMap} {path : Path} {change : PrimSpec → PrimSpec}
    (tree : specs.Tree) (amended : specs.amend path change = .ok later) : later.Tree := by
  rw [SpecMap.amend, bind_eq_ok] at amended
  obtain ⟨middle, authored, changed⟩ := amended
  cases changed
  have present := ((author_eq_ok authored).2.2 path).mpr (Or.inl rfl)
  refine (tree.author authored).of_contains fun other => Bool.eq_iff_iff.mpr ?_
  rw [OrderedMap.contains_insert, or_iff_right_iff_imp]
  rintro rfl
  exact present

theorem tree_ofDefinition {definition : Definition} {specs : SpecMap}
    (loaded : ofDefinition definition = .ok specs) : specs.Tree := by
  rw [ofDefinition] at loaded
  generalize definition.prims.entries = entries at loaded
  have started := tree_empty
  generalize (∅ : SpecMap) = first at loaded started
  induction entries generalizing first with
  | nil =>
      cases loaded
      exact started
  | cons entry rest ih =>
      rw [List.foldlM_cons, bind_eq_ok] at loaded
      obtain ⟨middle, amended, later⟩ := loaded
      exact ih middle later (started.amend amended)

end SceneGraph.SpecMap
