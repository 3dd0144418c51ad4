import SceneGraph.Proofs.Scene.Authored

/-!
The specs that a definition is completed to: its own, and plain ones for prims above them that it
leaves out, in whatever order its prims are authored.
-/

namespace SceneGraph

def Definition.isAbove (definition : Definition) (path : Path) : Bool :=
  path.isPrimPath && definition.prims.keys.any fun key => key.ancestors.contains path

namespace SpecMap

variable {specs later : SpecMap} {path other : Path}

theorem get?_foldl_insertIfAbsent_eq (specs : SpecMap) (added : List Path) (path : Path) :
    (added.foldl (fun specs prim => specs.insertIfAbsent prim {}) specs).get? path =
      (specs.get? path).or (if path ∈ added then some {} else none) := by
  induction added generalizing specs with
  | nil => simp
  | cons prim rest ih =>
      rw [List.foldl_cons, ih, OrderedMap.get?_insertIfAbsent]
      by_cases same : path = prim
      · subst same
        rw [if_pos Std.ReflOrd.compare_self]
        cases specs.get? path <;> simp
      · rw [if_neg fun equal => same (Std.LawfulEqOrd.eq_of_compare equal)]
        simp [same]

theorem author_eq (specs : SpecMap) (prim : path.isAbsolutePrimPath = true)
    (unreserved : path.isReserved = false) : specs.author path =
      .ok ((path :: path.ancestors.filter Path.isPrimPath).foldl
        (fun specs prim => specs.insertIfAbsent prim {}) specs) := by
  rw [author, if_neg (by simp [prim]), if_neg (by simp [unreserved])]

theorem get?_of_amend {change : PrimSpec → PrimSpec} (amended : specs.amend path change = .ok later)
    (other : Path) : later.get? other =
      if other = path then some (change ((specs.get? path).getD {}))
      else (specs.get? other).or
        (if other ∈ path.ancestors ∧ other.isPrimPath = true then some {} else none) := by
  rw [amend, bind_eq_ok] at amended
  obtain ⟨middle, authored, changed⟩ := amended
  cases changed
  obtain ⟨prim, unreserved, _⟩ := author_eq_ok authored
  rw [author_eq specs prim unreserved] at authored
  cases authored
  by_cases same : other = path
  · subst same
    rw [OrderedMap.get?_insert_self, if_pos rfl, get?_foldl_insertIfAbsent_eq]
    cases specs.get? other <;> simp
  · rw [OrderedMap.get?_insert_of_ne _ _ same, if_neg same, get?_foldl_insertIfAbsent_eq]
    simp [same]

theorem added_or_added (held : Option PrimSpec) (here : Prop) [Decidable here] (further : Bool) :
    (held.or (if here then some {} else none)).or (if further then some {} else none) =
      held.or (if decide here || further then some {} else none) := by
  by_cases above : here <;> cases held <;> cases further <;> simp [above]

theorem get?_of_foldlM {entries : List (Path × PrimSpec)}
    (distinct : entries.Pairwise fun left right => left.1 ≠ right.1)
    (loaded : entries.foldlM (fun specs entry => specs.amend entry.1 fun _ => entry.2) specs =
      .ok later) (path : Path) :
    later.get? path = (OrderedMap.find path entries).or ((specs.get? path).or
      (if path.isPrimPath && entries.any (fun entry => entry.1.ancestors.contains path)
        then some {} else none)) := by
  induction entries generalizing specs with
  | nil =>
      cases loaded
      simp [OrderedMap.find]
  | cons entry rest ih =>
      obtain ⟨key, spec⟩ := entry
      rw [List.foldlM_cons, bind_eq_ok] at loaded
      obtain ⟨middle, amended, loadedRest⟩ := loaded
      obtain ⟨fresh, others⟩ := List.pairwise_cons.mp distinct
      rw [ih others loadedRest, get?_of_amend amended, OrderedMap.find]
      by_cases same : path = key
      · subst same
        rw [OrderedMap.find_of_fresh fresh, if_pos rfl, if_pos Std.ReflOrd.compare_self]
        rfl
      · rw [if_neg same, if_neg fun equal => same (Std.LawfulEqOrd.eq_of_compare equal)]
        have here : (path.isPrimPath && key.ancestors.contains path) =
            decide (path ∈ key.ancestors ∧ path.isPrimPath = true) := by
          simp [Bool.and_comm]
        rw [added_or_added, List.any_cons, Bool.and_or_distrib_left, here]

theorem get?_of_ofDefinition {definition : Definition}
    (loaded : ofDefinition definition = .ok specs) (path : Path) : specs.get? path =
      (definition.prims.get? path).or (if definition.isAbove path then some {} else none) := by
  rw [get?_of_foldlM (OrderedMap.distinct_of_ascending definition.prims.ascending) loaded,
    OrderedMap.get?_empty, Option.none_or, Definition.isAbove, OrderedMap.keys, List.any_map]
  rfl

theorem foldlM_amend_ok {entries : List (Path × PrimSpec)} (specs : SpecMap)
    (admissible : ∀ entry ∈ entries,
      entry.1.isAbsolutePrimPath = true ∧ entry.1.isReserved = false) : ∃ later,
      entries.foldlM (fun specs entry => specs.amend entry.1 fun _ => entry.2) specs =
        .ok later := by
  induction entries generalizing specs with
  | nil => exact ⟨specs, rfl⟩
  | cons entry rest ih =>
      obtain ⟨prim, unreserved⟩ := admissible entry (by simp)
      obtain ⟨later, loaded⟩ := ih _ fun entry member => admissible entry (by simp [member])
      exact ⟨later, by rw [List.foldlM_cons, amend, author_eq specs prim unreserved]; exact loaded⟩

theorem ofDefinition_ok_iff {definition : Definition} :
    (∃ specs, ofDefinition definition = .ok specs) ↔ definition.prims.Admissible := by
  constructor
  · rintro ⟨specs, loaded⟩ path present
    obtain ⟨spec, found⟩ := OrderedMap.contains_iff.mp present
    have kept : specs.get? path = some spec := by
      rw [get?_of_ofDefinition loaded, found]
      rfl
    exact (tree_ofDefinition loaded).admissible path (OrderedMap.contains_iff.mpr ⟨spec, kept⟩)
  · intro admissible
    refine foldlM_amend_ok ∅ fun entry member => admissible entry.1 ?_
    exact OrderedMap.contains_iff.mpr
      ⟨entry.2, (OrderedMap.get?_eq_some_iff definition.prims entry.1 entry.2).mpr member⟩

end SpecMap

end SceneGraph
