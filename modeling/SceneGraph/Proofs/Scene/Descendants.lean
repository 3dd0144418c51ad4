import SceneGraph.Proofs.Path.Order
import SceneGraph.Proofs.Scene.References

/-!
In path order a prim's descendants follow it without a gap, so the authored prims right below a prim
are all those that lie there.
-/

namespace SceneGraph

namespace Layers

variable {layers : Layers}

theorem keys_ascending (layers : Layers) :
    layers.specs.keys.Pairwise fun left right => compare left right = .lt :=
  List.pairwise_map.mpr layers.specs.ascending

theorem ownChildren_ascending (layers : Layers) (parent : Path) :
    (layers.ownChildren parent).Pairwise fun left right => compare left right = .lt := by
  refine layers.keys_ascending.sublist (List.filter_sublist.trans ?_)
  exact (List.takeWhile_sublist _).trans
    ((List.drop_sublist _ _).trans (List.dropWhile_sublist _))

theorem mem_ownChildren {parent child : Path} (authored : layers.specs.contains parent = true) :
    child ∈ layers.ownChildren parent ↔
      layers.specs.contains child = true ∧ child.isWithin parent = true ∧
        child.elementCount = parent.elementCount + 1 := by
  refine ⟨of_mem_ownChildren, ?_⟩
  rintro ⟨childAuthored, within, count⟩
  obtain ⟨before, after, split⟩ := List.append_of_mem (OrderedMap.mem_keys_iff.mpr authored)
  have ascending := layers.keys_ascending
  rw [split] at ascending
  obtain ⟨_, fromParent, acrossParent⟩ := List.pairwise_append.mp ascending
  obtain ⟨afterParent, later⟩ := List.pairwise_cons.mp fromParent
  have parted : (layers.specs.keysFrom parent).drop 1 = after := by
    have below : ∀ key ∈ before, decide (compare key parent = .lt) = true := fun key member =>
      decide_eq_true (acrossParent key member parent (by simp))
    rw [OrderedMap.keysFrom, split, List.dropWhile_append_of_pos below,
      List.dropWhile_cons_of_neg (by simp [Std.ReflOrd.compare_self])]
    rfl
  have childAfter : child ∈ after := by
    have member := OrderedMap.mem_keys_iff.mpr childAuthored
    rw [split, List.mem_append, List.mem_cons] at member
    rcases member with earlier | rfl | found
    · -- A prim comes before everything below it.
      have order := Path.isLE_of_isWithin within
      rw [Std.OrientedOrd.eq_swap, acrossParent _ earlier _ (by simp)] at order
      cases order
    · simp at count
    · exact found
  have gapless : after.Pairwise fun earlier last =>
      last.isWithin parent = true → earlier.isWithin parent = true :=
    later.imp_of_mem fun {earlier last} member _ order lastWithin =>
      Path.isWithin_of_between lastWithin (by rw [afterParent earlier member]; rfl)
        (by rw [order]; rfl)
  rw [ownChildren, parted, takeWhile_eq_filter gapless, List.mem_filter, List.mem_filter]
  exact ⟨⟨childAfter, within⟩, decide_eq_true count⟩

section

variable (prims : ∀ path, layers.specs.contains path = true → path.isAbsolutePrimPath = true)
  {parent child : Path} (authored : layers.specs.contains parent = true)

include prims authored

theorem mem_ownChildren_iff_parent : child ∈ layers.ownChildren parent ↔
    layers.specs.contains child = true ∧ child.parent = parent := by
  rw [mem_ownChildren authored]
  refine and_congr_right fun childAuthored => ?_
  obtain ⟨base, _, rfl⟩ := Path.isAbsolutePrimPath_iff.mp (prims parent authored)
  obtain ⟨names, last, rfl⟩ := Path.exists_last (prims child childAuthored)
  rw [Path.isWithin_absolute, Path.parent_absolute_append, Path.absolute_inj]
  constructor
  · rintro ⟨within, count⟩
    have long : names.length = base.length := by simpa [Path.elementCount] using count
    have begins := List.prefix_of_prefix_length_le within (List.prefix_append names [last]) long.ge
    exact (begins.eq_of_length long.symm).symm
  · rintro rfl
    exact ⟨List.prefix_append names [last], by simp [Path.elementCount]⟩

theorem ownChildren_names_ascending :
    (layers.ownChildren parent).Pairwise fun left right => compare left.name right.name = .lt := by
  refine (layers.ownChildren_ascending parent).imp_of_mem fun {left right} first second order => ?_
  obtain ⟨leftAuthored, leftParent⟩ := (mem_ownChildren_iff_parent prims authored).mp first
  obtain ⟨rightAuthored, rightParent⟩ := (mem_ownChildren_iff_parent prims authored).mp second
  obtain ⟨names, left, rfl⟩ := Path.exists_last (prims left leftAuthored)
  obtain ⟨others, right, rfl⟩ := Path.exists_last (prims right rightAuthored)
  obtain rfl : others = names := by
    rwa [← leftParent, Path.parent_absolute_append, Path.parent_absolute_append,
      Path.absolute_inj] at rightParent
  rw [Path.name_absolute_append, Path.name_absolute_append, ← Path.compare_siblings others, order]

end

/-- Of the paths that follow an authored prim in path order, those before the first one not within
it have all its children among them. -/
theorem ownChildren_exact
    (prims : ∀ path, layers.specs.contains path = true → path.isAbsolutePrimPath = true)
    {parent : Path} (authored : layers.specs.contains parent = true) :
    layers.ownChildren parent = layers.specs.keys.filter (fun path => path.parent = parent) ∧
      (layers.ownChildren parent).Nodup ∧
      (layers.ownChildren parent).Pairwise fun left right =>
        compare left.name right.name = .lt := by
  have all : layers.ownChildren parent =
      layers.specs.keys.filter (fun path => path.parent = parent) := by
    refine OrderedMap.eq_of_ascending id (layers.ownChildren_ascending parent)
      (layers.keys_ascending.filter _) fun path => ?_
    rw [mem_ownChildren_iff_parent prims authored, List.mem_filter, OrderedMap.mem_keys_iff,
      decide_eq_true_iff]
  refine ⟨all, ?_, ownChildren_names_ascending prims authored⟩
  rw [all]
  exact layers.specs.keys_nodup.filter _

theorem ownChildren_exact_hall :
    let path (names : List Name) : Path := .absolute names
    let hall : Name := ⟨"Hall", by decide⟩
    let annex : Name := ⟨"Hall_2", by decide⟩
    let chair : Name := ⟨"chair", by decide⟩
    let spare : Name := ⟨"chair_2", by decide⟩
    let leg : Name := ⟨"leg", by decide⟩
    let stage : Name := ⟨"stage", by decide⟩
    let paths := [path [annex], path [annex, chair], path [hall], path [hall, chair],
      path [hall, chair, leg], path [hall, spare], path [hall, spare, leg], path [hall, stage]]
    let layers : Layers := { specs := .ofList (paths.map fun path => (path, {})) }
    let children := layers.ownChildren (path [hall])
    (∀ path, layers.specs.contains path = true → path.isAbsolutePrimPath = true) ∧
      layers.specs.contains (path [hall]) = true ∧
      children = [path [hall, chair], path [hall, spare], path [hall, stage]] ∧
      children = layers.specs.keys.filter (fun child => child.parent = path [hall]) ∧
      children.Nodup ∧
      children.Pairwise fun left right => compare left.name right.name = .lt := by
  intro path hall annex chair spare leg stage paths layers children
  have keys : ∀ path ∈ layers.specs.keys, path.isAbsolutePrimPath = true := by decide +kernel
  have prims : ∀ path, layers.specs.contains path = true → path.isAbsolutePrimPath = true :=
    fun path held => keys path (OrderedMap.mem_keys_iff.mpr held)
  have authored : layers.specs.contains (path [hall]) = true := by decide +kernel
  exact ⟨prims, authored, by decide +kernel, ownChildren_exact prims authored⟩

theorem authored_of_mem_referenceChainFrom {room : Nat} {visited chain : List Path} {current : Path}
    (found : layers.referenceChainFrom room visited current = .ok chain) :
    ∀ prim ∈ chain, layers.specs.contains prim = true := by
  induction room generalizing visited chain current with
  | zero =>
      cases found
      simp
  | succ room ih =>
      by_cases again : current ∈ visited
      · rw [referenceChainFrom_again again] at found
        cases found
        simp
      rcases layers.references_cases current with unauthored | ⟨spec, known, ends⟩ | ⟨next, first⟩
      · rw [referenceChainFrom_missing again unauthored] at found
        cases found
      · rw [referenceChainFrom_last again known ends] at found
        cases found
        simpa using OrderedMap.contains_iff.mpr ⟨spec, known⟩
      · rw [referenceChainFrom_next again first] at found
        obtain ⟨rest, further, rfl⟩ := map_eq_ok.mp found
        obtain ⟨spec, known, _⟩ := first
        exact List.forall_mem_cons.mpr ⟨OrderedMap.contains_iff.mpr ⟨spec, known⟩, ih further⟩

theorem nested_of_mem_ownChildren (admissible : layers.specs.Admissible) {parent child : Path}
    (authored : layers.specs.contains parent = true) (member : child ∈ layers.ownChildren parent) :
    1 < child.elementCount := by
  obtain ⟨names, named, rfl⟩ := Path.isAbsolutePrimPath_iff.mp (admissible parent authored).1
  have count : child.elementCount = names.length + 1 := (of_mem_ownChildren member).2.2
  have positive := List.length_pos_iff.mpr named
  omega

theorem nested_of_mem_childOrigins (admissible : layers.specs.Admissible) {source origin : Path}
    {origins : List Path} (found : layers.childOrigins source = .ok origins)
    (member : origin ∈ origins) : 1 < origin.elementCount := by
  obtain ⟨chain, linked, rest⟩ := bind_eq_ok.mp found
  cases rest
  obtain ⟨parent, above, own⟩ := List.mem_flatMap.mp ((firstOfEachName_sublist [] _).subset member)
  have authored := authored_of_mem_referenceChainFrom linked parent above
  exact nested_of_mem_ownChildren admissible authored own

end Layers

end SceneGraph
