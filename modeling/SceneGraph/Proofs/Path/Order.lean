import SceneGraph.Proofs.Path.Ancestors

/-!
What is within a path, in path order. It starts with the path itself and follows without a gap.
-/

namespace SceneGraph

section

variable {α : Type}

theorem isLE_of_begins [Ord α] [Std.ReflOrd α] {base entries : List α}
    (begins : base <+: entries) : (compare base entries).isLE = true := by
  induction base generalizing entries with
  | nil => cases entries <;> rfl
  | cons first base ih =>
      obtain ⟨rest, rfl⟩ := begins
      rw [List.cons_append, List.compare_cons_cons, Std.ReflOrd.compare_self, Ordering.eq_then]
      exact ih (List.prefix_append _ _)

theorem prefix_of_between [Ord α] [Std.OrientedOrd α] [Std.LawfulEqOrd α]
    {base between last : List α} (low : (compare base between).isLE = true)
    (high : (compare between last).isLE = true) (begins : base <+: last) : base <+: between := by
  induction base generalizing between last with
  | nil => exact List.nil_prefix
  | cons first base ih =>
      obtain ⟨rest, rfl⟩ := begins
      cases between with
      | nil => cases low
      | cons second between =>
          rw [List.cons_append] at high
          rw [List.compare_cons_cons, Ordering.isLE_then_iff_and] at low high
          obtain rfl := Std.LawfulEqOrd.eq_of_compare (Std.OrientedCmp.isLE_antisymm low.1 high.1)
          rw [Std.ReflOrd.compare_self] at low high
          have further : base <+: between :=
            ih (low.2.resolve_left nofun) (high.2.resolve_left nofun) (List.prefix_append _ _)
          exact List.cons_prefix_cons.mpr ⟨rfl, further⟩

theorem takeWhile_eq_filter {wanted : α → Bool} {entries : List α}
    (gapless : entries.Pairwise fun earlier later => wanted later = true → wanted earlier = true) :
    entries.takeWhile wanted = entries.filter wanted := by
  induction entries with
  | nil => rfl
  | cons entry rest ih =>
      obtain ⟨before, others⟩ := List.pairwise_cons.mp gapless
      cases here : wanted entry with
      | true => rw [List.takeWhile_cons_of_pos here, List.filter_cons_of_pos here, ih others]
      | false =>
          have none : rest.filter wanted = [] :=
            List.filter_eq_nil_iff.mpr fun other member found => by
              rw [before other member found] at here
              cases here
          rw [List.takeWhile_cons_of_neg (by simp [here]), List.filter_cons_of_neg (by simp [here]),
            none]

end

namespace Path

variable {path base between above : Path} {paths : List Path}

theorem compare_eq_then (left right : Path) :
    compare left right = (compare left.anchor right.anchor).then
      ((compare left.elements right.elements).then (compare left.property right.property)) := rfl

theorem compare_absolute (left right : List Name) :
    compare (absolute left) (absolute right) = compare left right :=
  show (Ordering.eq.then ((compare left right).then .eq)) = _ by
    simp

theorem compare_cons (first second : Name) (left right : List Name) :
    compare (absolute (first :: left)) (absolute (second :: right)) =
      (compare first second).then (compare (absolute left) (absolute right)) := by
  rw [compare_absolute, compare_absolute]
  exact List.compareLex_cons_cons

theorem compare_siblings (names : List Name) (first second : Name) :
    compare (absolute (names ++ [first])) (absolute (names ++ [second])) =
      compare first.text second.text := by
  induction names with
  | nil =>
      rw [List.nil_append, List.nil_append, compare_cons, Std.ReflOrd.compare_self,
        Ordering.then_eq]
      rfl
  | cons name names ih =>
      rw [List.cons_append, List.cons_append, compare_cons, Std.ReflOrd.compare_self,
        Ordering.eq_then, ih]

theorem isLE_of_isWithin (within : path.isWithin base = true) :
    (compare base path).isLE = true := by
  cases owned : base.isPropertyPath with
  | true =>
      rw [(isWithin_of_property_iff owned).mp within, Std.ReflOrd.compare_self]
      rfl
  | false =>
      obtain ⟨_, anchored, elements⟩ := (isWithin_of_bare_iff owned).mp within
      have property : (compare base.property path.property).isLE = true := by
        rw [isPropertyPath, Option.isSome_eq_false_iff, Option.isNone_iff_eq_none] at owned
        rw [owned]
        cases path.property <;> rfl
      rw [compare_eq_then, anchored, Std.ReflOrd.compare_self, Ordering.eq_then,
        Ordering.isLE_then_iff_and]
      exact ⟨isLE_of_begins elements, Or.inr property⟩

theorem isWithin_of_between (within : path.isWithin base = true)
    (low : (compare base between).isLE = true) (high : (compare between path).isLE = true) :
    between.isWithin base = true := by
  cases owned : base.isPropertyPath with
  | true =>
      rw [isWithin_of_property_iff owned] at within ⊢
      rw [← within] at high
      exact Std.LawfulEqOrd.eq_of_compare (Std.OrientedCmp.isLE_antisymm low high)
  | false =>
      rw [isWithin_of_bare_iff owned] at within ⊢
      obtain ⟨located, anchored, elements⟩ := within
      rw [compare_eq_then, Ordering.isLE_then_iff_and] at low high
      have same : base.anchor = between.anchor := by
        rw [anchored] at high
        exact Std.LawfulEqOrd.eq_of_compare (Std.OrientedCmp.isLE_antisymm low.1 high.1)
      rw [same, Std.ReflOrd.compare_self] at low
      rw [anchored, same, Std.ReflOrd.compare_self] at high
      have lower := (Ordering.isLE_then_iff_and.mp (low.2.resolve_left nofun)).1
      have upper := (Ordering.isLE_then_iff_and.mp (high.2.resolve_left nofun)).1
      exact ⟨located, same.symm, prefix_of_between lower upper elements⟩

theorem compare_of_mem_ancestors (higher : above ∈ path.ancestors) :
    compare above path = .lt := by
  obtain ⟨within, other⟩ := mem_ancestors_iff.mp higher
  rcases Ordering.isLE_iff_eq_lt_or_eq_eq.mp (isLE_of_isWithin within) with before | same
  · exact before
  · exact absurd (Std.LawfulEqOrd.eq_of_compare same) other

theorem isWithin_contiguous
    (sorted : paths.Pairwise fun earlier later => (compare earlier later).isLE = true)
    (base : Path) : paths.filter (·.isWithin base) <:+: paths := by
  induction paths with
  | nil => exact List.infix_rfl
  | cons first rest ih =>
      obtain ⟨before, others⟩ := List.pairwise_cons.mp sorted
      cases within : first.isWithin base with
      | true =>
          have gapless : (first :: rest).Pairwise fun earlier later =>
              later.isWithin base = true → earlier.isWithin base = true := by
            refine List.pairwise_cons.mpr ⟨fun _ _ _ => within, ?_⟩
            refine others.imp_of_mem fun member _ order laterWithin => ?_
            exact isWithin_of_between laterWithin
              (Std.TransCmp.isLE_trans (isLE_of_isWithin within) (before _ member)) order
          rw [← takeWhile_eq_filter gapless]
          exact (List.takeWhile_prefix _).isInfix
      | false =>
          rw [List.filter_cons_of_neg (by simp [within])]
          exact List.infix_cons (ih others)

theorem not_mem_ancestors_of_sorted
    (sorted : paths.Pairwise fun earlier later => (compare earlier later).isLE = true) :
    paths.Pairwise fun earlier later => later ∉ earlier.ancestors := by
  refine sorted.imp fun order higher => ?_
  rw [Std.OrientedOrd.eq_swap, compare_of_mem_ancestors higher] at order
  cases order

/-- What is within a path is an interval of the path order that starts with the path. So sorted
paths have it in one piece, and none of them comes before one of its ancestors. -/
theorem isWithin_interval (base : Path) :
    (∀ path, path.isWithin base = true → (compare base path).isLE = true) ∧
    (∀ between path, path.isWithin base = true → (compare base between).isLE = true →
      (compare between path).isLE = true → between.isWithin base = true) ∧
    ∀ paths : List Path,
      paths.Pairwise (fun earlier later => (compare earlier later).isLE = true) →
        paths.filter (·.isWithin base) <:+: paths ∧
          paths.Pairwise fun earlier later => later ∉ earlier.ancestors := by
  refine ⟨fun _ => isLE_of_isWithin, fun _ _ => isWithin_of_between, fun paths sorted => ?_⟩
  exact ⟨isWithin_contiguous sorted base, not_mem_ancestors_of_sorted sorted⟩

theorem isWithin_interval_hall :
    let hall := absolute [⟨"Hall", by decide⟩]
    let sign : Path := ⟨.absolute, hall.elements, some ⟨"sign", by decide⟩, by decide⟩
    let chair := absolute [⟨"Hall", by decide⟩, ⟨"chair", by decide⟩]
    let other := absolute [⟨"Hall_2", by decide⟩]
    let paths := [empty, root, hall, sign, chair, other, here]
    paths.Pairwise (fun earlier later => (compare earlier later).isLE = true) ∧
      paths.filter (·.isWithin hall) = [hall, sign, chair] ∧
      chair.isWithin hall = true ∧ (compare hall chair).isLE = true ∧
      (compare hall sign).isLE = true ∧ (compare sign chair).isLE = true ∧
      sign.isWithin hall = true ∧
      paths.filter (·.isWithin hall) <:+: paths ∧
      paths.Pairwise fun earlier later => later ∉ earlier.ancestors := by
  intro hall sign chair other paths
  have sorted : paths.Pairwise fun earlier later => (compare earlier later).isLE = true := by decide
  have within : chair.isWithin hall = true := by decide
  have low : (compare hall sign).isLE = true := by decide
  have high : (compare sign chair).isLE = true := by decide
  obtain ⟨starts, between, gapless⟩ := isWithin_interval hall
  exact ⟨sorted, by decide, within, starts chair within, low, high,
    between sign chair within low high, gapless paths sorted⟩

end Path

end SceneGraph
