import SceneGraph.OrderedMap

/-!
Ordered maps through their look-ups: what an operation does to every look-up, and that the look-ups
decide which map it is.
-/

namespace SceneGraph.OrderedMap

variable {κ α : Type} [Ord κ]

@[simp] theorem get?_empty (key : κ) : (∅ : OrderedMap κ α).get? key = none := rfl

theorem mem_of_find [Std.LawfulEqOrd κ] {key : κ} {value : α} {entries : List (κ × α)}
    (found : find key entries = some value) : (key, value) ∈ entries := by
  induction entries with
  | nil => simp [find] at found
  | cons entry rest ih =>
      obtain ⟨other, held⟩ := entry
      rw [find] at found
      split at found
      next same =>
        rw [Std.LawfulEqOrd.eq_of_compare same]
        simp_all
      next => exact List.mem_cons_of_mem _ (ih found)

theorem find_eq_some_of_mem [Std.TransOrd κ] {key : κ} {value : α} {entries : List (κ × α)}
    (ascending : entries.Pairwise fun left right => compare left.1 right.1 = .lt)
    (member : (key, value) ∈ entries) : find key entries = some value := by
  induction entries with
  | nil => simp at member
  | cons entry rest ih =>
      obtain ⟨other, held⟩ := entry
      have parts := List.pairwise_cons.mp ascending
      rw [find]
      rcases List.mem_cons.mp member with first | later
      · cases first
        simp [Std.ReflCmp.compare_self]
      · have above : compare other key = .lt := parts.1 _ later
        have different : compare key other ≠ .eq := by
          rw [Std.OrientedOrd.eq_swap, above]
          decide
        rw [if_neg different]
        exact ih parts.2 later

theorem get?_eq_some_iff [Std.TransOrd κ] [Std.LawfulEqOrd κ] (map : OrderedMap κ α) (key : κ)
    (value : α) : map.get? key = some value ↔ (key, value) ∈ map.entries :=
  ⟨mem_of_find, find_eq_some_of_mem map.ascending⟩

theorem find_place [Std.TransOrd κ] (key : κ) (value : α) (entries : List (κ × α)) (query : κ) :
    find query (place key value entries) =
      if compare query key = .eq then some value else find query entries := by
  induction entries with
  | nil => simp [place, find]
  | cons entry rest ih =>
      obtain ⟨other, held⟩ := entry
      rw [place]
      split
      next => simp [find]
      next same =>
        have agree : compare query key = compare query other :=
          Std.TransCmp.congr_right same
        simp only [find, agree]
        split <;> rfl
      next above =>
        simp only [find, ih]
        by_cases here : compare query other = .eq
        · have agree : compare query key = compare other key := Std.TransCmp.congr_left here
          have below : compare other key = .lt := Std.OrientedCmp.lt_of_gt above
          simp [here, agree, below]
        · simp [here]

theorem get?_insert [Std.TransOrd κ] (map : OrderedMap κ α) (key : κ) (value : α) (query : κ) :
    (map.insert key value).get? query =
      if compare query key = .eq then some value else map.get? query :=
  find_place key value map.entries query

theorem get?_insertIfAbsent [Std.TransOrd κ] [Std.LawfulEqOrd κ] (map : OrderedMap κ α) (key : κ)
    (value : α) (query : κ) :
    (map.insertIfAbsent key value).get? query =
      if compare query key = .eq then some ((map.get? key).getD value) else map.get? query := by
  rw [insertIfAbsent]
  split
  next present =>
    obtain ⟨held, found⟩ := Option.isSome_iff_exists.mp present
    split
    next same => rw [Std.LawfulEqOrd.eq_of_compare same, found, Option.getD_some]
    next => rfl
  next absent =>
    have missing : map.get? key = none := by simpa [contains] using absent
    rw [get?_insert, missing, Option.getD_none]

theorem eq_of_ascending [Std.TransOrd κ] [Std.LawfulEqOrd κ] {β : Type} (key : β → κ)
    {left right : List β}
    (leftAscending : left.Pairwise fun first second => compare (key first) (key second) = .lt)
    (rightAscending : right.Pairwise fun first second => compare (key first) (key second) = .lt)
    (members : ∀ entry, entry ∈ left ↔ entry ∈ right) : left = right := by
  have distinct {entries : List β}
      (ascending : entries.Pairwise fun first second => compare (key first) (key second) = .lt) :
      entries.Nodup :=
    ascending.imp fun below equal => by
      rw [equal, Std.ReflOrd.compare_self] at below
      exact absurd below (by decide)
  have permuted :=
    (List.perm_ext_iff_of_nodup (distinct leftAscending) (distinct rightAscending)).mpr members
  exact permuted.eq_of_pairwise
    (fun first second _ _ below above => by
      rw [Std.OrientedOrd.eq_swap, above] at below
      exact absurd below (by decide))
    leftAscending rightAscending

theorem ext_get? [Std.TransOrd κ] [Std.LawfulEqOrd κ] {left right : OrderedMap κ α}
    (same : ∀ key, left.get? key = right.get? key) : left = right := by
  have members : ∀ entry, entry ∈ left.entries ↔ entry ∈ right.entries := by
    rintro ⟨key, value⟩
    rw [← get?_eq_some_iff, ← get?_eq_some_iff, same]
  have equal : left.entries = right.entries :=
    eq_of_ascending Prod.fst left.ascending right.ascending members
  cases left; cases right; cases equal; rfl

end SceneGraph.OrderedMap
