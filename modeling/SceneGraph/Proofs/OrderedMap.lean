import SceneGraph.OrderedMap.Lookup

/-!
Look-ups after an insertion by equality of keys, and the keys and the size of a map.
-/

namespace SceneGraph.OrderedMap

variable {κ α : Type} [Ord κ]

theorem contains_iff {map : OrderedMap κ α} {key : κ} :
    map.contains key = true ↔ ∃ value, map.get? key = some value :=
  Option.isSome_iff_exists

theorem length_keys (map : OrderedMap κ α) : map.keys.length = map.size := List.length_map _

theorem find_of_fresh [Std.LawfulEqOrd κ] {key : κ} {entries : List (κ × α)}
    (fresh : ∀ entry ∈ entries, key ≠ entry.1) : find key entries = none :=
  Option.eq_none_iff_forall_ne_some.mpr fun _ found => fresh _ (mem_of_find found) rfl

theorem distinct_of_ascending [Std.LawfulEqOrd κ] {entries : List (κ × α)}
    (ascending : entries.Pairwise fun left right => compare left.1 right.1 = .lt) :
    entries.Pairwise fun left right => left.1 ≠ right.1 :=
  ascending.imp fun below same => by
    rw [same, Std.ReflOrd.compare_self] at below
    exact absurd below (by decide)

theorem keys_nodup [Std.LawfulEqOrd κ] (map : OrderedMap κ α) : map.keys.Nodup :=
  List.pairwise_map.mpr (distinct_of_ascending map.ascending)

theorem length_place {key : κ} (value : α) {entries : List (κ × α)}
    (absent : find key entries = none) : (place key value entries).length = entries.length + 1 := by
  induction entries with
  | nil => rfl
  | cons entry rest ih =>
      obtain ⟨other, held⟩ := entry
      rw [find] at absent
      split at absent
      next => simp at absent
      next different =>
        rw [place]
        split
        next => rfl
        next same => exact absurd same different
        next => rw [List.length_cons, ih absent, List.length_cons]

variable [Std.TransOrd κ]

theorem size_insert_of_absent {map : OrderedMap κ α} {key : κ} (value : α)
    (absent : map.get? key = none) : (map.insert key value).size = map.size + 1 :=
  length_place value absent

theorem mem_of_mem_foldl_insert {entries : List (κ × α)} {map : OrderedMap κ α} {entry : κ × α}
    (held : entry ∈ (entries.foldl (fun map entry => map.insert entry.1 entry.2) map).entries) :
    entry ∈ entries ∨ entry ∈ map.entries := by
  induction entries generalizing map with
  | nil => exact Or.inr held
  | cons first rest ih =>
      rcases ih held with later | early
      · exact Or.inl (List.mem_cons_of_mem _ later)
      · rcases mem_place early with same | older
        · exact Or.inl (same ▸ List.mem_cons_self)
        · exact Or.inr older

theorem mem_of_mem_ofList {entries : List (κ × α)} {entry : κ × α}
    (held : entry ∈ (ofList entries).entries) : entry ∈ entries :=
  (mem_of_mem_foldl_insert held).resolve_right List.not_mem_nil

variable [Std.LawfulEqOrd κ]

theorem get?_insert_self (map : OrderedMap κ α) (key : κ) (value : α) :
    (map.insert key value).get? key = some value := by
  rw [get?_insert, if_pos Std.ReflOrd.compare_self]

theorem get?_insert_of_ne (map : OrderedMap κ α) {key query : κ} (value : α)
    (different : query ≠ key) : (map.insert key value).get? query = map.get? query := by
  rw [get?_insert, if_neg fun same => different (Std.LawfulEqOrd.eq_of_compare same)]

theorem get?_insert_eq_some {map : OrderedMap κ α} {key query : κ} {value held : α}
    (found : (map.insert key value).get? query = some held) :
    (query = key ∧ held = value) ∨ (query ≠ key ∧ map.get? query = some held) := by
  by_cases same : query = key
  · subst same
    rw [get?_insert_self] at found
    exact Or.inl ⟨rfl, (Option.some.inj found).symm⟩
  · rw [get?_insert_of_ne map value same] at found
    exact Or.inr ⟨same, found⟩

theorem keys_place {key : κ} {value held : α} {entries : List (κ × α)}
    (ascending : entries.Pairwise fun left right => compare left.1 right.1 = .lt)
    (found : find key entries = some held) :
    (place key value entries).map Prod.fst = entries.map Prod.fst := by
  induction entries with
  | nil => cases found
  | cons entry rest ih =>
      obtain ⟨other, first⟩ := entry
      have parts := List.pairwise_cons.mp ascending
      rw [find] at found
      rw [place]
      split
      next below =>
        have later : find key rest = some held := by simpa [below] using found
        have above : compare other key = .lt := parts.1 _ (mem_of_find later)
        rw [Std.OrientedOrd.eq_swap, above] at below
        cases below
      next same => rw [List.map_cons, List.map_cons, Std.LawfulEqOrd.eq_of_compare same]
      next above =>
        have later : find key rest = some held := by simpa [above] using found
        rw [List.map_cons, List.map_cons, ih parts.2 later]

theorem keys_insert_of_contains {map : OrderedMap κ α} {key : κ} (value : α)
    (present : map.contains key = true) : (map.insert key value).keys = map.keys := by
  obtain ⟨_, found⟩ := contains_iff.mp present
  exact keys_place map.ascending found

theorem contains_insert {map : OrderedMap κ α} {key query : κ} {value : α} :
    (map.insert key value).contains query = true ↔ query = key ∨ map.contains query = true := by
  by_cases same : query = key
  · simp [same, contains, get?_insert_self]
  · simp [same, contains, get?_insert_of_ne map value same]

theorem contains_insertIfAbsent {map : OrderedMap κ α} {key query : κ} {value : α} :
    (map.insertIfAbsent key value).contains query = true ↔
      query = key ∨ map.contains query = true := by
  rw [insertIfAbsent]
  split
  next present =>
    constructor
    · exact Or.inr
    · rintro (same | held)
      · exact same ▸ present
      · exact held
  next => exact contains_insert

theorem mem_keys_iff {map : OrderedMap κ α} {key : κ} :
    key ∈ map.keys ↔ map.contains key = true := by
  rw [contains_iff, keys, List.mem_map]
  constructor
  · rintro ⟨⟨other, value⟩, member, rfl⟩
    exact ⟨value, (get?_eq_some_iff map other value).mpr member⟩
  · rintro ⟨value, found⟩
    exact ⟨(key, value), (get?_eq_some_iff map key value).mp found, rfl⟩

theorem contains_congr {left right : OrderedMap κ α} (keys : left.keys = right.keys) (key : κ) :
    left.contains key = right.contains key := by
  rw [Bool.eq_iff_iff, ← mem_keys_iff, ← mem_keys_iff, keys]

theorem ext_keys {left right : OrderedMap κ Unit}
    (same : ∀ key, key ∈ left.keys ↔ key ∈ right.keys) : left = right := by
  have held {map : OrderedMap κ Unit} {key : κ} : map.get? key = some () ↔ key ∈ map.keys := by
    rw [mem_keys_iff, contains_iff]
    exact ⟨fun found => ⟨(), found⟩, fun ⟨_, found⟩ => found⟩
  exact ext_get? fun key => Option.ext fun _ => held.trans ((same key).trans held.symm)

theorem get?_foldl_insert {entries : List (κ × α)}
    (distinct : entries.Pairwise fun left right => left.1 ≠ right.1) (map : OrderedMap κ α)
    (query : κ) :
    (entries.foldl (fun map entry => map.insert entry.1 entry.2) map).get? query =
      (find query entries).or (map.get? query) := by
  induction entries generalizing map with
  | nil => rfl
  | cons entry rest ih =>
      obtain ⟨key, value⟩ := entry
      obtain ⟨fresh, others⟩ := List.pairwise_cons.mp distinct
      rw [List.foldl_cons, ih others, find]
      by_cases same : query = key
      · subst same
        rw [find_of_fresh fresh, get?_insert_self, if_pos Std.ReflOrd.compare_self]
        rfl
      · rw [get?_insert_of_ne map value same,
          if_neg fun equal => same (Std.LawfulEqOrd.eq_of_compare equal)]

theorem get?_ofList {entries : List (κ × α)}
    (distinct : entries.Pairwise fun left right => left.1 ≠ right.1) (query : κ) :
    (ofList entries).get? query = find query entries := by
  rw [ofList, get?_foldl_insert distinct, get?_empty, Option.or_none]

theorem ofList_entries (map : OrderedMap κ α) : ofList map.entries = map :=
  ext_get? fun query => get?_ofList (distinct_of_ascending map.ascending) query

theorem mem_keys_foldl_insert {entries : List (κ × α)} {map : OrderedMap κ α} {key : κ} :
    key ∈ (entries.foldl (fun map entry => map.insert entry.1 entry.2) map).keys ↔
      key ∈ entries.map Prod.fst ∨ key ∈ map.keys := by
  induction entries generalizing map with
  | nil => simp
  | cons entry rest ih =>
      rw [List.foldl_cons, ih, mem_keys_iff, contains_insert, mem_keys_iff, List.map_cons,
        List.mem_cons]
      exact or_left_comm.trans or_assoc.symm

theorem mem_keys_ofList {entries : List (κ × α)} {key : κ} :
    key ∈ (ofList entries).keys ↔ key ∈ entries.map Prod.fst := by
  rw [ofList, mem_keys_foldl_insert]
  exact or_iff_left List.not_mem_nil

theorem get?_ofList_eq_some_iff {entries : List (κ × α)}
    (distinct : entries.Pairwise fun left right => left.1 ≠ right.1) {key : κ} {value : α} :
    (ofList entries).get? key = some value ↔ (key, value) ∈ entries := by
  rw [get?_ofList distinct]
  refine ⟨mem_of_find, fun member => ?_⟩
  induction entries with
  | nil => cases member
  | cons entry rest ih =>
      obtain ⟨fresh, others⟩ := List.pairwise_cons.mp distinct
      rw [find]
      rcases List.mem_cons.mp member with first | later
      · cases first
        rw [if_pos Std.ReflOrd.compare_self]
      · rw [if_neg fun same => fresh _ later (Std.LawfulEqOrd.eq_of_compare same).symm]
        exact ih others later

theorem entries_ofList_perm {entries : List (κ × α)}
    (distinct : entries.Pairwise fun left right => left.1 ≠ right.1) :
    (ofList entries).entries.Perm entries := by
  have entriesOfMap := distinct_of_ascending (ofList entries).ascending
  have nodup {entries : List (κ × α)}
      (distinct : entries.Pairwise fun left right => left.1 ≠ right.1) : entries.Nodup :=
    distinct.imp fun different same => different (congrArg Prod.fst same)
  refine (List.perm_ext_iff_of_nodup (nodup entriesOfMap) (nodup distinct)).mpr ?_
  rintro ⟨key, value⟩
  rw [← get?_eq_some_iff, get?_ofList_eq_some_iff distinct]

theorem ofList_perm {entries others : List (κ × α)} (permuted : entries.Perm others)
    (distinct : entries.Pairwise fun left right => left.1 ≠ right.1) :
    ofList entries = ofList others := by
  have othersDistinct := permuted.pairwise distinct Ne.symm
  refine ext_get? fun key => Option.ext fun value => ?_
  rw [get?_ofList_eq_some_iff distinct, get?_ofList_eq_some_iff othersDistinct,
    permuted.mem_iff]

end SceneGraph.OrderedMap
