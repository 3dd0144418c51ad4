/-!
Finite maps as association lists in strictly ascending key order, so that two maps with the same
look-ups are equal.
-/

namespace SceneGraph

structure OrderedMap (κ : Type) (α : Type) [Ord κ] where
  entries : List (κ × α)
  ascending : entries.Pairwise fun left right => compare left.1 right.1 = .lt

namespace OrderedMap

variable {κ α : Type} [Ord κ]

instance [DecidableEq κ] [DecidableEq α] : DecidableEq (OrderedMap κ α) := fun left right =>
  decidable_of_iff (left.entries = right.entries) (by cases left; cases right; simp)

def empty : OrderedMap κ α := ⟨[], .nil⟩

instance : EmptyCollection (OrderedMap κ α) := ⟨empty⟩

instance : Inhabited (OrderedMap κ α) := ⟨empty⟩

def size (map : OrderedMap κ α) : Nat := map.entries.length

def keys (map : OrderedMap κ α) : List κ := map.entries.map Prod.fst

def find (key : κ) : List (κ × α) → Option α
  | [] => none
  | (other, value) :: rest => if compare key other = .eq then some value else find key rest

def get? (map : OrderedMap κ α) (key : κ) : Option α := find key map.entries

def contains (map : OrderedMap κ α) (key : κ) : Bool := (map.get? key).isSome

def keysFrom (map : OrderedMap κ α) (start : κ) : List κ :=
  map.keys.dropWhile fun key => compare key start = .lt

def place (key : κ) (value : α) : List (κ × α) → List (κ × α)
  | [] => [(key, value)]
  | (other, held) :: rest =>
    match compare key other with
    | .lt => (key, value) :: (other, held) :: rest
    | .eq => (key, value) :: rest
    | .gt => (other, held) :: place key value rest

theorem mem_place {key : κ} {value : α} {entries : List (κ × α)} {entry : κ × α}
    (member : entry ∈ place key value entries) : entry = (key, value) ∨ entry ∈ entries := by
  induction entries with
  | nil => simpa [place] using member
  | cons head rest ih =>
      obtain ⟨other, held⟩ := head
      simp only [place] at member
      split at member
      · simpa using member
      · rcases List.mem_cons.mp member with first | later
        · exact Or.inl first
        · exact Or.inr (by simp [later])
      · rcases List.mem_cons.mp member with first | later
        · exact Or.inr (by simp [first])
        · exact (ih later).imp id (by simp +contextual)

theorem ascending_place [Std.TransOrd κ] (key : κ) (value : α) {entries : List (κ × α)}
    (ascending : entries.Pairwise fun left right => compare left.1 right.1 = .lt) :
    (place key value entries).Pairwise fun left right => compare left.1 right.1 = .lt := by
  induction entries with
  | nil => simp [place]
  | cons head rest ih =>
      obtain ⟨other, held⟩ := head
      have parts := List.pairwise_cons.mp ascending
      simp only [place]
      split <;> rename_i order
      · refine List.pairwise_cons.mpr ⟨?_, ascending⟩
        intro entry member
        rcases List.mem_cons.mp member with first | later
        · simpa [first] using order
        · exact Std.TransCmp.lt_trans order (parts.1 entry later)
      · exact List.pairwise_cons.mpr
          ⟨fun entry member => Std.TransCmp.lt_of_eq_of_lt order (parts.1 entry member), parts.2⟩
      · refine List.pairwise_cons.mpr ⟨?_, ih parts.2⟩
        intro entry member
        rcases mem_place member with first | later
        · simpa [first] using Std.OrientedCmp.lt_of_gt order
        · exact parts.1 entry later

def insert [Std.TransOrd κ] (map : OrderedMap κ α) (key : κ) (value : α) : OrderedMap κ α :=
  ⟨place key value map.entries, ascending_place key value map.ascending⟩

def insertIfAbsent [Std.TransOrd κ] (map : OrderedMap κ α) (key : κ) (value : α) :
    OrderedMap κ α :=
  if map.contains key then map else map.insert key value

/-- Of two entries with one key the later counts. -/
def ofList [Std.TransOrd κ] (entries : List (κ × α)) : OrderedMap κ α :=
  entries.foldl (fun map entry => map.insert entry.1 entry.2) ∅

end OrderedMap

end SceneGraph
