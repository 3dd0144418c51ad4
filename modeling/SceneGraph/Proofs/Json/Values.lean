import SceneGraph.Json
import SceneGraph.Proofs.OrderedMap

/-!
JSON values by what they hold: the value at the end of a chain of keys, and the form in which the
members of every object stand in key order.
-/

namespace SceneGraph.Json

@[simp] theorem asDictionary?_ofDictionary (dictionary : Dictionary) :
    (ofDictionary dictionary).asDictionary? = some dictionary :=
  congrArg some dictionary.ofList_entries

theorem asString?_eq_some_iff {json : Json} {text : String} :
    json.asString? = some text ↔ json = .string text := by
  cases json <;> simp [asString?]

/-- The value that keys lead to, from one object into the next. -/
def valueAt? : Json → List String → Option Json
  | json, [] => some json
  | json, key :: keys =>
    (json.asDictionary?.bind fun members => members.get? key).bind fun value => value.valueAt? keys

theorem valueAt?_append (json : Json) (keys more : List String) :
    json.valueAt? (keys ++ more) = (json.valueAt? keys).bind fun value => value.valueAt? more := by
  induction keys generalizing json with
  | nil => rfl
  | cons key keys ih => simp only [List.cons_append, valueAt?, ih, Option.bind_assoc]

theorem valueAt?_singleton (json : Json) (key : String) :
    json.valueAt? [key] = json.asDictionary?.bind fun members => members.get? key := by
  simp [valueAt?]

theorem valueAt?_concat (json : Json) (keys : List String) (key : String) :
    json.valueAt? (keys ++ [key]) =
      ((json.valueAt? keys).bind asDictionary?).bind fun members => members.get? key := by
  simp only [valueAt?_append, valueAt?_singleton, Option.bind_assoc]

mutual

/-- The same value with the members of all objects in key order, as values that are read have
them. -/
def sorted : Json → Json
  | .null => .null
  | .bool value => .bool value
  | .number value => .number value
  | .string text => .string text
  | .array items => .array (sortedItems items)
  | .object members => .ofDictionary (OrderedMap.ofList (sortedMembers members))

def sortedItems : List Json → List Json
  | [] => []
  | item :: rest => item.sorted :: sortedItems rest

def sortedMembers : List (String × Json) → List (String × Json)
  | [] => []
  | (key, value) :: rest => (key, value.sorted) :: sortedMembers rest

end

theorem sortedItems_eq_map (items : List Json) : sortedItems items = items.map sorted := by
  induction items with
  | nil => rfl
  | cons item rest ih => rw [sortedItems, ih, List.map_cons]

theorem sortedMembers_eq_map (members : List (String × Json)) :
    sortedMembers members = members.map fun member => (member.1, member.2.sorted) := by
  induction members with
  | nil => rfl
  | cons member rest ih => rw [sortedMembers, ih, List.map_cons]

theorem sorted_object (members : List (String × Json)) : (object members).sorted =
    .ofDictionary (.ofList (members.map fun member => (member.1, member.2.sorted))) := by
  rw [sorted, sortedMembers_eq_map]

theorem sorted_array (items : List Json) : (array items).sorted = .array (items.map sorted) := by
  rw [sorted, sortedItems_eq_map]

end SceneGraph.Json
