import SceneGraph.Json.Number
import SceneGraph.OrderedMap

/-!
JSON values. A record may be written as an object or as an array of its fields in their declared
order.
-/

namespace SceneGraph

inductive Json
  | null
  | bool (value : Bool)
  | number (value : Json.Number)
  | string (value : String)
  | array (items : List Json)
  | object (members : List (String × Json))
deriving Inhabited

namespace Json

abbrev Dictionary := OrderedMap String Json

def ofInt (value : Int) : Json := .number (.integer value)

def ofNat (value : Nat) : Json := ofInt value

def ofDictionary (dictionary : Dictionary) : Json := .object dictionary.entries

/-- The members of an object by key; of two with one key the later counts. -/
def asDictionary? : Json → Option Dictionary
  | .object members => some (OrderedMap.ofList members)
  | _ => none

def asString? : Json → Option String
  | .string value => some value
  | _ => none

def asArray? : Json → Option (List Json)
  | .array items => some items
  | _ => none

/-- A choice by its name, written as a string or as an object that holds nothing under it. -/
def asVariant? : Json → Option String
  | .string name => some name
  | .object [(name, .null)] => some name
  | _ => none

/-- Numbers that count something are integers and fit into a word. -/
def asCount? : Json → Option Nat
  | .number (.integer (.ofNat value)) => if value < Number.wordSize then some value else none
  | _ => none

/-- The fields of a record by name. Members with other names are ignored, but an array must not
have more items than the record has fields. -/
def asRecord? (fields : List String) : Json → Option Dictionary
  | .object members => some (OrderedMap.ofList members)
  | .array items =>
    if items.length ≤ fields.length then some (OrderedMap.ofList (fields.zip items)) else none
  | _ => none

def required {α : Type} (record : Dictionary) (field : String) (read : Json → Option α) :
    Option α :=
  (record.get? field).bind read

def optional {α : Type} (record : Dictionary) (field : String) (fallback : α)
    (read : Json → Option α) : Option α :=
  match record.get? field with
  | none => some fallback
  | some value => read value

end Json

end SceneGraph
