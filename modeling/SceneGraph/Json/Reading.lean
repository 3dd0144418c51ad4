import SceneGraph.Json
import SceneGraph.Json.Token

/-!
JSON texts as far as they can be read. A reader that takes the values in order meets a fault of the
text only after everything that stands before it, so it can report what is wrong first.
-/

namespace SceneGraph.Json

/-- A value that is not there or no JSON is `broken`; a container that is not closed ends where its
text cannot be read further. -/
inductive Reading
  | broken
  | null
  | bool (value : Bool)
  | number (numeral : Numeral)
  | string (text : Option String)
  | array (items : List Reading) (closed : Bool)
  | object (members : List (Option String × Reading)) (closed : Bool)
deriving Inhabited

namespace Reading

mutual

def readValue : Nat → List Token → Reading × Option (List Token)
  | 0, _ => (.broken, none)
  | room + 1, tokens =>
    match tokens with
    | .null :: rest => (.null, some rest)
    | .bool value :: rest => (.bool value, some rest)
    | .number numeral :: rest => (.number numeral, some rest)
    | .string text :: rest => (.string text, some rest)
    | .beginArray :: .endArray :: rest => (.array [] true, some rest)
    | .beginArray :: rest =>
      let (items, rest) := readItems room rest
      (.array items rest.isSome, rest)
    | .beginObject :: .endObject :: rest => (.object [] true, some rest)
    | .beginObject :: rest =>
      let (members, rest) := readMembers room rest
      (.object members rest.isSome, rest)
    | _ => (.broken, none)

def readItems : Nat → List Token → List Reading × Option (List Token)
  | 0, _ => ([], none)
  | room + 1, tokens =>
    match readValue room tokens with
    | (item, some (.comma :: rest)) =>
      let (items, rest) := readItems room rest
      (item :: items, rest)
    | (item, some (.endArray :: rest)) => ([item], some rest)
    | (item, _) => ([item], none)

def readMembers : Nat → List Token → List (Option String × Reading) × Option (List Token)
  | 0, _ => ([], none)
  | room + 1, tokens =>
    match tokens with
    | .string key :: .colon :: rest =>
      match readValue room rest with
      | (value, some (.comma :: rest)) =>
        let (members, rest) := readMembers room rest
        ((key, value) :: members, rest)
      | (value, some (.endObject :: rest)) => ([(key, value)], some rest)
      | (value, _) => ([(key, value)], none)
    | .string key :: _ => ([(key, .broken)], none)
    | _ => ([], none)

end

/-- The value of a text, and whether nothing but blanks follows it. Each level of nesting takes a
token and each token at most two steps. -/
def ofText (text : String) : Reading × Bool :=
  let tokens := tokens text
  match readValue (2 * tokens.length + 2) tokens with
  | (value, some []) => (value, true)
  | (value, _) => (value, false)

mutual

def isWhole : Reading → Bool
  | .broken => false
  | .null | .bool _ | .number _ | .string _ => true
  | .array items closed => closed && areWhole items
  | .object members closed => closed && membersWhole members

def areWhole : List Reading → Bool
  | [] => true
  | item :: rest => item.isWhole && areWhole rest

def membersWhole : List (Option String × Reading) → Bool
  | [] => true
  | (_, value) :: rest => value.isWhole && membersWhole rest

end

/-- The fields of a record by name, and whether they are all: the items of an array are its fields
in declared order. -/
def fields? (names : List String) : Reading → Option (List (Option String × Reading) × Bool)
  | .object members closed => some (members, closed)
  | .array items closed =>
    some ((names.map some).zip items, closed && items.length ≤ names.length)
  | _ => none

mutual

def value? : Reading → Option Json
  | .broken => none
  | .null => some .null
  | .bool value => some (.bool value)
  | .number numeral => .number <$> Number.ofNumeral? numeral
  | .string text => .string <$> text
  | .array items closed => if closed then .array <$> values? items else none
  | .object members closed =>
    if closed then
      (fun members => .ofDictionary (OrderedMap.ofList members)) <$> memberValues? members
    else none

def values? : List Reading → Option (List Json)
  | [] => some []
  | item :: rest => do return (← item.value?) :: (← values? rest)

def memberValues? : List (Option String × Reading) → Option (List (String × Json))
  | [] => some []
  | (key, value) :: rest => do return (← key, ← value.value?) :: (← memberValues? rest)

end

end Reading

/-- The value that a text holds, however deep it nests. The members of its objects come in key
order. -/
def ofText? (text : String) : Option Json :=
  match Reading.ofText text with
  | (reading, true) => reading.value?
  | _ => none

end SceneGraph.Json
