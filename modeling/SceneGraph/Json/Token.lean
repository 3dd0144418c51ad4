import SceneGraph.Json.Numeral

/-!
The tokens of a JSON text, from left to right. The tokens of a faulty text end with a fault where
the first thing stands that is no token.
-/

namespace SceneGraph.Json

/-- A string has no text if it escapes half of a surrogate pair. -/
inductive Token
  | beginArray
  | endArray
  | beginObject
  | endObject
  | colon
  | comma
  | null
  | bool (value : Bool)
  | number (numeral : Numeral)
  | string (text : Option String)
  | fault
deriving DecidableEq, Repr

inductive StringPiece
  | letter (value : Char)
  | unit (value : Nat)
deriving DecidableEq, Repr

def isBlank (letter : Char) : Bool :=
  letter == ' ' || letter == '\t' || letter == '\n' || letter == '\r'

def hexValue? (letter : Char) : Option Nat :=
  if letter.isDigit then some (letter.toNat - 48)
  else if 'a' ≤ letter ∧ letter ≤ 'f' then some (letter.toNat - 87)
  else if 'A' ≤ letter ∧ letter ≤ 'F' then some (letter.toNat - 55)
  else none

def hexUnit? (first second third fourth : Char) : Option Nat := do
  return (((← hexValue? first) * 16 + (← hexValue? second)) * 16 + (← hexValue? third)) * 16 +
    (← hexValue? fourth)

def escaped? : Char → Option Char
  | '"' => some '"'
  | '\\' => some '\\'
  | '/' => some '/'
  | 'b' => some '\x08'
  | 'f' => some '\x0c'
  | 'n' => some '\n'
  | 'r' => some '\r'
  | 't' => some '\t'
  | _ => none

def scanString : List Char → Option (List StringPiece × List Char)
  | [] => none
  | '"' :: rest => some ([], rest)
  | '\\' :: 'u' :: first :: second :: third :: fourth :: rest => do
    let unit ← hexUnit? first second third fourth
    let (pieces, rest) ← scanString rest
    return (.unit unit :: pieces, rest)
  | '\\' :: mark :: rest => do
    let letter ← escaped? mark
    let (pieces, rest) ← scanString rest
    return (.letter letter :: pieces, rest)
  | letter :: rest =>
    if letter = '\\' ∨ letter.toNat < 32 then none
    else do
      let (pieces, rest) ← scanString rest
      return (.letter letter :: pieces, rest)

def isHighSurrogate (unit : Nat) : Bool := 0xD800 ≤ unit && unit < 0xDC00

def isLowSurrogate (unit : Nat) : Bool := 0xDC00 ≤ unit && unit < 0xE000

def joinPieces : List StringPiece → Option (List Char)
  | [] => some []
  | .letter letter :: rest => (letter :: ·) <$> joinPieces rest
  | .unit high :: .unit low :: rest =>
    if isHighSurrogate high then
      if isLowSurrogate low then
        (Char.ofNat (0x10000 + (high - 0xD800) * 0x400 + (low - 0xDC00)) :: ·) <$> joinPieces rest
      else none
    else if isLowSurrogate high then none
    else (Char.ofNat high :: ·) <$> joinPieces (.unit low :: rest)
  | .unit unit :: rest =>
    if isHighSurrogate unit || isLowSurrogate unit then none
    else (Char.ofNat unit :: ·) <$> joinPieces rest

def isNumberPart (letter : Char) : Bool :=
  letter.isDigit || letter == '-' || letter == '+' || letter == '.' || letter == 'e' ||
    letter == 'E'

/-- Each token takes at least one character, so `room` for as many as there are is enough. -/
def scanTokens : Nat → List Char → List Token
  | 0, _ => []
  | _, [] => []
  | room + 1, '[' :: rest => .beginArray :: scanTokens room rest
  | room + 1, ']' :: rest => .endArray :: scanTokens room rest
  | room + 1, '\x7b' :: rest => .beginObject :: scanTokens room rest
  | room + 1, '\x7d' :: rest => .endObject :: scanTokens room rest
  | room + 1, ':' :: rest => .colon :: scanTokens room rest
  | room + 1, ',' :: rest => .comma :: scanTokens room rest
  | room + 1, 'n' :: 'u' :: 'l' :: 'l' :: rest => .null :: scanTokens room rest
  | room + 1, 't' :: 'r' :: 'u' :: 'e' :: rest => .bool true :: scanTokens room rest
  | room + 1, 'f' :: 'a' :: 'l' :: 's' :: 'e' :: rest => .bool false :: scanTokens room rest
  | room + 1, '"' :: rest =>
    match scanString rest with
    | some (pieces, rest) =>
      .string ((joinPieces pieces).map String.ofList) :: scanTokens room rest
    | none => [.fault]
  | room + 1, letter :: rest =>
    if isBlank letter then scanTokens room rest
    else
      match Numeral.ofText? ((letter :: rest).takeWhile isNumberPart) with
      | some numeral =>
        .number numeral :: scanTokens room ((letter :: rest).dropWhile isNumberPart)
      | none => [.fault]

def tokens (text : String) : List Token := scanTokens text.toList.length text.toList

end SceneGraph.Json
