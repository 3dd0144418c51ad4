import SceneGraph.Decimal
import SceneGraph.Json

/-!
The compact text of JSON values: no blanks, and in strings only quotes, backslashes and control
characters escaped. Doubles have the fewest digits that read back, and a point even if they are
whole.
-/

namespace SceneGraph

namespace Json

def hexDigit (value : Nat) : Char :=
  if value < 10 then Char.ofNat (48 + value) else Char.ofNat (87 + value)

def escape (letter : Char) : List Char :=
  if letter = '"' then ['\\', '"']
  else if letter = '\\' then ['\\', '\\']
  else if letter = '\x08' then ['\\', 'b']
  else if letter = '\t' then ['\\', 't']
  else if letter = '\n' then ['\\', 'n']
  else if letter = '\x0c' then ['\\', 'f']
  else if letter = '\r' then ['\\', 'r']
  else if letter.toNat < 32 then
    ['\\', 'u', '0', '0', hexDigit (letter.toNat / 16), hexDigit (letter.toNat % 16)]
  else [letter]

def quote (text : String) : String :=
  String.ofList ('"' :: (text.toList.flatMap escape ++ ['"']))

def zeros (count : Int) : List Char := List.replicate count.toNat '0'

/-- The digits around the decimal point, if the first of them stands at most sixteen places before
it or five after it; otherwise the digits with the point after the first, and an exponent. -/
def layOut (decimal : Decimal) : List Char :=
  let digits := Nat.toDigits 10 decimal.digits
  let places := Int.ofNat digits.length + decimal.exponent
  if -5 < places ∧ places ≤ 0 then ['0', '.'] ++ zeros (-places) ++ digits
  else if 0 < places ∧ places ≤ 16 then
    if decimal.exponent < 0 then digits.take places.toNat ++ '.' :: digits.drop places.toNat
    else digits ++ zeros decimal.exponent ++ ['.', '0']
  else
    let fraction := if digits.length = 1 then [] else '.' :: digits.drop 1
    let sign := if places < 1 then '-' else '+'
    digits.take 1 ++ fraction ++ ['e', sign] ++ Nat.toDigits 10 (places - 1).natAbs

def Number.render : Number → String
  | .integer value => toString value
  | .double value =>
    let sign := if value.toBits < 0x8000000000000000 then [] else ['-']
    let size := if value == 0 then ['0', '.', '0']
      else layOut (BinaryFraction.ofFloat value).shortestDecimal
    String.ofList (sign ++ size)

mutual

def render : Json → String
  | .null => "null"
  | .bool true => "true"
  | .bool false => "false"
  | .number value => value.render
  | .string value => quote value
  | .array items => "[" ++ ",".intercalate (renderItems items) ++ "]"
  | .object members => "\x7b" ++ ",".intercalate (renderMembers members) ++ "\x7d"

def renderItems : List Json → List String
  | [] => []
  | item :: rest => item.render :: renderItems rest

def renderMembers : List (String × Json) → List String
  | [] => []
  | (key, value) :: rest => (quote key ++ ":" ++ value.render) :: renderMembers rest

end

end Json

end SceneGraph
