/-!
Numerals, the form in which a JSON text holds a number: a whole part without leading zeros, then a
fraction and an exponent if wanted.
-/

namespace SceneGraph.Json

/-- The digits are kept as they are written. The fraction of a numeral without a point is empty. -/
structure Numeral where
  negative : Bool
  whole : List Char
  fraction : List Char
  exponent : Option Int
deriving DecidableEq, Repr

namespace Numeral

def digitValue (digit : Char) : Nat := digit.toNat - 48

def valueOf (digits : List Char) : Nat :=
  digits.foldl (fun value digit => value * 10 + digitValue digit) 0

def splitDigits? (text : List Char) : Option (List Char × List Char) :=
  let (digits, rest) := text.span Char.isDigit
  if digits.isEmpty then none else some (digits, rest)

def natural? (text : List Char) : Option Nat :=
  match splitDigits? text with
  | some (digits, []) => some (valueOf digits)
  | _ => none

def ofExponent? : List Char → Option Int
  | '-' :: digits => (fun value => -Int.ofNat value) <$> natural? digits
  | '+' :: digits => Int.ofNat <$> natural? digits
  | digits => Int.ofNat <$> natural? digits

def ofUnsigned? (negative : Bool) (text : List Char) : Option Numeral := do
  let (whole, rest) ← splitDigits? text
  if whole.head? = some '0' ∧ whole ≠ ['0'] then none
  let (fraction, rest) ← match rest with
    | '.' :: rest => splitDigits? rest
    | rest => some ([], rest)
  match rest with
  | [] => return { negative, whole, fraction, exponent := none }
  | mark :: rest =>
    if mark = 'e' ∨ mark = 'E' then
      return { negative, whole, fraction, exponent := some (← ofExponent? rest) }
    else none

def ofText? : List Char → Option Numeral
  | '-' :: text => ofUnsigned? true text
  | text => ofUnsigned? false text

end Numeral

end SceneGraph.Json
