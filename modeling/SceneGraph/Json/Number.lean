import SceneGraph.Json.Numeral

/-!
Numbers as JSON values hold them. Integers of 64 bits are exact, and every other number is a finite
double.
-/

namespace SceneGraph.Json

inductive Number
  | integer (value : Int)
  | double (value : Float)
deriving DecidableEq, Repr

namespace Number

def wordSize : Nat := 0x10000000000000000

def appendDigits (number : Nat) : List Char → Nat × List Char
  | [] => (number, [])
  | digit :: rest =>
    let next := number * 10 + Numeral.digitValue digit
    if next < wordSize then appendDigits next rest else (number, digit :: rest)

def powerOfTen (exponent : Nat) : Float := Float.ofScientific 1 false exponent

def lastPower : Nat := 308

/-- Two steps reach every exponent, for a word divided twice by the last power is zero. -/
def divideByPower (value : Float) (exponent : Nat) : Float :=
  if exponent ≤ lastPower then value / powerOfTen exponent
  else value / powerOfTen lastPower / powerOfTen (min (exponent - lastPower) lastPower)

def multiplyByPower? (value : Float) (exponent : Nat) : Option Float :=
  if value == 0 then some value
  else if exponent ≤ lastPower then
    let product := value * powerOfTen exponent
    if product.isFinite then some product else none
  else none

/-- A numeral's digits, as far as a word holds them, are rounded to a double before they are scaled.
Left-over digits of the whole part count as zeros, those of the fraction not at all. -/
def doubleOf? (numeral : Numeral) : Option Float := do
  let (whole, dropped) := appendDigits 0 numeral.whole
  let (digits, ignored) := appendDigits whole numeral.fraction
  let places := numeral.fraction.length - ignored.length
  let exponent := numeral.exponent.getD 0 + dropped.length - places
  let size ←
    if exponent < 0 then some (divideByPower (Float.ofNat digits) exponent.natAbs)
    else multiplyByPower? (Float.ofNat digits) exponent.natAbs
  return if numeral.negative then -size else size

/-- There is no integer `-0`. -/
def integerOf? (numeral : Numeral) : Option Int :=
  let size := Numeral.valueOf numeral.whole
  if numeral.fraction ≠ [] ∨ numeral.exponent.isSome then none
  else if numeral.negative then
    if 0 < size ∧ size ≤ wordSize / 2 then some (-size) else none
  else if size < wordSize then some size else none

def ofNumeral? (numeral : Numeral) : Option Number :=
  match integerOf? numeral with
  | some value => some (.integer value)
  | none => .double <$> doubleOf? numeral

end Number

end SceneGraph.Json
