/-!
The decimal that stands for a double: of those that read back as it the one with the fewest digits,
and of these the nearest. Candidates are compared with the double exactly, in natural numbers.
-/

namespace SceneGraph

structure Decimal where
  digits : Nat
  exponent : Int
deriving DecidableEq, Repr

/-- The number `significand * 2 ^ exponent` with its neighbours one step of the exponent away, but
half a step below if the gap is `narrow` there, as it is under most powers of two. -/
structure BinaryFraction where
  significand : Nat
  exponent : Int
  narrow : Bool
deriving DecidableEq, Repr

namespace BinaryFraction

def ofFloat (value : Float) : BinaryFraction :=
  let bits := value.toBits.toNat
  let fraction := bits % 0x10000000000000
  let binade := bits / 0x10000000000000 % 2048
  if binade = 0 then ⟨fraction, -1074, false⟩
  else ⟨0x10000000000000 + fraction, Int.ofNat binade - 1075, fraction == 0 && 1 < binade⟩

/-- How many times `10 ^ place` comes nearest to the number without reading back as another double.
Of two that are equally near the even one wins, as does the even significand halfway between two
doubles. -/
def multiple? (value : BinaryFraction) (place : Int) : Option Nat :=
  let step := Nat.pow 10 place.toNat * Nat.pow 2 (2 - value.exponent).toNat
  let quarter := Nat.pow 2 (value.exponent - 2).toNat * Nat.pow 10 (-place).toNat
  let exact := 4 * value.significand * quarter
  let low := exact - (if value.narrow then 1 else 2) * quarter
  let high := exact + 2 * quarter
  let below := exact / step
  let excess := 2 * (exact % step)
  let candidates :=
    if excess < step ∨ excess = step ∧ below % 2 = 0 then [below, below + 1]
    else [below + 1, below]
  candidates.find? fun count =>
    if value.significand % 2 = 0 then low ≤ count * step ∧ count * step ≤ high
    else low < count * step ∧ count * step < high

def magnitude (value : BinaryFraction) : Int :=
  (value.exponent + Int.ofNat value.significand.log2 + 1) * 30103 / 100000 + 1

def exactDecimal (value : BinaryFraction) : Decimal :=
  if 0 ≤ value.exponent then ⟨value.significand * Nat.pow 2 value.exponent.toNat, 0⟩
  else ⟨value.significand * Nat.pow 5 (-value.exponent).toNat, value.exponent⟩

/-- The coarsest multiple that reads back. Seventeen digits are always enough. -/
def shortestDecimal (value : BinaryFraction) : Decimal :=
  let places := (List.range 20).map fun count => value.magnitude - Int.ofNat count
  (places.findSome? fun place => (value.multiple? place).map fun digits => ⟨digits, place⟩).getD
    value.exactDecimal

end BinaryFraction

end SceneGraph
