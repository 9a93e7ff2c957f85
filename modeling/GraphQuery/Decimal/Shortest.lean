import GraphQuery.Decimal.Binary

/-!
# Shortest decimals

The decimal with the fewest digits among those that are nearer to a given double than to any
other; of several, the one nearest to the double.
-/

namespace GraphQuery.Decimal

/-- The number `digits * 10 ^ exponent`. -/
structure Scaled where
  digits : Nat
  exponent : Int
  deriving DecidableEq, Repr

/-- A double as `center / unit`, with the ends `low / unit` and `high / unit` of the interval of
reals that round to it. The ends belong to the interval when `closed`. -/
structure Interval where
  low : Nat
  center : Nat
  high : Nat
  unit : Nat
  closed : Bool
  deriving DecidableEq, Repr

/-- Half the gap to each neighbour lies on either side, and a tie rounds to the even significand. -/
def Binary.interval (number : Binary) : Interval :=
  let scale := Nat.pow 2 (number.exponent - 2).toNat
  let quarters := 4 * number.significand
  { low := (quarters - if number.narrowBelow then 1 else 2) * scale
    center := quarters * scale
    high := (quarters + 2) * scale
    unit := Nat.pow 2 (2 - number.exponent).toNat
    closed := number.significand % 2 = 0 }

/-- The multiple of `10 ^ exponent` in the interval that is nearest to its center, the larger one
when two are equally near. -/
def Interval.onGrid? (interval : Interval) (exponent : Int) : Option Nat :=
  let scale := Nat.pow 10 (-exponent).toNat
  let step := interval.unit * Nat.pow 10 exponent.toNat
  let inside (digits : Nat) : Bool :=
    if interval.closed then
      interval.low * scale ≤ digits * step && digits * step ≤ interval.high * scale
    else
      interval.low * scale < digits * step && digits * step < interval.high * scale
  let below := interval.center * scale / step
  let rest := interval.center * scale % step
  let nearer := if 2 * rest < step then below else below + 1
  let farther := if 2 * rest < step then below + 1 else below
  if inside nearer then some nearer else if inside farther then some farther else none

/-- Tries ever finer grids, the first one `10 ^ exponent`. -/
def Interval.search (interval : Interval) : Nat → Int → Scaled
  | 0, exponent => ⟨interval.center / interval.unit, exponent⟩
  | tries + 1, exponent =>
      match interval.onGrid? exponent with
      | some digits => ⟨digits, exponent⟩
      | none => interval.search tries (exponent - 1)

/-- The search starts at the first power of ten above the number. A double has at most 308 places
before its first digit and 17 digits decide it, so 400 grids are enough. -/
def Binary.shortest (number : Binary) : Scaled :=
  let interval := number.interval
  let places := (Nat.toDigits 10 (interval.center / interval.unit)).length
  interval.search (places + 400) places

/-! ## Text -/

/-- Positional notation, without exponent. -/
def Scaled.positional (number : Scaled) : List Char :=
  let digits := Nat.toDigits 10 number.digits
  let fraction := (-number.exponent).toNat
  if fraction = 0 then
    digits ++ List.replicate number.exponent.toNat '0'
  else
    let padded := List.replicate (fraction + 1 - digits.length) '0' ++ digits
    padded.take (padded.length - fraction) ++ '.' :: padded.drop (padded.length - fraction)

def Magnitude.text : Magnitude → String
  | .zero => "0"
  | .finite number => String.ofList number.shortest.positional
  | .infinite => "inf"

/-- The shortest text that reads back as the same double; a zero keeps its sign. -/
def Double.text : Double → String
  | .signed true magnitude => "-" ++ magnitude.text
  | .signed false magnitude => magnitude.text
  | .notANumber => "NaN"

end GraphQuery.Decimal
