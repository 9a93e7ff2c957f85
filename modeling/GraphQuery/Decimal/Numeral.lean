import GraphQuery.Decimal.Shortest

/-!
# Decimal numerals

Reads doubles from text: digits, perhaps with a point among them, a sign in front and an exponent
behind.
-/

namespace GraphQuery.Decimal

def digitValue (digits : List Char) : Nat :=
  digits.foldl (fun value c => 10 * value + (c.toNat - '0'.toNat)) 0

/-- Takes the sign off a text, and tells whether it was a minus. -/
def takeSign : List Char → Bool × List Char
  | '-' :: text => (true, text)
  | '+' :: text => (false, text)
  | text => (false, text)

/-- What stands behind the digits of a numeral: nothing or an exponent. -/
def exponent? : List Char → Option Int
  | [] => some 0
  | mark :: text =>
      let (negative, digits) := takeSign text
      if (mark = 'e' || mark = 'E') && !digits.isEmpty && digits.all Char.isDigit then
        some (if negative then -(digitValue digits : Int) else digitValue digits)
      else none

/-- A numeral without sign. A digit must stand on one side of the point. -/
def Scaled.ofText? (text : List Char) : Option Scaled := do
  let whole := text.takeWhile Char.isDigit
  let rest := text.dropWhile Char.isDigit
  let (fraction, rest) :=
    if rest.head? = some '.' then
      ((rest.drop 1).takeWhile Char.isDigit, (rest.drop 1).dropWhile Char.isDigit)
    else ([], rest)
  guard !(whole ++ fraction).isEmpty
  return ⟨digitValue (whole ++ fraction), (← exponent? rest) - fraction.length⟩

/-- The nearest double. Far beyond the largest and below the smallest, the exponent alone decides
what that is. -/
def Scaled.toFloat (number : Scaled) : Float :=
  let size := number.exponent + (Nat.toDigits 10 number.digits).length
  if number.digits = 0 || size < -400 then 0
  else if 400 < size then 1 / 0
  else Float.ofScientific number.digits (number.exponent < 0) number.exponent.natAbs

/-- The double that a text stands for. -/
def float? (text : String) : Option Float := do
  let (negative, magnitude) := takeSign text.toList
  let value ← match (String.ofList magnitude).toLower with
    | "nan" => some (0 / 0)
    | "inf" | "infinity" => some (1 / 0)
    | _ => (Scaled.ofText? magnitude).map Scaled.toFloat
  return if negative then -value else value

end GraphQuery.Decimal
