/-!
# Binary64 numbers

A double taken apart into sign, significand and exponent.
-/

namespace GraphQuery.Decimal

/-- The number `significand * 2 ^ exponent`. `narrowBelow` says that the next smaller double is
only half as far away as the next larger one. -/
structure Binary where
  significand : Nat
  exponent : Int
  narrowBelow : Bool
  deriving DecidableEq, Repr

inductive Magnitude
  | zero
  | finite (number : Binary)
  | infinite
  deriving DecidableEq, Repr

inductive Double
  | signed (negative : Bool) (magnitude : Magnitude)
  | notANumber
  deriving DecidableEq, Repr

/-- Reads the 64 bits: one of sign, eleven of exponent, 52 of fraction. -/
def Double.ofBits (bits : Nat) : Double :=
  let fraction := bits % Nat.pow 2 52
  let biased : Nat := bits / Nat.pow 2 52 % Nat.pow 2 11
  let negative := bits / Nat.pow 2 63 % 2 == 1
  if biased = 2047 then
    if fraction = 0 then .signed negative .infinite else .notANumber
  else if biased = 0 then
    if fraction = 0 then .signed negative .zero
    else .signed negative (.finite ⟨fraction, -1074, false⟩)
  else
    .signed negative
      (.finite ⟨fraction + Nat.pow 2 52, (biased : Int) - 1075, fraction = 0 && biased ≠ 1⟩)

def Double.ofFloat (x : Float) : Double :=
  .ofBits x.toBits.toNat

end GraphQuery.Decimal
