/-!
# Values

The values that travel beside a query as its parameters.
-/

namespace GraphQuery

/-- A parameter's value. It is carried from the caller to the compiled query and never looked
into. -/
inductive Value
  | null
  | boolean (value : Bool)
  /-- The number `significand * 10 ^ -places`. -/
  | number (significand : Int) (places : Nat)
  | text (value : String)
  | list (items : List Value)
  | map (entries : List (String × Value))
  deriving Inhabited, Repr

end GraphQuery
