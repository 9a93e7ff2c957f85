/-!
# Lines of text

Blank characters, trimming, splitting into lines and joining.
-/

namespace GraphQuery.Text

/-- Ranges of the Unicode property White_Space. -/
def blankRanges : List (Nat × Nat) :=
  [(0x9, 0xD), (0x20, 0x20), (0x85, 0x85), (0xA0, 0xA0), (0x1680, 0x1680), (0x2000, 0x200A),
   (0x2028, 0x2029), (0x202F, 0x202F), (0x205F, 0x205F), (0x3000, 0x3000)]

def isBlank (c : Char) : Bool :=
  blankRanges.any fun range => range.1 ≤ c.toNat && c.toNat ≤ range.2

/-! ## Trimming -/

def dropBlanks (cs : List Char) : List Char :=
  cs.dropWhile isBlank

def dropBlanksEnd (cs : List Char) : List Char :=
  (cs.reverse.dropWhile isBlank).reverse

def trimStart (text : String) : String :=
  String.ofList (dropBlanks text.toList)

def trimEnd (text : String) : String :=
  String.ofList (dropBlanksEnd text.toList)

def trim (text : String) : String :=
  trimEnd (trimStart text)

/-! ## Splitting and joining -/

/-- The pieces between line breaks, one more than there are breaks. -/
def splitBreaks : List Char → List (List Char)
  | [] => [[]]
  | c :: cs =>
      if c = '\n' then [] :: splitBreaks cs
      else match splitBreaks cs with
        | [] => [[c]]
        | piece :: pieces => (c :: piece) :: pieces

/-- The lines of a text; an empty text has none. -/
def lines (text : String) : List String :=
  if text = "" then [] else (splitBreaks text.toList).map String.ofList

/-- The texts one after another with `separator` between neighbours. -/
def joinWith (separator : String) : List String → String
  | [] => ""
  | [text] => text
  | text :: rest => text ++ separator ++ joinWith separator rest

/-- The texts one after another. -/
def concat : List String → String
  | [] => ""
  | text :: rest => text ++ concat rest

@[simp] theorem joinWith_nil (separator : String) : joinWith separator [] = "" := rfl

@[simp] theorem joinWith_singleton (separator text : String) :
    joinWith separator [text] = text := rfl

@[simp] theorem joinWith_cons_cons (separator text next : String) (rest : List String) :
    joinWith separator (text :: next :: rest) =
      text ++ separator ++ joinWith separator (next :: rest) := rfl

theorem joinWith_append (separator : String) (xs ys : List String) (hx : xs ≠ []) (hy : ys ≠ []) :
    joinWith separator (xs ++ ys) =
      joinWith separator xs ++ separator ++ joinWith separator ys := by
  induction xs with
  | nil => exact absurd rfl hx
  | cons x xs ih =>
      cases xs with
      | nil =>
          obtain ⟨y, ys, rfl⟩ := List.exists_cons_of_ne_nil hy
          rfl
      | cons next xs =>
          have htail := ih (by simp)
          rw [List.cons_append] at htail
          rw [List.cons_append, List.cons_append, joinWith_cons_cons, htail,
            joinWith_cons_cons]
          simp [String.append_assoc]

theorem splitBreaks_ne_nil (cs : List Char) : splitBreaks cs ≠ [] := by
  cases cs with
  | nil => simp [splitBreaks]
  | cons c cs =>
      rw [splitBreaks]
      split
      · simp
      · split <;> simp

end GraphQuery.Text
