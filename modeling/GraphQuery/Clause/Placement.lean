import GraphQuery.Clause.Basic
import GraphQuery.Fault

/-!
# Placement

Modifiers stand directly after what they modify. Each block is checked by itself, right after the
clause it belongs to, so the first misplaced clause in reading order is the one reported.
-/

namespace GraphQuery

/-- Whether a clause may come directly after `previous`, which is nothing at the start of a
block. -/
def Keyword.mayFollow (keyword : Keyword) (previous : Option Keyword) : Bool :=
  match keyword.predecessors? with
  | none => true
  | some allowed => previous.any fun keyword => allowed.contains keyword

mutual

/-- Checks the blocks inside a clause. -/
def Clause.checkInside : Clause → Except Fault Unit
  | .subquery body => Clause.checkFrom none body
  | .forEach _ _ updates => Clause.checkFrom none updates
  | .union _ branches => Clause.checkBranches branches
  | _ => .ok ()

/-- Checks the clauses after `previous`. -/
def Clause.checkFrom (previous : Option Keyword) : List Clause → Except Fault Unit
  | [] => .ok ()
  | clause :: rest =>
      if clause.keyword.mayFollow previous then do
        clause.checkInside
        Clause.checkFrom (some clause.keyword) rest
      else .error (.misplacedClause clause.keyword)

def Clause.checkBranches : List (List Clause) → Except Fault Unit
  | [] => .ok ()
  | branch :: rest => do
      Clause.checkFrom none branch
      Clause.checkBranches rest

end

def Clause.checkPlacement (clauses : List Clause) : Except Fault Unit :=
  Clause.checkFrom none clauses

end GraphQuery
