import GraphQuery.Catalog.Table
import GraphQuery.Decimal.Numeral
import GraphQuery.Draft.Program
import GraphQuery.Settings.Document
import GraphQuery.Settings.Environment
import GraphQuery.Proofs.Formula.Grammar
import GraphQuery.Proofs.Formula.Splice
import GraphQuery.Proofs.Formula.Reading
import GraphQuery.Proofs.Formula.Printing
import GraphQuery.Proofs.Formula.Operand
import GraphQuery.Proofs.Scope.Identity
import GraphQuery.Proofs.Draft.Equations
import GraphQuery.Proofs.Draft.Resolving
import GraphQuery.Proofs.Draft.History
import GraphQuery.Proofs.Draft.Nesting
import GraphQuery.Proofs.Draft.Subquery
import GraphQuery.Proofs.Draft.Events
import GraphQuery.Proofs.Draft.Outline
import GraphQuery.Proofs.Draft.QueryText
import GraphQuery.Proofs.Draft.Destinations
import GraphQuery.Proofs.Clause.Grammar
import GraphQuery.Proofs.Clause.Placement
import GraphQuery.Proofs.Draft.Outcome
import GraphQuery.Proofs.Scope.Retirement
import GraphQuery.Proofs.Scope.FieldText
import GraphQuery.Proofs.Draft.Parameters
import GraphQuery.Proofs.Draft.Union
import GraphQuery.Proofs.Draft.Growth
import GraphQuery.Proofs.Draft.Issues
import GraphQuery.Proofs.Clause.Layout
import GraphQuery.Proofs.Draft.Everywhere
import GraphQuery.Proofs.Draft.Filled
import GraphQuery.Proofs.Draft.Depth
import GraphQuery.Proofs.Clause.ChainText
import GraphQuery.Proofs.Draft.Naming
import GraphQuery.Proofs.Draft.Grouping
import GraphQuery.Proofs.Scope.Carriers
import GraphQuery.Proofs.Draft.Spelling
import GraphQuery.Proofs.Draft.Trail
import GraphQuery.Proofs.Formula.Quotation
import GraphQuery.Proofs.Draft.Aliases
import GraphQuery.Proofs.Scope.Repetition
import GraphQuery.Proofs.Scope.FieldTokens
import GraphQuery.Proofs.Draft.Columns
import GraphQuery.Proofs.Draft.Operands
import GraphQuery.Proofs.Catalog.Loading
import GraphQuery.Proofs.Clause.EmptyParts
import GraphQuery.Proofs.Clause.Returning
import GraphQuery.Proofs.Clause.Quotations
import GraphQuery.Proofs.Draft.Quotations
import GraphQuery.Proofs.Clause.Inline
import GraphQuery.Proofs.Draft.Slots
import GraphQuery.Proofs.Draft.Duplicates
import GraphQuery.Proofs.Scope.InPlace
