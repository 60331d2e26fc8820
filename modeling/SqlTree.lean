import SqlTree.Clause
import SqlTree.Dialect
import SqlTree.Fault
import SqlTree.Form
import SqlTree.Format
import SqlTree.Identifier
import SqlTree.Keyword
import SqlTree.Literal
import SqlTree.Number.Binary64
import SqlTree.Number.Text
import SqlTree.Operator
import SqlTree.Parse
import SqlTree.Postgres
import SqlTree.Proofs.Coupling.Basic
import SqlTree.Proofs.Coupling.Clauses
import SqlTree.Proofs.Coupling.Expression
import SqlTree.Proofs.Coupling.Fragment
import SqlTree.Proofs.Coupling.Same
import SqlTree.Proofs.Coupling.Settings
import SqlTree.Proofs.Coupling.Special
import SqlTree.Proofs.Coupling.Statement
import SqlTree.Proofs.FromList.Rows
import SqlTree.Proofs.FromList.Text
import SqlTree.Proofs.Injection
import SqlTree.Proofs.InlineMode
import SqlTree.Proofs.Parts
import SqlTree.Proofs.Placeholders
import SqlTree.Proofs.RoundTrip
import SqlTree.Proofs.RoundTrip.Agreement
import SqlTree.Proofs.RoundTrip.Blocks
import SqlTree.Proofs.RoundTrip.Bodies
import SqlTree.Proofs.RoundTrip.Canonical
import SqlTree.Proofs.RoundTrip.Clauses
import SqlTree.Proofs.RoundTrip.Closing
import SqlTree.Proofs.RoundTrip.Expression
import SqlTree.Proofs.RoundTrip.Items
import SqlTree.Proofs.RoundTrip.Levels
import SqlTree.Proofs.RoundTrip.Lexing
import SqlTree.Proofs.RoundTrip.Operands
import SqlTree.Proofs.RoundTrip.Operations
import SqlTree.Proofs.RoundTrip.Parsing
import SqlTree.Proofs.RoundTrip.PlainName
import SqlTree.Proofs.RoundTrip.Queries
import SqlTree.Proofs.RoundTrip.Reading
import SqlTree.Proofs.RoundTrip.Sources
import SqlTree.Proofs.RoundTrip.Spelling
import SqlTree.Proofs.RoundTrip.Subqueries
import SqlTree.Proofs.RoundTrip.Tables
import SqlTree.Proofs.RoundTrip.Tails
import SqlTree.Proofs.RoundTrip.Writing
import SqlTree.Proofs.Same
import SqlTree.Proofs.Walked
import SqlTree.Proofs.StringLiterals
import SqlTree.Proofs.Watched
import SqlTree.Registry
import SqlTree.Render.Clauses
import SqlTree.Render.Expression
import SqlTree.Render.Fragment
import SqlTree.Render.Name
import SqlTree.Render.Settings
import SqlTree.Render.Special
import SqlTree.Render.Statement
import SqlTree.Render.Value
import SqlTree.Scope
import SqlTree.Syntax.Parser.Basic
import SqlTree.Syntax.Parser.Expression
import SqlTree.Syntax.Parser.Name
import SqlTree.Syntax.Parser.Primary
import SqlTree.Syntax.Parser.Query
import SqlTree.Syntax.Parser.Statement
import SqlTree.Syntax.Reading.Basic
import SqlTree.Syntax.Reading.Expression
import SqlTree.Syntax.Reading.Join
import SqlTree.Syntax.Reading.Literal
import SqlTree.Syntax.Reading.Name
import SqlTree.Syntax.Reading.Query
import SqlTree.Syntax.Reading.Statement
import SqlTree.Syntax.Reading.Tree
import SqlTree.Syntax.Text
import SqlTree.Syntax.Tree
import SqlTree.Text.Blank
import SqlTree.Text.Case
import SqlTree.Text.CaseTable
import SqlTree.Text.Digit
import SqlTree.Text.Doubled
import SqlTree.Text.Ranges
import SqlTree.Text.Split
import SqlTree.Text.Visible
import SqlTree.Text.Word
import SqlTree.Token.Basic
import SqlTree.Token.Lexer
import SqlTree.Value.Basic
import SqlTree.Value.Json
import SqlTree.Value.Same
import SqlTree.Value.Written
import SqlTree.Walk.Basic
import SqlTree.Walk.Columns
import SqlTree.Walk.Condition
import SqlTree.Proofs.FromList
import SqlTree.Proofs.Parameters
import SqlTree.Proofs.Registrations
import SqlTree.Proofs.ClauseOrder
import SqlTree.Proofs.Conditions.Columns
import SqlTree.Proofs.Conditions
import SqlTree.Proofs.Nesting
import SqlTree.Proofs.Guard
import SqlTree.Proofs.Placement
import SqlTree.Proofs.Semicolons
import SqlTree.Proofs.Targets
import SqlTree.Proofs.Vocabulary
import SqlTree.Proofs.Regular
import SqlTree.Proofs.Vocabulary.Expression
import SqlTree.Proofs.Vocabulary.Query
import SqlTree.Proofs.Vocabulary.Statement
import SqlTree.Proofs.Refusals
import SqlTree.Proofs.Changes
import SqlTree.Proofs.Grammar.Names
import SqlTree.Proofs.Grammar.Primary
import SqlTree.Proofs.Composed
import SqlTree.Proofs.Chains
import SqlTree.Proofs.Grammar.Calls
import SqlTree.Proofs.Grammar.Commands
import SqlTree.Proofs.Grammatical
import SqlTree.Proofs.Sequences
import SqlTree.Proofs.JoinOrder
import SqlTree.Proofs.Aliases
import SqlTree.Proofs.Identifiers
import SqlTree.Proofs.SetOperations
import SqlTree.Proofs.Registrations.Operators
import SqlTree.Proofs.Overrides
import SqlTree.Proofs.FunctionCalls
import SqlTree.Proofs.Quoting
import SqlTree.Proofs.RowMaps
import SqlTree.Proofs.Connectives
import SqlTree.Proofs.Scopes
