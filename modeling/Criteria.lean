import Criteria.BuildError
import Criteria.Calendar.Date
import Criteria.Calendar.Timestamp
import Criteria.Decimal
import Criteria.Decimal.Shortest
import Criteria.Error
import Criteria.Expr
import Criteria.Expr.Parser
import Criteria.Expr.Selectors
import Criteria.Expr.Visitor
import Criteria.Json
import Criteria.Json.Document
import Criteria.Json.Number
import Criteria.Json.Token
import Criteria.Sql.Condition
import Criteria.Sql.Configuration
import Criteria.Sql.Literal
import Criteria.Sql.Options
import Criteria.Sql.Query
import Criteria.Store.Fetch
import Criteria.Store.Table
import Criteria.Text.Blank
import Criteria.Text.Digits
import Criteria.Text.Quoted
import Criteria.Token
import Criteria.Token.Lexer
import Criteria.Token.Rule
import Criteria.Value
import Criteria.Proofs.Decimal.Numeral
import Criteria.Proofs.Decimal.Spans
import Criteria.Proofs.Decimal.Rounding
import Criteria.Proofs.Decimal.Literal
import Criteria.Proofs.Token.Spelling
import Criteria.Proofs.Token.Writable
import Criteria.Proofs.Token.Quotation
import Criteria.Proofs.Token.Spacing
import Criteria.Proofs.Token.Calls
import Criteria.Proofs.Token.Integers
import Criteria.Proofs.Grammar.Derivation
import Criteria.Proofs.Grammar.Run
import Criteria.Proofs.Grammar.Acceptance
import Criteria.Proofs.Grammar.Names
import Criteria.Proofs.Grammar.Texts
import Criteria.Proofs.Grammar.Image
import Criteria.Proofs.Grammar.Rules
import Criteria.Proofs.Grammar.Beginnings
import Criteria.Proofs.Grammar.Groups
import Criteria.Proofs.Grammar.Guards
import Criteria.Proofs.Grammar.Faults
import Criteria.Proofs.Grammar.Earliest
import Criteria.Proofs.Grammar.Lockstep
import Criteria.Proofs.Grammar.Lookahead
import Criteria.Proofs.Grammar.Respacing
import Criteria.Proofs.Sql.Scan
import Criteria.Proofs.Sql.Syntax
import Criteria.Proofs.Sql.WellFormed
import Criteria.Proofs.Sql.Build
import Criteria.Proofs.Sql.Refusal
import Criteria.Proofs.Sql.Composition
import Criteria.Proofs.Sql.Injection
import Criteria.Proofs.Sql.Collision
import Criteria.Proofs.Sql.Meaning
import Criteria.Proofs.Sql.Pattern
import Criteria.Proofs.Sql.Membership
import Criteria.Proofs.Sql.Tuples
import Criteria.Proofs.Sql.Access
import Criteria.Proofs.Sql.Integers
import Criteria.Proofs.Sql.Loading
import Criteria.Proofs.Calendar.Naming
import Criteria.Proofs.Calendar.Readers
import Criteria.Proofs.Sql.Dates
import Criteria.Proofs.Grammar.Acts
import Criteria.Proofs.Grammar.Program
import Criteria.Proofs.Grammar.Descent
import Criteria.Proofs.Grammar.Progress
import Criteria.Proofs.Grammar.Reuse
import Criteria.Proofs.Grammar.Height
import Criteria.Proofs.Visitor.Calls
import Criteria.Proofs.Visitor.Walk
import Criteria.Proofs.Visitor.Selectors
import Criteria.Proofs.Store.Rows
import Criteria.Proofs.Store.Objects
import Criteria.Proofs.Store.Fetch
