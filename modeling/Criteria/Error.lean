import Criteria.BuildError
import Criteria.Expr.Parser
import Criteria.Sql.Configuration
import Criteria.Sql.Query

/-!
# From filter text to query

Reading a filter and building its query in one step, and the errors of all stages under one type.
-/

namespace Criteria

/-- Why there is no query. -/
inductive Error where
  | parse (e : ParseError)
  | build (e : BuildError)
  | config (e : Sql.ConfigError)
deriving DecidableEq

namespace Error

/-- The wording of the error. -/
def message : Error → String
  | .parse e => e.message
  | .build e => e.message
  | .config e => e.message

/-- Whether the filter text itself is at fault. -/
def isParseError : Error → Bool
  | .parse _ => true
  | _ => false

/-- Whether the access lists refuse a selector. -/
def isAccessDenied : Error → Bool
  | .build (.selectorNotAllowed _) => true
  | _ => false

end Error

/-- The query for a filter text. -/
def filterToSql (filter : String) (options : Sql.Options) : Except Error String :=
  match Expr.parse filter with
  | .error e => .error (.parse e)
  | .ok tree => (options.toSql tree).mapError .build

/-- Loads options from a configuration text. -/
def loadOptions (text : String) : Except Error Sql.Options :=
  (Sql.Options.load text).mapError .config

end Criteria
