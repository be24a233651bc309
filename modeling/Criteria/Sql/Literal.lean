import Criteria.Value

/-!
# SQL literals

How values stand in a query: texts between single quotes, with inner quotes doubled, and
lists as parenthesised tuples.  A text with a star at either end is a pattern.
-/

namespace Criteria
namespace Sql

/-- Doubles each single quote. -/
def escape (cs : List Char) : List Char :=
  cs.flatMap fun c => if c = '\'' then ['\'', '\''] else [c]

/-- The literal for a text. -/
def quote (s : String) : String :=
  "'" ++ String.ofList (escape s.toList) ++ "'"

mutual

/-- The literal for a value. -/
def literal : Value → String
  | .text s => quote s
  | .integer n => toString n.toInt
  | .float x => floatText x
  | .boolean b => if b then "true" else "false"
  | .list items => "(" ++ ", ".intercalate (literals items) ++ ")"

/-- The literals for the items of a list. -/
def literals : List Value → List String
  | [] => []
  | v :: vs => literal v :: literals vs

end

/-- Whether a text is a pattern: it starts or ends with a star. -/
def isPattern (s : String) : Bool :=
  s.toList.head? = some '*' || s.toList.getLast? = some '*'

/-- The literal for a pattern, in which a percent sign stands for any sequence. -/
def patternLiteral (s : String) : String :=
  quote (String.ofList (s.toList.map fun c => if c = '*' then '%' else c))

/-- The SQL operator for the tag of an ordering. -/
def orderingOperator (tag : String) : Option String :=
  if tag = "ge" then some ">="
  else if tag = "gt" then some ">"
  else if tag = "le" then some "<="
  else if tag = "lt" then some "<"
  else none

end Sql
end Criteria
