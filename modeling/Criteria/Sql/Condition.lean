import Criteria.BuildError
import Criteria.Calendar.Timestamp
import Criteria.Expr
import Criteria.Sql.Literal
import Criteria.Sql.Options

/-!
# Conditions

The SQL text for one constraint.  Checks come in a fixed order: access first, then, on the
rewritten value, the operator, and last the value.
-/

namespace Criteria
namespace Sql

/-- Fails for a selector that the filter may not use. -/
def Options.checkAccess (options : Options) (selector : String) : Except BuildError Unit :=
  if options.isAllowed selector then .ok () else .error (.selectorNotAllowed selector)

/-- A constraint that asks for presence. -/
def presence (selector : String) : String :=
  selector ++ " IS NOT NULL"

/-- A comparison by `==`, or by `!=` if `negated`.  Membership in the empty list has no SQL of its
own: it is never true. -/
def equality (caseSensitive negated : Bool) (selector : String) (value : Value) : String :=
  let not := if negated then "NOT " else ""
  let sign := if negated then " <> " else " = "
  match value with
  | .text s =>
      if isPattern s then
        selector ++ " " ++ not ++ (if caseSensitive then "LIKE " else "ILIKE ") ++ patternLiteral s
      else if caseSensitive then selector ++ sign ++ quote s
      else "LOWER(" ++ selector ++ ")" ++ sign ++ "LOWER(" ++ quote s ++ ")"
  | .list [] => if negated then "1 = 1" else "1 = 0"
  | .list items => selector ++ " " ++ not ++ "IN " ++ literal (.list items)
  | scalar => selector ++ sign ++ literal scalar

/-- A comparison by a tag.  Only orderings have SQL, and only of numbers, dates and dates with a
time. -/
def ordering (selector tag : String) (value : Value) : Except BuildError String :=
  match orderingOperator tag with
  | none => .error (.unsupportedOperator selector tag value.typeName)
  | some operator =>
      match value with
      | .text s =>
          if Calendar.isTimestamp s then .ok (selector ++ " " ++ operator ++ " " ++ quote s)
          else .error (.dateFormat selector s)
      | .boolean _ | .list _ => .error (.unsupportedOperator selector tag value.typeName)
      | number => .ok (selector ++ " " ++ operator ++ " " ++ literal number)

end Sql
end Criteria
