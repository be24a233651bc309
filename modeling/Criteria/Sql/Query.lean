import Criteria.Expr.Selectors
import Criteria.Sql.Condition

/-!
# Queries

A filter becomes `SELECT … FROM … WHERE …`.  The condition is built by a walk over the filter;
the rest of the query comes from the options, and from the selectors of the filter if these are
to be selected.
-/

namespace Criteria
namespace Sql

/-- The list of selected columns. -/
def Options.projection (options : Options) (root : Expr) : String :=
  match options.select with
  | .all => "*"
  | .fromSelectors => ", ".intercalate root.selectors
  | .columns names => ", ".intercalate names

/-- A clause with its keyword, if it has a content. -/
def clause (keyword : String) (content : Option String) : String :=
  content.elim "" fun text => " " ++ keyword ++ " " ++ text

/-- The query text around a condition. -/
def Options.query (options : Options) (root : Expr) (condition : String) : String :=
  "SELECT " ++ options.projection root ++ " FROM " ++ options.table ++ " WHERE " ++ condition ++
    clause "ORDER BY" options.orderBy ++ clause "LIMIT" options.limit ++
    clause "OFFSET" options.offset

/-- Builds queries.  The state of the walk is the condition for the part it has gone through. -/
def Options.visitor (options : Options) : Visitor (Except BuildError) String String where
  init _ := pure ""
  finish root condition := pure (options.query root condition)
  onOr _ _ left right _ _ := pure ("(" ++ left ++ " OR " ++ right ++ ")")
  onAnd _ _ left right _ _ := pure ("(" ++ left ++ " AND " ++ right ++ ")")
  onPresence name _ _ := do
    options.checkAccess name
    pure (presence name)
  onEquality name op value _ _ := do
    options.checkAccess name
    pure (equality options.caseSensitive (op = .notEqual) name (options.transformer name value))
  onTagged name tag value _ _ := do
    options.checkAccess name
    ordering name tag (options.transformer name value)

/-- The condition for a filter. -/
def Options.condition (options : Options) (root : Expr) : Except BuildError String :=
  options.visitor.walk root root ""

/-- The query for a filter. -/
def Options.toSql (options : Options) (root : Expr) : Except BuildError String :=
  options.visitor.run root

end Sql
end Criteria
