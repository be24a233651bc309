import Criteria.Value

/-!
# Options of the query builder

What a query selects and from where, which selectors a filter may use, and how values are
rewritten and compared.
-/

namespace Criteria
namespace Sql

/-- The columns that a query selects. -/
inductive Projection where
  /-- All columns. -/
  | all
  /-- The selectors of the filter. -/
  | fromSelectors
  /-- The columns given. -/
  | columns (names : List String)
deriving DecidableEq, Repr

/-- The options of the query builder. -/
structure Options where
  table : String := "table"
  select : Projection := .all
  /-- The selectors that are allowed; with this list, `except` is not consulted. -/
  only : Option (List String) := none
  /-- The selectors that are refused. -/
  except : Option (List String) := none
  orderBy : Option String := none
  limit : Option String := none
  offset : Option String := none
  caseSensitive : Bool := true
  /-- Rewrites the value that a selector is compared with. -/
  transformer : String → Value → Value := fun _ value => value

instance : Inhabited Options := ⟨{}⟩

/-- Whether a filter may use a selector. -/
def Options.isAllowed (options : Options) (selector : String) : Bool :=
  match options.only, options.except with
  | some only, _ => only.contains selector
  | none, some except => !except.contains selector
  | none, none => true

end Sql
end Criteria
