import Criteria.Expr.Visitor

/-!
# The selectors of a filter

Lists each selector that a filter mentions once, in the order of first appearance.
-/

namespace Criteria
namespace Selectors

/-- Adds a name at the end unless it is there already. -/
def insert (seen : List String) (name : String) : List String :=
  if seen.contains name then seen else seen ++ [name]

/-- Adds the names of a second list, one after the other. -/
def merge (left right : List String) : List String :=
  right.foldl insert left

/-- Collects selectors; it needs no effect of the monad. -/
def visitor {m : Type → Type} [Monad m] : Visitor m (List String) (List String) where
  init _ := pure []
  finish _ names := pure names
  onOr _ _ left right _ _ := pure (merge left right)
  onAnd _ _ left right _ _ := pure (merge left right)
  onPresence name _ names := pure (insert names name)
  onEquality name _ _ _ names := pure (insert names name)
  onTagged name _ _ _ names := pure (insert names name)

end Selectors

/-- The selectors of a filter, each once, in the order of first appearance. -/
def Expr.selectors (e : Expr) : List String :=
  Id.run (Selectors.visitor.run e)

end Criteria
