import Criteria.Sql.Query
import Criteria.Store.Table

/-!
# Fetching records

Builds the query for a filter, hands it to a store, and makes records of the answer.  The store
acts in a monad of its own and may fail.
-/

namespace Criteria
namespace Sql

variable {m : Type → Type} [Monad m] {α ρ : Type}

/-- The records for a filter.  The store is asked once, and only if there is a query. -/
def Options.fetch (options : Options) (store : String → ExceptT BuildError m (Table α))
    (decode : Object α → Except String ρ) (root : Expr) : ExceptT BuildError m (List ρ) := do
  let query ← ExceptT.mk (pure (options.toSql root))
  let table ← store query
  ExceptT.mk (pure (table.records decode))

end Sql
end Criteria
