/-!
# Errors of building a query

What can go wrong between a filter tree and the records fetched for it.
-/

namespace Criteria

/-- Why the answer of a store is of no use. -/
inductive ResponseFault where
  /-- The store's own judgement. -/
  | rejected (reason : String)
  /-- A row has more or fewer cells than there are columns. -/
  | ragged (row cells columns : Nat)
  /-- A row is no record of the type asked for. -/
  | unreadable (row : Nat) (reason : String)
deriving DecidableEq, Repr

/-- The wording of the fault. -/
def ResponseFault.text : ResponseFault → String
  | .rejected reason => reason
  | .ragged row cells columns =>
      "row " ++ toString row ++ " has " ++ toString cells ++ " cells, expected " ++
        toString columns
  | .unreadable row reason => "row " ++ toString row ++ ": " ++ reason

/-- Why a query could not be built or answered. -/
inductive BuildError where
  /-- An ordering against a text that is neither a date nor a date with a time. -/
  | dateFormat (selector value : String)
  /-- An unknown tag, or an ordering against a value without order. -/
  | unsupportedOperator (selector tag valueType : String)
  /-- The access lists exclude the selector. -/
  | selectorNotAllowed (selector : String)
  /-- The store's answer cannot be turned into records. -/
  | storeResponse (fault : ResponseFault)
  /-- The store could not run the query. -/
  | store (reason : String)
deriving DecidableEq, Repr

/-- The wording of the error. -/
def BuildError.message : BuildError → String
  | .dateFormat selector value =>
      "invalid date format for '" ++ selector ++ "': '" ++ value ++ "'"
  | .unsupportedOperator selector tag valueType =>
      "unsupported operator '" ++ tag ++ "' for '" ++ selector ++ "' with " ++ valueType ++
        " value"
  | .selectorNotAllowed selector => "selector not allowed: " ++ selector
  | .storeResponse fault => "unexpected store response: " ++ fault.text
  | .store reason => "store error: " ++ reason

end Criteria
