import Criteria.BuildError
import Std.Data.ExtTreeMap

/-!
# Tables and records

A store answers a query with a table: column names, and rows of cells.  Each row becomes an
object from column names to cells, and each object a record.  All rows are measured before the
first record is made.
-/

namespace Criteria

/-- Column names, and rows with a cell for each column. -/
structure Table (α : Type) where
  columns : List String
  rows : List (List α)

/-- An object: values by name. -/
abbrev Object (α : Type) := Std.ExtTreeMap String α compare

namespace Table

variable {α ρ : Type}

/-- A row as an object.  Of columns with equal names the last one counts. -/
def object (columns : List String) (row : List α) : Object α :=
  (columns.zip row).foldl (fun o cell => o.insert cell.1 cell.2) ∅

/-- The objects of rows; `index` is the number of the first of them. -/
def objectsFrom (columns : List String) (index : Nat) :
    List (List α) → Except BuildError (List (Object α))
  | [] => .ok []
  | row :: rows =>
      if row.length = columns.length then do
        let rest ← objectsFrom columns (index + 1) rows
        pure (object columns row :: rest)
      else .error (.storeResponse (.ragged index row.length columns.length))

/-- The rows as objects, unless one has the wrong number of cells. -/
def objects (t : Table α) : Except BuildError (List (Object α)) :=
  objectsFrom t.columns 0 t.rows

/-- The records of objects; `index` is the number of the first of them. -/
def recordsFrom (decode : Object α → Except String ρ) (index : Nat) :
    List (Object α) → Except BuildError (List ρ)
  | [] => .ok []
  | o :: rest =>
      match decode o with
      | .error reason => .error (.storeResponse (.unreadable index reason))
      | .ok first => do
          let others ← recordsFrom decode (index + 1) rest
          pure (first :: others)

/-- The rows as records, unless one has the wrong number of cells or is no record. -/
def records (decode : Object α → Except String ρ) (t : Table α) : Except BuildError (List ρ) := do
  let all ← t.objects
  recordsFrom decode 0 all

end Table

end Criteria
