/-!
# JSON values

A JSON text as far as it can be read.  Where reading stops before the end of the text's value,
the value holds the fault at the place of the stop: a `broken` value where one was due, and the
`stop` of each array and object that was open.  Without faults it is the value that the text
writes.
-/

namespace Criteria

/-- Why reading stopped. -/
inductive Json.Fault where
  /-- The text ends too soon. -/
  | endOfText
  /-- What comes next is not JSON. -/
  | malformed
deriving DecidableEq, Repr

/-- A JSON value.  Members keep their order, and names may be repeated. -/
inductive Json where
  | null
  | boolean (b : Bool)
  /-- A number without fraction and exponent, of at most 64 bits. -/
  | integer (n : Int)
  /-- Any other number. -/
  | fraction (x : Float)
  | text (s : String)
  | array (items : List Json) (stop : Option Json.Fault)
  | object (members : List (String × Json)) (stop : Option Json.Fault)
  /-- A value that cannot be read. -/
  | broken (fault : Json.Fault)

namespace Json

/-- The fault at which reading stopped inside a value.  An array or object knows it, since all
that is open at a fault stops there. -/
def fault? : Json → Option Fault
  | .array _ stop | .object _ stop => stop
  | .broken fault => some fault
  | _ => none

/-- What reading a text gives: its value, and the fault of a text that goes on behind it. -/
structure Document where
  value : Json
  trailing : Option Fault

end Json

end Criteria
