import Criteria.Decimal.Shortest

/-!
# Values

The literal arguments of a comparison.  Integers and floats are kept apart, so that a
query can show each as it was written; lists nest.
-/

namespace Criteria

/-- A literal argument of a comparison. -/
inductive Value where
  | text (s : String)
  | integer (n : Int64)
  | float (x : Float)
  | boolean (b : Bool)
  | list (items : List Value)

namespace Value

/-- The name of a value's type, as messages give it. -/
def typeName : Value → String
  | .text _ => "text"
  | .integer _ => "integer"
  | .float _ => "float"
  | .boolean _ => "boolean"
  | .list _ => "list"

def isText : Value → Bool
  | .text _ => true
  | _ => false

def isNumeric : Value → Bool
  | .integer _ | .float _ => true
  | _ => false

mutual

/-- Two values agree when they have one shape and equal parts.  Floats are compared as
numbers: a NaN agrees with nothing, and the two zeros agree. -/
def agrees : Value → Value → Bool
  | .text s, .text t => s = t
  | .integer m, .integer n => m = n
  | .float x, .float y => x == y
  | .boolean a, .boolean b => a = b
  | .list xs, .list ys => agreesList xs ys
  | _, _ => false

/-- Lists agree item by item. -/
def agreesList : List Value → List Value → Bool
  | [], [] => true
  | x :: xs, y :: ys => agrees x y && agreesList xs ys
  | _, _ => false

end

mutual

/-- Equality of values is decidable; it tells all floats apart, the two zeros included. -/
def decEq : (v w : Value) → Decidable (v = w)
  | .text s, .text t =>
      if h : s = t then isTrue (h ▸ rfl) else isFalse fun e => h (Value.text.inj e)
  | .integer m, .integer n =>
      if h : m = n then isTrue (h ▸ rfl) else isFalse fun e => h (Value.integer.inj e)
  | .float x, .float y =>
      if h : x = y then isTrue (h ▸ rfl) else isFalse fun e => h (Value.float.inj e)
  | .boolean a, .boolean b =>
      if h : a = b then isTrue (h ▸ rfl) else isFalse fun e => h (Value.boolean.inj e)
  | .list xs, .list ys =>
      match decEqList xs ys with
      | isTrue h => isTrue (h ▸ rfl)
      | isFalse h => isFalse fun e => h (Value.list.inj e)
  | .text _, .integer _ | .text _, .float _ | .text _, .boolean _ | .text _, .list _
  | .integer _, .text _ | .integer _, .float _ | .integer _, .boolean _ | .integer _, .list _
  | .float _, .text _ | .float _, .integer _ | .float _, .boolean _ | .float _, .list _
  | .boolean _, .text _ | .boolean _, .integer _ | .boolean _, .float _ | .boolean _, .list _
  | .list _, .text _ | .list _, .integer _ | .list _, .float _ | .list _, .boolean _ =>
      isFalse (by intro e; cases e)

/-- Equality of lists of values is decidable. -/
def decEqList : (xs ys : List Value) → Decidable (xs = ys)
  | [], [] => isTrue rfl
  | [], _ :: _ | _ :: _, [] => isFalse (by intro e; cases e)
  | x :: xs, y :: ys =>
      match decEq x y, decEqList xs ys with
      | isTrue h, isTrue hs => isTrue (h ▸ hs ▸ rfl)
      | isFalse h, _ => isFalse fun e => h (List.cons.inj e).1
      | _, isFalse hs => isFalse fun e => hs (List.cons.inj e).2

end

instance : DecidableEq Value := decEq

end Value

end Criteria
