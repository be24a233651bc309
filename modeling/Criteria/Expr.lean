import Criteria.Value

/-!
# Filter expressions

A filter is a tree of constraints joined by two binary combinators.  A constraint is a
bare selector, which asks for presence, or a selector compared with a value.  Grouping
leaves no trace in the tree.
-/

namespace Criteria

/-- The operator of a comparison: `==`, `!=`, or `=tag=` for a tag. -/
inductive Operator where
  | equal
  | notEqual
  | tagged (tag : String)
deriving DecidableEq, Repr

/-- The operator as a filter writes it. -/
def Operator.text : Operator → String
  | .equal => "=="
  | .notEqual => "!="
  | .tagged tag => "=" ++ tag ++ "="

/-- A leaf of a filter. -/
inductive Constraint where
  | presence (selector : String)
  | comparison (selector : String) (op : Operator) (value : Value)
deriving DecidableEq

namespace Constraint

/-- The selector that a constraint speaks about. -/
def selector : Constraint → String
  | .presence name => name
  | .comparison name _ _ => name

/-- Constraints agree when their selectors and operators are equal and their values agree. -/
def agrees : Constraint → Constraint → Bool
  | .presence a, .presence b => a = b
  | .comparison a op v, .comparison b op' w => a = b && op = op' && v.agrees w
  | _, _ => false

end Constraint

/-- A filter: constraints joined by `and` and `or`. -/
inductive Expr where
  | constraint (c : Constraint)
  | and (left right : Expr)
  | or (left right : Expr)
deriving DecidableEq

namespace Expr

def isConstraint : Expr → Bool
  | .constraint _ => true
  | _ => false

/-- The constraints of a filter from left to right. -/
def constraints : Expr → List Constraint
  | .constraint c => [c]
  | .and l r | .or l r => l.constraints ++ r.constraints

/-- The filter and all parts of it from left to right, each combinator behind its two sides. -/
def parts : Expr → List Expr
  | .constraint c => [.constraint c]
  | .and l r => l.parts ++ r.parts ++ [.and l r]
  | .or l r => l.parts ++ r.parts ++ [.or l r]

/-- Filters agree when they have one shape and their constraints agree pairwise. -/
def agrees : Expr → Expr → Bool
  | .constraint c, .constraint d => c.agrees d
  | .and l r, .and l' r' => l.agrees l' && r.agrees r'
  | .or l r, .or l' r' => l.agrees l' && r.agrees r'
  | _, _ => false

end Expr

end Criteria
