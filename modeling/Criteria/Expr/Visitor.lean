import Criteria.Expr

/-!
# Visitors

A visitor is a set of callbacks for the nodes of a filter; `walk` hands each node to it and
threads a state through.  The callbacks act in a monad of the visitor's choice, so they may
fail, record what they see, or do neither.

A walk goes through both children of a combinator before the combinator itself.  Both children
start from the state that the combinator received; its callback gets their two results and that
state, and decides how to merge them.  Whatever a callback does not override leaves the state
as it is.
-/

namespace Criteria

/-- Callbacks over the nodes of a filter, with a state `σ` and a result `ω`.  Each callback gets
the root of the walk and the state at its node. -/
structure Visitor (m : Type → Type) [Monad m] (σ ω : Type) where
  /-- The state in which a walk over a root starts. -/
  init : Expr → m σ
  /-- Turns the state after a complete walk into the result. -/
  finish : Expr → σ → m ω
  /-- A disjunction: its two sides, the states after them, the root, and its own state. -/
  onOr : Expr → Expr → σ → σ → Expr → σ → m σ := fun _ _ _ _ _ state => pure state
  /-- A conjunction: its two sides, the states after them, the root, and its own state. -/
  onAnd : Expr → Expr → σ → σ → Expr → σ → m σ := fun _ _ _ _ _ state => pure state
  /-- A bare selector. -/
  onPresence : String → Expr → σ → m σ := fun _ _ state => pure state
  /-- A selector compared by `==` or `!=`. -/
  onEquality : String → Operator → Value → Expr → σ → m σ := fun _ _ _ _ state => pure state
  /-- A selector compared by an operator with a tag. -/
  onTagged : String → String → Value → Expr → σ → m σ := fun _ _ _ _ state => pure state
  /-- Any constraint; by default it goes to the callback for its shape. -/
  onConstraint : Constraint → Expr → σ → m σ := fun c root state =>
    match c with
    | .presence name => onPresence name root state
    | .comparison name (.tagged tag) value => onTagged name tag value root state
    | .comparison name op value => onEquality name op value root state

namespace Visitor

variable {m : Type → Type} [Monad m] {σ ω : Type}

/-- Walks a part of the filter `root` from a given state. -/
def walk (v : Visitor m σ ω) (root : Expr) : Expr → σ → m σ
  | .constraint c, state => v.onConstraint c root state
  | .and l r, state => do
      let left ← v.walk root l state
      let right ← v.walk root r state
      v.onAnd l r left right root state
  | .or l r, state => do
      let left ← v.walk root l state
      let right ← v.walk root r state
      v.onOr l r left right root state

/-- A complete walk over a filter, from the initial state to the result. -/
def run (v : Visitor m σ ω) (root : Expr) : m ω := do
  let start ← v.init root
  let state ← v.walk root root start
  v.finish root state

end Visitor

end Criteria
