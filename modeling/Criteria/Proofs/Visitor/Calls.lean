import Criteria.Expr.Visitor

/-!
# The calls of a walk

A visitor says nothing about the order in which its callbacks are called.  So each callback is
made to write down the call before it acts, and the same walk is done with these callbacks.  The list
of calls outlives a failure.

**Results.**
* `Visitor.makes_walk`: a walk with written calls answers as the one without, and the calls are
  those that `Visitor.calls` says, part by part.
* `Visitor.makes_run`: a complete walk calls `finish` only after a walk that succeeds.
* `Visitor.makes_walk_forwarding`: by default the call for a constraint goes to the callback for its
  shape.
-/

namespace Criteria
namespace Visitor

/-- A callback of a visitor, with what it is given apart from the root and the state. -/
inductive Callback (σ : Type) where
  | constraint (c : Constraint)
  | presence (name : String)
  | equality (name : String) (op : Operator) (value : Value)
  | tagged (name tag : String) (value : Value)
  | and (left right : Expr) (leftState rightState : σ)
  | or (left right : Expr) (leftState rightState : σ)
  | finish

/-- A call of a callback. -/
structure Call (σ : Type) where
  callback : Callback σ
  root : Expr
  state : σ

/-- The part of the filter that the call is for; `finish` is for none. -/
def Callback.node {σ : Type} : Callback σ → Option Expr
  | .constraint c => some (.constraint c)
  | .presence name => some (.constraint (.presence name))
  | .equality name op value => some (.constraint (.comparison name op value))
  | .tagged name tag value => some (.constraint (.comparison name (.tagged tag) value))
  | .and l r _ _ => some (.and l r)
  | .or l r _ _ => some (.or l r)
  | .finish => none

/-- The callback for the shape of a constraint, in place of the one for any constraint. -/
def Callback.byShape {σ : Type} : Callback σ → Callback σ
  | .constraint (.presence name) => .presence name
  | .constraint (.comparison name (.tagged tag) value) => .tagged name tag value
  | .constraint (.comparison name op value) => .equality name op value
  | other => other

/-- The call with the callback for the shape of its constraint. -/
def Call.byShape {σ : Type} (call : Call σ) : Call σ :=
  { call with callback := call.callback.byShape }

/-- Actions that may fail and that write down calls. -/
abbrev Recording (ε σ : Type) : Type → Type :=
  ExceptT ε (StateM (List (Call σ)))

/-- Writes down a call, and then does what the callback does. -/
def record {ε σ α : Type} (call : Call σ) (answer : Except ε α) : Recording ε σ α :=
  ExceptT.mk fun calls => (answer, calls ++ [call])

/-- The answer of an action, and the calls that it writes down. -/
def Recording.outcome {ε σ α : Type} (x : Recording ε σ α) : Except ε α × List (Call σ) :=
  Id.run (x.run.run [])

section Definitions

variable {ε σ ω : Type}

/-- The visitor that writes down each call. -/
def recorded (v : Visitor (Except ε) σ ω) : Visitor (Recording ε σ) σ ω where
  init root := ExceptT.mk (pure (v.init root))
  finish root state := record ⟨.finish, root, state⟩ (v.finish root state)
  onOr l r a b root state := record ⟨.or l r a b, root, state⟩ (v.onOr l r a b root state)
  onAnd l r a b root state := record ⟨.and l r a b, root, state⟩ (v.onAnd l r a b root state)
  onPresence name root state := record ⟨.presence name, root, state⟩ (v.onPresence name root state)
  onEquality name op value root state :=
    record ⟨.equality name op value, root, state⟩ (v.onEquality name op value root state)
  onTagged name tag value root state :=
    record ⟨.tagged name tag value, root, state⟩ (v.onTagged name tag value root state)
  onConstraint c root state := record ⟨.constraint c, root, state⟩ (v.onConstraint c root state)

/-- The visitor with the default callback for any constraint. -/
def forwarding {m : Type → Type} [Monad m] (v : Visitor m σ ω) : Visitor m σ ω where
  init := v.init
  finish := v.finish
  onOr := v.onOr
  onAnd := v.onAnd
  onPresence := v.onPresence
  onEquality := v.onEquality
  onTagged := v.onTagged

/-- What is called after a success; a failure ends the calls. -/
def onSuccess {α : Type} (answer : Except ε α) (next : α → List (Call σ)) : List (Call σ) :=
  match answer with
  | .ok a => next a
  | .error _ => []

/-- The calls of a walk over a part of the filter `root`, from the state `s`: for a combinator those
for its left side, those for its right side, and its own, up to the first failure. -/
def calls (v : Visitor (Except ε) σ ω) (root : Expr) (s : σ) : Expr → List (Call σ)
  | .constraint c => [⟨.constraint c, root, s⟩]
  | .and l r =>
      v.calls root s l ++ onSuccess (v.walk root l s) fun a =>
        v.calls root s r ++ onSuccess (v.walk root r s) fun b => [⟨.and l r a b, root, s⟩]
  | .or l r =>
      v.calls root s l ++ onSuccess (v.walk root l s) fun a =>
        v.calls root s r ++ onSuccess (v.walk root r s) fun b => [⟨.or l r a b, root, s⟩]

/-- The calls of a complete walk, which finishes if nothing has failed before. -/
def callsOfRun (v : Visitor (Except ε) σ ω) (root : Expr) : List (Call σ) :=
  onSuccess (v.init root) fun s =>
    v.calls root s root ++ onSuccess (v.walk root root s) fun state => [⟨.finish, root, state⟩]

end Definitions

theorem map_onSuccess {ε σ α : Type} (f : Call σ → Call σ) (answer : Except ε α)
    (next : α → List (Call σ)) :
    (onSuccess answer next).map f = onSuccess answer fun a => (next a).map f := by
  cases answer <;> rfl

/-! ### Actions that write down calls -/

namespace Recording

variable {ε σ α β : Type}

/-- The action answers so and writes down these calls, whatever was written before. -/
def Makes (x : Recording ε σ α) (answer : Except ε α) (calls : List (Call σ)) : Prop :=
  ∀ before, Id.run (x.run.run before) = (answer, before ++ calls)

theorem Makes.outcome_eq {x : Recording ε σ α} {answer : Except ε α} {calls : List (Call σ)}
    (h : x.Makes answer calls) : x.outcome = (answer, calls) :=
  h []

theorem makes_record (call : Call σ) (answer : Except ε α) :
    (record call answer).Makes answer [call] :=
  fun _ => rfl

theorem makes_lift (answer : Except ε α) :
    Makes (ExceptT.mk (pure answer) : Recording ε σ α) answer [] := by
  intro before
  rw [List.append_nil]
  rfl

/-- One action after another: the second one is left out if the first one fails. -/
theorem Makes.bind {x : Recording ε σ α} {f : α → Recording ε σ β} {answer : Except ε α}
    {g : α → Except ε β} {calls : List (Call σ)} {next : α → List (Call σ)}
    (h : x.Makes answer calls) (h' : ∀ a, (f a).Makes (g a) (next a)) :
    (x >>= f).Makes (answer >>= g) (calls ++ onSuccess answer next) := by
  intro before
  have hx := h before
  simp only [ExceptT.run_bind, StateT.run_bind, Id.run_bind] at hx ⊢
  rw [hx]
  cases answer with
  | error e => exact congrArg (Prod.mk _ <| before ++ ·) (List.append_nil calls).symm
  | ok a =>
    rw [onSuccess, ← List.append_assoc]
    exact h' a (before ++ calls)

end Recording

/-! ### Walks -/

section Walks

variable {ε σ ω : Type} (v : Visitor (Except ε) σ ω) (root : Expr)

/-- A walk with written calls answers as the one without. -/
theorem makes_walk (e : Expr) (s : σ) :
    (v.recorded.walk root e s).Makes (v.walk root e s) (v.calls root s e) := by
  induction e with
  | constraint c => exact Recording.makes_record _ _
  | and l r ihl ihr | or l r ihl ihr =>
    exact ihl.bind fun a => ihr.bind fun b => Recording.makes_record _ _

/-- A complete walk with written calls answers as the one without. -/
theorem makes_run : (v.recorded.run root).Makes (v.run root) (v.callsOfRun root) := by
  have hinit := Recording.makes_lift (σ := σ) (v.init root)
  exact hinit.bind fun s => (v.makes_walk root root s).bind fun state => Recording.makes_record _ _

/-- With the default callback for any constraint, the calls go to the callbacks for the shapes. -/
theorem makes_walk_forwarding (e : Expr) (s : σ) :
    (v.recorded.forwarding.walk root e s).Makes (v.forwarding.walk root e s)
      ((v.forwarding.calls root s e).map Call.byShape) := by
  induction e with
  | constraint c =>
    cases c with
    | presence name => exact Recording.makes_record _ _
    | comparison name op value => cases op <;> exact Recording.makes_record _ _
  | and l r ihl ihr | or l r ihl ihr =>
    simp only [calls, List.map_append, map_onSuccess]
    exact ihl.bind fun a => ihr.bind fun b => Recording.makes_record _ _

end Walks

end Visitor
end Criteria
