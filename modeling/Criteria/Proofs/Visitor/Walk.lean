import Criteria.Proofs.Visitor.Calls
import Mathlib.Data.List.Infix

/-!
# The law of walks

What holds of every visitor, whatever its callbacks do.  A walk calls one callback for each part of
the filter, the sides of a combinator before the combinator, and stops at the first failure.  Each
callback is given the state that the walk has started from, and a combinator the results that its
sides give alone.  So nothing in a part of a filter depends on what stands beside it.

**Results.**
* `Visitor.inOrder_calls`: the order of the calls, and where they end.
* `Visitor.given_calls`: what the callbacks are given.
* `Visitor.walk_law`: both, for walks over parts and for complete walks, and the calls by shape.
-/

namespace Criteria
namespace Visitor

variable {ε σ ω α β : Type}

/-- What becomes of a call: it succeeds, or it fails with an error. -/
def attempt (v : Visitor (Except ε) σ ω) (call : Call σ) : Except ε Unit :=
  match call.callback with
  | .constraint c => discard (v.onConstraint c call.root call.state)
  | .presence name => discard (v.onPresence name call.root call.state)
  | .equality name op value => discard (v.onEquality name op value call.root call.state)
  | .tagged name tag value => discard (v.onTagged name tag value call.root call.state)
  | .and l r a b => discard (v.onAnd l r a b call.root call.state)
  | .or l r a b => discard (v.onOr l r a b call.root call.state)
  | .finish => discard (v.finish call.root call.state)

/-- Calls for these parts of a filter, in this order.  Where the answer is a success, all of them
are made and succeed.  Where it is an error, they end with the first one that fails, and with its
error. -/
def InOrder (v : Visitor (Except ε) σ ω) (order : List Expr) (made : List (Call σ)) :
    Except ε α → Prop
  | .ok _ => (made.map fun call => call.callback.node) = order.map some ∧
      ∀ call ∈ made, v.attempt call = .ok ()
  | .error e => (made.map fun call => call.callback.node) <+: order.map some ∧
      ∃ before last, made = before ++ [last] ∧ (∀ call ∈ before, v.attempt call = .ok ()) ∧
        v.attempt last = .error e

/-- What a callback is given in a walk over the filter `root` from the state `s`: both of them
unchanged and, if it is for a combinator, what the walks over its sides alone give. -/
structure Given (v : Visitor (Except ε) σ ω) (root : Expr) (s : σ) (call : Call σ) : Prop where
  root_eq : call.root = root
  state_eq : call.state = s
  sides : ∀ l r a b, call.callback = .and l r a b ∨ call.callback = .or l r a b →
    v.walk root l s = .ok a ∧ v.walk root r s = .ok b

section Order

variable {v : Visitor (Except ε) σ ω} {order order' : List Expr} {made : List (Call σ)}

/-- A call by itself. -/
theorem inOrder_call {call : Call σ} {part : Expr} {answer : Except ε α}
    (hnode : call.callback.node = some part) (hattempt : v.attempt call = discard answer) :
    v.InOrder [part] [call] answer := by
  cases answer with
  | ok a => exact ⟨congrArg (fun node => [node]) hnode, List.forall_mem_singleton.2 hattempt⟩
  | error e =>
    refine ⟨?_, [], call, rfl, List.forall_mem_nil _, hattempt⟩
    rw [List.map_singleton, hnode]
    exact List.prefix_rfl

/-- One action after another: if the first one fails, so does the whole. -/
theorem InOrder.bind {x : Except ε α} {f : α → Except ε β} {next : α → List (Call σ)}
    (h : v.InOrder order made x) (h' : ∀ a, x = .ok a → v.InOrder order' (next a) (f a)) :
    v.InOrder (order ++ order') (made ++ onSuccess x next) (x >>= f) := by
  cases x with
  | error e =>
    obtain ⟨hnodes, hstops⟩ := h
    rw [onSuccess, List.append_nil]
    refine ⟨?_, hstops⟩
    rw [List.map_append]
    exact hnodes.trans (List.prefix_append _ _)
  | ok a =>
    obtain ⟨hnodes, hall⟩ := h
    have hnext := h' a rfl
    rw [onSuccess]
    change v.InOrder (order ++ order') (made ++ next a) (f a)
    cases hfa : f a with
    | ok b =>
      rw [hfa] at hnext
      rw [InOrder, List.map_append, List.map_append, hnodes, hnext.1]
      exact ⟨rfl, List.forall_mem_append.2 ⟨hall, hnext.2⟩⟩
    | error e =>
      rw [hfa] at hnext
      obtain ⟨hnodes', before, last, hmade, hbefore, hlast⟩ := hnext
      rw [InOrder, List.map_append, List.map_append, hnodes, List.prefix_append_right_inj]
      refine ⟨hnodes', made ++ before, last, ?_, List.forall_mem_append.2 ⟨hall, hbefore⟩, hlast⟩
      rw [hmade, List.append_assoc]

end Order

section Walks

variable (v : Visitor (Except ε) σ ω) (root : Expr) (s : σ)

/-- A walk calls for the parts of a filter from left to right, and stops at the first failure. -/
theorem inOrder_calls (e : Expr) : v.InOrder e.parts (v.calls root s e) (v.walk root e s) := by
  induction e with
  | constraint c => exact inOrder_call rfl rfl
  | and l r ihl ihr | or l r ihl ihr =>
    rw [Expr.parts, List.append_assoc]
    exact ihl.bind fun a _ => ihr.bind fun b _ => inOrder_call rfl rfl

theorem forall_mem_onSuccess {P : Call σ → Prop} {x : Except ε α} {next : α → List (Call σ)}
    (h : ∀ a, x = .ok a → ∀ call ∈ next a, P call) : ∀ call ∈ onSuccess x next, P call := by
  cases x with
  | error e => exact List.forall_mem_nil _
  | ok a => exact h a rfl

/-- The state that a callback is given does not depend on the calls before. -/
theorem given_calls (e : Expr) : ∀ call ∈ v.calls root s e, v.Given root s call := by
  induction e with
  | constraint c =>
    refine List.forall_mem_singleton.2 ⟨rfl, rfl, fun _ _ _ _ h => ?_⟩
    rcases h with h | h <;> cases h
  | and l r ihl ihr | or l r ihl ihr =>
    refine List.forall_mem_append.2 ⟨ihl, forall_mem_onSuccess fun a ha => ?_⟩
    refine List.forall_mem_append.2 ⟨ihr, forall_mem_onSuccess fun b hb => ?_⟩
    refine List.forall_mem_singleton.2 ⟨rfl, rfl, fun _ _ _ _ h => ?_⟩
    rcases h with h | h <;> cases h
    exact ⟨ha, hb⟩

/-- A walk over a combinator begins with the walk over its left side and, if that succeeds, goes on
with the walk over its right side, both as they are alone. -/
theorem calls_sides {join : Expr → Expr → Expr} (hjoin : join = .and ∨ join = .or) (l r : Expr) :
    v.calls root s l <+: v.calls root s (join l r) ∧
      ∀ a, v.walk root l s = .ok a →
        v.calls root s l ++ v.calls root s r <+: v.calls root s (join l r) := by
  rcases hjoin with rfl | rfl
  all_goals
    refine ⟨List.prefix_append _ _, fun a ha => ?_⟩
    rw [calls, ha, onSuccess, List.prefix_append_right_inj]
    exact List.prefix_append _ _

/-- The callbacks of a walk are for parts of the filter. -/
theorem node_mem_parts {e : Expr} {call : Call σ} (h : call ∈ v.calls root s e) :
    call.callback.node ∈ e.parts.map some := by
  have hmem := List.mem_map_of_mem (f := fun call : Call σ => call.callback.node) h
  have horder := v.inOrder_calls root s e
  cases hwalk : v.walk root e s with
  | ok state =>
    rw [hwalk] at horder
    rwa [horder.1] at hmem
  | error error =>
    rw [hwalk] at horder
    exact horder.1.mem hmem

/-- A complete walk that fails has not come to its end. -/
theorem finish_not_called {start : σ} {error : ε} (hinit : v.init root = .ok start)
    (hwalk : v.walk root root start = .error error) :
    v.run root = .error error ∧ v.callsOfRun root = v.calls root start root ∧
      ∀ call ∈ v.callsOfRun root, call.callback ≠ .finish := by
  have hcalls : v.callsOfRun root = v.calls root start root := by
    rw [callsOfRun, hinit, onSuccess, hwalk, onSuccess, List.append_nil]
  refine ⟨?_, hcalls, fun call hcall hfinish => ?_⟩
  · rw [run, hinit]
    change v.walk root root start >>= v.finish root = _
    rw [hwalk]
    rfl
  · rw [hcalls] at hcall
    have hpart := v.node_mem_parts root start hcall
    rw [hfinish] at hpart
    simp [Callback.node] at hpart

end Walks

/-- The shape of a constraint decides on its callback: a bare selector, `==` or `!=`, or a tag. -/
theorem byShape_cases (c : Constraint) :
    (∃ name, c = .presence name ∧
      (Callback.constraint c : Callback σ).byShape = .presence name) ∨
    (∃ name op value, (op = .equal ∨ op = .notEqual) ∧ c = .comparison name op value ∧
      (Callback.constraint c : Callback σ).byShape = .equality name op value) ∨
    ∃ name tag value, c = .comparison name (.tagged tag) value ∧
      (Callback.constraint c : Callback σ).byShape = .tagged name tag value := by
  cases c with
  | presence name => exact .inl ⟨name, rfl, rfl⟩
  | comparison name op value =>
    cases op with
    | equal => exact .inr (.inl ⟨name, .equal, value, .inl rfl, rfl, rfl⟩)
    | notEqual => exact .inr (.inl ⟨name, .notEqual, value, .inr rfl, rfl, rfl⟩)
    | tagged tag => exact .inr (.inr ⟨name, tag, value, rfl, rfl⟩)

/-- **The law of walks.**  A walk calls once for each part of a filter, from left to right and for
the sides of a combinator first, up to the first failure, whose error it returns; a complete walk
does not finish then.  All callbacks are given the same root and state, and combinators what their
sides give alone.  What is called for one side of a combinator is the same whatever the other side
is.  By default the call for a constraint goes to one callback, by its shape. -/
theorem walk_law (v : Visitor (Except ε) σ ω) (root : Expr) (s : σ) :
    (∀ e, (v.recorded.walk root e s).outcome = (v.walk root e s, v.calls root s e) ∧
      v.InOrder e.parts (v.calls root s e) (v.walk root e s) ∧
      ∀ call ∈ v.calls root s e, v.Given root s call) ∧
    (∀ join, join = Expr.and ∨ join = Expr.or → ∀ l r,
      v.calls root s l <+: v.calls root s (join l r) ∧
        ∀ a, v.walk root l s = .ok a →
          v.calls root s l ++ v.calls root s r <+: v.calls root s (join l r)) ∧
    (v.recorded.run root).outcome = (v.run root, v.callsOfRun root) ∧
    (∀ start error, v.init root = .ok start → v.walk root root start = .error error →
      v.run root = .error error ∧ v.callsOfRun root = v.calls root start root ∧
        ∀ call ∈ v.callsOfRun root, call.callback ≠ .finish) ∧
    (∀ e, (v.recorded.forwarding.walk root e s).outcome =
      (v.forwarding.walk root e s, (v.forwarding.calls root s e).map Call.byShape)) ∧
    ∀ c : Constraint,
      (∃ name, c = .presence name ∧
        (Callback.constraint c : Callback σ).byShape = .presence name) ∨
      (∃ name op value, (op = .equal ∨ op = .notEqual) ∧ c = .comparison name op value ∧
        (Callback.constraint c : Callback σ).byShape = .equality name op value) ∨
      ∃ name tag value, c = .comparison name (.tagged tag) value ∧
        (Callback.constraint c : Callback σ).byShape = .tagged name tag value := by
  refine ⟨fun e => ⟨?recorded, ?order, ?given⟩, ?sides, ?complete, ?unfinished, ?shapes, ?shape⟩
  case recorded => exact (v.makes_walk root e s).outcome_eq
  case order => exact v.inOrder_calls root s e
  case given => exact v.given_calls root s e
  case sides => exact fun join hjoin l r => v.calls_sides root s hjoin l r
  case complete => exact (v.makes_run root).outcome_eq
  case unfinished => exact fun start error hinit hwalk => v.finish_not_called root hinit hwalk
  case shapes => exact fun e => (v.makes_walk_forwarding root e s).outcome_eq
  case shape => exact byShape_cases

end Visitor
end Criteria
