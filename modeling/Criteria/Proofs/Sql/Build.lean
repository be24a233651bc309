import Criteria.Proofs.Sql.Syntax

/-!
# Filters with a condition

A filter has a condition exactly if each of its constraints has one.

**Results.**
* `exists_walk_iff`: a walk succeeds exactly if its constraints do.
* `exists_condition_iff`: a filter has a condition exactly if its constraints are accepted.
-/

namespace Criteria
namespace Sql

/-- The values that can be ordered: numbers, and texts that are points in time. -/
def orderable : Value → Bool
  | .text s => Calendar.isTimestamp s
  | .integer _ | .float _ => true
  | .boolean _ | .list _ => false

/-- The selector may be used, and an ordering is one of SQL, of a value that can be ordered. -/
def Options.Accepts (options : Options) : Constraint → Prop
  | .comparison name (.tagged tag) v =>
      options.isAllowed name = true ∧ (comparisonOfTag? tag).isSome = true ∧
        orderable (options.transformer name v) = true
  | leaf => options.isAllowed leaf.selector = true

theorem checkAccess_eq_ok {options : Options} {name : String} {u : Unit} :
    options.checkAccess name = .ok u ↔ options.isAllowed name = true := by
  rw [Options.checkAccess]
  split
  · next h => simp [h]
  · next h => simp [h]

theorem exists_ordering_iff {selector tag : String} {v : Value} :
    (∃ w, ordering selector tag v = .ok w) ↔
      (comparisonOfTag? tag).isSome = true ∧ orderable v = true := by
  have htag : (orderingOperator tag).isSome = (comparisonOfTag? tag).isSome := by
    simpa using congrArg Option.isSome (orderingOperator_eq tag)
  rw [← htag]
  unfold ordering
  cases orderingOperator tag with
  | none => simp
  | some operator =>
    cases v with
    | text s => by_cases hs : Calendar.isTimestamp s = true <;> simp [orderable, hs]
    | _ => simp [orderable]

theorem exists_onConstraint_iff {options : Options} {leaf : Constraint} {root : Expr}
    {state : String} :
    (∃ w, options.visitor.onConstraint leaf root state = .ok w) ↔ options.Accepts leaf := by
  have hcheck {name : String} {f : Unit → Except BuildError String} :
      (∃ w, (options.checkAccess name >>= f) = .ok w) ↔
        options.isAllowed name = true ∧ ∃ w, f () = .ok w := by
    constructor
    · rintro ⟨w, hw⟩
      obtain ⟨u, hu, hw⟩ := bind_eq_ok.1 hw
      exact ⟨checkAccess_eq_ok.1 hu, w, hw⟩
    · rintro ⟨ha, w, hw⟩
      exact ⟨w, bind_eq_ok.2 ⟨(), checkAccess_eq_ok.2 ha, hw⟩⟩
  cases leaf with
  | presence name => exact hcheck.trans (and_iff_left ⟨_, rfl⟩)
  | comparison name op v =>
    cases op with
    | equal => exact hcheck.trans (and_iff_left ⟨_, rfl⟩)
    | notEqual => exact hcheck.trans (and_iff_left ⟨_, rfl⟩)
    | tagged tag => exact hcheck.trans (and_congr_right fun _ => exists_ordering_iff)

/-- A walk succeeds exactly if its constraints do, since both combinators do. -/
theorem exists_walk_iff {options : Options} {root e : Expr} {state : String} :
    (∃ w, options.visitor.walk root e state = .ok w) ↔
      ∀ leaf ∈ e.constraints, ∃ w, options.visitor.onConstraint leaf root state = .ok w := by
  induction e with
  | constraint leaf => simp [Visitor.walk, Expr.constraints]
  | and l r ihl ihr | or l r ihl ihr =>
    simp only [Expr.constraints, List.mem_append, or_imp, forall_and, ← ihl, ← ihr]
    constructor
    · rintro ⟨w, hw⟩
      obtain ⟨left, hl, hw⟩ := bind_eq_ok.1 hw
      obtain ⟨right, hr, _⟩ := bind_eq_ok.1 hw
      exact ⟨⟨left, hl⟩, ⟨right, hr⟩⟩
    · rintro ⟨⟨left, hl⟩, ⟨right, hr⟩⟩
      exact ⟨_, bind_eq_ok.2 ⟨left, hl, bind_eq_ok.2 ⟨right, hr, rfl⟩⟩⟩

/-- A filter has a condition exactly if its constraints are accepted. -/
theorem exists_condition_iff {options : Options} {e : Expr} :
    (∃ w, options.condition e = .ok w) ↔ ∀ leaf ∈ e.constraints, options.Accepts leaf := by
  simp only [Options.condition, exists_walk_iff, exists_onConstraint_iff]

end Sql
end Criteria
