import Criteria.Proofs.Sql.Build
import Criteria.Proofs.Visitor.Selectors
import Mathlib.Tactic.Choose

/-!
# Refused filters

Why a filter has no condition.  One constraint is refused by the first of its checks that fails;
a filter is refused by the first of its constraints that is, and for no other reason.  A filter
that is not refused has the texts of its constraints, joined in its own shape.

**Results.**
* `condition_eq_error_iff`: the error of a walk is the refusal of its first refused constraint.
* `condition_eq_ok_iff`: a condition is made of the texts of the constraints.
* `toSql_leftmost_refusal`: a query is refused exactly as its first refused constraint alone.
-/

namespace Criteria

/-- A filter with a text in place of each constraint: its combinators in parentheses. -/
def Expr.arrange (texts : Constraint → String) : Expr → String
  | .constraint leaf => texts leaf
  | .and l r => "(" ++ l.arrange texts ++ " AND " ++ r.arrange texts ++ ")"
  | .or l r => "(" ++ l.arrange texts ++ " OR " ++ r.arrange texts ++ ")"

namespace Sql

/-! ### One constraint -/

/-- Why an ordering has no condition: first its tag, then the value is refused. -/
def orderingRefusal (selector tag : String) (value : Value) : Option BuildError :=
  if tag ∉ ["ge", "gt", "le", "lt"] then
    some (.unsupportedOperator selector tag value.typeName)
  else
    match value with
    | .integer _ | .float _ => none
    | .text s => if Calendar.isTimestamp s then none else some (.dateFormat selector s)
    | .boolean _ | .list _ => some (.unsupportedOperator selector tag value.typeName)

/-- The refusal of a selector that is not allowed. -/
def Options.accessRefusal (options : Options) (selector : String) : Option BuildError :=
  if options.isAllowed selector then none else some (.selectorNotAllowed selector)

/-- Why a constraint has no condition: its selector is refused, whatever the rest; or else it is
an ordering, which is refused for the rewritten value. -/
def Options.refusal (options : Options) : Constraint → Option BuildError
  | .presence name => options.accessRefusal name
  | .comparison name .equal _ | .comparison name .notEqual _ => options.accessRefusal name
  | .comparison name (.tagged tag) value =>
      (options.accessRefusal name).or
        (orderingRefusal name tag (options.transformer name value))

theorem bind_eq_error {ε α β : Type} {x : Except ε α} {f : α → Except ε β} {error : ε} :
    x >>= f = .error error ↔ x = .error error ∨ ∃ a, x = .ok a ∧ f a = .error error := by
  cases x with
  | error other => simp [bind, Except.bind]
  | ok a => simp [bind, Except.bind]

theorem orderingOperator_eq_none_iff {tag : String} :
    orderingOperator tag = none ↔ tag ∉ ["ge", "gt", "le", "lt"] := by
  simp [orderingOperator]
  grind

theorem ordering_eq_error_iff {selector tag : String} {value : Value} {error : BuildError} :
    ordering selector tag value = .error error ↔
      orderingRefusal selector tag value = some error := by
  unfold ordering orderingRefusal
  simp only [← orderingOperator_eq_none_iff]
  cases orderingOperator tag with
  | none => simp
  | some operator =>
    cases value with
    | text s => by_cases hs : Calendar.isTimestamp s = true <;> simp [hs]
    | _ => simp

theorem checkAccess_bind_eq_error_iff {options : Options} {name : String} {error : BuildError}
    {f : Unit → Except BuildError String} :
    options.checkAccess name >>= f = .error error ↔
      options.accessRefusal name = some error ∨
        options.accessRefusal name = none ∧ f () = .error error := by
  rw [Options.checkAccess, Options.accessRefusal]
  cases options.isAllowed name with
  | false => simp [bind, Except.bind]
  | true => simp [bind, Except.bind]

/-- A constraint fails by its refusal. -/
theorem condition_constraint_eq_error_iff {options : Options} {leaf : Constraint}
    {error : BuildError} :
    options.condition (.constraint leaf) = .error error ↔ options.refusal leaf = some error := by
  cases leaf with
  | presence name =>
    refine checkAccess_bind_eq_error_iff.trans ?_
    simp [Options.refusal, pure, Except.pure]
  | comparison name op value =>
    cases op with
    | equal | notEqual =>
      refine checkAccess_bind_eq_error_iff.trans ?_
      simp [Options.refusal, pure, Except.pure]
    | tagged tag =>
      refine checkAccess_bind_eq_error_iff.trans ?_
      rw [Options.refusal, Option.or_eq_some_iff, ordering_eq_error_iff]

theorem exists_ok_iff {ε α : Type} {x : Except ε α} :
    (∃ a, x = .ok a) ↔ ∀ error, x ≠ .error error := by
  cases x with
  | error other => simp
  | ok a => simp

theorem exists_condition_constraint_iff {options : Options} {leaf : Constraint} :
    (∃ w, options.condition (.constraint leaf) = .ok w) ↔ options.refusal leaf = none := by
  simp only [exists_ok_iff, ne_eq, condition_constraint_eq_error_iff,
    Option.eq_none_iff_forall_not_mem, Option.mem_def]

/-! ### A whole filter -/

section Walk

variable {options : Options} {l r : Expr}

/-- The walk of this visitor depends neither on the root nor on the state it starts from. -/
theorem walk_eq_condition (root e : Expr) (state : String) :
    options.visitor.walk root e state = options.condition e := by
  suffices h : ∀ root' state', options.visitor.walk root e state =
      options.visitor.walk root' e state' from h e ""
  intro root' state'
  induction e with
  | constraint leaf =>
    cases leaf with
    | presence name => rfl
    | comparison name op value => cases op <;> rfl
  | and l r ihl ihr | or l r ihl ihr =>
    simp only [Visitor.walk, ihl, ihr]
    rfl

theorem condition_and :
    options.condition (.and l r) = (do
      let left ← options.condition l
      let right ← options.condition r
      pure ("(" ++ left ++ " AND " ++ right ++ ")")) := by
  rw [Options.condition, Visitor.walk, walk_eq_condition, walk_eq_condition]
  rfl

theorem condition_or :
    options.condition (.or l r) = (do
      let left ← options.condition l
      let right ← options.condition r
      pure ("(" ++ left ++ " OR " ++ right ++ ")")) := by
  rw [Options.condition, Visitor.walk, walk_eq_condition, walk_eq_condition]
  rfl

/-- The error of a walk is the refusal of its first refused constraint.  Neither combinator fails
by itself, so its error is the one of its left side, or else the one of its right side. -/
theorem condition_eq_error_iff {e : Expr} {error : BuildError} :
    options.condition e = .error error ↔
      e.constraints.findSome? options.refusal = some error := by
  induction e generalizing error with
  | constraint leaf =>
    rw [condition_constraint_eq_error_iff, Expr.constraints, List.findSome?_singleton]
  | and l r ihl ihr | or l r ihl ihr =>
    have hok : (∃ left, options.condition l = .ok left) ↔
        l.constraints.findSome? options.refusal = none := by
      simp only [exists_ok_iff, ne_eq, ihl, Option.eq_none_iff_forall_not_mem, Option.mem_def]
    simp only [condition_and, condition_or, bind_eq_error, ihl, ihr, Expr.constraints,
      List.findSome?_append, Option.or_eq_some_iff, exists_and_right, hok, pure, Except.pure,
      reduceCtorEq, and_false, exists_false, or_false]

/-- The texts of the constraints are joined in the shape of the filter. -/
theorem condition_eq_arrange {e : Expr} {texts : Constraint → String}
    (h : ∀ leaf ∈ e.constraints, options.condition (.constraint leaf) = .ok (texts leaf)) :
    options.condition e = .ok (e.arrange texts) := by
  induction e with
  | constraint leaf => exact h leaf (by simp [Expr.constraints])
  | and l r ihl ihr | or l r ihl ihr =>
    have hl := ihl fun leaf hleaf => h leaf (List.mem_append_left _ hleaf)
    have hr := ihr fun leaf hleaf => h leaf (List.mem_append_right _ hleaf)
    simp only [condition_and, condition_or, hl, hr, Expr.arrange]
    rfl

/-- A condition is made of the texts of the constraints. -/
theorem condition_eq_ok_iff {e : Expr} {w : String} :
    options.condition e = .ok w ↔
      ∃ texts : Constraint → String,
        (∀ leaf ∈ e.constraints, options.condition (.constraint leaf) = .ok (texts leaf)) ∧
          w = e.arrange texts := by
  constructor
  · intro hw
    have hleaves : ∀ leaf ∈ e.constraints, ∃ t, options.condition (.constraint leaf) = .ok t := by
      intro leaf hleaf
      have haccepts := exists_condition_iff.1 ⟨w, hw⟩ leaf hleaf
      exact exists_condition_iff.2 (by simpa [Expr.constraints] using haccepts)
    choose! texts htexts using hleaves
    have harrange := hw.symm.trans (condition_eq_arrange htexts)
    exact ⟨texts, htexts, Except.ok.inj harrange⟩
  · rintro ⟨texts, htexts, rfl⟩
    exact condition_eq_arrange htexts

theorem toSql_eq_error_iff {e : Expr} {error : BuildError} :
    options.toSql e = .error error ↔ options.condition e = .error error := by
  rw [toSql_eq]
  cases options.condition e <;> simp [Except.map]

theorem toSql_eq_ok_iff {e : Expr} {sql : String} :
    options.toSql e = .ok sql ↔ ∃ w, options.condition e = .ok w ∧ sql = options.query e w := by
  rw [toSql_eq]
  cases options.condition e <;> simp [Except.map, eq_comm]

theorem exists_toSql_iff {e : Expr} :
    (∃ sql, options.toSql e = .ok sql) ↔ ∃ w, options.condition e = .ok w := by
  simp only [toSql_eq_ok_iff]
  exact ⟨fun ⟨_, w, hw, _⟩ => ⟨w, hw⟩, fun ⟨w, hw⟩ => ⟨_, w, hw, rfl⟩⟩

theorem clause_eq {keyword opening : String} (h : " " ++ keyword ++ " " = opening)
    (content : Option String) : clause keyword content = content.elim "" (opening ++ ·) := by
  rw [clause, h]

end Walk

/-- A query is refused exactly if one of the constraints is refused alone, and then as the first
of them is; otherwise the filter's shape and the texts of its constraints make the condition, and
the query is the condition between the clauses of the options.  A constraint alone fails by its
refusal.  The list of columns is never a reason: the walk that collects the selectors succeeds, and a
query fails with its condition. -/
theorem toSql_leftmost_refusal (options : Options) (e : Expr) :
    ((∃ sql, options.toSql e = .ok sql) ↔
      ∀ leaf ∈ e.constraints, ∃ sql, options.toSql (.constraint leaf) = .ok sql) ∧
    (∀ error, options.toSql e = .error error ↔
      ∃ before leaf after, e.constraints = before ++ leaf :: after ∧
        (∀ earlier ∈ before, ∃ sql, options.toSql (.constraint earlier) = .ok sql) ∧
        options.toSql (.constraint leaf) = .error error) ∧
    (∀ sql, options.toSql e = .ok sql ↔
      ∃ texts : Constraint → String,
        (∀ leaf ∈ e.constraints, options.condition (.constraint leaf) = .ok (texts leaf)) ∧
          sql = options.query e (e.arrange texts)) ∧
    (∀ w, options.condition e = .ok w ↔
      ∃ texts : Constraint → String,
        (∀ leaf ∈ e.constraints, options.condition (.constraint leaf) = .ok (texts leaf)) ∧
          w = e.arrange texts) ∧
    (∀ w, options.query e w =
      "SELECT " ++
        (match options.select with
          | .all => "*"
          | .fromSelectors => ", ".intercalate e.selectors
          | .columns names => ", ".intercalate names) ++
        " FROM " ++ options.table ++ " WHERE " ++ w ++
        options.orderBy.elim "" (" ORDER BY " ++ ·) ++ options.limit.elim "" (" LIMIT " ++ ·) ++
        options.offset.elim "" (" OFFSET " ++ ·)) ∧
    (∀ leaf error, options.toSql (.constraint leaf) = .error error ↔
      options.refusal leaf = some error) ∧
    (Selectors.visitor (m := Except BuildError)).run e = .ok e.selectors ∧
    options.toSql e = (options.condition e).map (options.query e) := by
  have hleaf {leaf : Constraint} :
      (∃ sql, options.toSql (.constraint leaf) = .ok sql) ↔ options.refusal leaf = none :=
    exists_toSql_iff.trans exists_condition_constraint_iff
  refine ⟨?succeeds, ?first, ?shape, fun w => condition_eq_ok_iff, ?query, ?alone, ?selectors,
    toSql_eq options e⟩
  case succeeds =>
    rw [exists_toSql_iff, exists_condition_iff]
    simp only [exists_toSql_iff, exists_condition_iff, Expr.constraints, List.forall_mem_singleton]
  case first =>
    intro error
    rw [toSql_eq_error_iff, condition_eq_error_iff, List.findSome?_eq_some_iff]
    simp only [hleaf, toSql_eq_error_iff, condition_constraint_eq_error_iff,
      and_comm (a := options.refusal _ = some error)]
  case shape =>
    intro sql
    rw [toSql_eq_ok_iff]
    constructor
    · rintro ⟨w, hw, hsql⟩
      obtain ⟨texts, htexts, rfl⟩ := condition_eq_ok_iff.1 hw
      exact ⟨texts, htexts, hsql⟩
    · rintro ⟨texts, htexts, hsql⟩
      exact ⟨e.arrange texts, condition_eq_arrange htexts, hsql⟩
  case query =>
    intro w
    have horder : " " ++ "ORDER BY" ++ " " = " ORDER BY " := rfl
    have hlimit : " " ++ "LIMIT" ++ " " = " LIMIT " := rfl
    have hoffset : " " ++ "OFFSET" ++ " " = " OFFSET " := rfl
    rw [Options.query, clause_eq horder, clause_eq hlimit, clause_eq hoffset]
    rfl
  case alone =>
    intro leaf error
    rw [toSql_eq_error_iff, condition_constraint_eq_error_iff]
  case selectors => exact Selectors.visitor_run_eq_pure e

end Sql
end Criteria
