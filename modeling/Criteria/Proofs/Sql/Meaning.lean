import Criteria.Proofs.Decimal.Rounding
import Criteria.Proofs.Sql.Build
import Criteria.Proofs.Sql.Reading
import Criteria.Proofs.Sql.Semantics

/-!
# Conditions mean what filters mean

What a filter says about a row, stated on the filter itself, and that its condition, read back and
evaluated, says the same.

**Results.**
* `evaluate_compileConstraint`: a constraint holds exactly if its condition is true.
* `condition_means_filter`: so does a filter that has been read.
-/

namespace Criteria
namespace Sql

/-! ### What a filter says -/

/-- The scalar of a value; a list is none.  The number of a float is the one that its text writes,
which need not be the number that the float is, but is rounded to it. -/
def valueScalar? : Value → Option Scalar
  | .text s => some (.text s)
  | .integer n => some (.number n.toInt)
  | .float x => some (.number (floatValue x))
  | .boolean b => some (.boolean b)
  | .list _ => none

/-- A text as a pattern, in which every star stands for any sequence. -/
def starPattern (s : String) : List Wild :=
  s.toList.map fun c => if c = '*' then .sequence else .char c

variable {D : Type}

/-- What `==` says about the value of a column: a pattern matches it, the value is one of the items
of a list, or it equals the scalar. -/
def EqualityHolds (K : Comparisons D) (d : D) : Value → Prop
  | .list items => ∃ item ∈ items, ∃ s, valueScalar? item = some s ∧ K.equal d s = true
  | .text s =>
      if isPattern s then matchesPattern (starPattern s) (K.text d).toList = true
      else K.equal d (.text s) = true
  | v => ∃ s, valueScalar? v = some s ∧ K.equal d s = true

/-- What the tag of an ordering says. -/
def OrderingHolds (K : Comparisons D) (tag : String) (d : D) (s : Scalar) : Prop :=
  tag = "ge" ∧ (K.greater d s = true ∨ K.equal d s = true) ∨ tag = "gt" ∧ K.greater d s = true ∨
    tag = "le" ∧ (K.less d s = true ∨ K.equal d s = true) ∨ tag = "lt" ∧ K.less d s = true

/-- What a constraint says about a row. -/
def ConstraintHolds (K : Comparisons D) (row : Row D) : Constraint → Prop
  | .presence name => ∃ d, row name = some d
  | .comparison name .equal v => ∃ d, row name = some d ∧ EqualityHolds K d v
  | .comparison name .notEqual v => ∃ d, row name = some d ∧ ¬ EqualityHolds K d v
  | .comparison name (.tagged tag) v =>
      ∃ d s, row name = some d ∧ valueScalar? v = some s ∧ OrderingHolds K tag d s

/-- What a filter says about a row. -/
def FilterHolds (K : Comparisons D) (row : Row D) : Expr → Prop
  | .constraint c => ConstraintHolds K row c
  | .and l r => FilterHolds K row l ∧ FilterHolds K row r
  | .or l r => FilterHolds K row l ∨ FilterHolds K row r

/-- Scalars and flat lists, and no pattern that holds a wildcard of SQL. -/
def PlainValue : Value → Prop
  | .text s => isPattern s = true → '%' ∉ s.toList ∧ '_' ∉ s.toList
  | .list items => ∀ item ∈ items, (valueScalar? item).isSome = true
  | .integer _ | .float _ | .boolean _ => True

/-- Equalities are with plain values. -/
def Plain : Constraint → Prop
  | .comparison _ .equal v | .comparison _ .notEqual v => PlainValue v
  | .presence _ | .comparison _ (.tagged _) _ => True

/-! ### Values -/

section Values

/-- The literal of a value stands for the same scalar. -/
theorem scalar?_valueLiteral (v : Value) : (valueLiteral v).scalar? = valueScalar? v := by
  cases v with
  | integer n => rw [valueLiteral, Literal.scalar?, numeralValue_integer, valueScalar?]
  | _ => simp [valueLiteral, Literal.scalar?, valueScalar?, floatValue]

theorem exists_valueScalar? {v : Value} (h : orderable v = true) :
    ∃ s, valueScalar? v = some s := by
  cases v with
  | list items => cases h
  | _ => exact ⟨_, rfl⟩

theorem mapM_scalar?_valueLiterals {items : List Value}
    (h : ∀ item ∈ items, (valueScalar? item).isSome = true) :
    ∃ scalars, (valueLiterals items).mapM Literal.scalar? = some scalars ∧
      ∀ s, s ∈ scalars ↔ ∃ item ∈ items, valueScalar? item = some s := by
  induction items with
  | nil => exact ⟨[], rfl, by simp⟩
  | cons v vs ih =>
    obtain ⟨scalars, hscalars, hmem⟩ := ih fun item hitem => h item (List.mem_cons_of_mem v hitem)
    obtain ⟨s, hs⟩ := Option.isSome_iff_exists.1 (h v List.mem_cons_self)
    refine ⟨s :: scalars, ?_, fun t => ?_⟩
    · simp [valueLiterals, List.mapM_cons, scalar?_valueLiteral, hs, hscalars]
    · simp [hmem, hs, eq_comm]

/-- A pattern without wildcards of SQL is read as it was meant. -/
theorem likePattern_percent {s : String} (hpercent : '%' ∉ s.toList) (hone : '_' ∉ s.toList) :
    likePattern (percent s) = starPattern s := by
  rw [likePattern, percent, String.toList_ofList, List.map_map, starPattern]
  refine List.map_congr_left fun c hc => ?_
  have hc1 : c ≠ '%' := fun h => hpercent (h ▸ hc)
  have hc2 : c ≠ '_' := fun h => hone (h ▸ hc)
  by_cases hstar : c = '*'
  · simp [hstar]
  · simp [hstar, hc1, hc2]

theorem orderingHolds_iff {K : Comparisons D} {tag : String} {op : Comparison} {d : D} {s : Scalar}
    (h : comparisonOfTag? tag = some op) :
    OrderingHolds K tag d s ↔ K.compare op d s = true := by
  unfold comparisonOfTag? at h
  split_ifs at h with hge hgt hle hlt <;> cases h
  · simp [OrderingHolds, hge, Comparisons.compare]
  · simp [OrderingHolds, hgt, Comparisons.compare]
  · simp [OrderingHolds, hle, Comparisons.compare]
  · simp [OrderingHolds, hlt, Comparisons.compare]

end Values

/-! ### Constraints -/

section Constraints

variable {K : Comparisons D} {row : Row D}

/-- A comparison with a scalar is true exactly if it holds of the value of its column. -/
theorem evaluate_compare {column : String} {d : D} {s : Scalar} {l : Literal}
    (hrow : row column = some d) (hs : l.scalar? = some s) (op : Comparison) :
    (Condition.compare column op l).evaluate K row = some (K.compare op d s) := by
  simp [Condition.evaluate, hrow, hs]

theorem compare_equalityOperator (negated : Bool) (d : D) (s : Scalar) :
    K.compare (equalityOperator negated) d s = (negated != K.equal d s) := by
  cases negated <;> simp [equalityOperator, Comparisons.compare]

/-- What an equality with a scalar says, other than with a text. -/
theorem equalityHolds_scalar {v : Value} {d : D} {s : Scalar} (htext : v.isText = false)
    (hs : valueScalar? v = some s) : EqualityHolds K d v ↔ K.equal d s = true := by
  cases v with
  | text s => cases htext
  | list items => cases hs
  | _ => simp [EqualityHolds, hs]

/-- Membership in the empty list is true of no row, its negation of every one, even without a
value for the column. -/
theorem evaluate_empty_list (caseSensitive negated : Bool) (name : String) :
    (compileEquality caseSensitive negated name (.list [])).evaluate K row = some negated := by
  have hone : numeralValue ['1'] = 1 := numeralValue_integer 1
  have hzero : numeralValue ['0'] = 0 := numeralValue_integer 0
  rw [compileEquality, Condition.evaluate]
  cases negated
  · simp [hone, hzero, compareNumbers]
  · simp [hone, compareNumbers]

/-- The condition for an equality is true exactly if the equality holds, or does not when it is
negated. -/
theorem evaluate_compileEquality (negated : Bool) {name : String} {v : Value} {d : D}
    (hrow : row name = some d) (hplain : PlainValue v) :
    ∃ b, (compileEquality true negated name v).evaluate K row = some (negated != b) ∧
      (b = true ↔ EqualityHolds K d v) := by
  have hscalar (v : Value) {s : Scalar} (hs : valueScalar? v = some s) :
      (Condition.compare name (equalityOperator negated) (valueLiteral v)).evaluate K row =
        some (negated != K.equal d s) := by
    rw [evaluate_compare hrow ((scalar?_valueLiteral v).trans hs), compare_equalityOperator]
  cases v with
  | text s =>
    by_cases hs : isPattern s = true
    · obtain ⟨hpercent, hone⟩ := hplain hs
      refine ⟨matchesPattern (starPattern s) (K.text d).toList, ?_, by simp [EqualityHolds, hs]⟩
      simp [compileEquality, hs, Condition.evaluate, hrow, likePattern_percent hpercent hone]
    · refine ⟨K.equal d (.text s), ?_, by simp [EqualityHolds, hs]⟩
      rw [compileEquality, if_neg hs, if_pos rfl]
      exact hscalar (.text s) rfl
  | list items =>
    cases items with
    | nil =>
      refine ⟨false, ?_, by simp [EqualityHolds]⟩
      rw [evaluate_empty_list]
      simp
    | cons v vs =>
      obtain ⟨scalars, hscalars, hmem⟩ := mapM_scalar?_valueLiterals hplain
      refine ⟨scalars.any (K.equal d), ?_, ?_⟩
      · simp [compileEquality, Condition.evaluate, hrow, hscalars]
      · rw [List.any_eq_true, EqualityHolds]
        constructor
        · rintro ⟨s, hs, hequal⟩
          obtain ⟨item, hitem, hscalar⟩ := (hmem s).1 hs
          exact ⟨item, hitem, s, hscalar, hequal⟩
        · rintro ⟨item, hitem, s, hscalar, hequal⟩
          exact ⟨s, (hmem s).2 ⟨item, hitem, hscalar⟩, hequal⟩
  | integer n => exact ⟨_, hscalar _ rfl, (equalityHolds_scalar rfl rfl).symm⟩
  | float x => exact ⟨_, hscalar _ rfl, (equalityHolds_scalar rfl rfl).symm⟩
  | boolean b => exact ⟨_, hscalar _ rfl, (equalityHolds_scalar rfl rfl).symm⟩

/-- A constraint holds exactly if its condition is true. -/
theorem evaluate_compileConstraint {options : Options} (hcase : options.caseSensitive = true)
    (h : options.Verbatim) {leaf : Constraint} (hplain : Plain leaf)
    (haccepts : options.Accepts leaf) (hrow : row leaf.selector ≠ none) {c : Condition}
    (hc : compileConstraint options leaf = some c) :
    c.evaluate K row = some true ↔ ConstraintHolds K row leaf := by
  obtain ⟨d, hd⟩ := Option.ne_none_iff_exists'.1 hrow
  cases leaf with
  | presence name =>
    cases hc
    simp [Condition.evaluate, ConstraintHolds, Option.isSome_iff_exists]
  | comparison name op v =>
    have hname : row name = some d := hd
    rcases isEquality_or_tagged op with hop | ⟨tag, rfl⟩
    · rw [compileConstraint_equality hop, h, hcase, Option.some.injEq] at hc
      subst hc
      rcases hop with rfl | rfl
      · obtain ⟨b, hb, hholds⟩ := evaluate_compileEquality (K := K) false hname hplain
        have hfound : (false != b) = b := by cases b <;> rfl
        simp only [reduceCtorEq, decide_false, hb, hfound, Option.some.injEq, hholds]
        simp [ConstraintHolds, hname]
      · obtain ⟨b, hb, hholds⟩ := evaluate_compileEquality (K := K) true hname hplain
        have hfound : (true != b) = true ↔ ¬ b = true := by cases b <;> simp
        simp only [decide_true, hb, Option.some.injEq, hfound, hholds]
        simp [ConstraintHolds, hname]
    · obtain ⟨op, htag, rfl⟩ := compileConstraint_tagged.1 hc
      have horderable : orderable v = true := by
        have := haccepts.2.2
        rwa [h name v] at this
      obtain ⟨s, hs⟩ := exists_valueScalar? horderable
      rw [h, evaluate_compare hname ((scalar?_valueLiteral v).trans hs), Option.some.injEq,
        ← orderingHolds_iff htag]
      simp [ConstraintHolds, hname, hs]

end Constraints

/-! ### Filters -/

section Filters

variable {K : Comparisons D} {row : Row D} {options : Options}

theorem evaluate_compile (hcase : options.caseSensitive = true) (h : options.Verbatim) {e : Expr}
    (hplain : ∀ leaf ∈ e.constraints, Plain leaf)
    (haccepts : ∀ leaf ∈ e.constraints, options.Accepts leaf)
    (hrow : ∀ leaf ∈ e.constraints, row leaf.selector ≠ none) {c : Condition}
    (hc : compile options e = some c) : c.evaluate K row = some true ↔ FilterHolds K row e := by
  induction e generalizing c with
  | constraint leaf =>
    have hleaf := List.mem_singleton_self leaf
    exact evaluate_compileConstraint hcase h (hplain leaf hleaf) (haccepts leaf hleaf)
      (hrow leaf hleaf) hc
  | and l r ihl ihr =>
    obtain ⟨cl, cr, hl, hr, rfl⟩ := compile_and_eq_some.1 hc
    simp only [Expr.constraints, List.forall_mem_append] at hplain haccepts hrow
    rw [Condition.evaluate, conjunction_eq_true, ihl hplain.1 haccepts.1 hrow.1 hl,
      ihr hplain.2 haccepts.2 hrow.2 hr]
    rfl
  | or l r ihl ihr =>
    obtain ⟨cl, cr, hl, hr, rfl⟩ := compile_or_eq_some.1 hc
    simp only [Expr.constraints, List.forall_mem_append] at hplain haccepts hrow
    rw [Condition.evaluate, disjunction_eq_true, ihl hplain.1 haccepts.1 hrow.1 hl,
      ihr hplain.2 haccepts.2 hrow.2 hr]
    rfl

/-- **Conditions mean what filters mean.**  For a filter that has been read, and a row with a value
for each of its selectors, the text of the condition reads back as a condition that is true of the
row exactly if the filter holds.  The number that is compared for a finite float is rounded to this
float, and to no other one but a zero of the other sign. -/
theorem condition_means_filter {text w : String} {e : Expr} (hparse : Expr.parse text = .ok e)
    (hcase : options.caseSensitive = true) (h : options.Verbatim)
    (hplain : ∀ leaf ∈ e.constraints, Plain leaf) (hw : options.condition e = .ok w)
    (K : Comparisons D) (row : Row D)
    (hrow : ∀ leaf ∈ e.constraints, row leaf.selector ≠ none) :
    (∃ c, read w.toList = some c ∧ (c.evaluate K row = some true ↔ FilterHolds K row e)) ∧
      ∀ x y : Float, x.isFinite = true →
        (RoundsTo (floatValue x) y ↔ y.isFinite = true ∧ floatExact y = floatExact x) := by
  obtain ⟨c, hc, htext⟩ := condition_eq_ok hw
  have hwf := wellFormed_of_compile (fun leaf hleaf => Expr.parse_isName hparse hleaf) hc
  refine ⟨⟨c, by rw [htext, read_spell hwf], ?_⟩, fun _ _ hx => Decimal.roundsTo_floatValue_iff hx⟩
  exact evaluate_compile hcase h hplain (exists_condition_iff.1 ⟨w, hw⟩) hrow hc

/-- Columns that hold texts, compared with texts only. -/
def textComparisons : Comparisons String where
  equal d s := match s with
    | .text t => d = t
    | _ => false
  less d s := match s with
    | .text t => d < t
    | _ => false
  greater d s := match s with
    | .text t => t < d
    | _ => false
  text d := d
  lower := lowerText

theorem condition_means_filter_texts :
    ∃ c, read "(name LIKE 'a%' AND kind NOT IN ('b', 'c'))".toList = some c ∧
      c.evaluate textComparisons (fun column => if column = "name" then some "abc" else some "d") =
        some true := by
  have hparse : Expr.parse "name==a*;kind!=(b,c)" = .ok (.and
      (.constraint (.comparison "name" .equal (.text "a*")))
      (.constraint (.comparison "kind" .notEqual (.list [.text "b", .text "c"])))) := by
    decide +kernel
  have hw : ({} : Options).condition (.and
      (.constraint (.comparison "name" .equal (.text "a*")))
      (.constraint (.comparison "kind" .notEqual (.list [.text "b", .text "c"])))) =
        .ok "(name LIKE 'a%' AND kind NOT IN ('b', 'c'))" := by
    decide +kernel
  obtain ⟨⟨c, hread, hmeaning⟩, _⟩ := condition_means_filter hparse rfl (fun _ _ => rfl)
    (by simp [Expr.constraints, Plain, PlainValue, valueScalar?]) hw textComparisons
    (fun column => if column = "name" then some "abc" else some "d")
    (by simp [Expr.constraints, Constraint.selector])
  refine ⟨c, hread, hmeaning.2 ⟨⟨"abc", rfl, ?_⟩, ⟨"d", rfl, ?_⟩⟩⟩
  · rw [EqualityHolds, if_pos (by decide)]
    decide
  · simp [EqualityHolds, valueScalar?, textComparisons]

end Filters

end Sql
end Criteria
