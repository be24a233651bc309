import Criteria.Proofs.Decimal.FloatText
import Criteria.Proofs.Sql.Reading

/-!
# Filters with one condition

Which filters have the same condition, with values left as they are.  Conditions can be read
back, so what is left are the constraints whose syntax trees coincide.

**Results.**
* `valueLiteral_eq_iff`: two values have one literal exactly if they are interchangeable.
* `compileConstraint_eq_iff`: two constraints have one condition exactly if they are related.
* `condition_eq_iff`: two filters that have been read have one condition exactly if they are
  related.
-/

namespace Criteria
namespace Sql

mutual

/-- Values that are equal up to integers and floats with one decimal text. -/
def Interchangeable : Value → Value → Prop
  | .integer n, .float x => toString n.toInt = floatText x
  | .float x, .integer n => floatText x = toString n.toInt
  | .text s, .text t => s = t
  | .integer m, .integer n => m = n
  | .float x, .float y => x = y
  | .boolean a, .boolean b => a = b
  | .list vs, .list ws => InterchangeableItems vs ws
  | _, _ => False

def InterchangeableItems : List Value → List Value → Prop
  | [], [] => True
  | v :: vs, w :: ws => Interchangeable v w ∧ InterchangeableItems vs ws
  | _, _ => False

end

/-- Constraints that have one condition. -/
inductive Related : Constraint → Constraint → Prop where
  | presence (name : String) : Related (.presence name) (.presence name)
  | value (name : String) (op : Operator) {v w : Value} (h : Interchangeable v w) :
      Related (.comparison name op v) (.comparison name op w)
  /-- Two patterns, in which a star and a percent sign are not told apart. -/
  | pattern (name : String) {op : Operator} (hop : IsEquality op) {s t : String}
      (hs : isPattern s = true) (ht : isPattern t = true) (h : percent s = percent t) :
      Related (.comparison name op (.text s)) (.comparison name op (.text t))
  /-- Membership in the empty list, whatever the selector. -/
  | empty (name name' : String) {op : Operator} (hop : IsEquality op) :
      Related (.comparison name op (.list [])) (.comparison name' op (.list []))

/-- Filters of one shape, whose constraints are related. -/
def RelatedFilters : Expr → Expr → Prop
  | .constraint c, .constraint d => Related c d
  | .and l r, .and l' r' | .or l r, .or l' r' => RelatedFilters l l' ∧ RelatedFilters r r'
  | _, _ => False

/-! ### Literals -/

section Literals

mutual

/-- Two values have one literal exactly if they are interchangeable. -/
theorem valueLiteral_eq_iff : ∀ v w : Value, valueLiteral v = valueLiteral w ↔ Interchangeable v w
  | .text s, .text t => by simp [valueLiteral, Interchangeable]
  | .integer m, .integer n => by
      rw [valueLiteral, valueLiteral, Literal.number.injEq, Interchangeable]
      exact ⟨fun h => Int64.toInt_inj.1 (toString_int_injective h), fun h => h ▸ rfl⟩
  | .float x, .float y => by
      rw [valueLiteral, valueLiteral, Literal.number.injEq, Interchangeable]
      exact ⟨Decimal.floatText_injective, fun h => h ▸ rfl⟩
  | .integer n, .float x => by simp [valueLiteral, Interchangeable]
  | .float x, .integer n => by simp [valueLiteral, Interchangeable]
  | .boolean a, .boolean b => by simp [valueLiteral, Interchangeable]
  | .list vs, .list ws => by
      have hitems := valueLiterals_eq_iff vs ws
      simp [valueLiteral, Interchangeable, hitems]
  | .text _, .integer _ | .text _, .float _ | .text _, .boolean _ | .text _, .list _
  | .integer _, .text _ | .integer _, .boolean _ | .integer _, .list _
  | .float _, .text _ | .float _, .boolean _ | .float _, .list _
  | .boolean _, .text _ | .boolean _, .integer _ | .boolean _, .float _ | .boolean _, .list _
  | .list _, .text _ | .list _, .integer _ | .list _, .float _ | .list _, .boolean _ => by
      simp [valueLiteral, Interchangeable]

theorem valueLiterals_eq_iff : ∀ vs ws : List Value,
    valueLiterals vs = valueLiterals ws ↔ InterchangeableItems vs ws
  | [], [] => by simp [valueLiterals, InterchangeableItems]
  | [], w :: ws => by simp [valueLiterals, InterchangeableItems]
  | v :: vs, [] => by simp [valueLiterals, InterchangeableItems]
  | v :: vs, w :: ws => by
      have hfirst := valueLiteral_eq_iff v w
      have hrest := valueLiterals_eq_iff vs ws
      simp [valueLiterals, InterchangeableItems, hfirst, hrest]

end

end Literals

/-! ### Constraints -/

section Constraints

theorem equalityOperator_inj {negated negated' : Bool} :
    equalityOperator negated = equalityOperator negated' ↔ negated = negated' := by
  cases negated <;> cases negated' <;> simp [equalityOperator]

theorem compileEquality_text_eq_iff {caseSensitive negated negated' : Bool} {a b s t : String} :
    compileEquality caseSensitive negated a (.text s) =
        compileEquality caseSensitive negated' b (.text t) ↔
      negated = negated' ∧ a = b ∧
        (s = t ∨ isPattern s = true ∧ isPattern t = true ∧ percent s = percent t) := by
  by_cases hs : isPattern s = true
  · by_cases ht : isPattern t = true
    · simp only [compileEquality, if_pos hs, if_pos ht, Condition.like.injEq]
      constructor
      · rintro ⟨hnegated, _, rfl, hpercent⟩
        exact ⟨hnegated, rfl, .inr ⟨hs, ht, hpercent⟩⟩
      · rintro ⟨hnegated, rfl, rfl | ⟨_, _, hpercent⟩⟩
        · exact ⟨hnegated, trivial, rfl, rfl⟩
        · exact ⟨hnegated, trivial, rfl, hpercent⟩
    · have hne : s ≠ t := fun h => ht (h ▸ hs)
      cases caseSensitive <;> simp [compileEquality, hs, ht, hne]
  · by_cases ht : isPattern t = true
    · have hne : s ≠ t := fun h => hs (h ▸ ht)
      cases caseSensitive <;> simp [compileEquality, hs, ht, hne]
    · cases caseSensitive <;>
        simp [compileEquality, hs, ht, equalityOperator_inj, and_left_comm]

theorem compileEquality_list_eq_iff {caseSensitive negated negated' : Bool} {a b : String}
    {vs ws : List Value} :
    compileEquality caseSensitive negated a (.list vs) =
        compileEquality caseSensitive negated' b (.list ws) ↔
      negated = negated' ∧ (a = b ∧ InterchangeableItems vs ws ∨ vs = [] ∧ ws = []) := by
  cases vs with
  | nil =>
    cases ws with
    | nil => cases negated <;> cases negated' <;> simp [compileEquality]
    | cons w ws => simp [compileEquality, InterchangeableItems]
  | cons v vs =>
    cases ws with
    | nil => simp [compileEquality, InterchangeableItems]
    | cons w ws => simp [compileEquality, valueLiterals_eq_iff]

/-- What two equalities with one condition have in common. -/
theorem compileEquality_eq_iff {caseSensitive negated negated' : Bool} {a b : String}
    {v w : Value} :
    compileEquality caseSensitive negated a v = compileEquality caseSensitive negated' b w ↔
      negated = negated' ∧ (a = b ∧ (Interchangeable v w ∨ ∃ s t, v = .text s ∧ w = .text t ∧
        isPattern s = true ∧ isPattern t = true ∧ percent s = percent t) ∨
          v = .list [] ∧ w = .list []) := by
  have hliteral := valueLiteral_eq_iff v w
  -- Patterns, memberships, constants and comparisons differ at the root, so only values of one
  -- kind are left to compare.
  cases v with
  | text s =>
    cases w with
    | text t => simp [compileEquality_text_eq_iff, Interchangeable]
    | list items =>
      cases items <;> by_cases hs : isPattern s = true <;> cases caseSensitive <;>
        simp [compileEquality, hs, Interchangeable]
    | _ =>
      by_cases hs : isPattern s = true <;> cases caseSensitive <;>
        simp [compileEquality, hs, Interchangeable, valueLiteral]
  | list items =>
    cases w with
    | text t =>
      cases items <;> by_cases ht : isPattern t = true <;> cases caseSensitive <;>
        simp [compileEquality, ht, Interchangeable]
    | list items' => simp [compileEquality_list_eq_iff, Interchangeable]
    | _ => cases items <;> simp [compileEquality, Interchangeable]
  | _ =>
    cases w with
    | text t =>
      by_cases ht : isPattern t = true <;> cases caseSensitive <;>
        simp [compileEquality, ht, Interchangeable, valueLiteral]
    | list items => cases items <;> simp [compileEquality, Interchangeable]
    | _ => simp [compileEquality, ← hliteral, equalityOperator_inj, and_left_comm]

theorem comparisonOfTag?_inj {tag tag' : String} {op : Comparison}
    (h : comparisonOfTag? tag = some op) (h' : comparisonOfTag? tag' = some op) : tag = tag' := by
  unfold comparisonOfTag? at h h'
  split_ifs at h <;> cases h <;> split_ifs at h' <;> simp_all

/-- An ordering is no equality. -/
theorem compileEquality_ne_compare {caseSensitive negated : Bool} {a b tag : String} {v : Value}
    {op : Comparison} {l : Literal} (h : comparisonOfTag? tag = some op) :
    compileEquality caseSensitive negated a v ≠ .compare b op l := by
  have hop : equalityOperator negated ≠ op := by
    unfold comparisonOfTag? at h
    split_ifs at h <;> cases h <;> cases negated <;> simp [equalityOperator]
  cases v with
  | text s =>
    by_cases hs : isPattern s = true <;> cases caseSensitive <;> simp [compileEquality, hs, hop]
  | list items => cases items <;> simp [compileEquality]
  | _ => simp [compileEquality, hop]

theorem compileEquality_ne_present {caseSensitive negated : Bool} {a b : String} {v : Value} :
    compileEquality caseSensitive negated a v ≠ .present b := by
  cases v with
  | text s =>
    by_cases hs : isPattern s = true <;> cases caseSensitive <;> simp [compileEquality, hs]
  | list items => cases items <;> simp [compileEquality]
  | _ => simp [compileEquality]

theorem related_equality_iff {a b : String} {op op' : Operator} {v w : Value}
    (hop : IsEquality op) (hop' : IsEquality op') :
    Related (.comparison a op v) (.comparison b op' w) ↔
      op = op' ∧ (a = b ∧ (Interchangeable v w ∨ ∃ s t, v = .text s ∧ w = .text t ∧
        isPattern s = true ∧ isPattern t = true ∧ percent s = percent t) ∨
          v = .list [] ∧ w = .list []) := by
  constructor
  · intro h
    cases h with
    | value _ _ h => exact ⟨rfl, .inl ⟨rfl, .inl h⟩⟩
    | pattern _ _ hs ht h => exact ⟨rfl, .inl ⟨rfl, .inr ⟨_, _, rfl, rfl, hs, ht, h⟩⟩⟩
    | empty _ _ _ => exact ⟨rfl, .inr ⟨rfl, rfl⟩⟩
  · rintro ⟨rfl, ⟨rfl, h | ⟨s, t, rfl, rfl, hs, ht, h⟩⟩ | ⟨rfl, rfl⟩⟩
    · exact .value _ _ h
    · exact .pattern _ hop hs ht h
    · exact .empty _ _ hop

theorem related_tagged_iff {a b tag tag' : String} {v w : Value} :
    Related (.comparison a (.tagged tag) v) (.comparison b (.tagged tag') w) ↔
      a = b ∧ tag = tag' ∧ Interchangeable v w := by
  constructor
  · intro h
    cases h with
    | value _ _ h => exact ⟨rfl, rfl, h⟩
    | pattern _ hop => rcases hop with hop | hop <;> cases hop
    | empty _ _ hop => rcases hop with hop | hop <;> cases hop
  · rintro ⟨rfl, rfl, h⟩
    exact .value _ _ h

variable {options options' : Options}

/-- A comparison is never taken for a bare selector. -/
theorem compileConstraint_comparison_ne_present {a b : String} {op : Operator} {v : Value}
    {c : Condition}
    (hc : compileConstraint options (.comparison a op v) = some c) : c ≠ .present b := by
  rcases isEquality_or_tagged op with hop | ⟨tag, rfl⟩
  · rw [compileConstraint_equality hop] at hc
    cases hc
    exact compileEquality_ne_present
  · obtain ⟨op, _, rfl⟩ := compileConstraint_tagged.1 hc
    simp

theorem compileConstraint_comparison_eq_iff (h : options.Verbatim) (h' : options'.Verbatim)
    (hcase : options.caseSensitive = options'.caseSensitive) {a b : String} {op op' : Operator}
    {v w : Value} {c c' : Condition}
    (hc : compileConstraint options (.comparison a op v) = some c)
    (hc' : compileConstraint options' (.comparison b op' w) = some c') :
    c = c' ↔ Related (.comparison a op v) (.comparison b op' w) := by
  rcases isEquality_or_tagged op with hop | ⟨tag, rfl⟩
  · rw [compileConstraint_equality hop, h, Option.some.injEq] at hc
    rcases isEquality_or_tagged op' with hop' | ⟨tag', rfl⟩
    · rw [compileConstraint_equality hop', h', ← hcase, Option.some.injEq] at hc'
      have hsign : decide (op = .notEqual) = decide (op' = .notEqual) ↔ op = op' := by
        rcases hop with rfl | rfl <;> rcases hop' with rfl | rfl <;> simp
      rw [← hc, ← hc', compileEquality_eq_iff, hsign, related_equality_iff hop hop']
    · obtain ⟨op'', htag, rfl⟩ := compileConstraint_tagged.1 hc'
      rw [← hc]
      refine iff_of_false (compileEquality_ne_compare htag) fun hrelated => ?_
      cases hrelated <;> rcases hop with hop | hop <;> cases hop
  · obtain ⟨op, htag, rfl⟩ := compileConstraint_tagged.1 hc
    rcases isEquality_or_tagged op' with hop' | ⟨tag', rfl⟩
    · rw [compileConstraint_equality hop', Option.some.injEq] at hc'
      rw [← hc']
      refine iff_of_false (compileEquality_ne_compare htag).symm fun hrelated => ?_
      cases hrelated <;> rcases hop' with hop' | hop' <;> cases hop'
    · obtain ⟨op', htag', rfl⟩ := compileConstraint_tagged.1 hc'
      rw [related_tagged_iff, Condition.compare.injEq, valueLiteral_eq_iff, h, h']
      constructor
      · rintro ⟨rfl, rfl, hvalue⟩
        exact ⟨rfl, comparisonOfTag?_inj htag htag', hvalue⟩
      · rintro ⟨rfl, rfl, hvalue⟩
        exact ⟨rfl, Option.some.inj (htag.symm.trans htag'), hvalue⟩

/-- Two constraints have one condition exactly if they are related. -/
theorem compileConstraint_eq_iff (h : options.Verbatim) (h' : options'.Verbatim)
    (hcase : options.caseSensitive = options'.caseSensitive) {leaf leaf' : Constraint}
    {c c' : Condition} (hc : compileConstraint options leaf = some c)
    (hc' : compileConstraint options' leaf' = some c') : c = c' ↔ Related leaf leaf' := by
  cases leaf with
  | presence a =>
    cases hc
    cases leaf' with
    | presence b =>
      cases hc'
      constructor
      · rintro ⟨⟩
        exact .presence a
      · rintro ⟨⟩
        rfl
    | comparison b op w =>
      exact iff_of_false (compileConstraint_comparison_ne_present hc').symm fun hr => nomatch hr
  | comparison a op v =>
    cases leaf' with
    | presence b =>
      cases hc'
      exact iff_of_false (compileConstraint_comparison_ne_present hc) fun hr => nomatch hr
    | comparison b op' w => exact compileConstraint_comparison_eq_iff h h' hcase hc hc'

end Constraints

/-! ### Filters -/

section Filters

variable {options options' : Options}

/-- Two filters have one syntax tree exactly if they are related. -/
theorem compile_eq_iff (h : options.Verbatim) (h' : options'.Verbatim)
    (hcase : options.caseSensitive = options'.caseSensitive) {e e' : Expr} {c c' : Condition}
    (hc : compile options e = some c) (hc' : compile options' e' = some c') :
    c = c' ↔ RelatedFilters e e' := by
  induction e generalizing e' c c' with
  | constraint leaf =>
    have hleaf := compileConstraint_isLeaf hc
    cases e' with
    | constraint leaf' => exact compileConstraint_eq_iff h h' hcase hc hc'
    | and l' r' =>
      obtain ⟨_, _, _, _, rfl⟩ := compile_and_eq_some.1 hc'
      exact iff_of_false (by rintro rfl; cases hleaf) id
    | or l' r' =>
      obtain ⟨_, _, _, _, rfl⟩ := compile_or_eq_some.1 hc'
      exact iff_of_false (by rintro rfl; cases hleaf) id
  | and l r ihl ihr =>
    obtain ⟨cl, cr, hl, hr, rfl⟩ := compile_and_eq_some.1 hc
    cases e' with
    | constraint leaf' =>
      have hleaf := compileConstraint_isLeaf hc'
      exact iff_of_false (by rintro rfl; cases hleaf) id
    | and l' r' =>
      obtain ⟨cl', cr', hl', hr', rfl⟩ := compile_and_eq_some.1 hc'
      rw [Condition.and.injEq, ihl hl hl', ihr hr hr']
      rfl
    | or l' r' =>
      obtain ⟨_, _, _, _, rfl⟩ := compile_or_eq_some.1 hc'
      exact iff_of_false (by simp) id
  | or l r ihl ihr =>
    obtain ⟨cl, cr, hl, hr, rfl⟩ := compile_or_eq_some.1 hc
    cases e' with
    | constraint leaf' =>
      have hleaf := compileConstraint_isLeaf hc'
      exact iff_of_false (by rintro rfl; cases hleaf) id
    | and l' r' =>
      obtain ⟨_, _, _, _, rfl⟩ := compile_and_eq_some.1 hc'
      exact iff_of_false (by simp) id
    | or l' r' =>
      obtain ⟨cl', cr', hl', hr', rfl⟩ := compile_or_eq_some.1 hc'
      rw [Condition.or.injEq, ihl hl hl', ihr hr hr']
      rfl

/-- **Filters with one condition.**  With values left as they are, two filters that have been read
have conditions with one text exactly if they are related. -/
theorem condition_eq_iff {text text' w w' : String} {e e' : Expr}
    (hparse : Expr.parse text = .ok e) (hparse' : Expr.parse text' = .ok e')
    (h : options.Verbatim) (h' : options'.Verbatim)
    (hcase : options.caseSensitive = options'.caseSensitive)
    (hw : options.condition e = .ok w) (hw' : options'.condition e' = .ok w') :
    w = w' ↔ RelatedFilters e e' := by
  obtain ⟨c, hc, htext⟩ := condition_eq_ok hw
  obtain ⟨c', hc', htext'⟩ := condition_eq_ok hw'
  have hwf := wellFormed_of_compile (fun leaf hleaf => Expr.parse_isName hparse hleaf) hc
  have hwf' := wellFormed_of_compile (fun leaf hleaf => Expr.parse_isName hparse' hleaf) hc'
  rw [← compile_eq_iff h h' hcase hc hc', ← String.toList_inj, htext, htext']
  exact ⟨eq_of_spell_eq hwf hwf', fun heq => by rw [heq]⟩

theorem condition_eq_iff_stars :
    RelatedFilters (.constraint (.comparison "name" .equal (.text "*x*")))
      (.constraint (.comparison "name" .equal (.text "*x%"))) := by
  have hparse : Expr.parse "name==*x*" =
      .ok (.constraint (.comparison "name" .equal (.text "*x*"))) := by decide +kernel
  have hparse' : Expr.parse "name==*x%" =
      .ok (.constraint (.comparison "name" .equal (.text "*x%"))) := by decide +kernel
  have hw : ({} : Options).condition (.constraint (.comparison "name" .equal (.text "*x*"))) =
      .ok "name LIKE '%x%'" := by decide +kernel
  have hw' : ({} : Options).condition (.constraint (.comparison "name" .equal (.text "*x%"))) =
      .ok "name LIKE '%x%'" := by decide +kernel
  exact (condition_eq_iff hparse hparse' (fun _ _ => rfl) (fun _ _ => rfl) rfl hw hw').1 rfl

end Filters

end Sql
end Criteria
