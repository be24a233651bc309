import Criteria.Proofs.Grammar.Derivation

/-!
# The rules of the parser, by the token that comes next

Each rule of the parser looks at the next token only.  One equation for each kind of token says what
the rule does there, so that two runs of a rule can be compared step by step.

**Results.**
* `Parser.value_cases`, `Parser.comparison_cases` and `Parser.constraint_cases`: the kinds of tokens
  that these rules tell apart.
* `Parser.disjunction_eq` and `Parser.conjunction_eq`: both chains are read in one way.
-/

namespace Criteria
namespace Parser

open Grammar Outcome

variable {p : Parser} {token : Token}

/-! ### Values -/

theorem value_end (h : p.peek = none) : value p = .fail (p.fault .endBeforeValue) p := by
  rw [value]
  split
  · rfl
  · next h' => simp [h] at h'

theorem value_single {v : Value} (h : p.peek = some token) (hv : token.value? = some v) :
    value p = p.take (isSome_of_peek h) fun q _ => .done v q := by
  rw [value]
  split
  · next h' => simp [h] at h'
  · next token' h' =>
    obtain rfl : token = token' := Option.some.inj (h.symm.trans h')
    split
    · next v' hv' =>
      obtain rfl : v = v' := Option.some.inj (hv.symm.trans hv')
      rfl
    · next hv' => simp [hv] at hv'

theorem value_open (h : p.peek = some .leftParen) :
    value p = p.nested fun _ => list p.deeper (isSome_of_peek h) := by
  rw [value]
  split
  · next h' => simp [h] at h'
  · next token' h' =>
    obtain rfl : .leftParen = token' := Option.some.inj (h.symm.trans h')
    split
    · next hv => cases hv
    · rw [if_pos rfl]

theorem value_other (h : p.peek = some token) (hv : token.value? = none)
    (hopen : token ≠ .leftParen) : value p = .fail (p.fault .expectedValue) p := by
  rw [value]
  split
  · next h' => simp [h] at h'
  · next token' h' =>
    obtain rfl : token = token' := Option.some.inj (h.symm.trans h')
    split
    · next hv' => simp [hv] at hv'
    · rw [if_neg hopen]

/-- What the rule for values tells apart. -/
theorem value_cases (p : Parser) :
    p.peek = none ∨ (∃ token v, p.peek = some token ∧ token.value? = some v) ∨
      p.peek = some .leftParen ∨
      ∃ token, p.peek = some token ∧ token.value? = none ∧ token ≠ .leftParen := by
  cases p.peek with
  | none => exact .inl rfl
  | some token => cases token <;> simp [Token.value?]

/-- What follows an item of a list: another one, or the end of the list. -/
def afterItem (first : Value) (q : Parser) : Outcome (List Value) q :=
  match h : q.peek with
  | some .comma => q.take (isSome_of_peek h) fun r _ => (items r).map (first :: ·)
  | some .rightParen => q.take (isSome_of_peek h) fun r _ => .done [first] r
  | some _ => .fail (q.fault .expectedListSeparator) q
  | none => .fail (q.fault .unclosedList) q

theorem items_eq (p : Parser) :
    items p = (value p).andThen fun first q _ => afterItem first q := by
  rw [items]
  rfl

section AfterItem

variable {first : Value}

theorem afterItem_comma (h : p.peek = some .comma) :
    afterItem first p = p.take (isSome_of_peek h) fun r _ => (items r).map (first :: ·) := by
  rw [afterItem]
  split
  · rfl
  · next h' => simp [h] at h'
  · next hcomma _ h' => exact absurd (Option.some.inj (h'.symm.trans h)) hcomma
  · next h' => simp [h] at h'

theorem afterItem_close (h : p.peek = some .rightParen) :
    afterItem first p = p.take (isSome_of_peek h) fun r _ => .done [first] r := by
  rw [afterItem]
  split
  · next h' => simp [h] at h'
  · rfl
  · next hclose h' => exact absurd (Option.some.inj (h'.symm.trans h)) hclose
  · next h' => simp [h] at h'

theorem afterItem_end (h : p.peek = none) :
    afterItem first p = .fail (p.fault .unclosedList) p := by
  rw [afterItem]
  split
  · next h' => simp [h] at h'
  · next h' => simp [h] at h'
  · next h' => simp [h] at h'
  · rfl

theorem afterItem_other (h : p.peek = some token) (hcomma : token ≠ .comma)
    (hclose : token ≠ .rightParen) :
    afterItem first p = .fail (p.fault .expectedListSeparator) p := by
  rw [afterItem]
  split
  · next h' => exact absurd (Option.some.inj (h.symm.trans h')) hcomma
  · next h' => exact absurd (Option.some.inj (h.symm.trans h')) hclose
  · rfl
  · next h' => simp [h] at h'

end AfterItem

/-! ### Constraints -/

theorem comparison_of_operator (name : String) {op : Operator}
    (h : p.peek = some (operatorToken op)) :
    comparison name p =
      p.take (isSome_of_peek h) fun q _ => (value q).map (.comparison name op) := by
  rw [comparison]
  cases op with
  | equal =>
    split
    · rfl
    · next h' => simp [h, operatorToken] at h'
    · next h' => simp [h, operatorToken] at h'
    · next hequal _ _ => exact absurd h hequal
  | notEqual =>
    split
    · next h' => simp [h, operatorToken] at h'
    · rfl
    · next h' => simp [h, operatorToken] at h'
    · next hnotEqual _ => exact absurd h hnotEqual
  | tagged tag =>
    split
    · next h' => simp [h, operatorToken] at h'
    · next h' => simp [h, operatorToken] at h'
    · next tag' h' =>
      obtain rfl : tag = tag' := by simpa [h, operatorToken] using h'
      rfl
    · next hcomparison => exact absurd h (hcomparison tag)

theorem comparison_of_none (name : String) (h : ∀ t, p.peek = some t → ¬ IsOperator t) :
    comparison name p = .done (.presence name) p := by
  rw [comparison]
  split
  · next hpeek => exact absurd trivial (h _ hpeek)
  · next hpeek => exact absurd trivial (h _ hpeek)
  · next hpeek => exact absurd trivial (h _ hpeek)
  · rfl

/-- What follows a selector. -/
theorem comparison_cases (p : Parser) :
    (∃ op, p.peek = some (operatorToken op)) ∨ ∀ t, p.peek = some t → ¬ IsOperator t := by
  cases p.peek with
  | none => exact .inr (by simp)
  | some token =>
    cases token with
    | equal => exact .inl ⟨.equal, rfl⟩
    | notEqual => exact .inl ⟨.notEqual, rfl⟩
    | comparison tag => exact .inl ⟨.tagged tag, rfl⟩
    | _ => exact .inr (by rintro t ⟨⟩; exact id)

theorem constraint_open (h : p.peek = some .leftParen) :
    constraint p = p.nested fun _ => group p.deeper (isSome_of_peek h) := by
  rw [constraint]
  split
  · rfl
  · next h' => simp [h] at h'
  · next hopen _ h' => exact absurd (Option.some.inj (h'.symm.trans h)) hopen
  · next h' => simp [h] at h'

theorem constraint_selector {name : String} (h : p.peek = some (.selector name)) :
    constraint p =
      p.take (isSome_of_peek h) fun q _ => (comparison name q).map .constraint := by
  rw [constraint]
  split
  · next h' => simp [h] at h'
  · next name' h' =>
    obtain rfl : name = name' := by simpa [h] using h'
    rfl
  · next hselector h' => exact absurd (Option.some.inj (h'.symm.trans h)) (hselector name)
  · next h' => simp [h] at h'

theorem constraint_end (h : p.peek = none) :
    constraint p = .fail (p.fault .endBeforeConstraint) p := by
  rw [constraint]
  split
  · next h' => simp [h] at h'
  · next h' => simp [h] at h'
  · next h' => simp [h] at h'
  · rfl

theorem constraint_other (h : p.peek = some token) (hopen : token ≠ .leftParen)
    (hselector : ∀ name, token ≠ .selector name) :
    constraint p = .fail (p.fault .expectedConstraint) p := by
  rw [constraint]
  split
  · next h' => exact absurd (Option.some.inj (h.symm.trans h')) hopen
  · next name h' => exact absurd (Option.some.inj (h.symm.trans h')) (hselector name)
  · rfl
  · next h' => simp [h] at h'

/-- What the rule for constraints tells apart. -/
theorem constraint_cases (p : Parser) :
    p.peek = none ∨ p.peek = some .leftParen ∨ (∃ name, p.peek = some (.selector name)) ∨
      ∃ token, p.peek = some token ∧ token ≠ .leftParen ∧ ∀ name, token ≠ .selector name := by
  cases p.peek with
  | none => exact .inl rfl
  | some token => cases token <;> simp

/-! ### Chains -/

/-- What follows the first part of a chain: a separator and, one level deeper, the rest of the
chain, or nothing. -/
def link (separator : Token) (rule : (r : Parser) → Outcome Expr r) (join : Expr → Expr → Expr)
    (left : Expr) (q : Parser) : Outcome Expr q :=
  if h : q.peek = some separator then
    q.take (isSome_of_peek h) fun r _ => r.nested fun _ => (rule r.deeper).map (join left)
  else .done left q

section Link

variable {separator : Token} {rule : (r : Parser) → Outcome Expr r} {join : Expr → Expr → Expr}
  {left : Expr}

theorem link_separator (h : p.peek = some separator) :
    link separator rule join left p =
      p.take (isSome_of_peek h) fun r _ => r.nested fun _ => (rule r.deeper).map (join left) := by
  rw [link, dif_pos h]

theorem link_other (h : p.peek ≠ some separator) :
    link separator rule join left p = .done left p := by
  rw [link, dif_neg h]

end Link

theorem disjunction_eq (p : Parser) :
    disjunction p =
      (conjunction p).andThen fun left q _ => link .comma disjunction .or left q := by
  rw [disjunction]
  rfl

theorem conjunction_eq (p : Parser) :
    conjunction p =
      (constraint p).andThen fun left q _ => link .semicolon conjunction .and left q := by
  rw [conjunction]
  rfl

end Parser
end Criteria
