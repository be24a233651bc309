import Criteria.Proofs.Sql.Scan
import Criteria.Sql.Query
import Mathlib.Tactic.SplitIfs

/-!
# The syntax of conditions

Conditions as syntax trees, with the symbols that write them, and the syntax tree that belongs to
a filter.

**Results.**
* `condition_eq_ok`: the condition for a filter is the text of its syntax tree.
-/

namespace Criteria
namespace Sql

/-- The comparison operators of SQL. -/
inductive Comparison where
  | eq
  | ne
  | lt
  | le
  | gt
  | ge
deriving DecidableEq

/-- The sign of an operator. -/
def Comparison.sign : Comparison → List Char
  | .eq => ['=']
  | .ne => ['<', '>']
  | .lt => ['<']
  | .le => ['<', '=']
  | .gt => ['>']
  | .ge => ['>', '=']

/-- A literal of SQL.  A number is kept as the numeral that writes it. -/
inductive Literal where
  | text (s : String)
  | number (numeral : String)
  | boolean (b : Bool)
  | tuple (items : List Literal)

/-- A condition of SQL. -/
inductive Condition where
  /-- The column is not null. -/
  | present (column : String)
  /-- The column compared with a literal. -/
  | compare (column : String) (op : Comparison) (value : Literal)
  /-- The column compared with a text, both in lower case. -/
  | compareLower (column : String) (op : Comparison) (s : String)
  /-- The column matches a pattern, or does not. -/
  | like (negated caseSensitive : Bool) (column pattern : String)
  /-- The column is one of the items, or is none. -/
  | member (negated : Bool) (column : String) (items : List Literal)
  /-- Two numerals compared. -/
  | constant (left : String) (op : Comparison) (right : String)
  | and (left right : Condition)
  | or (left right : Condition)

/-- Whether a condition is no combination of others. -/
def Condition.isLeaf : Condition → Bool
  | .and _ _ | .or _ _ => false
  | _ => true

section Symbols

def keywordIs : List Char := ['I', 'S']
def keywordNot : List Char := ['N', 'O', 'T']
def keywordNull : List Char := ['N', 'U', 'L', 'L']
def keywordLike : List Char := ['L', 'I', 'K', 'E']
def keywordILike : List Char := ['I', 'L', 'I', 'K', 'E']
def keywordIn : List Char := ['I', 'N']
def keywordLower : List Char := ['L', 'O', 'W', 'E', 'R']
def keywordAnd : List Char := ['A', 'N', 'D']
def keywordOr : List Char := ['O', 'R']
def keywordTrue : List Char := ['t', 'r', 'u', 'e']
def keywordFalse : List Char := ['f', 'a', 'l', 's', 'e']

mutual

/-- The symbols that write a literal. -/
def Literal.symbols : Literal → List Symbol
  | .text s => [.string s]
  | .number numeral => [.word numeral.toList]
  | .boolean b => [.word (if b then keywordTrue else keywordFalse)]
  | .tuple items => .opening :: (itemsSymbols items ++ [.closing])

/-- The symbols that write the items of a tuple. -/
def itemsSymbols : List Literal → List Symbol
  | [] => []
  | [v] => v.symbols
  | v :: rest => v.symbols ++ .comma :: .blank :: itemsSymbols rest

end

/-- The keyword of a negated test. -/
def negation (negated : Bool) : List Symbol :=
  if negated then [.word keywordNot, .blank] else []

/-- The symbols that write a condition. -/
def Condition.symbols : Condition → List Symbol
  | .present column =>
      [.word column.toList, .blank, .word keywordIs, .blank, .word keywordNot, .blank,
        .word keywordNull]
  | .compare column op value =>
      .word column.toList :: .blank :: .sign op.sign :: .blank :: value.symbols
  | .compareLower column op s =>
      [.word keywordLower, .opening, .word column.toList, .closing, .blank, .sign op.sign, .blank,
        .word keywordLower, .opening, .string s, .closing]
  | .like negated caseSensitive column pattern =>
      .word column.toList :: .blank :: (negation negated ++
        [.word (if caseSensitive then keywordLike else keywordILike), .blank, .string pattern])
  | .member negated column items =>
      .word column.toList :: .blank :: (negation negated ++
        (.word keywordIn :: .blank :: .opening :: (itemsSymbols items ++ [.closing])))
  | .constant left op right =>
      [.word left.toList, .blank, .sign op.sign, .blank, .word right.toList]
  | .and l r =>
      .opening :: (l.symbols ++ .blank :: .word keywordAnd :: .blank :: (r.symbols ++ [.closing]))
  | .or l r =>
      .opening :: (l.symbols ++ .blank :: .word keywordOr :: .blank :: (r.symbols ++ [.closing]))

end Symbols

/-! ### The condition for a filter -/

mutual

/-- The literal for a value. -/
def valueLiteral : Value → Literal
  | .text s => .text s
  | .integer n => .number (toString n.toInt)
  | .float x => .number (floatText x)
  | .boolean b => .boolean b
  | .list items => .tuple (valueLiterals items)

def valueLiterals : List Value → List Literal
  | [] => []
  | v :: vs => valueLiteral v :: valueLiterals vs

end

/-- The pattern that a text with stars stands for: percent signs in their place. -/
def percent (s : String) : String :=
  String.ofList (s.toList.map fun c => if c = '*' then '%' else c)

/-- The operator of an equality, or of an inequality. -/
def equalityOperator (negated : Bool) : Comparison :=
  if negated then .ne else .eq

/-- The condition for an equality. -/
def compileEquality (caseSensitive negated : Bool) (selector : String) : Value → Condition
  | .text s =>
      if isPattern s then .like negated caseSensitive selector (percent s)
      else if caseSensitive then .compare selector (equalityOperator negated) (.text s)
      else .compareLower selector (equalityOperator negated) s
  | .list [] => .constant "1" .eq (if negated then "1" else "0")
  | .list items => .member negated selector (valueLiterals items)
  | scalar => .compare selector (equalityOperator negated) (valueLiteral scalar)

/-- The operator for the tag of an ordering. -/
def comparisonOfTag? (tag : String) : Option Comparison :=
  if tag = "ge" then some .ge
  else if tag = "gt" then some .gt
  else if tag = "le" then some .le
  else if tag = "lt" then some .lt
  else none

/-- The condition for a constraint; none for a tag that is no ordering. -/
def compileConstraint (options : Options) : Constraint → Option Condition
  | .presence name => some (.present name)
  | .comparison name (.tagged tag) value =>
      (comparisonOfTag? tag).map fun op =>
        .compare name op (valueLiteral (options.transformer name value))
  | .comparison name op value =>
      some (compileEquality options.caseSensitive (op = .notEqual) name
        (options.transformer name value))

/-- The condition for a filter. -/
def compile (options : Options) : Expr → Option Condition
  | .constraint c => compileConstraint options c
  | .and l r => do
      let left ← compile options l
      let right ← compile options r
      pure (.and left right)
  | .or l r => do
      let left ← compile options l
      let right ← compile options r
      pure (.or left right)

/-- The condition for a combinator is made of the conditions for its sides. -/
theorem compile_and_eq_some {options : Options} {l r : Expr} {c : Condition} :
    compile options (.and l r) = some c ↔
      ∃ cl cr, compile options l = some cl ∧ compile options r = some cr ∧ c = .and cl cr := by
  simp only [compile, Option.bind_eq_bind, Option.bind_eq_some_iff, Option.pure_def,
    Option.some.injEq]
  constructor
  · rintro ⟨cl, hl, cr, hr, rfl⟩
    exact ⟨cl, cr, hl, hr, rfl⟩
  · rintro ⟨cl, cr, hl, hr, rfl⟩
    exact ⟨cl, hl, cr, hr, rfl⟩

theorem compile_or_eq_some {options : Options} {l r : Expr} {c : Condition} :
    compile options (.or l r) = some c ↔
      ∃ cl cr, compile options l = some cl ∧ compile options r = some cr ∧ c = .or cl cr := by
  simp only [compile, Option.bind_eq_bind, Option.bind_eq_some_iff, Option.pure_def,
    Option.some.injEq]
  constructor
  · rintro ⟨cl, hl, cr, hr, rfl⟩
    exact ⟨cl, cr, hl, hr, rfl⟩
  · rintro ⟨cl, cr, hl, hr, rfl⟩
    exact ⟨cl, hl, cr, hr, rfl⟩

/-! ### Constraints -/

/-- Whether an operator is `==` or `!=`. -/
def IsEquality (op : Operator) : Prop :=
  op = .equal ∨ op = .notEqual

theorem isEquality_or_tagged (op : Operator) : IsEquality op ∨ ∃ tag, op = .tagged tag := by
  cases op with
  | equal => exact .inl (.inl rfl)
  | notEqual => exact .inl (.inr rfl)
  | tagged tag => exact .inr ⟨tag, rfl⟩

theorem compileConstraint_equality {options : Options} {op : Operator} (hop : IsEquality op)
    (name : String) (v : Value) :
    compileConstraint options (.comparison name op v) =
      some (compileEquality options.caseSensitive (op = .notEqual) name
        (options.transformer name v)) := by
  rcases hop with rfl | rfl <;> rfl

theorem compileConstraint_tagged {options : Options} {name tag : String} {v : Value}
    {c : Condition} :
    compileConstraint options (.comparison name (.tagged tag) v) = some c ↔
      ∃ op, comparisonOfTag? tag = some op ∧
        c = .compare name op (valueLiteral (options.transformer name v)) := by
  rw [compileConstraint, Option.map_eq_some_iff]
  exact exists_congr fun op => and_congr_right fun _ => eq_comm

/-- The three kinds of constraints and their conditions. -/
theorem compileConstraint_cases {options : Options} {leaf : Constraint} {c : Condition}
    (hc : compileConstraint options leaf = some c) :
    (∃ name, leaf = .presence name ∧ c = .present name) ∨
      (∃ name op v, IsEquality op ∧ leaf = .comparison name op v ∧
        c = compileEquality options.caseSensitive (op = .notEqual) name
          (options.transformer name v)) ∨
      ∃ name tag v op, leaf = .comparison name (.tagged tag) v ∧
        comparisonOfTag? tag = some op ∧
        c = .compare name op (valueLiteral (options.transformer name v)) := by
  cases leaf with
  | presence name =>
    cases hc
    exact .inl ⟨name, rfl, rfl⟩
  | comparison name op v =>
    rcases isEquality_or_tagged op with hop | ⟨tag, rfl⟩
    · rw [compileConstraint_equality hop, Option.some.injEq] at hc
      exact .inr (.inl ⟨name, op, v, hop, rfl, hc.symm⟩)
    · obtain ⟨op, htag, hc⟩ := compileConstraint_tagged.1 hc
      exact .inr (.inr ⟨name, tag, v, op, rfl, htag, hc⟩)

theorem compileEquality_isLeaf (caseSensitive negated : Bool) (name : String) (v : Value) :
    (compileEquality caseSensitive negated name v).isLeaf = true := by
  cases v with
  | text s =>
    rw [compileEquality]
    split_ifs <;> rfl
  | list items => cases items <;> rfl
  | _ => rfl

theorem compileConstraint_isLeaf {options : Options} {leaf : Constraint} {c : Condition}
    (hc : compileConstraint options leaf = some c) : c.isLeaf = true := by
  obtain ⟨_, _, rfl⟩ | ⟨_, _, _, _, _, rfl⟩ | ⟨_, _, _, _, _, _, rfl⟩ := compileConstraint_cases hc
  · rfl
  · exact compileEquality_isLeaf ..
  · rfl

/-- Values are left as they are. -/
def Options.Verbatim (options : Options) : Prop :=
  ∀ name v, options.transformer name v = v

/-! ### The text of a condition -/

theorem spell_cons (s : Symbol) (ss : List Symbol) : spell (s :: ss) = s.spelling ++ spell ss := rfl

theorem spell_append (ss ss' : List Symbol) : spell (ss ++ ss') = spell ss ++ spell ss' :=
  List.flatMap_append

theorem itemsSymbols_cons_cons (v w : Literal) (rest : List Literal) :
    itemsSymbols (v :: w :: rest) = v.symbols ++ .comma :: .blank :: itemsSymbols (w :: rest) := by
  rw [itemsSymbols]
  simp

mutual

/-- The text of a literal is the one its symbols spell. -/
theorem literal_toList : ∀ v : Value, (literal v).toList = spell (valueLiteral v).symbols
  | .text s => by simp [literal, valueLiteral, Literal.symbols, spell, Symbol.spelling]
  | .integer n => by simp [literal, valueLiteral, Literal.symbols, spell, Symbol.spelling]
  | .float x => by simp [literal, valueLiteral, Literal.symbols, spell, Symbol.spelling]
  | .boolean b => by cases b <;> rfl
  | .list items => by
      have hitems := literals_toList items
      simp only [literal, valueLiteral, Literal.symbols, String.toList_append, spell_cons,
        spell_append, hitems]
      simp [Symbol.spelling, spell]

theorem literals_toList : ∀ vs : List Value,
    (", ".intercalate (literals vs)).toList = spell (itemsSymbols (valueLiterals vs))
  | [] => by simp [literals, valueLiterals, itemsSymbols, spell]
  | [v] => by
      rw [literals, literals, String.intercalate_singleton, literal_toList v]
      rfl
  | v :: w :: rest => by
      have hrest := literals_toList (w :: rest)
      rw [literals] at hrest
      rw [literals, literals, String.intercalate_cons_cons, valueLiterals, valueLiterals,
        itemsSymbols_cons_cons, String.toList_append, String.toList_append, hrest,
        literal_toList v, spell_append, spell_cons, spell_cons, valueLiterals]
      simp [Symbol.spelling]

end

theorem patternLiteral_eq (s : String) : patternLiteral s = quote (percent s) := rfl

/-- The text of an equality is the one its condition spells. -/
theorem equality_toList (caseSensitive negated : Bool) (selector : String) (v : Value) :
    (equality caseSensitive negated selector v).toList =
      spell (compileEquality caseSensitive negated selector v).symbols := by
  cases v with
  | text s =>
    by_cases hp : isPattern s = true
    · cases negated <;> cases caseSensitive <;>
        simp [equality, compileEquality, hp, patternLiteral_eq, Condition.symbols, negation, spell,
          Symbol.spelling, keywordNot, keywordLike, keywordILike]
    · cases negated <;> cases caseSensitive <;>
        simp [equality, compileEquality, hp, equalityOperator, Condition.symbols, Comparison.sign,
          Literal.symbols, spell, Symbol.spelling, keywordLower]
  | list items =>
    cases items with
    | nil =>
      cases negated <;>
        simp [equality, compileEquality, Condition.symbols, Comparison.sign, spell, Symbol.spelling]
    | cons v vs =>
      have hitems := literals_toList (v :: vs)
      cases negated <;>
        simp [equality, compileEquality, literal, hitems, Condition.symbols, negation, spell,
          Symbol.spelling, keywordNot, keywordIn]
  | integer n =>
    have hv := literal_toList (.integer n)
    cases negated <;>
      simp [equality, compileEquality, hv, equalityOperator, Condition.symbols, Comparison.sign,
        spell_cons, Symbol.spelling]
  | float x =>
    have hv := literal_toList (.float x)
    cases negated <;>
      simp [equality, compileEquality, hv, equalityOperator, Condition.symbols, Comparison.sign,
        spell_cons, Symbol.spelling]
  | boolean b =>
    have hv := literal_toList (.boolean b)
    cases negated <;>
      simp [equality, compileEquality, hv, equalityOperator, Condition.symbols, Comparison.sign,
        spell_cons, Symbol.spelling]

theorem orderingOperator_eq (tag : String) :
    (orderingOperator tag).map String.toList = (comparisonOfTag? tag).map Comparison.sign := by
  unfold orderingOperator comparisonOfTag?
  split_ifs <;> simp [Comparison.sign]

/-- An ordering that has a text has the one its condition spells. -/
theorem ordering_eq_ok {selector tag w : String} {v : Value}
    (h : ordering selector tag v = .ok w) :
    ∃ op, comparisonOfTag? tag = some op ∧
      w.toList = spell (Condition.compare selector op (valueLiteral v)).symbols := by
  have htag := orderingOperator_eq tag
  rw [ordering] at h
  split at h
  · cases h
  · next operator hoperator =>
    rw [hoperator, Option.map_some] at htag
    obtain ⟨op, hop, hsign⟩ := Option.map_eq_some_iff.1 htag.symm
    have htext : (selector ++ " " ++ operator ++ " " ++ literal v).toList =
        spell (Condition.compare selector op (valueLiteral v)).symbols := by
      simp [Condition.symbols, spell_cons, Symbol.spelling, literal_toList, hsign]
    refine ⟨op, hop, ?_⟩
    split at h
    · split at h
      · cases h
        exact htext
      · cases h
    · cases h
    · cases h
    · cases h
      exact htext

theorem bind_eq_ok {ε α β : Type} {x : Except ε α} {f : α → Except ε β} {b : β} :
    (x >>= f) = .ok b ↔ ∃ a, x = .ok a ∧ f a = .ok b := by
  cases x with
  | error e => simp [bind, Except.bind]
  | ok a => simp [bind, Except.bind]

/-- A walk that succeeds gives the text of the syntax tree. -/
theorem walk_eq_ok {options : Options} {root e : Expr} {state w : String}
    (h : options.visitor.walk root e state = .ok w) :
    ∃ c, compile options e = some c ∧ w.toList = spell c.symbols := by
  induction e generalizing state w with
  | constraint leaf =>
    cases leaf with
    | presence name =>
      obtain ⟨_, _, hw⟩ := bind_eq_ok.1 h
      cases hw
      refine ⟨.present name, rfl, ?_⟩
      simp [presence, Condition.symbols, spell, Symbol.spelling, keywordIs, keywordNot,
        keywordNull]
    | comparison name op v =>
      rcases isEquality_or_tagged op with (rfl | rfl) | ⟨tag, rfl⟩
      · obtain ⟨_, _, hw⟩ := bind_eq_ok.1 h
        cases hw
        exact ⟨_, rfl, equality_toList _ _ _ _⟩
      · obtain ⟨_, _, hw⟩ := bind_eq_ok.1 h
        cases hw
        exact ⟨_, rfl, equality_toList _ _ _ _⟩
      · obtain ⟨_, _, hw⟩ := bind_eq_ok.1 h
        obtain ⟨op, hop, htext⟩ := ordering_eq_ok hw
        refine ⟨.compare name op (valueLiteral (options.transformer name v)), ?_, htext⟩
        exact compileConstraint_tagged.2 ⟨op, hop, rfl⟩
  | and l r ihl ihr =>
    obtain ⟨left, hl, h⟩ := bind_eq_ok.1 h
    obtain ⟨right, hr, hw⟩ := bind_eq_ok.1 h
    cases hw
    obtain ⟨cl, hcl, hleft⟩ := ihl hl
    obtain ⟨cr, hcr, hright⟩ := ihr hr
    refine ⟨.and cl cr, compile_and_eq_some.2 ⟨cl, cr, hcl, hcr, rfl⟩, ?_⟩
    simp [Condition.symbols, hleft, hright, Symbol.spelling, keywordAnd, spell]
  | or l r ihl ihr =>
    obtain ⟨left, hl, h⟩ := bind_eq_ok.1 h
    obtain ⟨right, hr, hw⟩ := bind_eq_ok.1 h
    cases hw
    obtain ⟨cl, hcl, hleft⟩ := ihl hl
    obtain ⟨cr, hcr, hright⟩ := ihr hr
    refine ⟨.or cl cr, compile_or_eq_some.2 ⟨cl, cr, hcl, hcr, rfl⟩, ?_⟩
    simp [Condition.symbols, hleft, hright, Symbol.spelling, keywordOr, spell]

/-- The condition for a filter is the text of its syntax tree. -/
theorem condition_eq_ok {options : Options} {e : Expr} {w : String}
    (h : options.condition e = .ok w) :
    ∃ c, compile options e = some c ∧ w.toList = spell c.symbols :=
  walk_eq_ok h

/-- A query is built from the condition for its filter. -/
theorem toSql_eq (options : Options) (e : Expr) :
    options.toSql e = (options.condition e).map (options.query e) := by
  show (options.condition e >>= fun condition => Except.ok (options.query e condition)) = _
  cases options.condition e <;> rfl

end Sql
end Criteria
