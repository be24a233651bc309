import Criteria.Expr.Parser

/-!
# Derivations of filters

The grammar of filters, as the type of its derivations:

```text
or         = and ( "," or )?
and        = constraint ( ";" and )?
constraint = "(" or ")"
           | SELECTOR ( ( "==" | "!=" | COMPARISON ) value )?
value      = TEXT | SELECTOR | INTEGER | FLOAT | BOOLEAN
           | "(" ( value ( "," value )* )? ")"
```

A derivation has a yield, which are its tokens, and a tree, in which groups leave no trace.  Its
nesting counts one level for the content of each group and of each list, and for the right
operand of each link of a chain.

**Results.**
* `Disjunction.tokens_injective`: a sequence of tokens has at most one derivation.
-/

namespace Criteria
namespace Grammar

mutual

/-- A derivation from `value`. -/
inductive Argument where
  | text (s : String)
  | selector (name : String)
  | integer (n : Int64)
  | float (x : Float)
  | boolean (b : Bool)
  | empty
  | list (items : Arguments)

/-- A derivation of the content of a list that is not empty. -/
inductive Arguments where
  | last (v : Argument)
  | more (v : Argument) (rest : Arguments)

end

mutual

/-- A derivation from `or`. -/
inductive Disjunction where
  | single (left : Conjunction)
  | link (left : Conjunction) (right : Disjunction)

/-- A derivation from `and`. -/
inductive Conjunction where
  | single (left : Phrase)
  | link (left : Phrase) (right : Conjunction)

/-- A derivation from `constraint`. -/
inductive Phrase where
  | group (inner : Disjunction)
  | presence (name : String)
  | comparison (name : String) (op : Operator) (v : Argument)

end

/-- The token that writes an operator. -/
def operatorToken : Operator → Token
  | .equal => .equal
  | .notEqual => .notEqual
  | .tagged tag => .comparison tag

section Yields

mutual

def Argument.tokens : Argument → List Token
  | .text s => [.text s]
  | .selector name => [.selector name]
  | .integer n => [.integer n]
  | .float x => [.float x]
  | .boolean b => [.boolean b]
  | .empty => [.leftParen, .rightParen]
  | .list items => .leftParen :: (items.tokens ++ [.rightParen])

def Arguments.tokens : Arguments → List Token
  | .last v => v.tokens
  | .more v rest => v.tokens ++ .comma :: rest.tokens

end

mutual

def Disjunction.tokens : Disjunction → List Token
  | .single left => left.tokens
  | .link left right => left.tokens ++ .comma :: right.tokens

def Conjunction.tokens : Conjunction → List Token
  | .single left => left.tokens
  | .link left right => left.tokens ++ .semicolon :: right.tokens

def Phrase.tokens : Phrase → List Token
  | .group inner => .leftParen :: (inner.tokens ++ [.rightParen])
  | .presence name => [.selector name]
  | .comparison name op v => .selector name :: operatorToken op :: v.tokens

end

end Yields

section Trees

mutual

/-- The value of an argument; a selector is a text there. -/
def Argument.value : Argument → Value
  | .text s | .selector s => .text s
  | .integer n => .integer n
  | .float x => .float x
  | .boolean b => .boolean b
  | .empty => .list []
  | .list items => .list items.values

def Arguments.values : Arguments → List Value
  | .last v => [v.value]
  | .more v rest => v.value :: rest.values

end

mutual

/-- The tree of a filter: chains are nested to the right, and groups are dropped. -/
def Disjunction.tree : Disjunction → Expr
  | .single left => left.tree
  | .link left right => .or left.tree right.tree

def Conjunction.tree : Conjunction → Expr
  | .single left => left.tree
  | .link left right => .and left.tree right.tree

def Phrase.tree : Phrase → Expr
  | .group inner => inner.tree
  | .presence name => .constraint (.presence name)
  | .comparison name op v => .constraint (.comparison name op v.value)

end

end Trees

section Nesting

mutual

def Argument.nesting : Argument → Nat
  | .empty => 1
  | .list items => items.nesting + 1
  | _ => 0

def Arguments.nesting : Arguments → Nat
  | .last v => v.nesting
  | .more v rest => max v.nesting rest.nesting

end

mutual

/-- The number of levels that reading the filter has open at once. -/
def Disjunction.nesting : Disjunction → Nat
  | .single left => left.nesting
  | .link left right => max left.nesting (right.nesting + 1)

def Conjunction.nesting : Conjunction → Nat
  | .single left => left.nesting
  | .link left right => max left.nesting (right.nesting + 1)

def Phrase.nesting : Phrase → Nat
  | .group inner => inner.nesting + 1
  | .presence _ => 0
  | .comparison _ _ v => v.nesting

end

end Nesting

/-! ### What may follow

A derivation ends where the next token cannot continue it.  Nothing continues a value; an
operator continues a bare selector; `;` continues a conjunction, and `,` a disjunction. -/

/-- The token writes an operator. -/
def IsOperator : Token → Prop
  | .equal | .notEqual | .comparison _ => True
  | _ => False

/-- No operator comes next. -/
def EndsPhrase (ts : List Token) : Prop :=
  ∀ t, ts.head? = some t → ¬ IsOperator t

/-- Neither an operator nor `;` comes next. -/
def EndsConjunction (ts : List Token) : Prop :=
  EndsPhrase ts ∧ ts.head? ≠ some .semicolon

/-- Neither an operator nor a combinator comes next. -/
def EndsDisjunction (ts : List Token) : Prop :=
  EndsConjunction ts ∧ ts.head? ≠ some .comma

theorem isOperator_operatorToken (op : Operator) : IsOperator (operatorToken op) := by
  cases op <;> trivial

theorem operatorToken_injective : Function.Injective operatorToken := by
  intro a b h
  cases a <;> cases b <;> simp_all [operatorToken]

theorem endsDisjunction_nil : EndsDisjunction [] := by
  simp [EndsDisjunction, EndsConjunction, EndsPhrase]

theorem endsDisjunction_rightParen (ts : List Token) : EndsDisjunction (.rightParen :: ts) := by
  simp [EndsDisjunction, EndsConjunction, EndsPhrase, IsOperator]

theorem endsConjunction_comma (ts : List Token) : EndsConjunction (.comma :: ts) := by
  simp [EndsConjunction, EndsPhrase, IsOperator]

theorem endsPhrase_semicolon (ts : List Token) : EndsPhrase (.semicolon :: ts) := by
  simp [EndsPhrase, IsOperator]

/-! ### Uniqueness -/

theorem Argument.tokens_append_ne (v : Argument) (ts rs : List Token) :
    v.tokens ++ ts ≠ .rightParen :: rs := by
  cases v <;> simp [Argument.tokens]

theorem Arguments.tokens_append_ne (items : Arguments) (ts rs : List Token) :
    items.tokens ++ ts ≠ .rightParen :: rs := by
  cases items with
  | last v => exact v.tokens_append_ne ts rs
  | more v rest =>
    rw [Arguments.tokens, List.append_assoc]
    exact v.tokens_append_ne _ rs

mutual

/-- Two values that start one sequence of tokens are one value. -/
theorem Argument.unique : ∀ (v w : Argument) {r s : List Token},
    v.tokens ++ r = w.tokens ++ s → v = w ∧ r = s
  | .list items, w, r, s, h => by
      cases w with
      | list items' =>
        have h' : items.tokens ++ .rightParen :: r = items'.tokens ++ .rightParen :: s := by
          simpa [Argument.tokens] using h
        obtain ⟨rfl, hrest⟩ := Arguments.unique items items' h' (by simp) (by simp)
        exact ⟨rfl, by simpa using hrest⟩
      | empty =>
        have h' : items.tokens ++ .rightParen :: r = .rightParen :: s := by
          simpa [Argument.tokens] using h
        exact absurd h' (items.tokens_append_ne _ _)
      | _ => simp [Argument.tokens] at h
  | .empty, w, r, s, h => by
      cases w with
      | list items' =>
        have h' : items'.tokens ++ .rightParen :: s = .rightParen :: r := by
          simpa [Argument.tokens] using h.symm
        exact absurd h' (items'.tokens_append_ne _ _)
      | empty => exact ⟨rfl, by simpa [Argument.tokens] using h⟩
      | _ => simp [Argument.tokens] at h
  | .text _, w, _, _, h | .selector _, w, _, _, h | .integer _, w, _, _, h
  | .float _, w, _, _, h | .boolean _, w, _, _, h => by
      cases w <;> simp_all [Argument.tokens]

theorem Arguments.unique : ∀ (items items' : Arguments) {r s : List Token},
    items.tokens ++ r = items'.tokens ++ s →
    r.head? ≠ some .comma → s.head? ≠ some .comma → items = items' ∧ r = s
  | .last v, items', r, s, h, hr, hs => by
      cases items' with
      | last w =>
        obtain ⟨rfl, rfl⟩ := Argument.unique v w h
        exact ⟨rfl, rfl⟩
      | more w rest' =>
        rw [Arguments.tokens, Arguments.tokens, List.append_assoc] at h
        obtain ⟨rfl, rfl⟩ := Argument.unique v w h
        simp at hr
  | .more v rest, items', r, s, h, hr, hs => by
      cases items' with
      | last w =>
        rw [Arguments.tokens, Arguments.tokens, List.append_assoc] at h
        obtain ⟨rfl, rfl⟩ := Argument.unique v w h
        simp at hs
      | more w rest' =>
        rw [Arguments.tokens, Arguments.tokens, List.append_assoc, List.append_assoc] at h
        obtain ⟨rfl, htail⟩ := Argument.unique v w h
        obtain ⟨rfl, rfl⟩ := Arguments.unique rest rest' (by simpa using htail) hr hs
        exact ⟨rfl, rfl⟩

end

mutual

/-- Two disjunctions that start one sequence of tokens, and that nothing continues, are one. -/
theorem Disjunction.unique : ∀ (d d' : Disjunction) {r s : List Token},
    d.tokens ++ r = d'.tokens ++ s → EndsDisjunction r → EndsDisjunction s → d = d' ∧ r = s
  | .single left, d', r, s, h, hr, hs => by
      cases d' with
      | single left' =>
        obtain ⟨rfl, rfl⟩ := Conjunction.unique left left' h hr.1 hs.1
        exact ⟨rfl, rfl⟩
      | link left' right' =>
        rw [Disjunction.tokens, Disjunction.tokens, List.append_assoc] at h
        obtain ⟨rfl, rfl⟩ := Conjunction.unique left left' h hr.1 (endsConjunction_comma _)
        exact absurd rfl hr.2
  | .link left right, d', r, s, h, hr, hs => by
      cases d' with
      | single left' =>
        rw [Disjunction.tokens, Disjunction.tokens, List.append_assoc] at h
        obtain ⟨rfl, rfl⟩ := Conjunction.unique left left' h (endsConjunction_comma _) hs.1
        exact absurd rfl hs.2
      | link left' right' =>
        rw [Disjunction.tokens, Disjunction.tokens, List.append_assoc, List.append_assoc] at h
        obtain ⟨rfl, htail⟩ := Conjunction.unique left left' h
          (endsConjunction_comma _) (endsConjunction_comma _)
        obtain ⟨rfl, rfl⟩ := Disjunction.unique right right' (by simpa using htail) hr hs
        exact ⟨rfl, rfl⟩

theorem Conjunction.unique : ∀ (c c' : Conjunction) {r s : List Token},
    c.tokens ++ r = c'.tokens ++ s → EndsConjunction r → EndsConjunction s → c = c' ∧ r = s
  | .single left, c', r, s, h, hr, hs => by
      cases c' with
      | single left' =>
        obtain ⟨rfl, rfl⟩ := Phrase.unique left left' h hr.1 hs.1
        exact ⟨rfl, rfl⟩
      | link left' right' =>
        rw [Conjunction.tokens, Conjunction.tokens, List.append_assoc] at h
        obtain ⟨rfl, rfl⟩ := Phrase.unique left left' h hr.1 (endsPhrase_semicolon _)
        exact absurd rfl hr.2
  | .link left right, c', r, s, h, hr, hs => by
      cases c' with
      | single left' =>
        rw [Conjunction.tokens, Conjunction.tokens, List.append_assoc] at h
        obtain ⟨rfl, rfl⟩ := Phrase.unique left left' h (endsPhrase_semicolon _) hs.1
        exact absurd rfl hs.2
      | link left' right' =>
        rw [Conjunction.tokens, Conjunction.tokens, List.append_assoc, List.append_assoc] at h
        obtain ⟨rfl, htail⟩ := Phrase.unique left left' h
          (endsPhrase_semicolon _) (endsPhrase_semicolon _)
        obtain ⟨rfl, rfl⟩ := Conjunction.unique right right' (by simpa using htail) hr hs
        exact ⟨rfl, rfl⟩

theorem Phrase.unique : ∀ (p p' : Phrase) {r s : List Token},
    p.tokens ++ r = p'.tokens ++ s → EndsPhrase r → EndsPhrase s → p = p' ∧ r = s
  | .group inner, p', r, s, h, hr, hs => by
      cases p' with
      | group inner' =>
        have h' : inner.tokens ++ .rightParen :: r = inner'.tokens ++ .rightParen :: s := by
          simpa [Phrase.tokens] using h
        obtain ⟨rfl, hrest⟩ := Disjunction.unique inner inner' h'
          (endsDisjunction_rightParen _) (endsDisjunction_rightParen _)
        exact ⟨rfl, by simpa using hrest⟩
      | _ => simp [Phrase.tokens] at h
  | .presence name, p', r, s, h, hr, hs => by
      cases p' with
      | group => simp [Phrase.tokens] at h
      | presence => simpa [Phrase.tokens] using h
      | comparison name' op v =>
        obtain ⟨rfl, rfl⟩ : name = name' ∧ r = operatorToken op :: (v.tokens ++ s) := by
          simpa [Phrase.tokens] using h
        exact absurd (isOperator_operatorToken op) (hr _ rfl)
  | .comparison name op v, p', r, s, h, hr, hs => by
      cases p' with
      | group => simp [Phrase.tokens] at h
      | presence name' =>
        obtain ⟨rfl, rfl⟩ : name = name' ∧ operatorToken op :: (v.tokens ++ r) = s := by
          simpa [Phrase.tokens] using h
        exact absurd (isOperator_operatorToken op) (hs _ rfl)
      | comparison name' op' v' =>
        obtain ⟨rfl, hop, hv⟩ : name = name' ∧ operatorToken op = operatorToken op' ∧
            v.tokens ++ r = v'.tokens ++ s := by
          simpa [Phrase.tokens] using h
        obtain ⟨rfl, rfl⟩ := Argument.unique v v' hv
        rw [operatorToken_injective hop]
        exact ⟨rfl, rfl⟩

end

/-- A sequence of tokens has at most one derivation. -/
theorem Disjunction.tokens_injective : Function.Injective Disjunction.tokens := by
  intro d d' h
  exact (d.unique d' (congrArg (· ++ []) h) endsDisjunction_nil endsDisjunction_nil).1

end Grammar
end Criteria
