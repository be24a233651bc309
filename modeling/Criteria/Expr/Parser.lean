import Criteria.Expr
import Criteria.Token.Lexer

/-!
# The parser

Recursive descent with one token of lookahead.  Each chain associates to the right, and
`;` binds more tightly than `,`:

```text
or         = and ( "," or )?
and        = constraint ( ";" and )?
constraint = "(" or ")"
           | SELECTOR ( ( "==" | "!=" | COMPARISON ) value )?
value      = TEXT | SELECTOR | INTEGER | FLOAT | BOOLEAN
           | "(" ( value ( "," value )* )? ")"
```

Every group, every list and every right operand of a chain is one level of nesting, and at
most `maxNesting` levels may be open at once.

A parser outlives its errors: after a failure it can be asked again, and goes on from the
token it stopped at.

**Termination.**  Each rule of the grammar answers an `Outcome`: the answer, the parser after
it, and the proof that this parser holds no more input than the one it started from.  Taking a
token makes the input strictly smaller, and no rule calls itself without taking one.
-/

namespace Criteria

/-- What is wrong where the tokens leave the grammar. -/
inductive SyntaxFault where
  | nestingTooDeep
  | expectedConstraint
  | endBeforeConstraint
  | unclosedGroup
  | expectedValue
  | endBeforeValue
  | expectedListSeparator
  | unclosedList
  | unmatchedClose
  | trailingToken
deriving DecidableEq, Repr

/-- The wording of the fault, without its place. -/
def SyntaxFault.text : SyntaxFault → String
  | .nestingTooDeep => "nesting too deep"
  | .expectedConstraint => "expected a selector or '('"
  | .endBeforeConstraint => "unexpected end of input, expected a selector or '('"
  | .unclosedGroup => "unmatched '('"
  | .expectedValue => "expected a value"
  | .endBeforeValue => "unexpected end of input, expected a value"
  | .expectedListSeparator => "expected ',' or ')' in list"
  | .unclosedList => "missing ')' to close list"
  | .unmatchedClose => "unmatched ')'"
  | .trailingToken => "unexpected token after complete filter"

/-- Why a text is not a filter. -/
inductive ParseError where
  /-- The text could not be split into tokens. -/
  | lexical (e : LexError)
  /-- The tokens do not form a filter; `near` is the token at the fault, if there is any. -/
  | grammar (line : Nat) (fault : SyntaxFault) (near : Option Token)
deriving DecidableEq

namespace ParseError

/-- The line on which the error was found. -/
def line : ParseError → Nat
  | .lexical e => e.line
  | .grammar n _ _ => n

/-- The wording of the error. -/
def message : ParseError → String
  | .lexical e => "lexical error: " ++ e.message
  | .grammar n fault near =>
      "syntax error on line " ++ toString n ++ ": " ++ fault.text ++
        near.elim "" fun token => " near '" ++ token.describe ++ "'"

end ParseError

/-- The value that a token writes as an argument.  A selector is a text there. -/
def Token.value? : Token → Option Value
  | .text s | .selector s => some (.text s)
  | .integer n => some (.integer n)
  | .float x => some (.float x)
  | .boolean b => some (.boolean b)
  | _ => none

/-- The number of levels that may be open at once. -/
def maxNesting : Nat := 256

/-- A lexer with the next token, the last token taken, and the number of open levels. -/
structure Parser where
  lexer : Lexer
  current : Option Lexeme
  previous : Option Lexeme
  depth : Nat
deriving DecidableEq

namespace Parser

/-- A parser at the start of what `lexer` reads. -/
def ofLexer (lexer : Lexer) : Except ParseError Parser :=
  match lexer.next with
  | (.error e, _) => .error (.lexical e)
  | (.ok first, after) => .ok ⟨after, first, none, 0⟩

/-- The next token; none at the end of the text. -/
def peek (p : Parser) : Option Token :=
  p.current.map Lexeme.token

/-- How much there is to read: the characters left, and one for the next token. -/
def size (p : Parser) : Nat :=
  p.lexer.rest.length + (if p.current.isSome then 1 else 0)

/-- The place that errors name: the next token, or the last one at the end of the text. -/
def place (p : Parser) : Option Lexeme :=
  p.current.or p.previous

/-- A fault at the parser's place; the first line if no token was read at all. -/
def fault (p : Parser) (f : SyntaxFault) : ParseError :=
  .grammar (p.place.elim 1 Lexeme.line) f (p.place.map Lexeme.token)

/-- What a rule of the grammar gives from the parser `p`. -/
structure Outcome (α : Type) (p : Parser) where
  answer : Except ParseError α
  after : Parser
  size_le : after.size ≤ p.size

namespace Outcome

variable {α β : Type} {p : Parser}

/-- Success without reading anything. -/
def done (a : α) (p : Parser) : Outcome α p :=
  ⟨.ok a, p, Nat.le_refl _⟩

/-- Failure without reading anything. -/
def fail (e : ParseError) (p : Parser) : Outcome α p :=
  ⟨.error e, p, Nat.le_refl _⟩

/-- Changes the answer of a success. -/
def map (f : α → β) (x : Outcome α p) : Outcome β p :=
  ⟨x.answer.map f, x.after, x.size_le⟩

/-- Starts an outcome from a parser that holds as much as the present one, or more. -/
def widen {q : Parser} (h : q.size ≤ p.size) (x : Outcome α q) : Outcome α p :=
  ⟨x.answer, x.after, Nat.le_trans x.size_le h⟩

/-- Goes on after a success. -/
def andThen (x : Outcome α p) (f : α → (q : Parser) → q.size ≤ p.size → Outcome β q) :
    Outcome β p :=
  match x with
  | ⟨.error e, q, h⟩ => ⟨.error e, q, h⟩
  | ⟨.ok a, q, h⟩ => (f a q h).widen h

end Outcome

/-- Takes the next token.  When the lexer fails, the current and the last token stay as they
are. -/
def advance (p : Parser) : Except ParseError Unit × Parser :=
  match p.lexer.next with
  | (.error e, l) => (.error (.lexical e), { p with lexer := l })
  | (.ok lexeme, l) => (.ok (), { p with lexer := l, current := lexeme, previous := p.current })

theorem advance_size_lt {p : Parser} (hp : p.current.isSome = true)
    (h : p.advance.1 = .ok ()) : p.advance.2.size < p.size := by
  have hle := p.lexer.next_length_le
  unfold advance at h ⊢
  cases hn : p.lexer.next with
  | mk answer l =>
    rw [hn] at h hle
    cases answer with
    | error e => cases h
    | ok lexeme =>
      cases lexeme with
      | none =>
        simp only [size, hp, if_true, Option.isSome_none, Bool.false_eq_true, if_false]
        exact Nat.lt_succ_of_le hle
      | some t =>
        have hlt := @Lexer.next_length_lt p.lexer t (by rw [hn])
        rw [hn] at hlt
        simp only [size, hp, if_true, Option.isSome_some]
        exact Nat.succ_lt_succ hlt

theorem advance_size_le {p : Parser} {e : ParseError} (h : p.advance.1 = .error e) :
    p.advance.2.size ≤ p.size := by
  have hle := p.lexer.next_length_le
  unfold advance at h ⊢
  cases hn : p.lexer.next with
  | mk answer l =>
    rw [hn] at h hle
    cases answer with
    | error e => exact Nat.add_le_add_right hle _
    | ok lexeme => cases h

variable {α : Type}

/-- Takes the next token, which there is, and goes on with strictly less input. -/
def take (p : Parser) (hp : p.current.isSome = true)
    (f : (q : Parser) → q.size < p.size → Outcome α q) : Outcome α p :=
  match h : p.advance with
  | (.error e, q) => ⟨.error e, q, by
      have := @advance_size_le p e (by rw [h])
      rwa [h] at this⟩
  | (.ok (), q) =>
      have hlt : q.size < p.size := by
        have := advance_size_lt hp (by rw [h])
        rwa [h] at this
      (f q hlt).widen (Nat.le_of_lt hlt)

/-- The parser with one more level open. -/
def deeper (p : Parser) : Parser :=
  { p with depth := p.depth + 1 }

/-- The parser with the innermost level closed. -/
def shallower (p : Parser) : Parser :=
  { p with depth := p.depth - 1 }

/-- Runs a rule one level deeper, unless all levels are open.  The level is closed again
whether the rule succeeds or not. -/
def nested (p : Parser) (rule : Unit → Outcome α p.deeper) : Outcome α p :=
  if maxNesting ≤ p.depth then .fail (p.fault .nestingTooDeep) p
  else
    let inner := rule ()
    ⟨inner.answer, inner.after.shallower, inner.size_le⟩

theorem isSome_of_peek {p : Parser} {token : Token} (h : p.peek = some token) :
    p.current.isSome = true := by
  unfold peek at h
  cases hc : p.current with
  | none => rw [hc] at h; cases h
  | some _ => rfl

mutual

/-- A literal argument: a single token, or a list in parentheses. -/
def value (p : Parser) : Outcome Value p :=
  match h : p.peek with
  | none => .fail (p.fault .endBeforeValue) p
  | some token =>
      match token.value? with
      | some v => p.take (isSome_of_peek h) fun q _ => .done v q
      | none =>
          if token = .leftParen then p.nested fun _ => list p.deeper (isSome_of_peek h)
          else .fail (p.fault .expectedValue) p
termination_by 4 * p.size + 1
decreasing_by show 4 * p.size < 4 * p.size + 1; omega

/-- A list, from its opening parenthesis on. -/
def list (p : Parser) (hp : p.current.isSome = true) : Outcome Value p :=
  p.take hp fun q _ =>
    if h : q.peek = some .rightParen then
      q.take (isSome_of_peek h) fun r _ => .done (.list []) r
    else (items q).map .list
termination_by 4 * p.size
decreasing_by omega

/-- The items of a list up to its closing parenthesis, of which there is at least one. -/
def items (p : Parser) : Outcome (List Value) p :=
  (value p).andThen fun first q _hq =>
    match h : q.peek with
    | some .comma => q.take (isSome_of_peek h) fun r _ => (items r).map (first :: ·)
    | some .rightParen => q.take (isSome_of_peek h) fun r _ => .done [first] r
    | some _ => .fail (q.fault .expectedListSeparator) q
    | none => .fail (q.fault .unclosedList) q
termination_by 4 * p.size + 2
decreasing_by all_goals omega

end

/-- What follows a selector: nothing, or an operator and a value. -/
def comparison (selector : String) (p : Parser) : Outcome Constraint p :=
  let operand (op : Operator) (q : Parser) : Outcome Constraint q :=
    (value q).map (.comparison selector op)
  match h : p.peek with
  | some .equal => p.take (isSome_of_peek h) fun q _ => operand .equal q
  | some .notEqual => p.take (isSome_of_peek h) fun q _ => operand .notEqual q
  | some (.comparison tag) => p.take (isSome_of_peek h) fun q _ => operand (.tagged tag) q
  | _ => .done (.presence selector) p

mutual

/-- A chain of `,`. -/
def disjunction (p : Parser) : Outcome Expr p :=
  (conjunction p).andThen fun left q _hq =>
    if h : q.peek = some .comma then
      q.take (isSome_of_peek h) fun r _hr =>
        r.nested fun _ => (disjunction r.deeper).map (.or left)
    else .done left q
termination_by 4 * p.size + 3
decreasing_by
  · omega
  · show 4 * r.size + 3 < 4 * p.size + 3
    omega

/-- A chain of `;`. -/
def conjunction (p : Parser) : Outcome Expr p :=
  (constraint p).andThen fun left q _hq =>
    if h : q.peek = some .semicolon then
      q.take (isSome_of_peek h) fun r _hr =>
        r.nested fun _ => (conjunction r.deeper).map (.and left)
    else .done left q
termination_by 4 * p.size + 2
decreasing_by
  · omega
  · show 4 * r.size + 2 < 4 * p.size + 2
    omega

/-- A group, or a selector with what follows it. -/
def constraint (p : Parser) : Outcome Expr p :=
  match h : p.peek with
  | some .leftParen => p.nested fun _ => group p.deeper (isSome_of_peek h)
  | some (.selector name) =>
      p.take (isSome_of_peek h) fun q _ => (comparison name q).map .constraint
  | some _ => .fail (p.fault .expectedConstraint) p
  | none => .fail (p.fault .endBeforeConstraint) p
termination_by 4 * p.size + 1
decreasing_by show 4 * p.size < 4 * p.size + 1; omega

/-- A filter in parentheses, from the opening one on.  If it is not closed, the error names
the line of that parenthesis. -/
def group (p : Parser) (hp : p.current.isSome = true) : Outcome Expr p :=
  p.take hp fun q _ =>
    (disjunction q).andThen fun inner r _ =>
      if h : r.peek = some .rightParen then
        r.take (isSome_of_peek h) fun s _ => .done inner s
      else
        .fail (.grammar (p.current.elim 1 Lexeme.line) .unclosedGroup (r.place.map Lexeme.token)) r
termination_by 4 * p.size
decreasing_by omega

end

/-- A complete filter: no token may be left. -/
def filter (p : Parser) : Outcome Expr p :=
  (disjunction p).andThen fun e q _ =>
    match q.peek with
    | none => .done e q
    | some .rightParen => .fail (q.fault .unmatchedClose) q
    | some _ => .fail (q.fault .trailingToken) q

/-- Reads a complete filter, and gives the parser to go on with. -/
def parse (p : Parser) : Except ParseError Expr × Parser :=
  (p.filter.answer, p.filter.after)

/-- Reads one value, and gives the parser to go on with. -/
def parseValue (p : Parser) : Except ParseError Value × Parser :=
  (p.value.answer, p.value.after)

end Parser

/-- Reads a filter text. -/
def Expr.parse (text : String) : Except ParseError Expr := do
  let p ← Parser.ofLexer (Lexer.ofString text)
  p.parse.1

end Criteria
