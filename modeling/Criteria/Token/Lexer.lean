import Criteria.Token.Rule

/-!
# The lexer

A lexer is the text still to be read and the number of the line it starts on.  `next`
takes one token off it and skips the blanks before that token.

* At the end of the text, and at a character where no rule matches, the lexer stays where
  it is, behind the blanks it skipped.
* A number out of range is an error, but the lexer moves past it.

**Results.**
* `next_length_le`: no call makes the remaining text longer.
* `next_length_lt`: a call that answers a token makes it shorter.
-/

namespace Criteria

/-- The text that is left, and the line on which it starts, counted from one. -/
structure Lexer where
  rest : List Char
  line : Nat
deriving DecidableEq

namespace Lexer

/-- A lexer at the start of a text. -/
def ofString (text : String) : Lexer :=
  ⟨text.toList, 1⟩

/-- The lexer behind the next `n` characters.  Only line feeds count as line ends. -/
def skip (l : Lexer) (n : Nat) : Lexer :=
  ⟨l.rest.drop n, l.line + (l.rest.take n).count '\n'⟩

theorem skip_length_lt {l : Lexer} {rule : Token.Rule} {n : Nat}
    (h : Token.Rule.longest l.rest = some (rule, n)) :
    (l.skip n).rest.length < l.rest.length := by
  obtain ⟨rfl, hpos⟩ := Token.Rule.longest_eq_some h
  have := Token.Rule.extent_le rule l.rest
  simp only [skip, List.length_drop]
  omega

/-- The answer where no rule matches: the end of the text, or its first character as an
error. -/
def stuck (l : Lexer) : Except LexError (Option Lexeme) :=
  match l.rest with
  | [] => .ok none
  | c :: _ => .error (.unexpectedCharacter c l.line)

/-- Takes the next token off the text; none at its end. -/
def next (l : Lexer) : Except LexError (Option Lexeme) × Lexer :=
  match _h : Token.Rule.longest l.rest with
  | none => (l.stuck, l)
  | some (rule, n) =>
      match rule.decode (l.rest.take n) l.line with
      | .ok none => (l.skip n).next
      | .ok (some token) => (.ok (some ⟨token, l.line⟩), l.skip n)
      | .error e => (.error e, l.skip n)
termination_by l.rest.length
decreasing_by exact skip_length_lt _h

theorem stuck_ne_token (l : Lexer) (lexeme : Lexeme) : l.stuck ≠ .ok (some lexeme) := by
  unfold stuck
  split <;> simp

theorem next_length_le (l : Lexer) : l.next.2.rest.length ≤ l.rest.length := by
  fun_induction next l with
  | case1 => exact Nat.le_refl _
  | case2 l rule n h _ ih => exact Nat.le_trans ih (Nat.le_of_lt (skip_length_lt h))
  | case3 l rule n h => exact Nat.le_of_lt (skip_length_lt h)
  | case4 l rule n h => exact Nat.le_of_lt (skip_length_lt h)

theorem next_length_lt {l : Lexer} {lexeme : Lexeme} (h : l.next.1 = .ok (some lexeme)) :
    l.next.2.rest.length < l.rest.length := by
  fun_induction next l with
  | case1 l _ => exact absurd h (stuck_ne_token l lexeme)
  | case2 l rule n hm _ ih => exact Nat.lt_trans (ih h) (skip_length_lt hm)
  | case3 l rule n hm => exact skip_length_lt hm
  | case4 => cases h

/-- All tokens of the text, up to its end or the first error. -/
def tokens (l : Lexer) : Except LexError (List Lexeme) :=
  match _h : l.next with
  | (.error e, _) => .error e
  | (.ok none, _) => .ok []
  | (.ok (some lexeme), l') => l'.tokens.map (lexeme :: ·)
termination_by l.rest.length
decreasing_by
  have hlt := @next_length_lt l lexeme (by rw [_h])
  rwa [_h] at hlt

end Lexer

/-- Splits a filter text into tokens. -/
def tokenize (text : String) : Except LexError (List Lexeme) :=
  (Lexer.ofString text).tokens

end Criteria
