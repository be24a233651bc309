import Criteria.Value

/-!
# Tokens

What the lexer makes of a filter text, and the line each token was read from.
-/

namespace Criteria

/-- A token of a filter text, its content decoded. -/
inductive Token where
  | float (x : Float)
  | integer (n : Int64)
  | boolean (b : Bool)
  | text (s : String)
  | selector (name : String)
  | comparison (tag : String)
  | equal
  | notEqual
  | comma
  | semicolon
  | leftParen
  | rightParen
deriving DecidableEq

/-- The token as messages show it, close to how a filter writes it. -/
def Token.describe : Token → String
  | .float x => floatText x
  | .integer n => toString n.toInt
  | .boolean b => if b then "true" else "false"
  | .text s => "'" ++ s ++ "'"
  | .selector name => name
  | .comparison tag => "=" ++ tag ++ "="
  | .equal => "=="
  | .notEqual => "!="
  | .comma => ","
  | .semicolon => ";"
  | .leftParen => "("
  | .rightParen => ")"

/-- A token and the line, counted from one, on which it starts. -/
structure Lexeme where
  token : Token
  line : Nat
deriving DecidableEq

end Criteria
