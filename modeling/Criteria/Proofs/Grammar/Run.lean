import Criteria.Expr.Parser
import Criteria.Proofs.Token.Stream

/-!
# Runs of the parser

How an outcome ends, stated once for each way of building one.  A parser `Sees` the lexemes that
it still has to take: its current token, and what its lexer yields after it.  Taking a token
leaves the parser with the rest of them, or fails with the lexical error that stops the stream.

**Results.**
* `Parser.Outcome.ends_take`, `ends_andThen`, `ends_map`, `ends_nested`: what is to be shown of
  an outcome, by its last step.
* `Parser.sees_ofLexer`: what a parser sees at the start of a text.
-/

namespace Criteria
namespace Parser

/-- The lexemes that the parser has still to take, and the error that stops them, if any. -/
def Sees (p : Parser) (lexemes : List Lexeme) (stop : Option LexError) : Prop :=
  match lexemes with
  | [] => p.current = none ∧ stop = none
  | first :: rest => p.current = some first ∧ p.lexer.Yields rest stop

section Sees

variable {p : Parser} {lexeme : Lexeme} {lexemes : List Lexeme} {stop : Option LexError}

theorem Sees.peek_cons (h : p.Sees (lexeme :: lexemes) stop) : p.peek = some lexeme.token := by
  rw [peek, h.1]
  rfl

theorem Sees.peek_eq (h : p.Sees lexemes stop) :
    p.peek = (lexemes.map Lexeme.token).head? := by
  cases lexemes with
  | nil => rw [peek, h.1]; rfl
  | cons first rest => rw [h.peek_cons]; rfl

/-- The parser sees at least the token that it peeks at. -/
theorem Sees.exists_cons {token : Token} (h : p.Sees lexemes stop) (hp : p.peek = some token) :
    ∃ first rest, lexemes = first :: rest ∧ first.token = token := by
  cases lexemes with
  | nil =>
    rw [h.peek_eq] at hp
    cases hp
  | cons first rest =>
    rw [h.peek_cons] at hp
    exact ⟨first, rest, rfl, Option.some.inj hp⟩

@[simp] theorem sees_deeper : p.deeper.Sees lexemes stop ↔ p.Sees lexemes stop := by
  cases lexemes <;> rfl

@[simp] theorem sees_shallower : p.shallower.Sees lexemes stop ↔ p.Sees lexemes stop := by
  cases lexemes <;> rfl

@[simp] theorem deeper_depth : p.deeper.depth = p.depth + 1 := rfl

@[simp] theorem shallower_depth : p.shallower.depth = p.depth - 1 := rfl

/-- A parser sees one stream of lexemes only. -/
theorem Sees.unique {lexemes' : List Lexeme} {stop' : Option LexError} (h : p.Sees lexemes stop)
    (h' : p.Sees lexemes' stop') : lexemes = lexemes' ∧ stop = stop' := by
  cases lexemes with
  | nil =>
    cases lexemes' with
    | nil => exact ⟨rfl, h.2.trans h'.2.symm⟩
    | cons => cases h.1.symm.trans h'.1
  | cons first rest =>
    cases lexemes' with
    | nil => cases h.1.symm.trans h'.1
    | cons first' rest' =>
      obtain rfl : first = first' := Option.some.inj (h.1.symm.trans h'.1)
      obtain ⟨rfl, rfl⟩ := h.2.unique h'.2
      exact ⟨rfl, rfl⟩

/-- Taking a token leaves the other ones, unless the lexer fails behind it. -/
theorem Sees.advance (h : p.Sees (lexeme :: lexemes) stop) :
    (p.advance.1 = .ok () ∧ p.advance.2.Sees lexemes stop ∧ p.advance.2.depth = p.depth ∧
        p.advance.2.previous = some lexeme) ∨
      ∃ e, lexemes = [] ∧ stop = some e ∧ p.advance.1 = .error (.lexical e) ∧
        p.advance.2.depth = p.depth := by
  obtain ⟨hcurrent, hy⟩ := h
  cases hy with
  | done hn => left; simp [Parser.advance, hn, Sees, hcurrent]
  | @fails _ _ e hn => right; exact ⟨e, rfl, rfl, by simp [Parser.advance, hn]⟩
  | token hn hrest => left; simp [Parser.advance, hn, Sees, hrest, hcurrent]

/-- A parser at the start of a text sees what its lexer yields; without a first token it does
not start. -/
theorem sees_ofLexer {l : Lexer} (h : l.Yields lexemes stop) :
    (∃ p, ofLexer l = .ok p ∧ p.Sees lexemes stop ∧ p.depth = 0 ∧ p.previous = none) ∨
      ∃ e, lexemes = [] ∧ stop = some e ∧ ofLexer l = .error (.lexical e) := by
  cases h with
  | done hn => left; simp [ofLexer, hn, Sees]
  | @fails _ _ e hn => right; exact ⟨e, rfl, rfl, by simp [ofLexer, hn]⟩
  | token hn hrest => left; simp [ofLexer, hn, Sees, hrest]

/-- A text is read by the rule for complete filters. -/
theorem parse_of_ofLexer {text : String} (h : ofLexer (Lexer.ofString text) = .ok p) :
    Expr.parse text = p.filter.answer := by
  rw [Expr.parse, h]
  rfl

end Sees

namespace Outcome

variable {α β : Type} {p : Parser}

/-- The outcome's answer and the parser after it are as `post` says. -/
def Ends (x : Outcome α p) (post : Except ParseError α → Parser → Prop) : Prop :=
  post x.answer x.after

variable {post : Except ParseError α → Parser → Prop}

theorem Ends.mono {x : Outcome α p} {post' : Except ParseError α → Parser → Prop}
    (h : x.Ends post) (himp : ∀ r q, post r q → post' r q) : x.Ends post' :=
  himp _ _ h

theorem ends_done {a : α} (h : post (.ok a) p) : (done a p).Ends post := h

theorem ends_fail {e : ParseError} (h : post (.error e) p) : (fail e p : Outcome α p).Ends post :=
  h

theorem ends_map {f : β → α} {x : Outcome β p} (h : x.Ends fun r q => post (r.map f) q) :
    (x.map f).Ends post := h

theorem ends_andThen {x : Outcome β p} {f : β → (q : Parser) → q.size ≤ p.size → Outcome α q}
    (h : x.Ends fun r q =>
      match r with
      | .ok a => ∀ hq : q.size ≤ p.size, (f a q hq).Ends post
      | .error e => post (.error e) q) :
    (x.andThen f).Ends post := by
  obtain ⟨answer, q, hq⟩ := x
  cases answer with
  | ok a => exact h hq
  | error e => exact h

/-- Taking a token, which is the last one taken then. -/
theorem ends_take_previous {lexeme : Lexeme} {lexemes : List Lexeme} {stop : Option LexError}
    (hs : p.Sees (lexeme :: lexemes) stop) {hp : p.current.isSome = true}
    {f : (q : Parser) → q.size < p.size → Outcome α q}
    (hfail : ∀ e q, lexemes = [] → stop = some e → q.depth = p.depth →
      post (.error (.lexical e)) q)
    (hok : ∀ (q : Parser) (hq : q.size < p.size), q.Sees lexemes stop → q.depth = p.depth →
      q.previous = some lexeme → (f q hq).Ends post) :
    (p.take hp f).Ends post := by
  have hadv := hs.advance
  unfold take Ends
  split
  · next e q hq =>
    rw [hq] at hadv
    rcases hadv with ⟨h, _⟩ | ⟨e', hl, hstop, he, hd⟩
    · cases h
    · cases he
      exact hfail e' q hl hstop hd
  · next q hq =>
    rw [hq] at hadv
    rcases hadv with ⟨_, hsees, hd, hprevious⟩ | ⟨e', _, _, he, _⟩
    · exact hok q _ hsees hd hprevious
    · cases he

theorem ends_take {lexeme : Lexeme} {lexemes : List Lexeme} {stop : Option LexError}
    (hs : p.Sees (lexeme :: lexemes) stop) {hp : p.current.isSome = true}
    {f : (q : Parser) → q.size < p.size → Outcome α q}
    (hfail : ∀ e q, lexemes = [] → stop = some e → q.depth = p.depth →
      post (.error (.lexical e)) q)
    (hok : ∀ (q : Parser) (hq : q.size < p.size), q.Sees lexemes stop → q.depth = p.depth →
      (f q hq).Ends post) :
    (p.take hp f).Ends post :=
  ends_take_previous hs hfail fun q hq hsees hd _ => hok q hq hsees hd

theorem ends_nested {rule : Unit → Outcome α p.deeper}
    (hdeep : maxNesting ≤ p.depth → post (.error (p.fault .nestingTooDeep)) p)
    (hrule : p.depth < maxNesting → (rule ()).Ends fun r q => post r q.shallower) :
    (p.nested rule).Ends post := by
  unfold nested Ends
  split
  · next h => exact hdeep h
  · next h => exact hrule (Nat.lt_of_not_le h)

end Outcome

end Parser
end Criteria
