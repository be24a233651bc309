import Criteria.Proofs.Grammar.Faults
import Criteria.Proofs.Grammar.Texts
import Criteria.Proofs.Token.Writable

/-!
# The earliest token at fault

A text that is refused is refused at the first token with which no filter goes on.  What stands
before that token is the beginning of a filter that is accepted.

**Results.**
* `Expr.parse_earliest_fault`: where a fault of the grammar is found, and what it names.
-/

namespace Criteria

open Grammar

/-- The parser `q` has stopped reading the text at the earliest token at fault, behind the lexemes
`taken`, and the fault names that token, or the last one at the end of the text. -/
structure EarliestFault (text : String) (line : Nat) (fault : SyntaxFault) (near : Option Token)
    (q : Parser) (taken : List Lexeme) : Prop where
  place : ∃ rest stop, (Lexer.ofString text).Yields (taken ++ rest) stop ∧ q.Sees rest stop
  viable : ∃ accepted lexemes e, tokenize accepted = .ok lexemes ∧ Expr.parse accepted = .ok e ∧
    taken.map Lexeme.token <+: lexemes.map Lexeme.token
  stuck : ∀ t, q.peek = some t →
    ∀ d : Disjunction, ¬ (taken.map Lexeme.token ++ [t]) <+: d.tokens
  incomplete : q.peek = none → ∀ d : Disjunction, d.tokens ≠ taken.map Lexeme.token
  near_eq : near = (q.current.or taken.getLast?).map Lexeme.token
  near_eq_none : near = none ↔ tokenize text = .ok []
  line_eq : fault ≠ .unclosedGroup → line = (q.current.or taken.getLast?).elim 1 Lexeme.line
  line_opening : fault = .unclosedGroup → ∃ outer opening inner,
    taken = outer ++ opening :: inner ∧ line = opening.line ∧
      innermostGroup (taken.map Lexeme.token) = some outer.length ∧
      ∃ d : Disjunction, d.tokens = inner.map Lexeme.token
  /-- The message shows the line, the wording of the fault, and the token that it names. -/
  message_eq : (ParseError.grammar line fault near).message =
    "syntax error on line " ++ toString line ++ ": " ++ fault.text ++
      (q.current.or taken.getLast?).elim "" fun lexeme =>
        " near '" ++ lexeme.token.describe ++ "'"

theorem ParseError.message_near {line : Nat} {fault : SyntaxFault} {near : Option Lexeme} :
    (ParseError.grammar line fault (near.map Lexeme.token)).message =
      "syntax error on line " ++ toString line ++ ": " ++ fault.text ++
        near.elim "" fun lexeme => " near '" ++ lexeme.token.describe ++ "'" := by
  cases near <;> rfl

theorem Grammar.IsFiller.writable {t : Token} (h : IsFiller t) : t.Writable := by
  rcases h with rfl | rfl
  · show Token.IsWord ['a']
    refine ⟨⟨by decide, List.forall_mem_singleton.2 (by decide)⟩, fun hinteger => ?_, ?_, ?_⟩
    · exact absurd (Token.Rule.mem_cases_of_isInteger hinteger List.mem_cons_self) (by decide)
    · rintro ⟨whole, fraction, exponent, hsplit, -⟩
      have hpoint : '.' ∈ ['a'] := by
        rw [hsplit]
        exact List.mem_append_right _ List.mem_cons_self
      exact absurd hpoint (by decide)
    · rintro (hword | hword) <;> exact absurd (congrArg List.length hword) (by decide)
  · trivial

/-- Tokens of a text that begin a filter begin one that is accepted. -/
theorem Grammar.Construct.Begins.accepted {used : List Token}
    (h : Construct.sentence.Begins 0 used) (hused : ∀ t ∈ used, t.Writable) :
    ∃ accepted lexemes e, tokenize accepted = .ok lexemes ∧ Expr.parse accepted = .ok e ∧
      used <+: lexemes.map Lexeme.token := by
  obtain ⟨d, more, htokens, hmore, hn⟩ := h
  have hwritable : ∀ t ∈ d.tokens, t.Writable := by
    rw [show d.tokens = used ++ more from htokens, List.forall_mem_append]
    exact ⟨hused, fun t ht => (hmore t ht).writable⟩
  obtain ⟨cs, hwrites⟩ := Token.exists_writes_iff.2 hwritable
  rw [← String.toList_ofList (l := cs)] at hwrites
  obtain ⟨lexemes, ht, hd⟩ := derives_iff_writes.2 hwrites
  refine ⟨String.ofList cs, lexemes, d.tree, ht, ?_, more, hd ▸ htokens.symm⟩
  exact Expr.parse_eq_ok_iff.2 ⟨lexemes, ht, d, hd, rfl, by rwa [Nat.zero_add] at hn⟩

/-- What is settled where a complete filter fails says that no token stands at fault earlier. -/
theorem Parser.FailsAt.earliest {text : String} {line : Nat} {fault : SyntaxFault}
    {near : Option Token} {lexemes : List Lexeme} {stop : Option LexError} {q : Parser}
    (h : FailsAt .sentence 0 [] lexemes stop line fault near q)
    (hyields : (Lexer.ofString text).Yields lexemes stop) (hfault : fault ≠ .nestingTooDeep) :
    ∃ taken, EarliestFault text line fault near q taken := by
  obtain ⟨taken, rest, rfl, hat, hreports, hgrammar⟩ := h
  obtain ⟨hsettles, hbegins⟩ := hgrammar hfault
  rw [List.nil_append] at hat hreports
  have hcurrent : q.current = rest.head? := by cases rest <;> exact hat.1.1
  have hnear : near = (q.current.or taken.getLast?).map Lexeme.token := by
    rw [hcurrent]
    exact hreports.near_eq
  refine ⟨taken, ⟨rest, stop, hyields, hat.1⟩, ?viable, ?stuck, ?incomplete, hnear,
    ?near_eq_none, ?line_eq, hreports.line_opening, ?message_eq⟩
  case viable =>
    refine hbegins.accepted fun t ht => ?_
    obtain ⟨lexeme, hmem, rfl⟩ := List.mem_map.1 ht
    exact hyields.writable lexeme (List.mem_append_left _ hmem)
  -- With another token behind, what is settled could not go on.
  case stuck =>
    rintro t hpeek d ⟨more, hmore⟩
    rw [hat.1.peek_eq] at hpeek
    refine (hsettles d [] (t :: more) rfl hpeek.symm ?_).1
    rw [List.append_nil, List.append_cons]
    exact hmore.symm
  case incomplete =>
    intro hpeek d htokens
    rw [hat.1.peek_eq] at hpeek
    refine (hsettles d [] [] rfl hpeek.symm ?_).1
    rw [List.append_nil, List.append_nil]
    exact htokens
  case near_eq_none =>
    rw [hreports.near_eq, Option.map_eq_none_iff, Option.or_eq_none_iff, List.head?_eq_none_iff,
      List.getLast?_eq_none_iff]
    constructor
    · rintro ⟨rfl, rfl⟩
      obtain rfl := hat.1.2
      exact Lexer.tokens_eq_ok_iff.2 hyields
    · intro htokens
      obtain ⟨hnone, -⟩ := hyields.unique (Lexer.tokens_eq_ok_iff.1 htokens)
      exact (List.append_eq_nil_iff.1 hnone).symm
  case line_eq =>
    rw [hcurrent]
    exact hreports.line_eq
  case message_eq =>
    rw [hnear]
    exact ParseError.message_near

/-- **Faults are found at the earliest token.**  Apart from too deep a nesting, the tokens that a
failing parser has taken begin a filter that is accepted.  With the current token they begin no
filter at all, and at the end of the text they are none.  The fault names the current token or the
last one, and its line, and its message shows both; if a group is not closed, the line is the one on
which the innermost open group starts. -/
theorem Expr.parse_earliest_fault {text : String} {line : Nat} {fault : SyntaxFault}
    {near : Option Token} (h : Expr.parse text = .error (.grammar line fault near))
    (hfault : fault ≠ .nestingTooDeep) :
    ∃ p taken, Parser.ofLexer (Lexer.ofString text) = .ok p ∧
      p.parse.1 = .error (.grammar line fault near) ∧
      EarliestFault text line fault near p.parse.2 taken := by
  obtain ⟨lexemes, stop, hyields, -⟩ := (Lexer.ofString text).exists_yields
  rcases Parser.sees_ofLexer hyields with ⟨p, hp, hsees, hdepth, hprevious⟩ | ⟨e, -, -, he⟩
  · rw [Parser.parse_of_ofLexer hp] at h
    have hends := Parser.filter_stops p ⟨hsees, hprevious⟩ (by omega)
    unfold Parser.Outcome.Ends at hends
    rw [h, hdepth] at hends
    obtain ⟨taken, hearliest⟩ := Parser.FailsAt.earliest hends hyields hfault
    exact ⟨p, taken, hp, h, hearliest⟩
  · rw [Expr.parse, he] at h
    cases h

theorem Expr.parse_earliest_fault_group :
    Expr.parse "a,\n((b);c" = .error (.grammar 2 .unclosedGroup (some (.selector "c"))) ∧
      ∃ p taken, Parser.ofLexer (Lexer.ofString "a,\n((b);c") = .ok p ∧
        p.parse.1 = .error (.grammar 2 .unclosedGroup (some (.selector "c"))) ∧
        EarliestFault "a,\n((b);c" 2 .unclosedGroup (some (.selector "c")) p.parse.2 taken := by
  have hparse : Expr.parse "a,\n((b);c" =
      .error (.grammar 2 .unclosedGroup (some (.selector "c"))) := by decide +kernel
  exact ⟨hparse, Expr.parse_earliest_fault hparse (by decide)⟩

end Criteria
