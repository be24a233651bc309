import Criteria.Proofs.Grammar.Lookahead
import Criteria.Proofs.Token.Spacing

/-!
# Blanks between tokens make no difference

A text into which blanks are put between its lexemes is read as the same tree, or refused with the
same fault.  Only lines change: each one by the line feeds that are put in before its token.

**Results.**
* `Expr.parse_respaced`: what a text with more blanks is split into, and what is read.
-/

namespace Criteria

open Grammar

/-- The error for a fault among the lexemes of pieces. -/
theorem Grammar.reported_pieces (fault : SyntaxFault) (pieces : List Piece) (n : Nat) :
    reported fault (pieces.map Piece.lexeme) n =
      .grammar (pieces[linePlace fault ((pieces.map Piece.lexeme).map Lexeme.token) n]?.elim 1
          fun piece => piece.lexeme.line) fault
        (((pieces.map Piece.lexeme).map Lexeme.token)[namedPlace pieces.length n]?) := by
  have hline (k : Nat) : (pieces.map Piece.lexeme)[k]?.elim 1 Lexeme.line =
      pieces[k]?.elim 1 fun piece => piece.lexeme.line := by
    rw [List.getElem?_map]
    cases pieces[k]? <;> rfl
  rw [reported, hline, List.length_map, ← List.getElem?_map]

/-- Blanks may be put into all gaps between the pieces of a text, and what stays as it is then: the
cuts and the tokens, and with them the tree or the fault.  A fault names the same token, and the
line that the `k`-th lexeme has then. -/
structure IgnoresBlanks (text : String) (pieces : List Piece) (last : List Char) : Prop where
  spaces : ∀ gaps last', List.Forall₂ (fun piece gap => Wider piece.gap gap) pieces gaps →
    Wider last last' →
    ∃ text' pieces', Respaces pieces last text' pieces' last' ∧ pieces'.map Piece.gap = gaps
  cuts : ∀ text' pieces' last', Respaces pieces last text' pieces' last' →
    (Lexer.ofString text').Cuts pieces' last'
  tokens : ∀ text' pieces' last', Respaces pieces last text' pieces' last' →
    tokenize text' = .ok (pieces'.map Piece.lexeme)
  answers :
    (∃ e, Expr.parse text = .ok e ∧
      ∀ text' pieces' last', Respaces pieces last text' pieces' last' →
        Expr.parse text' = .ok e) ∨
    ∃ line fault near k, Expr.parse text = .error (.grammar line fault near) ∧
      (pieces ≠ [] → k < pieces.length) ∧
      line = (pieces[k]?.elim 1 fun piece => piece.lexeme.line) ∧
      ∀ text' pieces' last', Respaces pieces last text' pieces' last' →
        Expr.parse text' =
          .error (.grammar (pieces'[k]?.elim 1 fun piece => piece.lexeme.line) fault near)

/-- **Blanks between tokens are insignificant.**  The lexer cuts a text that is split into tokens
into pieces.  If blanks are put between them, the new text is cut at the same places into the same
tokens, with lines that grow by the line feeds put in before; and the parser answers the same tree,
or the same fault, with a line that grows in the same way. -/
theorem Expr.parse_respaced {text : String} {lexemes : List Lexeme}
    (h : tokenize text = .ok lexemes) :
    ∃ pieces last, (Lexer.ofString text).Cuts pieces last ∧ pieces.map Piece.lexeme = lexemes ∧
      text.toList = Piece.join pieces last ∧ IgnoresBlanks text pieces last := by
  obtain ⟨pieces, last, hcuts, rfl⟩ := Lexer.tokens_eq_ok_iff_cuts.1 h
  have hwiden (text' : String) (pieces' : List Piece) (last' : List Char)
      (hspaced : Respaces pieces last text' pieces' last') :
      (Lexer.ofString text').Cuts pieces' last' :=
    hcuts.widen hspaced.widens hspaced.toList_eq rfl
  have htokens (text' : String) (pieces' : List Piece) (last' : List Char)
      (hspaced : Respaces pieces last text' pieces' last') :
      tokenize text' = .ok (pieces'.map Piece.lexeme) :=
    Lexer.tokens_eq_ok_iff_cuts.2 ⟨pieces', last', hwiden text' pieces' last' hspaced, rfl⟩
  have hspaces (gaps : List (List Char)) (last' : List Char)
      (hgaps : List.Forall₂ (fun piece gap => Wider piece.gap gap) pieces gaps)
      (hlast : Wider last last') :
      ∃ text' pieces', Respaces pieces last text' pieces' last' ∧ pieces'.map Piece.gap = gaps := by
    obtain ⟨pieces', hwidens, hmap⟩ := exists_widens hgaps hlast 0
    exact ⟨_, pieces', ⟨hwidens, String.toList_ofList⟩, hmap⟩
  refine ⟨pieces, last, hcuts, rfl, hcuts.join_eq, hspaces, hwiden, htokens, ?_⟩
  match hparse : Expr.parse text with
  | .ok e =>
    refine .inl ⟨e, rfl, fun text' pieces' last' hspaced => ?_⟩
    obtain ⟨ts, ht, d, hd, he⟩ := Expr.parse_eq_ok_iff.1 hparse
    obtain rfl : pieces.map Piece.lexeme = ts := Except.ok.inj (h.symm.trans ht)
    refine Expr.parse_eq_ok_iff.2 ⟨_, htokens text' pieces' last' hspaced, d, ?_, he⟩
    rw [hspaced.widens.tokens_eq, hd]
  | .error (.lexical e) =>
    have htraces := Expr.parse_traces hcuts.yields
    rw [hparse] at htraces
    cases htraces
  | .error (.grammar line fault near) =>
    obtain ⟨n, hn, -, hreported, hall⟩ := Expr.exists_reported hcuts.yields hparse
    rw [reported_pieces] at hreported
    obtain ⟨hline, -, hnear⟩ := ParseError.grammar.inj hreported
    refine .inr ⟨line, fault, near, _, rfl, fun hne => ?_, hline, ?_⟩
    · have hlt := @linePlace_lt fault ((pieces.map Piece.lexeme).map Lexeme.token) n
      simp only [List.length_map] at hlt hn
      exact hlt hn (List.length_pos_iff.2 hne)
    · intro text' pieces' last' hspaced
      have hsame := hspaced.widens.tokens_eq
      have hlength : pieces'.length = pieces.length := by
        simpa using congrArg List.length hsame
      have hparse' := hall text' (pieces'.map Piece.lexeme) [] none
        (hwiden text' pieces' last' hspaced).yields (by rw [hsame, List.append_nil])
        fun _ => ⟨rfl, rfl⟩
      rwa [reported_pieces, hsame, hlength, ← hnear] at hparse'

theorem Expr.parse_respaced_group :
    tokenize "a;\n(b" = .ok [⟨.selector "a", 1⟩, ⟨.semicolon, 1⟩, ⟨.leftParen, 2⟩,
        ⟨.selector "b", 2⟩] ∧
      ∃ pieces last, (Lexer.ofString "a;\n(b").Cuts pieces last ∧
        pieces.map Piece.lexeme = [⟨.selector "a", 1⟩, ⟨.semicolon, 1⟩, ⟨.leftParen, 2⟩,
          ⟨.selector "b", 2⟩] ∧
        "a;\n(b".toList = Piece.join pieces last ∧ IgnoresBlanks "a;\n(b" pieces last := by
  have htokens : tokenize "a;\n(b" = .ok [⟨.selector "a", 1⟩, ⟨.semicolon, 1⟩, ⟨.leftParen, 2⟩,
      ⟨.selector "b", 2⟩] := by decide +kernel
  exact ⟨htokens, Expr.parse_respaced htokens⟩

end Criteria
