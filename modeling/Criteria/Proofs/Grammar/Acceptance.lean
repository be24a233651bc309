import Criteria.Proofs.Grammar.Completeness
import Criteria.Proofs.Grammar.Soundness

/-!
# The parser accepts its grammar

**Results.**
* `Expr.parse_eq_ok_iff`: a text is read as a tree exactly when its tokens have a derivation with
  that tree which is nested no deeper than allowed.
* `Expr.parse_grammar`: the same for a text that has been split into tokens, with what happens
  to all other texts.
-/

namespace Criteria

open Grammar

/-- A text whose tokens have a derivation is read as its tree, unless it is nested too deep. -/
theorem Expr.parse_of_derivation {text : String} {ts : List Lexeme} (d : Disjunction)
    (ht : tokenize text = .ok ts) (hd : d.tokens = ts.map Lexeme.token) :
    if d.nesting ≤ maxNesting then Expr.parse text = .ok d.tree
    else ∃ line near, Expr.parse text = .error (.grammar line .nestingTooDeep near) := by
  rcases Parser.sees_ofLexer (Lexer.tokens_eq_ok_iff.1 ht) with
    ⟨p, hp, hsees, hdepth, _⟩ | ⟨e, _, hstop, _⟩
  · have hends := Parser.filter_completes d hsees hd.symm (by omega)
    rw [hdepth] at hends
    rw [Parser.parse_of_ofLexer hp]
    unfold Parser.Outcome.Ends Parser.Completes at hends
    rw [Nat.zero_add] at hends
    split at hends
    · next hn =>
      rw [if_pos hn]
      exact hends.1
    · next hn =>
      rw [if_neg hn]
      exact hends
  · cases hstop

/-- What the stream of tokens says about the answer of the parser. -/
theorem Expr.parse_traces {text : String} {ts : List Lexeme} {stop : Option LexError}
    (hy : (Lexer.ofString text).Yields ts stop) :
    match Expr.parse text with
    | .ok e => stop = none ∧ ∃ d : Disjunction,
        d.tokens = ts.map Lexeme.token ∧ d.tree = e ∧ d.nesting ≤ maxNesting
    | .error (.lexical e) => stop = some e
    | .error (.grammar _ _ _) => True := by
  rcases Parser.sees_ofLexer hy with ⟨p, hp, hsees, hdepth, _⟩ | ⟨e, _, hstop, he⟩
  · have hends := Parser.filter_traces p hsees (by omega)
    rw [Parser.parse_of_ofLexer hp]
    unfold Parser.Outcome.Ends at hends
    match p.filter.answer, hends with
    | .ok e, ⟨_, used, rest, _, _, htokens, hstop, d, hd, htree, hn⟩ =>
      refine ⟨hstop, d, hd.trans htokens, htree, ?_⟩
      rwa [hdepth, Nat.zero_add] at hn
    | .error (.lexical e), h => exact h
    | .error (.grammar _ _ _), _ => trivial
  · have hparse : Expr.parse text = .error (.lexical e) := by
      rw [Expr.parse, he]
      rfl
    rw [hparse]
    exact hstop

/-- The texts that are read as a tree. -/
theorem Expr.parse_eq_ok_iff {text : String} {e : Expr} :
    Expr.parse text = .ok e ↔ ∃ ts, tokenize text = .ok ts ∧ ∃ d : Disjunction,
      d.tokens = ts.map Lexeme.token ∧ d.tree = e ∧ d.nesting ≤ maxNesting := by
  constructor
  · intro h
    obtain ⟨ts, stop, hy, _⟩ := (Lexer.ofString text).exists_yields
    have htraces := Expr.parse_traces hy
    rw [h] at htraces
    obtain ⟨rfl, hd⟩ := htraces
    exact ⟨ts, Lexer.tokens_eq_ok_iff.2 hy, hd⟩
  · rintro ⟨ts, ht, d, hd, rfl, hn⟩
    have hparse := Expr.parse_of_derivation d ht hd
    rwa [if_pos hn] at hparse

/-- **The parser accepts its grammar.**  Tokens have at most one derivation; the text is read as
its tree if the nesting is at most 256, and a deeper one is the fault that is reported.  Without a
derivation there is a fault of the grammar, and without tokens there is no tree. -/
theorem Expr.parse_grammar (text : String) :
    (∀ ts, tokenize text = .ok ts →
      (∀ d d' : Disjunction, d.tokens = ts.map Lexeme.token →
        d'.tokens = ts.map Lexeme.token → d = d') ∧
      (∀ e, Expr.parse text = .ok e ↔
        ∃ d : Disjunction, d.tokens = ts.map Lexeme.token ∧ d.tree = e ∧ d.nesting ≤ 256) ∧
      (∀ d : Disjunction, d.tokens = ts.map Lexeme.token → 256 < d.nesting →
        ∃ line near, Expr.parse text = .error (.grammar line .nestingTooDeep near)) ∧
      ((¬ ∃ d : Disjunction, d.tokens = ts.map Lexeme.token) →
        ∃ line fault near, Expr.parse text = .error (.grammar line fault near))) ∧
    ∀ e, tokenize text = .error e → ∀ tree, Expr.parse text ≠ .ok tree := by
  refine ⟨fun ts ht => ⟨?_, ?_, ?_, ?_⟩, ?_⟩
  · intro d d' hd hd'
    exact Disjunction.tokens_injective (hd.trans hd'.symm)
  · intro e
    rw [Expr.parse_eq_ok_iff]
    constructor
    · rintro ⟨ts', ht', hd⟩
      obtain rfl : ts = ts' := Except.ok.inj (ht.symm.trans ht')
      exact hd
    · exact fun hd => ⟨ts, ht, hd⟩
  · intro d hd hn
    have hparse := Expr.parse_of_derivation d ht hd
    rwa [if_neg (show ¬ d.nesting ≤ maxNesting from Nat.not_le_of_lt hn)] at hparse
  · intro hnone
    have htraces := Expr.parse_traces (Lexer.tokens_eq_ok_iff.1 ht)
    match h : Expr.parse text with
    | .ok e =>
      rw [h] at htraces
      obtain ⟨_, d, hd, _⟩ := htraces
      exact absurd ⟨d, hd⟩ hnone
    | .error (.lexical e) =>
      rw [h] at htraces
      cases htraces
    | .error (.grammar line fault near) => exact ⟨line, fault, near, rfl⟩
  · intro e he tree hparse
    obtain ⟨ts, ht, _⟩ := Expr.parse_eq_ok_iff.1 hparse
    rw [he] at ht
    cases ht

end Criteria
