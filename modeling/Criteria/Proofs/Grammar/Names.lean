import Criteria.Proofs.Grammar.Acceptance
import Criteria.Proofs.Token.Longest
import Mathlib.Data.List.TakeWhile

/-!
# The names in a filter

The selectors of a filter that has been read are names: words over the characters of selectors
that are no number and no boolean.

**Results.**
* `Expr.parse_isName`: every selector of a filter that has been read is a name.
-/

namespace Criteria

/-- A word that stands for a selector wherever a filter holds it. -/
structure Token.IsName (name : String) : Prop where
  ne_nil : name.toList ≠ []
  isSelectorChar : ∀ c ∈ name.toList, Rule.isSelectorChar c = true
  extent_lt : ∀ rule ∈ [Rule.float, Rule.integer, Rule.boolean],
    rule.extent name.toList < name.toList.length

namespace Token
namespace Rule

theorem decode_eq_selector {rule : Rule} {text : List Char} {line : Nat} {name : String}
    (h : rule.decode text line = .ok (some (.selector name))) :
    rule = .selector ∧ name = String.ofList text := by
  cases rule
  case selector =>
    simp only [decode, Except.ok.injEq, Option.some.injEq, Token.selector.injEq] at h
    exact ⟨rfl, h.symm⟩
  case float => simp [decode] at h; cases hx : readFloat text <;> simp [hx] at h
  case integer => simp [decode] at h; cases hx : readInteger text <;> simp [hx] at h
  all_goals simp [decode] at h

/-- The rules that are preferred to the one for selectors. -/
theorem mem_of_all_eq_selector {before after : List Rule}
    (h : all = before ++ .selector :: after) : before = [.float, .integer, .boolean] := by
  rcases before with _ | ⟨a, _ | ⟨b, _ | ⟨c, _ | ⟨d, before⟩⟩⟩⟩ <;> simp_all [all]
  obtain ⟨_, _, _, _, h⟩ := h
  have hmem : Rule.selector ∈ before ++ Rule.selector :: after := by simp
  rw [← h] at hmem
  simp at hmem

theorem isName_of_longest {cs : List Char} {n : Nat} (h : longest cs = some (.selector, n)) :
    IsName (String.ofList (cs.take n)) := by
  obtain ⟨hn, hpos, before, after, hall, hbefore, _⟩ := longest_split h
  rw [mem_of_all_eq_selector hall] at hbefore
  have hle : n ≤ cs.length := hn ▸ extent_le .selector cs
  have hlength : (cs.take n).length = n := List.length_take_of_le hle
  have hrun : cs.take n = cs.takeWhile isSelectorChar := by
    have hprefix := List.prefix_iff_eq_take.1 (List.takeWhile_prefix (l := cs) isSelectorChar)
    rw [hn]
    exact hprefix.symm
  constructor
  · rw [String.toList_ofList]
    intro hnil
    rw [hnil] at hlength
    simp at hlength
    omega
  · rw [String.toList_ofList, hrun]
    exact fun c hc => List.mem_takeWhile_imp hc
  · intro rule hrule
    rw [String.toList_ofList, hlength]
    exact extent_take_lt hrule (hbefore rule hrule)

end Rule
end Token

/-- Every selector that a lexer yields is a name. -/
theorem Lexer.Yields.isName {l : Lexer} {lexemes : List Lexeme} {stop : Option LexError}
    (h : l.Yields lexemes stop) {name : String}
    (hname : .selector name ∈ lexemes.map Lexeme.token) : Token.IsName name := by
  induction h with
  | done => simp at hname
  | fails => simp at hname
  | @token l l' lexeme lexemes stop hnext rest ih =>
    rw [List.map_cons, List.mem_cons] at hname
    rcases hname with hname | hname
    · obtain ⟨start, rule, n, hlongest, hdecode, _, _⟩ := next_eq_token hnext
      rw [← hname] at hdecode
      obtain ⟨rfl, rfl⟩ := Token.Rule.decode_eq_selector hdecode
      exact Token.Rule.isName_of_longest hlongest
    · exact ih hname

namespace Grammar

mutual

/-- The selectors of a tree stand in the tokens that it was derived from. -/
theorem Disjunction.selector_mem : ∀ (d : Disjunction) {c : Constraint},
    c ∈ d.tree.constraints → .selector c.selector ∈ d.tokens
  | .single left, c, h => left.selector_mem h
  | .link left right, c, h => by
      rw [Disjunction.tree, Expr.constraints, List.mem_append] at h
      rw [Disjunction.tokens, List.mem_append, List.mem_cons]
      exact h.imp left.selector_mem fun h => .inr (right.selector_mem h)

theorem Conjunction.selector_mem : ∀ (d : Conjunction) {c : Constraint},
    c ∈ d.tree.constraints → .selector c.selector ∈ d.tokens
  | .single left, c, h => left.selector_mem h
  | .link left right, c, h => by
      rw [Conjunction.tree, Expr.constraints, List.mem_append] at h
      rw [Conjunction.tokens, List.mem_append, List.mem_cons]
      exact h.imp left.selector_mem fun h => .inr (right.selector_mem h)

theorem Phrase.selector_mem : ∀ (d : Phrase) {c : Constraint},
    c ∈ d.tree.constraints → .selector c.selector ∈ d.tokens
  | .group inner, c, h => by
      have := inner.selector_mem h
      simp [Phrase.tokens, this]
  | .presence name, c, h => by
      rw [List.mem_singleton.1 h]
      simp [Phrase.tokens, Constraint.selector]
  | .comparison name op v, c, h => by
      rw [List.mem_singleton.1 h]
      simp [Phrase.tokens, Constraint.selector]

end

end Grammar

/-- Every selector of a filter that has been read is a name. -/
theorem Expr.parse_isName {text : String} {e : Expr} (h : Expr.parse text = .ok e)
    {c : Constraint} (hc : c ∈ e.constraints) : Token.IsName c.selector := by
  obtain ⟨ts, ht, d, hd, rfl, _⟩ := Expr.parse_eq_ok_iff.1 h
  refine (Lexer.tokens_eq_ok_iff.1 ht).isName ?_
  rw [← hd]
  exact d.selector_mem hc

end Criteria
