import Criteria.Proofs.Grammar.Acceptance
import Criteria.Proofs.Token.Spelling

/-!
# The texts of a derivation

A text has a derivation if its tokens have.  What a text derives is a matter of its lexemes, so
texts can be put together piece by piece: a text in parentheses derives a group, and two of them
with a combinator between derive a chain.

**Results.**
* `Expr.parse_eq_ok_iff_derives`: a text is read as a tree exactly if it has a derivation of that
  tree that is not nested too deep.
* `Grammar.Derives.group`, `Grammar.Derives.both` and `Grammar.Derives.either`: derivations of
  texts that are put together.
-/

namespace Criteria
namespace Grammar

/-- The tokens of the text have the derivation. -/
def Derives (text : String) (d : Disjunction) : Prop :=
  ∃ ts, tokenize text = .ok ts ∧ d.tokens = ts.map Lexeme.token

/-- A group by itself. -/
def Disjunction.group (d : Disjunction) : Disjunction :=
  .single (.single (.group d))

/-- A conjunction of two groups. -/
def Disjunction.both (d d' : Disjunction) : Disjunction :=
  .single (.link (.group d) (.single (.group d')))

/-- A disjunction of two groups. -/
def Disjunction.either (d d' : Disjunction) : Disjunction :=
  .link (.single (.group d)) d'.group

section

variable {f g text : String} {d d' : Disjunction}

theorem derives_iff_writes : Derives text d ↔ Token.Writes text.toList d.tokens := by
  rw [← exists_tokenize_iff]
  exact exists_congr fun ts => and_congr_right fun _ => eq_comm

theorem Derives.unique (h : Derives text d) (h' : Derives text d') : d = d' := by
  obtain ⟨ts, ht, hd⟩ := h
  obtain ⟨ts', ht', hd'⟩ := h'
  obtain rfl : ts = ts' := Except.ok.inj (ht.symm.trans ht')
  exact Disjunction.tokens_injective (hd.trans hd'.symm)

/-- A text in parentheses, with another text behind. -/
theorem writes_parentheses {cs ds : List Char} {tokens tokens' : List Token}
    (h : Token.Writes cs tokens) (h' : Token.Writes ds tokens') :
    Token.Writes ('(' :: (cs ++ ')' :: ds)) (.leftParen :: (tokens ++ .rightParen :: tokens')) := by
  have hclose := h'.cons_reserved .rightParen (by decide)
  have hstop : Token.StopsRun (')' :: ds) := by
    rintro c ⟨⟩
    decide
  exact (h.append hclose hstop).cons_reserved .leftParen (by decide)

/-- A text in parentheses derives a group. -/
theorem Derives.group (h : Derives f d) : Derives ("(" ++ f ++ ")") d.group := by
  rw [derives_iff_writes] at h ⊢
  have hend : Token.Writes [] [] := .blanks (List.forall_mem_nil _)
  simpa [Disjunction.group, Disjunction.tokens, Conjunction.tokens, Phrase.tokens] using
    writes_parentheses h hend

theorem Derives.both (h : Derives f d) (h' : Derives g d') :
    Derives ("(" ++ f ++ ");(" ++ g ++ ")") (d.both d') := by
  have hright := derives_iff_writes.1 h'.group
  rw [derives_iff_writes] at h ⊢
  have hlink := hright.cons_reserved .semicolon (by decide)
  simpa [Disjunction.both, Disjunction.group, Disjunction.tokens, Conjunction.tokens,
    Phrase.tokens] using writes_parentheses h hlink

theorem Derives.either (h : Derives f d) (h' : Derives g d') :
    Derives ("(" ++ f ++ "),(" ++ g ++ ")") (d.either d') := by
  have hright := derives_iff_writes.1 h'.group
  rw [derives_iff_writes] at h ⊢
  have hlink := hright.cons_reserved .comma (by decide)
  simpa [Disjunction.either, Disjunction.group, Disjunction.tokens, Conjunction.tokens,
    Phrase.tokens] using writes_parentheses h hlink

end

/-- A text that has a derivation is read as its tree, unless it is nested too deep. -/
theorem Derives.parse {text : String} {d : Disjunction} (h : Derives text d) :
    if d.nesting ≤ maxNesting then Expr.parse text = .ok d.tree
    else ∃ line near, Expr.parse text = .error (.grammar line .nestingTooDeep near) := by
  obtain ⟨ts, ht, hd⟩ := h
  exact Expr.parse_of_derivation d ht hd

end Grammar

open Grammar

/-- The texts that are read as a tree, by their derivations. -/
theorem Expr.parse_eq_ok_iff_derives {text : String} {e : Expr} :
    Expr.parse text = .ok e ↔
      ∃ d : Disjunction, Derives text d ∧ d.tree = e ∧ d.nesting ≤ maxNesting := by
  rw [Expr.parse_eq_ok_iff]
  constructor
  · rintro ⟨ts, ht, d, hd, he⟩
    exact ⟨d, ⟨ts, ht, hd⟩, he⟩
  · rintro ⟨d, ⟨ts, ht, hd⟩, he⟩
    exact ⟨ts, ht, d, hd, he⟩

end Criteria
