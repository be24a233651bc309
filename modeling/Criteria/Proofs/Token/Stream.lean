import Criteria.Token.Lexer

/-!
# The stream of tokens

What a lexer yields when it is asked again and again: its tokens in order, and then either the
end of the text or the first lexical error.  The relation `Lexer.Yields` says this one call at a
time, so that a reader of tokens can be followed call by call.

**Results.**
* `Lexer.tokens_eq_ok_iff` and `Lexer.tokens_eq_error_iff`: splitting a text at once gives the
  same tokens and the same error.
* `Lexer.Yields.unique`: a lexer yields one stream only.
* `Lexer.answered`: the tokens of any number of calls, whatever errors come between them.
* `Lexer.Yields.line_le`: an error does not stand before the tokens that come first.
-/

namespace Criteria
namespace Lexer

/-- The lexer yields these tokens, and then stops: at the end of the text, or by an error. -/
inductive Yields : Lexer → List Lexeme → Option LexError → Prop
  | done {l l' : Lexer} (h : l.next = (.ok none, l')) : Yields l [] none
  | fails {l l' : Lexer} {e : LexError} (h : l.next = (.error e, l')) : Yields l [] (some e)
  | token {l l' : Lexer} {lexeme : Lexeme} {lexemes : List Lexeme} {stop : Option LexError}
      (h : l.next = (.ok (some lexeme), l')) (rest : Yields l' lexemes stop) :
      Yields l (lexeme :: lexemes) stop

/-- What splitting the whole text answers, given the stream of tokens. -/
def answer (lexemes : List Lexeme) (stop : Option LexError) : Except LexError (List Lexeme) :=
  stop.elim (.ok lexemes) .error

/-- Every lexer yields some stream, and splitting the text answers that stream. -/
theorem exists_yields (l : Lexer) :
    ∃ lexemes stop, l.Yields lexemes stop ∧ l.tokens = answer lexemes stop := by
  fun_induction tokens l with
  | case1 l e l' h => exact ⟨[], some e, .fails h, rfl⟩
  | case2 l l' h => exact ⟨[], none, .done h, rfl⟩
  | case3 l lexeme l' h ih =>
    obtain ⟨lexemes, stop, hy, ht⟩ := ih
    refine ⟨lexeme :: lexemes, stop, .token h hy, ?_⟩
    rw [ht]
    cases stop <;> rfl

theorem Yields.unique {l : Lexer} {lexemes lexemes' : List Lexeme} {stop stop' : Option LexError}
    (h : l.Yields lexemes stop) (h' : l.Yields lexemes' stop') :
    lexemes = lexemes' ∧ stop = stop' := by
  induction h generalizing lexemes' with
  | done h =>
    cases h' with
    | done => exact ⟨rfl, rfl⟩
    | fails h' => rw [h] at h'; cases h'
    | token h' => rw [h] at h'; cases h'
  | fails h =>
    cases h' with
    | done h' => rw [h] at h'; cases h'
    | fails h' => rw [h] at h'; cases h'; exact ⟨rfl, rfl⟩
    | token h' => rw [h] at h'; cases h'
  | token h _ ih =>
    cases h' with
    | done h' => rw [h] at h'; cases h'
    | fails h' => rw [h] at h'; cases h'
    | token h' rest' =>
      rw [h] at h'
      cases h'
      obtain ⟨rfl, rfl⟩ := ih rest'
      exact ⟨rfl, rfl⟩

theorem tokens_eq_ok_iff {l : Lexer} {lexemes : List Lexeme} :
    l.tokens = .ok lexemes ↔ l.Yields lexemes none := by
  obtain ⟨lexemes', stop, hy, ht⟩ := l.exists_yields
  rw [ht]
  constructor
  · intro h
    cases stop with
    | none => cases h; exact hy
    | some e => cases h
  · intro h
    obtain ⟨rfl, rfl⟩ := h.unique hy
    rfl

theorem tokens_eq_error_iff {l : Lexer} {e : LexError} :
    l.tokens = .error e ↔ ∃ lexemes, l.Yields lexemes (some e) := by
  obtain ⟨lexemes', stop, hy, ht⟩ := l.exists_yields
  rw [ht]
  constructor
  · intro h
    cases stop with
    | none => cases h
    | some e' => cases h; exact ⟨lexemes', hy⟩
  · rintro ⟨lexemes, h⟩
    obtain ⟨rfl, rfl⟩ := h.unique hy
    rfl

/-! ### Going on after errors -/

/-- The lexer after `n` calls, whatever they answer. -/
def after : Nat → Lexer → Lexer
  | 0, l => l
  | n + 1, l => l.next.2.after n

/-- The tokens among what the first `n` calls answer. -/
def answered : Nat → Lexer → List Lexeme
  | 0, _ => []
  | n + 1, l =>
      match l.next with
      | (.ok lexeme, l') => lexeme.toList ++ l'.answered n
      | (.error _, l') => l'.answered n

section Call

variable {l l' : Lexer}

theorem after_succ {answer : Except LexError (Option Lexeme)} (h : l.next = (answer, l'))
    (n : Nat) : l.after (n + 1) = l'.after n := by
  rw [after, h]

theorem answered_succ_of_ok {lexeme : Option Lexeme} (h : l.next = (.ok lexeme, l')) (n : Nat) :
    l.answered (n + 1) = lexeme.toList ++ l'.answered n := by
  rw [answered, h]

theorem answered_succ_of_error {e : LexError} (h : l.next = (.error e, l')) (n : Nat) :
    l.answered (n + 1) = l'.answered n := by
  rw [answered, h]

end Call

/-! ### Lines -/

theorem decode_error_line {rule : Token.Rule} {text : List Char} {line : Nat} {e : LexError}
    (h : rule.decode text line = .error e) : e.line = line := by
  cases rule with
  | float =>
    simp only [Token.Rule.decode] at h
    cases hx : Token.Rule.readFloat text with
    | none => rw [hx] at h; cases h; rfl
    | some x => rw [hx] at h; cases h
  | integer =>
    simp only [Token.Rule.decode] at h
    cases hn : Token.Rule.readInteger text with
    | none => rw [hn] at h; cases h; rfl
    | some n => rw [hn] at h; cases h
  | _ => cases h

/-- The lexer never goes back, and what it answers stands where it was or behind. -/
theorem next_line_le (l : Lexer) :
    match l.next with
    | (.ok none, _) => True
    | (.ok (some lexeme), l') => l.line ≤ lexeme.line ∧ lexeme.line ≤ l'.line
    | (.error e, _) => l.line ≤ e.line := by
  fun_induction next l with
  | case1 l =>
    obtain ⟨rest, line⟩ := l
    cases rest with
    | nil => trivial
    | cons c rest => exact Nat.le_refl line
  | case2 l rule n h _ ih =>
    have hskip : l.line ≤ (l.skip n).line := Nat.le_add_right _ _
    split at ih
    · trivial
    · exact ⟨Nat.le_trans hskip ih.1, ih.2⟩
    · exact Nat.le_trans hskip ih
  | case3 l rule n h token => exact ⟨Nat.le_refl _, Nat.le_add_right _ _⟩
  | case4 l rule n h e hdecode => exact Nat.le_of_eq (decode_error_line hdecode).symm

theorem Yields.line_le {l : Lexer} {lexemes : List Lexeme} {e : LexError}
    (h : l.Yields lexemes (some e)) :
    l.line ≤ e.line ∧ ∀ lexeme ∈ lexemes, lexeme.line ≤ e.line := by
  generalize hstop : some e = stop at h
  induction h with
  | done => cases hstop
  | @fails l l' e' h =>
    cases hstop
    have hline := l.next_line_le
    rw [h] at hline
    exact ⟨hline, List.forall_mem_nil _⟩
  | @token l l' lexeme lexemes _ h _ ih =>
    have hline := l.next_line_le
    rw [h] at hline
    obtain ⟨hle, hall⟩ := ih hstop
    have hlexeme : lexeme.line ≤ e.line := Nat.le_trans hline.2 hle
    exact ⟨Nat.le_trans hline.1 hlexeme, List.forall_mem_cons.2 ⟨hlexeme, hall⟩⟩

end Lexer
end Criteria
