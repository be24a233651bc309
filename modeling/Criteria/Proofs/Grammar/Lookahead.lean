import Criteria.Proofs.Grammar.Acceptance
import Criteria.Proofs.Grammar.Faults
import Criteria.Proofs.Grammar.Lockstep

/-!
# Reading tokens one by one

The parser asks its lexer for one token at a time.  What it answers is the same as if the text had
been split into tokens first, and a lexical error is answered unless a fault of the grammar comes
before it.

**Results.**
* `Expr.exists_reported`: a fault depends on the tokens up to the one at fault only.
* `Expr.parse_eq_lexical`: an error of the lexer is answered where its text could go on.
* `Expr.parse_lazy`: reading a text in one pass and splitting it first agree.
-/

namespace Criteria
namespace Grammar

/-- The place of the lexeme that is named behind `n` of `length` lexemes: the next one, or the last
one. -/
def namedPlace (length n : Nat) : Nat :=
  if n < length then n else n - 1

/-- The place of the lexeme whose line a fault names behind `n` of the tokens. -/
def linePlace (fault : SyntaxFault) (tokens : List Token) (n : Nat) : Nat :=
  if fault = .unclosedGroup then (innermostGroup (tokens.take n)).getD 0
  else namedPlace tokens.length n

/-- The error for a fault behind `n` of the lexemes. -/
def reported (fault : SyntaxFault) (lexemes : List Lexeme) (n : Nat) : ParseError :=
  .grammar (lexemes[linePlace fault (lexemes.map Lexeme.token) n]?.elim 1 Lexeme.line) fault
    (lexemes[namedPlace lexemes.length n]?.map Lexeme.token)

theorem getElem?_namedPlace (before rest : List Lexeme) :
    (before ++ rest)[namedPlace (before ++ rest).length before.length]? =
      rest.head?.or before.getLast? := by
  cases rest with
  | nil => simp [namedPlace, List.getLast?_eq_getElem?]
  | cons first rest => simp [namedPlace]

theorem Reports.eq_reported {line : Nat} {fault : SyntaxFault} {near : Option Token}
    {before rest : List Lexeme} (h : Reports line fault near before rest) :
    ParseError.grammar line fault near = reported fault (before ++ rest) before.length := by
  rw [reported, getElem?_namedPlace, ← h.near_eq]
  by_cases hfault : fault = .unclosedGroup
  · obtain ⟨outer, opening, inner, rfl, rfl, hgroup, -⟩ := h.line_opening hfault
    have hplace : linePlace fault ((outer ++ opening :: inner ++ rest).map Lexeme.token)
        (outer ++ opening :: inner).length = outer.length := by
      rw [linePlace, if_pos hfault, List.map_append, ← List.length_map Lexeme.token,
        List.take_left, hgroup]
      rfl
    rw [hplace, List.append_assoc, List.getElem?_append_right (Nat.le_refl _)]
    simp
  · rw [linePlace, if_neg hfault, List.length_map, getElem?_namedPlace, ← h.line_eq hfault]

/-- The line that is named is the one of a lexeme, if there is any. -/
theorem linePlace_lt (fault : SyntaxFault) {tokens : List Token} {n : Nat} (hn : n ≤ tokens.length)
    (hpos : 0 < tokens.length) : linePlace fault tokens n < tokens.length := by
  rw [linePlace]
  split
  · cases hgroup : innermostGroup (tokens.take n) with
    | none => exact hpos
    | some k =>
      obtain ⟨hk, -⟩ := List.getElem?_eq_some_iff.1 (getElem?_innermostGroup hgroup)
      rw [List.length_take] at hk
      show k < tokens.length
      omega
  · rw [namedPlace]
    split <;> omega

/-- Lexemes behind the one at fault make no difference. -/
theorem reported_append {fault : SyntaxFault} {lexemes : List Lexeme} {n : Nat}
    (hn : n < lexemes.length) (more : List Lexeme) :
    reported fault (lexemes ++ more) n = reported fault lexemes n := by
  have hnamed {length : Nat} (h : n < length) : namedPlace length n = n := if_pos h
  have hline : linePlace fault ((lexemes ++ more).map Lexeme.token) n =
      linePlace fault (lexemes.map Lexeme.token) n := by
    have hle : n ≤ (lexemes.map Lexeme.token).length := by
      rw [List.length_map]
      exact Nat.le_of_lt hn
    rw [linePlace, linePlace, List.map_append, List.take_append_of_le_length hle,
      hnamed (by simp; omega), hnamed (by simpa using hn)]
  have hlt : linePlace fault (lexemes.map Lexeme.token) n < lexemes.length := by
    rw [← List.length_map Lexeme.token] at hn ⊢
    exact linePlace_lt fault (Nat.le_of_lt hn) (Nat.zero_lt_of_lt hn)
  rw [reported, reported, hline, hnamed (by simp; omega), hnamed hn,
    List.getElem?_append_left hlt, List.getElem?_append_left hn]

end Grammar

open Grammar

/-- A complete filter that fails stops somewhere among the lexemes and reports what stands there. -/
theorem Parser.filter_reported {p : Parser} {lexemes : List Lexeme} {stop : Option LexError}
    {line : Nat} {fault : SyntaxFault} {near : Option Token} (hat : p.At [] lexemes stop)
    (hd : p.depth = 0) (h : p.filter.answer = .error (.grammar line fault near)) :
    ∃ used rest, lexemes = used ++ rest ∧ p.filter.after.Sees rest stop ∧
      ParseError.grammar line fault near = reported fault lexemes used.length := by
  have hends := Parser.filter_stops p hat (by omega)
  unfold Parser.Outcome.Ends at hends
  rw [h] at hends
  obtain ⟨used, rest, rfl, hqat, hreports, -⟩ := hends
  exact ⟨used, rest, rfl, hqat.1, hreports.eq_reported⟩

/-- A fault depends on the tokens up to the one at fault only: every text that begins with the same
tokens has it at the same place. -/
theorem Expr.exists_reported {text : String} {lexemes : List Lexeme} {stop : Option LexError}
    {line : Nat} {fault : SyntaxFault} {near : Option Token}
    (hyields : (Lexer.ofString text).Yields lexemes stop)
    (h : Expr.parse text = .error (.grammar line fault near)) :
    ∃ n ≤ lexemes.length, (n = lexemes.length → stop = none) ∧
      ParseError.grammar line fault near = reported fault lexemes n ∧
      ∀ (text' : String) (lexemes' : List Lexeme) (more : List Token) (stop' : Option LexError),
        (Lexer.ofString text').Yields lexemes' stop' →
        lexemes'.map Lexeme.token = lexemes.map Lexeme.token ++ more →
        (stop = none → more = [] ∧ stop' = none) →
        Expr.parse text' = .error (reported fault lexemes' n) := by
  rcases Parser.sees_ofLexer hyields with ⟨p, hp, hsees, hdepth, hprevious⟩ | ⟨e, -, -, he⟩
  · rw [Parser.parse_of_ofLexer hp] at h
    obtain ⟨used, rest, hl, hrest, hreported⟩ :=
      Parser.filter_reported ⟨hsees, hprevious⟩ hdepth h
    have hlength : lexemes.length = used.length + rest.length := by rw [hl, List.length_append]
    refine ⟨used.length, by omega, fun hend => ?_, hreported, ?_⟩
    · have hnil : rest = [] := List.length_eq_zero_iff.1 (by omega)
      rw [hnil] at hrest
      exact hrest.2
    intro text' lexemes' more stop' hyields' htokens hends
    rcases Parser.sees_ofLexer hyields' with
      ⟨p', hp', hsees', hdepth', hprevious'⟩ | ⟨e', hnil, hstop', -⟩
    · have hstep : Parser.InStep stop more stop' p p' :=
        ⟨hdepth'.trans hdepth.symm, ⟨lexemes, lexemes', hsees, hsees', htokens⟩, hends⟩
      have hagree : Parser.Agree stop more stop' p.filter.answer _ p'.filter.answer _ :=
        Parser.outcome_agree .filter trivial trivial hstep
      rw [h] at hagree
      obtain ⟨⟨line', near', hanswer⟩, -, ⟨left, left', hleft, hleft', hmore⟩, -⟩ := hagree
      obtain ⟨used', rest', hl', hrest', hreported'⟩ :=
        Parser.filter_reported ⟨hsees', hprevious'⟩ hdepth' hanswer
      obtain ⟨rfl, -⟩ := hleft.unique hrest
      obtain ⟨rfl, -⟩ := hleft'.unique hrest'
      -- As many lexemes are left in both, apart from those that only the second text has.
      have hn : used'.length = used.length := by
        have hall := congrArg List.length htokens
        have hbehind := congrArg List.length hmore
        have hlength' : lexemes'.length = used'.length + left'.length := by
          rw [hl', List.length_append]
        simp only [List.length_map, List.length_append] at hall hbehind
        omega
      rw [Parser.parse_of_ofLexer hp', hanswer, hreported', hn]
    · rw [hnil, List.map_nil, eq_comm, List.append_eq_nil_iff, List.map_eq_nil_iff] at htokens
      obtain ⟨rfl, -⟩ := htokens
      rw [(hends hsees.2).2] at hstop'
      cases hstop'
  · rw [Expr.parse, he] at h
    cases h

/-- A lexical error is answered where the tokens before it begin a text that is read. -/
theorem Expr.parse_eq_lexical {text text' : String} {lexemes lexemes' : List Lexeme}
    {more : List Token} {e : LexError} {tree : Expr}
    (hyields : (Lexer.ofString text).Yields lexemes (some e))
    (ht : tokenize text' = .ok lexemes') (h' : Expr.parse text' = .ok tree)
    (htokens : lexemes'.map Lexeme.token = lexemes.map Lexeme.token ++ more) :
    Expr.parse text = .error (.lexical e) := by
  have htraces := Expr.parse_traces hyields
  match hparse : Expr.parse text with
  | .ok _ =>
    rw [hparse] at htraces
    cases htraces.1
  | .error (.lexical e') =>
    rw [hparse] at htraces
    obtain rfl : e = e' := Option.some.inj htraces
    rfl
  | .error (.grammar line fault near) =>
    obtain ⟨n, -, -, -, hall⟩ := Expr.exists_reported hyields hparse
    have hfault := hall text' lexemes' more none (Lexer.tokens_eq_ok_iff.1 ht) htokens nofun
    rw [h'] at hfault
    cases hfault

/-- The line that is reported does not come behind a lexical error that stops the lexemes. -/
theorem Grammar.reported_line_le {text : String} {lexemes : List Lexeme} {e : LexError}
    (hyields : (Lexer.ofString text).Yields lexemes (some e)) (fault : SyntaxFault) (n : Nat) :
    (reported fault lexemes n).line ≤ e.line := by
  obtain ⟨hle, hall⟩ := hyields.line_le
  show lexemes[_]?.elim 1 Lexeme.line ≤ e.line
  cases hlexeme : lexemes[linePlace fault (lexemes.map Lexeme.token) n]? with
  | none => exact hle
  | some lexeme => exact hall lexeme (List.mem_of_getElem? hlexeme)

/-- **Reading the tokens one by one is splitting the text first.**  A text that is read can be split
into tokens, and a lexical error is the one of the splitting.  What is answered depends only on the
tokens and their lines.  If the splitting fails, so does the parser: with the same error, or with a
fault of the grammar that stands no later and that all texts with these first tokens share. -/
theorem Expr.parse_lazy (text : String) :
    (∀ e, Expr.parse text = .ok e → ∃ lexemes, tokenize text = .ok lexemes) ∧
    (∀ e, Expr.parse text = .error (.lexical e) → tokenize text = .error e) ∧
    (∀ text' lexemes, tokenize text = .ok lexemes → tokenize text' = .ok lexemes →
      Expr.parse text' = Expr.parse text) ∧
    (∀ e, tokenize text = .error e → ∃ lexemes, (Lexer.ofString text).Yields lexemes (some e) ∧
      (Expr.parse text = .error (.lexical e) ∨
        ∃ line fault near, Expr.parse text = .error (.grammar line fault near) ∧ line ≤ e.line ∧
          ∀ text' more stop, (Lexer.ofString text').Yields (lexemes ++ more) stop →
            Expr.parse text' = .error (.grammar line fault near))) := by
  refine ⟨fun e h => ?_, fun e h => ?_, fun text' lexemes h h' => ?_, fun e h => ?_⟩
  · obtain ⟨lexemes, ht, -⟩ := Expr.parse_eq_ok_iff.1 h
    exact ⟨lexemes, ht⟩
  · obtain ⟨lexemes, stop, hyields, -⟩ := (Lexer.ofString text).exists_yields
    have htraces := Expr.parse_traces hyields
    rw [h] at htraces
    obtain rfl : stop = some e := htraces
    exact Lexer.tokens_eq_error_iff.2 ⟨lexemes, hyields⟩
  · have hyields := Lexer.tokens_eq_ok_iff.1 h
    match hparse : Expr.parse text with
    | .ok e =>
      obtain ⟨lexemes', ht, hd⟩ := Expr.parse_eq_ok_iff.1 hparse
      obtain rfl : lexemes = lexemes' := Except.ok.inj (h.symm.trans ht)
      exact Expr.parse_eq_ok_iff.2 ⟨lexemes, h', hd⟩
    | .error (.lexical e) =>
      have htraces := Expr.parse_traces hyields
      rw [hparse] at htraces
      cases htraces
    | .error (.grammar line fault near) =>
      obtain ⟨n, -, -, hreported, hall⟩ := Expr.exists_reported hyields hparse
      rw [hreported]
      exact hall text' lexemes [] none (Lexer.tokens_eq_ok_iff.1 h') (List.append_nil _).symm
        fun _ => ⟨rfl, rfl⟩
  · obtain ⟨lexemes, hyields⟩ := Lexer.tokens_eq_error_iff.1 h
    refine ⟨lexemes, hyields, ?_⟩
    have htraces := Expr.parse_traces hyields
    match hparse : Expr.parse text with
    | .ok tree =>
      rw [hparse] at htraces
      cases htraces.1
    | .error (.lexical e') =>
      rw [hparse] at htraces
      obtain rfl : e = e' := Option.some.inj htraces
      exact .inl rfl
    | .error (.grammar line fault near) =>
      obtain ⟨n, hn, hend, hreported, hall⟩ := Expr.exists_reported hyields hparse
      have hlt : n < lexemes.length := by
        refine Nat.lt_of_le_of_ne hn fun heq => ?_
        cases hend heq
      refine .inr ⟨line, fault, near, rfl, ?_, fun text' more stop hyields' => ?_⟩
      · have hline := reported_line_le hyields fault n
        rwa [← hreported] at hline
      · rw [hreported, ← reported_append hlt more]
        exact hall text' (lexemes ++ more) (more.map Lexeme.token) stop hyields' List.map_append
          nofun

end Criteria
