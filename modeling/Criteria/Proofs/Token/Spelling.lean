import Criteria.Proofs.Token.OnePass
import Criteria.Proofs.Token.Stream

/-!
# Texts as rows of lexemes

Which texts write a given sequence of tokens: the lexemes that spell the tokens one by one, with
blanks before, between and behind them as one likes.  Only behind a run of plain characters
something has to stand that does not continue it.

**Results.**
* `Token.Spells.read` and `Token.begins_of_read`: the scanner reads a token exactly where a
  lexeme for it stands.
* `Token.Writes.append`: two texts one behind the other write both sequences.
* `exists_tokenize_iff`: a text is split into tokens exactly if it writes them.
-/

namespace Criteria
namespace Token

/-- The characters are a lexeme for the token. -/
inductive Spells : List Char → Token → Prop
  | leftParen : Spells ['('] .leftParen
  | rightParen : Spells [')'] .rightParen
  | comma : Spells [','] .comma
  | semicolon : Spells [';'] .semicolon
  | notEqual : Spells ['!', '='] .notEqual
  | equal : Spells ['=', '='] .equal
  | comparison {tag : List Char} (h : IsTag tag) :
      Spells ('=' :: (tag ++ ['='])) (.comparison (String.ofList tag))
  | quoted {quote : Char} {body : List Char} (hquote : quote = '"' ∨ quote = '\'')
      (h : IsContent quote body) :
      Spells (quote :: (body ++ [quote]))
        (.text (String.ofList (Text.Quoted.unescape quote body)))
  | run {w : List Char} {token : Token} {line : Nat} (h : IsBare w)
      (hclass : classify w line = .ok token) : Spells w token

/-- The text is a row of lexemes for the tokens, with blanks around them. -/
inductive Writes : List Char → List Token → Prop
  | blanks {cs : List Char} (h : ∀ c ∈ cs, Text.isBlank c = true) : Writes cs []
  | lexeme {blanks w rest : List Char} {token : Token} {tokens : List Token}
      (hblanks : ∀ c ∈ blanks, Text.isBlank c = true) (hw : Spells w token)
      (hstop : IsBare w → StopsRun rest) (h : Writes rest tokens) :
      Writes (blanks ++ (w ++ rest)) (token :: tokens)

/-! ### One lexeme -/

section Spells

variable {w rest : List Char} {token : Token}

/-- The line makes a difference for errors only. -/
theorem classify_line {line : Nat} (h : classify w line = .ok token) (line' : Nat) :
    classify w line' = .ok token := by
  unfold classify at h ⊢
  split_ifs at h ⊢
  · cases hx : Rule.readFloat w with
    | none => rw [hx] at h; cases h
    | some x => rw [hx] at h; exact h
  · cases hn : Rule.readInteger w with
    | none => rw [hn] at h; cases h
    | some n => rw [hn] at h; exact h
  · exact h
  · exact h
  · exact h

theorem Spells.exists_cons (h : Spells w token) :
    ∃ c tail, w = c :: tail ∧ Text.isBlank c = false := by
  cases h with
  | quoted hquote =>
    refine ⟨_, _, rfl, ?_⟩
    rcases hquote with rfl | rfl <;> decide
  | run hrun =>
    obtain ⟨c, tail, rfl⟩ := List.exists_cons_of_ne_nil hrun.1
    exact ⟨c, tail, rfl, Rule.isBlank_of_isBareChar (hrun.2 c List.mem_cons_self)⟩
  | _ => exact ⟨_, _, rfl, by decide⟩

/-- Blanks before a lexeme end where it starts. -/
theorem Spells.takeWhile_isBlank {blanks : List Char} (h : Spells w token)
    (hblanks : ∀ c ∈ blanks, Text.isBlank c = true) :
    (blanks ++ (w ++ rest)).takeWhile Text.isBlank = blanks := by
  obtain ⟨c, tail, rfl, hc⟩ := h.exists_cons
  exact takeWhile_append_stop hblanks (by rintro d ⟨⟩; exact hc)

/-- A lexeme is read, whatever stands behind it. -/
theorem Spells.read (h : Spells w token) (hstop : IsBare w → StopsRun rest) (line : Nat) :
    Token.read line (w ++ rest) = some (.ok token, w.length) := by
  cases h with
  | @comparison tag htag =>
    have hequals : Rule.isTagChar '=' = false := by decide
    have htake : (tag ++ '=' :: rest).takeWhile Rule.isTagChar = tag :=
      takeWhile_append_stop htag.2 (by rintro c ⟨⟩; exact hequals)
    have hhead : (tag ++ '=' :: rest).head? ≠ some '=' := by
      obtain ⟨c, tail, rfl⟩ := List.exists_cons_of_ne_nil htag.1
      rintro ⟨⟩
      exact absurd (htag.2 '=' List.mem_cons_self) (by decide)
    have hoperator : readOperator (tag ++ '=' :: rest) =
        some (.comparison (String.ofList tag), tag.length + 2) := by
      rw [readOperator, if_neg hhead, htake, List.drop_left]
      exact if_pos ⟨htag.1, rfl⟩
    simp [Token.read, hoperator]
  | @quoted quote body hquote hbody =>
    have hslash := ne_slash_of_quote hquote
    have hcontent : content quote false (body ++ quote :: rest) = some body :=
      (content_eq_some_iff hslash).2 ⟨hbody, rest, rfl⟩
    rcases hquote with rfl | rfl <;> simp [Token.read, hcontent]
  | @run _ _ line' hrun hclass =>
    rw [read_run hrun (hstop hrun), classify_line hclass]
  | _ => rfl

theorem readOperator_eq_some {n : Nat} (h : readOperator rest = some (token, n)) :
    (∃ tail, rest = '=' :: tail ∧ token = .equal ∧ n = 2) ∨
      ∃ tag tail, IsTag tag ∧ rest = tag ++ '=' :: tail ∧
        token = .comparison (String.ofList tag) ∧ n = tag.length + 2 := by
  simp only [readOperator] at h
  split at h
  · next hequal =>
    cases h
    obtain ⟨tail, rfl⟩ := List.head?_eq_some_iff.1 hequal
    exact .inl ⟨tail, rfl, rfl, rfl⟩
  · split at h
    · next hclose =>
      cases h
      obtain ⟨tail, htail⟩ := List.head?_eq_some_iff.1 hclose.2
      refine .inr ⟨_, tail, ⟨hclose.1, fun c hc => List.mem_takeWhile_imp hc⟩, ?_, rfl, rfl⟩
      rw [← htail, drop_length_takeWhile, List.takeWhile_append_dropWhile]
    · cases h

/-- The text begins with a lexeme of `n` characters for the token. -/
def Begins (cs : List Char) (token : Token) (n : Nat) : Prop :=
  ∃ w rest, cs = w ++ rest ∧ w.length = n ∧ Spells w token ∧ (IsBare w → StopsRun rest)

/-- A lexeme that is no run may stand before anything. -/
theorem begins_of_reserved {c : Char} (hc : Rule.isBareChar c = false)
    (h : Spells (c :: w) token) (rest : List Char) :
    Begins (c :: (w ++ rest)) token (w.length + 1) :=
  ⟨c :: w, rest, rfl, rfl, h, fun hplain => absurd hplain (Rule.not_isBare_cons hc w)⟩

/-- The text begins with the whole run of its plain characters. -/
theorem begins_of_bare {c : Char} {line n : Nat} (hc : Rule.isBareChar c = true)
    (h : Token.read line (c :: rest) = some (.ok token, n)) : Begins (c :: rest) token n := by
  obtain ⟨run, tail, hsplit, hplain, hstop⟩ := exists_run hc rest
  rw [hsplit, read_run hplain hstop, Option.some.injEq, Prod.mk.injEq] at h
  exact ⟨run, tail, hsplit, h.2, .run hplain h.1, fun _ => hstop⟩

theorem begins_quoted {quote : Char} {n : Nat} (hquote : quote = '"' ∨ quote = '\'')
    (h : (content quote false rest).map (fun body => ((.ok (.text (String.ofList
      (Text.Quoted.unescape quote body))) : Except LexError Token), body.length + 2)) =
        some (.ok token, n)) :
    Begins (quote :: rest) token n := by
  have hslash := ne_slash_of_quote hquote
  have hreserved : Rule.isBareChar quote = false := by rcases hquote with rfl | rfl <;> decide
  obtain ⟨body, hbody, heq⟩ := Option.map_eq_some_iff.1 h
  obtain ⟨hcontent, tail, rfl⟩ := (content_eq_some_iff hslash).1 hbody
  cases heq
  simpa using begins_of_reserved hreserved (.quoted hquote hcontent) tail

theorem begins_equality {n : Nat}
    (h : (readOperator rest).map (fun (t, m) => ((.ok t : Except LexError Token), m)) =
      some (.ok token, n)) :
    Begins ('=' :: rest) token n := by
  obtain ⟨⟨t, m⟩, hoperator, heq⟩ := Option.map_eq_some_iff.1 h
  cases heq
  rcases readOperator_eq_some hoperator with
    ⟨tail, rfl, rfl, rfl⟩ | ⟨tag, tail, htag, rfl, rfl, rfl⟩
  · exact begins_of_reserved (by decide) .equal tail
  · simpa using begins_of_reserved (by decide) (.comparison htag) tail

/-- What is read is a lexeme: the first character is plain, or one of those reserved. -/
theorem begins_of_read {line n : Nat} {c : Char} (hc : Text.isBlank c = false)
    (h : Token.read line (c :: rest) = some (.ok token, n)) : Begins (c :: rest) token n := by
  by_cases hbare : Rule.isBareChar c = true
  · exact begins_of_bare hbare h
  · rcases reserved_cases hc hbare with rfl | rfl | rfl | rfl | rfl | rfl | rfl | rfl
    · exact begins_quoted (.inl rfl) h
    · exact begins_quoted (.inr rfl) h
    · cases h; exact begins_of_reserved (by decide) .semicolon rest
    · cases h; exact begins_of_reserved (by decide) .comma rest
    · exact begins_equality h
    · simp only [Token.read] at h
      split at h
      · next hequal =>
        cases h
        obtain ⟨tail, rfl⟩ := List.head?_eq_some_iff.1 hequal
        exact begins_of_reserved (by decide) .notEqual tail
      · cases h
    · cases h; exact begins_of_reserved (by decide) .leftParen rest
    · cases h; exact begins_of_reserved (by decide) .rightParen rest

end Spells

/-! ### A row of lexemes -/

namespace Writes

variable {cs ds blanks : List Char} {tokens : List Token}

/-- Blanks may come first. -/
theorem cons_blanks (h : Writes cs tokens) (hblanks : ∀ c ∈ blanks, Text.isBlank c = true) :
    Writes (blanks ++ cs) tokens := by
  cases h with
  | blanks hcs => exact .blanks fun c hc => (List.mem_append.1 hc).elim (hblanks c) (hcs c)
  | @lexeme blanks' w rest _ _ hblanks' hw hstop h =>
    rw [← List.append_assoc]
    exact .lexeme (fun c hc => (List.mem_append.1 hc).elim (hblanks c) (hblanks' c)) hw hstop h

/-- A lexeme that is no run may come first. -/
theorem cons_reserved {c : Char} {w : List Char} {token : Token} (h : Writes cs tokens)
    (hw : Spells (c :: w) token) (hc : Rule.isBareChar c = false) :
    Writes (c :: w ++ cs) (token :: tokens) := by
  show Writes ([] ++ (c :: w ++ cs)) (token :: tokens)
  refine .lexeme (List.forall_mem_nil _) hw (fun hplain => ?_) h
  exact absurd hplain (Rule.not_isBare_cons hc w)

/-- Two texts one behind the other write both sequences of tokens, unless a run would go on. -/
theorem append {tokens' : List Token} (h : Writes cs tokens) (h' : Writes ds tokens')
    (hds : StopsRun ds) : Writes (cs ++ ds) (tokens ++ tokens') := by
  induction h with
  | blanks hblanks => exact h'.cons_blanks hblanks
  | @lexeme blanks w rest token tokens hblanks hw hstop _ ih =>
    rw [List.append_assoc, List.append_assoc, List.cons_append]
    refine .lexeme hblanks hw (fun hplain c hc => ?_) ih
    cases rest with
    | nil => exact hds c hc
    | cons d rest => exact hstop hplain c hc

end Writes
end Token

/-! ### The lexer on a row of lexemes -/

namespace Lexer

open Token

variable {l l' : Lexer}

theorem next_eq_none_of_blanks (h : ∀ c ∈ l.rest, Text.isBlank c = true) :
    l.next = (.ok none, l.behindBlanks) := by
  have hrest : l.behindBlanks.rest = [] := by
    rw [behindBlanks_rest, List.dropWhile_eq_nil_iff]
    exact h
  simp only [next_eq_scan, scan, scanHere, hrest]

/-- At the end of a text nothing is yielded. -/
theorem yields_nil (line : Nat) : (⟨[], line⟩ : Lexer).Yields [] none :=
  .done (next_eq_none_of_blanks (List.forall_mem_nil _))

theorem blanks_of_next_eq_none (h : l.next = (.ok none, l')) :
    ∀ c ∈ l.rest, Text.isBlank c = true := by
  rw [← List.dropWhile_eq_nil_iff, ← behindBlanks_rest]
  rw [next_eq_scan, scan] at h
  cases hrest : l.behindBlanks.rest with
  | nil => rfl
  | cons c rest =>
    cases hread : Token.read l.behindBlanks.line (c :: rest) with
    | none =>
      rw [scanHere_of_none hrest hread] at h
      cases h
    | some found =>
      obtain ⟨answer, n⟩ := found
      rw [scanHere_of_some hrest hread] at h
      cases answer <;> cases congrArg Prod.fst h

/-- Behind blanks the lexer takes what is read there, and counts the line feeds in both. -/
theorem next_of_read {blanks w rest : List Char} {answer : Except LexError Token}
    (hrest : l.rest = blanks ++ (w ++ rest)) (hblanks : ∀ c ∈ blanks, Text.isBlank c = true)
    (hw : ∃ c tail, w = c :: tail ∧ Text.isBlank c = false)
    (hread : Token.read (l.line + blanks.count '\n') (w ++ rest) = some (answer, w.length)) :
    l.next = (answer.map fun token => some ⟨token, l.line + blanks.count '\n'⟩,
      ⟨rest, l.line + (blanks ++ w).count '\n'⟩) := by
  obtain ⟨c, tail, rfl, hc⟩ := hw
  have htake : l.rest.takeWhile Text.isBlank = blanks := by
    rw [hrest]
    exact takeWhile_append_stop hblanks (by rintro d ⟨⟩; exact hc)
  have hbehind : l.behindBlanks = ⟨c :: tail ++ rest, l.line + blanks.count '\n'⟩ := by
    rw [behindBlanks, htake, skip, hrest, List.drop_left, List.take_left]
  rw [next_eq_scan, scan, hbehind, scanHere_of_some rfl hread, skip, List.count_append,
    ← Nat.add_assoc, List.drop_left, List.take_left]

/-- The lexer takes the lexeme behind the blanks. -/
theorem next_of_spells {blanks w rest : List Char} {token : Token}
    (hrest : l.rest = blanks ++ (w ++ rest)) (hblanks : ∀ c ∈ blanks, Text.isBlank c = true)
    (hw : Spells w token) (hstop : IsBare w → StopsRun rest) :
    l.next = (.ok (some ⟨token, l.line + blanks.count '\n'⟩),
      ⟨rest, l.line + (blanks ++ w).count '\n'⟩) :=
  next_of_read hrest hblanks hw.exists_cons (hw.read hstop _)

/-- A text that is one lexeme has one token. -/
theorem tokens_of_spells {w : List Char} {token : Token} (hw : Spells w token) (line : Nat) :
    (⟨w, line⟩ : Lexer).tokens = .ok [⟨token, line⟩] := by
  have hrest : (⟨w, line⟩ : Lexer).rest = [] ++ (w ++ []) := (List.append_nil w).symm
  have hnext := next_of_spells hrest (List.forall_mem_nil _) hw fun _ => by rintro c ⟨⟩
  exact tokens_eq_ok_iff.2 (.token hnext (yields_nil _))

theorem exists_spells_of_next {lexeme : Lexeme} (h : l.next = (.ok (some lexeme), l')) :
    ∃ blanks w, l.rest = blanks ++ (w ++ l'.rest) ∧ (∀ c ∈ blanks, Text.isBlank c = true) ∧
      Spells w lexeme.token ∧ (IsBare w → StopsRun l'.rest) := by
  have hsplit := List.takeWhile_append_dropWhile (p := Text.isBlank) (l := l.rest)
  rw [← behindBlanks_rest] at hsplit
  rw [next_eq_scan, scan] at h
  cases hrest : l.behindBlanks.rest with
  | nil => simp [scanHere, hrest] at h
  | cons c rest =>
    have hc : Text.isBlank c = false := by
      rw [behindBlanks_rest] at hrest
      exact head?_dropWhile_eq (by rw [hrest]; rfl)
    cases hread : Token.read l.behindBlanks.line (c :: rest) with
    | none =>
      rw [scanHere_of_none hrest hread] at h
      cases h
    | some found =>
      obtain ⟨answer, n⟩ := found
      rw [scanHere_of_some hrest hread] at h
      cases answer with
      | error e => cases h
      | ok token =>
        cases h
        obtain ⟨w, rest', heq, rfl, hw, hstop⟩ := begins_of_read hc hread
        have hskip : (l.behindBlanks.skip w.length).rest = rest' := by
          rw [skip, hrest, heq, List.drop_left]
        rw [hskip]
        rw [hrest, heq] at hsplit
        exact ⟨_, w, hsplit.symm, fun d hd => List.mem_takeWhile_imp hd, hw, hstop⟩

theorem Yields.writes {lexemes : List Lexeme} (h : l.Yields lexemes none) :
    Writes l.rest (lexemes.map Lexeme.token) := by
  generalize hstop : (none : Option LexError) = stop at h
  induction h with
  | done h => exact .blanks (blanks_of_next_eq_none h)
  | fails => cases hstop
  | token h _ ih =>
    obtain ⟨blanks, w, hrest, hblanks, hw, hstops⟩ := exists_spells_of_next h
    rw [hrest, List.map_cons]
    exact .lexeme hblanks hw hstops (ih hstop)

theorem exists_yields_of_writes {cs : List Char} {tokens : List Token} (h : Writes cs tokens)
    (hrest : l.rest = cs) :
    ∃ lexemes, l.Yields lexemes none ∧ lexemes.map Lexeme.token = tokens := by
  induction h generalizing l with
  | blanks hblanks =>
    subst hrest
    exact ⟨[], .done (next_eq_none_of_blanks hblanks), rfl⟩
  | lexeme hblanks hw hstop _ ih =>
    have hnext := next_of_spells hrest hblanks hw hstop
    obtain ⟨lexemes, hyields, rfl⟩ := ih (l := ⟨_, _⟩) rfl
    exact ⟨_, .token hnext hyields, rfl⟩

end Lexer

/-- A text is split into tokens exactly if it writes them. -/
theorem exists_tokenize_iff {text : String} {tokens : List Token} :
    (∃ lexemes, tokenize text = .ok lexemes ∧ lexemes.map Lexeme.token = tokens) ↔
      Token.Writes text.toList tokens := by
  constructor
  · rintro ⟨lexemes, ht, rfl⟩
    exact (Lexer.tokens_eq_ok_iff.1 ht).writes
  · intro h
    obtain ⟨lexemes, hyields, htokens⟩ :=
      Lexer.exists_yields_of_writes (l := Lexer.ofString text) h rfl
    exact ⟨lexemes, Lexer.tokens_eq_ok_iff.2 hyields, htokens⟩

end Criteria
