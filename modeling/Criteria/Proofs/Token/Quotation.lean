import Criteria.Proofs.Token.Writable

/-!
# Quotations

The written form of a text between two quotes: a backslash is put before each quote inside, and
nothing else changes.  Not every text survives this.  Where an odd run of backslashes stands before
a quote, or at the end, the written form is read in another way; on all other texts writing and
reading undo each other.

**Results.**
* `Text.Quoted.unescape_escape` and `Token.IsContent.escape_unescape`: escaping and unescaping undo
  each other.
* `Token.isContent_escape_iff`: which escaped texts may stand between quotes.
* `Token.isLiteral_iff`: the literals are the written forms of the quotable texts.
* `Lexer.next_literal`: the lexer takes a literal, whatever stands behind it.
* `Token.quotation_one_to_one`: literals and quotable texts correspond one to one.
-/

namespace Criteria

namespace Text
namespace Quoted

/-- Puts a backslash before each quote. -/
def escape (quote : Char) (t : List Char) : List Char :=
  t.flatMap fun c => if c = quote then ['\\', c] else [c]

/-- The text in quotes. -/
def encode (quote : Char) (t : List Char) : List Char :=
  quote :: (escape quote t ++ [quote])

section Escape

variable {quote c : Char} {t : List Char}

@[simp] theorem escape_nil : escape quote [] = [] := rfl

@[simp] theorem escape_quote : escape quote (quote :: t) = '\\' :: quote :: escape quote t := by
  simp [escape]

theorem escape_cons (hc : c ≠ quote) : escape quote (c :: t) = c :: escape quote t := by
  simp [escape, hc]

/-- An escaped text does not start with the quote. -/
theorem head?_escape (hquote : quote ≠ '\\') : (escape quote t).head? ≠ some quote := by
  cases t with
  | nil => simp
  | cons c t =>
    by_cases hc : c = quote
    · simpa [hc] using hquote.symm
    · simpa [escape_cons hc] using hc

/-- Unescaping takes away the backslashes that escaping has put in, and no others. -/
theorem unescape_escape (hquote : quote ≠ '\\') (t : List Char) :
    unescape quote (escape quote t) = t := by
  induction t with
  | nil => rfl
  | cons c t ih =>
    by_cases hc : c = quote
    · subst hc
      rw [escape_quote, unescape, if_pos rfl, ih]
    · rw [escape_cons hc]
      by_cases hslash : c = '\\'
      · subst hslash
        rw [Token.unescape_slash (head?_escape hquote), ih]
      · rw [Token.unescape_cons hslash, ih]

end Escape

end Quoted
end Text

namespace Token

variable {quote : Char} {t body w : List Char}

/-- Where a text may stand between quotes, escaping puts back what unescaping takes away: there a
quote always has its backslash. -/
theorem IsContent.escape_unescape (hquote : quote ≠ '\\') (h : IsContent quote body) :
    Text.Quoted.escape quote (Text.Quoted.unescape quote body) = body := by
  induction h with
  | nil => rfl
  | plain hc hslash _ ih => rw [unescape_cons hslash, Text.Quoted.escape_cons hc, ih]
  | @taken c body hbody ih =>
    by_cases hown : c = quote
    · subst hown
      rw [Text.Quoted.unescape, if_pos rfl, Text.Quoted.escape_quote, ih]
    · rw [hbody.unescape_taken hquote hown, Text.Quoted.escape_cons hquote.symm,
        Text.Quoted.escape_cons hown, ih]

/-- An escaped text may stand between quotes exactly if the text is quotable. -/
theorem isContent_escape_iff (hquote : quote ≠ '\\') :
    IsContent quote (Text.Quoted.escape quote t) ↔ Quotable quote t := by
  constructor
  · intro h
    have hquotable := h.quotable hquote
    rwa [Text.Quoted.unescape_escape hquote] at hquotable
  · intro h
    obtain ⟨body, hbody, rfl⟩ := h.exists_content hquote
    rwa [hbody.escape_unescape hquote]

/-- The rule for quoted texts takes the whole text. -/
def IsLiteral (quote : Char) (w : List Char) : Prop :=
  w ≠ [] ∧ Text.Quoted.extent quote w = w.length

/-- A literal is a content between two quotes. -/
theorem isLiteral_iff_exists_content (hquote : quote ≠ '\\') :
    IsLiteral quote w ↔ ∃ body, IsContent quote body ∧ w = quote :: (body ++ [quote]) := by
  constructor
  · rintro ⟨hne, hextent⟩
    obtain ⟨c, cs, rfl⟩ := List.exists_cons_of_ne_nil hne
    by_cases hc : c = quote
    · subst hc
      rw [quotedExtent_cons hquote, List.length_cons] at hextent
      cases hcontent : content c false cs with
      | none => simp [hcontent] at hextent
      | some body =>
        obtain ⟨hbody, tail, rfl⟩ := (content_eq_some_iff hquote).1 hcontent
        -- The lengths leave nothing behind the second quote.
        have htail : tail = [] := by
          simp only [hcontent, Option.elim_some, List.length_append, List.length_cons] at hextent
          exact List.length_eq_zero_iff.1 (by omega)
        exact ⟨body, hbody, by rw [htail]⟩
    · simp [Text.Quoted.extent, hc] at hextent
  · rintro ⟨body, hbody, rfl⟩
    have hcontent : content quote false (body ++ [quote]) = some body :=
      (content_eq_some_iff hquote).2 ⟨hbody, [], rfl⟩
    refine ⟨List.cons_ne_nil _ _, ?_⟩
    rw [quotedExtent_cons hquote, hcontent]
    simp

/-- The literals are the written forms of the quotable texts. -/
theorem isLiteral_iff (hquote : quote ≠ '\\') :
    IsLiteral quote w ↔ ∃ t, Quotable quote t ∧ w = Text.Quoted.encode quote t := by
  rw [isLiteral_iff_exists_content hquote]
  constructor
  · rintro ⟨body, hbody, rfl⟩
    refine ⟨Text.Quoted.unescape quote body, hbody.quotable hquote, ?_⟩
    rw [Text.Quoted.encode, hbody.escape_unescape hquote]
  · rintro ⟨t, ht, rfl⟩
    exact ⟨_, (isContent_escape_iff hquote).2 ht, rfl⟩

theorem decode_encode (hquote : quote ≠ '\\') (t : List Char) :
    Text.Quoted.decode quote (Text.Quoted.encode quote t) = t := by
  rw [Text.Quoted.decode, Text.Quoted.encode, List.drop_succ_cons, List.drop_zero,
    List.dropLast_concat, Text.Quoted.unescape_escape hquote]

/-- A literal spells the text that is read off it. -/
theorem IsLiteral.spells (hquote : quote = '"' ∨ quote = '\'') (h : IsLiteral quote w) :
    Spells w (.text (String.ofList (Text.Quoted.decode quote w))) := by
  obtain ⟨body, hbody, rfl⟩ := (isLiteral_iff_exists_content (ne_slash_of_quote hquote)).1 h
  have hspells := Spells.quoted hquote hbody
  rwa [Text.Quoted.decode, List.drop_succ_cons, List.drop_zero, List.dropLast_concat]

end Token

namespace Lexer

open Token

variable {quote : Char} {w : List Char}

/-- The lexer takes a literal, whatever stands behind it. -/
theorem next_literal (hquote : quote = '"' ∨ quote = '\'') (h : IsLiteral quote w)
    (rest : List Char) (line : Nat) :
    (⟨w ++ rest, line⟩ : Lexer).next =
      (.ok (some ⟨.text (String.ofList (Text.Quoted.decode quote w)), line⟩),
        ⟨rest, line + w.count '\n'⟩) := by
  have hstop : IsBare w → StopsRun rest := by
    obtain ⟨body, -, rfl⟩ := (isLiteral_iff_exists_content (ne_slash_of_quote hquote)).1 h
    have hreserved : Rule.isBareChar quote = false := by rcases hquote with rfl | rfl <;> decide
    exact fun hbare => absurd hbare (Rule.not_isBare_cons hreserved _)
  have hrest : (⟨w ++ rest, line⟩ : Lexer).rest = [] ++ (w ++ rest) := rfl
  exact next_of_spells hrest (List.forall_mem_nil _) (h.spells hquote) hstop

/-- A text that is a literal has one token. -/
theorem tokens_literal (hquote : quote = '"' ∨ quote = '\'') (h : IsLiteral quote w) :
    (⟨w, 1⟩ : Lexer).tokens = .ok [⟨.text (String.ofList (Text.Quoted.decode quote w)), 1⟩] :=
  tokens_of_spells (h.spells hquote) 1

end Lexer

namespace Token

/-- The text `w` is a literal, and it is split into the one token of the text `t`. -/
def Quotes (quote : Char) (w t : String) : Prop :=
  IsLiteral quote w.toList ∧ tokenize w = .ok [⟨.text t, 1⟩]

theorem quotes_iff {quote : Char} (hquote : quote = '"' ∨ quote = '\'') {w t : String} :
    Quotes quote w t ↔
      Quotable quote t.toList ∧ w.toList = Text.Quoted.encode quote t.toList := by
  have hslash := ne_slash_of_quote hquote
  constructor
  · rintro ⟨hw, htokens⟩
    have hread : tokenize w = _ := Lexer.tokens_literal hquote hw
    obtain ⟨t', ht', hencode⟩ := (isLiteral_iff hslash).1 hw
    rw [htokens, hencode, decode_encode hslash] at hread
    obtain rfl : t = String.ofList t' := by simpa using hread
    rw [String.toList_ofList]
    exact ⟨ht', hencode⟩
  · rintro ⟨ht, hw⟩
    have hliteral : IsLiteral quote w.toList := (isLiteral_iff hslash).2 ⟨_, ht, hw⟩
    have hread : tokenize w = _ := Lexer.tokens_literal hquote hliteral
    rw [hw, decode_encode hslash, String.ofList_toList] at hread
    exact ⟨hliteral, hread⟩

/-- **Literals and quotable texts correspond one to one.**  A text has a literal exactly if it is
quotable; this literal is the text with a backslash before each quote, in quotes, and no other.  And
decoding a literal gives a quotable text, of which it is the literal; the lexer reads that text and
stops where the literal does, whatever stands behind it. -/
theorem quotation_one_to_one {quote : Char} (hquote : quote = '"' ∨ quote = '\'') :
    (∀ t, (∃ w, Quotes quote w t) ↔ Quotable quote t.toList) ∧
      (∀ w t, Quotes quote w t → w = String.ofList (Text.Quoted.encode quote t.toList)) ∧
      ∀ w, IsLiteral quote w → Quotable quote (Text.Quoted.decode quote w) ∧
        w = Text.Quoted.encode quote (Text.Quoted.decode quote w) ∧
        ∀ rest line, (⟨w ++ rest, line⟩ : Lexer).next =
          (.ok (some ⟨.text (String.ofList (Text.Quoted.decode quote w)), line⟩),
            ⟨rest, line + w.count '\n'⟩) := by
  have hslash := ne_slash_of_quote hquote
  refine ⟨fun t => ?_, fun w t h => ?_, fun w h => ⟨?_, ?_, Lexer.next_literal hquote h⟩⟩
  · constructor
    · rintro ⟨w, h⟩
      exact ((quotes_iff hquote).1 h).1
    · intro h
      exact ⟨_, (quotes_iff hquote).2 ⟨h, String.toList_ofList⟩⟩
  · rw [← ((quotes_iff hquote).1 h).2, String.ofList_toList]
  · obtain ⟨t, ht, rfl⟩ := (isLiteral_iff hslash).1 h
    rwa [decode_encode hslash]
  · obtain ⟨t, -, rfl⟩ := (isLiteral_iff hslash).1 h
    rw [decode_encode hslash]

/-- Two backslashes at the end can be written, one before the quote cannot. -/
theorem quotation_one_to_one_apostrophe :
    (∃ w, Quotes '\'' w "it's\\\\") ∧ ¬ (∃ w, Quotes '\'' w "it\\'s") ∧
      ∀ rest line, (⟨"'it\\'s'".toList ++ rest, line⟩ : Lexer).next =
        (.ok (some ⟨.text "it's", line⟩), ⟨rest, line⟩) := by
  have hquote : '\'' = '"' ∨ '\'' = '\'' := .inr rfl
  obtain ⟨hexists, -, hread⟩ := quotation_one_to_one hquote
  refine ⟨(hexists _).2 ?_, fun h => ?_, ?_⟩
  · simp [Quotable.cons_iff, Quotable.pair_iff, Quotable.nil]
  · have hquotable := (hexists _).1 h
    simp [Quotable.cons_iff, Quotable.single_iff] at hquotable
  · have hliteral : IsLiteral '\'' "'it\\'s'".toList := by
      rw [isLiteral_iff (by decide)]
      exact ⟨"it's".toList, by simp [Quotable.cons_iff, Quotable.nil], rfl⟩
    exact (hread _ hliteral).2.2

end Token
end Criteria
