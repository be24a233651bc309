import Criteria.Proofs.Decimal.Literal
import Criteria.Proofs.Token.Spelling

/-!
# Tokens that can be written

Which tokens have a lexeme at all.  A quoted text cannot hold every content: a backslash takes the
character behind it, and only one before the own quote disappears, so the backslashes in front of a
quote and at the end of the content come in pairs.

**Results.**
* `Token.IsContent.quotable` and `Token.Quotable.exists_content`: the contents that can stand
  between two quotes.
* `Token.exists_spells_iff`: a token has a lexeme exactly if it is writable.
* `Token.exists_writes_iff`: tokens are written by some text exactly if each of them is writable.
-/

namespace Criteria
namespace Token

/-! ### Contents of quoted texts -/

/-- Each maximal run of backslashes that the quote follows, or that ends the text, has even
length. -/
def Quotable (quote : Char) (t : List Char) : Prop :=
  ∀ before n after, t = before ++ (List.replicate n '\\' ++ after) →
    before.getLast? ≠ some '\\' → after.head? ≠ some '\\' →
    after = [] ∨ after.head? = some quote → n % 2 = 0

namespace Quotable

variable {quote c d : Char} {t before after : List Char} {n : Nat}

/-- Where a run of backslashes may stand in a text with a first character: it starts with that
character, or comes later. -/
theorem cons_cases (h : c :: t = before ++ (List.replicate n '\\' ++ after)) :
    n = 0 ∨ (∃ m, before = [] ∧ n = m + 1 ∧ c = '\\' ∧ t = List.replicate m '\\' ++ after) ∨
      ∃ before', before = c :: before' ∧ t = before' ++ (List.replicate n '\\' ++ after) := by
  cases before with
  | nil =>
    cases n with
    | zero => exact .inl rfl
    | succ m =>
      rw [List.replicate_succ, List.nil_append, List.cons_append, List.cons.injEq] at h
      exact .inr (.inl ⟨m, rfl, rfl, h⟩)
  | cons d before =>
    obtain ⟨rfl, htail⟩ := List.cons.inj h
    exact .inr (.inr ⟨before, rfl, htail⟩)

theorem getLast?_of_cons (h : (c :: before).getLast? ≠ some '\\') :
    before.getLast? ≠ some '\\' := by
  cases before with
  | nil => simp
  | cons d before => simpa using h

theorem getLast?_cons (hc : c ≠ '\\') (h : before.getLast? ≠ some '\\') :
    (c :: before).getLast? ≠ some '\\' := by
  cases before with
  | nil => simpa using hc
  | cons d before => simpa using h

theorem nil : Quotable quote [] := by
  intro before n after h _ _ _
  have hlength := congrArg List.length h
  simp at hlength
  omega

theorem cons_iff (hc : c ≠ '\\') : Quotable quote (c :: t) ↔ Quotable quote t := by
  constructor
  · rintro h before n after rfl hbefore
    exact h (c :: before) n after rfl (getLast?_cons hc hbefore)
  · intro h before n after heq hbefore hafter hend
    rcases cons_cases heq with rfl | ⟨m, -, -, hslash, -⟩ | ⟨before, rfl, ht⟩
    · rfl
    · exact absurd hslash hc
    · exact h before n after ht (getLast?_of_cons hbefore) hafter hend

/-- Two backslashes make no difference to the parity of their run. -/
theorem pair_iff : Quotable quote ('\\' :: '\\' :: t) ↔ Quotable quote t := by
  constructor
  · rintro h before n after rfl hbefore hafter hend
    cases before with
    | nil =>
      have heven := h [] (n + 2) after rfl hbefore hafter hend
      omega
    | cons d before =>
      refine h ('\\' :: '\\' :: d :: before) n after rfl ?_ hafter hend
      simpa using hbefore
  · intro h before n after heq hbefore hafter hend
    rcases cons_cases heq with rfl | ⟨m, rfl, rfl, -, ht⟩ | ⟨before, rfl, ht⟩
    · rfl
    · cases m with
      | zero =>
        obtain rfl : '\\' :: t = after := ht
        exact absurd rfl hafter
      | succ k =>
        have heven := h [] k after (List.cons.inj ht).2 (by simp) hafter hend
        omega
    · rcases cons_cases ht with rfl | ⟨m, rfl, rfl, -, -⟩ | ⟨before, rfl, htail⟩
      · rfl
      · exact absurd rfl hbefore
      · exact h before n after htail (getLast?_of_cons (getLast?_of_cons hbefore)) hafter hend

/-- A single backslash stands before another character, which is not the quote. -/
theorem single_iff (hc : c ≠ '\\') :
    Quotable quote ('\\' :: c :: t) ↔ c ≠ quote ∧ Quotable quote t := by
  constructor
  · intro h
    constructor
    · rintro rfl
      have heven := h [] 1 (c :: t) rfl (by simp) (by simpa using hc) (.inr rfl)
      cases heven
    · rintro before n after rfl hbefore
      refine h ('\\' :: c :: before) n after rfl ?_
      simpa using getLast?_cons hc hbefore
  · rintro ⟨hquote, h⟩ before n after heq hbefore hafter hend
    rcases cons_cases heq with rfl | ⟨m, rfl, rfl, -, ht⟩ | ⟨before, rfl, ht⟩
    · rfl
    · cases m with
      | zero =>
        obtain rfl : c :: t = after := ht
        simp [hquote] at hend
      | succ k => exact absurd (List.cons.inj ht).1 hc
    · rcases cons_cases ht with rfl | ⟨m, -, -, hslash, -⟩ | ⟨before, rfl, htail⟩
      · rfl
      · exact absurd hslash hc
      · exact h before n after htail (getLast?_of_cons (getLast?_of_cons hbefore)) hafter hend

theorem not_single : ¬ Quotable quote ['\\'] := by
  intro h
  have heven := h [] 1 [] rfl (by simp) (by simp) (.inl rfl)
  cases heven

end Quotable

section Quoted

variable {quote c : Char} {t body : List Char}

theorem quotable_of_not_mem (h : '\\' ∉ t) : Quotable quote t := by
  rintro before n after rfl _ _ _
  cases n with
  | zero => rfl
  | succ n => exact absurd (by simp [List.replicate_succ]) h

theorem unescape_cons (hc : c ≠ '\\') (rest : List Char) :
    Text.Quoted.unescape quote (c :: rest) = c :: Text.Quoted.unescape quote rest := by
  simp [Text.Quoted.unescape, hc]

/-- A backslash stays unless its own quote follows. -/
theorem unescape_slash (hbody : body.head? ≠ some quote) :
    Text.Quoted.unescape quote ('\\' :: body) = '\\' :: Text.Quoted.unescape quote body := by
  cases body with
  | nil => rfl
  | cons c body =>
    have hc : c ≠ quote := by simpa using hbody
    rw [Text.Quoted.unescape, if_neg hc]

theorem IsContent.head?_ne (hquote : quote ≠ '\\') (h : IsContent quote body) :
    body.head? ≠ some quote := by
  cases h with
  | nil => simp
  | plain hc => simpa using hc
  | taken => simpa using hquote.symm

/-- A backslash that takes another character than the quote stays, and so does that character. -/
theorem IsContent.unescape_taken (hquote : quote ≠ '\\') (hbody : IsContent quote body)
    (hown : c ≠ quote) :
    Text.Quoted.unescape quote ('\\' :: c :: body) =
      '\\' :: c :: Text.Quoted.unescape quote body := by
  rw [unescape_slash (by simpa using hown)]
  by_cases hslash : c = '\\'
  · subst hslash
    rw [unescape_slash (hbody.head?_ne hquote)]
  · rw [unescape_cons hslash]

/-- What is read between two quotes.  The induction follows the content: a quote that is taken
loses its backslash, and two backslashes stay together. -/
theorem IsContent.quotable (hquote : quote ≠ '\\') (h : IsContent quote body) :
    Quotable quote (Text.Quoted.unescape quote body) := by
  induction h with
  | nil => exact .nil
  | plain _ hslash _ ih => rwa [unescape_cons hslash, Quotable.cons_iff hslash]
  | @taken c body hbody ih =>
    by_cases hown : c = quote
    · subst hown
      rw [Text.Quoted.unescape, if_pos rfl, Quotable.cons_iff hquote]
      exact ih
    · rw [hbody.unescape_taken hquote hown]
      by_cases hslash : c = '\\'
      · subst hslash
        exact Quotable.pair_iff.2 ih
      · exact (Quotable.single_iff hslash).2 ⟨hown, ih⟩

/-- A content between two quotes for the text. -/
theorem Quotable.exists_content (hquote : quote ≠ '\\') (h : Quotable quote t) :
    ∃ body, IsContent quote body ∧ Text.Quoted.unescape quote body = t := by
  induction hn : t.length using Nat.strong_induction_on generalizing t with
  | _ n ih =>
    subst hn
    cases t with
    | nil => exact ⟨[], .nil, rfl⟩
    | cons c t =>
      by_cases hslash : c = '\\'
      · subst hslash
        cases t with
        | nil => exact absurd h not_single
        | cons d t =>
          have hlt : t.length < ('\\' :: d :: t).length := by
            rw [List.length_cons, List.length_cons]
            omega
          by_cases hpair : d = '\\'
          · subst hpair
            obtain ⟨body, hbody, rfl⟩ := ih t.length hlt (pair_iff.1 h) rfl
            exact ⟨'\\' :: '\\' :: body, .taken '\\' hbody,
              hbody.unescape_taken hquote hquote.symm⟩
          · obtain ⟨hown, h⟩ := (single_iff hpair).1 h
            obtain ⟨body, hbody, rfl⟩ := ih t.length hlt h rfl
            exact ⟨'\\' :: d :: body, .taken d hbody, hbody.unescape_taken hquote hown⟩
      · obtain ⟨body, hbody, rfl⟩ := ih t.length (by simp) ((cons_iff hslash).1 h) rfl
        by_cases hown : c = quote
        · subst hown
          exact ⟨'\\' :: c :: body, .taken c hbody, by rw [Text.Quoted.unescape, if_pos rfl]⟩
        · exact ⟨c :: body, .plain hown hslash hbody, unescape_cons hslash body⟩

end Quoted

/-! ### Tokens -/

/-- A word that is a selector wherever it stands. -/
def IsWord (w : List Char) : Prop :=
  IsSelector w ∧ ¬ IsInteger w ∧ ¬ IsFloat w ∧ ¬ IsBoolean w

/-- A text that can be written: as it is, or between quotes of one kind. -/
def IsText (t : List Char) : Prop :=
  IsBare t ∨ Quotable '"' t ∨ Quotable '\'' t

/-- Some lexeme is read as the token. -/
def Writable : Token → Prop
  | .selector name => IsWord name.toList
  | .text s => IsText s.toList
  | .comparison tag => IsTag tag.toList
  | .float x => x.isFinite = true
  | _ => True

section Writable

variable {w : List Char} {token : Token}

theorem writable_of_classify {line : Nat} (hw : IsBare w) (h : classify w line = .ok token) :
    token.Writable := by
  unfold classify at h
  split_ifs at h with hfloat hinteger hboolean hselector
  · cases hx : Rule.readFloat w with
    | none => rw [hx] at h; cases h
    | some x =>
      rw [hx] at h
      cases h
      simp only [Rule.readFloat] at hx
      split at hx
      · next hfinite =>
        cases hx
        exact hfinite
      · cases hx
  · cases hn : Rule.readInteger w with
    | none => rw [hn] at h; cases h
    | some n =>
      rw [hn] at h
      cases h
      trivial
  · cases h
    trivial
  · cases h
    show IsWord (String.ofList w).toList
    rw [String.toList_ofList]
    exact ⟨hselector, hinteger, hfloat, hboolean⟩
  · cases h
    show IsText (String.ofList w).toList
    rw [String.toList_ofList]
    exact .inl hw

theorem Spells.writable (h : Spells w token) : token.Writable := by
  cases h with
  | @comparison tag htag =>
    show IsTag (String.ofList tag).toList
    rwa [String.toList_ofList]
  | @quoted quote body hquote hbody =>
    show IsText (String.ofList _).toList
    rw [String.toList_ofList]
    rcases hquote with rfl | rfl
    · exact .inr (.inl (hbody.quotable (by decide)))
    · exact .inr (.inr (hbody.quotable (by decide)))
  | run hrun hclass => exact writable_of_classify hrun hclass
  | _ => trivial

/-- A run with a backslash is no number, no boolean and no selector. -/
theorem classify_of_mem (h : '\\' ∈ w) (line : Nat) :
    classify w line = .ok (.text (String.ofList w)) := by
  have hdigits {ds : List Char} (hds : IsDigits ds) : '\\' ∉ ds := fun hmem =>
    absurd (hds.2 _ hmem) (by decide)
  have hinteger {w : List Char} (hw : IsInteger w) : '\\' ∉ w := fun hmem =>
    absurd (Rule.mem_cases_of_isInteger hw hmem) (by decide)
  have hfloat : ¬ IsFloat w := by
    rintro ⟨whole, fraction, exponent, rfl, hwhole, hfraction, hexponent⟩
    rcases hexponent with rfl | ⟨e, power, rfl, he, hpower⟩
    · simp [hinteger hwhole, hdigits hfraction] at h
    · rcases he with rfl | rfl <;>
        simp [hinteger hwhole, hdigits hfraction, hinteger hpower] at h
  have hboolean : ¬ IsBoolean w := by
    have hmem : Rule.foldCase '\\' ∈ w.map Rule.foldCase := List.mem_map_of_mem h
    rintro (hw | hw)
    · rw [hw] at hmem
      exact absurd hmem (by decide)
    · rw [hw] at hmem
      exact absurd hmem (by decide)
  have hselector : ¬ IsSelector w := fun hw => absurd (hw.2 _ h) (by decide)
  rw [classify, if_neg hfloat, if_neg fun hw => hinteger hw h, if_neg hboolean, if_neg hselector]

theorem exists_spells_text {s : String} (h : IsText s.toList) : ∃ w, Spells w (.text s) := by
  have hquoted {quote : Char} (hquote : quote = '"' ∨ quote = '\'')
      (h : Quotable quote s.toList) : ∃ w, Spells w (.text s) := by
    have hslash := ne_slash_of_quote hquote
    obtain ⟨body, hbody, hs⟩ := h.exists_content hslash
    have hspells := Spells.quoted hquote hbody
    rw [hs, String.ofList_toList] at hspells
    exact ⟨_, hspells⟩
  by_cases hmem : '\\' ∈ s.toList
  · rcases h with hbare | hdouble | hsingle
    · have hclass := classify_of_mem hmem 1
      rw [String.ofList_toList] at hclass
      exact ⟨s.toList, .run hbare hclass⟩
    · exact hquoted (.inl rfl) hdouble
    · exact hquoted (.inr rfl) hsingle
  · exact hquoted (.inl rfl) (quotable_of_not_mem hmem)

theorem isInteger_toString (n : Int) : IsInteger (toString n).toList := by
  refine ⟨_, _, toString_int_toList n, ?_, Nat.toDigits_ne_nil, isDigit_toDigits⟩
  split <;> simp

/-- A float has a point. -/
theorem not_isFloat_of_isInteger (h : IsInteger w) : ¬ IsFloat w := by
  rintro ⟨whole, fraction, exponent, rfl, -⟩
  have hpoint : '.' ∈ whole ++ '.' :: (fraction ++ exponent) :=
    List.mem_append_right _ List.mem_cons_self
  exact absurd (Rule.mem_cases_of_isInteger h hpoint) (by decide)

theorem spells_integer (n : Int64) : Spells (toString n.toInt).toList (.integer n) := by
  have hinteger := isInteger_toString n.toInt
  have hvalue : Rule.readInteger (toString n.toInt).toList = some n := by
    rw [Rule.readInteger, readSigned_toString,
      if_pos ⟨Int64.minValue_le_toInt n, Int64.toInt_le n⟩, Int64.ofInt_toInt]
  have hclass : classify (toString n.toInt).toList 1 = .ok (.integer n) := by
    rw [classify, if_neg (not_isFloat_of_isInteger hinteger), if_pos hinteger, hvalue]
    rfl
  have hform : Rule.integer.Form (toString n.toInt).toList := hinteger
  exact .run (Rule.isBare_of_form hform) hclass

theorem exists_spells_float {x : Float} (hx : x.isFinite = true) : ∃ w, Spells w (.float x) := by
  obtain ⟨sign, whole, fraction, hsign, hwhole, hfraction, hdigits, hplaces, htext⟩ :=
    exists_floatOfText hx
  have hform : Rule.float.Form (sign ++ (whole ++ '.' :: fraction)) :=
    ⟨sign ++ whole, fraction, [], by simp, ⟨sign, whole, rfl, hsign, hwhole, hdigits⟩,
      ⟨hfraction, hplaces⟩, .inl rfl⟩
  have hread : Rule.readFloat (sign ++ (whole ++ '.' :: fraction)) = some x := by
    simp only [Rule.readFloat, htext]
    exact if_pos hx
  have hclass : classify (sign ++ (whole ++ '.' :: fraction)) 1 = .ok (.float x) := by
    rw [classify, if_pos (show IsFloat _ from hform), hread]
    rfl
  exact ⟨_, .run (Rule.isBare_of_form hform) hclass⟩

theorem spells_selector {name : String} (h : IsWord name.toList) :
    Spells name.toList (.selector name) := by
  obtain ⟨hselector, hinteger, hfloat, hboolean⟩ := h
  have hclass : classify name.toList 1 = .ok (.selector name) := by
    rw [classify, if_neg hfloat, if_neg hinteger, if_neg hboolean, if_pos hselector,
      String.ofList_toList]
  exact .run (Rule.isBare_of_isSelector hselector) hclass

theorem spells_boolean (b : Bool) :
    Spells (if b then ['t', 'r', 'u', 'e'] else ['f', 'a', 'l', 's', 'e']) (.boolean b) := by
  cases b with
  | false =>
    have hclass : classify ['f', 'a', 'l', 's', 'e'] 1 = .ok (.boolean false) := by decide
    have hform : Rule.boolean.Form ['f', 'a', 'l', 's', 'e'] := .inr rfl
    exact .run (Rule.isBare_of_form hform) hclass
  | true =>
    have hclass : classify ['t', 'r', 'u', 'e'] 1 = .ok (.boolean true) := by decide
    have hform : Rule.boolean.Form ['t', 'r', 'u', 'e'] := .inl rfl
    exact .run (Rule.isBare_of_form hform) hclass

/-- A token has a lexeme exactly if it is writable. -/
theorem exists_spells_iff : (∃ w, Spells w token) ↔ token.Writable := by
  constructor
  · rintro ⟨w, hw⟩
    exact hw.writable
  · intro h
    cases token with
    | float x => exact exists_spells_float h
    | integer n => exact ⟨_, spells_integer n⟩
    | boolean b => exact ⟨_, spells_boolean b⟩
    | text s => exact exists_spells_text h
    | selector name => exact ⟨_, spells_selector h⟩
    | comparison tag =>
      have hspells := Spells.comparison h
      rw [String.ofList_toList] at hspells
      exact ⟨_, hspells⟩
    | equal => exact ⟨_, .equal⟩
    | notEqual => exact ⟨_, .notEqual⟩
    | comma => exact ⟨_, .comma⟩
    | semicolon => exact ⟨_, .semicolon⟩
    | leftParen => exact ⟨_, .leftParen⟩
    | rightParen => exact ⟨_, .rightParen⟩

/-- A text with a blank before each lexeme. -/
theorem exists_writes {tokens : List Token} (h : ∀ t ∈ tokens, t.Writable) :
    ∃ cs, Writes cs tokens ∧ StopsRun cs := by
  induction tokens with
  | nil => exact ⟨[], .blanks (List.forall_mem_nil _), by rintro c ⟨⟩⟩
  | cons token tokens ih =>
    obtain ⟨rest, hrest, hstop⟩ := ih fun t ht => h t (List.mem_cons_of_mem _ ht)
    obtain ⟨w, hw⟩ := exists_spells_iff.2 (h token List.mem_cons_self)
    refine ⟨[' '] ++ (w ++ rest), .lexeme ?_ hw (fun _ => hstop) hrest, ?_⟩
    · intro c hc
      rw [List.mem_singleton.1 hc]
      decide
    · rintro c ⟨⟩
      decide

theorem Writes.writable {cs : List Char} {tokens : List Token} (h : Writes cs tokens) :
    ∀ t ∈ tokens, t.Writable := by
  induction h with
  | blanks => exact List.forall_mem_nil _
  | lexeme _ hw _ _ ih => exact List.forall_mem_cons.2 ⟨hw.writable, ih⟩

/-- Tokens are written by some text exactly if each of them is writable. -/
theorem exists_writes_iff {tokens : List Token} :
    (∃ cs, Writes cs tokens) ↔ ∀ t ∈ tokens, t.Writable := by
  constructor
  · rintro ⟨cs, h⟩
    exact h.writable
  · intro h
    obtain ⟨cs, hcs, -⟩ := exists_writes h
    exact ⟨cs, hcs⟩

end Writable

end Token

/-- What a lexer yields is writable, also where it fails in the end. -/
theorem Lexer.Yields.writable {l : Lexer} {lexemes : List Lexeme} {stop : Option LexError}
    (h : l.Yields lexemes stop) : ∀ lexeme ∈ lexemes, lexeme.token.Writable := by
  induction h with
  | done | fails => exact List.forall_mem_nil _
  | token h _ ih =>
    obtain ⟨_, _, _, _, hw, _⟩ := Lexer.exists_spells_of_next h
    exact List.forall_mem_cons.2 ⟨hw.writable, ih⟩

end Criteria
