import Criteria.Proofs.Token.Word

/-!
# The one-pass scanner

A scanner that looks at each character once.  The first character behind the blanks says what
kind of lexeme comes: a mark, an operator, a quoted text, or a run of plain characters, which is
classified as a whole.

**Results.**
* `Token.content_eq_some_iff`: what the scanner takes for the content of a quoted text.
* `Token.read_run`: a run of plain characters is read as a whole.
* `Token.read_eq_none_iff`: where the scanner reads nothing.
-/

namespace Criteria
namespace Token

/-! ### Tags and contents -/

/-- One or more characters of tags. -/
def IsTag (w : List Char) : Prop :=
  w ≠ [] ∧ ∀ c ∈ w, Rule.isTagChar c = true

/-- Text between two quotes: a quote inside it is taken by a backslash, and so is a character
behind each other backslash. -/
inductive IsContent (quote : Char) : List Char → Prop
  | nil : IsContent quote []
  | plain {c : Char} {body : List Char} (hquote : c ≠ quote) (hslash : c ≠ '\\')
      (h : IsContent quote body) : IsContent quote (c :: body)
  | taken (c : Char) {body : List Char} (h : IsContent quote body) :
      IsContent quote ('\\' :: c :: body)

/-- Text that starts with no lexeme: an exclamation mark or an equality sign that starts no
operator, or a quote that is never closed. -/
inductive Stray : List Char → Prop
  | exclamation {rest : List Char} (h : rest.head? ≠ some '=') : Stray ('!' :: rest)
  | equality {rest : List Char} (h : rest.head? ≠ some '=')
      (htag : ∀ tag tail, IsTag tag → rest ≠ tag ++ '=' :: tail) : Stray ('=' :: rest)
  | quote {quote : Char} {rest : List Char} (hquote : quote = '"' ∨ quote = '\'')
      (h : ∀ body tail, IsContent quote body → rest ≠ body ++ quote :: tail) :
      Stray (quote :: rest)

/-! ### The scanner -/

/-- The text up to the first `quote` that no backslash takes; none if there is no such quote.  If
`taken`, a backslash takes the first character. -/
def content (quote : Char) (taken : Bool) : List Char → Option (List Char)
  | [] => none
  | c :: rest =>
      if taken then (content quote false rest).map (c :: ·)
      else if c = quote then some []
      else (content quote (c = '\\') rest).map (c :: ·)

/-- The token that a run of plain characters is, on a given line. -/
def classify (run : List Char) (line : Nat) : Except LexError Token :=
  let outOfRange := LexError.numberOutOfRange (String.ofList run) line
  if IsFloat run then (Rule.readFloat run).elim (.error outOfRange) fun x => .ok (.float x)
  else if IsInteger run then
    (Rule.readInteger run).elim (.error outOfRange) fun n => .ok (.integer n)
  else if IsBoolean run then .ok (.boolean (run.map Rule.foldCase = ['t', 'r', 'u', 'e']))
  else if IsSelector run then .ok (.selector (String.ofList run))
  else .ok (.text (String.ofList run))

/-- The operator that starts with an equality sign, by the text behind that sign, and its
length. -/
def readOperator (rest : List Char) : Option (Token × Nat) :=
  let tag := rest.takeWhile Rule.isTagChar
  if rest.head? = some '=' then some (.equal, 2)
  else if tag ≠ [] ∧ (rest.drop tag.length).head? = some '=' then
    some (.comparison (String.ofList tag), tag.length + 2)
  else none

/-- Reads the lexeme that a text starts with, which is on a given line, and gives its length; none
if the text starts with no lexeme. -/
def read (line : Nat) : List Char → Option (Except LexError Token × Nat)
  | [] => none
  | '(' :: _ => some (.ok .leftParen, 1)
  | ')' :: _ => some (.ok .rightParen, 1)
  | ',' :: _ => some (.ok .comma, 1)
  | ';' :: _ => some (.ok .semicolon, 1)
  | '!' :: rest => if rest.head? = some '=' then some (.ok .notEqual, 2) else none
  | '=' :: rest => (readOperator rest).map fun (token, n) => (.ok token, n)
  | c :: rest =>
      if c = '"' ∨ c = '\'' then
        (content c false rest).map fun body =>
          (.ok (.text (String.ofList (Text.Quoted.unescape c body))), body.length + 2)
      else
        let run := (c :: rest).takeWhile Rule.isBareChar
        some (classify run line, run.length)

end Token

namespace Lexer

/-- The lexer behind the blanks that come first. -/
def behindBlanks (l : Lexer) : Lexer :=
  l.skip (l.rest.takeWhile Text.isBlank).length

/-- The answer of the scanner at a place where no blank comes first. -/
def scanHere (l : Lexer) : Except LexError (Option Lexeme) × Lexer :=
  match l.rest with
  | [] => (.ok none, l)
  | c :: rest =>
      match Token.read l.line (c :: rest) with
      | none => (.error (.unexpectedCharacter c l.line), l)
      | some (answer, n) => (answer.map fun token => some ⟨token, l.line⟩, l.skip n)

/-- Takes the next token off the text in one pass. -/
def scan (l : Lexer) : Except LexError (Option Lexeme) × Lexer :=
  l.behindBlanks.scanHere

end Lexer

namespace Token

/-! ### Quoted texts -/

theorem ne_slash_of_quote {quote : Char} (h : quote = '"' ∨ quote = '\'') : quote ≠ '\\' := by
  rcases h with rfl | rfl
  · decide
  · decide

/-- The content is what comes before the first quote that no backslash takes. -/
theorem content_eq_some_iff {quote : Char} {cs body : List Char} (hquote : quote ≠ '\\') :
    content quote false cs = some body ↔
      IsContent quote body ∧ ∃ tail, cs = body ++ quote :: tail := by
  constructor
  · intro h
    induction hn : cs.length using Nat.strong_induction_on generalizing cs body with
    | _ n ih =>
      subst hn
      cases cs with
      | nil => cases h
      | cons c cs =>
        rw [content, if_neg Bool.false_ne_true] at h
        split at h
        · next hc =>
          cases h
          exact ⟨.nil, cs, by rw [hc, List.nil_append]⟩
        · next hc =>
          obtain ⟨inner, hinner, rfl⟩ := Option.map_eq_some_iff.1 h
          by_cases hslash : c = '\\'
          · -- A backslash takes the next character, so the content goes on behind both.
            subst hslash
            cases cs with
            | nil => cases hinner
            | cons d cs =>
              rw [decide_eq_true rfl, content, if_pos rfl] at hinner
              obtain ⟨inner', hinner', rfl⟩ := Option.map_eq_some_iff.1 hinner
              have hlt : cs.length < ('\\' :: d :: cs).length := by
                rw [List.length_cons, List.length_cons]
                omega
              obtain ⟨hcontent, tail, rfl⟩ := ih cs.length hlt hinner' rfl
              exact ⟨.taken d hcontent, tail, rfl⟩
          · rw [decide_eq_false hslash] at hinner
            obtain ⟨hcontent, tail, rfl⟩ := ih cs.length (by simp) hinner rfl
            exact ⟨.plain hc hslash hcontent, tail, rfl⟩
  · rintro ⟨h, tail, rfl⟩
    induction h with
    | nil => simp [content]
    | plain hc hslash _ ih => simp [content, hc, hslash, ih]
    | taken d _ ih => simp [content, hquote.symm, ih]

/-! ### Where nothing is read -/

theorem readOperator_eq_none_iff {rest : List Char} :
    readOperator rest = none ↔ rest.head? ≠ some '=' ∧
      ∀ tag tail, IsTag tag → rest ≠ tag ++ '=' :: tail := by
  have hstop : Rule.isTagChar '=' = false := by decide
  simp only [readOperator]
  split
  · next h => simp [h]
  · next h =>
    split
    · next hclose =>
      refine iff_of_false (by simp) fun hnone => ?_
      obtain ⟨tail, htail⟩ := List.head?_eq_some_iff.1 hclose.2
      refine hnone.2 _ tail ⟨hclose.1, fun c hc => List.mem_takeWhile_imp hc⟩ ?_
      rw [← htail, drop_length_takeWhile, List.takeWhile_append_dropWhile]
    · next hopen =>
      refine iff_of_true rfl ⟨h, fun tag tail htag hrest => hopen ?_⟩
      have hrun : rest.takeWhile Rule.isTagChar = tag := by
        rw [hrest, takeWhile_append_stop htag.2 (by rintro c ⟨⟩; exact hstop)]
      rw [hrun, hrest, List.drop_left]
      exact ⟨htag.1, rfl⟩

/-- The scanner reads nothing exactly where a text starts with no lexeme. -/
theorem read_eq_none_iff {line : Nat} {c : Char} {rest : List Char} :
    read line (c :: rest) = none ↔ Stray (c :: rest) := by
  have hquoted {quote : Char} (hquote : quote = '"' ∨ quote = '\'') :
      content quote false rest = none ↔
        ∀ body tail, IsContent quote body → rest ≠ body ++ quote :: tail := by
    have hslash := ne_slash_of_quote hquote
    rw [Option.eq_none_iff_forall_ne_some]
    constructor
    · intro h body tail hbody hrest
      exact h body ((content_eq_some_iff hslash).2 ⟨hbody, tail, hrest⟩)
    · intro h body hbody
      obtain ⟨hcontent, tail, hrest⟩ := (content_eq_some_iff hslash).1 hbody
      exact h body tail hcontent hrest
  constructor
  · intro h
    unfold read at h
    split at h
    · next hnil => cases hnil
    · cases h
    · cases h
    · cases h
    · cases h
    · next heq =>
      cases heq
      split at h
      · cases h
      · next hnot => exact .exclamation hnot
    · next heq =>
      cases heq
      obtain ⟨hnot, htag⟩ := readOperator_eq_none_iff.1 (Option.map_eq_none_iff.1 h)
      exact .equality hnot htag
    · next heq =>
      cases heq
      split at h
      · next hquote => exact .quote hquote ((hquoted hquote).1 (Option.map_eq_none_iff.1 h))
      · cases h
  · intro h
    cases h with
    | exclamation h => simp [read, h]
    | equality h htag => simp [read, readOperator_eq_none_iff.2 ⟨h, htag⟩]
    | quote hquote h =>
      have hnone := (hquoted hquote).2 h
      rcases hquote with rfl | rfl <;> simp [read, hnone]

/-- A text that starts with a plain character starts with a whole run of them. -/
theorem exists_run {c : Char} (hc : Rule.isBareChar c = true) (rest : List Char) :
    ∃ run tail, c :: rest = run ++ tail ∧ IsBare run ∧ StopsRun tail := by
  refine ⟨_, _, (List.takeWhile_append_dropWhile (p := Rule.isBareChar)).symm,
    ⟨?_, fun d hd => List.mem_takeWhile_imp hd⟩, fun d hd => head?_dropWhile_eq hd⟩
  rw [List.takeWhile_cons_of_pos hc]
  exact List.cons_ne_nil _ _

/-- A character that is neither plain nor a blank is reserved. -/
theorem reserved_cases {c : Char} (hblank : Text.isBlank c = false)
    (hbare : ¬ Rule.isBareChar c = true) :
    c = '"' ∨ c = '\'' ∨ c = ';' ∨ c = ',' ∨ c = '=' ∨ c = '!' ∨ c = '(' ∨ c = ')' := by
  have hmem : c ∈ Rule.reserved := by simpa [Rule.isBareChar, hblank] using hbare
  simpa [Rule.reserved] using hmem

/-- What the scanner answers for a run of plain characters. -/
theorem read_run {run rest : List Char} (hrun : IsBare run) (hrest : StopsRun rest) (line : Nat) :
    read line (run ++ rest) = some (classify run line, run.length) := by
  obtain ⟨c, tail, rfl⟩ := List.exists_cons_of_ne_nil hrun.1
  have hbare := hrun.2 c List.mem_cons_self
  have htake := takeWhile_append_stop hrun.2 hrest
  rw [List.cons_append] at htake ⊢
  have hne {d : Char} (hd : Rule.isBareChar d = false) : c ≠ d := Rule.ne_of_isBareChar hbare hd
  unfold read
  split
  · next h => cases h
  · next h => exact absurd (List.cons.inj h).1 (hne (by decide))
  · next h => exact absurd (List.cons.inj h).1 (hne (by decide))
  · next h => exact absurd (List.cons.inj h).1 (hne (by decide))
  · next h => exact absurd (List.cons.inj h).1 (hne (by decide))
  · next h => exact absurd (List.cons.inj h).1 (hne (by decide))
  · next h => exact absurd (List.cons.inj h).1 (hne (by decide))
  · next h =>
    cases h
    rw [if_neg (not_or.2 ⟨hne (by decide), hne (by decide)⟩), htake]

theorem classify_ne_unexpected (run : List Char) (line : Nat) (c : Char) (n : Nat) :
    classify run line ≠ .error (.unexpectedCharacter c n) := by
  unfold classify
  split_ifs
  · cases Rule.readFloat run <;> simp
  · cases Rule.readInteger run <;> simp
  · simp
  · simp
  · simp

/-- A lexeme that is read may be a number out of range, but is never unexpected. -/
theorem read_ne_unexpected {line : Nat} {cs : List Char} (c : Char) (m n : Nat) :
    read line cs ≠ some (.error (.unexpectedCharacter c m), n) := by
  intro h
  unfold read at h
  split at h
  · cases h
  · cases h
  · cases h
  · cases h
  · cases h
  · split at h <;> cases h
  · obtain ⟨_, _, heq⟩ := Option.map_eq_some_iff.1 h
    cases heq
  · split at h
    · obtain ⟨_, _, heq⟩ := Option.map_eq_some_iff.1 h
      cases heq
    · exact classify_ne_unexpected _ line c m (congrArg Prod.fst (Option.some.inj h))

end Token

namespace Lexer

theorem behindBlanks_rest (l : Lexer) :
    l.behindBlanks.rest = l.rest.dropWhile Text.isBlank :=
  drop_length_takeWhile _ _

theorem behindBlanks_of_not_blank {l : Lexer}
    (h : ∀ c, l.rest.head? = some c → Text.isBlank c = false) : l.behindBlanks = l := by
  obtain ⟨rest, line⟩ := l
  cases rest with
  | nil => rfl
  | cons c rest => simp [behindBlanks, h c rfl, skip]

theorem scanHere_of_none {l : Lexer} {c : Char} {rest : List Char} (hrest : l.rest = c :: rest)
    (h : Token.read l.line (c :: rest) = none) :
    l.scanHere = (.error (.unexpectedCharacter c l.line), l) := by
  simp only [scanHere, hrest, h]

theorem scanHere_of_some {l : Lexer} {c : Char} {rest : List Char} (hrest : l.rest = c :: rest)
    {answer : Except LexError Token} {n : Nat}
    (h : Token.read l.line (c :: rest) = some (answer, n)) :
    l.scanHere = (answer.map fun token => some ⟨token, l.line⟩, l.skip n) := by
  simp only [scanHere, hrest, h]

end Lexer
end Criteria
