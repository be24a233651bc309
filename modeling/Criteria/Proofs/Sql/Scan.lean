import Criteria.Sql.Literal

/-!
# Scanning SQL text

The standard rule for string literals: a single quote opens a literal, two of them inside it stand
for one, and one that no other follows closes it.  Behind this rule the text is cut into symbols:
words, comparison signs, literals, parentheses, commas and blanks.

**Results.**
* `scan_quote`: a quoted text is scanned as one literal, whatever it contains.
* `scan_spell`: spelling symbols and scanning the text gives back their pieces.
* `symbols_spell`: cutting the text gives back the symbols, blanks aside.
-/

namespace Criteria
namespace Sql

/-- What a scanner finds: a character outside literals, or a literal with its content. -/
inductive Piece where
  | code (c : Char)
  | literal (s : String)
deriving DecidableEq

mutual

/-- Scans a text from a place outside literals; none if it ends inside one. -/
def scan : List Char → Option (List Piece)
  | [] => some []
  | c :: rest =>
      if c = '\'' then scanLiteral [] rest else (scan rest).map (.code c :: ·)

/-- Scans a text from a place inside a literal, of which `content` has been read. -/
def scanLiteral (content : List Char) : List Char → Option (List Piece)
  | [] => none
  | '\'' :: '\'' :: rest => scanLiteral (content ++ ['\'']) rest
  | '\'' :: rest => (scan rest).map (.literal (String.ofList content) :: ·)
  | c :: rest => scanLiteral (content ++ [c]) rest

end

theorem scan_code {c : Char} (h : c ≠ '\'') (rest : List Char) :
    scan (c :: rest) = (scan rest).map (.code c :: ·) := by
  rw [scan, if_neg h]

/-- A literal ends at the quote behind its escaped content. -/
theorem scanLiteral_escape (s content : List Char) {rest : List Char}
    (h : rest.head? ≠ some '\'') :
    scanLiteral content (escape s ++ '\'' :: rest) =
      (scan rest).map (.literal (String.ofList (content ++ s)) :: ·) := by
  induction s generalizing content with
  | nil =>
    rw [List.append_nil]
    cases rest with
    | nil => rfl
    | cons c rest =>
      have hc : c ≠ '\'' := by simpa using h
      show scanLiteral content ('\'' :: c :: rest) = _
      rw [scanLiteral]
      exact fun rest' he => hc (List.cons.inj he).1
  | cons c s ih =>
    have hcons : escape (c :: s) = (if c = '\'' then ['\'', '\''] else [c]) ++ escape s := rfl
    rw [hcons]
    by_cases hc : c = '\''
    · subst hc
      show scanLiteral content ('\'' :: '\'' :: (escape s ++ '\'' :: rest)) = _
      rw [scanLiteral, ih, List.append_assoc]
      rfl
    · rw [if_neg hc]
      show scanLiteral content (c :: (escape s ++ '\'' :: rest)) = _
      rw [scanLiteral, ih, List.append_assoc]
      · rfl
      · exact fun rest' he _ => hc he
      · exact hc

/-- A quoted text is scanned as one literal, unless another quote follows it. -/
theorem scan_quote (s : String) {rest : List Char} (h : rest.head? ≠ some '\'') :
    scan ((quote s).toList ++ rest) = (scan rest).map (.literal s :: ·) := by
  have hquote : (quote s).toList ++ rest = '\'' :: (escape s.toList ++ '\'' :: rest) := by
    simp [quote]
  rw [hquote, scan, if_pos rfl, scanLiteral_escape s.toList [] h]
  simp

/-! ### Symbols -/

/-- The symbols of SQL text. -/
inductive Symbol where
  | word (w : List Char)
  | sign (s : List Char)
  | string (s : String)
  | opening
  | closing
  | comma
  | blank
deriving DecidableEq

namespace Symbol

/-- The characters that write comparison signs. -/
def isSignChar (c : Char) : Bool :=
  c = '=' || c = '<' || c = '>'

/-- The characters that write words: all that stand for nothing else. -/
def isWordChar (c : Char) : Bool :=
  !(isSignChar c || c = '\'' || c = ' ' || c = '(' || c = ')' || c = ',')

/-- The text of a symbol. -/
def spelling : Symbol → List Char
  | .word w => w
  | .sign s => s
  | .string s => (quote s).toList
  | .opening => ['(']
  | .closing => [')']
  | .comma => [',']
  | .blank => [' ']

/-- What a scanner finds in the text of a symbol. -/
def pieces : Symbol → List Piece
  | .string s => [.literal s]
  | symbol => symbol.spelling.map .code

/-- Words and signs hold only the characters that write them. -/
def Proper : Symbol → Prop
  | .word w => w ≠ [] ∧ ∀ c ∈ w, isWordChar c = true
  | .sign s => s ≠ [] ∧ ∀ c ∈ s, isSignChar c = true
  | _ => True

/-- The texts of the two symbols do not run into one another. -/
def Apart : Symbol → Symbol → Prop
  | .word _, .word _ | .sign _, .sign _ | .string _, .string _ => False
  | _, _ => True

end Symbol

/-- The text of symbols written one after the other. -/
def spell (ss : List Symbol) : List Char :=
  ss.flatMap Symbol.spelling

/-- Proper symbols, of which no two neighbours run into one another. -/
def Separated : List Symbol → Prop
  | [] => True
  | s :: rest => s.Proper ∧ (∀ t, rest.head? = some t → s.Apart t) ∧ Separated rest

/-- A character in front of symbols: it starts the first one, or is one of its own. -/
def addChar (c : Char) (ss : List Symbol) : List Symbol :=
  if c = ' ' then .blank :: ss
  else if c = '(' then .opening :: ss
  else if c = ')' then .closing :: ss
  else if c = ',' then .comma :: ss
  else if Symbol.isSignChar c then
    match ss with
    | .sign s :: rest => .sign (c :: s) :: rest
    | _ => .sign [c] :: ss
  else
    match ss with
    | .word w :: rest => .word (c :: w) :: rest
    | _ => .word [c] :: ss

/-- A piece in front of symbols. -/
def addPiece : Piece → List Symbol → List Symbol
  | .literal s, ss => .string s :: ss
  | .code c, ss => addChar c ss

/-- Cuts a text into symbols and leaves out the blanks; none if it ends inside a literal. -/
def symbols (text : List Char) : Option (List Symbol) :=
  (scan text).map fun ps => (ps.foldr addPiece []).filter (· ≠ .blank)

theorem Symbol.isWordChar_iff {c : Char} :
    isWordChar c = true ↔ isSignChar c = false ∧ c ≠ '\'' ∧ c ≠ ' ' ∧ c ≠ '(' ∧ c ≠ ')' ∧ c ≠ ',' := by
  simp [isWordChar, and_assoc]

theorem scan_codes {cs : List Char} (h : ∀ c ∈ cs, c ≠ '\'') (rest : List Char) :
    scan (cs ++ rest) = (scan rest).map (cs.map Piece.code ++ ·) := by
  induction cs with
  | nil => simp
  | cons c cs ih =>
    rw [List.cons_append, scan_code (h c List.mem_cons_self),
      ih fun d hd => h d (List.mem_cons_of_mem c hd), Option.map_map]
    rfl

/-- Outside literals no symbol holds a quote. -/
theorem Symbol.ne_quote_of_mem_spelling {s : Symbol} (hs : s.Proper) (hstring : ∀ t, s ≠ .string t)
    {c : Char} (hc : c ∈ s.spelling) : c ≠ '\'' := by
  cases s with
  | word w => exact (isWordChar_iff.1 (hs.2 c hc)).2.1
  | sign s =>
    rintro rfl
    exact absurd (hs.2 _ hc) (by decide)
  | string t => exact absurd rfl (hstring t)
  | _ =>
    rw [List.mem_singleton.1 hc]
    decide

/-- A text that starts with a quote starts with a literal. -/
theorem Separated.head?_spell {s : Symbol} {rest : List Symbol}
    (h : Separated (s :: rest)) (hs : ∃ t, s = .string t) :
    (spell rest).head? ≠ some '\'' := by
  obtain ⟨t, rfl⟩ := hs
  cases rest with
  | nil => simp [spell]
  | cons next rest =>
    have hapart : ∀ u, next ≠ .string u := by
      rintro u rfl
      exact h.2.1 _ rfl
    have hproper : next.Proper := h.2.2.1
    have hne : next.spelling ≠ [] := by
      cases next with
      | word w => exact hproper.1
      | sign s => exact hproper.1
      | string u => exact absurd rfl (hapart u)
      | _ => simp [Symbol.spelling]
    obtain ⟨c, cs, hcs⟩ := List.exists_cons_of_ne_nil hne
    have hc := Symbol.ne_quote_of_mem_spelling hproper hapart (c := c) (by simp [hcs])
    simpa [spell, hcs] using hc

/-- Scanning the text of symbols gives their pieces, and ends outside literals. -/
theorem scan_spell {ss : List Symbol} (h : Separated ss) :
    scan (spell ss) = some (ss.flatMap Symbol.pieces) := by
  induction ss with
  | nil => rfl
  | cons s rest ih =>
    have hrest := ih h.2.2
    have hspell : spell (s :: rest) = s.spelling ++ spell rest := rfl
    have hcodes (hstring : ∀ t, s ≠ .string t) : scan (s.spelling ++ spell rest) =
        some (s.spelling.map .code ++ rest.flatMap Symbol.pieces) := by
      rw [scan_codes fun c hc => Symbol.ne_quote_of_mem_spelling h.1 hstring hc, hrest]
      rfl
    rw [hspell]
    cases s with
    | string t =>
      rw [Symbol.spelling, scan_quote t (h.head?_spell ⟨t, rfl⟩), hrest]
      rfl
    | _ => exact hcodes (by simp)

/-- Characters of one class are put together again, in front of what they do not run into. -/
theorem foldr_run {p : Char → Bool} {symbol : List Char → Symbol}
    (hjoin : ∀ c cs rest, p c = true → addChar c (symbol cs :: rest) = symbol (c :: cs) :: rest)
    {rest : List Symbol} (hstart : ∀ c, p c = true → addChar c rest = symbol [c] :: rest)
    {cs : List Char} (hne : cs ≠ []) (hcs : ∀ c ∈ cs, p c = true) :
    (cs.map Piece.code).foldr addPiece rest = symbol cs :: rest := by
  induction cs with
  | nil => exact absurd rfl hne
  | cons c cs ih =>
    have hc := hcs c List.mem_cons_self
    show addChar c ((cs.map Piece.code).foldr addPiece rest) = _
    cases cs with
    | nil => exact hstart c hc
    | cons d cs =>
      rw [ih (by simp) fun x hx => hcs x (List.mem_cons_of_mem c hx)]
      exact hjoin c (d :: cs) rest hc

theorem addChar_of_isWordChar {c : Char} (h : Symbol.isWordChar c = true) (ss : List Symbol) :
    addChar c ss =
      match ss with
      | .word w :: rest => .word (c :: w) :: rest
      | _ => .word [c] :: ss := by
  obtain ⟨hsign, _, hblank, hopen, hclose, hcomma⟩ := Symbol.isWordChar_iff.1 h
  simp [addChar, hsign, hblank, hopen, hclose, hcomma]

theorem addChar_of_isSignChar {c : Char} (h : Symbol.isSignChar c = true) (ss : List Symbol) :
    addChar c ss =
      match ss with
      | .sign s :: rest => .sign (c :: s) :: rest
      | _ => .sign [c] :: ss := by
  have hc : c = '=' ∨ c = '<' ∨ c = '>' := by simpa [Symbol.isSignChar, or_assoc] using h
  rcases hc with rfl | rfl | rfl <;> rfl

theorem foldr_word {w : List Char} (hw : (Symbol.word w).Proper) {rest : List Symbol}
    (hrest : ∀ v, rest.head? ≠ some (.word v)) :
    (w.map Piece.code).foldr addPiece rest = .word w :: rest := by
  refine foldr_run (fun c cs rest hc => addChar_of_isWordChar hc _) (fun c hc => ?_) hw.1 hw.2
  rw [addChar_of_isWordChar hc]
  split
  · next v _ => exact absurd rfl (hrest v)
  · rfl

theorem foldr_sign {s : List Char} (hs : (Symbol.sign s).Proper) {rest : List Symbol}
    (hrest : ∀ v, rest.head? ≠ some (.sign v)) :
    (s.map Piece.code).foldr addPiece rest = .sign s :: rest := by
  refine foldr_run (fun c cs rest hc => addChar_of_isSignChar hc _) (fun c hc => ?_) hs.1 hs.2
  rw [addChar_of_isSignChar hc]
  split
  · next v _ => exact absurd rfl (hrest v)
  · rfl

theorem foldr_pieces {ss : List Symbol} (h : Separated ss) :
    (ss.flatMap Symbol.pieces).foldr addPiece [] = ss := by
  induction ss with
  | nil => rfl
  | cons s rest ih =>
    rw [List.flatMap_cons, List.foldr_append, ih h.2.2]
    cases s with
    | word w => exact foldr_word h.1 fun v hv => h.2.1 _ hv
    | sign s => exact foldr_sign h.1 fun v hv => h.2.1 _ hv
    | _ => rfl

/-- Cutting the text of symbols gives back the symbols, blanks aside. -/
theorem symbols_spell {ss : List Symbol} (h : Separated ss) :
    symbols (spell ss) = some (ss.filter (· ≠ .blank)) := by
  rw [symbols, scan_spell h, Option.map_some, foldr_pieces h]

/-! ### Building separated symbols -/

/-- Blanks, commas and parentheses keep away from every neighbour. -/
def Symbol.IsMark : Symbol → Prop
  | .opening | .closing | .comma | .blank => True
  | _ => False

theorem Symbol.IsMark.apart {t : Symbol} (ht : t.IsMark) (s : Symbol) : s.Apart t ∧ t.Apart s := by
  cases t with
  | word => cases ht
  | sign => cases ht
  | string => cases ht
  | _ => cases s <;> exact ⟨trivial, trivial⟩

theorem Symbol.IsMark.proper {t : Symbol} (ht : t.IsMark) : t.Proper := by
  cases t with
  | word => cases ht
  | sign => cases ht
  | _ => trivial

theorem Separated.cons_mark {t : Symbol} {ss : List Symbol} (ht : t.IsMark) (h : Separated ss) :
    Separated (t :: ss) :=
  ⟨ht.proper, fun s _ => (ht.apart s).2, h⟩

/-- Two sequences with a mark between them. -/
theorem Separated.append_mark {ss ss' : List Symbol} {t : Symbol} (h : Separated ss)
    (ht : t.IsMark) (h' : Separated ss') : Separated (ss ++ t :: ss') := by
  induction ss with
  | nil => exact h'.cons_mark ht
  | cons s rest ih =>
    refine ⟨h.1, fun u hu => ?_, ih h.2.2⟩
    cases rest with
    | nil =>
      obtain rfl : t = u := by simpa using hu
      exact (ht.apart s).1
    | cons next rest => exact h.2.1 u (by simpa using hu)

end Sql
end Criteria
