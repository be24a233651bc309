import Criteria.Proofs.Token.Spelling

/-!
# Blanks between lexemes

A text that is split into tokens is a row of pieces: the characters of each lexeme, with the blanks
before it.  Blanks may be put anywhere between the lexemes.  The lexer then cuts the text where it
did before, and the lines of its tokens grow by the line feeds that were put in before them.

**Results.**
* `Lexer.tokens_eq_ok_iff_cuts`: the tokens of a text are those of its pieces.
* `Lexer.Cuts.widen`: the pieces of a text into which blanks are put.
-/

namespace Criteria

/-- A lexeme as it stands in a text: the blanks before it, its characters, and what is read. -/
structure Piece where
  gap : List Char
  word : List Char
  lexeme : Lexeme

/-- The text of the pieces, with more blanks behind the last one. -/
def Piece.join (pieces : List Piece) (last : List Char) : List Char :=
  pieces.flatMap (fun piece => piece.gap ++ piece.word) ++ last

/-- The blanks `gap'` come from `gap` by putting blanks in. -/
def Wider (gap gap' : List Char) : Prop :=
  gap.Sublist gap' ∧ ∀ c ∈ gap', Text.isBlank c = true

/-- Blanks are put into the gaps between the pieces, and behind the last one.  The words stay the
same.  The line of each piece grows by the line feeds that are put in before it, of which `shift`
come before all of these pieces. -/
inductive Widens : Nat → List Piece → List Char → List Piece → List Char → Prop
  | last {shift : Nat} {last last' : List Char} (hwider : Wider last last') :
      Widens shift [] last [] last'
  | piece {shift inserted : Nat} {piece : Piece} {gap : List Char} {pieces pieces' : List Piece}
      {last last' : List Char} (hwider : Wider piece.gap gap)
      (hcount : gap.count '\n' = piece.gap.count '\n' + inserted)
      (rest : Widens (shift + inserted) pieces last pieces' last') :
      Widens shift (piece :: pieces) last
        (⟨gap, piece.word, ⟨piece.lexeme.token, piece.lexeme.line + (shift + inserted)⟩⟩ :: pieces')
        last'

/-- The text consists of the pieces with blanks put between them. -/
structure Respaces (pieces : List Piece) (last : List Char) (text : String) (pieces' : List Piece)
    (last' : List Char) : Prop where
  widens : Widens 0 pieces last pieces' last'
  toList_eq : text.toList = Piece.join pieces' last'

theorem Widens.tokens_eq {shift : Nat} {pieces pieces' : List Piece} {last last' : List Char}
    (h : Widens shift pieces last pieces' last') :
    (pieces'.map Piece.lexeme).map Lexeme.token = (pieces.map Piece.lexeme).map Lexeme.token := by
  induction h with
  | last => rfl
  | piece _ _ _ ih => simp only [List.map_cons, ih]

/-- Blanks may be put into each gap as one likes. -/
theorem exists_widens {pieces : List Piece} {gaps : List (List Char)} {last last' : List Char}
    (hgaps : List.Forall₂ (fun piece gap => Wider piece.gap gap) pieces gaps)
    (hlast : Wider last last') (shift : Nat) :
    ∃ pieces', Widens shift pieces last pieces' last' ∧ pieces'.map Piece.gap = gaps := by
  induction hgaps generalizing shift with
  | nil => exact ⟨[], .last hlast, rfl⟩
  | @cons piece gap _ _ hwider _ ih =>
    obtain ⟨inserted, hcount⟩ := Nat.exists_eq_add_of_le (hwider.1.count_le '\n')
    obtain ⟨pieces', hwidens, hmap⟩ := ih (shift + inserted)
    exact ⟨_, .piece hwider hcount hwidens, by rw [List.map_cons, hmap]⟩

namespace Lexer

/-- The lexer cuts its text into these pieces, call by call, and ends before the blanks `last`. -/
inductive Cuts : Lexer → List Piece → List Char → Prop
  | done {l l' : Lexer} (h : l.next = (.ok none, l')) : Cuts l [] l.rest
  | piece {l l' : Lexer} {piece : Piece} {pieces : List Piece} {last : List Char}
      (h : l.next = (.ok (some piece.lexeme), l'))
      (hgap : piece.gap = l.rest.takeWhile Text.isBlank)
      (hrest : l.rest = piece.gap ++ (piece.word ++ l'.rest)) (rest : Cuts l' pieces last) :
      Cuts l (piece :: pieces) last

open Token

variable {l l' : Lexer} {pieces pieces' : List Piece} {last last' : List Char} {shift : Nat}

theorem Cuts.join_eq (h : l.Cuts pieces last) : l.rest = Piece.join pieces last := by
  induction h with
  | done => rfl
  | piece _ _ hrest _ ih =>
    rw [hrest, ih]
    simp [Piece.join]

theorem Cuts.yields (h : l.Cuts pieces last) : l.Yields (pieces.map Piece.lexeme) none := by
  induction h with
  | done h => exact .done h
  | piece h _ _ _ ih => exact .token h ih

theorem Yields.exists_cuts {lexemes : List Lexeme} (h : l.Yields lexemes none) :
    ∃ pieces last, l.Cuts pieces last ∧ pieces.map Piece.lexeme = lexemes := by
  generalize hstop : (none : Option LexError) = stop at h
  induction h with
  | done h => exact ⟨[], _, .done h, rfl⟩
  | fails => cases hstop
  | @token l l' lexeme _ _ h _ ih =>
    obtain ⟨pieces, last, hcuts, rfl⟩ := ih hstop
    obtain ⟨blanks, w, hrest, hblanks, hw, -⟩ := exists_spells_of_next h
    have hgap : blanks = l.rest.takeWhile Text.isBlank := by
      rw [hrest, hw.takeWhile_isBlank hblanks]
    exact ⟨⟨blanks, w, lexeme⟩ :: pieces, last, .piece h hgap hrest hcuts, rfl⟩

/-- The tokens of a text are those of its pieces. -/
theorem tokens_eq_ok_iff_cuts {lexemes : List Lexeme} :
    l.tokens = .ok lexemes ↔ ∃ pieces last, l.Cuts pieces last ∧
      pieces.map Piece.lexeme = lexemes := by
  rw [tokens_eq_ok_iff]
  constructor
  · exact Yields.exists_cuts
  · rintro ⟨pieces, last, hcuts, rfl⟩
    exact hcuts.yields

/-- The word of a piece is a lexeme for its token. -/
theorem spells_of_cut {piece : Piece} (h : l.next = (.ok (some piece.lexeme), l'))
    (hgap : piece.gap = l.rest.takeWhile Text.isBlank)
    (hrest : l.rest = piece.gap ++ (piece.word ++ l'.rest)) :
    Spells piece.word piece.lexeme.token ∧ (IsBare piece.word → StopsRun l'.rest) := by
  obtain ⟨blanks, w, hrest', hblanks, hw, hstop⟩ := exists_spells_of_next h
  have hblanks' : blanks = piece.gap := by
    rw [hgap, hrest', hw.takeWhile_isBlank hblanks]
  rw [hrest, hblanks'] at hrest'
  have hword : piece.word = w := List.append_cancel_right (List.append_cancel_left hrest')
  rw [hword]
  exact ⟨hw, hstop⟩

/-- A run stops at the pieces also if blanks are put before them. -/
theorem stopsRun_of_widens (hwidens : Widens shift pieces last pieces' last')
    (hcuts : l.Cuts pieces last) (hstop : StopsRun l.rest) :
    StopsRun (Piece.join pieces' last') := by
  have stops {blanks : List Char} (hblanks : ∀ c ∈ blanks, Text.isBlank c = true)
      {c : Char} (hc : c ∈ blanks) : Rule.isBareChar c = false := by
    cases hbare : Rule.isBareChar c with
    | false => rfl
    | true =>
      have hnot := Rule.isBlank_of_isBareChar hbare
      rw [hblanks c hc] at hnot
      cases hnot
  cases hwidens with
  | last hwider => exact fun c hc => stops hwider.2 (List.mem_of_mem_head? hc)
  | @piece _ _ piece gap _ _ _ _ hwider =>
    cases gap with
    | nil =>
      -- The gap was empty before, so the next character is the same, the first one of a word.
      obtain hgap : piece.gap = [] := List.sublist_nil.1 hwider.1
      cases hcuts with
      | piece hnext hgap' hrest _ =>
        obtain ⟨d, tail, hword, -⟩ := (spells_of_cut hnext hgap' hrest).1.exists_cons
        rw [hrest, hgap, hword] at hstop
        intro c hc
        refine hstop c ?_
        rw [← hc]
        simp [Piece.join, hword]
    | cons d gap =>
      rintro c ⟨⟩
      exact stops hwider.2 List.mem_cons_self

/-- The pieces of a text into which blanks are put. -/
theorem Cuts.widen (h : l.Cuts pieces last) (hwidens : Widens shift pieces last pieces' last')
    (hrest : l'.rest = Piece.join pieces' last') (hline : l'.line = l.line + shift) :
    l'.Cuts pieces' last' := by
  induction hwidens generalizing l l' with
  | @last _ _ last' hwider =>
    have hrest' : l'.rest = last' := hrest
    rw [← hrest'] at hwider ⊢
    exact .done (next_eq_none_of_blanks hwider.2)
  | @piece shift inserted piece gap pieces pieces' last last' hwider hcount hwidens ih =>
    cases h with
    | @piece _ m _ _ _ hnext hgap hsplit hcuts =>
      obtain ⟨hspells, hstop⟩ := spells_of_cut hnext hgap hsplit
      have hgapBlank : ∀ c ∈ piece.gap, Text.isBlank c = true := by
        rw [hgap]
        exact fun c hc => List.mem_takeWhile_imp hc
      rw [next_of_spells hsplit hgapBlank hspells hstop] at hnext
      obtain ⟨hfirst, hbehind⟩ := Prod.mk.inj hnext
      have hlexeme : l.line + piece.gap.count '\n' = piece.lexeme.line :=
        congrArg Lexeme.line (Option.some.inj (Except.ok.inj hfirst))
      have hm : l.line + (piece.gap ++ piece.word).count '\n' = m.line :=
        congrArg Lexer.line hbehind
      have hsplit' : l'.rest = gap ++ (piece.word ++ Piece.join pieces' last') := by
        rw [hrest]
        simp [Piece.join]
      have hnext' := next_of_spells hsplit' hwider.2 hspells fun hbare =>
        stopsRun_of_widens hwidens hcuts (hstop hbare)
      have hline' : l'.line + gap.count '\n' = piece.lexeme.line + (shift + inserted) := by omega
      have hgap' : gap = l'.rest.takeWhile Text.isBlank := by
        rw [hsplit', hspells.takeWhile_isBlank hwider.2]
      rw [hline'] at hnext'
      refine .piece hnext' hgap' hsplit' (ih hcuts rfl ?_)
      show l'.line + (gap ++ piece.word).count '\n' = m.line + (shift + inserted)
      rw [List.count_append] at hm ⊢
      omega

end Lexer
end Criteria
