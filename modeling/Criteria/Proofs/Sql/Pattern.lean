import Criteria.Proofs.Sql.Meaning
import Mathlib.Computability.Language
import Mathlib.Order.CompletePartialOrder

/-!
# What patterns match

The texts that a pattern matches, as a language: each character of the pattern stands for a set of
texts, and the pattern for their products.  A text with stars is translated into a pattern of SQL
character by character, and each of these sets can only grow; it does so for the wildcards of SQL.

**Results.**
* `mem_patternTexts_iff`: matching decides the language of a pattern.
* `evaluate_equality_pattern`: the condition for a pattern is true of the texts in its language.
* `pattern_translation`: the translation matches what was meant, and nothing else exactly if the
  text holds no wildcard of SQL.
-/

namespace Criteria
namespace Sql

/-! ### Languages of patterns -/

/-- The texts that one character of a pattern stands for. -/
def Wild.texts : Wild → Language Char
  | .sequence => ⊤
  | .one => {w | w.length = 1}
  | .char c => {[c]}

/-- The texts that a pattern matches: those of its characters, one behind the other. -/
def patternTexts (p : List Wild) : Language Char :=
  (p.map Wild.texts).prod

section Languages

variable {p : List Wild} {u : Wild} {cs : List Char} {c : Char}

@[simp] theorem mem_texts_sequence : cs ∈ Wild.sequence.texts :=
  Set.mem_univ cs

@[simp] theorem mem_texts_one : cs ∈ Wild.one.texts ↔ ∃ d, cs = [d] :=
  List.length_eq_one_iff

@[simp] theorem mem_texts_char : cs ∈ (Wild.char c).texts ↔ cs = [c] :=
  Iff.rfl

@[simp] theorem mem_patternTexts_nil : cs ∈ patternTexts [] ↔ cs = [] :=
  Iff.rfl

theorem mem_patternTexts_cons :
    cs ∈ patternTexts (u :: p) ↔ ∃ a ∈ u.texts, ∃ b ∈ patternTexts p, a ++ b = cs := by
  rw [patternTexts, List.map_cons, List.prod_cons, Language.mem_mul]
  rfl

/-- Matching decides the language of a pattern. -/
theorem mem_patternTexts_iff : cs ∈ patternTexts p ↔ matchesPattern p cs = true := by
  induction p generalizing cs with
  | nil => simp [matchesPattern]
  | cons u p ih =>
    rw [mem_patternTexts_cons]
    cases u with
    | sequence =>
      simp only [mem_texts_sequence, true_and, ih, matchesPattern, List.any_eq_true, List.mem_tails]
      constructor
      · rintro ⟨a, b, hb, rfl⟩
        exact ⟨b, List.suffix_append a b, hb⟩
      · rintro ⟨b, ⟨a, ha⟩, hb⟩
        exact ⟨a, b, hb, ha⟩
    | one =>
      cases cs with
      | nil => simp [matchesPattern]
      | cons d cs =>
        rw [matchesPattern, ← ih]
        simp
    | char c =>
      cases cs with
      | nil => simp [matchesPattern]
      | cons d cs =>
        rw [matchesPattern, Bool.and_eq_true, decide_eq_true_eq, ← ih]
        simp [and_comm]

/-- A character that stands for itself is in each text that is matched. -/
theorem mem_of_mem_patternTexts (h : cs ∈ patternTexts p) (hc : Wild.char c ∈ p) : c ∈ cs := by
  induction p generalizing cs with
  | nil => cases hc
  | cons u p ih =>
    obtain ⟨a, ha, b, hb, rfl⟩ := mem_patternTexts_cons.1 h
    rcases List.mem_cons.1 hc with rfl | hc
    · obtain rfl : a = [c] := ha
      exact List.mem_append_left b List.mem_cons_self
    · exact List.mem_append_right a (ih hb hc)

/-- A text put together from texts for the single characters. -/
theorem flatMap_mem_patternTexts {f : Char → Wild} {g : Char → List Char} {s : List Char}
    (h : ∀ c ∈ s, g c ∈ (f c).texts) : s.flatMap g ∈ patternTexts (s.map f) := by
  induction s with
  | nil => rfl
  | cons c s ih =>
    rw [List.forall_mem_cons] at h
    exact mem_patternTexts_cons.2 ⟨g c, h.1, s.flatMap g, ih h.2, rfl⟩

end Languages

/-! ### The translation -/

/-- What a character is translated into: a star becomes a percent sign, and this and the underscore
are wildcards of SQL. -/
def translated (c : Char) : Wild :=
  if c = '*' ∨ c = '%' then .sequence else if c = '_' then .one else .char c

theorem likePattern_percent_eq_map (s : String) :
    likePattern (percent s) = s.toList.map translated := by
  rw [likePattern, percent, String.toList_ofList, List.map_map]
  refine List.map_congr_left fun c _ => ?_
  by_cases hstar : c = '*'
  · simp [translated, hstar]
  · simp [translated, hstar]

/-- Each character of a pattern stands for as much, or for more, behind the translation. -/
theorem texts_le_translated (c : Char) :
    (if c = '*' then Wild.sequence else .char c).texts ≤ (translated c).texts := by
  unfold translated
  split_ifs with hstar hsequence hone hsequence hone
  · exact le_rfl
  · exact absurd (.inl hstar) hsequence
  · exact absurd (.inl hstar) hsequence
  · exact le_top
  · intro w hw
    exact mem_texts_one.2 ⟨c, hw⟩
  · exact le_rfl

/-- A text that the translation matches: nothing for each sequence, and a letter for each single
character. -/
def leastText (s : List Char) : List Char :=
  s.flatMap fun c => if c = '*' ∨ c = '%' then [] else if c = '_' then ['a'] else [c]

theorem leastText_mem (s : String) :
    leastText s.toList ∈ patternTexts (likePattern (percent s)) := by
  rw [likePattern_percent_eq_map]
  refine flatMap_mem_patternTexts fun c _ => ?_
  unfold translated
  split_ifs
  · exact mem_texts_sequence
  · exact mem_texts_one.2 ⟨'a', rfl⟩
  · rfl

theorem not_mem_leastText {c : Char} (hc : c = '%' ∨ c = '_') (s : List Char) :
    c ∉ leastText s := by
  intro h
  obtain ⟨d, -, hd⟩ := List.mem_flatMap.1 h
  split_ifs at hd with hsequence hone
  · cases hd
  · obtain rfl := List.mem_singleton.1 hd
    simp at hc
  · obtain rfl := List.mem_singleton.1 hd
    rcases hc with rfl | rfl
    · exact hsequence (.inr rfl)
    · exact hone rfl

/-- The condition for a pattern is true of the texts in the language of its translation. -/
theorem evaluate_equality_pattern {D : Type} {K : Comparisons D} {row : Row D} {name s : String}
    {d : D} (hs : isPattern s = true) (hrow : row name = some d) :
    (compileEquality true false name (.text s)).evaluate K row = some true ↔
      (K.text d).toList ∈ patternTexts (likePattern (percent s)) := by
  rw [mem_patternTexts_iff]
  simp [compileEquality, hs, Condition.evaluate, hrow]

/-- **What a pattern matches behind its translation.**  The literal for a text with stars holds a
pattern of SQL, and this pattern matches each text that is matched if every star stands for any
sequence and every other character for itself.  It matches no others exactly if the text holds
neither a percent sign nor an underscore: the least text that it matches holds none of these. -/
theorem pattern_translation (s : String) :
    ∃ p, scan (patternLiteral s).toList = some [.literal p] ∧
      patternTexts (starPattern s) ≤ patternTexts (likePattern p) ∧
      (patternTexts (starPattern s) = patternTexts (likePattern p) ↔
        '%' ∉ s.toList ∧ '_' ∉ s.toList) := by
  have hscan : scan (patternLiteral s).toList = some [.literal (percent s)] := by
    have hquote : scan ((quote (percent s)).toList ++ []) = _ := scan_quote (percent s) (by simp)
    rwa [List.append_nil] at hquote
  refine ⟨percent s, hscan, ?_, ?_⟩
  · rw [likePattern_percent_eq_map, starPattern, patternTexts, patternTexts, List.map_map,
      List.map_map]
    exact List.prod_le_prod' fun c _ => texts_le_translated c
  · constructor
    · intro heq
      have hleast := leastText_mem s
      rw [← heq] at hleast
      have hwildcard {c : Char} (hc : c = '%' ∨ c = '_') : c ∉ s.toList := by
        intro hmem
        have hstar : c ≠ '*' := by rcases hc with rfl | rfl <;> decide
        refine not_mem_leastText hc s.toList (mem_of_mem_patternTexts hleast ?_)
        exact List.mem_map.2 ⟨c, hmem, if_neg hstar⟩
      exact ⟨hwildcard (.inl rfl), hwildcard (.inr rfl)⟩
    · rintro ⟨hpercent, hone⟩
      rw [likePattern_percent hpercent hone]

end Sql
end Criteria
