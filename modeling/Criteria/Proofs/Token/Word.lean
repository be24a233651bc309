import Criteria.Proofs.Token.Longest
import Mathlib

/-!
# Words

What makes a whole word a number, a boolean or a selector, said of the word alone, and how this
agrees with what the rules match at the start of a text.

**Results.**
* `Token.Rule.form_take`: what a rule for numbers or booleans matches is such a word.
* `Token.Rule.extent_of_form`: the rule matches such a word to its end.
* `Token.Rule.extent_eq_run_iff`: the rule takes all of a run of plain characters exactly if the
  run is such a word.
-/

namespace Criteria

/-- A run ends where a character of another kind follows. -/
theorem takeWhile_append_stop {p : Char → Bool} {run rest : List Char}
    (hrun : ∀ c ∈ run, p c = true) (hrest : ∀ c, rest.head? = some c → p c = false) :
    (run ++ rest).takeWhile p = run := by
  have hstop : rest.takeWhile p = [] := by
    cases rest with
    | nil => rfl
    | cons c rest => simp [hrest c rfl]
  rw [List.takeWhile_append_of_pos hrun, hstop, List.append_nil]

theorem take_length_takeWhile (p : Char → Bool) (cs : List Char) :
    cs.take (cs.takeWhile p).length = cs.takeWhile p :=
  (List.prefix_iff_eq_take.1 (List.takeWhile_prefix p)).symm

theorem drop_length_takeWhile (p : Char → Bool) (cs : List Char) :
    cs.drop (cs.takeWhile p).length = cs.dropWhile p := by
  have hsplit : (cs.takeWhile p ++ cs.dropWhile p).drop (cs.takeWhile p).length =
      cs.dropWhile p := List.drop_left
  rwa [List.takeWhile_append_dropWhile] at hsplit

/-- Behind a run no character of its kind comes first. -/
theorem head?_dropWhile_eq {p : Char → Bool} {cs : List Char} {c : Char}
    (h : (cs.dropWhile p).head? = some c) : p c = false := by
  have hnot := List.head?_dropWhile_not p cs
  rw [h] at hnot
  simpa using hnot

namespace Token

/-- One or more decimal digits. -/
def IsDigits (w : List Char) : Prop :=
  w ≠ [] ∧ ∀ c ∈ w, c.isDigit = true

/-- An optional sign and digits. -/
def IsInteger (w : List Char) : Prop :=
  ∃ sign digits, w = sign ++ digits ∧ sign ∈ [[], ['+'], ['-']] ∧ IsDigits digits

/-- Nothing, or a letter e and an integer. -/
def IsExponent (w : List Char) : Prop :=
  w = [] ∨ ∃ e power, w = e :: power ∧ (e = 'e' ∨ e = 'E') ∧ IsInteger power

/-- An integer, a point with digits, and perhaps an exponent. -/
def IsFloat (w : List Char) : Prop :=
  ∃ whole fraction exponent, w = whole ++ '.' :: (fraction ++ exponent) ∧
    IsInteger whole ∧ IsDigits fraction ∧ IsExponent exponent

/-- The word true or the word false, case aside. -/
def IsBoolean (w : List Char) : Prop :=
  w.map Rule.foldCase = ['t', 'r', 'u', 'e'] ∨ w.map Rule.foldCase = ['f', 'a', 'l', 's', 'e']

/-- One or more characters of selectors. -/
def IsSelector (w : List Char) : Prop :=
  w ≠ [] ∧ ∀ c ∈ w, Rule.isSelectorChar c = true

/-- One or more characters that are neither blank nor reserved. -/
def IsBare (w : List Char) : Prop :=
  w ≠ [] ∧ ∀ c ∈ w, Rule.isBareChar c = true

/-- No plain character comes first. -/
def StopsRun (cs : List Char) : Prop :=
  ∀ c, cs.head? = some c → Rule.isBareChar c = false

namespace Rule

/-- The words of the rules for numbers and booleans. -/
def Form : Rule → List Char → Prop
  | .float, w => IsFloat w
  | .integer, w => IsInteger w
  | .boolean, w => IsBoolean w
  | _, _ => False

/-! ### Plain characters -/

section Characters

variable {c : Char}

theorem isBareChar_of_toNat (hlow : 32 < c.toNat) (hhigh : c.toNat < 133)
    (hreserved : c ∉ reserved) : isBareChar c = true := by
  have hblank : Text.isBlank c = false := by
    simp only [Text.isBlank, Text.blankRanges, List.any_cons, List.any_nil, Bool.or_false,
      Bool.or_eq_false_iff, Bool.and_eq_false_iff, decide_eq_false_iff_not]
    omega
  simp [isBareChar, hblank, hreserved]

theorem isBareChar_of_isAlphanum (h : c.isAlphanum = true) : isBareChar c = true := by
  have hrange : 48 ≤ c.toNat ∧ c.toNat ≤ 57 ∨ 65 ≤ c.toNat ∧ c.toNat ≤ 90 ∨
      97 ≤ c.toNat ∧ c.toNat ≤ 122 := by
    simp only [Char.isAlphanum, Char.isAlpha, Char.isUpper, Char.isLower, Char.isDigit,
      Bool.or_eq_true, Bool.and_eq_true, decide_eq_true_eq, UInt32.le_iff_toNat_le] at h
    rcases h with (h | h) | h
    · exact .inr (.inl h)
    · exact .inr (.inr h)
    · exact .inl h
  refine isBareChar_of_toNat (by omega) (by omega) fun hmem => ?_
  simp only [reserved, List.mem_cons, List.not_mem_nil, or_false] at hmem
  rcases hmem with rfl | rfl | rfl | rfl | rfl | rfl | rfl | rfl <;> revert hrange <;> decide

theorem isBlank_of_isBareChar (hc : isBareChar c = true) : Text.isBlank c = false := by
  simp only [isBareChar, Bool.and_eq_true, Bool.not_eq_true'] at hc
  exact hc.1

theorem ne_of_isBareChar {d : Char} (hc : isBareChar c = true) (hd : isBareChar d = false) :
    c ≠ d := by
  rintro rfl
  rw [hc] at hd
  cases hd

theorem isBareChar_of_isDigit (h : c.isDigit = true) : isBareChar c = true :=
  isBareChar_of_isAlphanum (by simp [Char.isAlphanum, h])

theorem isBareChar_of_isSelectorChar (h : isSelectorChar c = true) : isBareChar c = true := by
  simp only [isSelectorChar, Bool.or_eq_true, decide_eq_true_eq] at h
  rcases h with ((h | rfl) | rfl) | rfl
  · exact isBareChar_of_isAlphanum h
  · decide
  · decide
  · decide

theorem toLower_eq_self (h : ¬ c.isUpper = true) : c.toLower = c := by
  simp only [Char.isUpper, decide_eq_true_eq] at h
  rw [Char.toLower, dif_neg h]

/-- Only plain characters are other spellings of a plain character. -/
theorem isBareChar_of_foldCase (h : isBareChar (foldCase c) = true) : isBareChar c = true := by
  unfold foldCase at h
  split at h
  · next hs =>
    subst hs
    decide
  · by_cases hupper : c.isUpper = true
    · exact isBareChar_of_isAlphanum (by simp [Char.isAlphanum, Char.isAlpha, hupper])
    · rwa [toLower_eq_self hupper] at h

/-- A run starts with a plain character. -/
theorem not_isBare_cons (hc : isBareChar c = false) (w : List Char) : ¬ IsBare (c :: w) := by
  intro hrun
  exact ne_of_isBareChar (hrun.2 c List.mem_cons_self) hc rfl

end Characters

/-! ### Integers -/

section Integers

theorem IsDigits.exists_cons {w : List Char} (h : IsDigits w) :
    ∃ c rest, w = c :: rest ∧ c.isDigit = true := by
  obtain ⟨c, rest, rfl⟩ := List.exists_cons_of_ne_nil h.1
  exact ⟨c, rest, rfl, h.2 c List.mem_cons_self⟩

/-- A digit is no sign. -/
theorem ne_sign_of_isDigit {c : Char} (h : c.isDigit = true) : ¬ (c = '+' ∨ c = '-') := by
  rintro (rfl | rfl) <;> cases h

theorem digitsLength_append {ds rest : List Char} (hds : ∀ c ∈ ds, c.isDigit = true)
    (hrest : ∀ c, rest.head? = some c → c.isDigit = false) :
    Text.digitsLength (ds ++ rest) = ds.length := by
  rw [Text.digitsLength, takeWhile_append_stop hds hrest]

theorem signLength_append {sign ds : List Char} (hsign : sign ∈ [[], ['+'], ['-']])
    (hds : IsDigits ds) (rest : List Char) :
    Text.signLength (sign ++ (ds ++ rest)) = sign.length := by
  simp only [List.mem_cons, List.not_mem_nil, or_false] at hsign
  rcases hsign with rfl | rfl | rfl
  · obtain ⟨c, tail, rfl, hc⟩ := IsDigits.exists_cons hds
    simp [Text.signLength, ne_sign_of_isDigit hc]
  · rfl
  · rfl

/-- An integer is matched to its end, if no digit follows. -/
theorem integerLength_append {w rest : List Char} (hw : IsInteger w)
    (hrest : ∀ c, rest.head? = some c → c.isDigit = false) :
    integerLength (w ++ rest) = w.length := by
  obtain ⟨sign, ds, rfl, hsign, hds⟩ := hw
  have hpos : 0 < ds.length := List.length_pos_iff.2 hds.1
  have hlength := signLength_append hsign hds rest
  simp only [integerLength, List.append_assoc, hlength, List.drop_left,
    digitsLength_append hds.2 hrest]
  rw [if_pos hpos, List.length_append]

theorem integerLength_of_isInteger {w : List Char} (hw : IsInteger w) :
    integerLength w = w.length := by
  have hlength : integerLength (w ++ []) = w.length := integerLength_append hw (by simp)
  rwa [List.append_nil] at hlength

/-- What is matched as an integer is one. -/
theorem isInteger_take {cs : List Char} (h : 0 < integerLength cs) :
    IsInteger (cs.take (integerLength cs)) := by
  simp only [integerLength] at h ⊢
  split at h
  · next hdigits =>
    rw [if_pos hdigits]
    refine ⟨cs.take (Text.signLength cs),
      (cs.drop (Text.signLength cs)).takeWhile Char.isDigit, ?_, ?_, ?_, ?_⟩
    · rw [List.take_add, Text.digitsLength, take_length_takeWhile]
    · cases cs with
      | nil => simp [Text.signLength]
      | cons c rest =>
        by_cases hc : c = '+' ∨ c = '-'
        · rcases hc with rfl | rfl <;> simp [Text.signLength]
        · simp [Text.signLength, hc]
    · exact List.length_pos_iff.1 hdigits
    · exact fun c hc => List.mem_takeWhile_imp hc
  · exact absurd h (Nat.lt_irrefl 0)

/-- The characters of an integer are signs and digits. -/
theorem mem_cases_of_isInteger {w : List Char} {c : Char} (hw : IsInteger w) (hc : c ∈ w) :
    c = '+' ∨ c = '-' ∨ c.isDigit = true := by
  obtain ⟨sign, ds, rfl, hsign, hds⟩ := hw
  simp only [List.mem_cons, List.not_mem_nil, or_false] at hsign
  rcases List.mem_append.1 hc with hc | hc
  · rcases hsign with rfl | rfl | rfl
    · cases hc
    · exact .inl (List.mem_singleton.1 hc)
    · exact .inr (.inl (List.mem_singleton.1 hc))
  · exact .inr (.inr (hds.2 c hc))

theorem isInteger_ne_nil {w : List Char} (hw : IsInteger w) : w ≠ [] := by
  obtain ⟨sign, ds, rfl, _, hds⟩ := hw
  exact List.append_ne_nil_of_right_ne_nil _ hds.1

end Integers

/-! ### Floats -/

section Floats

/-- An exponent is a letter e and an integer. -/
theorem exponentLength_cons (c : Char) (rest : List Char) :
    exponentLength (c :: rest) =
      if (c = 'e' ∨ c = 'E') ∧ 0 < integerLength rest then 1 + integerLength rest else 0 := by
  simp only [exponentLength, integerLength]
  by_cases hdigits : 0 < Text.digitsLength (rest.drop (Text.signLength rest))
  · have hpos : 0 < Text.signLength rest +
        Text.digitsLength (rest.drop (Text.signLength rest)) := by omega
    simp only [hdigits, hpos, if_true, Nat.add_assoc]
  · simp only [hdigits, if_false, and_false, Nat.lt_irrefl]

theorem exponentLength_of_isExponent {w : List Char} (hw : IsExponent w) :
    exponentLength w = w.length := by
  rcases hw with rfl | ⟨e, power, rfl, he, hpower⟩
  · rfl
  · have hlength := integerLength_of_isInteger hpower
    have hpos : 0 < power.length := List.length_pos_iff.2 (isInteger_ne_nil hpower)
    rw [exponentLength_cons, hlength, if_pos ⟨he, hpos⟩, List.length_cons, Nat.add_comm]

theorem isExponent_take (cs : List Char) : IsExponent (cs.take (exponentLength cs)) := by
  cases cs with
  | nil => exact .inl rfl
  | cons e rest =>
    rw [exponentLength_cons]
    split
    · next h =>
      rw [Nat.add_comm, List.take_succ_cons]
      exact .inr ⟨e, _, rfl, h.1, isInteger_take h.2⟩
    · exact .inl rfl

/-- No exponent starts with a digit. -/
theorem isDigit_of_head?_isExponent {w : List Char} (hw : IsExponent w) :
    ∀ c, w.head? = some c → c.isDigit = false := by
  rcases hw with rfl | ⟨e, power, rfl, he, _⟩
  · simp
  · rintro c ⟨⟩
    rcases he with rfl | rfl <;> rfl

/-- A float is matched to its end. -/
theorem floatLength_of_isFloat {w : List Char} (hw : IsFloat w) : floatLength w = w.length := by
  obtain ⟨whole, fraction, exponent, rfl, hwhole, hfraction, hexponent⟩ := hw
  have hw : integerLength (whole ++ '.' :: (fraction ++ exponent)) = whole.length :=
    integerLength_append hwhole (by rintro c ⟨⟩; rfl)
  have hwpos : 0 < whole.length := List.length_pos_iff.2 (isInteger_ne_nil hwhole)
  have hfpos : 0 < fraction.length := List.length_pos_iff.2 hfraction.1
  have hf : fractionLength ('.' :: (fraction ++ exponent)) = 1 + fraction.length := by
    have hdigits := digitsLength_append hfraction.2 (isDigit_of_head?_isExponent hexponent)
    simp [fractionLength, hdigits, hfpos]
  have hdrop : (whole ++ '.' :: (fraction ++ exponent)).drop
      (whole.length + (1 + fraction.length)) = exponent := by
    rw [← List.drop_drop, List.drop_left, Nat.add_comm, List.drop_succ_cons, List.drop_left]
  have he := exponentLength_of_isExponent hexponent
  simp only [floatLength, hw, List.drop_left, hf, hdrop, he]
  rw [if_pos ⟨hwpos, by omega⟩]
  simp only [List.length_append, List.length_cons]
  omega

/-- What is matched as a fraction is a point and digits. -/
theorem exists_take_fractionLength {cs : List Char} (h : 0 < fractionLength cs) :
    ∃ fraction, cs.take (fractionLength cs) = '.' :: fraction ∧ IsDigits fraction := by
  cases cs with
  | nil => exact absurd h (Nat.lt_irrefl 0)
  | cons c rest =>
    simp only [fractionLength] at h ⊢
    split at h
    · next hpoint =>
      rw [if_pos hpoint]
      obtain ⟨rfl, hdigits⟩ := hpoint
      refine ⟨rest.takeWhile Char.isDigit, ?_, List.length_pos_iff.1 hdigits, ?_⟩
      · rw [Nat.add_comm, List.take_succ_cons, Text.digitsLength, take_length_takeWhile]
      · exact fun c hc => List.mem_takeWhile_imp hc
    · exact absurd h (Nat.lt_irrefl 0)

/-- What is matched as a float is one. -/
theorem isFloat_take {cs : List Char} (h : 0 < floatLength cs) :
    IsFloat (cs.take (floatLength cs)) := by
  simp only [floatLength] at h ⊢
  split at h
  · next hparts =>
    rw [if_pos hparts]
    obtain ⟨fraction, htake, hfraction⟩ := exists_take_fractionLength hparts.2
    refine ⟨_, fraction, _, ?_, isInteger_take hparts.1, hfraction,
      isExponent_take (cs.drop (integerLength cs + fractionLength (cs.drop (integerLength cs))))⟩
    rw [List.take_add, List.take_add, htake, List.append_assoc, List.cons_append]
  · exact absurd h (Nat.lt_irrefl 0)

end Floats

/-! ### Booleans -/

section Booleans

theorem wordLength_of_fold {word w : List Char} (h : w.map foldCase = word) :
    wordLength word w = w.length := by
  have hlength : w.length = word.length := by rw [← h, List.length_map]
  rw [wordLength, ← hlength, List.take_length, if_pos h]

theorem take_wordLength {word cs : List Char} (h : 0 < wordLength word cs) :
    wordLength word cs = word.length ∧ (cs.take (wordLength word cs)).map foldCase = word := by
  rw [wordLength] at h ⊢
  split at h
  · next hfold =>
    rw [if_pos hfold]
    exact ⟨rfl, hfold⟩
  · exact absurd h (Nat.lt_irrefl 0)

/-- No text starts with both words. -/
theorem wordLength_eq_zero (cs : List Char) :
    wordLength ['t', 'r', 'u', 'e'] cs = 0 ∨ wordLength ['f', 'a', 'l', 's', 'e'] cs = 0 := by
  cases cs with
  | nil => exact .inl rfl
  | cons c rest =>
    by_cases hc : foldCase c = 't'
    · right
      simp [wordLength, hc]
    · left
      simp [wordLength, hc]

end Booleans

/-! ### Words of a class -/

variable {rule : Rule} {cs w : List Char}

/-- What a rule for numbers or booleans matches is a word of its class. -/
theorem form_take (hrule : rule ∈ [float, integer, boolean]) (h : 0 < rule.extent cs) :
    rule.Form (cs.take (rule.extent cs)) := by
  simp only [List.mem_cons, List.not_mem_nil, or_false] at hrule
  rcases hrule with rfl | rfl | rfl
  · exact isFloat_take h
  · exact isInteger_take h
  · simp only [extent, Form, IsBoolean] at h ⊢
    rcases wordLength_eq_zero cs with hzero | hzero
    · rw [hzero, Nat.zero_max] at h ⊢
      exact .inr (take_wordLength h).2
    · rw [hzero, Nat.max_zero] at h ⊢
      exact .inl (take_wordLength h).2

/-- A word of the class is matched to its end. -/
theorem extent_of_form (hw : rule.Form w) : rule.extent w = w.length := by
  cases rule
  case float => exact floatLength_of_isFloat hw
  case integer => exact integerLength_of_isInteger hw
  case boolean =>
    rcases wordLength_eq_zero w with hzero | hzero
    · rw [extent, hzero, Nat.zero_max]
      rcases hw with hw | hw
      · rw [wordLength_of_fold hw] at hzero
        rw [List.length_eq_zero_iff.1 hzero] at hw
        cases hw
      · exact wordLength_of_fold hw
    · rw [extent, hzero, Nat.max_zero]
      rcases hw with hw | hw
      · exact wordLength_of_fold hw
      · rw [wordLength_of_fold hw] at hzero
        rw [List.length_eq_zero_iff.1 hzero] at hw
        cases hw
  all_goals exact hw.elim

/-- The empty text is no word. -/
theorem form_ne_nil (hw : rule.Form w) : w ≠ [] := by
  rintro rfl
  cases rule
  case float =>
    obtain ⟨whole, fraction, exponent, h, _⟩ := hw
    simp at h
  case integer => exact isInteger_ne_nil hw rfl
  case boolean => rcases hw with hw | hw <;> cases hw
  all_goals exact hw.elim

theorem isBareChar_of_isInteger (hw : IsInteger w) : ∀ c ∈ w, isBareChar c = true := by
  intro c hc
  rcases mem_cases_of_isInteger hw hc with rfl | rfl | hdigit
  · decide
  · decide
  · exact isBareChar_of_isDigit hdigit

theorem isBareChar_of_isFloat (hw : IsFloat w) : ∀ c ∈ w, isBareChar c = true := by
  obtain ⟨whole, fraction, exponent, rfl, hwhole, hfraction, hexponent⟩ := hw
  intro c hc
  rw [List.mem_append, List.mem_cons, List.mem_append] at hc
  rcases hc with hc | rfl | hc | hc
  · exact isBareChar_of_isInteger hwhole c hc
  · decide
  · exact isBareChar_of_isDigit (hfraction.2 c hc)
  · rcases hexponent with rfl | ⟨e, power, rfl, he, hpower⟩
    · cases hc
    · rcases List.mem_cons.1 hc with rfl | hc
      · rcases he with rfl | rfl <;> decide
      · exact isBareChar_of_isInteger hpower c hc

theorem isBareChar_of_isBoolean (hw : IsBoolean w) : ∀ c ∈ w, isBareChar c = true := by
  intro c hc
  have hmem : foldCase c ∈ w.map foldCase := List.mem_map_of_mem hc
  have hletters : (w.map foldCase).all isBareChar = true := by
    rcases hw with hw | hw <;> rw [hw] <;> rfl
  exact isBareChar_of_foldCase (List.all_eq_true.1 hletters _ hmem)

/-- Numbers and booleans are runs of plain characters. -/
theorem isBare_of_form (hw : rule.Form w) : IsBare w := by
  refine ⟨form_ne_nil hw, ?_⟩
  cases rule
  case float => exact isBareChar_of_isFloat hw
  case integer => exact isBareChar_of_isInteger hw
  case boolean => exact isBareChar_of_isBoolean hw
  all_goals exact hw.elim

theorem isBare_of_isSelector (hw : IsSelector w) : IsBare w :=
  ⟨hw.1, fun c hc => isBareChar_of_isSelectorChar (hw.2 c hc)⟩

/-- No line ends in a run of plain characters. -/
theorem count_lineFeed (hw : IsBare w) : w.count '\n' = 0 := by
  refine List.count_eq_zero.2 fun hmem => ?_
  exact absurd (hw.2 '\n' hmem) (by decide)

/-! ### Words in a text

A run of plain characters is as long as possible where no plain character follows.  No rule for
numbers or booleans goes on behind its end. -/

section Runs

variable {rest : List Char}

/-- Plain characters that a text starts with lie in its first run. -/
theorem length_le_run (hrest : StopsRun rest) {n : Nat}
    (hn : n ≤ (w ++ rest).length) (h : ∀ c ∈ (w ++ rest).take n, isBareChar c = true) :
    n ≤ w.length := by
  by_contra hlong
  obtain ⟨c, tail, rfl⟩ : ∃ c tail, rest = c :: tail := by
    cases rest with
    | nil => simp at hn; omega
    | cons c tail => exact ⟨c, tail, rfl⟩
  have hmem : c ∈ (w ++ c :: tail).take n := by
    rw [show n = w.length + (n - w.length) by omega, List.take_length_add_append,
      show n - w.length = n - w.length - 1 + 1 by omega, List.take_succ_cons]
    simp
  have hc := h c hmem
  rw [hrest c rfl] at hc
  cases hc

theorem extent_le_run (hrule : rule ∈ [float, integer, boolean]) (hrest : StopsRun rest) :
    rule.extent (w ++ rest) ≤ w.length := by
  rcases Nat.eq_zero_or_pos (rule.extent (w ++ rest)) with hzero | hpos
  · rw [hzero]
    exact Nat.zero_le _
  · exact length_le_run hrest (extent_le rule _) (isBare_of_form (form_take hrule hpos)).2

/-- A rule for numbers or booleans takes all of a run exactly if the run is a word of its class. -/
theorem extent_eq_run_iff (hrule : rule ∈ [float, integer, boolean]) (hw : w ≠ [])
    (hrest : StopsRun rest) :
    rule.extent (w ++ rest) = w.length ↔ rule.Form w := by
  constructor
  · intro h
    have hpos : 0 < rule.extent (w ++ rest) := by rw [h]; exact List.length_pos_iff.2 hw
    have hform := form_take hrule hpos
    rwa [h, List.take_left] at hform
  · intro h
    refine Nat.le_antisymm (extent_le_run hrule hrest) (Nat.le_of_not_lt fun hlt => ?_)
    have hshort := extent_take_lt hrule hlt
    rw [List.take_left, extent_of_form h] at hshort
    exact Nat.lt_irrefl _ hshort

end Runs

/-! ### Deciding

The rules decide whether a word is a number or a boolean. -/

theorem form_iff (hrule : rule ∈ [float, integer, boolean]) :
    w ≠ [] ∧ rule.extent w = w.length ↔ rule.Form w := by
  constructor
  · rintro ⟨hw, h⟩
    have hpos : 0 < rule.extent w := by rw [h]; exact List.length_pos_iff.2 hw
    have hform := form_take hrule hpos
    rwa [h, List.take_length] at hform
  · exact fun h => ⟨form_ne_nil h, extent_of_form h⟩

end Rule

instance : DecidablePred IsFloat := fun w =>
  decidable_of_iff (w ≠ [] ∧ Rule.float.extent w = w.length) (Rule.form_iff (by simp))

instance : DecidablePred IsInteger := fun w =>
  decidable_of_iff (w ≠ [] ∧ Rule.integer.extent w = w.length) (Rule.form_iff (by simp))

instance : DecidablePred IsBoolean := fun _ => inferInstanceAs (Decidable (_ ∨ _))

instance : DecidablePred IsSelector := fun _ => inferInstanceAs (Decidable (_ ∧ _))

end Token
end Criteria
