import Criteria.Token.Lexer
import Mathlib.Data.List.Induction

/-!
# The longest match

Which rule takes a lexeme, and what the rules preferred to it would have matched.

**Results.**
* `Token.Rule.longest_split`: the rules before the chosen one match less than it does, and the
  rules behind it no more.
* `Token.Rule.longest_eq_of_split`: and this makes a rule the chosen one.
* `Token.Rule.extent_take_lt`: a rule that matches less than the lexeme at some place of a text
  does not match the whole lexeme when it stands alone.
* `Lexer.next_of_longest`: one call of the lexer by its longest match.
* `Lexer.next_eq_token`: a token is decoded from a longest match.
-/

namespace Criteria
namespace Token
namespace Rule

/-- The best of some rules in their order, with the rules before it and behind it. -/
theorem foldl_better (cs : List Char) (rules : List Rule) :
    match rules.foldl (better cs) none with
    | none => ∀ r ∈ rules, r.extent cs = 0
    | some (rule, n) => n = rule.extent cs ∧ 0 < n ∧ ∃ before after,
        rules = before ++ rule :: after ∧ (∀ r ∈ before, r.extent cs < n) ∧
          ∀ r ∈ after, r.extent cs ≤ n := by
  induction rules using List.reverseRecOn with
  | nil => simp
  | append_singleton rules last ih =>
    rw [List.foldl_append, List.foldl_cons, List.foldl_nil]
    cases hbest : rules.foldl (better cs) none with
    | none =>
      rw [hbest] at ih
      by_cases hlast : 0 < last.extent cs
      · rw [show better cs none last = some (last, last.extent cs) from if_pos hlast]
        refine ⟨rfl, hlast, rules, [], rfl, fun r hr => ?_, by simp⟩
        rw [ih r hr]
        exact hlast
      · rw [show better cs none last = none from if_neg hlast]
        intro r hr
        rcases List.mem_append.1 hr with hr | hr
        · exact ih r hr
        · rw [List.mem_singleton.1 hr]
          omega
    | some best =>
      obtain ⟨rule, n⟩ := best
      rw [hbest] at ih
      obtain ⟨hn, hpos, before, after, rfl, hbefore, hafter⟩ := ih
      by_cases hlast : n < last.extent cs
      · rw [show better cs (some (rule, n)) last = some (last, last.extent cs) from if_pos hlast]
        refine ⟨rfl, by omega, before ++ rule :: after, [], rfl, fun r hr => ?_, by simp⟩
        rcases List.mem_append.1 hr with hr | hr
        · exact Nat.lt_trans (hbefore r hr) hlast
        · rcases List.mem_cons.1 hr with rfl | hr
          · omega
          · exact Nat.lt_of_le_of_lt (hafter r hr) hlast
      · rw [show better cs (some (rule, n)) last = some (rule, n) from if_neg hlast]
        refine ⟨hn, hpos, before, after ++ [last], by simp, hbefore, fun r hr => ?_⟩
        rcases List.mem_append.1 hr with hr | hr
        · exact hafter r hr
        · rw [List.mem_singleton.1 hr]
          omega

/-- The longest match is longer than those of the rules before it, and as long as those behind. -/
theorem longest_split {cs : List Char} {rule : Rule} {n : Nat}
    (h : longest cs = some (rule, n)) :
    n = rule.extent cs ∧ 0 < n ∧ ∃ before after,
      all = before ++ rule :: after ∧ (∀ r ∈ before, r.extent cs < n) ∧
        ∀ r ∈ after, r.extent cs ≤ n := by
  have hfold := foldl_better cs all
  rw [show all.foldl (better cs) none = some (rule, n) from h] at hfold
  exact hfold

/-- The longest match, when no rule before it matches as much, and none behind it more. -/
theorem longest_eq_of_split {cs : List Char} {rule : Rule} {before after : List Rule}
    (hall : all = before ++ rule :: after) (hpos : 0 < rule.extent cs)
    (hbefore : ∀ r ∈ before, r.extent cs < rule.extent cs)
    (hafter : ∀ r ∈ after, r.extent cs ≤ rule.extent cs) :
    longest cs = some (rule, rule.extent cs) := by
  have hkeep : ∀ rules : List Rule, (∀ r ∈ rules, r.extent cs ≤ rule.extent cs) →
      rules.foldl (better cs) (some (rule, rule.extent cs)) = some (rule, rule.extent cs) := by
    intro rules hrules
    induction rules with
    | nil => rfl
    | cons r rules ih =>
      have hr : ¬ rule.extent cs < r.extent cs :=
        Nat.not_lt_of_le (hrules r List.mem_cons_self)
      rw [List.foldl_cons, better, Option.elim_some, if_neg hr]
      exact ih fun r' hr' => hrules r' (List.mem_cons_of_mem _ hr')
  have hshort : (before.foldl (better cs) none).elim 0 Prod.snd < rule.extent cs := by
    have hbest := foldl_better cs before
    cases hfold : before.foldl (better cs) none with
    | none => exact hpos
    | some best =>
      obtain ⟨r, n⟩ := best
      rw [hfold] at hbest
      obtain ⟨rfl, _, before', after', rfl, _⟩ := hbest
      exact hbefore r (by simp)
  rw [longest, hall, List.foldl_append, List.foldl_cons, better, if_pos hshort]
  exact hkeep after hafter

theorem longest_eq_none {cs : List Char} (h : ∀ rule : Rule, rule.extent cs = 0) :
    longest cs = none := by
  cases hlongest : longest cs with
  | none => rfl
  | some best =>
    obtain ⟨rule, n⟩ := best
    obtain ⟨hn, hpos⟩ := longest_eq_some hlongest
    rw [hn, h rule] at hpos
    exact absurd hpos (Nat.lt_irrefl 0)

theorem mem_all (rule : Rule) : rule ∈ all := by
  cases rule <;> decide

/-- The longest match where one rule at most may match. -/
theorem longest_eq_of_only {cs : List Char} (rule : Rule)
    (h : ∀ r, r ≠ rule → r.extent cs = 0) :
    longest cs = if 0 < rule.extent cs then some (rule, rule.extent cs) else none := by
  split
  · next hpos =>
    obtain ⟨before, after, hall⟩ := List.append_of_mem (mem_all rule)
    have hnodup : all.Nodup := by decide
    rw [hall] at hnodup
    have hne : ∀ r ∈ before ++ after, r ≠ rule := by
      rintro r hr rfl
      exact (List.nodup_cons.1 (List.perm_middle.nodup_iff.1 hnodup)).1 hr
    refine longest_eq_of_split hall hpos (fun r hr => ?_) fun r hr => ?_
    · rw [h r (hne r (List.mem_append_left _ hr))]
      exact hpos
    · rw [h r (hne r (List.mem_append_right _ hr))]
      exact Nat.zero_le _
  · next hzero =>
    refine longest_eq_none fun r => ?_
    by_cases hr : r = rule
    · subst hr
      omega
    · exact h r hr

/-! ### Numbers and words at the start of a lexeme

What a rule for numbers or words matches of the first `n` characters, it matches of the whole
text, where the match may go on. -/

theorem digitsLength_take (n : Nat) (cs : List Char) :
    Text.digitsLength (cs.take n) = min n (Text.digitsLength cs) := by
  rw [Text.digitsLength, ← List.take_takeWhile, List.length_take, Text.digitsLength]

theorem signLength_take (n : Nat) (cs : List Char) (hn : 0 < n) :
    Text.signLength (cs.take n) = Text.signLength cs := by
  cases cs with
  | nil => rw [List.take_nil]
  | cons c rest =>
    obtain ⟨m, rfl⟩ := Nat.exists_eq_succ_of_ne_zero (Nat.ne_of_gt hn)
    rfl

theorem integerLength_take {n : Nat} {cs : List Char} (h : 0 < integerLength (cs.take n)) :
    integerLength (cs.take n) = min n (integerLength cs) := by
  have hn : 0 < n := by
    rcases Nat.eq_zero_or_pos n with rfl | hn
    · exact h
    · exact hn
  have hdigits := digitsLength_take (n - Text.signLength cs) (cs.drop (Text.signLength cs))
  rw [← List.drop_take] at hdigits
  simp only [integerLength, signLength_take n cs hn] at h ⊢
  split at h
  · next hpos =>
    rw [if_pos hpos, if_pos (by omega)]
    omega
  · exact absurd h (Nat.lt_irrefl 0)

theorem fractionLength_take {n : Nat} {cs : List Char} (h : 0 < fractionLength (cs.take n)) :
    fractionLength (cs.take n) = min n (fractionLength cs) := by
  cases n with
  | zero => exact absurd h (Nat.lt_irrefl 0)
  | succ n =>
    cases cs with
    | nil => exact absurd h (Nat.lt_irrefl 0)
    | cons c rest =>
      have hdigits := digitsLength_take n rest
      simp only [List.take_succ_cons, fractionLength] at h ⊢
      split at h
      · next hpos =>
        rw [if_pos hpos, if_pos ⟨hpos.1, by omega⟩]
        omega
      · exact absurd h (Nat.lt_irrefl 0)

theorem exponentLength_take_le (n : Nat) (cs : List Char) :
    exponentLength (cs.take n) ≤ exponentLength cs := by
  cases n with
  | zero => exact Nat.zero_le _
  | succ n =>
    cases cs with
    | nil => exact Nat.le_refl _
    | cons c rest =>
      rcases Nat.eq_zero_or_pos n with rfl | hn
      · simp [exponentLength, Text.signLength, Text.digitsLength]
      · have hdigits := digitsLength_take (n - Text.signLength rest)
          (rest.drop (Text.signLength rest))
        rw [← List.drop_take] at hdigits
        simp only [List.take_succ_cons, exponentLength, signLength_take n rest hn]
        split
        · next h =>
          rw [if_pos ⟨h.1, by omega⟩]
          omega
        · exact Nat.zero_le _

theorem floatLength_take_le (n : Nat) (cs : List Char) :
    floatLength (cs.take n) ≤ floatLength cs := by
  rw [floatLength]
  split
  · next h =>
    obtain ⟨hwhole, hfraction⟩ := h
    have hw := integerLength_take hwhole
    rw [List.drop_take] at hfraction ⊢
    have hf := fractionLength_take hfraction
    -- The whole part ends before the point, so it is the whole part of the text too.
    have hwn : integerLength (cs.take n) = integerLength cs := by omega
    rw [hwn] at hwhole hf hfraction ⊢
    rw [floatLength, if_pos ⟨hwhole, by omega⟩]
    by_cases hcut : n - integerLength cs < fractionLength (cs.drop (integerLength cs))
    · have hend : (cs.take n).drop (integerLength cs +
          fractionLength ((cs.drop (integerLength cs)).take (n - integerLength cs))) = [] := by
        rw [List.drop_eq_nil_iff, List.length_take]
        omega
      rw [hend, exponentLength]
      omega
    · have hsame : fractionLength ((cs.drop (integerLength cs)).take (n - integerLength cs)) =
          fractionLength (cs.drop (integerLength cs)) := by omega
      have he := exponentLength_take_le (n - (integerLength cs +
        fractionLength (cs.drop (integerLength cs)))) (cs.drop (integerLength cs +
          fractionLength (cs.drop (integerLength cs))))
      rw [← List.drop_take] at he
      rw [hsame]
      omega
  · exact Nat.zero_le _

theorem wordLength_take_le (word : List Char) (n : Nat) (cs : List Char) :
    wordLength word (cs.take n) ≤ wordLength word cs := by
  rw [wordLength]
  split
  · next h =>
    have hlength := congrArg List.length h
    rw [List.length_map, List.length_take, List.length_take] at hlength
    rw [List.take_take, Nat.min_eq_left (by omega)] at h
    exact Nat.le_of_eq (if_pos h).symm
  · exact Nat.zero_le _

/-- A number or word that does not reach the end of a lexeme in the text does not do so when the
lexeme stands alone. -/
theorem extent_take_lt {rule : Rule} (hrule : rule ∈ [float, integer, boolean]) {n : Nat}
    {cs : List Char} (h : rule.extent cs < n) : rule.extent (cs.take n) < n := by
  have hle : rule.extent (cs.take n) ≤ rule.extent cs := by
    simp only [List.mem_cons, List.not_mem_nil, or_false] at hrule
    rcases hrule with rfl | rfl | rfl
    · exact floatLength_take_le n cs
    · rcases Nat.eq_zero_or_pos (integerLength (cs.take n)) with h0 | hpos
      · rw [extent, h0]
        exact Nat.zero_le _
      · rw [extent, integerLength_take hpos]
        exact Nat.min_le_right _ _
    · exact Nat.max_le.2
        ⟨Nat.le_trans (wordLength_take_le _ n cs) (Nat.le_max_left _ _),
          Nat.le_trans (wordLength_take_le _ n cs) (Nat.le_max_right _ _)⟩
  omega

end Rule
end Token

namespace Lexer

/-- Where no rule matches, the lexer stays. -/
theorem next_of_longest_none {l : Lexer} (h : Token.Rule.longest l.rest = none) :
    l.next = (l.stuck, l) := by
  rw [next]
  split
  · rfl
  · next hsome => cases h.symm.trans hsome

/-- What the longest match is decoded to says how the lexer goes on. -/
theorem next_of_longest {l : Lexer} {rule : Token.Rule} {n : Nat}
    (h : Token.Rule.longest l.rest = some (rule, n)) :
    l.next = match rule.decode (l.rest.take n) l.line with
      | .ok none => (l.skip n).next
      | .ok (some token) => (.ok (some ⟨token, l.line⟩), l.skip n)
      | .error e => (.error e, l.skip n) := by
  rw [next]
  split
  · next hnone => cases h.symm.trans hnone
  · next hsome => cases h.symm.trans hsome; rfl

/-- A token is decoded from the longest match at some place behind skipped blanks. -/
theorem next_eq_token {l l' : Lexer} {lexeme : Lexeme} (h : l.next = (.ok (some lexeme), l')) :
    ∃ (start : Lexer) (rule : Token.Rule) (n : Nat),
      Token.Rule.longest start.rest = some (rule, n) ∧
      rule.decode (start.rest.take n) start.line = .ok (some lexeme.token) ∧
      lexeme.line = start.line ∧ l' = start.skip n := by
  fun_induction next l with
  | case1 l _ =>
    exact absurd (congrArg Prod.fst h) (stuck_ne_token l lexeme)
  | case2 l rule n _ _ ih => exact ih h
  | case3 l rule n hlongest token hdecode =>
    cases h
    exact ⟨l, rule, n, hlongest, hdecode, rfl, rfl⟩
  | case4 => cases h

end Lexer
end Criteria
