import Criteria.Proofs.Token.Scanner

/-!
# The longest match in one pass

The table of rules with its longest match, and the scanner that looks at each character once, are
two ways to say the same.  The first character leaves few rules that may match; on a run of plain
characters the rule for bare texts takes the whole run, so that the others have to do so too.

**Results.**
* `Token.longest_run`: a run of plain characters is one lexeme.
* `Token.longest_read`: what the scanner reads is what the longest match of all rules gives.
* `Lexer.next_one_pass`: the lexer and the scanner agree, in their answers and in where they stop.
-/

namespace Criteria
namespace Token

/-! ### Rules that may match

The first character of a text leaves few rules that may match there. -/

namespace Rule

/-- A lexeme of the rule may start with the character. -/
def opens : Rule → Char → Bool
  | .float, c | .integer, c | .boolean, c | .selector, c | .bareText, c => isBareChar c
  | .doubleQuoted, c => c = '"'
  | .singleQuoted, c => c = '\''
  | .comparison, c | .equal, c => c = '='
  | .notEqual, c => c = '!'
  | .leftParen, c => c = '('
  | .rightParen, c => c = ')'
  | .comma, c => c = ','
  | .semicolon, c => c = ';'
  | .blanks, c => Text.isBlank c

theorem markLength_eq_zero {mark : List Char} {m c : Char} (rest : List Char) (h : c ≠ m) :
    markLength (m :: mark) (c :: rest) = 0 := by
  simp [markLength, h.symm]

theorem extent_eq_zero_of_opens {rule : Rule} {c : Char} (h : rule.opens c = false)
    (rest : List Char) : rule.extent (c :: rest) = 0 := by
  have hform (hrule : rule ∈ [float, integer, boolean]) (hbare : isBareChar c = false) :
      rule.extent (c :: rest) = 0 := by
    by_contra hpos
    obtain ⟨n, hn⟩ := Nat.exists_eq_succ_of_ne_zero hpos
    have hbare' := (isBare_of_form (form_take hrule (Nat.pos_of_ne_zero hpos))).2
    rw [hn, List.take_succ_cons] at hbare'
    rw [hbare' c List.mem_cons_self] at hbare
    cases hbare
  have hselector : isBareChar c = false → isSelectorChar c = false := by
    intro hbare
    by_contra hc
    rw [isBareChar_of_isSelectorChar (by simpa using hc)] at hbare
    cases hbare
  cases rule
  case float | integer | boolean => exact hform (by simp) h
  case selector => simp [extent, hselector h]
  case bareText | blanks => simp_all [extent, opens]
  case doubleQuoted | singleQuoted => simp_all [extent, opens, Text.Quoted.extent]
  case comparison => simp_all [extent, opens, comparisonLength]
  all_goals exact markLength_eq_zero rest (by simpa [opens] using h)

/-- The rules that the first character leaves. -/
theorem extent_eq_zero_of_filter {c : Char} {rules : List Rule}
    (h : all.filter (·.opens c) = rules) {rule : Rule} (hrule : rule ∉ rules) (rest : List Char) :
    rule.extent (c :: rest) = 0 := by
  refine extent_eq_zero_of_opens (Bool.eq_false_iff.2 fun hopens => hrule ?_) rest
  rw [← h, List.mem_filter]
  exact ⟨mem_all rule, hopens⟩

/-- The longest match where the first character leaves one rule. -/
theorem longest_eq_of_opens {c : Char} (rule : Rule) (h : all.filter (·.opens c) = [rule])
    (rest : List Char) :
    longest (c :: rest) =
      if 0 < rule.extent (c :: rest) then some (rule, rule.extent (c :: rest)) else none :=
  longest_eq_of_only rule fun _ hr => extent_eq_zero_of_filter h (by simpa using hr) rest

/-! ### Lengths in bytes

All rules match at one place of the text, so it makes no difference whether their matches are
measured in characters or in bytes. -/

/-- The number of bytes of a text in UTF-8. -/
def byteLength : List Char → Nat
  | [] => 0
  | c :: cs => c.utf8Size + byteLength cs

theorem byteLength_take_lt_iff {cs : List Char} {m n : Nat} (hn : n ≤ cs.length) :
    byteLength (cs.take m) < byteLength (cs.take n) ↔ m < n := by
  induction cs generalizing m n with
  | nil =>
    obtain rfl : n = 0 := Nat.le_zero.1 hn
    simp [byteLength]
  | cons c cs ih =>
    have hc := c.utf8Size_pos
    cases n with
    | zero => simp [byteLength]
    | succ n =>
      cases m with
      | zero =>
        refine iff_of_true ?_ n.succ_pos
        rw [List.take_zero, List.take_succ_cons, byteLength, byteLength]
        omega
      | succ m =>
        have hstep := ih (m := m) (n := n) (Nat.le_of_succ_le_succ hn)
        simp only [List.take_succ_cons, byteLength, Nat.add_lt_add_iff_left, hstep,
          Nat.succ_lt_succ_iff]

/-- One more rule is compared with the best match so far, by the bytes that they match. -/
def betterInBytes (cs : List Char) (best : Option (Rule × Nat)) (rule : Rule) :
    Option (Rule × Nat) :=
  if byteLength (cs.take (best.elim 0 Prod.snd)) < byteLength (cs.take (rule.extent cs)) then
    some (rule, rule.extent cs)
  else best

/-- The longest match by bytes. -/
def longestInBytes (cs : List Char) : Option (Rule × Nat) :=
  all.foldl (betterInBytes cs) none

theorem longestInBytes_eq (cs : List Char) : longestInBytes cs = longest cs := by
  have hbetter : betterInBytes cs = better cs := by
    funext best rule
    simp only [betterInBytes, better, byteLength_take_lt_iff (extent_le rule cs)]
  rw [longestInBytes, longest, hbetter]

end Rule

/-! ### Quoted texts -/

section Quoted

variable {quote : Char}

/-- The closing quote stands behind the content. -/
theorem closing_eq_content (hquote : quote ≠ '\\') (cs : List Char) :
    Text.Quoted.closing quote cs = (content quote false cs).map (·.length + 1) := by
  fun_induction Text.Quoted.closing quote cs with
  | case1 => rfl
  | case2 c rest ih =>
    rw [ih]
    simp [content, hquote.symm, Function.comp_def]
  | case3 rest _ => simp [content]
  | case4 c rest hescape hc ih =>
    rw [ih]
    by_cases hslash : c = '\\'
    · -- A backslash that ends the text takes nothing.
      subst hslash
      cases rest with
      | nil => simp [content, hc]
      | cons d rest => exact absurd rfl (hescape d rest rfl)
    · simp [content, hc, hslash, Function.comp_def]

theorem quotedExtent_cons (hquote : quote ≠ '\\') (cs : List Char) :
    Text.Quoted.extent quote (quote :: cs) =
      (content quote false cs).elim 0 fun body => body.length + 2 := by
  rw [Text.Quoted.extent, if_pos rfl, closing_eq_content hquote]
  cases content quote false cs <;> rfl

/-- A quoted text is read without its quotes. -/
theorem decode_quoted (body : List Char) (rest : List Char) :
    Text.Quoted.decode quote ((quote :: (body ++ quote :: rest)).take (body.length + 2)) =
      Text.Quoted.unescape quote body := by
  have htake : (quote :: (body ++ quote :: rest)).take (body.length + 2) =
      quote :: (body ++ [quote]) := by
    rw [List.take_succ_cons, List.take_length_add_append]
    rfl
  rw [htake, Text.Quoted.decode, List.drop_succ_cons, List.drop_zero, List.dropLast_concat]

end Quoted

/-! ### What the scanner reads -/

section Read

variable {line : Nat} {c : Char} {rest : List Char}

/-- The scanner's answer at the start of a text is that of the longest match. -/
def Agrees (line : Nat) (cs : List Char) : Option (Except LexError Token × Nat) → Prop
  | none => Rule.longest cs = none
  | some (answer, n) => ∃ rule : Rule, Rule.longest cs = some (rule, n) ∧
      rule.decode (cs.take n) line = answer.map some

theorem agrees_of_longest {cs : List Char} (rule : Rule) {n : Nat}
    {answer : Except LexError Token} (hlongest : Rule.longest cs = some (rule, n))
    (hdecode : rule.decode (cs.take n) line = answer.map some) :
    Agrees line cs (some (answer, n)) :=
  ⟨rule, hlongest, hdecode⟩

/-- A mark of one character. -/
theorem agrees_mark (rule : Rule) {token : Token} (hopens : Rule.all.filter (·.opens c) = [rule])
    (hextent : rule.extent (c :: rest) = 1) (hdecode : ∀ text, rule.decode text line = .ok token) :
    Agrees line (c :: rest) (some (.ok token, 1)) := by
  refine agrees_of_longest rule ?_ (hdecode _)
  rw [Rule.longest_eq_of_opens rule hopens, hextent, if_pos Nat.one_pos]

theorem agrees_exclamation :
    Agrees line ('!' :: rest)
      (if rest.head? = some '=' then some (.ok .notEqual, 2) else none) := by
  have hopens : Rule.all.filter (·.opens '!') = [.notEqual] := by decide
  have hlongest := Rule.longest_eq_of_opens .notEqual hopens rest
  by_cases h : rest.head? = some '='
  · obtain ⟨tail, rfl⟩ := List.head?_eq_some_iff.1 h
    rw [if_pos h]
    exact agrees_of_longest .notEqual hlongest rfl
  · have hzero : Rule.notEqual.extent ('!' :: rest) = 0 := by
      cases rest with
      | nil => rfl
      | cons d tail =>
        have hd : d ≠ '=' := by simpa using h
        simp [Rule.extent, Rule.markLength, hd.symm]
    rw [if_neg h]
    rw [hzero] at hlongest
    exact hlongest

/-- Two equality signs, or a tag between two of them. -/
theorem agrees_equality :
    Agrees line ('=' :: rest)
      ((readOperator rest).map fun (token, n) => (.ok token, n)) := by
  have hopens : Rule.all.filter (·.opens '=') = [.comparison, .equal] := by decide
  have hclosed (r : Rule) (he : r ≠ .equal) (hc : r ≠ .comparison) :
      r.extent ('=' :: rest) = 0 :=
    Rule.extent_eq_zero_of_filter hopens (by simp [he, hc]) rest
  by_cases h : rest.head? = some '='
  · obtain ⟨tail, rfl⟩ := List.head?_eq_some_iff.1 h
    have hcomparison : Rule.comparison.extent ('=' :: '=' :: tail) = 0 := by
      simp [Rule.extent, Rule.comparisonLength, Rule.isTagChar, Char.isLower, Char.isDigit]
    have hlongest := Rule.longest_eq_of_only .equal fun r hr => by
      by_cases hc : r = .comparison
      · rw [hc, hcomparison]
      · exact hclosed r hr hc
    rw [readOperator, if_pos h]
    exact agrees_of_longest .equal hlongest rfl
  · have hequal : Rule.equal.extent ('=' :: rest) = 0 := by
      cases rest with
      | nil => rfl
      | cons d tail =>
        have hd : d ≠ '=' := by simpa using h
        simp [Rule.extent, Rule.markLength, hd.symm]
    have hlongest := Rule.longest_eq_of_only .comparison fun r hr => by
      by_cases he : r = .equal
      · rw [he, hequal]
      · exact hclosed r he hr
    generalize htag : rest.takeWhile Rule.isTagChar = tag
    have hextent : Rule.comparison.extent ('=' :: rest) =
        if tag ≠ [] ∧ (rest.drop tag.length).head? = some '=' then tag.length + 2 else 0 := by
      simp [Rule.extent, Rule.comparisonLength, htag, List.length_pos_iff, List.head?_drop]
    rw [readOperator, if_neg h, htag]
    by_cases hclose : tag ≠ [] ∧ (rest.drop tag.length).head? = some '='
    · rw [hextent, if_pos hclose, if_pos (by omega)] at hlongest
      rw [if_pos hclose]
      refine agrees_of_longest .comparison hlongest ?_
      obtain ⟨tail, htail⟩ := List.head?_eq_some_iff.1 hclose.2
      have hrest : rest = tag ++ '=' :: tail := by
        rw [← htail]
        nth_rewrite 1 [← List.take_append_drop tag.length rest]
        rw [← htag, take_length_takeWhile]
      rw [hrest, List.take_succ_cons, List.take_length_add_append]
      simp [Rule.decode]
      rfl
    · rw [hextent, if_neg hclose, if_neg (Nat.lt_irrefl 0)] at hlongest
      rw [if_neg hclose]
      exact hlongest

/-- A quoted text. -/
theorem agrees_quoted {quote : Char} (hquote : quote = '"' ∨ quote = '\'') :
    Agrees line (quote :: rest) ((content quote false rest).map fun body =>
      (.ok (.text (String.ofList (Text.Quoted.unescape quote body))), body.length + 2)) := by
  obtain ⟨rule, hextent, hdecode, hopens⟩ : ∃ rule : Rule,
      (∀ cs, rule.extent cs = Text.Quoted.extent quote cs) ∧
      (∀ text line, rule.decode text line =
        .ok (some (.text (String.ofList (Text.Quoted.decode quote text))))) ∧
      Rule.all.filter (·.opens quote) = [rule] := by
    rcases hquote with rfl | rfl
    · exact ⟨.doubleQuoted, fun _ => rfl, fun _ _ => rfl, by decide⟩
    · exact ⟨.singleQuoted, fun _ => rfl, fun _ _ => rfl, by decide⟩
  have hslash := ne_slash_of_quote hquote
  have hlongest := Rule.longest_eq_of_opens rule hopens rest
  rw [hextent, quotedExtent_cons hslash] at hlongest
  cases hcontent : content quote false rest with
  | none =>
    rw [hcontent, Option.elim_none, if_neg (Nat.lt_irrefl 0)] at hlongest
    exact hlongest
  | some body =>
    rw [hcontent, Option.elim_some, if_pos (by omega)] at hlongest
    refine agrees_of_longest rule hlongest ?_
    obtain ⟨_, tail, rfl⟩ := (content_eq_some_iff hslash).1 hcontent
    rw [hdecode, decode_quoted]
    rfl

end Read

/-! ### Runs of plain characters -/

section Run

variable {line : Nat} {run rest : List Char}

theorem foldCase_eq_iff {c d : Char} (hs : d ≠ 's') (hlong : d ≠ 'ſ') :
    Rule.foldCase c = d ↔ c.toLower = d := by
  unfold Rule.foldCase
  split
  · next h =>
    subst h
    exact iff_of_false hs.symm hlong.symm
  · exact Iff.rfl

/-- A word without s is spelled without the long s. -/
theorem map_foldCase_eq_iff (run word : List Char) (hword : ∀ d ∈ word, d ≠ 's' ∧ d ≠ 'ſ') :
    run.map Rule.foldCase = word ↔ run.map Char.toLower = word := by
  induction run generalizing word with
  | nil => exact Iff.rfl
  | cons c run ih =>
    cases word with
    | nil => simp
    | cons d word =>
      have hd := hword d List.mem_cons_self
      have hrest := ih word fun d' hd' => hword d' (List.mem_cons_of_mem _ hd')
      rw [List.map_cons, List.map_cons, List.cons.injEq, List.cons.injEq, hrest,
        foldCase_eq_iff hd.1 hd.2]

/-- The rule that classifies a run. -/
def runRule (run : List Char) : Rule :=
  if IsFloat run then .float
  else if IsInteger run then .integer
  else if IsBoolean run then .boolean
  else if IsSelector run then .selector
  else .bareText

theorem decode_runRule (run : List Char) (line : Nat) :
    (runRule run).decode run line = (classify run line).map some := by
  unfold runRule classify
  split_ifs with hfloat hinteger hboolean hselector
  · rw [Rule.decode]
    cases Rule.readFloat run <;> rfl
  · rw [Rule.decode]
    cases Rule.readInteger run <;> rfl
  · have hfold : decide (run.map Char.toLower = ['t', 'r', 'u', 'e']) =
        decide (run.map Rule.foldCase = ['t', 'r', 'u', 'e']) :=
      decide_eq_decide.2 (map_foldCase_eq_iff run ['t', 'r', 'u', 'e'] (by simp)).symm
    rw [Rule.decode, hfold]
    rfl
  · rfl
  · rfl

theorem selector_extent_le_run (hrest : StopsRun rest) :
    Rule.selector.extent (run ++ rest) ≤ run.length := by
  refine Rule.length_le_run hrest (Rule.extent_le _ _) fun c hc => ?_
  rw [Rule.extent, take_length_takeWhile] at hc
  exact Rule.isBareChar_of_isSelectorChar (List.mem_takeWhile_imp hc)

theorem selector_extent_eq_run_iff (hrun : run ≠ []) (hrest : StopsRun rest) :
    Rule.selector.extent (run ++ rest) = run.length ↔ IsSelector run := by
  constructor
  · intro h
    have htake := take_length_takeWhile Rule.isSelectorChar (run ++ rest)
    rw [Rule.extent] at h
    rw [h, List.take_left] at htake
    refine ⟨hrun, fun c hc => ?_⟩
    rw [htake] at hc
    exact List.mem_takeWhile_imp hc
  · intro h
    refine Nat.le_antisymm (selector_extent_le_run hrest) ?_
    rw [Rule.extent, List.takeWhile_append_of_pos h.2, List.length_append]
    exact Nat.le_add_right _ _

/-- No rule matches more than the run of plain characters that a text starts with. -/
theorem extent_le_run (hrun : IsBare run) (hrest : StopsRun rest) (rule : Rule) :
    rule.extent (run ++ rest) ≤ run.length := by
  have hzero (hopens : ∀ c, Rule.isBareChar c = true → rule.opens c = false) :
      rule.extent (run ++ rest) ≤ run.length := by
    obtain ⟨c, tail, rfl⟩ := List.exists_cons_of_ne_nil hrun.1
    rw [List.cons_append,
      Rule.extent_eq_zero_of_opens (hopens c (hrun.2 c List.mem_cons_self))]
    exact Nat.zero_le _
  cases rule
  case float | integer | boolean => exact Rule.extent_le_run (by simp) hrest
  case selector => exact selector_extent_le_run hrest
  case bareText => rw [Rule.extent, takeWhile_append_stop hrun.2 hrest]
  case blanks => exact hzero fun c hc => Rule.isBlank_of_isBareChar hc
  all_goals exact hzero fun c hc => decide_eq_false (Rule.ne_of_isBareChar hc (by decide))

/-- A run of plain characters is one lexeme, and its class is that of the whole run. -/
theorem longest_run (hrun : IsBare run) (hrest : StopsRun rest) :
    Rule.longest (run ++ rest) = some (runRule run, run.length) := by
  have hle := extent_le_run hrun hrest
  have hlt (rule : Rule) (hrule : rule ∈ [.float, .integer, .boolean]) (h : ¬ rule.Form run) :
      rule.extent (run ++ rest) < run.length :=
    Nat.lt_of_le_of_ne (hle rule) fun heq => h ((Rule.extent_eq_run_iff hrule hrun.1 hrest).1 heq)
  have hselector (h : ¬ IsSelector run) : Rule.selector.extent (run ++ rest) < run.length :=
    Nat.lt_of_le_of_ne (hle .selector) fun heq =>
      h ((selector_extent_eq_run_iff hrun.1 hrest).1 heq)
  -- The rules before the one of the run's class match less, those behind it no more.
  have hchoose (before : List Rule) {rule : Rule} (after : List Rule)
      (hall : Rule.all = before ++ rule :: after)
      (hextent : rule.extent (run ++ rest) = run.length)
      (hbefore : ∀ r ∈ before, r.extent (run ++ rest) < run.length) :
      Rule.longest (run ++ rest) = some (rule, run.length) := by
    have hpos : 0 < run.length := List.length_pos_iff.2 hrun.1
    rw [← hextent] at hbefore hle hpos ⊢
    exact Rule.longest_eq_of_split hall hpos hbefore fun r _ => hle r
  unfold runRule
  split_ifs with hfloat hinteger hboolean hword
  · exact hchoose [] _ rfl ((Rule.extent_eq_run_iff (by simp) hrun.1 hrest).2 hfloat) (by simp)
  · refine hchoose [.float] _ rfl
      ((Rule.extent_eq_run_iff (by simp) hrun.1 hrest).2 hinteger) ?_
    simpa using hlt .float (by simp) hfloat
  · refine hchoose [.float, .integer] _ rfl
      ((Rule.extent_eq_run_iff (by simp) hrun.1 hrest).2 hboolean) ?_
    simpa using ⟨hlt .float (by simp) hfloat, hlt .integer (by simp) hinteger⟩
  · refine hchoose [.float, .integer, .boolean] _ rfl
      ((selector_extent_eq_run_iff hrun.1 hrest).2 hword) ?_
    simpa using ⟨hlt .float (by simp) hfloat, hlt .integer (by simp) hinteger,
      hlt .boolean (by simp) hboolean⟩
  · refine hchoose [.float, .integer, .boolean, .selector] _ rfl ?_ ?_
    · rw [Rule.extent, takeWhile_append_stop hrun.2 hrest]
    · simpa using ⟨hlt .float (by simp) hfloat,
        hlt .integer (by simp) hinteger, hlt .boolean (by simp) hboolean,
        hselector hword⟩

end Run

/-! ### The scanner and the longest match -/

/-- What the scanner reads behind the blanks is what the longest match gives. -/
theorem longest_read {c : Char} (hc : Text.isBlank c = false) (line : Nat) (rest : List Char) :
    Agrees line (c :: rest) (read line (c :: rest)) := by
  by_cases hbare : Rule.isBareChar c = true
  · obtain ⟨run, tail, hsplit, hrun, hstop⟩ := exists_run hbare rest
    rw [hsplit, read_run hrun hstop]
    refine agrees_of_longest (runRule run) (longest_run hrun hstop) ?_
    rw [List.take_left]
    exact decode_runRule run line
  · rcases reserved_cases hc hbare with rfl | rfl | rfl | rfl | rfl | rfl | rfl | rfl
    · exact agrees_quoted (.inl rfl)
    · exact agrees_quoted (.inr rfl)
    · exact agrees_mark .semicolon (by decide) rfl fun _ => rfl
    · exact agrees_mark .comma (by decide) rfl fun _ => rfl
    · exact agrees_equality
    · exact agrees_exclamation
    · exact agrees_mark .leftParen (by decide) rfl fun _ => rfl
    · exact agrees_mark .rightParen (by decide) rfl fun _ => rfl

end Token

namespace Lexer

/-- Where no blank comes first, the lexer answers what the scanner reads. -/
theorem next_eq_scanHere {l : Lexer} (h : ∀ c, l.rest.head? = some c → Text.isBlank c = false) :
    l.next = l.scanHere := by
  cases hrest : l.rest with
  | nil =>
    have hlongest : Token.Rule.longest l.rest = none := by rw [hrest]; rfl
    rw [next_of_longest_none hlongest, scanHere, stuck, hrest]
  | cons c rest =>
    have hread := Token.longest_read (h c (by rw [hrest]; rfl)) l.line rest
    cases hanswer : Token.read l.line (c :: rest) with
    | none =>
      rw [hanswer, ← hrest] at hread
      rw [scanHere_of_none hrest hanswer, next_of_longest_none hread, stuck, hrest]
    | some found =>
      obtain ⟨answer, n⟩ := found
      rw [hanswer] at hread
      obtain ⟨rule, hlongest, hdecode⟩ := hread
      rw [← hrest] at hlongest hdecode
      rw [scanHere_of_some hrest hanswer, next_of_longest hlongest, hdecode]
      cases answer <;> rfl

/-- Blanks are skipped first. -/
theorem next_behindBlanks (l : Lexer) : l.next = l.behindBlanks.next := by
  by_cases hblank : ∀ c, l.rest.head? = some c → Text.isBlank c = false
  · rw [behindBlanks_of_not_blank hblank]
  · push Not at hblank
    obtain ⟨c, hc, hblank⟩ := hblank
    rw [Bool.ne_false_iff] at hblank
    obtain ⟨rest, hrest⟩ := List.head?_eq_some_iff.1 hc
    have hne {d : Char} (hd : Text.isBlank d = false) : c ≠ d := by
      rintro rfl
      rw [hblank] at hd
      cases hd
    have hopens : ∀ r : Token.Rule, r ≠ .blanks → r.opens c = false := by
      intro r hr
      cases r
      case blanks => exact absurd rfl hr
      case float | integer | boolean | selector | bareText =>
        simp [Token.Rule.opens, Token.Rule.isBareChar, hblank]
      all_goals exact decide_eq_false (hne (by decide))
    have hlongest := Token.Rule.longest_eq_of_only .blanks fun r hr =>
      Token.Rule.extent_eq_zero_of_opens (hopens r hr) rest
    rw [← hrest, if_pos (by rw [hrest]; simp [Token.Rule.extent, hblank])] at hlongest
    rw [next_of_longest hlongest]
    rfl

/-- The lexer answers and stops as the scanner does. -/
theorem next_eq_scan (l : Lexer) : l.next = l.scan := by
  rw [next_behindBlanks, scan, next_eq_scanHere fun c hc => ?_]
  rw [behindBlanks_rest] at hc
  exact head?_dropWhile_eq hc

/-- A run of plain characters is taken as a whole. -/
theorem next_rest_of_run {l : Lexer} {run rest : List Char} (hrun : Token.IsBare run)
    (hrest : Token.StopsRun rest) (htext : l.rest.dropWhile Text.isBlank = run ++ rest) :
    l.next.2.rest = rest := by
  rw [← behindBlanks_rest] at htext
  obtain ⟨c, tail, rfl⟩ := List.exists_cons_of_ne_nil hrun.1
  have hread := Token.read_run hrun hrest l.behindBlanks.line
  rw [next_eq_scan, scan, scanHere_of_some htext hread, skip, htext]
  exact List.drop_left

/-- A character is unexpected where no lexeme starts. -/
theorem scanHere_unexpected_iff {l : Lexer} {c : Char} {line : Nat} :
    l.scanHere.1 = .error (.unexpectedCharacter c line) ↔
      line = l.line ∧ ∃ rest, l.rest = c :: rest ∧ Token.Stray (c :: rest) := by
  cases hrest : l.rest with
  | nil => simp [scanHere, hrest]
  | cons d rest =>
    cases hread : Token.read l.line (d :: rest) with
    | none =>
      have hstray := Token.read_eq_none_iff.1 hread
      rw [scanHere_of_none hrest hread]
      constructor
      · intro h
        cases h
        exact ⟨rfl, rest, rfl, hstray⟩
      · rintro ⟨rfl, rest', heq, _⟩
        cases heq
        rfl
    | some found =>
      obtain ⟨answer, n⟩ := found
      have hlexeme : ¬ Token.Stray (d :: rest) := by
        intro hstray
        rw [Token.read_eq_none_iff.2 hstray] at hread
        cases hread
      rw [scanHere_of_some hrest hread]
      constructor
      · intro h
        cases answer with
        | ok token => cases h
        | error e =>
          obtain rfl : e = .unexpectedCharacter c line := Except.error.inj h
          exact absurd hread (Token.read_ne_unexpected c line n)
      · rintro ⟨_, rest', heq, hstray⟩
        cases heq
        exact absurd hstray hlexeme

/-- **The longest match is a one-pass scanner.**  The lexer, whose longest match is the longest in
bytes, answers and stops as the scanner does; a run of plain characters is never split; and a
character is unexpected exactly where the text behind the blanks starts with no lexeme. -/
theorem next_one_pass (l : Lexer) :
    Token.Rule.longestInBytes l.rest = Token.Rule.longest l.rest ∧ l.next = l.scan ∧
    (∀ run rest, Token.IsBare run →
      (∀ c, rest.head? = some c → Token.Rule.isBareChar c = false) →
      l.rest.dropWhile Text.isBlank = run ++ rest → l.next.2.rest = rest) ∧
    (∀ c line, l.next.1 = .error (.unexpectedCharacter c line) ↔
      line = l.behindBlanks.line ∧
        ∃ rest, l.rest.dropWhile Text.isBlank = c :: rest ∧ Token.Stray (c :: rest)) := by
  refine ⟨Token.Rule.longestInBytes_eq l.rest, l.next_eq_scan, ?_, ?_⟩
  · intro run rest hrun hrest htext
    exact next_rest_of_run hrun hrest htext
  · intro c line
    rw [next_eq_scan, scan, ← behindBlanks_rest]
    exact scanHere_unexpected_iff

end Lexer
end Criteria
